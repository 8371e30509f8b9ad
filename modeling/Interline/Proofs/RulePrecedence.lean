import Mathlib
import Interline.Proofs.ModelCheck

/-! # Which rule decides

A policy is searched from its last rule back.  For each rule the labels of the first statement are
followed anew, then its types are tried in their order, and only if one of them fits is the second
statement looked at.  Little of this shows in the answer, which `Policy.resolve_last_match` states:

* where labels lead to statements, the last rule about these decides (`Policy.Decides`), so a list
  of rules overrules what stands in front of it as soon as it says anything;
* a rule with lists of types says what the rules for all pairs of single types say, in any order
  (`PolicyRule.singles`, `Policy.firstMatch_singles`);
* where the labels of the first statement lead nowhere, no rule can be tried. -/

namespace Interline

/-! ### Rules about statements -/

/-- Whether some type of a side holds of a node. -/
def TypeSpec.holdsFor (spec : TypeSpec) (m : SourceModel) (n : Node) : Bool :=
  spec.types.any fun type => type.holdsFor m n

theorem TypeSpec.holdsFor_eq_true_iff {spec : TypeSpec} {m : SourceModel} {n : Node} :
    spec.holdsFor m n = true ↔ ∃ s ∈ spec.types, s.holdsFor m n = true :=
  List.any_eq_true

@[simp] theorem TypeSpec.holdsFor_single (s : StatementType) (m : SourceModel) (n : Node) :
    (TypeSpec.single s).holdsFor m n = s.holdsFor m n := by
  simp [holdsFor, types]

namespace PolicyRule

/-- Whether a rule is about two statements: some type of either side holds of the statement
there. -/
def IsAbout (r : PolicyRule) (m : SourceModel) (u v : Nat) : Prop :=
  (∃ s ∈ r.previous.types, s.matches? m u = .ok true) ∧
    ∃ s ∈ r.next.types, s.matches? m v = .ok true

/-- What a rule demands, for one type on either side. -/
def single (r : PolicyRule) (s t : StatementType) : PolicyRule :=
  ⟨r.requirement, .single s, .single t⟩

/-- The rules for all pairs of a type of the one side and a type of the other. -/
def singles (r : PolicyRule) : List PolicyRule :=
  r.previous.types.flatMap fun s => r.next.types.map fun t => r.single s t

theorem mem_singles_iff {r x : PolicyRule} :
    x ∈ r.singles ↔ ∃ s ∈ r.previous.types, ∃ t ∈ r.next.types, r.single s t = x := by
  simp only [singles, List.mem_flatMap, List.mem_map]

end PolicyRule

/-- What a list of rules demands of two statements: what the last rule about them does, and nothing
without one. -/
def Policy.Decides (rules : List PolicyRule) (m : SourceModel) (u v : Nat) (q : Requirement) :
    Prop :=
  (∃ before r after, rules = before ++ r :: after ∧ r.IsAbout m u v ∧
    (∀ x ∈ after, ¬x.IsAbout m u v) ∧ q = r.requirement) ∨
  ((∀ r ∈ rules, ¬r.IsAbout m u v) ∧ q = .any)

namespace SourceModel

variable {m : SourceModel}

theorem unwrapLabels_unwrapLabels {a u : Nat} (h : m.unwrapLabels a = .ok u) :
    m.unwrapLabels u = .ok u := by
  fun_induction unwrapLabels m a with
  | case1 => cases h
  | case2 => cases h
  | case3 a n hn hk child hc ih => exact ih h
  | case4 a n hn hk =>
      cases h
      rw [unwrapLabels]
      split
      next hn' => rw [hn] at hn'; cases hn'
      next n' hn' =>
        rw [hn] at hn'
        cases hn'
        rw [if_neg hk]

theorem fits_eq (k l : Node) (r : PolicyRule) :
    m.fits k l r = (r.previous.holdsFor m k && r.next.holdsFor m l) := rfl

theorem fits_eq_true_iff {u v : Nat} {k l : Node} (hu : m.tree.node? u = some k)
    (hv : m.tree.node? v = some l) (r : PolicyRule) :
    m.fits k l r = true ↔ r.IsAbout m u v := by
  simp only [fits, PolicyRule.IsAbout, Bool.and_eq_true, List.any_eq_true, matches?_eq_ok hu,
    matches?_eq_ok hv, Except.ok.injEq]

theorem side_matches?_error {a : Nat} {e : ModelError} (ha : m.unwrapLabels a = .error e)
    (spec : TypeSpec) : spec.matches? m a = .error e := by
  unfold TypeSpec.matches?
  rw [ha]
  rfl

theorem rule_matches?_error {a : Nat} {e : ModelError} (ha : m.unwrapLabels a = .error e)
    (b : Nat) (r : PolicyRule) : r.matches? m a b = .error e := by
  unfold PolicyRule.matches?
  rw [side_matches?_error ha]
  rfl

/-- Labels of the second statement are followed only for rules that fit the first one. -/
theorem rule_matches?_error_next {a b u : Nat} {k : Node} {e : ModelError}
    (ha : m.unwrapLabels a = .ok u) (hu : m.tree.node? u = some k)
    (hb : m.unwrapLabels b = .error e) (r : PolicyRule) :
    r.matches? m a b = if r.previous.holdsFor m k then .error e else .ok false := by
  unfold PolicyRule.matches?
  rw [side_matches?_eq ha hu, side_matches?_error hb]
  rfl

/-! ### Single types in place of lists -/

theorem single_matches? (a b : Nat) {r : PolicyRule} {s t : StatementType}
    (hs : s ∈ r.previous.types) (ht : t ∈ r.next.types) :
    (r.single s t).matches? m a b = .ok false ∨
      (r.single s t).matches? m a b = r.matches? m a b := by
  cases ha : m.unwrapLabels a with
  | error e => exact .inr (by rw [rule_matches?_error ha, rule_matches?_error ha])
  | ok u =>
      obtain ⟨k, hk, -⟩ := node_unwrapLabels ha
      have hprevious : s.holdsFor m k = true → r.previous.holdsFor m k = true :=
        fun h => TypeSpec.holdsFor_eq_true_iff.2 ⟨s, hs, h⟩
      cases hb : m.unwrapLabels b with
      | error e =>
          rw [rule_matches?_error_next ha hk hb, rule_matches?_error_next ha hk hb]
          cases h : s.holdsFor m k with
          | false => simp [PolicyRule.single, h]
          | true => simp [PolicyRule.single, h, hprevious h]
      | ok v =>
          obtain ⟨l, hl, -⟩ := node_unwrapLabels hb
          have hnext : t.holdsFor m l = true → r.next.holdsFor m l = true :=
            fun h => TypeSpec.holdsFor_eq_true_iff.2 ⟨t, ht, h⟩
          rw [rule_matches?_eq ha hk hb hl, rule_matches?_eq ha hk hb hl, fits_eq, fits_eq]
          cases h : s.holdsFor m k with
          | false => simp [PolicyRule.single, h]
          | true =>
              cases h' : t.holdsFor m l with
              | false => simp [PolicyRule.single, h']
              | true => simp [PolicyRule.single, h, h', hprevious h, hnext h']

/-- A rule that says anything of two statements says it through one type on either side, if the
labels of both lead somewhere, or if each side has a type. -/
theorem exists_single_matches? {a b : Nat} {r : PolicyRule}
    (h : ((∃ u, m.unwrapLabels a = .ok u) ∧ ∃ v, m.unwrapLabels b = .ok v) ∨
      r.previous.types ≠ [] ∧ r.next.types ≠ [])
    (hr : r.matches? m a b ≠ .ok false) :
    ∃ x ∈ r.singles, x.matches? m a b = r.matches? m a b := by
  simp only [PolicyRule.mem_singles_iff]
  cases ha : m.unwrapLabels a with
  | error e =>
      obtain ⟨hprevious, hnext⟩ := h.resolve_left (by simp [ha])
      obtain ⟨s, hs⟩ := List.exists_mem_of_ne_nil _ hprevious
      obtain ⟨t, ht⟩ := List.exists_mem_of_ne_nil _ hnext
      refine ⟨_, ⟨s, hs, t, ht, rfl⟩, ?_⟩
      rw [rule_matches?_error ha, rule_matches?_error ha]
  | ok u =>
      obtain ⟨k, hk, -⟩ := node_unwrapLabels ha
      cases hb : m.unwrapLabels b with
      | error e =>
          obtain ⟨-, hnext⟩ := h.resolve_left (by simp [hb])
          obtain ⟨t, ht⟩ := List.exists_mem_of_ne_nil _ hnext
          have hmatch := rule_matches?_error_next ha hk hb
          have hprevious : r.previous.holdsFor m k = true := by
            by_contra hno
            exact hr ((hmatch r).trans (if_neg hno))
          obtain ⟨s, hs, hold⟩ := TypeSpec.holdsFor_eq_true_iff.1 hprevious
          refine ⟨_, ⟨s, hs, t, ht, rfl⟩, ?_⟩
          rw [hmatch, hmatch]
          simp [PolicyRule.single, hold, hprevious]
      | ok v =>
          obtain ⟨l, hl, -⟩ := node_unwrapLabels hb
          have hmatch := rule_matches?_eq ha hk hb hl
          have hfits : m.fits k l r = true := by
            by_contra hno
            exact hr ((hmatch r).trans (congrArg _ (Bool.eq_false_of_not_eq_true hno)))
          obtain ⟨hprevious, hnext⟩ := Bool.and_eq_true_iff.1 hfits
          obtain ⟨s, hs, hold⟩ := TypeSpec.holdsFor_eq_true_iff.1 hprevious
          obtain ⟨t, ht, hold'⟩ := TypeSpec.holdsFor_eq_true_iff.1 hnext
          refine ⟨_, ⟨s, hs, t, ht, rfl⟩, ?_⟩
          rw [hmatch, hmatch, hfits]
          simp [fits_eq, PolicyRule.single, hold, hold']

end SourceModel

namespace Policy

variable {m : SourceModel} {a b : Nat}

theorem firstMatch_append_congr (front : List PolicyRule) {xs ys : List PolicyRule}
    (h : firstMatch m a b xs = firstMatch m a b ys) :
    firstMatch m a b (front ++ xs) = firstMatch m a b (front ++ ys) := by
  induction front with
  | nil => exact h
  | cons r front ih => simp only [List.cons_append, firstMatch, ih]

theorem firstMatch_append_of_false {rules : List PolicyRule}
    (h : ∀ x ∈ rules, x.matches? m a b = .ok false) (rest : List PolicyRule) :
    firstMatch m a b (rules ++ rest) = firstMatch m a b rest := by
  induction rules with
  | nil => rfl
  | cons x rules ih =>
      rw [List.cons_append, firstMatch, h x List.mem_cons_self]
      exact ih fun y hy => h y (List.mem_cons_of_mem _ hy)

/-- Rules that each match as one rule does, or not at all, can stand in its place. -/
theorem firstMatch_append_of_same {r : PolicyRule} (rest : List PolicyRule)
    {rules : List PolicyRule} (hreq : ∀ x ∈ rules, x.requirement = r.requirement)
    (hsame : ∀ x ∈ rules, x.matches? m a b = .ok false ∨ x.matches? m a b = r.matches? m a b)
    (hsome : r.matches? m a b ≠ .ok false →
      ∃ x ∈ rules, x.matches? m a b = r.matches? m a b) :
    firstMatch m a b (rules ++ rest) = firstMatch m a b (r :: rest) := by
  by_cases hr : r.matches? m a b = .ok false
  · rw [firstMatch, hr]
    refine firstMatch_append_of_false (fun x hx => ?_) rest
    rcases hsame x hx with hx | hx
    · exact hx
    · exact hx.trans hr
  -- The first of the rules that matches at all answers for all of them.
  obtain ⟨x, hx, hmatch⟩ := hsome hr
  clear hsome
  induction rules with
  | nil => cases hx
  | cons y rules ih =>
      have hreq' := fun z hz => hreq z (List.mem_cons_of_mem _ hz)
      have hsame' := fun z hz => hsame z (List.mem_cons_of_mem _ hz)
      rw [List.cons_append]
      rcases hsame y List.mem_cons_self with hy | hy
      · rw [firstMatch, hy]
        rcases List.mem_cons.1 hx with rfl | hx
        · exact absurd (hmatch.symm.trans hy) hr
        · exact ih hreq' hsame' hx
      · rw [firstMatch, firstMatch, hy, hreq y List.mem_cons_self]
        cases hv : r.matches? m a b with
        | error e => rfl
        | ok v =>
            cases v with
            | true => rfl
            | false => exact absurd hv hr

theorem firstMatch_singles {r : PolicyRule} {rules : List PolicyRule}
    (hperm : rules.Perm r.singles) (rest : List PolicyRule)
    (h : ((∃ u, m.unwrapLabels a = .ok u) ∧ ∃ v, m.unwrapLabels b = .ok v) ∨
      r.previous.types ≠ [] ∧ r.next.types ≠ []) :
    firstMatch m a b (rules ++ rest) = firstMatch m a b (r :: rest) := by
  have hmem : ∀ x ∈ rules, ∃ s ∈ r.previous.types, ∃ t ∈ r.next.types, r.single s t = x :=
    fun x hx => PolicyRule.mem_singles_iff.1 (hperm.mem_iff.1 hx)
  apply firstMatch_append_of_same
  · intro x hx
    obtain ⟨s, -, t, -, rfl⟩ := hmem x hx
    rfl
  · intro x hx
    obtain ⟨s, hs, t, ht, rfl⟩ := hmem x hx
    exact SourceModel.single_matches? a b hs ht
  · intro hr
    obtain ⟨x, hx, hmatch⟩ := SourceModel.exists_single_matches? h hr
    exact ⟨x, hperm.mem_iff.2 hx, hmatch⟩

theorem resolve_singles {r : PolicyRule} {rules : List PolicyRule}
    (hperm : rules.Perm r.singles) (before after : List PolicyRule)
    (h : ((∃ u, m.unwrapLabels a = .ok u) ∧ ∃ v, m.unwrapLabels b = .ok v) ∨
      r.previous.types ≠ [] ∧ r.next.types ≠ []) :
    resolve ⟨before ++ rules ++ after⟩ m a b = resolve ⟨before ++ r :: after⟩ m a b := by
  have hback : rules.reverse.Perm r.singles := (List.reverse_perm rules).trans hperm
  unfold resolve
  simp only [List.reverse_append, List.reverse_cons, List.append_assoc, List.singleton_append]
  exact firstMatch_append_congr _ (firstMatch_singles hback _ h)

/-! ### The last rule -/

/-- Labels that lead nowhere are met by the first rule that is tried. -/
theorem resolve_error {p : Policy} {e : ModelError} (ha : m.unwrapLabels a = .error e)
    (hp : p.isEmpty = false) : p.resolve m a b = .error e := by
  unfold resolve
  cases hrules : p.rules.reverse with
  | nil => simp [isEmpty, List.reverse_eq_nil_iff.1 hrules] at hp
  | cons r rest =>
      rw [firstMatch, SourceModel.rule_matches?_error ha]
      rfl

section found

variable {u v : Nat} (ha : m.unwrapLabels a = .ok u) (hb : m.unwrapLabels b = .ok v)
include ha hb

theorem resolve_append (first second : List PolicyRule) :
    ((∃ r ∈ second, r.IsAbout m u v) →
      resolve ⟨first ++ second⟩ m a b = resolve ⟨second⟩ m a b) ∧
    ((∀ r ∈ second, ¬r.IsAbout m u v) →
      resolve ⟨first ++ second⟩ m a b = resolve ⟨first⟩ m a b) := by
  obtain ⟨k, hk, -⟩ := SourceModel.node_unwrapLabels ha
  obtain ⟨l, hl, -⟩ := SourceModel.node_unwrapLabels hb
  simp only [SourceModel.resolve_eq ha hk hb hl, List.reverse_append, List.find?_append,
    ← SourceModel.fits_eq_true_iff hk hl]
  constructor
  · rintro ⟨r, hr, hfits⟩
    have hsome : (second.reverse.find? (m.fits k l)).isSome = true :=
      List.find?_isSome.2 ⟨r, List.mem_reverse.2 hr, hfits⟩
    rw [Option.or_of_isSome hsome]
  · intro hno
    have hnone : second.reverse.find? (m.fits k l) = none :=
      List.find?_eq_none.2 fun r hr => hno r (List.mem_reverse.1 hr)
    rw [hnone, Option.none_or]

theorem exists_decides (rules : List PolicyRule) :
    ∃ q, Decides rules m u v q ∧ resolve ⟨rules⟩ m a b = .ok q := by
  obtain ⟨k, hk, -⟩ := SourceModel.node_unwrapLabels ha
  obtain ⟨l, hl, -⟩ := SourceModel.node_unwrapLabels hb
  have habout := SourceModel.fits_eq_true_iff (m := m) hk hl
  refine ⟨_, ?_, SourceModel.resolve_eq ha hk hb hl ⟨rules⟩⟩
  cases hfind : rules.reverse.find? (m.fits k l) with
  | none =>
      refine .inr ⟨fun r hr hr' => ?_, rfl⟩
      exact List.find?_eq_none.1 hfind r (List.mem_reverse.2 hr) ((habout r).2 hr')
  | some r =>
      obtain ⟨hr, back, front, hsplit, hback⟩ := List.find?_eq_some_iff_append.1 hfind
      refine .inl ⟨front.reverse, r, back.reverse, ?_, (habout r).1 hr, fun x hx hx' => ?_, rfl⟩
      · rw [← List.reverse_reverse rules, hsplit]
        simp
      · have hno := hback x (List.mem_reverse.1 hx)
        rw [(habout x).2 hx'] at hno
        cases hno

theorem resolve_behind (p : Policy) : p.resolve m u v = p.resolve m a b := by
  obtain ⟨k, hk, -⟩ := SourceModel.node_unwrapLabels ha
  obtain ⟨l, hl, -⟩ := SourceModel.node_unwrapLabels hb
  have hu := SourceModel.unwrapLabels_unwrapLabels ha
  have hv := SourceModel.unwrapLabels_unwrapLabels hb
  rw [SourceModel.resolve_eq ha hk hb hl, SourceModel.resolve_eq hu hk hv hl]

end found

/-- **The last rule about the statements behind the labels decides.**  Where the labels of two nodes
lead to statements, a policy demands of the nodes what it demands of these: what the last rule about
them does.  So of two lists put together the second one decides if it has such a rule, and else the
first one does.  The rules for all pairs of single types, in any order, can stand in the place of a
rule; if the rule has types, this is so for all nodes.  Where the labels of the first node lead
nowhere, every policy with rules says so. -/
theorem resolve_last_match (m : SourceModel) :
    (∀ a b u v, m.unwrapLabels a = .ok u → m.unwrapLabels b = .ok v →
      (∀ rules, ∃ q, Decides rules m u v q ∧ resolve ⟨rules⟩ m a b = .ok q ∧
        resolve ⟨rules⟩ m u v = .ok q) ∧
      (∀ first second,
        ((∃ r ∈ second, r.IsAbout m u v) →
          resolve ⟨first ++ second⟩ m a b = resolve ⟨second⟩ m a b) ∧
        ((∀ r ∈ second, ¬r.IsAbout m u v) →
          resolve ⟨first ++ second⟩ m a b = resolve ⟨first⟩ m a b)) ∧
      ∀ before r after rules, rules.Perm r.singles →
        resolve ⟨before ++ rules ++ after⟩ m a b = resolve ⟨before ++ r :: after⟩ m a b) ∧
    (∀ a b before r after rules, r.previous.types ≠ [] → r.next.types ≠ [] →
      rules.Perm r.singles →
        resolve ⟨before ++ rules ++ after⟩ m a b = resolve ⟨before ++ r :: after⟩ m a b) ∧
    ∀ a b e (p : Policy), m.unwrapLabels a = .error e → p.isEmpty = false →
      p.resolve m a b = .error e := by
  refine ⟨fun a b u v ha hb => ⟨fun rules => ?_, resolve_append ha hb, ?_⟩, ?_, ?_⟩
  · obtain ⟨q, hq, hresolve⟩ := exists_decides ha hb rules
    exact ⟨q, hq, hresolve, (resolve_behind ha hb _).trans hresolve⟩
  · intro before r after rules hperm
    exact resolve_singles hperm before after (.inl ⟨⟨u, ha⟩, v, hb⟩)
  · intro a b before r after rules hprevious hnext hperm
    exact resolve_singles hperm before after (.inr ⟨hprevious, hnext⟩)
  · intro a b e p ha hp
    exact resolve_error ha hp

/-- A block behind a label, a statement, and a label with nothing behind it. -/
def labeledBlock : SourceModel :=
  .ofOffsets "k: {}\nb; c:"
    [⟨.identifier, 0, 1, none⟩, ⟨.punctuator, 1, 2, none⟩, ⟨.punctuator, 3, 4, none⟩,
      ⟨.punctuator, 4, 5, some .block⟩, ⟨.identifier, 6, 7, none⟩, ⟨.punctuator, 7, 8, none⟩,
      ⟨.identifier, 9, 10, none⟩, ⟨.punctuator, 10, 11, none⟩]
    [⟨0, .statement .labeled, 0, 5⟩, ⟨1, .statement .block, 3, 5⟩,
      ⟨0, .statement (.expression false), 6, 8⟩, ⟨0, .statement .labeled, 9, 11⟩] (by decide)

/-- A rule with two types on either side, of which the later ones fit. -/
def joinBlocks : PolicyRule :=
  ⟨.never, .anyOf [.keyword .while, .block], .anyOf [.directive, .expression]⟩

theorem resolve_last_match_labeledBlock :
    labeledBlock.unwrapLabels 1 = .ok 2 ∧ labeledBlock.unwrapLabels 3 = .ok 3 ∧
    Decides [⟨.always, .single .any, .single .any⟩, joinBlocks,
      ⟨.blankLine, .single .empty, .single .any⟩] labeledBlock 2 3 .never ∧
    resolve ⟨[⟨.always, .single .any, .single .any⟩] ++ joinBlocks.singles.reverse ++
      [⟨.blankLine, .single .empty, .single .any⟩]⟩ labeledBlock 1 3 = .ok .never ∧
    joinBlocks.IsAbout labeledBlock 2 3 ∧
    resolve ⟨[⟨.always, .single .any, .single .any⟩] ++ [joinBlocks]⟩ labeledBlock 1 3 =
      resolve ⟨[joinBlocks]⟩ labeledBlock 1 3 ∧
    labeledBlock.unwrapLabels 4 = .error (.missingLabelBody 4) ∧
    resolve ⟨[joinBlocks]⟩ labeledBlock 4 3 = .error (.missingLabelBody 4) ∧
    resolve ⟨[] ++ joinBlocks.singles ++ []⟩ labeledBlock 4 3 =
      resolve ⟨[] ++ [joinBlocks]⟩ labeledBlock 4 3 := by
  have ha : labeledBlock.unwrapLabels 1 = .ok 2 := by cbv
  have hb : labeledBlock.unwrapLabels 3 = .ok 3 := by cbv
  have hc : labeledBlock.unwrapLabels 4 = .error (.missingLabelBody 4) := by cbv
  have hlisted : resolve ⟨[⟨.always, .single .any, .single .any⟩, joinBlocks,
      ⟨.blankLine, .single .empty, .single .any⟩]⟩ labeledBlock 1 3 = .ok .never := by cbv
  have habout : joinBlocks.IsAbout labeledBlock 2 3 :=
    ⟨⟨.block, by decide, by cbv⟩, .expression, by decide, by cbv⟩
  obtain ⟨hfound, hplaced, hnowhere⟩ := resolve_last_match labeledBlock
  obtain ⟨hdecides, hsplit, hexpand⟩ := hfound 1 3 2 3 ha hb
  obtain ⟨q, hq, hresolve, -⟩ := hdecides [⟨.always, .single .any, .single .any⟩, joinBlocks,
    ⟨.blankLine, .single .empty, .single .any⟩]
  cases hresolve.symm.trans hlisted
  refine ⟨ha, hb, hq, ?_, habout, ?_, hc, ?_, ?_⟩
  · exact (hexpand _ joinBlocks _ _ (List.reverse_perm _)).trans hlisted
  · exact (hsplit _ _).1 ⟨joinBlocks, List.mem_singleton_self _, habout⟩
  · exact hnowhere 4 3 _ _ hc rfl
  · exact hplaced 4 3 [] joinBlocks [] _ (by decide) (by decide) (List.Perm.refl _)

end Policy

end Interline
