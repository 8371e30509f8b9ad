import Mathlib
import Interline.Proofs.Adjacency

/-! # A check is one pass over the neighbours

The walk of `Policy.check` goes down a tree and carries the last item of each list along.  None of
this shows in its result: `Policy.check_eq` says that it inspects the pairs of `SyntaxTree.pairs`
one after the other.  `Policy.checkPairs` is that plain pass; it stops at the first pair that cannot
be judged (`checkPairs_error`), and otherwise reports the pairs in violation in their order
(`checkPairs_ok`).

`Policy.judge` is the part of an inspection that can fail.  Once it has an answer, a repair can be
proposed (`exists_propose`): the requirement was found by following the labels of the first
statement, and the line breaks were counted between tokens that are still there. -/

namespace Interline

theorem exists_of_bind_eq_ok {ε α β : Type} {x : Except ε α} {f : α → Except ε β} {b : β}
    (h : (x >>= f) = .ok b) :
    ∃ a, x = .ok a ∧ f a = .ok b := by
  cases x with
  | error e => cases h
  | ok a => exact ⟨a, rfl, h⟩

namespace Policy

variable {p : Policy} {m : SourceModel}

/-! ### Plain passes -/

/-- Inspects pairs one after the other. -/
def checkPairs (p : Policy) (m : SourceModel) :
    List (Nat × Nat) → Except ModelError (List Report)
  | [] => .ok []
  | (previous, node) :: rest => do
      let own ← p.inspect m previous node
      let others ← checkPairs p m rest
      return own ++ others

theorem checkPairs_append (l₁ l₂ : List (Nat × Nat)) :
    p.checkPairs m (l₁ ++ l₂) = do
      let a ← p.checkPairs m l₁
      let b ← p.checkPairs m l₂
      return a ++ b := by
  induction l₁ with
  | nil => simp [checkPairs, bind, Except.bind, pure, Except.pure]; cases p.checkPairs m l₂ <;> rfl
  | cons x l₁ ih =>
      simp only [List.cons_append, checkPairs, ih, bind_assoc, pure_bind, List.append_assoc]

theorem pairsAmong_cons (t : SyntaxTree) (c : Nat) (ids : List Nat) :
    t.pairsAmong (c :: ids) =
      ((t.precursor? c).map (·, c)).toList ++ t.pairsAmong ids := by
  unfold SyntaxTree.pairsAmong
  rw [List.filterMap_cons]
  cases t.precursor? c <;> rfl

theorem pairsAmong_append (t : SyntaxTree) (l₁ l₂ : List Nat) :
    t.pairsAmong (l₁ ++ l₂) = t.pairsAmong l₁ ++ t.pairsAmong l₂ :=
  List.filterMap_append

/-! ### The walk -/

/-- What the walk says of a child by itself: its inspection with the last item before it. -/
def inspectItem (p : Policy) (m : SourceModel) (previous : Option Nat) (isListed : Bool)
    (c : Nat) : Except ModelError (List Report) :=
  match isListed, previous with
  | true, some previous => p.inspect m previous c
  | _, _ => .ok []

theorem reportsOn_cons {a c : Nat} {rest : List Nat} {isList : Bool} {previous : Option Nat}
    (above : ∀ d ∈ c :: rest, a < d ∧ d < m.tree.size) :
    p.reportsOn m a isList previous (c :: rest) above = do
      let own ← p.inspectItem m previous (isList && m.tree.isItem c) c
      let inner ← p.reportsBelow m c
      let others ← p.reportsOn m a isList (if isList && m.tree.isItem c then some c else previous)
        rest fun d hd => above d (List.mem_cons_of_mem _ hd)
      return own ++ inner ++ others := by
  have hitem : isItem m c = m.tree.isItem c := rfl
  conv_lhs => unfold reportsOn
  rw [hitem]
  unfold inspectItem
  cases isList && m.tree.isItem c <;> cases previous <;> rfl

theorem inspectItem_eq {a c : Nat} {n : Node} {earlier later : List Nat} (hl : m.tree.Linked)
    (hn : m.tree.node? a = some n) (e : n.children = earlier ++ c :: later) :
    p.inspectItem m (if n.kind.isStatementList then m.tree.lastItem? earlier else none)
        (n.kind.isStatementList && m.tree.isItem c) c =
      p.checkPairs m ((m.tree.precursor? c).map (·, c)).toList := by
  rw [SyntaxTree.precursor?_child hl hn e]
  unfold inspectItem
  cases n.kind.isStatementList with
  | false => rfl
  | true =>
      cases m.tree.isItem c with
      | false => rfl
      | true =>
          cases m.tree.lastItem? earlier with
          | none => rfl
          | some x =>
              simp only [Bool.and_self, if_true, Option.map_some, Option.toList_some, checkPairs]
              cases p.inspect m x c <;> simp [bind, Except.bind, pure, Except.pure]

/-- The walk over the children of a node, if it is right about the nodes below them.  Between two
children the walk knows the last item among those it has passed. -/
theorem reportsOn_eq (hl : m.tree.Linked) {a : Nat} {n : Node} (hn : m.tree.node? a = some n) :
    ∀ (rest earlier : List Nat) (above : ∀ c ∈ rest, a < c ∧ c < m.tree.size),
      n.children = earlier ++ rest →
      (∀ c ∈ rest, p.reportsBelow m c =
        p.checkPairs m (m.tree.pairsAmong (m.tree.subtree c).tail)) →
      p.reportsOn m a n.kind.isStatementList
          (if n.kind.isStatementList then m.tree.lastItem? earlier else none) rest above =
        p.checkPairs m (m.tree.pairsAmong (rest.flatMap m.tree.subtree))
  | [], _, _, _, _ => by
      rw [reportsOn]
      rfl
  | c :: rest, earlier, above, e, below => by
      obtain ⟨k, hk⟩ := SyntaxTree.node?_isSome (above c List.mem_cons_self).2
      have hpre := SyntaxTree.precursor?_child hl hn e
      have htail : m.tree.subtree c = c :: (m.tree.subtree c).tail := by
        rw [SyntaxTree.subtree_eq hk, List.tail_cons]
      have ih := reportsOn_eq hl hn rest (earlier ++ [c])
        (fun d hd => above d (List.mem_cons_of_mem _ hd)) (by rw [e]; simp)
        (fun d hd => below d (List.mem_cons_of_mem _ hd))
      have hnext : (if n.kind.isStatementList then m.tree.lastItem? (earlier ++ [c]) else none) =
          if n.kind.isStatementList && m.tree.isItem c then some c
          else if n.kind.isStatementList then m.tree.lastItem? earlier else none := by
        rw [SyntaxTree.lastItem?_concat]
        cases n.kind.isStatementList <;> simp
      rw [hnext] at ih
      rw [reportsOn_cons, inspectItem_eq hl hn e, below c List.mem_cons_self, ih,
        List.flatMap_cons, htail, List.cons_append, pairsAmong_cons, pairsAmong_append,
        checkPairs_append, checkPairs_append]
      simp only [bind_assoc, pure_bind, List.append_assoc, List.tail_cons]

theorem reportsBelow_eq (hl : m.tree.Linked) : ∀ {a : Nat}, a < m.tree.size →
    p.reportsBelow m a = p.checkPairs m (m.tree.pairsAmong (m.tree.subtree a).tail) := by
  intro a
  induction h : m.tree.size - a using Nat.strong_induction_on generalizing a with
  | _ k ih =>
      intro ha
      obtain ⟨n, hn⟩ := SyntaxTree.node?_isSome ha
      rw [SyntaxTree.subtree_eq hn, List.tail_cons, reportsBelow]
      split
      next hn' => rw [hn] at hn'; cases hn'
      next n' hn' =>
        rw [hn] at hn'
        cases hn'
        have := reportsOn_eq (p := p) hl hn n.children []
          (fun c hc => SyntaxTree.child_bounds hn hc) rfl (fun c hc => by
            have hlt := SyntaxTree.child_bounds hn hc
            exact ih (m.tree.size - c) (by omega) rfl hlt.2)
        simpa [SyntaxTree.lastItem?] using this

/-- **A check inspects all pairs of neighbours**, in pre-order. -/
theorem check_eq (hl : m.tree.Linked) (hp : p.isEmpty = false) :
    p.check m = p.checkPairs m m.tree.pairs := by
  obtain ⟨r, hr, -⟩ := hl.root
  have htail : m.tree.pairs = m.tree.pairsAmong (m.tree.subtree SyntaxTree.root).tail := by
    unfold SyntaxTree.pairs
    rw [SyntaxTree.subtree_eq hr, pairsAmong_cons, SyntaxTree.precursor?_root hl]
    rfl
  unfold check
  rw [hp, htail, reportsBelow_eq hl (SyntaxTree.node?_lt hr)]
  rfl

/-! ### Verdicts -/

/-- The requirement for a pair and the line breaks that it has. -/
def judge (p : Policy) (m : SourceModel) (pair : Nat × Nat) :
    Except ModelError (Requirement × Nat) := do
  let requirement ← p.resolve m pair.1 pair.2
  let linebreaks ← Linebreaks.count m pair.1 pair.2
  return (requirement, linebreaks)

/-- Whether a pair can be judged and does not comply. -/
def isViolated (p : Policy) (m : SourceModel) (pair : Nat × Nat) : Bool :=
  match p.judge m pair with
  | .ok (requirement, linebreaks) => !requirement.isSatisfiedBy linebreaks
  | .error _ => false

/-- What a report says: the pair, the requirement that it was judged by, and the repair. -/
def Reports (p : Policy) (m : SourceModel) (pair : Nat × Nat) (r : Report) : Prop :=
  (r.previous, r.node) = pair ∧ (∃ linebreaks, p.judge m pair = .ok (r.requirement, linebreaks)) ∧
    Repair.propose r.requirement m pair.1 pair.2 = .ok r.fix

theorem inspect_eq (a b : Nat) :
    p.inspect m a b = do
      let (requirement, linebreaks) ← p.judge m (a, b)
      if requirement.isSatisfiedBy linebreaks then return []
      else return [⟨a, b, requirement, ← Repair.propose requirement m a b⟩] := by
  unfold inspect judge
  cases p.resolve m a b with
  | error e => rfl
  | ok r =>
      cases Linebreaks.count m a b with
      | error e => rfl
      | ok k => rfl

theorem judge_eq_ok {a b k : Nat} {r : Requirement} (h : p.judge m (a, b) = .ok (r, k)) :
    p.resolve m a b = .ok r ∧ Linebreaks.count m a b = .ok k := by
  unfold judge at h
  obtain ⟨r', hr, h⟩ := exists_of_bind_eq_ok h
  obtain ⟨k', hk, h⟩ := exists_of_bind_eq_ok h
  cases h
  exact ⟨hr, hk⟩

end Policy

section repairs

variable {m : SourceModel}

/-! ### Repairs of pairs that were judged -/

theorem SourceModel.node_unwrapLabels {a u : Nat} (h : m.unwrapLabels a = .ok u) :
    ∃ n, m.tree.node? u = some n ∧ n.kind ≠ .statement .labeled := by
  fun_induction SourceModel.unwrapLabels m a with
  | case1 => cases h
  | case2 => cases h
  | case3 a n hn hk child hc ih => exact ih h
  | case4 a n hn hk =>
      cases h
      exact ⟨n, hn, hk⟩

theorem SourceModel.node_eq_ok {a : Nat} {n : Node} (h : m.tree.node? a = some n) :
    m.node a = .ok n := by
  unfold SourceModel.node
  rw [h]

theorem Linebreaks.count_eq {a b i f : Nat} (hi : m.lastToken a = .ok i)
    (hf : m.firstToken b = .ok f) :
    Linebreaks.count m a b = .ok (Linebreaks.betweenTokens m.tokens i f) := by
  unfold Linebreaks.count
  rw [hi, hf]
  rfl

theorem Linebreaks.count_eq_ok {a b k : Nat} (h : Linebreaks.count m a b = .ok k) :
    ∃ last first, m.lastToken a = .ok last ∧ m.firstToken b = .ok first ∧
      k = Linebreaks.betweenTokens m.tokens last first := by
  unfold Linebreaks.count at h
  obtain ⟨last, hl, h⟩ := exists_of_bind_eq_ok h
  obtain ⟨first, hf, h⟩ := exists_of_bind_eq_ok h
  cases h
  exact ⟨last, first, hl, hf, rfl⟩

theorem Policy.linebreaks_of_judge {p : Policy} {a b k i f : Nat} {r : Requirement}
    (h : p.judge m (a, b) = .ok (r, k)) (hi : m.lastToken a = .ok i)
    (hf : m.firstToken b = .ok f) : k = Linebreaks.betweenTokens m.tokens i f := by
  obtain ⟨i', f', hi', hf', hk⟩ := Linebreaks.count_eq_ok (Policy.judge_eq_ok h).2
  rw [hi] at hi'
  cases hi'
  rw [hf] at hf'
  cases hf'
  exact hk

/-- A policy with a rule follows the labels of the first statement before anything else. -/
theorem Policy.unwrapLabels_of_resolve {p : Policy} {a b : Nat} {r : Requirement}
    (hp : p.isEmpty = false) (h : p.resolve m a b = .ok r) : ∃ u, m.unwrapLabels a = .ok u := by
  unfold Policy.resolve at h
  cases hrules : p.rules.reverse with
  | nil =>
      have : p.rules = [] := List.reverse_eq_nil_iff.1 hrules
      simp [Policy.isEmpty, this] at hp
  | cons rule rest =>
      rw [hrules] at h
      cases hu : m.unwrapLabels a with
      | ok u => exact ⟨u, rfl⟩
      | error e =>
          have hm : rule.matches? m a b = .error e := by
            unfold PolicyRule.matches? TypeSpec.matches?
            rw [hu]
            rfl
          unfold Policy.firstMatch at h
          rw [hm] at h
          cases h

theorem Repair.endsExplicitly_isOk {a u : Nat} (hu : m.unwrapLabels a = .ok u) (last : Token) :
    ∃ b, Repair.endsExplicitly m a last = .ok b := by
  obtain ⟨n, hn, -⟩ := SourceModel.node_unwrapLabels hu
  unfold Repair.endsExplicitly
  split
  · exact ⟨_, rfl⟩
  · split
    · exact ⟨_, rfl⟩
    · rw [hu]
      simp only [bind, Except.bind]
      rw [SourceModel.node_eq_ok hn]
      exact ⟨_, rfl⟩

/-- **A repair is proposed for every pair that was judged.** -/
theorem Policy.exists_propose {p : Policy} {a b k : Nat} {r : Requirement}
    (hp : p.isEmpty = false) (h : p.judge m (a, b) = .ok (r, k)) (r' : Requirement) :
    ∃ fix, Repair.propose r' m a b = .ok fix := by
  obtain ⟨hr, hk⟩ := Policy.judge_eq_ok h
  obtain ⟨u, hu⟩ := Policy.unwrapLabels_of_resolve hp hr
  obtain ⟨last, first, hlast, hfirst, -⟩ := Linebreaks.count_eq_ok hk
  unfold Repair.propose
  cases r' with
  | any => exact ⟨none, rfl⟩
  | always =>
      simp only [hlast]
      exact ⟨_, rfl⟩
  | blankLine =>
      simp only [hlast]
      exact ⟨_, rfl⟩
  | never =>
      simp only [Repair.join, hlast, hfirst, bind, Except.bind]
      split
      next token _ _ _ =>
        split
        · exact ⟨none, rfl⟩
        · obtain ⟨e, he⟩ := Repair.endsExplicitly_isOk hu token
          rw [he]
          cases e <;> exact ⟨_, rfl⟩
      next => exact ⟨none, rfl⟩

end repairs

namespace Policy

variable {p : Policy} {m : SourceModel}

/-- A pass stops at the first pair that cannot be judged. -/
theorem checkPairs_error (hp : p.isEmpty = false) {pair : Nat × Nat} {e : ModelError}
    (after : List (Nat × Nat)) :
    ∀ {before : List (Nat × Nat)}, (∀ q ∈ before, ∃ v, p.judge m q = .ok v) →
      p.judge m pair = .error e → p.checkPairs m (before ++ pair :: after) = .error e
  | [], _, he => by
      obtain ⟨a, b⟩ := pair
      rw [List.nil_append, checkPairs, inspect_eq, he]
      rfl
  | (a, b) :: before, hok, he => by
      obtain ⟨⟨r, k⟩, hv⟩ := hok (a, b) List.mem_cons_self
      have ih := checkPairs_error hp after (fun q hq => hok q (List.mem_cons_of_mem _ hq)) he
      obtain ⟨fix, hfix⟩ := exists_propose hp hv r
      rw [List.cons_append, checkPairs, inspect_eq, hv, ih]
      simp only [bind, Except.bind, hfix]
      cases r.isSatisfiedBy k <;> rfl

theorem checkPairs_ok (hp : p.isEmpty = false) :
    ∀ (pairs : List (Nat × Nat)), (∀ q ∈ pairs, ∃ v, p.judge m q = .ok v) →
      ∃ reports, p.checkPairs m pairs = .ok reports ∧
        List.Forall₂ (p.Reports m) (pairs.filter (p.isViolated m)) reports
  | [], _ => ⟨[], rfl, by simp⟩
  | (a, b) :: pairs, hok => by
      obtain ⟨⟨r, k⟩, hv⟩ := hok (a, b) List.mem_cons_self
      obtain ⟨reports, hreports, hall⟩ := checkPairs_ok hp pairs
        (fun q hq => hok q (List.mem_cons_of_mem _ hq))
      obtain ⟨fix, hfix⟩ := exists_propose hp hv r
      rw [checkPairs, inspect_eq, hv, hreports, List.filter_cons]
      have hviolated : p.isViolated m (a, b) = !r.isSatisfiedBy k := by
        unfold isViolated
        rw [hv]
      rw [hviolated]
      simp only [bind, Except.bind, hfix]
      cases r.isSatisfiedBy k with
      | true => exact ⟨reports, rfl, hall⟩
      | false => exact ⟨⟨a, b, r, fix⟩ :: reports, rfl, .cons ⟨rfl, ⟨k, hv⟩, hfix⟩ hall⟩

theorem exists_pair_of_mem {report : Report} : ∀ {pairs : List (Nat × Nat)}
    {reports : List Report}, p.checkPairs m pairs = .ok reports → report ∈ reports →
      ∃ pair ∈ pairs, p.Reports m pair report
  | [], reports, h, hr => by
      cases h
      cases hr
  | (a, b) :: pairs, reports, h, hr => by
      rw [checkPairs, inspect_eq] at h
      obtain ⟨own, hown, h⟩ := exists_of_bind_eq_ok h
      obtain ⟨others, hothers, h⟩ := exists_of_bind_eq_ok h
      obtain ⟨⟨r, k⟩, hv, hown⟩ := exists_of_bind_eq_ok hown
      cases h
      rcases List.mem_append.1 hr with hr | hr
      · cases hs : r.isSatisfiedBy k with
        | true =>
            simp only [hs, if_true] at hown
            cases hown
            cases hr
        | false =>
            simp only [hs, Bool.false_eq_true, if_false] at hown
            obtain ⟨fix, hfix, hown⟩ := exists_of_bind_eq_ok hown
            cases hown
            rw [List.mem_singleton.1 hr]
            exact ⟨(a, b), List.mem_cons_self, rfl, ⟨k, hv⟩, hfix⟩
      · obtain ⟨pair, hpair, hreport⟩ := exists_pair_of_mem hothers hr
        exact ⟨pair, List.mem_cons_of_mem _ hpair, hreport⟩

theorem reports_of_mem (hl : m.tree.Linked) {reports : List Report} (h : p.check m = .ok reports)
    {report : Report} (hr : report ∈ reports) :
    m.tree.Adjacent report.previous report.node ∧
      p.Reports m (report.previous, report.node) report := by
  cases hp : p.isEmpty with
  | true =>
      unfold check at h
      rw [hp] at h
      cases h
      cases hr
  | false =>
      rw [check_eq hl hp] at h
      obtain ⟨⟨a, b⟩, hpair, hreport⟩ := exists_pair_of_mem h hr
      obtain ⟨hsame, -⟩ := id hreport
      cases hsame
      exact ⟨(SyntaxTree.mem_pairs_iff hl).1 hpair, hreport⟩

end Policy

end Interline
