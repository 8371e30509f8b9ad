import Mathlib
import Interline.Proofs.LastTokens
import Interline.Proofs.ModelCheck

/-! # Joining across the end of a statement

Some statements need no semicolon, because the line break behind them ends them
(`StatementKind.mayEndWithLine`).  A join takes line breaks out, so none of these may end where it
starts; `SourceModel.SparesOpenEnds` says that none does, at any depth.

`Repair.join` decides by the statement behind the labels and by the last token
(`Repair.join_eq_some`), which is right for that statement, but not for one that ends together with
it.  What it misses lies on one way down the tree, the `SyntaxTree.path` to the last token, and
`Policy.sparesOpenEnds_iff` gives the exact condition, by the ends on that way and by the kinds of
statements on it.  `if (a) x = function () {}` is a statement that fails it. -/

namespace Interline

/-- Statements that a line break may end. -/
def StatementKind.mayEndWithLine : StatementKind → Bool
  | .expression _ | .variableDeclaration | .return | .throw | .break | .continue | .doWhile
  | .debugger | .import | .export => true
  | _ => false

def NodeKind.mayEndWithLine : NodeKind → Bool
  | .statement k => k.mayEndWithLine
  | _ => false

/-! ### Ways down a tree -/

namespace SyntaxTree

variable {t : SyntaxTree}

/-- The way from a node down to a span: on to the child that contains it, while there is one. -/
def path (t : SyntaxTree) (inner : Span) (a : Nat) : List Nat :=
  match _h : t.node? a with
  | none => []
  | some n =>
    match _hc : n.children.find? fun c => (t.node? c).any fun k => k.span.contains inner with
    | none => [a]
    | some c => a :: t.path inner c
termination_by t.size - a
decreasing_by
  have := child_bounds _h (List.mem_of_find?_eq_some _hc)
  omega

theorem Nested.exists_contains (hn : t.Nested) {c d : Nat} {k : Node} {inner : Span}
    (hc : c < t.size) (hcd : t.Below c d) (hd : t.node? d = some k)
    (hin : k.span.contains inner = true) :
    ∃ l, t.node? c = some l ∧ l.span.contains inner = true := by
  obtain ⟨l, hl⟩ := node?_isSome hc
  exact ⟨l, hl, Span.contains_trans (hn.contains hcd hl hd) hin⟩

theorem mem_path_iff (hn : t.Nested) (hl : t.Linked) {inner : Span}
    (hinner : inner.start < inner.stop) {a d : Nat} {n : Node} (ha : t.node? a = some n)
    (hin : n.span.contains inner = true) : d ∈ t.path inner a ↔
      t.Below a d ∧ ∃ k, t.node? d = some k ∧ k.span.contains inner = true := by
  fun_induction path t inner a generalizing n with
  | case1 a hnone => cases ha.symm.trans hnone
  | case2 a n' ha' hnone =>
      cases ha.symm.trans ha'
      rw [List.mem_singleton]
      constructor
      · rintro rfl
        exact ⟨.refl t d, _, ha, hin⟩
      · rintro ⟨had, k, hk, hkin⟩
        rcases had.cases_child with rfl | ⟨c, hac, hcd⟩
        · rfl
        · obtain ⟨l, hc, hcin⟩ := hn.exists_contains hac.lt.2 hcd hk hkin
          obtain ⟨n', ha', hmem⟩ := hac
          cases ha.symm.trans ha'
          have hout := List.find?_eq_none.1 hnone c hmem
          rw [hc, Option.any_some] at hout
          exact absurd hcin hout
  | case3 a n' ha' c hsome ih =>
      cases ha.symm.trans ha'
      have hac : t.IsChild a c := ⟨_, ha, List.mem_of_find?_eq_some hsome⟩
      have hany := List.find?_some hsome
      obtain ⟨l, hc, hcin⟩ := (Option.any_eq_true _ _).1 hany
      rw [List.mem_cons, ih hc hcin]
      constructor
      · rintro (rfl | ⟨hcd, hk⟩)
        · exact ⟨.refl t d, _, ha, hin⟩
        · exact ⟨(Below.of_isChild hac).trans hcd, hk⟩
      · rintro ⟨had, k, hk, hkin⟩
        rcases had.cases_child with rfl | ⟨c', hac', hcd⟩
        · exact .inl rfl
        · obtain ⟨l', hc', hcin'⟩ := hn.exists_contains hac'.lt.2 hcd hk hkin
          obtain rfl := hn.eq_of_contains hl hinner hac hac' hc hc' hcin hcin'
          exact .inr ⟨hcd, k, hk, hkin⟩

end SyntaxTree

/-! ### Joins -/

namespace Repair

variable {m : SourceModel}

/-- A statement ends on its own with a semicolon, or with the brace of a body that is its own as far
as its kind tells. -/
theorem endsExplicitly_eq_true {a : Nat} {last : Token}
    (h : endsExplicitly m a last = .ok true) : last.isSemicolon = true ∨
      (last.endsBody = true ∧ ∃ u k, m.unwrapLabels a = .ok u ∧ m.tree.node? u = some k ∧
        endsWithBody k.kind = true) := by
  unfold endsExplicitly at h
  split at h
  next hsemi => exact .inl hsemi
  next =>
    split at h
    next => cases h
    next hbody =>
      obtain ⟨u, hu, h⟩ := exists_of_bind_eq_ok h
      obtain ⟨k, hk, h⟩ := exists_of_bind_eq_ok h
      have hnode := SourceModel.node?_of_node hk
      exact .inr ⟨by simpa using hbody, u, k, hu, hnode, Except.ok.inj h⟩

theorem join_eq_some {a b : Nat} {r : Replacement} (h : join m a b = .ok (some r)) :
    ∃ i f last first, m.lastToken a = .ok i ∧ m.firstToken b = .ok f ∧
      m.token? i = some last ∧ m.token? f = some first ∧
      (m.tokens.between i f true).any Token.isComment = false ∧
      endsExplicitly m a last = .ok true ∧
      r = .removal last.span.stop first.span.start := by
  unfold join at h
  obtain ⟨i, hi, h⟩ := exists_of_bind_eq_ok h
  obtain ⟨f, hf, h⟩ := exists_of_bind_eq_ok h
  split at h
  next last first hlast hfirst =>
    split at h
    next => cases h
    next hno =>
      obtain ⟨explicit, he, h⟩ := exists_of_bind_eq_ok h
      cases explicit with
      | false => cases h
      | true =>
          cases h
          exact ⟨i, f, last, first, hi, hf, hlast, hfirst, by simpa using hno, he, rfl⟩
  next => cases h

end Repair

namespace SourceModel

variable {m : SourceModel}

theorem contains_lastToken (hs : m.tokens.Separate) {a i : Nat} (h : m.lastToken a = .ok i) :
    ∃ n t, m.tree.node? a = some n ∧ m.token? i = some t ∧ n.span.contains t.span = true := by
  obtain ⟨n, l, hn, hl⟩ := exists_lastIn h
  obtain ⟨⟨t, ht, hin, -⟩, -⟩ := (TokenStore.lastIn_eq_some_iff hs).1 hl
  rcases lastToken_cases hn hl h with ⟨rfl, -⟩ | ⟨s, t', -, -, hs', -, hbef, ht', -, -, hstart, -⟩
  · exact ⟨n, t, hn, ht, hin⟩
  · rw [show m.token? l = some t from ht] at hs'
    cases hs'
    have := hs.stop_lt (TokenStore.before_eq_some_iff.1 hbef).1.1 ht' ht
    rw [TokenStore.contains_iff] at hin
    exact ⟨n, t', hn, ht', TokenStore.contains_iff.2 ⟨hstart, by omega⟩⟩

/-- Between labels and the statement behind them there is nothing but labels. -/
theorem kind_of_below_unwrapLabels (hl : m.tree.Linked) {a u : Nat}
    (h : m.unwrapLabels a = .ok u) : m.tree.Below a u ∧ ∀ {d : Nat} {k : Node},
      m.tree.Below a d → m.tree.Below d u → m.tree.node? d = some k →
        d = u ∨ k.kind = .statement .labeled := by
  fun_induction unwrapLabels m a with
  | case1 => cases h
  | case2 => cases h
  | case3 a n hn hk child hc ih =>
      obtain ⟨hbelow, hbetween⟩ := ih h
      have hac : m.tree.IsChild a child := ⟨n, hn, List.mem_of_find?_eq_some hc⟩
      refine ⟨(SyntaxTree.Below.of_isChild hac).trans hbelow, fun {d k} had hdu hd => ?_⟩
      rcases had.cases_child with rfl | ⟨c, hac', hcd⟩
      · rw [hn] at hd
        cases hd
        exact .inr hk
      · obtain rfl := hl.eq_of_below hac hac' hbelow (hcd.trans hdu)
        exact hbetween hcd hdu hd
  | case4 a n hn hk =>
      cases h
      refine ⟨.refl _ _, fun {d k} had hda _ => .inl ?_⟩
      have := had.le
      have := hda.le
      omega

/-- No statement within `a` that a line break may end, `a` included, ends where the edit starts,
unless with a semicolon. -/
def SparesOpenEnds (m : SourceModel) (a : Nat) (r : Replacement) : Prop :=
  ∀ (d i : Nat) (k : Node) (t : Token), m.tree.Below a d → m.tree.node? d = some k →
    k.kind.mayEndWithLine = true → m.tokens.lastIn k.span (fun _ => true) = some i →
    m.token? i = some t → t.span.stop = r.start → t.isSemicolon = true

/-- Whether a node is a statement that a line break may end, with this token at its end. -/
def endsOpen (m : SourceModel) (i d : Nat) : Bool :=
  (m.tree.node? d).any fun k =>
    k.kind.mayEndWithLine && m.tokens.lastIn k.span (fun _ => true) == some i

theorem endsOpen_iff {i d : Nat} : m.endsOpen i d = true ↔ ∃ k, m.tree.node? d = some k ∧
    k.kind.mayEndWithLine = true ∧ m.tokens.lastIn k.span (fun _ => true) = some i := by
  unfold endsOpen
  cases m.tree.node? d <;> simp

end SourceModel

namespace Repair

variable {m : SourceModel} {sort : NodeKind → Bool}

theorem not_mayEndWithLine_of_endsWithBody {k : NodeKind} (h : endsWithBody k = true) :
    k.mayEndWithLine = false := by
  unfold endsWithBody at h
  split at h
  next k => cases k <;> first | rfl | cases h
  next => cases h

theorem not_mayEndWithLine_of_unwrapLabels (hl : m.tree.Linked) {a u d : Nat} {k l : Node}
    (hu : m.unwrapLabels a = .ok u) (hk : m.tree.node? u = some k)
    (hbody : endsWithBody k.kind = true) (had : m.tree.Below a d) (hdu : m.tree.Below d u)
    (hd : m.tree.node? d = some l) : l.kind.mayEndWithLine = false := by
  rcases (SourceModel.kind_of_below_unwrapLabels hl hu).2 had hdu hd with rfl | hlab
  · rw [hk] at hd
    cases hd
    exact not_mayEndWithLine_of_endsWithBody hbody
  · rw [hlab]
    rfl

theorem sparesOpenEnds_iff_path (hm : m.Coherent sort) {a i : Nat} {n : Node} {t : Token}
    {r : Replacement} (ha : m.tree.node? a = some n) (ht : m.token? i = some t)
    (hin : n.span.contains t.span = true) (hr : r.start = t.span.stop) :
    m.SparesOpenEnds a r ↔
      t.isSemicolon = true ∨ (m.tree.path t.span a).any (m.endsOpen i) = false := by
  have hs := hm.placed.separate
  have hpath : ∀ {d : Nat}, d ∈ m.tree.path t.span a ↔ m.tree.Below a d ∧
      ∃ k, m.tree.node? d = some k ∧ k.span.contains t.span = true :=
    SyntaxTree.mem_path_iff hm.nested hm.grown.linked (hs.width ht) ha hin
  constructor
  · intro hspares
    by_cases hsemi : t.isSemicolon = true
    · exact .inl hsemi
    · right
      rw [List.any_eq_false]
      intro d hd hopen
      obtain ⟨k, hk, hkind, hlast⟩ := SourceModel.endsOpen_iff.1 hopen
      exact hsemi (hspares d i k t (hpath.1 hd).1 hk hkind hlast ht hr.symm)
  · intro hor d j k t' had hd hkind hlast ht' hstop
    obtain rfl := hs.eq_of_stop_eq ht' ht (hstop.trans hr)
    rw [ht] at ht'
    cases ht'
    rcases hor with hsemi | hnone
    · exact hsemi
    · obtain ⟨⟨t', ht'', hind, -⟩, -⟩ := (TokenStore.lastIn_eq_some_iff hs).1 hlast
      rw [show m.tokens.get? j = some t from ht] at ht''
      cases ht''
      have hmem := hpath.2 ⟨had, k, hd, hind⟩
      have hopen := SourceModel.endsOpen_iff.2 ⟨k, hd, hkind, hlast⟩
      exact absurd hopen (List.any_eq_false.1 hnone d hmem)

/-- A node on the way from a statement to its last token ends with that token as well, if it does
not go on to a semicolon that the statement hands over to the next line. -/
theorem lastIn_eq_or_semicolon (hm : m.Coherent sort) {a d i : Nat} {n k : Node} {t : Token}
    (ha : m.tree.node? a = some n) (hi : m.lastToken a = .ok i) (ht : m.token? i = some t)
    (had : m.tree.Below a d) (hd : m.tree.node? d = some k)
    (hin : k.span.contains t.span = true) :
    m.tokens.lastIn k.span (fun _ => true) = some i ∨ ∃ l s, i < l ∧ m.token? l = some s ∧
      s.isSemicolon = true ∧ k.span.contains s.span = true := by
  have hs := hm.placed.separate
  obtain ⟨n', l, hn', hlast⟩ := SourceModel.exists_lastIn hi
  cases ha.symm.trans hn'
  have hcode : m.tokens.CodeIn k.span (fun _ => true) i := by
    obtain ⟨t', ht', hcounts⟩ := SourceModel.countsAt_of_lastToken hs hi
    cases ht.symm.trans ht'
    exact ⟨t, ht, hin, by simpa [TokenStore.counts] using hcounts, rfl⟩
  obtain ⟨j, hj⟩ := TokenStore.exists_lastIn hs hcode
  obtain ⟨⟨s, hsj, hinj, hcodej, -⟩, hmax⟩ := (TokenStore.lastIn_eq_some_iff hs).1 hj
  have hij : i ≤ j := hmax i hcode
  have hjl : j ≤ l := ((TokenStore.lastIn_eq_some_iff hs).1 hlast).2 j
    ⟨s, hsj, Span.contains_trans (hm.nested.contains had ha hd) hinj, hcodej, rfl⟩
  rcases Nat.eq_or_lt_of_le hij with rfl | hlt
  · exact .inl hj
  rcases SourceModel.lastToken_cases ha hlast hi with ⟨rfl, -⟩ | hguards
  · omega
  · obtain ⟨semicolon, -, -, -, hsemi, his, hbefore, -⟩ := hguards
    -- There is no code between the token and the semicolon that is handed over.
    obtain rfl : j = l := by
      by_contra hne
      have := (TokenStore.before_eq_some_iff.1 hbefore).2 j (by omega)
        ⟨s, hsj, by simp [TokenStore.counts, hcodej]⟩
      omega
    obtain rfl : semicolon = s := Option.some.inj (hsemi.symm.trans hsj)
    exact .inr ⟨j, semicolon, hlt, hsj, his, hinj⟩

theorem any_endsOpen_iff (hm : m.Coherent sort) {a i : Nat} {n : Node} {t : Token}
    (ha : m.tree.node? a = some n) (hi : m.lastToken a = .ok i) (ht : m.token? i = some t)
    (hin : n.span.contains t.span = true) : (m.tree.path t.span a).any (m.endsOpen i) = false ↔
      ∀ d ∈ m.tree.path t.span a, ∀ k, m.tree.node? d = some k → k.kind.mayEndWithLine = true →
        ∃ l s, i < l ∧ m.token? l = some s ∧ s.isSemicolon = true ∧
          k.span.contains s.span = true := by
  have hs := hm.placed.separate
  rw [List.any_eq_false]
  constructor
  · intro hnone d hd k hk hkind
    obtain ⟨had, k', hk', hind⟩ :=
      (SyntaxTree.mem_path_iff hm.nested hm.grown.linked (hs.width ht) ha hin).1 hd
    cases hk.symm.trans hk'
    refine (lastIn_eq_or_semicolon hm ha hi ht had hk hind).resolve_left fun hlast => ?_
    exact hnone d hd (SourceModel.endsOpen_iff.2 ⟨k, hk, hkind, hlast⟩)
  · intro hall d hd hopen
    obtain ⟨k, hk, hkind, hlast⟩ := SourceModel.endsOpen_iff.1 hopen
    obtain ⟨l, s, hlt, hl, hsemi, hinl⟩ := hall d hd k hk hkind
    have := ((TokenStore.lastIn_eq_some_iff hs).1 hlast).2 l
      ⟨s, hl, hinl, Token.not_isComment_of_isSemicolon hsemi, rfl⟩
    omega

/-- **What a join may overlook.**  A join starts behind the last token of the first statement.  If
that is no semicolon, it is the brace of a body, and no statement on the way from the labels to the
statement behind them can be ended by a line break.  Further down the join is safe exactly if no
statement on the way to the brace ends with it and can be ended by a line break: of the kinds that a
line break may end, only statements that go on to a semicolon may be met there. -/
theorem sparesOpenEnds_iff (hm : m.Coherent sort) {a b : Nat} {r : Replacement}
    (h : propose .never m a b = .ok (some r)) :
    ∃ i t, m.lastToken a = .ok i ∧ m.token? i = some t ∧ r.start = t.span.stop ∧
      (t.isSemicolon = true ∨ (t.endsBody = true ∧ ∃ u, m.unwrapLabels a = .ok u ∧
        ∀ d k, m.tree.Below a d → m.tree.Below d u → m.tree.node? d = some k →
          k.kind.mayEndWithLine = false)) ∧
      (m.SparesOpenEnds a r ↔
        t.isSemicolon = true ∨ (m.tree.path t.span a).any (m.endsOpen i) = false) ∧
      ((m.tree.path t.span a).any (m.endsOpen i) = false ↔
        ∀ d ∈ m.tree.path t.span a, ∀ k, m.tree.node? d = some k → k.kind.mayEndWithLine = true →
          ∃ l s, i < l ∧ m.token? l = some s ∧ s.isSemicolon = true ∧
            k.span.contains s.span = true) := by
  obtain ⟨i, f, t, first, hi, -, ht, -, -, he, rfl⟩ := join_eq_some h
  obtain ⟨n, t', hn, ht', hin⟩ := SourceModel.contains_lastToken hm.placed.separate hi
  rw [ht] at ht'
  cases ht'
  refine ⟨i, t, hi, ht, rfl, ?_, sparesOpenEnds_iff_path hm hn ht hin rfl,
    any_endsOpen_iff hm hn hi ht hin⟩
  rcases endsExplicitly_eq_true he with hsemi | ⟨hbody, u, k, hu, hk, hkind⟩
  · exact .inl hsemi
  · refine .inr ⟨hbody, u, hu, fun d l had hdu hd => ?_⟩
    exact not_mayEndWithLine_of_unwrapLabels hm.grown.linked hu hk hkind had hdu hd

/-- A branch in a body of its own, behind a label: its brace is no open end. -/
def labeledBranch : SourceModel :=
  .ofOffsets "a: if (b) \x7b\x7d\nc"
    [⟨.identifier, 0, 1, none⟩, ⟨.punctuator, 1, 2, none⟩, ⟨.keyword, 3, 5, none⟩,
      ⟨.punctuator, 6, 7, none⟩, ⟨.identifier, 7, 8, none⟩, ⟨.punctuator, 8, 9, none⟩,
      ⟨.punctuator, 10, 11, none⟩, ⟨.punctuator, 11, 12, some .block⟩,
      ⟨.identifier, 13, 14, none⟩]
    [⟨0, .statement .labeled, 0, 12⟩, ⟨1, .statement .conditional, 3, 12⟩,
      ⟨2, .statement .block, 10, 12⟩, ⟨0, .statement (.expression false), 13, 14⟩] (by decide)

theorem sparesOpenEnds_labeledBranch :
    labeledBranch.Coherent NodeKind.isStatement ∧
    propose .never labeledBranch 1 4 = .ok (some (.removal 12 13)) ∧
    labeledBranch.SparesOpenEnds 1 (.removal 12 13) := by
  have hm : labeledBranch.Coherent NodeKind.isStatement :=
    ⟨SourceModel.grown_ofOffsets _, by decide +kernel, by decide +kernel, by decide +kernel⟩
  have hjoin : propose .never labeledBranch 1 4 = .ok (some (.removal 12 13)) := by cbv
  refine ⟨hm, hjoin, ?_⟩
  obtain ⟨i, t, hi, ht, -, -, hiff, -⟩ := sparesOpenEnds_iff hm hjoin
  have hlast : labeledBranch.lastToken 1 = .ok 7 := by cbv
  rw [hlast] at hi
  cases hi
  cases ht
  exact hiff.2 (.inr (by decide +kernel))

/-- A branch without a body of its own.  The brace at its end is that of a function, and the line
break behind it ends the assignment. -/
def functionInBranch : SourceModel :=
  .ofOffsets "if (a) x = function () \x7b\x7d\nfoo()"
    [⟨.keyword, 0, 2, none⟩, ⟨.punctuator, 3, 4, none⟩, ⟨.identifier, 4, 5, none⟩,
      ⟨.punctuator, 5, 6, none⟩, ⟨.identifier, 7, 8, none⟩, ⟨.punctuator, 9, 10, none⟩,
      ⟨.keyword, 11, 19, none⟩, ⟨.punctuator, 20, 21, none⟩, ⟨.punctuator, 21, 22, none⟩,
      ⟨.punctuator, 23, 24, none⟩, ⟨.punctuator, 24, 25, some .block⟩,
      ⟨.identifier, 26, 29, none⟩, ⟨.punctuator, 29, 30, none⟩, ⟨.punctuator, 30, 31, none⟩]
    [⟨0, .statement .conditional, 0, 25⟩, ⟨1, .statement (.expression false), 7, 25⟩,
      ⟨2, .other, 11, 25⟩, ⟨3, .statement .block, 23, 25⟩,
      ⟨0, .statement (.expression false), 26, 31⟩] (by decide)

theorem not_sparesOpenEnds_functionInBranch :
    functionInBranch.Coherent NodeKind.isStatement ∧ functionInBranch.LabelsHold ∧
    functionInBranch.Spaced JavaScript.isSpace ∧
    functionInBranch.tree.Adjacent 1 5 ∧
    propose .never functionInBranch 1 5 = .ok (some (.removal 25 26)) ∧
    ¬functionInBranch.SparesOpenEnds 1 (.removal 25 26) := by
  have hpairs : functionInBranch.tree.pairs = [(1, 5)] := by decide +kernel
  have hm : functionInBranch.Coherent NodeKind.isStatement :=
    ⟨SourceModel.grown_ofOffsets _, by decide +kernel, by decide +kernel, by decide +kernel⟩
  refine ⟨hm, by decide +kernel, by decide +kernel, ?_, by cbv, ?_⟩
  · rw [← SyntaxTree.mem_pairs_iff hm.grown.linked, hpairs]
    exact List.mem_singleton.2 rfl
  · intro h
    have hbelow : functionInBranch.tree.Below 1 2 := .of_isChild ⟨_, rfl, by decide +kernel⟩
    have hlast : functionInBranch.tokens.lastIn ⟨7, 25, ⟨1, 7⟩, ⟨1, 25⟩⟩ (fun _ => true) =
        some 10 := by decide +kernel
    have hsemi := h 2 10 _ _ hbelow rfl rfl hlast rfl rfl
    exact absurd hsemi (by decide +kernel)

end Repair

end Interline
