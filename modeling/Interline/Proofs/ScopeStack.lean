import Mathlib
import Interline.Proofs.CheckedPairs

/-! # The walk with a stack of scopes

A check can be read as a walk with one mutable state: the statement lists that are open, innermost
first, each with the last item that the walk has seen in it, and the reports so far.  `walk` is that
machine.  It looks up the list of an item from the item itself, so it can meet an item while no list
is open; `WalkError.noScope` is the answer to this.

`walk_child` says what one step of the machine does to any stack: it leaves the stack as it was, but
for the last item of the innermost list, and adds the reports on the pairs below the node.  The
stack is never asked for a scope that it does not have, and its end is its start
(`stackCheck_eq`). -/

namespace Interline.Policy

/-! ### The machine -/

/-- Why a walk stops early: the model does not answer, or an item stands outside of all lists. -/
inductive WalkError
  | model (e : ModelError)
  | noScope (id : Nat)
deriving DecidableEq

/-- The open lists with the last item of each, innermost first, and what was reported. -/
structure WalkState where
  scopes : List (Option Nat)
  reports : List Report

/-- Compares an item with the one before it in the innermost list, and puts it in its place. -/
def visit (p : Policy) (m : SourceModel) (id : Nat) (w : WalkState) :
    Except WalkError WalkState := do
  let item ← (m.node id).mapError .model
  match item.parent with
  | none => return w
  | some parent =>
    let list ← (m.node parent).mapError .model
    if !list.kind.isStatementList then return w
    else
      match w.scopes with
      | [] => throw (.noScope id)
      | none :: outer => return { w with scopes := some id :: outer }
      | some previous :: outer =>
        let own ← (p.inspect m previous id).mapError .model
        return ⟨some id :: outer, w.reports ++ own⟩

mutual

/-- Visits a node, and then what is below it, in a scope of its own if it is a list. -/
def walk (p : Policy) (m : SourceModel) (id : Nat) (w : WalkState) :
    Except WalkError WalkState :=
  match h : m.tree.node? id with
  | none => throw (.model (.danglingNode id))
  | some n => do
    let above := fun c hc => SyntaxTree.child_bounds h (c := c) hc
    let w ← if n.kind.isListItem then p.visit m id w else pure w
    if n.kind.isStatementList then
      let w ← p.walkAll m id n.children above { w with scopes := none :: w.scopes }
      return { w with scopes := w.scopes.tail }
    else p.walkAll m id n.children above w
termination_by (m.tree.size - id, 1, 0)
decreasing_by
  all_goals exact Prod.Lex.right _ (Prod.Lex.left _ _ (by omega))

/-- Walks the children of a node, one after the other. -/
def walkAll (p : Policy) (m : SourceModel) (parent : Nat) (children : List Nat)
    (above : ∀ c ∈ children, parent < c ∧ c < m.tree.size) (w : WalkState) :
    Except WalkError WalkState :=
  match children, above with
  | [], _ => return w
  | c :: rest, above => do
    let w ← p.walk m c w
    p.walkAll m parent rest (fun d hd => above d (List.mem_cons_of_mem _ hd)) w
termination_by (m.tree.size - parent, 0, children.length)
decreasing_by
  · have := above c List.mem_cons_self
    exact Prod.Lex.left _ _ (by omega)
  · exact Prod.Lex.right _ (Prod.Lex.right _ (by simp))

end

/-- A check by the machine, from the empty stack. -/
def stackCheck (p : Policy) (m : SourceModel) : Except WalkError (List Report) :=
  if p.isEmpty then return []
  else do
    let w ← p.walk m SyntaxTree.root ⟨[], []⟩
    return w.reports

/-! ### What a step does -/

variable {p : Policy} {m : SourceModel}

/-- The stack while the walk is behind the children `earlier` of a node that was met with the stack
`outer`. -/
def scopesIn (t : SyntaxTree) (n : Node) (earlier : List Nat) (outer : List (Option Nat)) :
    List (Option Nat) :=
  if n.kind.isStatementList then t.lastItem? earlier :: outer else outer

/-- The end of a step that found some reports, or could not say. -/
def finish (scopes : List (Option Nat)) (reports : List Report)
    (found : Except ModelError (List Report)) : Except WalkError WalkState :=
  (found.mapError .model).map fun more => ⟨scopes, reports ++ more⟩

theorem finish_bind (scopes scopes' : List (Option Nat)) (reports : List Report)
    (a b : Except ModelError (List Report)) (next : WalkState → Except WalkError WalkState)
    (h : ∀ more, next ⟨scopes, more⟩ = finish scopes' more b) :
    (finish scopes reports a >>= next) =
      finish scopes' reports (do let x ← a; let y ← b; return x ++ y) := by
  unfold finish at h ⊢
  cases a with
  | error e => rfl
  | ok x =>
      simp only [Except.mapError, Except.map, bind, Except.bind, h]
      cases b with
      | error e => rfl
      | ok y => simp [pure, Except.pure]

theorem visit_child (hl : m.tree.Linked) {a c : Nat} {n : Node} {earlier later : List Nat}
    (hn : m.tree.node? a = some n) (e : n.children = earlier ++ c :: later)
    (hc : m.tree.isItem c = true) (outer : List (Option Nat)) (reports : List Report) :
    p.visit m c ⟨scopesIn m.tree n earlier outer, reports⟩ =
      finish (scopesIn m.tree n (earlier ++ [c]) outer) reports
        (p.checkPairs m ((m.tree.precursor? c).map (·, c)).toList) := by
  have hac : m.tree.IsChild a c := ⟨n, hn, by rw [e]; simp⟩
  obtain ⟨k, hk, hp⟩ := hl.parent_of_child hac
  rw [SyntaxTree.precursor?_child hl hn e]
  unfold visit scopesIn
  rw [SyntaxTree.lastItem?_concat, SourceModel.node_eq_ok hk, hc]
  simp only [Except.mapError, bind, Except.bind, hp, SourceModel.node_eq_ok hn]
  cases n.kind.isStatementList with
  | false => simp [finish, checkPairs, Except.mapError, Except.map, pure, Except.pure]
  | true =>
      cases m.tree.lastItem? earlier with
      | none => simp [finish, checkPairs, Except.mapError, Except.map, pure, Except.pure]
      | some x =>
          simp only [Bool.and_self, Bool.not_true, Bool.false_eq_true, if_true, if_false,
            Option.map_some, Option.toList_some, checkPairs]
          cases p.inspect m x c <;>
            simp [finish, Except.mapError, Except.map, bind, Except.bind, pure, Except.pure]

theorem walk_eq {a : Nat} {n : Node} (hn : m.tree.node? a = some n) (w : WalkState) :
    p.walk m a w = (do
      let above := fun c hc => SyntaxTree.child_bounds hn (c := c) hc
      let w ← if n.kind.isListItem then p.visit m a w else pure w
      if n.kind.isStatementList then
        let w ← p.walkAll m a n.children above { w with scopes := none :: w.scopes }
        return { w with scopes := w.scopes.tail }
      else p.walkAll m a n.children above w) := by
  rw [walk]
  split
  next hn' => rw [hn] at hn'; cases hn'
  next n' hn' =>
    rw [hn] at hn'
    cases hn'
    rfl

theorem pure_eq_finish (scopes : List (Option Nat)) (reports : List Report) :
    (pure ⟨scopes, reports⟩ : Except WalkError WalkState) = finish scopes reports (.ok []) := by
  simp [finish, Except.mapError, Except.map, pure, Except.pure]

theorem walkAll_children {a : Nat} {n : Node} (outer : List (Option Nat)) :
    ∀ (rest earlier : List Nat) (above : ∀ c ∈ rest, a < c ∧ c < m.tree.size)
      (reports : List Report), n.children = earlier ++ rest →
      (∀ (before after : List Nat) (c : Nat) (reports : List Report),
        n.children = before ++ c :: after →
        p.walk m c ⟨scopesIn m.tree n before outer, reports⟩ =
          finish (scopesIn m.tree n (before ++ [c]) outer) reports
            (p.checkPairs m (m.tree.pairsAmong (m.tree.subtree c)))) →
      p.walkAll m a rest above ⟨scopesIn m.tree n earlier outer, reports⟩ =
        finish (scopesIn m.tree n n.children outer) reports
          (p.checkPairs m (m.tree.pairsAmong (rest.flatMap m.tree.subtree)))
  | [], earlier, _, reports, e, _ => by
      rw [walkAll, pure_eq_finish, e, List.append_nil]
      rfl
  | c :: rest, earlier, above, reports, e, step => by
      rw [walkAll, step earlier rest c reports e, List.flatMap_cons, pairsAmong_append,
        checkPairs_append]
      have e' : n.children = (earlier ++ [c]) ++ rest := by rw [e]; simp
      exact finish_bind _ _ _ _ _ _ fun more => walkAll_children outer rest (earlier ++ [c])
        (fun d hd => above d (List.mem_cons_of_mem _ hd)) more e' step

/-- Entering a node and walking its children, if the walk is right about each of them: the scope of
the node is open in between and closed again. -/
theorem walkAll_scope {a : Nat} {n : Node} (hn : m.tree.node? a = some n)
    (outer : List (Option Nat)) (reports : List Report)
    (step : ∀ (outer : List (Option Nat)) (before after : List Nat) (c : Nat)
      (reports : List Report), n.children = before ++ c :: after →
      p.walk m c ⟨scopesIn m.tree n before outer, reports⟩ =
        finish (scopesIn m.tree n (before ++ [c]) outer) reports
          (p.checkPairs m (m.tree.pairsAmong (m.tree.subtree c)))) :
    (if n.kind.isStatementList then do
        let w ← p.walkAll m a n.children (fun _ hc => SyntaxTree.child_bounds hn hc)
          ⟨none :: outer, reports⟩
        return { w with scopes := w.scopes.tail }
      else p.walkAll m a n.children (fun _ hc => SyntaxTree.child_bounds hn hc)
        ⟨outer, reports⟩) =
      finish outer reports
        (p.checkPairs m (m.tree.pairsAmong (n.children.flatMap m.tree.subtree))) := by
  have h := walkAll_children outer n.children [] (fun _ hc => SyntaxTree.child_bounds hn hc)
    reports rfl (step outer)
  unfold scopesIn at h
  split
  next hs =>
    rw [if_pos hs, if_pos hs] at h
    have hnil : m.tree.lastItem? [] = none := rfl
    rw [hnil] at h
    rw [h]
    unfold finish
    cases p.checkPairs m (m.tree.pairsAmong (n.children.flatMap m.tree.subtree)) <;> rfl
  next hs =>
    rw [if_neg hs, if_neg hs] at h
    exact h

/-- **A step of the machine.**  From any stack, a child of a node adds the reports on the pairs of
its subtree and becomes the last item of its list, if it is an item. -/
theorem walk_child (hl : m.tree.Linked) : ∀ {a c : Nat} {n : Node} {earlier later : List Nat}
    (outer : List (Option Nat)) (reports : List Report), m.tree.node? a = some n →
    n.children = earlier ++ c :: later →
    p.walk m c ⟨scopesIn m.tree n earlier outer, reports⟩ =
      finish (scopesIn m.tree n (earlier ++ [c]) outer) reports
        (p.checkPairs m (m.tree.pairsAmong (m.tree.subtree c))) := by
  intro a c
  induction h : m.tree.size - c using Nat.strong_induction_on generalizing a c with
  | _ size ih =>
      intro n earlier later outer reports hn e
      have hac : m.tree.IsChild a c := ⟨n, hn, by rw [e]; simp⟩
      obtain ⟨k, hk⟩ := SyntaxTree.node?_isSome hac.lt.2
      -- The subtree of `c` is done by the induction, in whatever scopes `c` leaves behind.
      have below := fun outer reports => walkAll_scope (p := p) hk outer reports
        (fun outer before after d reports ed => by
          have hlt := SyntaxTree.child_bounds hk (c := d) (by rw [ed]; simp)
          exact ih (m.tree.size - d) (by omega) rfl outer reports hk ed)
      rw [walk_eq hk, SyntaxTree.subtree_eq hk, pairsAmong_cons, checkPairs_append]
      cases hitem : k.kind.isListItem with
      | true =>
          have hc : m.tree.isItem c = true := by rw [SyntaxTree.isItem_eq hk, hitem]
          simp only [if_true]
          rw [visit_child hl hn e hc]
          exact finish_bind _ _ _ _ _ _ fun more => below _ more
      | false =>
          have hc : m.tree.isItem c = false := by rw [SyntaxTree.isItem_eq hk, hitem]
          have hscopes : scopesIn m.tree n (earlier ++ [c]) outer =
              scopesIn m.tree n earlier outer := by
            unfold scopesIn
            rw [SyntaxTree.lastItem?_concat, hc]
            rfl
          rw [SyntaxTree.precursor?_child hl hn e, hc, hscopes]
          simp only [Bool.and_false, Bool.false_eq_true, if_false, pure_bind]
          have hnone : p.checkPairs m (Option.map (·, c) none).toList = .ok [] := rfl
          rw [below, hnone]
          cases p.checkPairs m (m.tree.pairsAmong (k.children.flatMap m.tree.subtree)) <;> rfl

/-- **The machine checks what the plain pass checks**, and closes every scope that it opens. -/
theorem walk_root (hl : m.tree.Linked) :
    p.walk m SyntaxTree.root ⟨[], []⟩ = finish [] [] (p.checkPairs m m.tree.pairs) := by
  obtain ⟨r, hr, hk, -⟩ := hl.root
  have below := walkAll_scope (p := p) hr [] []
    (fun outer before after d reports ed => walk_child hl outer reports hr ed)
  have hitem : r.kind.isListItem = false := by rw [hk]; rfl
  unfold SyntaxTree.pairs
  rw [walk_eq hr, SyntaxTree.subtree_eq hr, pairsAmong_cons, SyntaxTree.precursor?_root hl, hitem]
  exact below

theorem stackCheck_eq (hl : m.tree.Linked) :
    p.stackCheck m = (p.check m).mapError .model := by
  unfold stackCheck
  cases hp : p.isEmpty with
  | true =>
      unfold check
      rw [hp]
      rfl
  | false =>
      rw [check_eq hl hp, walk_root hl]
      unfold finish
      cases p.checkPairs m m.tree.pairs <;> rfl

/-! ### The check against its specification -/

theorem snd_pairsAmong_sublist (t : SyntaxTree) (ids : List Nat) :
    ((t.pairsAmong ids).map Prod.snd).Sublist ids := by
  induction ids with
  | nil => exact List.Sublist.slnil
  | cons c ids ih =>
      rw [pairsAmong_cons]
      cases t.precursor? c with
      | none => exact ih.cons c
      | some x => exact ih.cons_cons c

/-- **A check is what the pairs of neighbours make it.**  The pairs are all neighbours of the tree,
in the pre-order of their second members.  The first pair that cannot be judged gives its error to
the check; if all can be, there is one report for each pair in violation, in their order, and it
holds the requirement of the pair and the repair proposed for it.  A proposal fails for no pair that
was judged, and the walk with a stack of scopes gives the same answer and always finds its scope. -/
theorem check_refines_pairs {p : Policy} {m : SourceModel} (hg : m.tree.Grown)
    (hp : p.isEmpty = false) :
    ((∀ a b, (a, b) ∈ m.tree.pairs ↔ m.tree.Adjacent a b) ∧ m.tree.pairs.Nodup ∧
      (m.tree.pairs.map Prod.snd).Sublist (m.tree.subtree SyntaxTree.root)) ∧
    (∀ before pair after e, m.tree.pairs = before ++ pair :: after →
      (∀ q ∈ before, ∃ v, p.judge m q = .ok v) → p.judge m pair = .error e →
      p.check m = .error e) ∧
    ((∀ q ∈ m.tree.pairs, ∃ v, p.judge m q = .ok v) →
      ∃ reports, p.check m = .ok reports ∧
        List.Forall₂ (p.Reports m) (m.tree.pairs.filter (p.isViolated m)) reports) ∧
    (∀ a b r k, p.judge m (a, b) = .ok (r, k) → ∃ fix, Repair.propose r m a b = .ok fix) ∧
    p.stackCheck m = (p.check m).mapError .model ∧
    ∀ id, p.stackCheck m ≠ .error (.noScope id) := by
  have hl := hg.linked
  refine ⟨⟨fun a b => SyntaxTree.mem_pairs_iff hl, SyntaxTree.nodup_pairs hl,
    snd_pairsAmong_sublist _ _⟩, ?_, ?_, ?_, stackCheck_eq hl, ?_⟩
  · intro before pair after e hpairs hok he
    rw [check_eq hl hp, hpairs]
    exact checkPairs_error hp after hok he
  · intro hok
    rw [check_eq hl hp]
    exact checkPairs_ok hp m.tree.pairs hok
  · intro a b r k h
    exact exists_propose hp h r
  · intro id h
    rw [stackCheck_eq hl] at h
    cases hc : p.check m with
    | error e => rw [hc] at h; cases h
    | ok reports => rw [hc] at h; cases h

/-- The program `{ a; b } c`: a list in a list. -/
def blockThenCall : SourceModel :=
  let onLine (a b : Nat) : Span := ⟨a, b, ⟨1, a⟩, ⟨1, b⟩⟩
  { text := "\x7b a; b \x7d c"
    tokens := .ofList
      [⟨.punctuator, "\x7b", onLine 0 1, none⟩, ⟨.identifier, "a", onLine 2 3, none⟩,
        ⟨.punctuator, ";", onLine 3 4, none⟩, ⟨.identifier, "b", onLine 5 6, none⟩,
        ⟨.punctuator, "\x7d", onLine 7 8, some .block⟩, ⟨.identifier, "c", onLine 9 10, none⟩]
    tree := (SyntaxTree.ofRoot (onLine 0 10)).pushAll
      [(0, .statement .block, onLine 0 8), (1, .statement (.expression false), onLine 2 4),
        (1, .statement (.expression false), onLine 5 6),
        (0, .statement (.expression false), onLine 9 10)] }

theorem check_refines_pairs_blockThenCall :
    blockThenCall.tree.Grown ∧ Policy.isEmpty ⟨[⟨.always, .single .any, .single .any⟩]⟩ = false ∧
    ∃ reports, Policy.check ⟨[⟨.always, .single .any, .single .any⟩]⟩ blockThenCall = .ok reports ∧
      List.Forall₂ (Policy.Reports ⟨[⟨.always, .single .any, .single .any⟩]⟩ blockThenCall)
        [(2, 3), (1, 4)] reports := by
  have hg : blockThenCall.tree.Grown := SyntaxTree.Grown.pushAll _ (.root _)
  refine ⟨hg, rfl, ?_⟩
  have hpairs : blockThenCall.tree.pairs = [(2, 3), (1, 4)] := by decide +kernel
  have hinner : Policy.judge ⟨[⟨.always, .single .any, .single .any⟩]⟩ blockThenCall (2, 3) =
      .ok (.always, 0) := by cbv
  have houter : Policy.judge ⟨[⟨.always, .single .any, .single .any⟩]⟩ blockThenCall (1, 4) =
      .ok (.always, 0) := by cbv
  have hok := (check_refines_pairs (p := ⟨[⟨.always, .single .any, .single .any⟩]⟩) hg rfl).2.2.1
  rw [hpairs] at hok
  obtain ⟨reports, hc, hall⟩ := hok (by simp [hinner, houter])
  refine ⟨reports, hc, ?_⟩
  simpa [isViolated, hinner, houter, Requirement.isSatisfiedBy] using hall

end Interline.Policy
