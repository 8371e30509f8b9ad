import Mathlib
import Interline.Proofs.Coherence
import Interline.Proofs.TreePlaces

/-! # Syntax trees outline parse trees

`ParseTree.statements` pushes the named nodes of a parse tree, one after the other, below the
nearest one that it has pushed.  Comments are left out with all that is in them, and so are the
bodies of switches, but not what is in those.

`Records` says what has been pushed so far: the node with the id `k` is the one at the `k`-th place
of a list.  A push adds a place (`Records.push`), and by induction on the parse tree a whole subtree
adds those that are kept in it (`Records.addTo`).  For a parse tree whose spans nest, and whose
unnamed nodes are leaves, `ParseTree.outline_statements` reads off the result:

* the nodes of the syntax tree are the kept ones, in the order of the text, and each has the kind
  that belongs to its name in the grammar (`HasKind`);
* the parent of each is the nearest kept node above it (`Nearest`);
* spans nest in the syntax tree as well, since places that are apart stay apart. -/

namespace Interline.JavaScript.ParseTree

/-! ### Comments and kinds -/

/-- What the grammar calls comments. -/
def commentForms : List Form := [.comment, .htmlComment, .hashBangLine]

/-- What the grammar calls the clauses of a switch. -/
def clauseForms : List Form := [.switchCase, .switchDefault]

/-- What the grammar calls the statements of a kind. -/
def statementForms : StatementKind → List Form
  | .block => [.statementBlock]
  | .empty => [.emptyStatement]
  | .expression _ => [.expressionStatement]
  | .conditional => [.ifStatement]
  | .labeled => [.labeledStatement]
  | .break => [.breakStatement]
  | .continue => [.continueStatement]
  | .with => [.withStatement]
  | .switch => [.switchStatement]
  | .return => [.returnStatement]
  | .throw => [.throwStatement]
  | .try => [.tryStatement]
  | .while => [.whileStatement]
  | .doWhile => [.doStatement]
  | .for => [.forStatement]
  | .forIn => [.forInStatement]
  | .debugger => [.debuggerStatement]
  | .variableDeclaration => [.lexicalDeclaration, .variableDeclaration]
  | .functionDeclaration => [.functionDeclaration, .generatorFunctionDeclaration]
  | .classDeclaration => [.classDeclaration]
  | .import => [.importStatement]
  | .export => [.exportStatement]

/-- One of these nodes is a string, and the other named ones are comments. -/
def IsOneString (children : List ParseTree) : Prop :=
  ∃ before only after, children = before ++ only :: after ∧ only.label = .named .string ∧
    ∀ c ∈ before ++ after, ∀ form, c.label = .named form → form ∈ commentForms

/-- Whether a named node is of a kind. -/
def HasKind (form : Form) (children : List ParseTree) : NodeKind → Prop
  | .program => False
  | .statement kind => form ∈ statementForms kind ∧
      ∀ isString, kind = .expression isString → (isString = true ↔ IsOneString children)
  | .switchCase => form ∈ clauseForms
  | .other => form ∉ clauseForms ∧ ∀ kind, form ∉ statementForms kind

section kinds

variable {form : Form} {children : List ParseTree}

theorem isComment_iff : form.isComment = true ↔ form ∈ commentForms := by
  cases form <;> decide

theorem isCommentary_iff {c : ParseTree} : (c.isNamed && !c.label.isComment) = false ↔
    ∀ form, c.label = .named form → form ∈ commentForms := by
  unfold isNamed Label.isComment
  cases c.label with
  | named form => simp [isComment_iff]
  | mark text => simp

theorem isStringStatement_iff : isStringStatement children = true ↔ IsOneString children := by
  unfold isStringStatement IsOneString
  constructor
  · intro h
    split at h
    next only hfilter =>
      obtain ⟨before, after, rfl, hbefore, -, hafter⟩ := List.filter_eq_cons_iff.1 hfilter
      refine ⟨before, only, after, rfl, of_decide_eq_true h, fun c hc => isCommentary_iff.1 ?_⟩
      rcases List.mem_append.1 hc with hc | hc
      · exact Bool.eq_false_of_not_eq_true (hbefore c hc)
      · exact Bool.eq_false_of_not_eq_true (List.filter_eq_nil_iff.1 hafter c hc)
    next => cases h
  · rintro ⟨before, only, after, rfl, hstring, hothers⟩
    have hnone : ∀ {cs : List ParseTree}, (∀ c ∈ cs, c ∈ before ++ after) →
        cs.filter (fun t => t.isNamed && !t.label.isComment) = [] := by
      intro cs hcs
      refine List.filter_eq_nil_iff.2 fun c hc => ?_
      rw [isCommentary_iff.2 (hothers c (hcs c hc))]
      exact Bool.false_ne_true
    have honly : (only.isNamed && !only.label.isComment) = true := by
      unfold isNamed
      rw [hstring]
      rfl
    have hfilter : (before ++ only :: after).filter (fun t => t.isNamed && !t.label.isComment) =
        [only] := by
      rw [List.filter_append, hnone fun c hc => List.mem_append_left _ hc, List.filter_cons, honly,
        hnone fun c hc => List.mem_append_right _ hc]
      rfl
    rw [hfilter]
    exact decide_eq_true hstring

theorem hasKind_nodeKind (form : Form) (children : List ParseTree) :
    HasKind form children (nodeKind form children) := by
  cases form with
  | expressionStatement =>
      refine ⟨List.mem_singleton.2 rfl, fun isString h => ?_⟩
      cases h
      exact isStringStatement_iff
  | switchCase | switchDefault =>
      show _ ∈ clauseForms
      decide
  | program | comment | htmlComment | hashBangLine | string | regex | number | stringFragment
  | escapeSequence | name | phrase | switchBody | classBody =>
      exact ⟨by decide, fun kind => by cases kind <;> simp [statementForms]⟩
  | _ => exact ⟨by decide, nofun⟩

/-- A node has the one kind that its form tells. -/
theorem nodeKind_eq_iff {kind : NodeKind} :
    nodeKind form children = kind ↔ HasKind form children kind := by
  have hown := hasKind_nodeKind form children
  refine ⟨fun h => h ▸ hown, fun h => ?_⟩
  cases kind with
  | program => exact h.elim
  | statement kind =>
      obtain ⟨hform, hstring⟩ := h
      cases kind with
      | expression isString =>
          cases List.mem_singleton.1 hform
          have hsame := isStringStatement_iff.trans (hstring isString rfl).symm
          exact congrArg (fun b => NodeKind.statement (.expression b)) (Bool.eq_iff_iff.2 hsame)
      | variableDeclaration | functionDeclaration =>
          rcases List.mem_pair.1 hform with rfl | rfl <;> rfl
      | _ =>
          cases List.mem_singleton.1 hform
          rfl
  | switchCase => rcases List.mem_pair.1 h with rfl | rfl <;> rfl
  | other =>
      obtain ⟨hclause, hstatement⟩ := h
      -- Its kind is none of the others, for it has that kind as well.
      cases hkind : nodeKind form children <;> rw [hkind] at hown
      case program => exact hown.elim
      case statement kind => exact absurd hown.1 (hstatement kind)
      case switchCase => exact absurd hown hclause

end kinds

/-! ### Nodes that are kept -/

/-- Named nodes are kept, but for comments and the bodies of switches. -/
def isKept (t : ParseTree) : Bool :=
  match t.label with
  | .named form => decide (form ∉ .switchBody :: commentForms)
  | .mark _ => false

/-- More nodes are looked for below named ones, but for comments. -/
def isSearched (t : ParseTree) : Bool :=
  match t.label with
  | .named form => decide (form ∉ commentForms)
  | .mark _ => false

/-- Whether a node is a comment. -/
def IsComment (t : ParseTree) : Prop := ∃ form ∈ commentForms, t.label = .named form

/-- Nodes of the grammar without a name have no children. -/
def MarksAreLeaves (t : ParseTree) : Prop :=
  t.Everywhere fun u => u.isNamed = false → u.children = []

instance (t : ParseTree) : Decidable t.MarksAreLeaves :=
  inferInstanceAs (Decidable (t.Everywhere _))

/-- Whether no comment is at a place or above it, the root aside. -/
def IsCode (t : ParseTree) (p : List Nat) : Prop :=
  ∀ {q : List Nat} {v : ParseTree}, q <+: p → q ≠ [] → t.at? q = some v → ¬v.IsComment

/-- A kept node below the root that is part of no comment. -/
def IsKeptAt (t : ParseTree) (p : List Nat) : Prop :=
  p ≠ [] ∧ (∃ u, t.at? p = some u ∧ u.isKept = true) ∧ t.IsCode p

/-- The place `q` of the root or of a kept node is the nearest one above `p`. -/
structure Nearest (t : ParseTree) (q p : List Nat) : Prop where
  above : q <+: p
  ne : q ≠ p
  kept : q = [] ∨ t.IsKeptAt q
  last : ∀ {r : List Nat}, t.IsKeptAt r → r <+: p → r ≠ p → r <+: q

/-- The root and the kept nodes, in the order of the text. -/
def keptPlaces (t : ParseTree) : List (List Nat) :=
  [] :: selectAll isSearched isKept 0 t.children

variable {t u v w : ParseTree} {p q r : List Nat}

theorem keptPlaces_sorted (t : ParseTree) : t.keptPlaces.Pairwise (· < ·) := by
  refine List.pairwise_cons.2 ⟨fun p hp => ?_, selectAll_sorted (fun c _ => select_sorted c) 0⟩
  obtain ⟨j, q, -, rfl, -⟩ := mem_selectAll.1 hp
  exact List.nil_lt_cons _ _

theorem isSearched_iff : t.isSearched = true ↔ t.isNamed = true ∧ ¬t.IsComment := by
  unfold isSearched isNamed IsComment
  cases t.label with
  | named form => simp
  | mark text => simp

theorem isSearched_of_isKept (h : t.isKept = true) : t.isSearched = true := by
  obtain ⟨label, span, children⟩ := t
  cases label with
  | named form => exact decide_eq_true (List.not_mem_of_not_mem_cons (of_decide_eq_true h))
  | mark text => cases h

theorem not_isComment_of_isKept (h : t.isKept = true) : ¬t.IsComment :=
  (isSearched_iff.1 (isSearched_of_isKept h)).2

/-! ### How the traversal goes on -/

section addTo

variable {tree : SyntaxTree} {parent : Nat}

theorem addTo_of_not_searched (h : t.isSearched = false) : addTo tree parent t = tree := by
  obtain ⟨label, span, children⟩ := t
  cases label with
  | mark text => rw [addTo]
  | named form =>
      have hcomment : form ∈ commentForms := by simpa [isSearched] using h
      rw [addTo, if_pos (isComment_iff.2 hcomment)]

theorem addTo_of_not_kept (hs : t.isSearched = true) (hk : t.isKept = false) :
    addTo tree parent t = addAllTo tree parent t.children := by
  obtain ⟨label, span, children⟩ := t
  cases label with
  | mark text => cases hs
  | named form =>
      have hcode : form ∉ commentForms := of_decide_eq_true hs
      have hbody : form = .switchBody := by simpa [isKept, hcode] using hk
      rw [addTo, if_neg (isComment_iff.not.2 hcode), if_pos hbody, children_node]

theorem addTo_of_kept (hk : t.isKept = true) (hp : parent < tree.size) :
    ∃ form grown, t = .node (.named form) t.span t.children ∧
      tree.push? parent (nodeKind form t.children) t.span = some (tree.size, grown) ∧
      addTo tree parent t = addAllTo grown tree.size t.children := by
  obtain ⟨label, span, children⟩ := t
  cases label with
  | mark text => cases hk
  | named form =>
      obtain ⟨hbody, hcode⟩ := not_or.1 (List.mem_cons.not.1 (of_decide_eq_true hk))
      obtain ⟨grown, hpush⟩ := SyntaxTree.exists_push hp (nodeKind form children) span
      refine ⟨form, grown, rfl, hpush, ?_⟩
      rw [addTo, if_neg (isComment_iff.not.2 hcode), if_neg hbody, hpush, children_node]

end addTo

/-! ### The kept nodes in order -/

/-- A traversal below the root finds the kept nodes. -/
theorem mem_keptPlaces_iff (hmarks : t.MarksAreLeaves) :
    p ∈ t.keptPlaces ↔ p = [] ∨ t.IsKeptAt p := by
  rw [keptPlaces, List.mem_cons, mem_selectAll]
  refine or_congr_right ⟨?_, ?_⟩
  · rintro ⟨j, q, c, rfl, hc, hq⟩
    obtain ⟨⟨u, hu, hkeep⟩, hreach⟩ := mem_select.1 hq
    rw [Nat.zero_add]
    refine ⟨by simp, ⟨u, at?_cons_eq_some.2 ⟨c, hc, hu⟩, hkeep⟩, fun hpre hne hv => ?_⟩
    rcases List.prefix_cons_iff.1 hpre with rfl | ⟨r, rfl, hrq⟩
    · exact absurd rfl hne
    obtain ⟨c', hc', hv⟩ := at?_cons_eq_some.1 hv
    cases hc.symm.trans hc'
    by_cases heq : r = q
    · subst heq
      cases hu.symm.trans hv
      exact not_isComment_of_isKept hkeep
    · exact (isSearched_iff.1 (hreach hrq heq hv)).2
  · rintro ⟨hne, ⟨u, hu, hkeep⟩, hcode⟩
    cases p with
    | nil => exact absurd rfl hne
    | cons j q =>
        obtain ⟨c, hc, hu'⟩ := at?_cons_eq_some.1 hu
        refine ⟨j, q, c, by simp, hc, mem_select.2 ⟨⟨u, hu', hkeep⟩, fun {r v} hpre hrq hv => ?_⟩⟩
        have hv' : t.at? (j :: r) = some v := at?_cons_eq_some.2 ⟨c, hc, hv⟩
        have hpre' : j :: r <+: j :: q := List.cons_prefix_cons.2 ⟨rfl, hpre⟩
        refine isSearched_iff.2 ⟨?_, hcode hpre' (by simp) hv'⟩
        by_contra hmark
        have hleaf := hmarks hv' (by simpa using hmark)
        exact hrq (List.cons_injective (eq_of_leaf hv' hleaf hpre' hu))

/-! ### Nearest kept nodes -/

theorem Nearest.of_kept (h : t.IsKeptAt p) (i : Nat) : t.Nearest p (p ++ [i]) where
  above := List.prefix_append p [i]
  ne := by simp
  kept := .inr h
  last hr hpre hne := (List.prefix_concat_iff.1 hpre).resolve_left hne

theorem Nearest.of_not_kept (h : t.Nearest q p) (hno : ¬t.IsKeptAt p) (i : Nat) :
    t.Nearest q (p ++ [i]) where
  above := h.above.trans (List.prefix_append p [i])
  ne := by
    rintro rfl
    have := h.above.length_le
    simp at this
  kept := h.kept
  last hr hpre hne := by
    have hrp := (List.prefix_concat_iff.1 hpre).resolve_left hne
    exact h.last hr hrp fun e => hno (e ▸ hr)

theorem nearest_root (t : ParseTree) (i : Nat) : t.Nearest [] [i] where
  above := List.nil_prefix
  ne := by simp
  kept := .inl rfl
  last hr hpre hne := by
    rcases List.prefix_cons_iff.1 hpre with rfl | ⟨r, rfl, hnil⟩
    · exact List.nil_prefix
    · exact absurd (congrArg (i :: ·) (List.prefix_nil.1 hnil)) hne

theorem Nearest.unique (h : t.Nearest q p) (h' : t.Nearest r p) : q = r := by
  have hqr : q <+: r := by
    rcases h.kept with rfl | hkept
    · exact List.nil_prefix
    · exact h'.last hkept h.above h.ne
  have hrq : r <+: q := by
    rcases h'.kept with rfl | hkept
    · exact List.nil_prefix
    · exact h.last hkept h'.above h'.ne
  exact hqr.eq_of_length_le hrq.length_le

theorem Nearest.not_prefix (hp : t.Nearest q p) (hr : t.Nearest q r) (hkept : t.IsKeptAt p)
    (hne : p ≠ r) : ¬p <+: r := by
  intro hpre
  exact hp.ne (hp.above.eq_of_length_le (hr.last hkept hpre hne).length_le)

theorem isCode_root (t : ParseTree) : t.IsCode [] :=
  fun hpre hne _ => absurd (List.prefix_nil.1 hpre) hne

theorem IsCode.concat (h : t.IsCode p) {i : Nat} (hu : t.at? (p ++ [i]) = some u)
    (hno : ¬u.IsComment) : t.IsCode (p ++ [i]) := by
  intro q v hpre hne hv
  rcases List.prefix_concat_iff.1 hpre with rfl | hpre
  · cases hu.symm.trans hv
    exact hno
  · exact h hpre hne hv

/-- A clause is kept, and the nearest kept node above it is the switch, since the body in between is
not kept. -/
theorem Nearest.of_switchBody (hp : t.IsKeptAt p) {i j : Nat} {clause : Form}
    (hv : t.at? (p ++ [i]) = some v) (hbody : v.label = .named .switchBody)
    (hw : t.at? (p ++ [i] ++ [j]) = some w) (hlabel : w.label = .named clause)
    (hclause : clause ∈ clauseForms) :
    t.IsKeptAt (p ++ [i] ++ [j]) ∧ t.Nearest p (p ++ [i] ++ [j]) := by
  have hkeep : w.isKept = true := by
    unfold isKept
    rw [hlabel]
    rcases List.mem_pair.1 hclause with rfl | rfl <;> rfl
  have hno : ¬t.IsKeptAt (p ++ [i]) := by
    rintro ⟨-, ⟨v', hv', hkept⟩, -⟩
    cases hv.symm.trans hv'
    unfold isKept at hkept
    rw [hbody] at hkept
    exact absurd hkept (by decide)
  have hcode : ¬v.IsComment := by
    rintro ⟨form, hform, hv⟩
    cases hbody.symm.trans hv
    exact absurd hform (by decide)
  have hin : t.IsCode (p ++ [i] ++ [j]) :=
    IsCode.concat (IsCode.concat hp.2.2 hv hcode) hw (not_isComment_of_isKept hkeep)
  exact ⟨⟨by simp, ⟨w, hw, hkeep⟩, hin⟩, (Nearest.of_kept hp i).of_not_kept hno j⟩

/-! ### What has been pushed -/

/-- The nodes of a syntax tree are those at the given places of a parse tree, one by one. -/
structure Records (program : ParseTree) (whole : Span) (tree : SyntaxTree)
    (places : List (List Nat)) : Prop where
  grown : tree.Grown
  size : tree.size = places.length
  /-- The root stands for the whole text. -/
  root : places[0]? = some [] ∧ ∃ n, tree.node? SyntaxTree.root = some n ∧ n.kind = .program ∧
    n.span = whole ∧ n.parent = none
  /-- Another node has the kind and the span of the one that it stands for, and hangs off the
  nearest kept one above that. -/
  node : ∀ {k : Nat} {p : List Nat}, places[k]? = some p → p ≠ [] →
    ∃ form span children n a q, program.at? p = some (.node (.named form) span children) ∧
      tree.node? k = some n ∧ HasKind form children n.kind ∧ n.span = span ∧
      n.parent = some a ∧ places[a]? = some q ∧ program.Nearest q p

/-- What is hung below a node at the nearest kept place adds the places that are kept in it. -/
def AddsKept (program : ParseTree) (whole : Span) (t : ParseTree) : Prop :=
  ∀ {tree : SyntaxTree} {places : List (List Nat)} {parent i : Nat} {p q : List Nat},
    program.Records whole tree places → program.at? (p ++ [i]) = some t → program.IsCode p →
    places[parent]? = some q → program.Nearest q (p ++ [i]) →
    program.Records whole (addTo tree parent t)
      (places ++ (t.select isSearched isKept).map (p ++ [i] ++ ·))

theorem getElem?_append_of_eq {places : List (List Nat)} {k : Nat} (h : places[k]? = some p)
    (more : List (List Nat)) : (places ++ more)[k]? = some p := by
  rw [List.getElem?_append_left (List.getElem?_eq_some_iff.1 h).1, h]

namespace Records

variable {program : ParseTree} {whole : Span} {tree : SyntaxTree} {places : List (List Nat)}

theorem ofRoot (program : ParseTree) (whole : Span) :
    program.Records whole (SyntaxTree.ofRoot whole) [[]] where
  grown := .root whole
  size := rfl
  root := ⟨rfl, _, rfl, rfl, rfl, rfl⟩
  node := by
    intro k p hk hne
    cases List.mem_singleton.1 (List.mem_of_getElem? hk)
    exact absurd rfl hne

theorem lt_size (h : program.Records whole tree places) {k : Nat} {p : List Nat}
    (hk : places[k]? = some p) : k < tree.size := by
  rw [h.size]
  exact (List.getElem?_eq_some_iff.1 hk).1

theorem push (h : program.Records whole tree places) {form : Form} {span : Span}
    {children : List ParseTree} {parent id : Nat} {grown : SyntaxTree} {p q : List Nat}
    (hpush : tree.push? parent (nodeKind form children) span = some (id, grown))
    (hp : program.at? p = some (.node (.named form) span children))
    (hq : places[parent]? = some q) (hnear : program.Nearest q p) :
    program.Records whole grown (places ++ [p]) where
  grown := h.grown.push hpush
  size := by rw [SyntaxTree.size_push hpush, List.length_append, h.size, List.length_singleton]
  root := by
    obtain ⟨hroot, n, hn, hkind, hspan, hparent⟩ := h.root
    exact ⟨getElem?_append_of_eq hroot _, _, SyntaxTree.node?_push_of_node? hpush hn,
      by simp [hkind, hspan, hparent]⟩
  node := by
    intro k r hk hne
    rcases Nat.lt_trichotomy k places.length with hlt | rfl | hgt
    · rw [List.getElem?_append_left hlt] at hk
      obtain ⟨form', span', children', n, a, q', hr, hn, hkind, hspan, hparent, ha, hnear'⟩ :=
        h.node hk hne
      exact ⟨form', span', children', _, a, q', hr, SyntaxTree.node?_push_of_node? hpush hn,
        by simpa using hkind, by simp [hspan], by simp [hparent],
        getElem?_append_of_eq ha _, hnear'⟩
    · rw [List.getElem?_concat_length] at hk
      cases hk
      refine ⟨form, span, children, ⟨nodeKind form children, span, some parent, []⟩, parent, q, hp,
        ?_, nodeKind_eq_iff.1 rfl, rfl, rfl, getElem?_append_of_eq hq _, hnear⟩
      rw [SyntaxTree.node?_push hpush, h.size, if_pos rfl]
    · have := (List.getElem?_eq_some_iff.1 hk).1
      simp at this
      omega

/-- The trees side by side below a node record what is kept in them, if each of them does. -/
theorem addAllTo {ts : List ParseTree} (ih : ∀ t ∈ ts, program.AddsKept whole t)
    (h : program.Records whole tree places) {parent i : Nat} {p q : List Nat}
    (hat : ∀ {j : Nat} {c : ParseTree}, ts[j]? = some c → program.at? (p ++ [i + j]) = some c)
    (hcode : program.IsCode p) (hq : places[parent]? = some q)
    (hnear : ∀ j, program.Nearest q (p ++ [j])) :
    program.Records whole (ParseTree.addAllTo tree parent ts)
      (places ++ (selectAll isSearched isKept i ts).map (p ++ ·)) := by
  induction ts generalizing tree places i with
  | nil => simpa [ParseTree.addAllTo, selectAll] using h
  | cons t ts ih' =>
      obtain ⟨hhead, htail⟩ := List.forall_mem_cons.1 ih
      have hfirst := hhead h (hat (j := 0) rfl) hcode hq (hnear _)
      have hat' : ∀ {j : Nat} {c : ParseTree}, ts[j]? = some c →
          program.at? (p ++ [i + 1 + j]) = some c := by
        intro j c hc
        rw [show i + 1 + j = i + (j + 1) by omega]
        exact hat (j := j + 1) hc
      have hrest := ih' htail hfirst hat' (getElem?_append_of_eq hq _)
      rw [ParseTree.addAllTo, selectAll, List.map_append, ← List.append_assoc, List.map_map]
      simpa [Function.comp_def] using hrest

/-- **A subtree records what is kept in it.** -/
theorem addTo (t : ParseTree) : program.AddsKept whole t := by
  induction t with
  | node label span children ih =>
      intro tree places parent i p q h hat hcode hq hnear
      rw [← children_node label span children] at ih
      generalize ParseTree.node label span children = t at ih hat ⊢
      have hchild : ∀ {j : Nat} {c : ParseTree}, t.children[j]? = some c →
          program.at? (p ++ [i] ++ [0 + j]) = some c := by
        intro j c hc
        exact at?_append_eq_some.2 ⟨_, hat, at?_cons_eq_some.2 ⟨c, by simpa using hc, rfl⟩⟩
      rw [select_eq]
      cases hs : t.isSearched with
      | false =>
          have hk : ¬t.isKept = true := fun hk => by simp [isSearched_of_isKept hk] at hs
          simpa [addTo_of_not_searched hs, hk] using h
      | true =>
          have hhere : program.IsCode (p ++ [i]) := hcode.concat hat (isSearched_iff.1 hs).2
          cases hk : t.isKept with
          | false =>
              have hno : ¬program.IsKeptAt (p ++ [i]) := by
                rintro ⟨-, ⟨u, hu, hkeep⟩, -⟩
                cases hat.symm.trans hu
                simp [hk] at hkeep
              rw [addTo_of_not_kept hs hk]
              exact addAllTo ih h hchild hhere hq fun j => hnear.of_not_kept hno j
          | true =>
              obtain ⟨form, grown, hform, hpush, hadd⟩ := addTo_of_kept hk (h.lt_size hq)
              have hpushed := h.push hpush (hform ▸ hat) hq hnear
              have hid : (places ++ [p ++ [i]])[tree.size]? = some (p ++ [i]) := by
                rw [h.size, List.getElem?_concat_length]
              have hkept : program.IsKeptAt (p ++ [i]) := ⟨by simp, ⟨t, hat, hk⟩, hhere⟩
              have hbelow := addAllTo ih hpushed hchild hhere hid fun j => .of_kept hkept j
              rw [hadd]
              simpa using hbelow

theorem statements (program : ParseTree) (whole : Span) :
    program.Records whole (program.statements whole) program.keptPlaces := by
  have h := addAllTo (fun t _ => addTo t) (ofRoot program whole) (i := 0) (p := [])
    (fun hc => at?_cons_eq_some.2 ⟨_, by simpa using hc, at?_nil _⟩) (isCode_root program)
    (show ([[]] : List (List Nat))[SyntaxTree.root]? = some [] from rfl) (nearest_root program)
  simpa [ParseTree.statements, keptPlaces] using h

theorem exists_node (h : program.Records whole tree places) {k : Nat} {p : List Nat} {u : ParseTree}
    {form : Form} {kind : NodeKind} (hk : places[k]? = some p) (hne : p ≠ [])
    (hu : program.at? p = some u) (hlabel : u.label = .named form)
    (hkind : HasKind form u.children kind) : ∃ n, tree.node? k = some n ∧ n.kind = kind := by
  obtain ⟨form', span, children, n, -, -, hat, hn, hown, -⟩ := h.node hk hne
  cases hu.symm.trans hat
  cases hlabel
  exact ⟨n, hn, (nodeKind_eq_iff.2 hown).symm.trans (nodeKind_eq_iff.2 hkind)⟩

/-! ### Links and spans -/

section links

variable (h : program.Records whole tree places) (hsorted : places.Pairwise (· < ·))
  (hkept : ∀ {p : List Nat}, p ∈ places → p = [] ∨ program.IsKeptAt p)
include h

theorem exists_place {k : Nat} {n : Node} (hk : tree.node? k = some n) :
    ∃ p, places[k]? = some p := by
  have hlt := SyntaxTree.node?_lt hk
  rw [h.size] at hlt
  exact ⟨_, List.getElem?_eq_getElem hlt⟩

include hsorted

omit h in
theorem index_inj {k l : Nat} {p : List Nat} (hk : places[k]? = some p) (hl : places[l]? = some p) :
    k = l := by
  obtain ⟨hk, rfl⟩ := List.getElem?_eq_some_iff.1 hk
  obtain ⟨hl, he⟩ := List.getElem?_eq_some_iff.1 hl
  exact (List.Nodup.getElem_inj_iff (hsorted.imp ne_of_lt)).1 he.symm

/-- A child is the node at a place whose nearest kept node is the parent. -/
theorem isChild_iff {a c : Nat} {q : List Nat} (ha : places[a]? = some q) :
    tree.IsChild a c ↔ ∃ p, places[c]? = some p ∧ p ≠ [] ∧ program.Nearest q p := by
  have hl := h.grown.linked
  constructor
  · intro hac
    obtain ⟨k, hk, hparent⟩ := hl.parent_of_child hac
    obtain ⟨p, hp⟩ := h.exists_place hk
    have hne : p ≠ [] := by
      rintro rfl
      have := index_inj hsorted hp h.root.1
      have := hac.lt.1
      omega
    obtain ⟨-, -, -, n, a', q', -, hn, -, -, hparent', ha', hnear⟩ := h.node hp hne
    cases hk.symm.trans hn
    cases hparent.symm.trans hparent'
    cases ha.symm.trans ha'
    exact ⟨p, hp, hne, hnear⟩
  · rintro ⟨p, hp, hne, hnear⟩
    obtain ⟨-, -, -, n, a', q', -, hn, -, -, hparent, ha', hnear'⟩ := h.node hp hne
    rw [hnear'.unique hnear] at ha'
    rw [index_inj hsorted ha ha']
    exact hl.child_of_parent hn hparent

variable (hn : program.Nests) (hwhole : whole.contains program.span = true)

include hn hwhole

theorem contains {a : Nat} {n : Node} {q p : List Nat} {u : ParseTree} (ha : places[a]? = some q)
    (hna : tree.node? a = some n) (hqp : q <+: p) (hu : program.at? p = some u) :
    n.span.contains u.span = true := by
  cases q with
  | nil =>
      obtain ⟨hroot, n', hn', -, rfl, -⟩ := h.root
      rw [index_inj hsorted ha hroot] at hna
      cases hna.symm.trans hn'
      exact Span.contains_trans hwhole (hn.contains_at? hu)
  | cons i q =>
      obtain ⟨form, span, children, n', -, -, hat, hn', -, rfl, -⟩ := h.node ha (by simp)
      cases hna.symm.trans hn'
      exact hn.contains hqp hat hu

include hkept

/-- **Spans nest in the syntax tree as they do in the parse tree.** -/
theorem nested : tree.Nested where
  within := by
    intro a c n k hac ha hc
    obtain ⟨q, hq⟩ := h.exists_place ha
    obtain ⟨p, hp, hne, hnear⟩ := (h.isChild_iff hsorted hq).1 hac
    obtain ⟨form, span, children, k', -, -, hat, hk', -, rfl, -⟩ := h.node hp hne
    cases hc.symm.trans hk'
    exact h.contains hsorted hn hwhole hq ha hnear.above hat
  apart := by
    intro a n ha
    obtain ⟨q, hq⟩ := h.exists_place ha
    apply (h.grown.linked.sorted ha).imp_of_mem
    intro c d hc hd hcd k l hk hl
    obtain ⟨p, hp, hpne, hpnear⟩ := (h.isChild_iff hsorted hq).1 ⟨n, ha, hc⟩
    obtain ⟨r, hr, hrne, hrnear⟩ := (h.isChild_iff hsorted hq).1 ⟨n, ha, hd⟩
    obtain ⟨_, _, _, k', -, -, hfront, hk', -, rfl, -⟩ := h.node hp hpne
    obtain ⟨_, _, _, l', -, -, hback, hl', -, rfl, -⟩ := h.node hr hrne
    cases hk.symm.trans hk'
    cases hl.symm.trans hl'
    -- The places are in the order of the ids, and none is above the other.
    have hlt : p < r := by
      obtain ⟨hc', rfl⟩ := List.getElem?_eq_some_iff.1 hp
      obtain ⟨hd', rfl⟩ := List.getElem?_eq_some_iff.1 hr
      exact List.pairwise_iff_getElem.1 hsorted c d hc' hd' hcd
    have hp' := (hkept (List.mem_of_getElem? hp)).resolve_left hpne
    exact hn.stop_le_start hlt (hpnear.not_prefix hrnear hp' (ne_of_lt hlt)) hfront hback

end links

end Records

/-! ### The syntax tree of a program -/

/-- What a syntax tree is to a parse tree. -/
structure Outline (program : ParseTree) (whole : Span) (tree : SyntaxTree)
    (places : List (List Nat)) : Prop where
  /-- The root and the kept nodes, in the order of the text. -/
  sorted : places.Pairwise (· < ·)
  kept : ∀ p, p ∈ places ↔ p = [] ∨ program.IsKeptAt p
  /-- They are the nodes of the syntax tree, by their ids. -/
  records : program.Records whole tree places
  /-- Children are listed in the order of the text, and are those that name their parent. -/
  children : ∀ {a : Nat} {n : Node}, tree.node? a = some n → n.children.Pairwise (· < ·) ∧
    ∀ c, c ∈ n.children ↔ ∃ k, tree.node? c = some k ∧ k.parent = some a
  /-- Spans nest as the nodes do, and siblings follow each other. -/
  nested : tree.Nested
  /-- The clauses of a switch are its children, as clauses of a switch. -/
  clauses : ∀ {p : List Nat} {i j : Nat} {u v w : ParseTree} {clause : Form}, program.IsKeptAt p →
    program.at? p = some u → u.label = .named .switchStatement →
    program.at? (p ++ [i]) = some v → v.label = .named .switchBody →
    program.at? (p ++ [i] ++ [j]) = some w → w.label = .named clause → clause ∈ clauseForms →
    ∃ a c n k, places[a]? = some p ∧ tree.node? a = some n ∧ n.kind = .statement .switch ∧
      places[c]? = some (p ++ [i] ++ [j]) ∧ tree.node? c = some k ∧ k.kind = .switchCase ∧
      k.parent = some a ∧ c ∈ n.children

/-- **The syntax tree of a program is its parse tree without what layout has no use for.**  Let the
spans of a parse tree nest, and its unnamed nodes be leaves.  The nodes of the syntax tree are then
the named ones, numbered in the order of the text, without comments, what is in those, and the
bodies of switches.  Each has the kind that its name in the grammar tells, and hangs off the nearest
node above it that is left, so clauses hang off their switch; and spans nest again. -/
theorem outline_statements {program : ParseTree} {whole : Span} (hn : program.Nests)
    (hmarks : program.MarksAreLeaves) (hwhole : whole.contains program.span = true) :
    program.Outline whole (program.statements whole) program.keptPlaces := by
  have hsorted := keptPlaces_sorted program
  have h := Records.statements program whole
  have hl := h.grown.linked
  have hkept : ∀ p, p ∈ program.keptPlaces ↔ p = [] ∨ program.IsKeptAt p :=
    fun p => mem_keptPlaces_iff hmarks
  constructor
  case sorted => exact hsorted
  case kept => exact hkept
  case records => exact h
  case children =>
    intro a n ha
    refine ⟨hl.sorted ha, fun c => ⟨fun hc => hl.parent_of_child ⟨n, ha, hc⟩, ?_⟩⟩
    rintro ⟨k, hk, hparent⟩
    obtain ⟨n', ha', hc⟩ := hl.child_of_parent hk hparent
    cases ha.symm.trans ha'
    exact hc
  case nested => exact h.nested hsorted (fun hp => (hkept _).1 hp) hn hwhole
  case clauses =>
    intro p i j u v w clause hp hu hswitch hv hbody hw hlabel hclause
    obtain ⟨hkeep, hnear⟩ := Nearest.of_switchBody hp hv hbody hw hlabel hclause
    obtain ⟨a, ha⟩ := List.mem_iff_getElem?.1 ((hkept p).2 (.inr hp))
    obtain ⟨c, hc⟩ := List.mem_iff_getElem?.1 ((hkept (p ++ [i] ++ [j])).2 (.inr hkeep))
    have hkind : HasKind .switchStatement u.children (.statement .switch) := ⟨by decide, nofun⟩
    have hkind' : HasKind clause w.children .switchCase := hclause
    obtain ⟨n, hna, hnkind⟩ := h.exists_node ha hp.1 hu hswitch hkind
    obtain ⟨k, hkc, hkkind⟩ := h.exists_node hc (by simp) hw hlabel hkind'
    have hchild : (program.statements whole).IsChild a c :=
      (h.isChild_iff hsorted ha).2 ⟨_, hc, by simp, hnear⟩
    obtain ⟨k', hk', hparent⟩ := hl.parent_of_child hchild
    obtain ⟨n', hn', hmem⟩ := hchild
    cases hkc.symm.trans hk'
    cases hna.symm.trans hn'
    exact ⟨a, c, n, k, ha, hna, hnkind, hc, hkc, hkkind, hparent, hmem⟩

/-- A switch with one clause, and a comment behind it. -/
def oneClause : ParseTree :=
  let at_ (start stop : Nat) : Span :=
    Text.spanAt "switch(a)\x7bcase 1:b\x7d/**/".toList start stop
  .node (.named .program) (at_ 0 23)
    [.node (.named .switchStatement) (at_ 0 19)
      [.node (.mark "switch") (at_ 0 6) [],
        .node (.named .phrase) (at_ 6 9)
          [.node (.mark "(") (at_ 6 7) [], .node (.named .name) (at_ 7 8) [],
            .node (.mark ")") (at_ 8 9) []],
        .node (.named .switchBody) (at_ 9 19)
          [.node (.mark "\x7b") (at_ 9 10) [],
            .node (.named .switchCase) (at_ 10 18)
              [.node (.mark "case") (at_ 10 14) [], .node (.named .number) (at_ 15 16) [],
                .node (.mark ":") (at_ 16 17) [],
                .node (.named .expressionStatement) (at_ 17 18)
                  [.node (.named .name) (at_ 17 18) []]],
            .node (.mark "\x7d") (at_ 18 19) []]],
      .node (.named .comment) (at_ 19 23) []]

theorem outline_statements_oneClause :
    oneClause.Nests ∧ oneClause.MarksAreLeaves ∧
    oneClause.span.contains oneClause.span = true ∧
    oneClause.keptPlaces =
      [[], [0], [0, 1], [0, 1, 1], [0, 2, 1], [0, 2, 1, 1], [0, 2, 1, 3], [0, 2, 1, 3, 0]] ∧
    (oneClause.statements oneClause.span).Nested ∧
    ∃ n k, (oneClause.statements oneClause.span).node? 1 = some n ∧ n.kind = .statement .switch ∧
      (oneClause.statements oneClause.span).node? 4 = some k ∧ k.kind = .switchCase ∧
      k.parent = some 1 ∧ 4 ∈ n.children := by
  have hn : oneClause.Nests := by decide +kernel
  have hmarks : oneClause.MarksAreLeaves := by decide +kernel
  have hwhole : oneClause.span.contains oneClause.span = true := by decide +kernel
  have hplaces : oneClause.keptPlaces =
      [[], [0], [0, 1], [0, 1, 1], [0, 2, 1], [0, 2, 1, 1], [0, 2, 1, 3], [0, 2, 1, 3, 0]] := by
    decide +kernel
  have h := outline_statements hn hmarks hwhole
  have hswitch : oneClause.IsKeptAt [0] :=
    ((h.kept [0]).1 (by simp [hplaces])).resolve_left (by simp)
  obtain ⟨a, c, n, k, ha, hna, hkind, hc, hkc, hclause, hparent, hmem⟩ :=
    h.clauses (i := 2) (j := 1) hswitch rfl rfl rfl rfl rfl rfl (by decide)
  obtain rfl : a = 1 := Records.index_inj h.sorted ha (by rw [hplaces]; rfl)
  obtain rfl : c = 4 := Records.index_inj h.sorted hc (by rw [hplaces]; rfl)
  exact ⟨hn, hmarks, hwhole, hplaces, h.nested, n, k, hna, hkind, hkc, hclause, hparent, hmem⟩

end Interline.JavaScript.ParseTree
