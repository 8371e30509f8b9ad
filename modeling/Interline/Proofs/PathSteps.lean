import Mathlib
import Interline.Path

/-! # Steps of a path

A path is its steps, however it is written.  What is put behind a separator adds its steps
(`components_join`), and what `strip?` leaves of a path has the steps that the base has not
(`exists_strip?`).  So a path below a base is got back, step by step, from the base and the
rest (`components_join_strip?`). -/

namespace Interline

namespace Path

/-! ### Pieces -/

theorem pieces_ne_nil : ∀ cs : List Char, pieces cs ≠ []
  | [] => List.cons_ne_nil _ _
  | c :: cs => by
      unfold pieces
      split
      · exact List.cons_ne_nil _ _
      · split <;> exact List.cons_ne_nil _ _

theorem pieces_cons {c : Char} (hc : c ≠ '/') (cs : List Char) :
    ∃ piece rest, pieces cs = piece :: rest ∧ pieces (c :: cs) = (c :: piece) :: rest := by
  obtain ⟨piece, rest, h⟩ := List.exists_cons_of_ne_nil (pieces_ne_nil cs)
  refine ⟨piece, rest, h, ?_⟩
  rw [pieces, if_neg hc, h]

theorem pieces_separator (cs : List Char) : pieces ('/' :: cs) = [] :: pieces cs := by
  rw [pieces, if_pos rfl]

theorem pieces_append (cs ds : List Char) :
    pieces (cs ++ '/' :: ds) = pieces cs ++ pieces ds := by
  induction cs with
  | nil => exact pieces_separator ds
  | cons c cs ih =>
      by_cases hc : c = '/'
      · rw [hc, List.cons_append, pieces_separator, pieces_separator, ih, List.cons_append]
      · obtain ⟨piece, rest, h, h'⟩ := pieces_cons hc cs
        obtain ⟨piece', rest', k, k'⟩ := pieces_cons hc (cs ++ '/' :: ds)
        rw [ih, h, List.cons_append] at k
        injection k with hpiece hrest
        rw [List.cons_append, k', h', List.cons_append, hpiece, hrest]

theorem not_mem_of_mem_pieces {cs piece : List Char} (h : piece ∈ pieces cs) : '/' ∉ piece := by
  induction cs generalizing piece with
  | nil =>
      rw [pieces, List.mem_singleton] at h
      rw [h]
      exact List.not_mem_nil
  | cons c cs ih =>
      by_cases hc : c = '/'
      · rw [hc, pieces_separator] at h
        rcases List.mem_cons.1 h with rfl | h
        · exact List.not_mem_nil
        · exact ih h
      · obtain ⟨first, rest, k, k'⟩ := pieces_cons hc cs
        rw [k'] at h
        rw [k] at ih
        rcases List.mem_cons.1 h with rfl | h
        · exact List.not_mem_cons_of_ne_of_not_mem (Ne.symm hc) (ih List.mem_cons_self)
        · exact ih (List.mem_cons_of_mem _ h)

theorem pieces_of_not_mem {cs : List Char} (h : '/' ∉ cs) : pieces cs = [cs] := by
  induction cs with
  | nil => rfl
  | cons c cs ih =>
      rw [List.mem_cons, not_or] at h
      obtain ⟨piece, rest, k, k'⟩ := pieces_cons (Ne.symm h.1) cs
      rw [ih h.2] at k
      cases k
      exact k'

theorem pieces_unpieces {ps : List (List Char)} (hne : ps ≠ []) (h : ∀ p ∈ ps, '/' ∉ p) :
    pieces (unpieces ps) = ps := by
  induction ps with
  | nil => exact absurd rfl hne
  | cons p ps ih =>
      have hp := h p List.mem_cons_self
      cases ps with
      | nil =>
          have : unpieces [p] = p := by simp [unpieces]
          rw [this, pieces_of_not_mem hp]
      | cons q qs =>
          have : unpieces (p :: q :: qs) = p ++ '/' :: unpieces (q :: qs) := by
            simp [unpieces, List.intercalate]
          rw [this, pieces_append, pieces_of_not_mem hp,
            ih (List.cons_ne_nil _ _) fun r hr => h r (List.mem_cons_of_mem _ hr)]
          rfl

/-! ### Steps -/

/-- The steps that the pieces of a text stand for. -/
def stepsOf (cs : List Char) : List PathComponent := (pieces cs).filterMap PathComponent.ofPiece

theorem stepsOf_append (cs ds : List Char) :
    stepsOf (cs ++ '/' :: ds) = stepsOf cs ++ stepsOf ds := by
  unfold stepsOf
  rw [pieces_append, List.filterMap_append]

theorem stepsOf_separator (cs : List Char) : stepsOf ('/' :: cs) = stepsOf cs :=
  stepsOf_append [] cs

theorem stepsOf_unpieces {ps : List (List Char)} (h : ∀ p ∈ ps, '/' ∉ p) :
    stepsOf (unpieces ps) = ps.filterMap PathComponent.ofPiece := by
  cases ps with
  | nil => rfl
  | cons p ps =>
      unfold stepsOf
      rw [pieces_unpieces (List.cons_ne_nil _ _) h]

/-- How the pieces of a text are read: the root, a dot in front, or neither. -/
theorem lead_cases (cs : List Char) :
    (∃ rest, cs = '/' :: rest ∧ lead cs = (some .root, pieces rest)) ∨
    (∃ rest, cs.head? ≠ some '/' ∧ pieces cs = ['.'] :: rest ∧ lead cs = (some .here, rest)) ∨
    (cs.head? ≠ some '/' ∧ (pieces cs).head? ≠ some ['.'] ∧ lead cs = (none, pieces cs)) := by
  unfold lead
  split
  next rest => exact .inl ⟨rest, rfl, rfl⟩
  next hroot =>
    have hhead : cs.head? ≠ some '/' := fun h => by
      obtain ⟨rest, rfl⟩ := List.head?_eq_some_iff.1 h
      exact hroot rest rfl
    split
    next rest hdot => exact .inr (.inl ⟨rest, hhead, hdot, rfl⟩)
    next hdot =>
      refine .inr (.inr ⟨hhead, fun h => ?_, rfl⟩)
      obtain ⟨rest, hrest⟩ := List.head?_eq_some_iff.1 h
      exact hdot rest hrest

/-- The steps of a path: what is in front, and those of its pieces. -/
theorem components_eq (path : String) :
    components path = (lead path.toList).1.toList ++ stepsOf path.toList := by
  unfold components isAbsolute
  rcases lead_cases path.toList with ⟨rest, hpath, h⟩ | ⟨rest, hhead, hdot, h⟩ | ⟨hhead, hdot, h⟩
  · rw [h, hpath]
    rfl
  · unfold stepsOf
    rw [h, hdot, if_neg (by simpa using hhead)]
    rfl
  · rw [h, if_neg (by simpa using hhead)]
    split
    next rest hrest => exact absurd (hrest ▸ rfl) hdot
    next => rfl

theorem filterMap_lead (cs : List Char) :
    (lead cs).2.filterMap PathComponent.ofPiece = stepsOf cs := by
  unfold stepsOf
  rcases lead_cases cs with ⟨rest, rfl, h⟩ | ⟨rest, -, hdot, h⟩ | ⟨-, -, h⟩
  · rw [h, pieces_separator]
    rfl
  · rw [h, hdot]
    rfl
  · rw [h]

theorem not_mem_of_mem_lead {cs p : List Char} (h : p ∈ (lead cs).2) : '/' ∉ p := by
  rcases lead_cases cs with ⟨rest, -, e⟩ | ⟨rest, -, hdot, e⟩ | ⟨-, -, e⟩ <;> rw [e] at h
  · exact not_mem_of_mem_pieces h
  · exact not_mem_of_mem_pieces (hdot ▸ List.mem_cons_of_mem _ h)
  · exact not_mem_of_mem_pieces h

/-! ### Pieces left out -/

theorem ofPiece_of_not_isStep {p : List Char} (h : isStep p = false) :
    PathComponent.ofPiece p = none := by
  simpa [isStep] using h

theorem filterMap_dropWhile (ps : List (List Char)) :
    (ps.dropWhile fun p => !isStep p).filterMap PathComponent.ofPiece =
      ps.filterMap PathComponent.ofPiece := by
  induction ps with
  | nil => rfl
  | cons p ps ih =>
      rw [List.dropWhile_cons]
      cases hp : isStep p with
      | true => rfl
      | false =>
          rw [List.filterMap_cons_none (ofPiece_of_not_isStep hp)]
          exact ih

theorem front_trimEnd (ps : List (List Char)) : trimEnd ps <+: ps :=
  List.rdropWhile_prefix _ ps

theorem filterMap_trimEnd (ps : List (List Char)) :
    (trimEnd ps).filterMap PathComponent.ofPiece = ps.filterMap PathComponent.ofPiece := by
  unfold trimEnd
  rw [List.filterMap_reverse, filterMap_dropWhile, List.filterMap_reverse, List.reverse_reverse]

theorem back_dropSteps : ∀ (n : Nat) (ps : List (List Char)), dropSteps n ps <:+ ps
  | 0, _ => List.dropWhile_suffix _
  | n + 1, _ =>
      (back_dropSteps n _).trans ((List.drop_suffix 1 _).trans (List.dropWhile_suffix _))

theorem isStep_of_head?_dropSteps : ∀ (n : Nat) (ps : List (List Char)) {p : List Char},
    (dropSteps n ps).head? = some p → isStep p = true
  | 0, ps, p, h => by
      have hhead := List.head?_dropWhile_not (fun p => !isStep p) ps
      rw [show (ps.dropWhile fun p => !isStep p).head? = some p from h] at hhead
      simpa using hhead
  | n + 1, _, _, h => isStep_of_head?_dropSteps n _ h

theorem filterMap_dropSteps : ∀ (n : Nat) (ps : List (List Char)),
    (dropSteps n ps).filterMap PathComponent.ofPiece =
      (ps.filterMap PathComponent.ofPiece).drop n
  | 0, ps => filterMap_dropWhile ps
  | n + 1, ps => by
      have hkeep := filterMap_dropWhile ps
      have hhead := List.head?_dropWhile_not (fun p => !isStep p) ps
      unfold dropSteps
      rw [filterMap_dropSteps n, ← hkeep]
      cases hrest : ps.dropWhile fun p => !isStep p with
      | nil => simp
      | cons p rest =>
          rw [hrest] at hhead
          obtain ⟨c, hc⟩ := Option.isSome_iff_exists.1 (by simpa using hhead : isStep p = true)
          rw [List.filterMap_cons_some hc]
          rfl

/-! ### Bases and rests -/

section ofParts

variable {ps : List (List Char)} (h : ∀ p ∈ ps, '/' ∉ p)
include h

theorem components_ofParts_root :
    components (ofParts (some .root) ps) = .root :: ps.filterMap PathComponent.ofPiece := by
  unfold ofParts
  rw [components_eq, String.toList_ofList, stepsOf_separator, stepsOf_unpieces h]
  rfl

theorem components_ofParts_here :
    components (ofParts (some .here) ps) = .here :: ps.filterMap PathComponent.ofPiece := by
  have hall : ∀ p ∈ ['.'] :: ps, '/' ∉ p := by
    intro p hp
    rcases List.mem_cons.1 hp with rfl | hp
    · decide
    · exact h p hp
  have hpieces := pieces_unpieces (List.cons_ne_nil _ _) hall
  unfold ofParts
  rw [components_eq, String.toList_ofList, stepsOf_unpieces hall]
  rcases lead_cases (unpieces (['.'] :: ps)) with ⟨rest, hroot, -⟩ | ⟨rest, -, -, e⟩ | ⟨-, hdot, -⟩
  · rw [hroot, pieces_separator] at hpieces
    cases hpieces
  · rw [e]
    rfl
  · rw [hpieces] at hdot
    exact absurd rfl hdot

theorem lead_ofParts_none (hnil : ps.head? ≠ some []) (hdot : ps.head? ≠ some ['.']) :
    (lead (ofParts none ps).toList).1 = none := by
  unfold ofParts
  rw [String.toList_ofList]
  cases ps with
  | nil => rfl
  | cons p ps =>
      have hpieces := pieces_unpieces (List.cons_ne_nil p ps) h
      rcases lead_cases (unpieces (p :: ps)) with ⟨rest, hroot, -⟩ | ⟨rest, -, hhere, -⟩ | ⟨-, -, e⟩
      · rw [hroot, pieces_separator] at hpieces
        cases hpieces
        exact absurd rfl hnil
      · rw [hhere] at hpieces
        cases hpieces
        exact absurd rfl hdot
      · rw [e]

theorem components_ofParts_none (hnil : ps.head? ≠ some []) (hdot : ps.head? ≠ some ['.']) :
    components (ofParts none ps) = ps.filterMap PathComponent.ofPiece := by
  rw [components_eq, lead_ofParts_none h hnil hdot]
  unfold ofParts
  rw [String.toList_ofList, stepsOf_unpieces h]
  rfl

end ofParts

theorem components_ofParts_lead (path : String) :
    components (ofParts (lead path.toList).1 (trimEnd (lead path.toList).2)) = components path := by
  have hslash : ∀ p ∈ trimEnd (lead path.toList).2, '/' ∉ p := fun p hp =>
    not_mem_of_mem_lead ((front_trimEnd _).subset hp)
  have hsteps : (trimEnd (lead path.toList).2).filterMap PathComponent.ofPiece =
      stepsOf path.toList := (filterMap_trimEnd _).trans (filterMap_lead _)
  rw [components_eq path]
  rcases lead_cases path.toList with ⟨rest, -, e⟩ | ⟨rest, -, -, e⟩ | ⟨hhead, hdot, e⟩ <;>
    rw [e] at hslash hsteps ⊢
  · rw [components_ofParts_root hslash, hsteps]
    rfl
  · rw [components_ofParts_here hslash, hsteps]
    rfl
  · have hfront : ∀ {p}, (trimEnd (pieces path.toList)).head? = some p →
        (pieces path.toList).head? = some p := by
      intro p hp
      obtain ⟨t, ht⟩ := front_trimEnd (pieces path.toList)
      rw [← ht, List.head?_append, hp]
      rfl
    have hnil : (trimEnd (pieces path.toList)).head? ≠ some [] := by
      intro hp
      cases hcs : path.toList with
      | nil =>
          rw [hcs] at hp
          cases hp
      | cons c cs =>
          have hc : c ≠ '/' := fun h => hhead (by rw [hcs, h]; rfl)
          obtain ⟨piece, rest, -, k⟩ := pieces_cons hc cs
          have hp' := hfront hp
          rw [hcs, k] at hp'
          cases hp'
    rw [components_ofParts_none hslash hnil fun h => hdot (hfront h), hsteps]
    rfl

theorem components_dropSteps (path : String) (n : Nat) :
    (lead (ofParts none (dropSteps n (trimEnd (lead path.toList).2))).toList).1 = none ∧
      components (ofParts none (dropSteps n (trimEnd (lead path.toList).2))) =
        (stepsOf path.toList).drop n := by
  have hslash : ∀ p ∈ dropSteps n (trimEnd (lead path.toList).2), '/' ∉ p := fun p hp =>
    not_mem_of_mem_lead ((front_trimEnd _).subset ((back_dropSteps n _).subset hp))
  have hnil : (dropSteps n (trimEnd (lead path.toList).2)).head? ≠ some [] := fun h =>
    absurd (isStep_of_head?_dropSteps n _ h) (by decide)
  have hdot : (dropSteps n (trimEnd (lead path.toList).2)).head? ≠ some ['.'] := fun h =>
    absurd (isStep_of_head?_dropSteps n _ h) (by decide)
  refine ⟨lead_ofParts_none hslash hnil hdot, ?_⟩
  rw [components_ofParts_none hslash hnil hdot, filterMap_dropSteps, filterMap_trimEnd,
    filterMap_lead]

/-- What is below a base has the steps that the base has not; a rest that is not the whole path has
nothing in front. -/
theorem exists_strip? {path base : String} (h : components base <+: components path) :
    ∃ rest, strip? path base = some rest ∧
      components rest = (components path).drop (components base).length ∧
      (components base ≠ [] → (lead rest.toList).1 = none) := by
  have hsteps := components_eq path
  unfold strip?
  rw [if_pos (List.isPrefixOf_iff_prefix.2 h)]
  cases hbase : components base with
  | nil => exact ⟨_, rfl, components_ofParts_lead path, fun hne => absurd rfl hne⟩
  | cons c cs =>
      simp only [List.length_cons]
      cases hfirst : (lead path.toList).1 with
      | none =>
          obtain ⟨hlead, hrest⟩ := components_dropSteps path (cs.length + 1)
          rw [hfirst] at hsteps
          refine ⟨_, rfl, ?_, fun _ => hlead⟩
          rw [hrest, hsteps]
          rfl
      | some first =>
          obtain ⟨hlead, hrest⟩ := components_dropSteps path cs.length
          rw [hfirst] at hsteps
          refine ⟨_, rfl, ?_, fun _ => hlead⟩
          rw [hrest, hsteps]
          rfl

/-! ### Joined paths -/

/-- What is in front of the pieces shows in the first character and the first piece. -/
theorem lead_fst_eq (cs : List Char) : (lead cs).1 =
    if cs.head? = some '/' then some .root
    else if (pieces cs).head? = some ['.'] then some .here else none := by
  rcases lead_cases cs with ⟨rest, rfl, e⟩ | ⟨rest, hhead, hdot, e⟩ | ⟨hhead, hdot, e⟩
  · rw [e, List.head?_cons, if_pos rfl]
  · rw [e, if_neg hhead, hdot, List.head?_cons, if_pos rfl]
  · rw [e, if_neg hhead, if_neg hdot]

theorem lead_append {cs : List Char} (hcs : cs ≠ []) (ds : List Char) :
    (lead (cs ++ '/' :: ds)).1 = (lead cs).1 := by
  rw [lead_fst_eq, lead_fst_eq, pieces_append, List.head?_append_of_ne_nil _ hcs,
    List.head?_append_of_ne_nil _ (pieces_ne_nil cs)]

theorem components_append {base : String} (hbase : base ≠ "") (path : String) :
    components (base ++ "/" ++ path) = components base ++ stepsOf path.toList := by
  have htext : (base ++ "/" ++ path).toList = base.toList ++ '/' :: path.toList := by
    simp [String.toList_append]
  have hne : base.toList ≠ [] := by simpa using hbase
  rw [components_eq, components_eq base, htext, lead_append hne, stepsOf_append, List.append_assoc]

theorem components_root (path : String) :
    components ("/" ++ path) = .root :: stepsOf path.toList := by
  have htext : ("/" ++ path).toList = '/' :: path.toList := by simp [String.toList_append]
  rw [components_eq, htext, stepsOf_separator]
  rfl

/-- A separator at the end of a base makes no difference. -/
theorem components_append_of_getLast? {base : String} (hlast : base.toList.getLast? = some '/')
    (path : String) : components (base ++ path) = components base ++ stepsOf path.toList := by
  obtain ⟨cs, hcs⟩ := List.getLast?_eq_some_iff.1 hlast
  obtain ⟨front, rfl⟩ : ∃ front, base = front ++ "/" :=
    ⟨String.ofList cs, by rw [← String.toList_inj, hcs]; simp [String.toList_append]⟩
  by_cases hfront : front = ""
  · rw [hfront]
    exact components_root path
  · rw [components_append hfront, show front ++ "/" = front ++ "/" ++ "" by simp,
      components_append hfront]
    simp [stepsOf, pieces, PathComponent.ofPiece]

theorem components_join {base path : String} (h : (lead path.toList).1 = none) :
    components (join base path) = components base ++ components path := by
  have habs : isAbsolute path = false := by
    rw [lead_fst_eq] at h
    split at h
    · cases h
    next hhead => simpa [isAbsolute] using hhead
  have hpath : components path = stepsOf path.toList := by
    rw [components_eq, h]
    rfl
  unfold join
  rw [if_neg (by simp [habs])]
  by_cases hbase : base = ""
  · rw [hbase]
    simp [components, isAbsolute, pieces, PathComponent.ofPiece]
  · rw [hpath]
    split
    next hend =>
      have hlast : base.toList.getLast? = some '/' := by simpa [hbase] using hend
      exact components_append_of_getLast? hlast path
    next => exact components_append hbase path

theorem eq_empty_of_components {path : String} (h : components path = []) : path = "" := by
  rw [components_eq, List.append_eq_nil_iff] at h
  obtain ⟨hlead, hsteps⟩ := h
  rcases lead_cases path.toList with ⟨rest, -, e⟩ | ⟨rest, -, -, e⟩ | ⟨hhead, hdot, -⟩
  · rw [e] at hlead
    cases hlead
  · rw [e] at hlead
    cases hlead
  · cases hcs : path.toList with
    | nil => simpa using hcs
    | cons c cs =>
        have hc : c ≠ '/' := fun h => hhead (by rw [hcs, h]; rfl)
        obtain ⟨piece, rest, -, k⟩ := pieces_cons hc cs
        rw [hcs, k] at hdot
        unfold stepsOf at hsteps
        rw [hcs, k, List.filterMap_eq_nil_iff] at hsteps
        have hpiece := hsteps _ List.mem_cons_self
        unfold PathComponent.ofPiece at hpiece
        split at hpiece
        next h => cases h
        next h => exact absurd (congrArg some h) hdot
        next => cases hpiece
        next => cases hpiece

/-- **A path below a base is the base with the rest behind it.** -/
theorem components_join_strip? {path base : String} (h : components base <+: components path) :
    ∃ rest, strip? path base = some rest ∧
      components (join base rest) = components path ∧
      components base ++ components rest = components path := by
  obtain ⟨rest, hrest, hsteps, hlead⟩ := exists_strip? h
  have happend : components base ++ components rest = components path := by
    obtain ⟨below, hbelow⟩ := h
    rw [hsteps, ← hbelow, List.drop_left]
  refine ⟨rest, hrest, ?_, happend⟩
  by_cases hbase : components base = []
  · have hempty := eq_empty_of_components hbase
    rw [hbase, List.nil_append] at happend
    rw [hempty, ← happend]
    unfold join
    split
    · rfl
    · simp
  · rw [components_join (hlead hbase), happend]

end Path

end Interline
