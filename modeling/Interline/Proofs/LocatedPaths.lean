import Mathlib
import Interline.Project.FileTree
import Interline.Proofs.PathSteps

/-! # Where paths lead

In a tree without links the steps of a path alone say where it leads: a name goes down, two dots go
to the directory above (`Path.place`).  The tree decides only whether the way is there.

* `FileTree.follow_append_iff` cuts a way in two, and `FileTree.place_of_locate` says that its end
  is that of its steps;
* `FileTree.LeadsTo` holds of a path from the root that leads to a directory by given steps;
* a path that is made absolute leads to the same place by the same steps
  (`FileTree.locate_absolute`), and the path without its last step leads by the steps without the
  last one (`FileTree.exists_parent?`). -/

namespace Interline

/-- Where a step leads from a directory that is given by its names. -/
def PathComponent.move (here : List String) : PathComponent → List String
  | .root => []
  | .here => here
  | .up => here.dropLast
  | .name n => here ++ [n]

theorem PathComponent.ofPiece_cases (p : List Char) :
    ofPiece p = none ∨ ofPiece p = some .up ∧ p = ['.', '.'] ∨
      ofPiece p = some (.name (String.ofList p)) := by
  unfold ofPiece
  split
  · exact .inl rfl
  · exact .inl rfl
  · exact .inr (.inl ⟨rfl, rfl⟩)
  · exact .inr (.inr rfl)

namespace Path

/-- Where steps lead from the root. -/
def place (steps : List PathComponent) : List String := steps.foldl PathComponent.move []

/-! ### Absolute paths -/

theorem exists_of_isAbsolute {path : String} (h : isAbsolute path = true) :
    ∃ rest, path.toList = '/' :: rest ∧ lead path.toList = (some .root, pieces rest) := by
  obtain ⟨rest, hrest⟩ := List.head?_eq_some_iff.1 (beq_iff_eq.1 h)
  refine ⟨rest, hrest, ?_⟩
  rw [hrest]
  rfl

theorem isAbsolute_iff {path : String} :
    isAbsolute path = true ↔ path.toList.head? = some '/' := beq_iff_eq

theorem isAbsolute_eq_false {path : String} (h : '/' ∉ path.toList) : isAbsolute path = false := by
  rw [← Bool.not_eq_true, isAbsolute_iff]
  exact fun hhead => h (List.mem_of_mem_head? hhead)

/-- A path is joined to an absolute one by a separator, or behind the one that is there. -/
theorem exists_pieces_join {base path : String} (hbase : isAbsolute base = true)
    (hpath : isAbsolute path = false) : isAbsolute (join base path) = true ∧
      ∃ ps, ((lead base.toList).2 = ps ∨ (lead base.toList).2 = ps ++ [[]]) ∧
        (lead (join base path).toList).2 = ps ++ pieces path.toList := by
  obtain ⟨rest, htext, hlead⟩ := exists_of_isAbsolute hbase
  have hne : base.isEmpty = false := by
    rw [← Bool.not_eq_true, String.isEmpty_iff]
    rintro rfl
    cases htext
  unfold join
  rw [hpath, hne, hlead]
  simp only [Bool.false_eq_true, if_false, Bool.false_or, beq_iff_eq]
  split
  next hlast =>
    have hjoined : (base ++ path).toList = '/' :: (rest ++ path.toList) := by
      rw [String.toList_append, htext, List.cons_append]
    refine ⟨by rw [isAbsolute_iff, hjoined]; rfl, ?_⟩
    rw [hjoined]
    rcases List.eq_nil_or_concat' rest with rfl | ⟨front, c, rfl⟩
    · exact ⟨[], .inr rfl, rfl⟩
    · have hc : c = '/' := by
        rw [htext, ← List.cons_append, List.getLast?_concat] at hlast
        exact Option.some.inj hlast
      refine ⟨pieces front, .inr ?_, ?_⟩
      · rw [hc, pieces_append]
        rfl
      · rw [hc, List.append_assoc]
        exact pieces_append front path.toList
  next hlast =>
    have hjoined : (base ++ "/" ++ path).toList = '/' :: (rest ++ '/' :: path.toList) := by
      rw [String.toList_append, String.toList_append, htext]
      simp
    refine ⟨by rw [isAbsolute_iff, hjoined]; rfl, pieces rest, .inl rfl, ?_⟩
    rw [hjoined]
    exact pieces_append rest path.toList

theorem stepsOf_join {base path : String} (hbase : isAbsolute base = true)
    (hpath : isAbsolute path = false) :
    stepsOf (join base path).toList = stepsOf base.toList ++ stepsOf path.toList := by
  obtain ⟨-, ps, hps, hjoined⟩ := exists_pieces_join hbase hpath
  rw [← filterMap_lead (join base path).toList, hjoined, List.filterMap_append,
    ← filterMap_lead base.toList]
  rcases hps with h | h
  · rw [h]
    rfl
  · rw [h, List.filterMap_append]
    simp [stepsOf, PathComponent.ofPiece]

theorem isAbsolute_join {base : String} (hbase : isAbsolute base = true) (path : String) :
    isAbsolute (join base path) = true := by
  cases hpath : isAbsolute path with
  | true =>
      unfold join
      rwa [if_pos hpath]
  | false => exact (exists_pieces_join hbase hpath).1

theorem getLast?_join {path : String} (hpath : path ≠ "") (base : String) :
    (join base path).toList.getLast? = path.toList.getLast? := by
  have hne : path.toList ≠ [] := by simpa using hpath
  unfold join
  split
  · rfl
  · split <;> rw [String.toList_append, List.getLast?_append_of_ne_nil _ hne]

end Path

namespace FileTree

variable {t : FileTree} {here names : List String}

/-! ### Ways in a tree -/

theorem at?_append (t : FileTree) (front back : List String) :
    t.at? (front ++ back) = (t.at? front).bind fun c => c.at? back := by
  induction front generalizing t with
  | nil => rfl
  | cons name front ih =>
      rw [List.cons_append, at?, at?, Option.bind_assoc]
      exact congrArg _ (funext fun c => ih c)

/-- Whether a directory stands at the end of the given names. -/
def DirAt (t : FileTree) (names : List String) : Prop :=
  ∃ entries, t.at? names = some (.dir entries)

theorem DirAt.of_prefix {above : List String} (h : t.DirAt names) (habove : above <+: names) :
    t.DirAt above := by
  obtain ⟨entries, hat⟩ := h
  obtain ⟨back, rfl⟩ := habove
  rw [at?_append] at hat
  cases htop : t.at? above with
  | none =>
      rw [htop] at hat
      cases hat
  | some top =>
      rw [htop] at hat
      cases top with
      | dir inner => exact ⟨inner, htop⟩
      | file content =>
          -- Nothing but itself stands below a file.
          cases back with
          | nil => cases hat
          | cons name back => cases hat

theorem follow_cons_iff {p : List Char} {ps : List (List Char)} :
    t.follow here (p :: ps) = .ok names ↔ t.DirAt here ∧
      t.follow (((PathComponent.ofPiece p).map (PathComponent.move here)).getD here) ps =
        .ok names := by
  unfold DirAt
  rw [follow]
  rcases hat : t.at? here with _ | (_ | entries)
  · simp
  · simp
  · rcases PathComponent.ofPiece_cases p with h | ⟨h, -⟩ | h <;> simp [h, PathComponent.move]

theorem follow_nil_iff :
    t.follow here [] = .ok names ↔ (t.at? here).isSome = true ∧ here = names := by
  rw [follow]
  split
  next hsome => simp [hsome]
  next hnone => simp [hnone]

theorem isSome_of_follow {ps : List (List Char)} (h : t.follow here ps = .ok names) :
    (t.at? here).isSome = true := by
  cases ps with
  | nil => exact (follow_nil_iff.1 h).1
  | cons p ps =>
      obtain ⟨⟨entries, hat⟩, -⟩ := follow_cons_iff.1 h
      rw [hat]
      rfl

theorem follow_append_iff {ps qs : List (List Char)} : t.follow here (ps ++ qs) = .ok names ↔
    ∃ mid, t.follow here ps = .ok mid ∧ t.follow mid qs = .ok names := by
  induction ps generalizing here with
  | nil =>
      simp only [List.nil_append, follow_nil_iff]
      constructor
      · intro h
        exact ⟨here, ⟨isSome_of_follow h, rfl⟩, h⟩
      · rintro ⟨mid, ⟨-, rfl⟩, h⟩
        exact h
  | cons p ps ih =>
      simp only [List.cons_append, follow_cons_iff, ih]
      constructor
      · rintro ⟨hdir, mid, hmid, h⟩
        exact ⟨mid, ⟨hdir, hmid⟩, h⟩
      · rintro ⟨mid, ⟨hdir, hmid⟩, h⟩
        exact ⟨hdir, mid, hmid, h⟩

theorem isSome_at?_of_follow {ps : List (List Char)} (h : t.follow here ps = .ok names) :
    (t.at? names).isSome = true := by
  rw [← List.append_nil ps, follow_append_iff] at h
  obtain ⟨mid, -, h⟩ := h
  obtain ⟨hsome, rfl⟩ := follow_nil_iff.1 h
  exact hsome

theorem eq_of_follow {ps : List (List Char)} (h : t.follow here ps = .ok names) :
    names = (ps.filterMap PathComponent.ofPiece).foldl PathComponent.move here := by
  induction ps generalizing here with
  | nil => exact (follow_nil_iff.1 h).2.symm
  | cons p ps ih =>
      rw [ih (follow_cons_iff.1 h).2]
      cases hp : PathComponent.ofPiece p with
      | none => rw [List.filterMap_cons_none hp]; rfl
      | some c => rw [List.filterMap_cons_some hp]; rfl

/-- The pieces that stand for nothing can be left out of a way. -/
theorem follow_filter {ps : List (List Char)} (h : t.follow here ps = .ok names) :
    t.follow here (ps.filter Path.isStep) = .ok names := by
  induction ps generalizing here with
  | nil => exact h
  | cons p ps ih =>
      obtain ⟨hdir, hrest⟩ := follow_cons_iff.1 h
      rw [List.filter_cons]
      cases hp : Path.isStep p with
      | true => exact follow_cons_iff.2 ⟨hdir, ih hrest⟩
      | false =>
          rw [Path.ofPiece_of_not_isStep hp] at hrest
          exact ih hrest

theorem follow_blank_iff : t.follow here [[]] = .ok names ↔ t.DirAt here ∧ here = names := by
  rw [follow_cons_iff]
  simp only [PathComponent.ofPiece, Option.map_none, Option.getD_none, follow_nil_iff]
  constructor
  · rintro ⟨hdir, -, rfl⟩
    exact ⟨hdir, rfl⟩
  · rintro ⟨⟨entries, hat⟩, rfl⟩
    exact ⟨⟨entries, hat⟩, by rw [hat]; rfl, rfl⟩

/-! ### Paths from the root -/

theorem locate_eq {path : String} (h : Path.isAbsolute path = true) :
    t.locate path = t.follow [] (Path.lead path.toList).2 := by
  obtain ⟨rest, -, hlead⟩ := Path.exists_of_isAbsolute h
  unfold locate
  rw [hlead]

theorem isSome_of_locate {path : String} (h : Path.isAbsolute path = true)
    (hnames : t.locate path = .ok names) : (t.at? names).isSome = true := by
  rw [locate_eq h] at hnames
  exact isSome_at?_of_follow hnames

theorem dirAt_root {path : String} (h : Path.isAbsolute path = true)
    (hnames : t.locate path = .ok names) : t.DirAt [] := by
  obtain ⟨rest, -, hlead⟩ := Path.exists_of_isAbsolute h
  obtain ⟨p, ps, hpieces⟩ := List.exists_cons_of_ne_nil (Path.pieces_ne_nil rest)
  rw [locate_eq h, hlead, hpieces] at hnames
  exact (follow_cons_iff.1 hnames).1

theorem isFile_of_locate {path : String} (hnames : t.locate path = .ok names) :
    t.isFile path = (t.at? names).any fun entry => !entry.isDir := by
  have hentry : t.entry? path = t.at? names := by
    unfold entry?
    rw [hnames]
  unfold isFile
  rw [hentry]
  rcases t.at? names with _ | (_ | _) <;> rfl

theorem dirAt_or_isFile {path : String} (h : Path.isAbsolute path = true)
    (hnames : t.locate path = .ok names) :
    t.DirAt names ∧ t.isFile path = false ∨ ¬t.DirAt names ∧ t.isFile path = true := by
  rw [isFile_of_locate hnames]
  unfold DirAt
  have hsome := isSome_of_locate h hnames
  rcases hat : t.at? names with _ | (content | entries)
  · rw [hat] at hsome
    cases hsome
  · exact .inr ⟨by rintro ⟨entries, ⟨⟩⟩, rfl⟩
  · exact .inl ⟨⟨entries, rfl⟩, rfl⟩

theorem place_of_locate {path : String} (h : Path.isAbsolute path = true)
    (hnames : t.locate path = .ok names) : names = Path.place (Path.stepsOf path.toList) := by
  rw [locate_eq h] at hnames
  rw [eq_of_follow hnames, Path.filterMap_lead]
  rfl

/-- A path that is joined to another one goes on from there. -/
theorem locate_join_iff {base path : String} (hbase : Path.isAbsolute base = true)
    (hpath : Path.isAbsolute path = false) : t.locate (Path.join base path) = .ok names ↔
      ∃ mid, t.locate base = .ok mid ∧ t.follow mid (Path.pieces path.toList) = .ok names := by
  obtain ⟨habs, ps, hps, hjoined⟩ := Path.exists_pieces_join hbase hpath
  rw [locate_eq habs, hjoined, follow_append_iff, locate_eq hbase]
  rcases hps with h | h
  · rw [h]
  · -- The separator at the end asks for the directory that the next piece asks for anyway.
    have hdir : ∀ {mid}, t.follow mid (Path.pieces path.toList) = .ok names → t.DirAt mid := by
      intro mid hmid
      obtain ⟨p, rest, hpieces⟩ := List.exists_cons_of_ne_nil (Path.pieces_ne_nil path.toList)
      rw [hpieces] at hmid
      exact (follow_cons_iff.1 hmid).1
    rw [h]
    simp only [follow_append_iff, follow_blank_iff]
    constructor
    · rintro ⟨mid, hmid, hend⟩
      exact ⟨mid, ⟨mid, hmid, hdir hend, rfl⟩, hend⟩
    · rintro ⟨mid, ⟨_, hmid, -, rfl⟩, hend⟩
      exact ⟨_, hmid, hend⟩

/-! ### Paths made absolute -/

end FileTree

namespace Path

/-- The path of a step from a base. -/
def extend (base : String) : PathComponent → String
  | .root => "/"
  | .here => base
  | .up => join base ".."
  | .name n => join base n

theorem absolute_eq (directory path : String) : absolute directory path =
    let full := (components path).foldl extend (if isAbsolute path then "/" else directory)
    if path.toList.getLast? == some '/' then join full "" else full := by
  rfl

end Path

namespace FileTree

variable {t : FileTree} {here names : List String}

theorem locate_extend {p : List Char} {c : PathComponent} (hslash : '/' ∉ p)
    (hc : PathComponent.ofPiece p = some c) {base : String} (hbase : Path.isAbsolute base = true)
    (hhere : t.locate base = .ok here) (hnames : t.follow here [p] = .ok names) :
    Path.isAbsolute (Path.extend base c) = true ∧ t.locate (Path.extend base c) = .ok names ∧
      Path.stepsOf (Path.extend base c).toList = Path.stepsOf base.toList ++ [c] := by
  have hrelative : Path.isAbsolute (String.ofList p) = false :=
    Path.isAbsolute_eq_false (by rwa [String.toList_ofList])
  have hpieces : Path.pieces (String.ofList p).toList = [p] := by
    rw [String.toList_ofList, Path.pieces_of_not_mem hslash]
  have hsteps : Path.stepsOf (String.ofList p).toList = [c] := by
    rw [Path.stepsOf, hpieces, List.filterMap_cons_some hc]
    rfl
  have hextend : Path.extend base c = Path.join base (String.ofList p) := by
    rcases PathComponent.ofPiece_cases p with h | ⟨h, rfl⟩ | h <;> rw [hc] at h <;> cases h
    · rfl
    · rfl
  rw [hextend, Path.stepsOf_join hbase hrelative, hsteps]
  exact ⟨(Path.exists_pieces_join hbase hrelative).1,
    (locate_join_iff hbase hrelative).2 ⟨here, hhere, by rwa [hpieces]⟩, rfl⟩

theorem locate_foldl_extend {ps : List (List Char)} (hslash : ∀ p ∈ ps, '/' ∉ p) :
    ∀ {base : String}, Path.isAbsolute base = true → t.locate base = .ok here →
      t.follow here (ps.filter Path.isStep) = .ok names →
      let full := (ps.filterMap PathComponent.ofPiece).foldl Path.extend base
      Path.isAbsolute full = true ∧ t.locate full = .ok names ∧
        Path.stepsOf full.toList =
          Path.stepsOf base.toList ++ ps.filterMap PathComponent.ofPiece := by
  induction ps generalizing here with
  | nil =>
      intro base hbase hhere hnames
      obtain ⟨-, rfl⟩ := follow_nil_iff.1 hnames
      exact ⟨hbase, hhere, (List.append_nil _).symm⟩
  | cons p ps ih =>
      intro base hbase hhere hnames
      have hrest : ∀ q ∈ ps, '/' ∉ q := fun q hq => hslash q (List.mem_cons_of_mem _ hq)
      cases hp : Path.isStep p with
      | false =>
          rw [List.filter_cons_of_neg (by simp [hp])] at hnames
          rw [List.filterMap_cons_none (Path.ofPiece_of_not_isStep hp)]
          exact ih hrest hbase hhere hnames
      | true =>
          obtain ⟨c, hc⟩ := Option.isSome_iff_exists.1 hp
          rw [List.filter_cons_of_pos hp, ← List.singleton_append, follow_append_iff] at hnames
          obtain ⟨mid, hmid, hnames⟩ := hnames
          obtain ⟨habs, hlocate, hsteps⟩ :=
            locate_extend (hslash p List.mem_cons_self) hc hbase hhere hmid
          obtain ⟨habs, hlocate, hall⟩ := ih hrest habs hlocate hnames
          rw [List.filterMap_cons_some hc, List.foldl_cons]
          refine ⟨habs, hlocate, ?_⟩
          rw [hall, hsteps, List.append_assoc]
          rfl

/-- A separator at the end of a path asks for a directory. -/
theorem dirAt_of_locate {path : String} (h : Path.isAbsolute path = true)
    (hlast : path.toList.getLast? = some '/') (hnames : t.locate path = .ok names) :
    t.DirAt names := by
  obtain ⟨rest, htext, hlead⟩ := Path.exists_of_isAbsolute h
  rw [locate_eq h, hlead] at hnames
  rcases List.eq_nil_or_concat' rest with rfl | ⟨front, c, rfl⟩
  · obtain ⟨hdir, rfl⟩ := follow_blank_iff.1 hnames
    exact hdir
  · rw [htext, ← List.cons_append, List.getLast?_concat] at hlast
    cases hlast
    have hpieces : Path.pieces (front ++ ['/']) = Path.pieces front ++ [[]] :=
      Path.pieces_append front []
    rw [hpieces, follow_append_iff] at hnames
    obtain ⟨mid, -, hblank⟩ := hnames
    obtain ⟨hdir, rfl⟩ := follow_blank_iff.1 hblank
    exact hdir

section absolute

variable {directory path : String} (hdirectory : Path.isAbsolute directory = true)
  (hnames : t.locate (Path.join directory path) = .ok names)
include hdirectory hnames

/-- The steps of a path, put behind the working directory one by one, lead where the path leads
from there. -/
theorem locate_components :
    let full := (Path.components path).foldl Path.extend
      (if Path.isAbsolute path then "/" else directory)
    Path.isAbsolute full = true ∧ t.locate full = .ok names ∧
      Path.stepsOf full.toList = Path.stepsOf (Path.join directory path).toList := by
  cases hpath : Path.isAbsolute path with
  | true =>
      obtain ⟨rest, htext, hlead⟩ := Path.exists_of_isAbsolute hpath
      have hjoin : Path.join directory path = path := by
        unfold Path.join
        rw [if_pos hpath]
      have hsteps : Path.stepsOf path.toList =
          (Path.pieces rest).filterMap PathComponent.ofPiece := by
        rw [htext, Path.stepsOf_separator, Path.stepsOf]
      rw [hjoin] at hnames
      have hroot : t.locate "/" = .ok [] := follow_blank_iff.2 ⟨dirAt_root hpath hnames, rfl⟩
      rw [locate_eq hpath, hlead] at hnames
      rw [hjoin, Path.components_eq, hlead, hsteps]
      exact locate_foldl_extend (fun p hp => Path.not_mem_of_mem_pieces hp) rfl hroot
        (follow_filter hnames)
  | false =>
      obtain ⟨mid, hmid, hway⟩ := (locate_join_iff hdirectory hpath).1 hnames
      have hfirst : (Path.lead path.toList).1.toList.foldl Path.extend directory = directory := by
        rcases Path.lead_cases path.toList with ⟨rest, h, -⟩ | ⟨rest, -, -, e⟩ | ⟨-, -, e⟩
        · rw [← Bool.not_eq_true, Path.isAbsolute_iff, h] at hpath
          exact absurd rfl hpath
        · rw [e]
          rfl
        · rw [e]
          rfl
      rw [Path.stepsOf_join hdirectory hpath, Path.components_eq, List.foldl_append]
      simp only [Bool.false_eq_true, if_false, hfirst]
      exact locate_foldl_extend (fun p hp => Path.not_mem_of_mem_pieces hp) hdirectory hmid
        (follow_filter hway)

/-- **A path made absolute leads where the path leads from the working directory**, by the same
steps. -/
theorem locate_absolute : Path.isAbsolute (Path.absolute directory path) = true ∧
    t.locate (Path.absolute directory path) = .ok names ∧
    Path.stepsOf (Path.absolute directory path).toList =
      Path.stepsOf (Path.join directory path).toList := by
  obtain ⟨habs, hlocate, hsteps⟩ := locate_components hdirectory hnames
  rw [Path.absolute_eq]
  simp only [beq_iff_eq]
  split
  next hlast =>
    have hdir : t.DirAt names := by
      refine dirAt_of_locate (Path.isAbsolute_join hdirectory path) ?_ hnames
      rw [Path.getLast?_join (by rintro rfl; cases hlast), hlast]
    have hblank : Path.isAbsolute "" = false := rfl
    refine ⟨(Path.exists_pieces_join habs hblank).1, ?_, ?_⟩
    · exact (locate_join_iff habs hblank).2 ⟨names, hlocate, follow_blank_iff.2 ⟨hdir, rfl⟩⟩
    · rw [Path.stepsOf_join habs hblank, hsteps]
      exact List.append_nil _
  next => exact ⟨habs, hlocate, hsteps⟩

end absolute

/-! ### Paths without their last step -/

/-- A path from the root that leads to a directory by the given steps. -/
def LeadsTo (t : FileTree) (path : String) (steps : List PathComponent) : Prop :=
  Path.isAbsolute path = true ∧ Path.stepsOf path.toList = steps ∧
    t.locate path = .ok (Path.place steps) ∧ t.DirAt (Path.place steps)

theorem trimEnd_cases (ps : List (List Char)) :
    Path.trimEnd ps = [] ∧ ps.filterMap PathComponent.ofPiece = [] ∨
      ∃ front p c back, ps = front ++ p :: back ∧ Path.trimEnd ps = front ++ [p] ∧
        PathComponent.ofPiece p = some c ∧
        ps.filterMap PathComponent.ofPiece = front.filterMap PathComponent.ofPiece ++ [c] := by
  have hsteps := Path.filterMap_trimEnd ps
  rcases List.eq_nil_or_concat' (Path.trimEnd ps) with h | ⟨front, p, h⟩
  · rw [h] at hsteps
    exact .inl ⟨h, hsteps.symm⟩
  · have hstep : Path.isStep p = true := by
      have hne : ps.rdropWhile (fun p => !Path.isStep p) ≠ [] := by
        intro hnil
        rw [show Path.trimEnd ps = [] from hnil] at h
        simp at h
      have hlast := List.rdropWhile_last_not (fun p => !Path.isStep p) ps hne
      have hp : (ps.rdropWhile fun p => !Path.isStep p).getLast hne = p := by
        have : ps.rdropWhile (fun p => !Path.isStep p) = front ++ [p] := h
        simp [this]
      rw [hp] at hlast
      simpa using hlast
    obtain ⟨c, hc⟩ := Option.isSome_iff_exists.1 hstep
    obtain ⟨back, hback⟩ := Path.front_trimEnd ps
    refine .inr ⟨front, p, c, back, ?_, h, hc, ?_⟩
    · rw [← hback, h, List.append_assoc]
      rfl
    · rw [← hsteps, h, List.filterMap_append, List.filterMap_cons_some hc]
      rfl

/-- The text of a way from the root to a directory leads there. -/
theorem leadsTo_ofParts {ps : List (List Char)} (hslash : ∀ p ∈ ps, '/' ∉ p)
    (hnames : t.follow [] ps = .ok names) (hdir : t.DirAt names) :
    t.LeadsTo (Path.ofParts (some .root) ps) (ps.filterMap PathComponent.ofPiece) := by
  have htext : (Path.ofParts (some .root) ps).toList = '/' :: Path.unpieces ps := by
    unfold Path.ofParts
    rw [String.toList_ofList]
  have hplace : names = Path.place (ps.filterMap PathComponent.ofPiece) := eq_of_follow hnames
  have habs : Path.isAbsolute (Path.ofParts (some .root) ps) = true := by
    rw [Path.isAbsolute_iff, htext]
    rfl
  have hway : t.follow [] (Path.pieces (Path.unpieces ps)) = .ok names := by
    cases ps with
    | nil =>
        obtain ⟨-, rfl⟩ := follow_nil_iff.1 hnames
        exact follow_blank_iff.2 ⟨hdir, rfl⟩
    | cons p ps => rwa [Path.pieces_unpieces (List.cons_ne_nil _ _) hslash]
  refine ⟨habs, ?_, ?_, ?_⟩
  · rw [htext, Path.stepsOf_separator, Path.stepsOf_unpieces hslash]
  · rw [locate_eq habs, htext, ← hplace]
    exact hway
  · rwa [← hplace]

theorem parent?_eq_none {path : String} (h : Path.isAbsolute path = true)
    (hsteps : Path.stepsOf path.toList = []) : Path.parent? path = none := by
  obtain ⟨rest, -, hlead⟩ := Path.exists_of_isAbsolute h
  unfold Path.parent?
  rw [hlead]
  rw [← Path.filterMap_lead, hlead] at hsteps
  rcases trimEnd_cases (Path.pieces rest) with ⟨htrim, -⟩ | ⟨front, p, c, back, -, -, -, hall⟩
  · simp only [htrim]
  · rw [hall] at hsteps
    simp at hsteps

/-- **The path without its last step leads to a directory**, by the steps without the last one. -/
theorem exists_parent? {path : String} {steps : List PathComponent} {c : PathComponent}
    (h : Path.isAbsolute path = true) (hsteps : Path.stepsOf path.toList = steps ++ [c])
    (hnames : t.locate path = .ok names) :
    ∃ parent, Path.parent? path = some parent ∧ t.LeadsTo parent steps := by
  obtain ⟨rest, -, hlead⟩ := Path.exists_of_isAbsolute h
  have hslash : ∀ p ∈ Path.pieces rest, '/' ∉ p := fun p hp => Path.not_mem_of_mem_pieces hp
  rw [locate_eq h, hlead] at hnames
  rw [← Path.filterMap_lead, hlead] at hsteps
  rcases trimEnd_cases (Path.pieces rest) with ⟨-, hnil⟩ | ⟨front, p, c', back, hps, htrim, -, hall⟩
  · rw [hnil] at hsteps
    simp at hsteps
  · have hfront : front.filterMap PathComponent.ofPiece = steps := by
      rw [hall] at hsteps
      exact (List.append_inj' hsteps rfl).1
    obtain ⟨gap, hgap⟩ := Path.front_trimEnd front
    rw [hps, ← hgap, List.append_assoc, follow_append_iff] at hnames
    obtain ⟨mid, hmid, hway⟩ := hnames
    have hdir : t.DirAt mid := by
      obtain ⟨q, qs, hq⟩ := List.exists_cons_of_ne_nil
        (List.append_ne_nil_of_right_ne_nil gap (List.cons_ne_nil p back))
      rw [hq] at hway
      exact (follow_cons_iff.1 hway).1
    have hinner : ∀ q ∈ Path.trimEnd front, '/' ∉ q := by
      intro q hq
      refine hslash q ?_
      rw [hps]
      exact List.mem_append_left _ ((Path.front_trimEnd front).subset hq)
    refine ⟨Path.ofParts (some .root) (Path.trimEnd front), ?_, ?_⟩
    · unfold Path.parent?
      rw [hlead]
      simp only [htrim]
      split
      next hnil _ => simp at hnil
      next hnil _ => simp at hnil
      next => rw [List.dropLast_concat]
    · rw [← hfront, ← Path.filterMap_trimEnd front]
      exact leadsTo_ofParts hinner hmid hdir

theorem exists_last_name {path : String} (h : Path.isAbsolute path = true)
    (hnames : t.locate path = .ok names) (hfile : ¬t.DirAt names) :
    ∃ front name, Path.stepsOf path.toList = front ++ [.name name] ∧
      names = Path.place front ++ [name] := by
  have hplace := place_of_locate h hnames
  rcases List.eq_nil_or_concat' (Path.stepsOf path.toList) with hnil | ⟨front, c, hsteps⟩
  · rw [hnil] at hplace
    rw [hplace] at hfile
    exact absurd (dirAt_root h hnames) hfile
  · obtain ⟨parent, -, -, -, -, hdir⟩ := exists_parent? h hsteps hnames
    rw [hsteps, Path.place, List.foldl_append] at hplace
    -- The other steps lead to directories above this one.
    cases c with
    | root => exact absurd (hplace ▸ dirAt_root h hnames) hfile
    | here => exact absurd (hplace ▸ hdir) hfile
    | up => exact absurd (hplace ▸ hdir.of_prefix (List.dropLast_prefix _)) hfile
    | name n => exact ⟨front, n, hsteps, hplace⟩

end FileTree
end Interline
