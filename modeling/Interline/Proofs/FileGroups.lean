import Mathlib
import Interline.Analyzer
import Interline.Proofs.PathSteps
import Interline.Proofs.Reports

/-! # Violations by file

The violations of a run lie in one list, and the file of each is told by its path relative to a
base.  Paths are ordered by their steps (`Path.compare_eq_iff`), so the files that can be fixed come
out in order and once each (`LintResult.fixableFiles_ascending`).  `LintResult.fixes_by_file` states
that the fixes found for such a file are those that it has been given, and that the file is found
again below the base. -/

namespace Interline

/-! ### The order of paths -/

namespace PathComponent

/-- The name of a step, if it has one. -/
def label : PathComponent → String
  | .name n => n
  | _ => ""

theorem compare_eq_lex :
    PathComponent.compare = compareLex (compareOn compare.rank) (compareOn label) := by
  funext a b
  cases a <;> cases b <;> rfl

instance : Std.TransCmp PathComponent.compare := by
  rw [compare_eq_lex]
  infer_instance

instance : Std.LawfulEqCmp PathComponent.compare where
  compare_self := Std.ReflCmp.compare_self
  eq_of_compare {a b} h := by
    rw [compare_eq_lex, compareLex_eq_eq] at h
    have hrank := Std.LawfulEqOrd.eq_of_compare h.1
    have hlabel := Std.LawfulEqOrd.eq_of_compare h.2
    cases a <;> cases b <;> simp_all [compare.rank, label]

end PathComponent

namespace Path

theorem compareSteps_eq : compareSteps = List.compareLex PathComponent.compare := by
  funext as bs
  induction as generalizing bs with
  | nil => cases bs <;> simp [compareSteps, List.compareLex_nil_nil, List.compareLex_nil_cons]
  | cons a as ih =>
      cases bs with
      | nil => simp [compareSteps, List.compareLex_cons_nil]
      | cons b bs => rw [compareSteps, ih, List.compareLex_cons_cons]

instance : Std.TransCmp Path.compare where
  eq_swap := by
    intro a b
    unfold compare
    rw [compareSteps_eq]
    exact Std.OrientedCmp.eq_swap
  isLE_trans := by
    intro a b c hab hbc
    unfold compare at hab hbc ⊢
    rw [compareSteps_eq] at hab hbc ⊢
    exact Std.TransCmp.isLE_trans hab hbc

theorem compare_eq_iff {a b : String} : compare a b = .eq ↔ components a = components b := by
  unfold compare
  rw [compareSteps_eq]
  exact Std.LawfulEqCmp.compare_eq_iff_eq

theorem same_iff {a b : String} : same a b = true ↔ components a = components b := beq_iff_eq

theorem compare_eq_of_same {a b : String} (h : same a b = true) (c : String) :
    compare a c = compare b c := by
  unfold compare
  rw [same_iff.1 h]

theorem lt_of_le_of_not_same {a b : String} (hle : le a b = true) (hne : ¬same a b = true) :
    compare a b = .lt := by
  rw [same_iff, ← compare_eq_iff] at hne
  unfold le at hle
  cases h : compare a b with
  | lt => rfl
  | eq => exact absurd h hne
  | gt =>
      rw [h] at hle
      cases hle

theorem pairwise_mergeSort_le (paths : List String) :
    (paths.mergeSort le).Pairwise fun a b => le a b = true := by
  refine List.pairwise_mergeSort (fun a b c => Std.TransCmp.isLE_trans) (fun a b => ?_) paths
  have hswap : compare b a = (compare a b).swap := Std.OrientedCmp.eq_swap
  unfold le
  rw [hswap]
  cases compare a b <;> rfl

end Path

/-- A path below a base has the steps of the base in front of those of its relative path. -/
theorem components_relativePath {base path : String}
    (h : Path.components base <+: Path.components path) :
    Path.components base ++ Path.components (relativePath base path) = Path.components path := by
  obtain ⟨rest, hrest, -, happend⟩ := Path.components_join_strip? h
  unfold relativePath
  rw [hrest]
  exact happend

/-! ### Files once each -/

namespace LintResult

theorem dropRepeats_cases (path : String) (rest : List String) :
    (dropRepeats rest = [] ∧ dropRepeats (path :: rest) = [path]) ∨
    (∃ next others, dropRepeats rest = next :: others ∧ Path.same path next = true ∧
      dropRepeats (path :: rest) = path :: others) ∨
    (∃ next others, dropRepeats rest = next :: others ∧ ¬Path.same path next = true ∧
      dropRepeats (path :: rest) = path :: next :: others) := by
  rw [dropRepeats]
  split
  next h => exact .inl ⟨h, rfl⟩
  next next others h =>
    split
    next hsame => exact .inr (.inl ⟨next, others, h, hsame, rfl⟩)
    next hother => exact .inr (.inr ⟨next, others, h, hother, rfl⟩)

theorem dropRepeats_sublist (paths : List String) : (dropRepeats paths).Sublist paths := by
  induction paths with
  | nil => exact List.Sublist.refl _
  | cons path rest ih =>
      rcases dropRepeats_cases path rest with ⟨-, e⟩ | ⟨next, others, h, -, e⟩ |
        ⟨next, others, h, -, e⟩ <;> rw [e]
      · exact (List.nil_sublist rest).cons_cons path
      · rw [h] at ih
        exact ((List.sublist_cons_self next others).trans ih).cons_cons path
      · rw [h] at ih
        exact ih.cons_cons path

/-- No path is lost, but for its spelling. -/
theorem exists_same_dropRepeats {paths : List String} {path : String} (h : path ∈ paths) :
    ∃ kept ∈ dropRepeats paths, Path.same path kept = true := by
  induction paths with
  | nil => cases h
  | cons first rest ih =>
      have hfirst : Path.same first first = true := Path.same_iff.2 rfl
      rcases dropRepeats_cases first rest with ⟨hrest, e⟩ | ⟨next, others, hrest, hsame, e⟩ |
        ⟨next, others, hrest, -, e⟩ <;> rw [e] <;> rw [hrest] at ih <;>
        rcases List.mem_cons.1 h with rfl | h
      · exact ⟨path, List.mem_cons_self, hfirst⟩
      · obtain ⟨kept, hkept, -⟩ := ih h
        cases hkept
      · exact ⟨path, List.mem_cons_self, hfirst⟩
      · obtain ⟨kept, hkept, hpath⟩ := ih h
        rcases List.mem_cons.1 hkept with rfl | hkept
        · rw [Path.same_iff] at hpath hsame
          exact ⟨first, List.mem_cons_self, Path.same_iff.2 (hpath.trans hsame.symm)⟩
        · exact ⟨kept, List.mem_cons_of_mem _ hkept, hpath⟩
      · exact ⟨path, List.mem_cons_self, hfirst⟩
      · obtain ⟨kept, hkept, hpath⟩ := ih h
        exact ⟨kept, List.mem_cons_of_mem _ hkept, hpath⟩

theorem pairwise_dropRepeats {paths : List String}
    (h : paths.Pairwise fun a b => Path.le a b = true) :
    (dropRepeats paths).Pairwise fun a b => Path.compare a b = .lt := by
  induction paths with
  | nil => exact .nil
  | cons path rest ih =>
      obtain ⟨hpath, hrest⟩ := List.pairwise_cons.1 h
      have hasc := ih hrest
      rcases dropRepeats_cases path rest with ⟨-, e⟩ | ⟨next, others, hnext, hsame, e⟩ |
        ⟨next, others, hnext, hother, e⟩ <;> rw [e]
      · exact List.pairwise_singleton _ _
      · rw [hnext, List.pairwise_cons] at hasc
        refine List.pairwise_cons.2 ⟨fun x hx => ?_, hasc.2⟩
        rw [Path.compare_eq_of_same hsame]
        exact hasc.1 x hx
      · rw [hnext] at hasc
        have hmem : next ∈ rest := (dropRepeats_sublist rest).subset (hnext ▸ List.mem_cons_self)
        have hlt := Path.lt_of_le_of_not_same (hpath next hmem) hother
        refine List.pairwise_cons.2 ⟨fun x hx => ?_, hasc⟩
        rcases List.mem_cons.1 hx with rfl | hx
        · exact hlt
        · exact Std.TransCmp.lt_trans hlt ((List.pairwise_cons.1 hasc).1 x hx)

variable (r : LintResult)

theorem fixableFiles_ascending : r.fixableFiles.Pairwise fun a b => Path.compare a b = .lt :=
  pairwise_dropRepeats (Path.pairwise_mergeSort_le _)

/-- If each path is spelled in one way, the files that can be fixed are those of the violations with
an edit. -/
theorem mem_fixableFiles_iff (hspelled : ∀ v ∈ r.violations, ∀ w ∈ r.violations,
      Path.same v.location.file w.location.file = true → v.location.file = w.location.file)
    {file : String} : file ∈ r.fixableFiles ↔
      ∃ v ∈ r.violations, v.replacement?.isSome = true ∧ v.location.file = file := by
  have hmem : ∀ {path : String}, path ∈
      ((r.violations.filter fun v => v.replacement?.isSome).map fun v => v.location.file).mergeSort
        Path.le ↔
      ∃ v ∈ r.violations, v.replacement?.isSome = true ∧ v.location.file = path := by
    intro path
    rw [List.mem_mergeSort, List.mem_map]
    simp only [List.mem_filter, and_assoc]
  constructor
  · intro h
    exact hmem.1 ((dropRepeats_sublist _).subset h)
  · intro h
    obtain ⟨kept, hkept, hsame⟩ := exists_same_dropRepeats (hmem.2 h)
    obtain ⟨v, hv, -, rfl⟩ := h
    obtain ⟨w, hw, -, rfl⟩ := hmem.1 ((dropRepeats_sublist _).subset hkept)
    rw [hspelled v hv w hw hsame]
    exact hkept

/-! ### Files below a base -/

/-- Of several lists put together those elements pass a test that are in the one list of which all
elements do. -/
theorem filter_flatten {α : Type} {front back : List (List α)} {own : List α} {test : α → Bool}
    (hown : ∀ x ∈ own, test x = true) (hfront : ∀ l ∈ front, ∀ x ∈ l, test x = false)
    (hback : ∀ l ∈ back, ∀ x ∈ l, test x = false) :
    (front ++ own :: back).flatten.filter test = own := by
  have hnone : ∀ {ls : List (List α)}, (∀ l ∈ ls, ∀ x ∈ l, test x = false) →
      ls.flatten.filter test = [] := by
    intro ls hls
    rw [List.filter_eq_nil_iff]
    intro x hx
    obtain ⟨l, hl, hxl⟩ := List.mem_flatten.1 hx
    rw [hls l hl x hxl]
    exact Bool.false_ne_true
  rw [List.flatten_append, List.flatten_cons, List.filter_append, List.filter_append,
    hnone hfront, hnone hback, List.filter_eq_self.2 hown, List.nil_append, List.append_nil]

/-- Files below a base, no two of them one path, with the violations that have been found in each
and are placed in it. -/
structure FilesBelow (base : String) (files : List (String × List Violation)) : Prop where
  below : ∀ file ∈ files, Path.components base <+: Path.components file.1
  distinct : files.Pairwise fun a b => Path.same a.1 b.1 = false
  placed : ∀ file ∈ files, ∀ v ∈ file.2, v.location.file = relativePath base file.1

namespace FilesBelow

variable {base : String} {files : List (String × List Violation)} (h : FilesBelow base files)
include h

theorem components_append {file : String × List Violation} (hfile : file ∈ files) :
    Path.components base ++ Path.components (relativePath base file.1) =
      Path.components file.1 :=
  components_relativePath (h.below file hfile)

theorem same_join {file : String × List Violation} (hfile : file ∈ files) :
    Path.same (Path.join base (relativePath base file.1)) file.1 = true := by
  obtain ⟨rest, hrest, hjoin, -⟩ := Path.components_join_strip? (h.below file hfile)
  unfold relativePath
  rw [hrest]
  exact Path.same_iff.2 hjoin

theorem same_relativePath {a b : String × List Violation} (ha : a ∈ files) (hb : b ∈ files) :
    Path.same (relativePath base a.1) (relativePath base b.1) = Path.same a.1 b.1 := by
  rw [Bool.eq_iff_iff, Path.same_iff, Path.same_iff, ← h.components_append ha,
    ← h.components_append hb, List.append_cancel_left_eq]

theorem eq_of_same {a b : String × List Violation} (ha : a ∈ files) (hb : b ∈ files)
    (hsame : Path.same a.1 b.1 = true) : a = b := by
  have : Std.Symm fun a b : String × List Violation => Path.same a.1 b.1 = false :=
    ⟨fun a b hab => (Bool.beq_comm : Path.same b.1 a.1 = Path.same a.1 b.1).trans hab⟩
  by_contra hne
  rw [h.distinct.forall ha hb hne] at hsame
  cases hsame

omit h in
theorem mem_violations {v : Violation} :
    v ∈ (collect (files.map Prod.snd)).violations ↔ ∃ file ∈ files, v ∈ file.2 := by
  unfold collect
  rw [List.mem_mergeSort, List.mem_flatten]
  simp only [List.mem_map, exists_exists_and_eq_and]

theorem same_placed {a file : String × List Violation} (ha : a ∈ files) (hfile : file ∈ files)
    {v : Violation} (hv : v ∈ a.2) :
    Path.same v.location.file (relativePath base file.1) = Path.same a.1 file.1 := by
  rw [h.placed a ha v hv, h.same_relativePath ha hfile]

theorem filter_own {file : String × List Violation} (hfile : file ∈ files) :
    ((files.map Prod.snd).flatten.filter fun v =>
      Path.same v.location.file (relativePath base file.1)) = file.2 := by
  obtain ⟨earlier, later, hfiles⟩ := List.append_of_mem hfile
  have hdistinct := h.distinct
  rw [hfiles, List.pairwise_append, List.pairwise_cons] at hdistinct
  obtain ⟨-, ⟨hlater, -⟩, hearlier⟩ := hdistinct
  have hother : ∀ a ∈ files, Path.same a.1 file.1 = false → ∀ v ∈ a.2,
      Path.same v.location.file (relativePath base file.1) = false :=
    fun a ha hne v hv => (h.same_placed ha hfile hv).trans hne
  have hmem : ∀ a, a ∈ earlier ∨ a ∈ file :: later → a ∈ files := fun a ha => by
    rw [hfiles]
    exact List.mem_append.2 ha
  rw [hfiles, List.map_append, List.map_cons]
  refine filter_flatten (fun v hv => ?_) (List.forall_mem_map.2 fun a ha => ?_)
    (List.forall_mem_map.2 fun a ha => ?_)
  · rw [h.same_placed hfile hfile hv, Path.same_iff]
  · exact hother a (hmem a (.inl ha)) (hearlier a ha file List.mem_cons_self)
  · exact hother a (hmem a (.inr (List.mem_cons_of_mem _ ha)))
      ((Bool.beq_comm : Path.same a.1 file.1 = Path.same file.1 a.1).trans (hlater a ha))

theorem replacementsFor_perm {file : String × List Violation} (hfile : file ∈ files) :
    ((collect (files.map Prod.snd)).replacementsFor (relativePath base file.1)).Perm
      (file.2.filterMap Violation.replacement?) := by
  unfold replacementsFor
  refine List.Perm.filterMap _ ?_
  rw [← h.filter_own hfile]
  exact (List.mergeSort_perm _ _).filter _

end FilesBelow

/-- **Each file gets its own fixes.**  Collect the violations of files below a base.  The files that
can be fixed come in strict order; they are the relative paths of those that have got an edit.  A
relative path leads back to its file below the base, and the edits listed for it are those of the
file, each once. -/
theorem fixes_by_file {base : String} {files : List (String × List Violation)}
    (h : FilesBelow base files) :
    ((collect (files.map Prod.snd)).fixableFiles.Pairwise fun a b => Path.compare a b = .lt) ∧
    (∀ path, path ∈ (collect (files.map Prod.snd)).fixableFiles ↔
      ∃ file ∈ files, (∃ v ∈ file.2, v.replacement?.isSome = true) ∧
        relativePath base file.1 = path) ∧
    ∀ file ∈ files, Path.same (Path.join base (relativePath base file.1)) file.1 = true ∧
      ((collect (files.map Prod.snd)).replacementsFor (relativePath base file.1)).Perm
        (file.2.filterMap Violation.replacement?) := by
  refine ⟨fixableFiles_ascending _, fun path => ?_, fun file hfile =>
    ⟨h.same_join hfile, h.replacementsFor_perm hfile⟩⟩
  rw [mem_fixableFiles_iff]
  · constructor
    · rintro ⟨v, hv, hedit, hpath⟩
      obtain ⟨file, hfile, hmem⟩ := FilesBelow.mem_violations.1 hv
      exact ⟨file, hfile, ⟨v, hmem, hedit⟩, (h.placed file hfile v hmem).symm.trans hpath⟩
    · rintro ⟨file, hfile, ⟨v, hmem, hedit⟩, hpath⟩
      exact ⟨v, FilesBelow.mem_violations.2 ⟨file, hfile, hmem⟩, hedit,
        (h.placed file hfile v hmem).trans hpath⟩
  · intro v hv w hw hsame
    obtain ⟨a, ha, hva⟩ := FilesBelow.mem_violations.1 hv
    obtain ⟨b, hb, hwb⟩ := FilesBelow.mem_violations.1 hw
    rw [h.placed a ha v hva, h.placed b hb w hwb] at hsame ⊢
    rw [h.same_relativePath ha hb] at hsame
    rw [h.eq_of_same ha hb hsame]

/-- A violation on the first line of a file, with or without an edit. -/
def onFirstLine (file : String) (edit : Option Replacement) : Violation where
  code := LinebreakRule.code
  rule := LinebreakRule.name
  severity := .error
  location := .ofLineColumn file 1 2
  message := Requirement.always.message
  suggestion := some ⟨Requirement.always.help, edit⟩

/-- Three files below one directory, which each of them spells in its own way. -/
def threeFiles : List (String × List Violation) :=
  [("r/x/a-b", [onFirstLine "a-b" none, onFirstLine "a-b" (some (.insertion 4 "\n"))]),
    ("r/x//a/./b", [onFirstLine "a/./b" (some (.removal 2 3))]),
    ("r//x/c/", [onFirstLine "c" none])]

theorem filesBelow_threeFiles : FilesBelow "r/./x//" threeFiles where
  below := by decide +kernel
  distinct := by decide +kernel
  placed := by decide +kernel

theorem fixes_by_file_threeFiles :
    FilesBelow "r/./x//" threeFiles ∧
    ((collect (threeFiles.map Prod.snd)).fixableFiles.Pairwise fun a b =>
      Path.compare a b = .lt) ∧
    "a/./b" ∈ (collect (threeFiles.map Prod.snd)).fixableFiles ∧
    "a-b" ∈ (collect (threeFiles.map Prod.snd)).fixableFiles ∧
    "c" ∉ (collect (threeFiles.map Prod.snd)).fixableFiles ∧
    Path.same (Path.join "r/./x//" "a/./b") "r/x//a/./b" = true ∧
    ((collect (threeFiles.map Prod.snd)).replacementsFor "a/./b").Perm [.removal 2 3] ∧
    ((collect (threeFiles.map Prod.snd)).replacementsFor "a-b").Perm [.insertion 4 "\n"] := by
  obtain ⟨hascending, hmem, hfile⟩ := fixes_by_file filesBelow_threeFiles
  have hdashed := hfile _ List.mem_cons_self
  have hnested := hfile _ (List.mem_cons_of_mem _ List.mem_cons_self)
  have hpaths : relativePath "r/./x//" "r/x/a-b" = "a-b" ∧
      relativePath "r/./x//" "r/x//a/./b" = "a/./b" := by decide +kernel
  rw [hpaths.1] at hdashed
  rw [hpaths.2] at hnested
  refine ⟨filesBelow_threeFiles, hascending, (hmem _).2 ?_, (hmem _).2 ?_, fun hplain => ?_,
    hnested.1, hnested.2, hdashed.2⟩
  · exact ⟨_, List.mem_cons_of_mem _ List.mem_cons_self, ⟨_, List.mem_cons_self, rfl⟩, hpaths.2⟩
  · exact ⟨_, List.mem_cons_self, ⟨_, List.mem_cons_of_mem _ List.mem_cons_self, rfl⟩, hpaths.1⟩
  · revert hplain
    rw [hmem]
    decide +kernel

end LintResult

end Interline
