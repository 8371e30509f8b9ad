import Mathlib
import Interline.Proofs.FileGroups

/-! # The paths of a walk

A walk puts the paths of files together from the root and the names of entries.  Where these are
names, each different from the others in its directory (`FileTree.WellNamed`), every path is below
the root, and no two of them are the same (`FileTree.walk_paths`).  So the relative paths by which
files are reported tell the files of an analysis apart (`Analyzer.nodup_relativePath`). -/

namespace Interline

/-- Whether a text stands for one step of a path, with itself as its name. -/
def PathComponent.IsName (name : String) : Prop :=
  '/' ∉ name.toList ∧ ofPiece name.toList = some (.name name)

namespace Path

theorem components_join_name {name : String} (h : PathComponent.IsName name) (path : String) :
    components (join path name) = components path ++ [.name name] := by
  obtain ⟨hslash, hpiece⟩ := h
  have hlead : (lead name.toList).1 = none := by
    have hhead : name.toList.head? ≠ some '/' := fun hhead =>
      hslash (List.mem_of_mem_head? hhead)
    have hdot : name.toList ≠ ['.'] := fun hdot => by
      rw [hdot] at hpiece
      cases hpiece
    rw [lead_fst_eq, pieces_of_not_mem hslash, if_neg hhead, List.head?_cons,
      if_neg fun h => hdot (Option.some.inj h)]
  have hname : components name = [.name name] := by
    rw [components_eq, hlead, stepsOf, pieces_of_not_mem hslash, List.filterMap_cons_some hpiece]
    rfl
  rw [components_join hlead, hname]

end Path

namespace FileTree

variable {respect : Bool}

mutual

/-- Whether all entries have names that are steps of a path, each its own in its directory. -/
def WellNamed : FileTree → Prop
  | .file _ => True
  | .dir entries => (entries.map Prod.fst).Nodup ∧ WellNamedAll entries

def WellNamedAll : List (String × FileTree) → Prop
  | [] => True
  | (name, t) :: rest => PathComponent.IsName name ∧ WellNamed t ∧ WellNamedAll rest

end

theorem WellNamedAll.of_mem {entries : List (String × FileTree)} (h : WellNamedAll entries)
    {name : String} {t : FileTree} (ht : (name, t) ∈ entries) : t.WellNamed := by
  induction entries with
  | nil => cases ht
  | cons e entries ih =>
      obtain ⟨-, hfirst, hrest⟩ := h
      rcases List.mem_cons.1 ht with rfl | ht
      · exact hfirst
      · exact ih hrest ht

theorem WellNamed.at? {t u : FileTree} (h : t.WellNamed) {names : List String}
    (hu : t.at? names = some u) : u.WellNamed := by
  induction names generalizing t with
  | nil =>
      cases hu
      exact h
  | cons name names ih =>
      obtain ⟨c, hc, hcu⟩ := Option.bind_eq_some_iff.1 hu
      cases t with
      | file content => cases hc
      | dir entries =>
          obtain ⟨front, back, hentries, -⟩ := List.lookup_eq_some_iff.1 hc
          have hmem : (name, c) ∈ entries := by
            rw [hentries]
            exact List.mem_append_right _ List.mem_cons_self
          exact ih (h.2.of_mem hmem) hcu

/-- Whether paths are below one path, and no two of them are the same. -/
def Apart (base : List PathComponent) (paths : List String) : Prop :=
  (∀ p ∈ paths, base <+: Path.components p) ∧
    paths.Pairwise fun p q => Path.components p ≠ Path.components q

mutual

theorem walk_paths : ∀ {t : FileTree} (levels : List IgnoreLevel) (names : List String)
    (path : String), t.WellNamed →
      Apart (Path.components path) (walk respect levels names path t)
  | .file _, _, _, path, _ => by
      simp [walk, Apart]
  | .dir entries, levels, names, path, h => by
      obtain ⟨hnodup, hnamed⟩ := h
      obtain ⟨hbelow, hapart⟩ := walkAll_paths (levelOf respect names (.dir entries) :: levels)
        names path hnodup hnamed
      refine ⟨fun p hp => ?_, hapart⟩
      obtain ⟨e, -, he⟩ := hbelow p hp
      exact (List.prefix_append _ _).trans he

theorem walkAll_paths : ∀ {entries : List (String × FileTree)} (levels : List IgnoreLevel)
    (names : List String) (path : String), (entries.map Prod.fst).Nodup → WellNamedAll entries →
      (∀ p ∈ walkAll respect levels names path entries, ∃ name ∈ entries.map Prod.fst,
        Path.components path ++ [.name name] <+: Path.components p) ∧
      (walkAll respect levels names path entries).Pairwise fun p q =>
        Path.components p ≠ Path.components q
  | [], _, _, _, _, _ => by
      simp [walkAll]
  | (name, t) :: entries, levels, names, path, hnodup, hnamed => by
      obtain ⟨hname, ht, hrest⟩ := hnamed
      obtain ⟨hfresh, hnodup⟩ := List.nodup_cons.1 hnodup
      obtain ⟨hbelow, hapart⟩ := walk_paths levels (names ++ [name])
        (Path.join path name) ht
      obtain ⟨hbelow', hapart'⟩ := walkAll_paths levels names path hnodup hrest
      rw [Path.components_join_name hname] at hbelow
      rw [walkAll]
      have hsub : (if IgnoreLevel.ignores levels (names ++ [name]) t.isDir then []
          else walk respect levels (names ++ [name]) (Path.join path name) t).Sublist
            (walk respect levels (names ++ [name]) (Path.join path name) t) := by
        split
        · exact List.nil_sublist _
        · exact List.Sublist.refl _
      refine ⟨fun p hp => ?_, List.pairwise_append.2 ⟨hapart.sublist hsub, hapart', ?_⟩⟩
      · rcases List.mem_append.1 hp with hp | hp
        · exact ⟨name, List.mem_cons_self, hbelow p (hsub.subset hp)⟩
        · obtain ⟨other, hother, hp⟩ := hbelow' p hp
          exact ⟨other, List.mem_cons_of_mem _ hother, hp⟩
      · -- The steps of two paths differ in the names of the entries that they lead through.
        intro p hp q hq heq
        obtain ⟨other, hother, hq⟩ := hbelow' q hq
        have hp := hbelow p (hsub.subset hp)
        rw [heq] at hp
        have hsame := (List.prefix_of_prefix_length_le hp hq (by simp)).eq_of_length (by simp)
        simp only [List.append_cancel_left_eq, List.cons.injEq, PathComponent.name.injEq,
          and_true] at hsame
        exact hfresh (hsame ▸ hother)

end

/-- What is found at or below a root: paths below it that tell their files apart, or the root itself
if it is a file. -/
theorem walkFrom?_paths {t : FileTree} (h : t.WellNamed) {root : String} {paths : List String}
    (hpaths : t.walkFrom? respect root = some paths) :
    t.isFile root = true ∧ paths = [root] ∨
      t.isFile root = false ∧ Apart (Path.components root) paths := by
  unfold walkFrom? at hpaths
  unfold isFile entry?
  cases hnames : t.locate root with
  | error e =>
      rw [hnames] at hpaths
      cases hpaths
  | ok names =>
      simp only [hnames] at hpaths ⊢
      cases hu : t.at? names with
      | none =>
          rw [hu] at hpaths
          cases hpaths
      | some u =>
          rw [hu] at hpaths
          cases u with
          | file content =>
              cases hpaths
              exact .inl ⟨rfl, rfl⟩
          | dir entries =>
              obtain ⟨-, hwalk⟩ := Option.ite_none_right_eq_some.1 hpaths
              cases hwalk
              exact .inr ⟨rfl, walk_paths _ _ _ (h.at? hu)⟩

end FileTree

namespace Analyzer

/-- The relative paths by which files are reported tell them apart. -/
theorem nodup_relativePath (a : Analyzer) {t : FileTree} (h : t.WellNamed) {paths : List String}
    (hpaths : a.files t = .ok paths) : (paths.map (relativePath (a.baseDir t))).Nodup := by
  unfold files at hpaths
  split at hpaths
  · cases hpaths
  next found hfound =>
    cases hpaths
    rw [(List.mergeSort_perm _ _).map _ |>.nodup_iff]
    refine List.Nodup.sublist (List.filter_sublist.map _) ?_
    rcases FileTree.walkFrom?_paths h hfound with ⟨-, rfl⟩ | ⟨hroot, hbelow, hapart⟩
    · exact List.nodup_singleton _
    · have hbase : a.baseDir t = a.root := by
        unfold baseDir
        rw [hroot]
        rfl
      rw [hbase]
      refine List.pairwise_map.2 (hapart.imp_of_mem fun hp hq hne heq => hne ?_)
      rw [← components_relativePath (hbelow _ hp), heq, components_relativePath (hbelow _ hq)]

end Analyzer

end Interline
