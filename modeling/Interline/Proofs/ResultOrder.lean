import Mathlib
import Interline.Proofs.SourceOrder
import Interline.Proofs.WalkedPaths

/-! # The order of a result

A run puts the violations of all files together and sorts them by file, line and column.  The sort
is stable, so it leaves in their order what is in order already (`List.sublist_mergeSort`), and the
violations of one file are, by `LinebreakRule.pairwise_check`.  Files are told apart by their
relative paths (`Analyzer.nodup_relativePath`), and places in one file by their offsets; so no two
violations of a run by one rule are at one place (`LintResult.InOrder.nodup_locations`). -/

namespace Interline

namespace LintResult

/-! ### The sort -/

instance : Std.TransCmp fun v w : Violation => Path.compare v.location.file w.location.file where
  eq_swap := Std.OrientedCmp.eq_swap
  isLE_trans := Std.TransCmp.isLE_trans

/-- The comparison that violations are sorted by. -/
def violationCompare : Violation → Violation → Ordering :=
  compareLex (compareLex (fun v w => Path.compare v.location.file w.location.file)
    (compareOn fun v => v.location.line)) (compareOn fun v => v.location.column)

instance : Std.TransCmp violationCompare := by
  unfold violationCompare
  infer_instance

theorem violationLe_eq (v w : Violation) : violationLe v w = (violationCompare v w).isLE := rfl

theorem violationLe_total (v w : Violation) : (violationLe v w || violationLe w v) = true := by
  have hswap : violationCompare w v = (violationCompare v w).swap := Std.OrientedCmp.eq_swap
  rw [violationLe_eq, violationLe_eq, hswap]
  cases violationCompare v w <;> rfl

theorem violationLe_trans (u v w : Violation) (huv : violationLe u v = true)
    (hvw : violationLe v w = true) : violationLe u w = true := by
  rw [violationLe_eq] at *
  exact Std.TransCmp.isLE_trans huv hvw

theorem violationLe_of_before {v w : Violation} (hfile : v.location.file = w.location.file)
    (h : v.location.Before w.location) : violationLe v w = true := by
  have hself : Path.compare w.location.file w.location.file = .eq := Std.ReflCmp.compare_self
  unfold violationLe
  rw [hfile, hself, Ordering.eq_then]
  rcases h with hline | ⟨hline, hcolumn⟩
  · rw [Nat.compare_eq_lt.2 hline]
    rfl
  · rw [hline, Nat.compare_eq_eq.2 rfl, Nat.compare_eq_lt.2 hcolumn]
    rfl

/-! ### Files with different names -/

/-- Files with different names, with the violations that have been found in each, which are placed
in it and are in the order of its text. -/
structure InOrder (files : List (String × List Violation)) : Prop where
  distinct : (files.map Prod.fst).Nodup
  placed : ∀ file ∈ files, ∀ v ∈ file.2, v.location.file = file.1
  ascending : ∀ file ∈ files, file.2.Pairwise fun v w =>
    v.location.offset < w.location.offset ∧ v.location.Before w.location

namespace InOrder

variable {files : List (String × List Violation)} (h : InOrder files)
include h

theorem nodup_locations :
    ((collect (files.map Prod.snd)).violations.map Violation.location).Nodup := by
  unfold collect
  rw [((List.mergeSort_perm _ _).map _).nodup_iff, List.Nodup, List.pairwise_map,
    List.pairwise_flatten, List.forall_mem_map, List.pairwise_map]
  refine ⟨fun file hfile => (h.ascending file hfile).imp fun hvw heq => ?_,
    (List.pairwise_map.1 h.distinct).imp_of_mem fun {a b} ha hb hne v hv w hw heq => hne ?_⟩
  · rw [heq] at hvw
    exact Nat.lt_irrefl _ hvw.1
  · rw [← h.placed a ha v hv, ← h.placed b hb w hw, heq]

theorem filter_own {file : String × List Violation} (hfile : file ∈ files) :
    ((files.map Prod.snd).flatten.filter fun v => v.location.file == file.1) = file.2 := by
  obtain ⟨earlier, later, hfiles⟩ := List.append_of_mem hfile
  have hdistinct := h.distinct
  rw [hfiles, List.map_append, List.map_cons, List.nodup_append, List.nodup_cons] at hdistinct
  obtain ⟨-, ⟨hlater, -⟩, hearlier⟩ := hdistinct
  have hother : ∀ a ∈ files, a.1 ≠ file.1 → ∀ v ∈ a.2, (v.location.file == file.1) = false := by
    intro a ha hne v hv
    rw [h.placed a ha v hv]
    exact beq_eq_false_iff_ne.2 hne
  have hmem : ∀ a, a ∈ earlier ∨ a ∈ file :: later → a ∈ files := fun a ha => by
    rw [hfiles]
    exact List.mem_append.2 ha
  rw [hfiles, List.map_append, List.map_cons]
  refine filter_flatten (fun v hv => ?_) (List.forall_mem_map.2 fun a ha => ?_)
    (List.forall_mem_map.2 fun a ha => ?_)
  · exact beq_iff_eq.2 (h.placed file hfile v hv)
  · exact hother a (hmem a (.inl ha)) (hearlier a.1 (List.mem_map_of_mem ha) _ List.mem_cons_self)
  · exact hother a (hmem a (.inr (List.mem_cons_of_mem _ ha))) fun heq =>
      hlater (heq ▸ List.mem_map_of_mem ha)

/-- The sort leaves the violations of each file as they are. -/
theorem filter_collect {file : String × List Violation} (hfile : file ∈ files) :
    ((collect (files.map Prod.snd)).violations.filter fun v => v.location.file == file.1) =
      file.2 := by
  have hsorted : file.2.Pairwise fun v w => violationLe v w = true :=
    (h.ascending file hfile).imp_of_mem fun hv hw hvw =>
      violationLe_of_before ((h.placed file hfile _ hv).trans (h.placed file hfile _ hw).symm) hvw.2
  have hown := h.filter_own hfile
  have hsub : file.2.Sublist (files.map Prod.snd).flatten :=
    List.sublist_flatten_of_mem (List.mem_map_of_mem hfile)
  have hkept := (List.sublist_mergeSort violationLe_trans violationLe_total hsorted hsub).filter
    fun v => v.location.file == file.1
  have hall : (file.2.filter fun v => v.location.file == file.1) = file.2 :=
    List.filter_eq_self.2 fun v hv => beq_iff_eq.2 (h.placed file hfile v hv)
  rw [hall] at hkept
  refine (hkept.eq_of_length ?_).symm
  rw [((List.mergeSort_perm _ _).filter _).length_eq, hown]

end InOrder

end LintResult

/-! ### Runs -/

theorem LinebreakRule.file_of_check {r : LinebreakRule} {file : String} {m : SourceModel}
    {vs : List Violation} (h : r.check file m = .ok vs) {v : Violation} (hv : v ∈ vs) :
    v.location.file = file := by
  obtain ⟨reports, -, h⟩ := exists_of_bind_eq_ok h
  obtain ⟨report, -, hreport⟩ := exists_left_of_forall₂ (forall₂_of_mapM_eq_ok h) hv
  unfold violation at hreport
  obtain ⟨first, -, hreport⟩ := exists_of_bind_eq_ok hreport
  split at hreport <;> cases hreport
  rfl

namespace Analyzer

variable {a : Analyzer} {t : FileTree} {r : LinebreakRule}

/-- Paths that a walk finds in order stay in order, less those that are left out. -/
theorem files_of_walk {paths kept : List String}
    (hwalk : t.walkFrom? a.config.analyzer.respectGitignore a.root = some paths)
    (hkept : (paths.filter fun p => a.handles p && !a.excludes (a.baseDir t) p) = kept)
    (hsorted : kept.Pairwise fun p q => Path.le p q = true) : a.files t = .ok kept := by
  unfold files
  simp only [hwalk, hkept, List.mergeSort_of_pairwise hsorted]
  rfl

theorem checkText_eq (hrules : a.rules = [r]) {text : String} {m : SourceModel}
    (hm : a.adapter.model? text = some m) (hon : a.config.isRuleEnabled LinebreakRule.name = true)
    (base path : String) : a.checkText base path text =
      match r.check (relativePath base path) m with
      | .ok vs => .ok (vs.map a.withSeverity)
      | .error e => .error (.rule path e) := by
  unfold checkText
  simp only [hm, hon, hrules, List.mapM_cons, List.mapM_nil]
  cases r.check (relativePath base path) m with
  | error e => rfl
  | ok vs => simp [bind, Except.bind, pure, Except.pure]

theorem checkFile_eq (hrules : a.rules = [r]) {path text : String} {m : SourceModel}
    (hread : t.read path = .ok text) (hm : a.adapter.model? text = some m)
    (hon : a.config.isRuleEnabled LinebreakRule.name = true) : a.checkFile t path =
      match r.check (relativePath (a.baseDir t) path) m with
      | .ok vs => .ok (some (vs.map a.withSeverity))
      | .error e => .error (.rule path e) := by
  unfold checkFile
  simp only [hread, checkText_eq hrules hm hon]
  cases r.check (relativePath (a.baseDir t) path) m <;> rfl

theorem exists_check_of_checkText (hrules : a.rules = [r]) {base path text : String}
    {vs : List Violation} (h : a.checkText base path text = .ok vs) :
    ∃ m, a.adapter.model? text = some m ∧
      (vs = [] ∨ ∃ found, r.check (relativePath base path) m = .ok found ∧
        vs = found.map a.withSeverity) := by
  cases hm : a.adapter.model? text with
  | none =>
      unfold checkText at h
      rw [hm] at h
      cases h
  | some m =>
      refine ⟨m, rfl, ?_⟩
      cases hon : a.config.isRuleEnabled LinebreakRule.name with
      | false =>
          unfold checkText at h
          simp only [hm, hon] at h
          cases h
          exact .inl rfl
      | true =>
          rw [checkText_eq hrules hm hon] at h
          split at h <;> cases h
          next found hfound => exact .inr ⟨found, hfound, rfl⟩

theorem location_withSeverity (v : Violation) : (a.withSeverity v).location = v.location := by
  unfold withSeverity
  split <;> rfl

theorem file_of_checkText {base path text : String} {vs : List Violation}
    (h : a.checkText base path text = .ok vs) {v : Violation} (hv : v ∈ vs) :
    v.location.file = relativePath base path := by
  unfold checkText at h
  split at h
  · cases h
  split at h
  · cases h
    cases hv
  obtain ⟨found, hfound, h⟩ := exists_of_bind_eq_ok h
  cases h
  obtain ⟨vs, hvs, hv⟩ := List.mem_flatten.1 hv
  obtain ⟨r, -, hr⟩ := exists_left_of_forall₂ (forall₂_of_mapM_eq_ok hfound) hvs
  split at hr <;> cases hr
  next hcheck =>
    obtain ⟨w, hw, rfl⟩ := List.mem_map.1 hv
    rw [← LinebreakRule.file_of_check hcheck hw]
    unfold withSeverity
    split <;> rfl

theorem exists_text_of_checkFile {path : String} {vs : List Violation}
    (h : a.checkFile t path = .ok (some vs)) :
    ∃ text, t.read path = .ok text ∧ a.checkText (a.baseDir t) path text = .ok vs := by
  unfold checkFile at h
  split at h
  · cases h
  next text hread =>
    split at h
    next hcheck =>
      cases h
      exact ⟨text, hread, hcheck⟩
    · split at h <;> cases h
    · cases h

theorem file_of_checkFile {path : String} {vs : List Violation}
    (h : a.checkFile t path = .ok (some vs)) {v : Violation} (hv : v ∈ vs) :
    v.location.file = relativePath (a.baseDir t) path := by
  obtain ⟨text, -, hcheck⟩ := exists_text_of_checkFile h
  exact file_of_checkText hcheck hv

/-- The files that are checked, with what has been found in each. -/
theorem exists_checked {paths : List String} {results : List (Option (List Violation))}
    (h : List.Forall₂ (fun path result => a.checkFile t path = .ok result) paths results) :
    ∃ files : List (String × List Violation), results.filterMap id = files.map Prod.snd ∧
      (files.map Prod.fst).Sublist paths ∧
      ∀ path vs, (path, vs) ∈ files ↔ path ∈ paths ∧ a.checkFile t path = .ok (some vs) := by
  induction h with
  | nil => exact ⟨[], rfl, List.Sublist.refl _, by simp⟩
  | @cons path result paths results hcheck _ ih =>
      obtain ⟨files, hresults, hpaths, hall⟩ := ih
      cases result with
      | none =>
          refine ⟨files, hresults, hpaths.cons path, fun other vs => ?_⟩
          rw [hall, List.mem_cons]
          refine ⟨fun h => ⟨.inr h.1, h.2⟩, fun h => ⟨h.1.resolve_left ?_, h.2⟩⟩
          rintro rfl
          cases hcheck.symm.trans h.2
      | some found =>
          refine ⟨(path, found) :: files, ?_, hpaths.cons_cons path, fun other vs => ?_⟩
          · rw [List.map_cons, ← hresults]
            rfl
          · rw [List.mem_cons, hall, List.mem_cons, Prod.mk.injEq]
            constructor
            · rintro (⟨rfl, rfl⟩ | ⟨hother, hvs⟩)
              · exact ⟨.inl rfl, hcheck⟩
              · exact ⟨.inr hother, hvs⟩
            · rintro ⟨rfl | hother, hvs⟩
              · cases hcheck.symm.trans hvs
                exact .inl ⟨rfl, rfl⟩
              · exact .inr ⟨hother, hvs⟩

theorem exists_files {paths : List String} {result : LintResult} (hpaths : a.files t = .ok paths)
    (h : a.run t = .ok result) : ∃ files : List (String × List Violation),
      result = .collect (files.map Prod.snd) ∧ (files.map Prod.fst).Sublist paths ∧
      (∀ path vs, (path, vs) ∈ files ↔ path ∈ paths ∧ a.checkFile t path = .ok (some vs)) ∧
      ∀ path ∈ paths, ∃ found, a.checkFile t path = .ok found := by
  obtain ⟨paths', hpaths', h⟩ := exists_of_bind_eq_ok h
  cases hpaths.symm.trans hpaths'
  obtain ⟨results, hresults, h⟩ := exists_of_bind_eq_ok h
  cases h
  have hchecked := forall₂_of_mapM_eq_ok hresults
  obtain ⟨files, hfound, hsub, hall⟩ := exists_checked hchecked
  refine ⟨files, congrArg _ hfound, hsub, hall, fun path hpath => ?_⟩
  obtain ⟨found, -, hcheck⟩ := exists_right_of_forall₂ hchecked hpath
  exact ⟨found, hcheck⟩

theorem exists_run {paths : List String} (hpaths : a.files t = .ok paths)
    (hchecked : ∀ path ∈ paths, ∃ found, a.checkFile t path = .ok found) :
    ∃ result, a.run t = .ok result := by
  obtain ⟨results, hresults⟩ := exists_mapM_eq_ok hchecked
  unfold run
  simp only [hpaths, hresults, bind, Except.bind]
  exact ⟨_, rfl⟩

theorem inOrder_of_checked (hrules : a.rules = [r]) (ht : t.WellNamed) {paths : List String}
    (hpaths : a.files t = .ok paths)
    (hmodels : ∀ path ∈ paths, ∀ text m, t.read path = .ok text →
      a.adapter.model? text = some m → m.tree.Grown ∧ m.Placed ∧ m.tree.Nested)
    {files : List (String × List Violation)} (hsub : (files.map Prod.fst).Sublist paths)
    (hfiles : ∀ file ∈ files, a.checkFile t file.1 = .ok (some file.2)) :
    LintResult.InOrder
      (files.map fun file => (relativePath (a.baseDir t) file.1, file.2)) where
  distinct := by
    have hnames := (nodup_relativePath a ht hpaths).sublist (hsub.map _)
    rwa [List.map_map] at hnames ⊢
  placed := List.forall_mem_map.2 fun file hfile v hv => file_of_checkFile (hfiles file hfile) hv
  ascending := by
    refine List.forall_mem_map.2 fun file hfile => ?_
    have hpath := hsub.subset (List.mem_map_of_mem hfile)
    obtain ⟨text, hread, hcheck⟩ := exists_text_of_checkFile (hfiles file hfile)
    obtain ⟨m, hm, hnone | ⟨found, hfound, hsome⟩⟩ := exists_check_of_checkText hrules hcheck
    · rw [hnone]
      exact .nil
    · obtain ⟨hg, hp, hn⟩ := hmodels _ hpath text m hread hm
      rw [hsome, List.pairwise_map]
      simpa only [location_withSeverity] using LinebreakRule.pairwise_check hg hp hn hfound

end Analyzer

/-- **Violations come in the order of the text.**  A check by a rule fails exactly where the check
by its policy does, with the same error, and else tells each report by one violation.  In the model
of a text the offsets of the violations go up, and so do their lines and columns.  So in a run by one
rule over such models the violations in each file stay in the order in which they are found, and no
two violations are at one place. -/
theorem LinebreakRule.violations_in_order (r : LinebreakRule) :
    (∀ file m, (∀ e, r.check file m = .error e ↔ r.policy.check m = .error e) ∧
      ∀ reports, r.policy.check m = .ok reports → ∃ vs, r.check file m = .ok vs ∧
        List.Forall₂ (fun report v => r.violation file m report = .ok v) reports vs) ∧
    (∀ file m vs, m.tree.Grown → m.Placed → m.tree.Nested → r.check file m = .ok vs →
      vs.Pairwise fun v w =>
        v.location.offset < w.location.offset ∧ v.location.Before w.location) ∧
    ∀ (a : Analyzer) (t : FileTree) paths result, a.rules = [r] → t.WellNamed →
      a.files t = .ok paths → a.run t = .ok result →
      (∀ path ∈ paths, ∀ text m, t.read path = .ok text → a.adapter.model? text = some m →
        m.tree.Grown ∧ m.Placed ∧ m.tree.Nested) →
      (result.violations.map Violation.location).Nodup ∧
      ∀ path ∈ paths, ∀ text m, t.read path = .ok text → a.adapter.model? text = some m →
        a.config.isRuleEnabled LinebreakRule.name = true →
        ∃ vs, r.check (relativePath (a.baseDir t) path) m = .ok vs ∧
          (result.violations.filter fun v =>
            v.location.file == relativePath (a.baseDir t) path) = vs.map a.withSeverity := by
  refine ⟨fun file m => r.check_eq file m,
    fun file m vs hg hp hn h => LinebreakRule.pairwise_check hg hp hn h, ?_⟩
  intro a t paths result hrules ht hpaths hrun hmodels
  obtain ⟨files, rfl, hsub, hfiles, hchecked⟩ := Analyzer.exists_files hpaths hrun
  have horder := Analyzer.inOrder_of_checked hrules ht hpaths hmodels hsub
    fun file hfile => ((hfiles file.1 file.2).1 hfile).2
  have hlists : files.map Prod.snd =
      (files.map fun file => (relativePath (a.baseDir t) file.1, file.2)).map Prod.snd := by
    rw [List.map_map]
    rfl
  rw [hlists]
  refine ⟨horder.nodup_locations, fun path hpath text m hread hm hon => ?_⟩
  obtain ⟨checked, hchecked⟩ := hchecked path hpath
  have hcheck := Analyzer.checkFile_eq hrules hread hm hon
  cases hfound : r.check (relativePath (a.baseDir t) path) m with
  | error e =>
      rw [hfound] at hcheck
      cases hcheck.symm.trans hchecked
  | ok vs =>
      rw [hfound] at hcheck
      exact ⟨vs, rfl, horder.filter_collect (List.mem_map_of_mem ((hfiles _ _).2 ⟨hpath, hcheck⟩))⟩

/-- A block with two statements, and one behind it. -/
def bracedPairThenCall : SourceModel :=
  .ofOffsets "\x7bd;e\x7d f"
    [⟨.punctuator, 0, 1, none⟩, ⟨.identifier, 1, 2, none⟩, ⟨.punctuator, 2, 3, none⟩,
      ⟨.identifier, 3, 4, none⟩, ⟨.punctuator, 4, 5, some .block⟩, ⟨.identifier, 6, 7, none⟩]
    [⟨0, .statement .block, 0, 5⟩, ⟨1, .statement (.expression false), 1, 3⟩,
      ⟨1, .statement (.expression false), 3, 4⟩, ⟨0, .statement (.expression false), 6, 7⟩]
    (by decide)

/-- A directory with two files of this text. -/
def twoFiles : FileTree :=
  .dir [("p", .dir [("a.js", .file "\x7bd;e\x7d f".toUTF8),
    ("b.js", .file "\x7bd;e\x7d f".toUTF8)])]

/-- Statements stand on lines of their own. -/
def LinebreakRule.breakAlways : LinebreakRule := ⟨⟨[⟨.always, .single .any, .single .any⟩]⟩, none⟩

/-- Looks at the files of the directory, and finds warnings. -/
def Analyzer.ofBreakAlways : Analyzer where
  root := "/p"
  adapter := ⟨["js"], fun text => if text = "\x7bd;e\x7d f" then some bracedPairThenCall else none⟩
  rules := [.breakAlways]
  exclude := []
  config := ⟨⟨"/p", [], false⟩, [(LinebreakRule.name, ⟨none, some .warning, []⟩)]⟩
  failOnError := true

theorem LinebreakRule.violations_in_order_twoFiles :
    bracedPairThenCall.tree.Grown ∧ bracedPairThenCall.Placed ∧ bracedPairThenCall.tree.Nested ∧
    twoFiles.WellNamed ∧ Analyzer.ofBreakAlways.files twoFiles = .ok ["/p/a.js", "/p/b.js"] ∧
    ∃ vs result, LinebreakRule.breakAlways.check "b.js" bracedPairThenCall = .ok vs ∧
      vs.length = 2 ∧
      (vs.Pairwise fun v w =>
        v.location.offset < w.location.offset ∧ v.location.Before w.location) ∧
      Analyzer.ofBreakAlways.run twoFiles = .ok result ∧
      (result.violations.map Violation.location).Nodup ∧
      (result.violations.filter fun v => v.location.file == "b.js") =
        vs.map Analyzer.ofBreakAlways.withSeverity := by
  obtain ⟨htells, hascends, hruns⟩ := violations_in_order breakAlways
  have hg : bracedPairThenCall.tree.Grown := SourceModel.grown_ofOffsets _
  have hp : bracedPairThenCall.Placed := by decide +kernel
  have hn : bracedPairThenCall.tree.Nested := by decide +kernel
  have hpairs : bracedPairThenCall.tree.pairs = [(2, 3), (1, 4)] := by decide +kernel
  have hpolicy : breakAlways.policy.check bracedPairThenCall = .ok
      [⟨2, 3, .always, some (.insertion 3 "\n")⟩, ⟨1, 4, .always, some (.insertion 5 "\n")⟩] := by
    rw [Policy.check_eq hg.linked rfl, hpairs]
    cbv
  have hnamed : twoFiles.WellNamed := by
    simp only [twoFiles, FileTree.WellNamed, FileTree.WellNamedAll, PathComponent.IsName]
    decide +kernel
  have hwalk : twoFiles.walkFrom? false "/p" = some ["/p/a.js", "/p/b.js"] := by decide +kernel
  have hfiles : Analyzer.ofBreakAlways.files twoFiles = .ok ["/p/a.js", "/p/b.js"] :=
    Analyzer.files_of_walk hwalk (by decide +kernel) (by decide +kernel)
  have hread : ∀ path ∈ ["/p/a.js", "/p/b.js"], twoFiles.read path = .ok "\x7bd;e\x7d f" := by
    decide +kernel
  have hmodels : ∀ text m, Analyzer.ofBreakAlways.adapter.model? text = some m →
      m = bracedPairThenCall := by
    intro text m hm
    exact (Option.some.inj (Option.ite_none_right_eq_some.1 hm).2).symm
  obtain ⟨-, htold⟩ := htells "b.js" bracedPairThenCall
  obtain ⟨vs, hvs, htwo⟩ := htold _ hpolicy
  have hchecked : ∀ path ∈ ["/p/a.js", "/p/b.js"],
      ∃ found, Analyzer.ofBreakAlways.checkFile twoFiles path = .ok found := by
    intro path hpath
    obtain ⟨found, hfound, -⟩ :=
      (htells (relativePath (Analyzer.ofBreakAlways.baseDir twoFiles) path)
        bracedPairThenCall).2 _ hpolicy
    rw [Analyzer.checkFile_eq rfl (hread path hpath) rfl rfl, hfound]
    exact ⟨_, rfl⟩
  obtain ⟨result, hrun⟩ := Analyzer.exists_run hfiles hchecked
  obtain ⟨hnodup, hown⟩ := hruns Analyzer.ofBreakAlways twoFiles _ result rfl hnamed hfiles hrun
    fun path _ text m _ hm => by
      rw [hmodels text m hm]
      exact ⟨hg, hp, hn⟩
  obtain ⟨vs', hvs', hfilter⟩ := hown "/p/b.js" (by decide) _ bracedPairThenCall
    (hread _ (by decide)) rfl rfl
  have hrelative : relativePath (Analyzer.ofBreakAlways.baseDir twoFiles) "/p/b.js" = "b.js" := by
    decide +kernel
  rw [hrelative] at hvs' hfilter
  cases hvs.symm.trans hvs'
  refine ⟨hg, hp, hn, hnamed, hfiles, vs, result, hvs, htwo.length_eq.symm,
    hascends _ _ _ hg hp hn hvs, hrun, hnodup, hfilter⟩

end Interline
