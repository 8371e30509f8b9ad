import Mathlib
import Interline.CommandLine.ConfigSource
import Interline.Proofs.LocatedPaths
import Interline.Proofs.WalkedPaths

/-! # The configuration file that is found

The search for a project's configuration takes one step after the other off the text of a path.
That text may go down into a directory and up again; then the search also looks into the directory
that was left, although it is not above the checked one.

* `nearest?` is the file of the nearest directory that holds one, among a directory and those that
  are really above it;
* `lastPassed?` is the file of the last directory that holds one on the way along some steps, and
  this is what the search finds (`map_locate_findProject?`);
* the search is `Diverted` if a directory that was left holds a file and no directory above the
  checked one that is passed later does.  This is the only case in which the nearest file is not
  found (`lastPassed?_eq_nearest?_iff`), and only a path that goes up has it
  (`not_diverted_checkedSteps`). -/

namespace Interline.CommandLine.ConfigSource

open Interline.Path (place)

/-! ### Beginnings of a list -/

section beginnings

variable {α β : Type} {f : List α → Option β} {l : List α}

theorem inits_concat (l : List α) (a : α) : (l ++ [a]).inits = l.inits ++ [l ++ [a]] := by
  simp [List.inits_append]

/-- A search through the beginnings of a list, the longest first, ends at the longest one with an
answer. -/
theorem findSome?_inits_eq_some_iff {b : β} : l.inits.reverse.findSome? f = some b ↔
    ∃ p, p <+: l ∧ f p = some b ∧ ∀ q, q <+: l → p.length < q.length → f q = none := by
  induction l using List.reverseRecOn with
  | nil => simp
  | append_singleton l a ih =>
      rw [inits_concat, List.reverse_append, List.reverse_singleton, List.singleton_append,
        List.findSome?_cons]
      cases hwhole : f (l ++ [a]) with
      | none =>
          rw [ih]
          constructor
          · rintro ⟨p, hp, hb, hlonger⟩
            refine ⟨p, hp.trans (List.prefix_append l [a]), hb, fun q hq hlt => ?_⟩
            rcases List.prefix_concat_iff.1 hq with rfl | hq
            · exact hwhole
            · exact hlonger q hq hlt
          · rintro ⟨p, hp, hb, hlonger⟩
            rcases List.prefix_concat_iff.1 hp with rfl | hp
            · rw [hwhole] at hb
              cases hb
            · exact ⟨p, hp, hb, fun q hq => hlonger q (hq.trans (List.prefix_append l [a]))⟩
      | some c =>
          constructor
          · rintro ⟨⟩
            refine ⟨l ++ [a], List.prefix_rfl, hwhole, fun q hq hlt => ?_⟩
            exact absurd hq.length_le (Nat.not_le.2 hlt)
          · rintro ⟨p, hp, hb, hlonger⟩
            rcases List.prefix_concat_iff.1 hp with rfl | hp
            · rwa [hwhole] at hb
            · have hlt := hp.length_le
              rw [hlonger (l ++ [a]) List.prefix_rfl (by
                rw [List.length_append, List.length_singleton]
                omega)] at hwhole
              cases hwhole

theorem findSome?_inits_eq_none_iff :
    l.inits.reverse.findSome? f = none ↔ ∀ p, p <+: l → f p = none := by
  simp only [List.findSome?_eq_none_iff, List.mem_reverse, List.mem_inits]

end beginnings

/-! ### The nearest file -/

/-- The configuration file that a directory holds, the preferred one if there are two. -/
def heldIn? (t : FileTree) (directory : List String) : Option (List String) :=
  (projectFiles.map fun name => directory ++ [name]).find? fun file =>
    (t.at? file).any fun entry => !entry.isDir

/-- The configuration file of the nearest directory that holds one, among a directory and those
above it. -/
def nearest? (t : FileTree) (directory : List String) : Option (List String) :=
  directory.inits.reverse.findSome? (heldIn? t)

/-- The configuration file of the last directory on the way along some steps that holds one. -/
def lastPassed? (t : FileTree) (steps : List PathComponent) : Option (List String) :=
  steps.inits.reverse.findSome? fun p => heldIn? t (place p)

variable {t : FileTree}

theorem nearest?_eq_some_iff {directory file : List String} : nearest? t directory = some file ↔
    ∃ above, above <+: directory ∧ heldIn? t above = some file ∧
      ∀ other, other <+: directory → above.length < other.length → heldIn? t other = none :=
  findSome?_inits_eq_some_iff

theorem nearest?_eq_none_iff {directory : List String} : nearest? t directory = none ↔
    ∀ above, above <+: directory → heldIn? t above = none :=
  findSome?_inits_eq_none_iff

theorem dropLast_of_heldIn? {directory file : List String} (h : heldIn? t directory = some file) :
    file.dropLast = directory := by
  obtain ⟨name, -, rfl⟩ := List.mem_map.1 (List.mem_of_find?_eq_some h)
  exact List.dropLast_concat

/-! ### Ways and the directories above their ends -/

theorem prefix_move {above here : List String} {c : PathComponent} (h : above <+: c.move here) :
    above = c.move here ∨ above <+: here := by
  cases c with
  | root => exact .inl (List.prefix_nil.1 h)
  | here => exact .inr h
  | up => exact .inr (h.trans (List.dropLast_prefix here))
  | name n => exact List.prefix_concat_iff.1 h

theorem exists_passed {above here : List String} {way : List PathComponent}
    (hstart : here.length ≤ above.length) (hend : above <+: way.foldl PathComponent.move here) :
    ∃ p, p <+: way ∧ p.foldl PathComponent.move here = above := by
  induction way using List.reverseRecOn with
  | nil => exact ⟨[], List.prefix_rfl, (hend.eq_of_length_le hstart).symm⟩
  | append_singleton way c ih =>
      rw [List.foldl_append] at hend
      rcases prefix_move hend with h | h
      · exact ⟨way ++ [c], List.prefix_rfl, by rw [List.foldl_append]; exact h.symm⟩
      · obtain ⟨p, hp, hplace⟩ := ih h
        exact ⟨p, hp.trans (List.prefix_append way [c]), hplace⟩

/-- A directory that the steps lead through and leave again holds a configuration file, and behind
it they lead through no directory with one that is above their end. -/
def Diverted (t : FileTree) (steps : List PathComponent) : Prop :=
  ∃ p ∈ steps.inits, ¬place p <+: place steps ∧ (heldIn? t (place p)).isSome = true ∧
    ∀ q ∈ steps.inits, p.length < q.length → place q <+: place steps → heldIn? t (place q) = none

instance (t : FileTree) (steps : List PathComponent) : Decidable (Diverted t steps) := by
  unfold Diverted
  infer_instance

theorem exists_left_of_diverted {steps : List PathComponent} (h : Diverted t steps) :
    ∃ file, lastPassed? t steps = some file ∧ ¬file.dropLast <+: place steps := by
  obtain ⟨p, hp, hleft, hheld, hbehind⟩ := h
  rw [List.mem_inits] at hp
  cases hsearch : lastPassed? t steps with
  | none =>
      rw [findSome?_inits_eq_none_iff.1 hsearch p hp] at hheld
      cases hheld
  | some file =>
      obtain ⟨q, hq, hfile, hlonger⟩ := findSome?_inits_eq_some_iff.1 hsearch
      refine ⟨file, rfl, fun habove => ?_⟩
      rw [dropLast_of_heldIn? hfile] at habove
      rcases Nat.lt_trichotomy p.length q.length with hlt | heq | hlt
      · rw [hbehind q ((List.mem_inits q steps).2 hq) hlt habove] at hfile
        cases hfile
      · rw [(List.prefix_of_prefix_length_le hp hq (Nat.le_of_eq heq)).eq_of_length heq] at hleft
        exact hleft habove
      · rw [hlonger p hp hlt] at hheld
        cases hheld

theorem lastPassed?_eq_nearest? {steps : List PathComponent} (h : ¬Diverted t steps) :
    lastPassed? t steps = nearest? t (place steps) := by
  cases hsearch : lastPassed? t steps with
  | none =>
      refine (nearest?_eq_none_iff.2 fun above habove => ?_).symm
      obtain ⟨p, hp, rfl⟩ := exists_passed (Nat.zero_le _) habove
      exact findSome?_inits_eq_none_iff.1 hsearch p hp
  | some file =>
      obtain ⟨p, hp, hfile, hlonger⟩ := findSome?_inits_eq_some_iff.1 hsearch
      have habove : place p <+: place steps := by
        by_contra hleft
        refine h ⟨p, (List.mem_inits p steps).2 hp, hleft, by rw [hfile]; rfl, ?_⟩
        intro q hq hlt _
        exact hlonger q ((List.mem_inits q steps).1 hq) hlt
      refine (nearest?_eq_some_iff.2 ⟨place p, habove, hfile, fun above hend hlt => ?_⟩).symm
      -- From the place of `p` on, the way passes every directory between it and the end.
      obtain ⟨way, rfl⟩ := hp
      rw [place, List.foldl_append] at hend
      obtain ⟨r, hr, rfl⟩ := exists_passed (Nat.le_of_lt hlt) hend
      have hlength : 0 < r.length := by
        refine List.length_pos_iff.2 ?_
        rintro rfl
        exact absurd hlt (Nat.lt_irrefl _)
      have hplace : place (p ++ r) = r.foldl PathComponent.move (place p) := List.foldl_append
      rw [← hplace]
      refine hlonger (p ++ r) ((List.prefix_append_right_inj p).2 hr) ?_
      rw [List.length_append]
      omega

/-- **The last directory passed is the nearest one exactly if the search is not diverted.** -/
theorem lastPassed?_eq_nearest?_iff {steps : List PathComponent} :
    lastPassed? t steps = nearest? t (place steps) ↔ ¬Diverted t steps := by
  refine ⟨fun h hdiverted => ?_, lastPassed?_eq_nearest?⟩
  obtain ⟨file, hfile, hleft⟩ := exists_left_of_diverted hdiverted
  obtain ⟨above, habove, hheld, -⟩ := nearest?_eq_some_iff.1 (h ▸ hfile)
  rw [dropLast_of_heldIn? hheld] at hleft
  exact hleft habove

theorem not_diverted_of_not_mem_up {steps : List PathComponent} (hroot : .root ∉ steps)
    (hup : .up ∉ steps) : ¬Diverted t steps := by
  rintro ⟨p, hp, hleft, -⟩
  refine hleft ?_
  obtain ⟨way, rfl⟩ := (List.mem_inits p steps).1 hp
  clear hp hleft
  induction way using List.reverseRecOn with
  | nil => rw [List.append_nil]
  | append_singleton way c ih =>
      rw [← List.append_assoc] at hroot hup ⊢
      have hplace : place (p ++ way ++ [c]) = c.move (place (p ++ way)) := List.foldl_append
      have habove := ih (fun h => hroot (List.mem_append_left _ h))
        fun h => hup (List.mem_append_left _ h)
      rw [hplace]
      cases c with
      | root => exact absurd (List.mem_append_right _ List.mem_cons_self) hroot
      | here => exact habove
      | up => exact absurd (List.mem_append_right _ List.mem_cons_self) hup
      | name n => exact habove.trans (List.prefix_append _ _)

/-! ### The places that the search looks into -/

theorem isName_of_mem_projectFiles {name : String} (h : name ∈ projectFiles) :
    PathComponent.IsName name := by
  simp only [projectFiles, List.mem_cons, List.not_mem_nil, or_false] at h
  rcases h with rfl | rfl <;> exact ⟨by decide, rfl⟩

section directories

variable {path : String} {steps : List PathComponent} (h : t.LeadsTo path steps)
include h

theorem locate_join_name {name : String} (hname : PathComponent.IsName name)
    {names : List String} : t.locate (Path.join path name) = .ok names ↔
      (t.at? (place steps ++ [name])).isSome = true ∧ place steps ++ [name] = names := by
  obtain ⟨hslash, hpiece⟩ := hname
  obtain ⟨habs, -, hlocate, hdir⟩ := h
  rw [FileTree.locate_join_iff habs (Path.isAbsolute_eq_false hslash), hlocate,
    Path.pieces_of_not_mem hslash]
  constructor
  · rintro ⟨mid, hmid, hway⟩
    cases hmid
    have hend := (FileTree.follow_cons_iff.1 hway).2
    rw [hpiece] at hend
    exact FileTree.follow_nil_iff.1 hend
  · intro hend
    refine ⟨_, rfl, FileTree.follow_cons_iff.2 ⟨hdir, ?_⟩⟩
    rw [hpiece]
    exact FileTree.follow_nil_iff.2 hend

theorem isFile_join_name {name : String} (hname : PathComponent.IsName name) :
    t.isFile (Path.join path name) =
      (t.at? (place steps ++ [name])).any fun entry => !entry.isDir := by
  cases hat : t.at? (place steps ++ [name]) with
  | some entry =>
      rw [FileTree.isFile_of_locate ((locate_join_name h hname).2 ⟨by rw [hat]; rfl, rfl⟩), hat]
  | none =>
      have hnot : ∀ names, t.locate (Path.join path name) ≠ .ok names := by
        intro names hnames
        have := ((locate_join_name h hname).1 hnames).1
        rw [hat] at this
        cases this
      unfold FileTree.isFile FileTree.entry?
      cases hlocate : t.locate (Path.join path name) with
      | ok names => exact absurd hlocate (hnot names)
      | error e => rfl

theorem map_locate_find?_join {names : List String}
    (hnames : ∀ name ∈ names, PathComponent.IsName name) :
    ((names.map (Path.join path)).find? t.isFile).map t.locate =
      ((names.map fun name => place steps ++ [name]).find? fun file =>
        (t.at? file).any fun entry => !entry.isDir).map .ok := by
  induction names with
  | nil => rfl
  | cons name names ih =>
      have hname := hnames name List.mem_cons_self
      rw [List.map_cons, List.map_cons, List.find?_cons, List.find?_cons, isFile_join_name h hname]
      cases hat : (t.at? (place steps ++ [name])).any fun entry => !entry.isDir with
      | false => exact ih fun other hother => hnames other (List.mem_cons_of_mem _ hother)
      | true => exact congrArg some ((locate_join_name h hname).2 ⟨Option.isSome_of_any hat, rfl⟩)

theorem map_locate_fileIn? :
    (fileIn? t path).map t.locate = (heldIn? t (place steps)).map .ok :=
  map_locate_find?_join h fun _ => isName_of_mem_projectFiles

end directories

theorem leadsTo_ancestors_go : ∀ (n : Nat) {path : String} {steps : List PathComponent},
    steps.length ≤ n → t.LeadsTo path steps →
      List.Forall₂ t.LeadsTo (ancestors.go n path) steps.inits.reverse
  | 0, path, steps, hn, h => by
      rw [List.length_eq_zero_iff.1 (Nat.le_zero.1 hn)] at h ⊢
      exact .cons h .nil
  | n + 1, path, steps, hn, h => by
      unfold ancestors.go
      rcases List.eq_nil_or_concat' steps with rfl | ⟨front, c, rfl⟩
      · rw [FileTree.parent?_eq_none h.1 h.2.1]
        exact .cons h .nil
      · obtain ⟨parent, hparent, hleads⟩ := FileTree.exists_parent? h.1 h.2.1 h.2.2.1
        rw [hparent, inits_concat, List.reverse_append, List.reverse_singleton]
        rw [List.length_append, List.length_singleton] at hn
        exact .cons h (leadsTo_ancestors_go n (Nat.le_of_succ_le_succ hn) hleads)

/-- The paths that the search goes through lead by the beginnings of the steps, the longest first. -/
theorem leadsTo_ancestors {path : String} {steps : List PathComponent} (h : t.LeadsTo path steps) :
    List.Forall₂ t.LeadsTo (ancestors path) steps.inits.reverse := by
  refine leadsTo_ancestors_go _ ?_ h
  rw [Path.components_eq, h.2.1, List.length_append]
  exact Nat.le_add_left _ _

theorem map_findSome?_of_forall₂ {α β γ δ ε : Type} {R : α → β → Prop} {f : α → Option γ}
    {g : β → Option δ} {m : γ → ε} {k : δ → ε} (h : ∀ {a b}, R a b → (f a).map m = (g b).map k)
    {as : List α} {bs : List β} (hall : List.Forall₂ R as bs) :
    (as.findSome? f).map m = (bs.findSome? g).map k := by
  induction hall with
  | nil => rfl
  | @cons a b as bs hab _ ih =>
      have hfirst := h hab
      rw [List.findSome?_cons, List.findSome?_cons]
      cases ha : f a <;> cases hb : g b <;> rw [ha, hb] at hfirst
      · exact ih
      · cases hfirst
      · cases hfirst
      · exact hfirst

/-! ### The checked directory -/

/-- The directory that is checked: what the given names lead to, or what holds it if that is a
file. -/
def checkedDirectory (t : FileTree) (names : List String) : List String :=
  if (t.at? names).any fun entry => !entry.isDir then names.dropLast else names

/-- The steps of a path to check, without the last one if they lead to a file. -/
def checkedSteps (t : FileTree) (directory start : String) : List PathComponent :=
  let steps := Path.stepsOf (Path.join directory start).toList
  if t.isFile (Path.join directory start) then steps.dropLast else steps

section checked

variable {directory start : String} {here : List String}
  (hdirectory : Path.isAbsolute directory = true)
  (hhere : t.locate (Path.join directory start) = .ok here)
include hdirectory hhere

theorem exists_first : ∃ first,
    (if t.isFile (Path.absolute directory start) then Path.parent? (Path.absolute directory start)
      else some (Path.absolute directory start)) = some first ∧
    t.LeadsTo first (checkedSteps t directory start) := by
  obtain ⟨habs, hlocate, hsteps⟩ := FileTree.locate_absolute hdirectory hhere
  have hfile : t.isFile (Path.join directory start) = t.isFile (Path.absolute directory start) := by
    rw [FileTree.isFile_of_locate hhere, FileTree.isFile_of_locate hlocate]
  unfold checkedSteps
  simp only [hfile, ← hsteps]
  rcases FileTree.dirAt_or_isFile habs hlocate with ⟨hdir, hno⟩ | ⟨hdir, hyes⟩
  · have hplace := FileTree.place_of_locate habs hlocate
    rw [hno]
    exact ⟨_, rfl, habs, rfl, hplace ▸ hlocate, hplace ▸ hdir⟩
  · obtain ⟨front, name, hall, -⟩ := FileTree.exists_last_name habs hlocate hdir
    obtain ⟨parent, hparent, hleads⟩ := FileTree.exists_parent? habs hall hlocate
    rw [hyes, hall, List.dropLast_concat]
    exact ⟨parent, hparent, hleads⟩

theorem place_checkedSteps : place (checkedSteps t directory start) = checkedDirectory t here := by
  have habs := Path.isAbsolute_join hdirectory start
  unfold checkedSteps checkedDirectory
  simp only [← FileTree.isFile_of_locate hhere]
  rcases FileTree.dirAt_or_isFile habs hhere with ⟨-, hno⟩ | ⟨hdir, hyes⟩
  · rw [hno]
    exact (FileTree.place_of_locate habs hhere).symm
  · obtain ⟨front, name, hall, rfl⟩ := FileTree.exists_last_name habs hhere hdir
    rw [hyes, hall]
    simp only [if_true, List.dropLast_concat]

/-- **The file that is found is that of the last directory passed on the way to the checked
one.** -/
theorem map_locate_findProject? : (findProject? t directory start).map t.locate =
    (lastPassed? t (checkedSteps t directory start)).map .ok := by
  obtain ⟨first, hfirst, hleads⟩ := exists_first hdirectory hhere
  have hsearch : findProject? t directory start = (ancestors first).findSome? (fileIn? t) := by
    unfold findProject?
    split at hfirst
    next hfile =>
      simp only [if_pos hfile, hfirst]
      rfl
    next hdir =>
      cases hfirst
      simp only [if_neg hdir]
      rfl
  rw [hsearch]
  exact map_findSome?_of_forall₂ (fun h => map_locate_fileIn? h) (leadsTo_ancestors hleads)

end checked

theorem not_diverted_checkedSteps {directory start : String}
    (hup : .up ∉ Path.stepsOf (Path.join directory start).toList) :
    ¬Diverted t (checkedSteps t directory start) := by
  have hsub : checkedSteps t directory start ⊆ Path.stepsOf (Path.join directory start).toList := by
    unfold checkedSteps
    split
    · exact List.dropLast_subset _
    · exact List.Subset.refl _
  refine not_diverted_of_not_mem_up (fun hroot => ?_) fun h => hup (hsub h)
  obtain ⟨p, -, hp⟩ := List.mem_filterMap.1 (hsub hroot)
  rcases PathComponent.ofPiece_cases p with h | ⟨h, -⟩ | h <;> rw [h] at hp <;> cases hp

/-! ### Where a configuration comes from -/

/-- The user's configuration file, if it is there. -/
def userConfig? (t : FileTree) (e : Environment) : Option String :=
  ((userDirectory? e).map fun d => Path.join d userFile).filter fun path =>
    t.isFile (Path.join e.directory path)

/-- Without a named file, a project's file comes before the user's, and that before the defaults. -/
theorem resolve_eq (t : FileTree) (e : Environment) (start : String) :
    resolve t e start none = (((findProject? t e.directory start).map .project).or
      ((userConfig? t e).map .user)).getD .default := by
  unfold resolve userConfig?
  cases findProject? t e.directory start with
  | some path => rfl
  | none =>
      cases (userDirectory? e).map fun d => Path.join d userFile with
      | none => rfl
      | some path =>
          simp only [Option.filter_some]
          split <;> rfl

/-- **Without a named file, a configuration comes from the nearest directory that holds one, exactly
if the search for it is not diverted**; a search that is diverted ends in a directory that is not
above the checked one.  Only a path that goes up can be diverted. -/
theorem resolve_nearest_iff {e : Environment} {start : String} {here : List String}
    (hdirectory : Path.isAbsolute e.directory = true)
    (hhere : t.locate (Path.join e.directory start) = .ok here) :
    resolve t e start none = (((findProject? t e.directory start).map .project).or
      ((userConfig? t e).map .user)).getD .default ∧
    ((findProject? t e.directory start).map t.locate =
        (nearest? t (checkedDirectory t here)).map .ok ↔
      ¬Diverted t (checkedSteps t e.directory start)) ∧
    (Diverted t (checkedSteps t e.directory start) →
      ∃ path file, findProject? t e.directory start = some path ∧ t.locate path = .ok file ∧
        ¬file.dropLast <+: checkedDirectory t here) ∧
    (.up ∉ Path.stepsOf (Path.join e.directory start).toList →
      ¬Diverted t (checkedSteps t e.directory start)) := by
  have hsearch := map_locate_findProject? hdirectory hhere
  rw [← place_checkedSteps hdirectory hhere]
  refine ⟨resolve_eq t e start, ?_, fun hdiverted => ?_, not_diverted_checkedSteps⟩
  · have hok : Function.Injective (Except.ok : List String → Except FileError (List String)) :=
      fun _ _ => Except.ok.inj
    rw [hsearch, (Option.map_injective hok).eq_iff, lastPassed?_eq_nearest?_iff]
  · obtain ⟨file, hfile, hleft⟩ := exists_left_of_diverted hdiverted
    rw [hfile] at hsearch
    obtain ⟨path, hpath, hlocate⟩ := Option.map_eq_some_iff.1 hsearch
    exact ⟨path, file, hpath, hlocate, hleft⟩

/-- A directory with a configuration file, and another one beside it with the given entries. -/
def besideApp (entries : List (String × FileTree)) : FileTree :=
  .dir [("app", .dir [("linebreak-lint.toml", .file .empty)]), ("lib", .dir entries)]

/-- A run in the first of these directories. -/
def inApp : Environment := ⟨"/app", none, none, none⟩

theorem resolve_nearest_iff_besideApp :
    (besideApp [(".linebreak-lint.toml", .file .empty)]).locate (Path.join "/app" "../lib") =
      .ok ["lib"] ∧
    (findProject? (besideApp [(".linebreak-lint.toml", .file .empty)]) "/app" "../lib").map
      (besideApp [(".linebreak-lint.toml", .file .empty)]).locate =
        some (.ok ["lib", ".linebreak-lint.toml"]) := by
  have hhere : (besideApp [(".linebreak-lint.toml", .file .empty)]).locate
      (Path.join inApp.directory "../lib") = .ok ["lib"] := by rfl
  have hdiverted : ¬Diverted (besideApp [(".linebreak-lint.toml", .file .empty)])
      (checkedSteps (besideApp [(".linebreak-lint.toml", .file .empty)]) "/app" "../lib") := by
    decide +kernel
  exact ⟨hhere, (resolve_nearest_iff (by decide) hhere).2.1.2 hdiverted⟩

/-- The file of a directory that the path leaves again is taken, although no directory above the
checked one holds any. -/
theorem not_nearest_leftDirectory :
    (besideApp []).locate (Path.join "/app" "../lib") = .ok ["lib"] ∧
    nearest? (besideApp []) (checkedDirectory (besideApp []) ["lib"]) = none ∧
    resolve (besideApp []) inApp "../lib" none = .project "/app/linebreak-lint.toml" := by
  refine ⟨by rfl, by decide +kernel, by decide +kernel⟩

end Interline.CommandLine.ConfigSource
