import Mathlib
import Interline.Policy.Entry

/-! # What the written form of a policy can say

`Policy.ofEntries` reads a list of entries and stops at the first fault.  The main lemmas say of
each reader exactly what it accepts and exactly how it fails:

* a side of a rule is read from its written form and from nothing else, and a list must not be empty
  or repeat a type (`TypeSpec.ofItem_eq_ok_iff`); the ways in which a side can be at fault are the
  cases of `EntryItem.Fault` (`TypeSpec.ofItem_eq_error_iff`);
* the same for one entry (`PolicyRule.ofEntry_eq_ok_iff`, `PolicyRule.ofEntry_eq_error_iff`), whose
  parts are looked at in their order;
* a list is read entry by entry, and what stands behind the first fault is not read
  (`Policy.ofEntries_eq_ok_iff`, `Policy.ofEntries_eq_error_iff`).

All of it rests on the names: each type and each requirement has its own. -/

namespace Interline

/-! ### Readers -/

/-- A reader that reads what is written, and fails where there is a fault, if there is always the
one or the other. -/
structure ReadsWritten {α β ε : Type} (read : α → Except ε β) (write : β → α) (Written : β → Prop)
    (Fault : α → ε → Prop) : Prop where
  read_write : ∀ {y}, Written y → read (write y) = .ok y
  read_fault : ∀ {x e}, Fault x e → read x = .error e
  written_or_fault : ∀ x, (∃ y, write y = x ∧ Written y) ∨ ∃ e, Fault x e

namespace ReadsWritten

variable {α β ε : Type} {read : α → Except ε β} {write : β → α} {Written : β → Prop}
  {Fault : α → ε → Prop} (h : ReadsWritten read write Written Fault)
include h

theorem eq_ok_iff {x : α} {y : β} : read x = .ok y ↔ write y = x ∧ Written y := by
  constructor
  · intro hread
    rcases h.written_or_fault x with ⟨y', rfl, hwritten⟩ | ⟨e, hfault⟩
    · cases (h.read_write hwritten).symm.trans hread
      exact ⟨rfl, hwritten⟩
    · cases (h.read_fault hfault).symm.trans hread
  · rintro ⟨rfl, hwritten⟩
    exact h.read_write hwritten

theorem eq_error_iff {x : α} {e : ε} : read x = .error e ↔ Fault x e := by
  refine ⟨fun hread => ?_, h.read_fault⟩
  rcases h.written_or_fault x with ⟨y, rfl, hwritten⟩ | ⟨e', hfault⟩
  · cases (h.read_write hwritten).symm.trans hread
  · cases (h.read_fault hfault).symm.trans hread
    exact hfault

end ReadsWritten

/-! ### Names -/

/-- If every value is listed, and no two have the same name, a name finds the value that it belongs
to. -/
theorem find?_name_eq_some_iff {α : Type} {values : List α} {name : α → String}
    (hall : ∀ x, x ∈ values) (hnodup : (values.map name).Nodup) {s : String} {x : α} :
    values.find? (fun y => name y == s) = some x ↔ name x = s := by
  constructor
  · intro h
    simpa using List.find?_some h
  · intro h
    cases hfind : values.find? (fun y => name y == s) with
    | none => exact absurd h (by simpa using List.find?_eq_none.1 hfind x (hall x))
    | some y =>
        have hy : name y = s := by simpa using List.find?_some hfind
        rw [List.inj_on_of_nodup_map hnodup (hall y) (hall x) (hy.trans h.symm)]

namespace Requirement

/-- The names of requirements. -/
def IsName (s : String) : Prop := ∃ r : Requirement, r.name = s

theorem mem_all (r : Requirement) : r ∈ all := by
  cases r <;> decide

theorem ofName?_eq_some_iff {s : String} {r : Requirement} : ofName? s = some r ↔ r.name = s :=
  find?_name_eq_some_iff mem_all (by decide)

theorem ofName?_name (r : Requirement) : ofName? r.name = some r :=
  ofName?_eq_some_iff.2 rfl

theorem ofName?_eq_none_iff {s : String} : ofName? s = none ↔ ¬IsName s := by
  simp only [Option.eq_none_iff_forall_ne_some, ne_eq, ofName?_eq_some_iff, IsName, not_exists]

end Requirement

namespace StatementType

/-- The names of statement types. -/
def IsName (s : String) : Prop := ∃ t : StatementType, t.name = s

theorem mem_all (t : StatementType) : t ∈ all := by
  cases t with
  | keyword k => cases k <;> decide
  | _ => decide

theorem nodup_names : (all.map name).Nodup := by decide

theorem name_injective : Function.Injective name :=
  fun s t h => List.inj_on_of_nodup_map nodup_names (mem_all s) (mem_all t) h

theorem ofName?_eq_some_iff {s : String} {t : StatementType} : ofName? s = some t ↔ t.name = s :=
  find?_name_eq_some_iff mem_all nodup_names

theorem ofName?_name (t : StatementType) : ofName? t.name = some t :=
  ofName?_eq_some_iff.2 rfl

theorem ofName?_eq_none_iff {s : String} : ofName? s = none ↔ ¬IsName s := by
  simp only [Option.eq_none_iff_forall_ne_some, ne_eq, ofName?_eq_some_iff, IsName, not_exists]

/-- The names of types, none of them twice. -/
def AreNames (names : List String) : Prop :=
  names.Nodup ∧ ∀ n ∈ names, IsName n

theorem areNames_iff {names : List String} :
    AreNames names ↔ ∃ ts : List StatementType, ts.map name = names ∧ ts.Nodup := by
  constructor
  · rintro ⟨hnodup, hnames⟩
    obtain ⟨ts, rfl⟩ : names ∈ Set.range (List.map name) := by
      rw [Set.range_list_map]
      exact hnames
    exact ⟨ts, rfl, List.Nodup.of_map _ hnodup⟩
  · rintro ⟨ts, rfl, hnodup⟩
    refine ⟨hnodup.map name_injective, fun n hn => ?_⟩
    obtain ⟨t, -, rfl⟩ := List.mem_map.1 hn
    exact ⟨t, rfl⟩

/-- A list that is not one of different names of types has a first element at which it fails. -/
theorem areNames_or_exists_stop (names : List String) :
    AreNames names ∨ ∃ before n after, names = before ++ n :: after ∧ AreNames before ∧
      (¬IsName n ∨ n ∈ before) := by
  induction names using List.reverseRecOn with
  | nil => exact .inl ⟨List.nodup_nil, by simp⟩
  | append_singleton names n ih =>
      rcases ih with ⟨hnodup, hnames⟩ | ⟨before, m, after, rfl, hstop⟩
      · by_cases hn : IsName n ∧ n ∉ names
        · refine .inl ⟨List.nodup_append.2 ⟨hnodup, List.nodup_singleton n, ?_⟩, ?_⟩
          · rintro m hm k hk rfl
            exact hn.2 (List.mem_singleton.1 hk ▸ hm)
          · intro m hm
            rcases List.mem_append.1 hm with hm | hm
            · exact hnames m hm
            · exact List.mem_singleton.1 hm ▸ hn.1
        · exact .inr ⟨names, n, [], rfl, ⟨hnodup, hnames⟩, by tauto⟩
      · exact .inr ⟨before, m, after ++ [n], by simp, hstop⟩

end StatementType

/-! ### Sides -/

namespace EntryItem

/-- What can be written for a side of a rule: the name of a type, or a list of such names that is
not empty and has no name twice. -/
def IsSide : EntryItem → Prop
  | .name n => StatementType.IsName n
  | .names ns => ns ≠ [] ∧ StatementType.AreNames ns

/-- What is wrong with a side, at the given place. -/
inductive Fault (entry index : Nat) : EntryItem → EntryError → Prop
  | unknown {n : String} (hn : ¬StatementType.IsName n) :
      Fault entry index (.name n) (.unknownStatementType (.item entry index) n)
  | empty : Fault entry index (.names []) (.emptyTypeList (.item entry index))
  | unknownElement {before after : List String} {n : String}
      (hbefore : StatementType.AreNames before) (hn : ¬StatementType.IsName n) :
      Fault entry index (.names (before ++ n :: after))
        (.unknownStatementType (.element entry index before.length) n)
  | repeated {before after : List String} {n : String}
      (hbefore : StatementType.AreNames before) (hn : n ∈ before) :
      Fault entry index (.names (before ++ n :: after))
        (.duplicateStatementType (.item entry index) n)

end EntryItem

namespace TypeSpec

/-- Whether a side can be written. -/
def Written : TypeSpec → Prop
  | .single _ => True
  | .anyOf ts => ts ≠ [] ∧ ts.Nodup

theorem isSide_iff {x : EntryItem} :
    x.IsSide ↔ ∃ spec : TypeSpec, spec.toItem = x ∧ spec.Written := by
  cases x with
  | name n =>
      constructor
      · rintro ⟨t, rfl⟩
        exact ⟨.single t, rfl, trivial⟩
      · rintro ⟨spec, hspec, -⟩
        cases spec with
        | single t => exact ⟨t, EntryItem.name.inj hspec⟩
        | anyOf ts => cases hspec
  | names ns =>
      simp only [EntryItem.IsSide, StatementType.areNames_iff]
      constructor
      · rintro ⟨hns, ts, rfl, hnodup⟩
        exact ⟨.anyOf ts, rfl, by simpa using hns, hnodup⟩
      · rintro ⟨spec, hspec, hwritten⟩
        cases spec with
        | single t => cases hspec
        | anyOf ts =>
            cases hspec
            exact ⟨by simpa using hwritten.1, ts, rfl, hwritten.2⟩

theorem readType_name (place : EntryPlace) (t : StatementType) :
    readType place t.name = .ok t := by
  unfold readType
  rw [StatementType.ofName?_name]

theorem readType_of_not {place : EntryPlace} {n : String} (hn : ¬StatementType.IsName n) :
    readType place n = .error (.unknownStatementType place n) := by
  unfold readType
  rw [StatementType.ofName?_eq_none_iff.2 hn]

section reading

variable {entry index : Nat}

theorem readTypes_name_cons {seen : List StatementType} {t : StatementType} (rest : List String)
    (ht : t ∉ seen) :
    readTypes entry index seen (t.name :: rest) =
      (readTypes entry index (seen ++ [t]) rest).map (t :: ·) := by
  rw [readTypes, readType_name]
  show (if t ∈ seen then _ else _) = _
  rw [if_neg ht]
  cases readTypes entry index (seen ++ [t]) rest <;> rfl

/-- Different names that were not read before are read as their types. -/
theorem readTypes_append {seen ts : List StatementType} (rest : List String)
    (h : (seen ++ ts).Nodup) :
    readTypes entry index seen (ts.map StatementType.name ++ rest) =
      (readTypes entry index (seen ++ ts) rest).map (ts ++ ·) := by
  induction ts generalizing seen with
  | nil => cases hrest : readTypes entry index seen rest <;> simp [hrest, Except.map]
  | cons t ts ih =>
      have hnodup : (seen ++ [t] ++ ts).Nodup := by simpa using h
      have ht : t ∉ seen := fun hseen =>
        (List.nodup_append.1 h).2.2 t hseen t List.mem_cons_self rfl
      rw [List.map_cons, List.cons_append, readTypes_name_cons _ ht, ih hnodup,
        List.append_assoc, List.singleton_append]
      cases readTypes entry index (seen ++ t :: ts) rest <;> rfl

theorem readTypes_fresh {ts : List StatementType} (h : ts.Nodup) (rest : List String) :
    readTypes entry index [] (ts.map StatementType.name ++ rest) =
      (readTypes entry index ts rest).map (ts ++ ·) := by
  have hseen : ([] ++ ts).Nodup := h
  exact readTypes_append rest hseen

theorem readTypes_names {ts : List StatementType} (h : ts.Nodup) :
    readTypes entry index [] (ts.map StatementType.name) = .ok ts := by
  rw [← List.append_nil (ts.map StatementType.name), readTypes_fresh h, readTypes]
  simp [Except.map]

theorem readTypes_unknown {ts : List StatementType} {n : String} (h : ts.Nodup)
    (hn : ¬StatementType.IsName n) (after : List String) :
    readTypes entry index [] (ts.map StatementType.name ++ n :: after) =
      .error (.unknownStatementType (.element entry index ts.length) n) := by
  rw [readTypes_fresh h, readTypes, readType_of_not hn]
  rfl

theorem readTypes_repeated {ts : List StatementType} {t : StatementType} (h : ts.Nodup)
    (ht : t ∈ ts) (after : List String) :
    readTypes entry index [] (ts.map StatementType.name ++ t.name :: after) =
      .error (.duplicateStatementType (.item entry index) t.name) := by
  rw [readTypes_fresh h, readTypes, readType_name]
  show (if t ∈ ts then _ else _ : Except EntryError _).map _ = _
  rw [if_pos ht]
  rfl

theorem ofItem_names {ns : List String} (h : ns ≠ []) :
    ofItem entry index (.names ns) = (readTypes entry index [] ns).map .anyOf := by
  cases ns with
  | nil => exact absurd rfl h
  | cons n ns => cases hread : readTypes entry index [] (n :: ns) <;> simp [ofItem, hread] <;> rfl

theorem ofItem_toItem {spec : TypeSpec} (h : spec.Written) :
    ofItem entry index spec.toItem = .ok spec := by
  cases spec with
  | single t =>
      simp only [toItem, ofItem, readType_name]
      rfl
  | anyOf ts =>
      obtain ⟨hts, hnodup⟩ := h
      rw [toItem, ofItem_names (by simpa using hts), readTypes_names hnodup]
      rfl

theorem ofItem_of_fault {x : EntryItem} {err : EntryError} (h : x.Fault entry index err) :
    ofItem entry index x = .error err := by
  cases h with
  | unknown hn =>
      simp only [ofItem, readType_of_not hn]
      rfl
  | empty => rfl
  | unknownElement hbefore hn =>
      obtain ⟨ts, rfl, hts⟩ := StatementType.areNames_iff.1 hbefore
      rw [ofItem_names (by simp), readTypes_unknown hts hn, List.length_map]
      rfl
  | repeated hbefore hn =>
      obtain ⟨ts, rfl, hts⟩ := StatementType.areNames_iff.1 hbefore
      obtain ⟨t, ht, rfl⟩ := List.mem_map.1 hn
      rw [ofItem_names (by simp), readTypes_repeated hts ht]
      rfl

variable (entry index) in
theorem isSide_or_fault (x : EntryItem) : x.IsSide ∨ ∃ err, x.Fault entry index err := by
  cases x with
  | name n =>
      by_cases hn : StatementType.IsName n
      · exact .inl hn
      · exact .inr ⟨_, .unknown hn⟩
  | names ns =>
      rcases StatementType.areNames_or_exists_stop ns with
        hns | ⟨before, n, after, rfl, hbefore, hn | hn⟩
      · by_cases hempty : ns = []
        · subst hempty
          exact .inr ⟨_, .empty⟩
        · exact .inl ⟨hempty, hns⟩
      · exact .inr ⟨_, .unknownElement hbefore hn⟩
      · exact .inr ⟨_, .repeated hbefore hn⟩

variable (entry index) in
theorem reads_written :
    ReadsWritten (ofItem entry index) toItem Written (EntryItem.Fault entry index) where
  read_write := ofItem_toItem
  read_fault := ofItem_of_fault
  written_or_fault x := (isSide_or_fault entry index x).imp_left isSide_iff.1

/-- A side is read from what is written for it, and from nothing else. -/
theorem ofItem_eq_ok_iff {x : EntryItem} {spec : TypeSpec} :
    ofItem entry index x = .ok spec ↔ spec.toItem = x ∧ spec.Written :=
  (reads_written entry index).eq_ok_iff

theorem ofItem_eq_error_iff {x : EntryItem} {err : EntryError} :
    ofItem entry index x = .error err ↔ x.Fault entry index err :=
  (reads_written entry index).eq_error_iff

end reading

end TypeSpec

/-! ### Entries -/

/-- What can be written for a rule: the name of a requirement and two sides. -/
def Entry.Valid (e : Entry) : Prop :=
  ∃ q previous next, e = [.name q, previous, next] ∧ Requirement.IsName q ∧
    previous.IsSide ∧ next.IsSide

/-- What is wrong with an entry, the `index`-th one. -/
inductive Entry.Fault (index : Nat) : Entry → EntryError → Prop
  | arity {e : Entry} (h : e.length ≠ 3) : Fault index e (.arity index e.length)
  | requirementNotString {ns : List String} {previous next : EntryItem} :
      Fault index [.names ns, previous, next] (.requirementNotString index)
  | unknownRequirement {q : String} {previous next : EntryItem} (hq : ¬Requirement.IsName q) :
      Fault index [.name q, previous, next] (.unknownRequirement (.item index 0) q)
  | previous {q : String} {previous next : EntryItem} {err : EntryError}
      (hq : Requirement.IsName q) (h : previous.Fault index 1 err) :
      Fault index [.name q, previous, next] err
  | next {q : String} {previous next : EntryItem} {err : EntryError}
      (hq : Requirement.IsName q) (hprevious : previous.IsSide) (h : next.Fault index 2 err) :
      Fault index [.name q, previous, next] err

namespace PolicyRule

/-- Whether a rule can be written. -/
def Written (r : PolicyRule) : Prop := r.previous.Written ∧ r.next.Written

theorem valid_iff {e : Entry} : e.Valid ↔ ∃ r : PolicyRule, r.toEntry = e ∧ r.Written := by
  constructor
  · rintro ⟨q, previous, next, rfl, ⟨requirement, rfl⟩, hprevious, hnext⟩
    obtain ⟨first, rfl, hfirst⟩ := TypeSpec.isSide_iff.1 hprevious
    obtain ⟨second, rfl, hsecond⟩ := TypeSpec.isSide_iff.1 hnext
    exact ⟨⟨requirement, first, second⟩, rfl, hfirst, hsecond⟩
  · rintro ⟨r, rfl, hprevious, hnext⟩
    exact ⟨_, _, _, rfl, ⟨_, rfl⟩, TypeSpec.isSide_iff.2 ⟨_, rfl, hprevious⟩,
      TypeSpec.isSide_iff.2 ⟨_, rfl, hnext⟩⟩

variable {index : Nat}

theorem ofEntry_name (r : Requirement) (previous next : EntryItem) :
    ofEntry index [.name r.name, previous, next] =
      (TypeSpec.ofItem index 1 previous).bind fun first =>
        (TypeSpec.ofItem index 2 next).bind fun second => .ok ⟨r, first, second⟩ := by
  simp only [ofEntry, Requirement.ofName?_name]
  rfl

theorem ofEntry_toEntry {r : PolicyRule} (h : r.Written) : ofEntry index r.toEntry = .ok r := by
  rw [toEntry, ofEntry_name, TypeSpec.ofItem_eq_ok_iff.2 ⟨rfl, h.1⟩,
    TypeSpec.ofItem_eq_ok_iff.2 ⟨rfl, h.2⟩]
  rfl

theorem ofEntry_of_fault {e : Entry} {err : EntryError} (h : e.Fault index err) :
    ofEntry index e = .error err := by
  cases h with
  | arity h =>
      unfold ofEntry
      split
      next => exact absurd rfl h
      next => rfl
  | requirementNotString => rfl
  | unknownRequirement hq =>
      simp only [ofEntry, Requirement.ofName?_eq_none_iff.2 hq]
      rfl
  | previous hq h =>
      obtain ⟨r, rfl⟩ := hq
      rw [ofEntry_name, TypeSpec.ofItem_eq_error_iff.2 h]
      rfl
  | next hq hprevious h =>
      obtain ⟨r, rfl⟩ := hq
      obtain ⟨spec, rfl, hspec⟩ := TypeSpec.isSide_iff.1 hprevious
      rw [ofEntry_name, TypeSpec.ofItem_eq_ok_iff.2 ⟨rfl, hspec⟩, TypeSpec.ofItem_eq_error_iff.2 h]
      rfl

variable (index) in
theorem valid_or_fault (e : Entry) : e.Valid ∨ ∃ err, e.Fault index err := by
  by_cases h : e.length = 3
  · obtain ⟨first, previous, next, rfl⟩ := List.length_eq_three.1 h
    cases first with
    | names ns => exact .inr ⟨_, .requirementNotString⟩
    | name q =>
        by_cases hq : Requirement.IsName q
        · rcases TypeSpec.isSide_or_fault index 1 previous with hprevious | ⟨err, hfault⟩
          · rcases TypeSpec.isSide_or_fault index 2 next with hnext | ⟨err, hfault⟩
            · exact .inl ⟨q, previous, next, rfl, hq, hprevious, hnext⟩
            · exact .inr ⟨err, .next hq hprevious hfault⟩
          · exact .inr ⟨err, .previous hq hfault⟩
        · exact .inr ⟨_, .unknownRequirement hq⟩
  · exact .inr ⟨_, .arity h⟩

variable (index) in
theorem reads_written : ReadsWritten (ofEntry index) toEntry Written (Entry.Fault index) where
  read_write := ofEntry_toEntry
  read_fault := ofEntry_of_fault
  written_or_fault e := (valid_or_fault index e).imp_left valid_iff.1

/-- A rule is read from what is written for it, and from nothing else. -/
theorem ofEntry_eq_ok_iff {e : Entry} {r : PolicyRule} :
    ofEntry index e = .ok r ↔ r.toEntry = e ∧ r.Written :=
  (reads_written index).eq_ok_iff

theorem ofEntry_eq_error_iff {e : Entry} {err : EntryError} :
    ofEntry index e = .error err ↔ e.Fault index err :=
  (reads_written index).eq_error_iff

end PolicyRule

/-! ### Lists of entries -/

/-- What is wrong with a list of entries: the fault of the first one that is not valid. -/
def Entry.FirstFault (es : List Entry) (err : EntryError) : Prop :=
  ∃ before e after, es = before ++ e :: after ∧ (∀ x ∈ before, Entry.Valid x) ∧
    ¬Entry.Valid e ∧ Entry.Fault before.length e err

theorem Entry.forall_valid_or_exists_first (es : List Entry) :
    (∀ e ∈ es, e.Valid) ∨ ∃ before e after, es = before ++ e :: after ∧
      (∀ x ∈ before, Entry.Valid x) ∧ ¬Entry.Valid e := by
  induction es with
  | nil => exact .inl (by simp)
  | cons e es ih =>
      by_cases he : e.Valid
      · rcases ih with hes | ⟨before, x, after, rfl, hbefore, hx⟩
        · exact .inl (List.forall_mem_cons.2 ⟨he, hes⟩)
        · exact .inr ⟨e :: before, x, after, rfl, List.forall_mem_cons.2 ⟨he, hbefore⟩, hx⟩
      · exact .inr ⟨[], e, es, rfl, by simp, he⟩

namespace Policy

/-- Whether a policy can be written. -/
def Written (p : Policy) : Prop := ∀ r ∈ p.rules, r.Written

theorem forall_valid_iff {es : List Entry} :
    (∀ e ∈ es, e.Valid) ↔ ∃ p : Policy, p.toEntries = es ∧ p.Written := by
  constructor
  · intro h
    induction es with
    | nil => exact ⟨⟨[]⟩, rfl, by simp [Written]⟩
    | cons e es ih =>
        obtain ⟨he, hes⟩ := List.forall_mem_cons.1 h
        obtain ⟨r, rfl, hr⟩ := PolicyRule.valid_iff.1 he
        obtain ⟨p, rfl, hp⟩ := ih hes
        exact ⟨⟨r :: p.rules⟩, rfl, List.forall_mem_cons.2 ⟨hr, hp⟩⟩
  · rintro ⟨p, rfl, hp⟩ e he
    obtain ⟨r, hr, rfl⟩ := List.mem_map.1 he
    exact PolicyRule.valid_iff.2 ⟨r, rfl, hp r hr⟩

/-- What is written for rules is read as these, and then the reading goes on. -/
theorem readRules_append {index : Nat} {rules : List PolicyRule} (h : ∀ r ∈ rules, r.Written)
    (rest : List Entry) :
    readRules index (rules.map PolicyRule.toEntry ++ rest) =
      (readRules (index + rules.length) rest).map (rules ++ ·) := by
  induction rules generalizing index with
  | nil => cases hrest : readRules index rest <;> simp [hrest, Except.map]
  | cons r rules ih =>
      obtain ⟨hr, hrules⟩ := List.forall_mem_cons.1 h
      have hlength : index + 1 + rules.length = index + (r :: rules).length := by
        rw [List.length_cons]
        omega
      rw [List.map_cons, List.cons_append, readRules, PolicyRule.ofEntry_eq_ok_iff.2 ⟨rfl, hr⟩,
        ih hrules, hlength]
      cases readRules (index + (r :: rules).length) rest <;> rfl

theorem ofEntries_toEntries {p : Policy} (h : p.Written) : ofEntries p.toEntries = .ok p := by
  rw [ofEntries, toEntries, ← List.append_nil (p.rules.map PolicyRule.toEntry), readRules_append h]
  simp [readRules, Except.map, bind, Except.bind, pure, Except.pure]

/-- The first entry that is not valid decides, and nothing behind it is read. -/
theorem ofEntries_of_fault {before : List Entry} {e : Entry} {err : EntryError}
    (hbefore : ∀ x ∈ before, Entry.Valid x) (he : e.Fault before.length err) (after : List Entry) :
    ofEntries (before ++ e :: after) = .error err := by
  obtain ⟨p, rfl, hp⟩ := forall_valid_iff.1 hbefore
  have hlength : p.toEntries.length = 0 + p.rules.length := by simp [toEntries]
  rw [hlength] at he
  rw [ofEntries, toEntries, readRules_append hp, readRules,
    PolicyRule.ofEntry_eq_error_iff.2 he]
  rfl

theorem reads_written : ReadsWritten ofEntries toEntries Written Entry.FirstFault where
  read_write := ofEntries_toEntries
  read_fault := by
    rintro es err ⟨before, e, after, rfl, hbefore, -, hfault⟩
    exact ofEntries_of_fault hbefore hfault after
  written_or_fault es := by
    rcases Entry.forall_valid_or_exists_first es with hes | ⟨before, e, after, rfl, hbefore, he⟩
    · exact .inl (forall_valid_iff.1 hes)
    · obtain ⟨err, hfault⟩ := (PolicyRule.valid_or_fault before.length e).resolve_left he
      exact .inr ⟨err, before, e, after, rfl, hbefore, he, hfault⟩

theorem ofEntries_eq_ok_iff {es : List Entry} {p : Policy} :
    ofEntries es = .ok p ↔ p.toEntries = es ∧ p.Written :=
  reads_written.eq_ok_iff

theorem ofEntries_eq_error_iff {es : List Entry} {err : EntryError} :
    ofEntries es = .error err ↔ Entry.FirstFault es err :=
  reads_written.eq_error_iff

/-- **Exactly the valid lists are read, and nothing is lost.**  A list of entries is read if and
only if each of them is valid.  The policy that was read is written as the list that it was read
from, and is read again from there.  If the list is not read, then for what is wrong with the first
entry that is not valid, at its place in the whole list; what stands behind makes no difference. -/
theorem ofEntries_reads_valid :
    (∀ es, (∃ p, ofEntries es = .ok p) ↔ ∀ e ∈ es, Entry.Valid e) ∧
    (∀ es p, ofEntries es = .ok p → p.toEntries = es ∧ ofEntries p.toEntries = .ok p) ∧
    (∀ es err, ofEntries es = .error err ↔ ∃ before e after, es = before ++ e :: after ∧
      (∀ x ∈ before, Entry.Valid x) ∧ ¬Entry.Valid e ∧ Entry.Fault before.length e err) ∧
    ∀ before e after, (∀ x ∈ before, Entry.Valid x) → ¬Entry.Valid e →
      ∃ err, Entry.Fault before.length e err ∧ ofEntries (before ++ e :: after) = .error err ∧
        ∀ after', ofEntries (before ++ e :: after') = .error err := by
  refine ⟨fun es => ?_, fun es p h => ?_, fun es err => ofEntries_eq_error_iff, ?_⟩
  · simp only [ofEntries_eq_ok_iff, forall_valid_iff]
  · have hp := (ofEntries_eq_ok_iff.1 h).1
    exact ⟨hp, hp.symm ▸ h⟩
  · intro before e after hbefore he
    obtain ⟨err, hfault⟩ := (PolicyRule.valid_or_fault before.length e).resolve_left he
    exact ⟨err, hfault, ofEntries_of_fault hbefore hfault after,
      ofEntries_of_fault hbefore hfault⟩

/-- Two rules, one with a list on either side. -/
def blankAroundBlocks : List Entry :=
  [[.name "always", .name "*", .name "*"],
    [.name "blankline", .names ["block", "if"], .names ["return"]]]

/-- An entry whose second list has a name twice, behind one that has an unknown name. -/
def repeatedReturn : Entry :=
  [.name "never", .names ["const"], .names ["return", "throw", "return", "loop"]]

theorem ofEntries_reads_valid_blankAroundBlocks :
    (∃ p, ofEntries blankAroundBlocks = .ok p ∧ p.toEntries = blankAroundBlocks ∧
      ofEntries p.toEntries = .ok p) ∧
    ¬Entry.Valid repeatedReturn ∧
    ofEntries (blankAroundBlocks ++ [repeatedReturn, []]) =
      .error (.duplicateStatementType (.item 2 2) "return") := by
  obtain ⟨haccepts, hround, hfails, hfirst⟩ := ofEntries_reads_valid
  have hread : ofEntries blankAroundBlocks = .ok ⟨[⟨.always, .single .any, .single .any⟩,
      ⟨.blankLine, .anyOf [.block, .keyword .if], .anyOf [.keyword .return]⟩]⟩ := by rfl
  have hvalid := (haccepts blankAroundBlocks).1 ⟨_, hread⟩
  have halone : ofEntries (blankAroundBlocks ++ [repeatedReturn]) =
      .error (.duplicateStatementType (.item 2 2) "return") := by rfl
  have hno : ¬Entry.Valid repeatedReturn := by
    intro hlast
    have hall : ∀ e ∈ blankAroundBlocks ++ [repeatedReturn], Entry.Valid e := by
      simpa [or_imp, forall_and, hlast] using hvalid
    obtain ⟨p, hp⟩ := (haccepts _).2 hall
    cases hp.symm.trans halone
  obtain ⟨err, -, herr, hafter⟩ := hfirst blankAroundBlocks repeatedReturn [] hvalid hno
  cases herr.symm.trans halone
  exact ⟨⟨_, hread, hround _ _ hread⟩, hno, hafter [[]]⟩

end Policy

end Interline
