import Mathlib
import Interline.Proofs.OpenEnds
import Interline.Proofs.Rebasing

/-! # What fixes delete

A fix inserts a line break behind a token, or takes out what lies between two tokens
(`Policy.fix_cases`).  What it takes out is white, with one exception: behind a semicolon that was
passed over, the semicolon goes as well (`deletesOnlySpace_iff`).

`Policy.fixes_delete_iff` states this for a whole check, and for all of its fixes applied together:
they leave the tokens of the file as they are exactly if no accepted one joins statements across a
semicolon that is passed over. -/

namespace Interline

open Replacement

/-! ### Deleted bytes -/

namespace SourceModel

variable {m : SourceModel}

/-- Every byte that an edit deletes belongs to white space outside of the tokens. -/
def DeletesOnlySpace (m : SourceModel) (white : Char → Bool) (r : Replacement) : Prop :=
  ∀ n, r.start ≤ n → n < r.stop →
    (∃ c, Text.charAt? m.text.toList n = some c ∧ white c = true) ∧ ¬m.Covers n

theorem deletesOnlySpace_iff_lt {white : Char → Bool} {r : Replacement} :
    m.DeletesOnlySpace white r ↔ ∀ n < r.stop, r.start ≤ n →
      (Text.charAt? m.text.toList n).any white = true ∧ ¬m.Covers n := by
  unfold DeletesOnlySpace
  simp only [Option.any_eq_true]
  exact forall_congr' fun n => ⟨fun h hlt hle => h hle hlt, fun h hle hlt => h hlt hle⟩

instance (m : SourceModel) (white : Char → Bool) (r : Replacement) :
    Decidable (m.DeletesOnlySpace white r) :=
  decidable_of_iff _ deletesOnlySpace_iff_lt.symm

/-- Whether the last token of a statement is a semicolon that is passed over. -/
def PassesOver (m : SourceModel) (a : Nat) : Prop :=
  ∃ n l i, m.tree.node? a = some n ∧ m.tokens.lastIn n.span (fun _ => true) = some l ∧
    m.Guards n l i

/-- The texts of the tokens, in order. -/
def tokenTexts (m : SourceModel) : List (Option (List Char)) :=
  m.tokens.toList.map fun t => Text.slice? m.text.toList t.span.start t.span.stop

theorem tokenTexts_rebase_eq_iff {fixes : List Replacement} :
    (m.rebase fixes).tokenTexts = m.tokenTexts ↔ ∀ {i : Nat} {t : Token}, m.token? i = some t →
      Text.slice? (m.rebase fixes).text.toList
          (moved false 0 (accepted m.text.toList fixes) t.span.start)
          (moved true 0 (accepted m.text.toList fixes) t.span.stop) =
        Text.slice? m.text.toList t.span.start t.span.stop := by
  have e : (m.rebase fixes).tokens.toList = m.tokens.toList.map
      (Token.rebase (m.rebase fixes).text.toList (accepted m.text.toList fixes)) := rfl
  unfold tokenTexts
  rw [e, List.map_map, List.map_inj_left]
  constructor
  · intro h i t ht
    exact h t (List.mem_of_getElem? ht)
  · intro h t ht
    obtain ⟨i, ht⟩ := List.mem_iff_getElem?.1 ht
    exact h ht

theorem Placed.exists_slice (hp : m.Placed) {i : Nat} {t : Token} (ht : m.token? i = some t) :
    ∃ mid, Text.slice? m.text.toList t.span.start t.span.stop = some mid ∧
      Text.byteLength mid = t.span.length :=
  Text.exists_slice (hp.start ht) (hp.stop ht) (Nat.le_of_lt (hp.separate.width ht))

theorem Placed.exists_charAt? (hp : m.Placed) {i n : Nat} {t : Token} (ht : m.token? i = some t)
    (hn : n < t.span.start) : ∃ c, Text.charAt? m.text.toList n = some c := by
  obtain ⟨xs, ys, e, hx, -⟩ := Text.positionAt?_eq_some_iff.1 (hp.start ht)
  apply Text.exists_charAt?
  rw [e, Text.byteLength_append]
  omega

theorem deletesOnlySpace_of_insertion {white : Char → Bool} {r : Replacement}
    (h : r.stop = r.start) : m.DeletesOnlySpace white r :=
  fun _ hfront hback => absurd (h ▸ hback) (Nat.not_lt_of_le hfront)

/-- An edit that starts at the end of a token and deletes nothing but space spares all tokens. -/
theorem DeletesOnlySpace.spares (hp : m.Placed) {white : Char → Bool} {r : Replacement}
    (h : m.DeletesOnlySpace white r) {i : Nat} {t : Token} (ht : m.token? i = some t)
    (hstart : r.start = t.span.stop) {j : Nat} {u : Token} (hu : m.token? j = some u) :
    r.stop ≤ u.span.start ∨ u.span.stop ≤ r.start := by
  have hs := hp.separate
  rcases Nat.lt_or_ge i j with hij | hji
  · have hapart := hs.apart hij ht hu
    have hwidth := hs.width hu
    by_contra hno
    exact (h u.span.start (by omega) (by omega)).2 ⟨j, u, hu, Nat.le_refl _, hwidth⟩
  · have := hs.stop_le hji hu ht
    omega

end SourceModel

theorem Replacement.moved_of_cut {s e : Nat} (hse : s < e) {r : Replacement} (hs : r.start ≤ s)
    (he : e ≤ r.stop) : ∀ {rs : List Replacement} (k : Nat), rs.Pairwise Precedes → r ∈ rs →
      (∀ x ∈ rs, x.start ≤ x.stop) → moved true k rs e = moved false k rs s
  | x :: rs, k, hapart, hr, hle => by
      obtain ⟨hx, hrs⟩ := List.pairwise_cons.1 hapart
      unfold moved
      rcases List.mem_cons.1 hr with rfl | hr
      · have hrest : ∀ {ends : Bool} {p : Nat}, p ≤ r.stop → (ends = false → p < r.stop) →
            moved ends r.stop rs p = 0 := by
          intro ends p hp hpe
          cases rs with
          | nil =>
              unfold moved
              omega
          | cons y rs =>
              have := (hx y List.mem_cons_self).1
              unfold moved
              rw [if_neg (by
                cases ends <;> simp [isPassed] at hpe ⊢ <;> omega)]
              omega
        rw [if_pos (by simp [isPassed]; omega), if_pos (by simp [isPassed]; omega),
          hrest he (by simp), hrest (by omega) (fun _ => by omega)]
      · have hxr := hx r hr
        have := hxr.1
        have := hxr.2
        rw [if_pos (by simp [isPassed]; omega), if_pos (by simp [isPassed]; omega),
          moved_of_cut hse hs he x.stop hrs hr fun y hy => hle y (List.mem_cons_of_mem _ hy)]

/-! ### Fixes of a pair -/

theorem Repair.breakAfter_eq_some {m : SourceModel} {i : Nat} {blank : Bool} {r : Replacement}
    (h : breakAfter m i blank = some r) : ∃ t, m.token? i = some t ∧ r.start = t.span.stop ∧
      r.stop = t.span.stop ∧ ∀ c ∈ r.newText.toList, c = '\n' ∨ c = '\r' := by
  unfold breakAfter at h
  obtain ⟨t, ht, h⟩ := Option.bind_eq_some_iff.1 h
  cases h
  refine ⟨t, ht, rfl, rfl, fun c hc => ?_⟩
  have once_or_twice : ∀ {twice : Bool} {eol : List Char}, (∀ c ∈ eol, c = '\n' ∨ c = '\r') →
      c ∈ (if twice then eol ++ eol else eol) → c = '\n' ∨ c = '\r' := by
    intro twice eol heol hc
    split at hc
    · exact (List.mem_append.1 hc).elim (heol c) (heol c)
    · exact heol c hc
  rw [insertion, String.toList_ofList] at hc
  exact once_or_twice (fun c => Text.mem_newline) hc

namespace Policy

variable {p : Policy} {m : SourceModel} {white : Char → Bool}

theorem exists_break_of_propose {q : Requirement} {a b : Nat} {r : Replacement} (hq : q ≠ .never)
    (h : Repair.propose q m a b = .ok (some r)) :
    ∃ i blank, m.lastToken a = .ok i ∧ Repair.breakAfter m i blank = some r := by
  cases q with
  | any => cases h
  | never => exact absurd rfl hq
  | always =>
      obtain ⟨i, hi, hbreak⟩ := exists_of_bind_eq_ok h
      exact ⟨i, false, hi, Except.ok.inj hbreak⟩
  | blankLine =>
      obtain ⟨i, hi, hbreak⟩ := exists_of_bind_eq_ok h
      exact ⟨i, true, hi, Except.ok.inj hbreak⟩

/-- A fix breaks the line behind the last token of a statement, or joins it with the next one. -/
theorem fix_cases {q : Requirement} {a b : Nat} {r : Replacement}
    (h : Repair.propose q m a b = .ok (some r)) :
    ∃ i t, m.lastToken a = .ok i ∧ m.token? i = some t ∧ r.start = t.span.stop ∧
      (∀ c ∈ r.newText.toList, c = '\n' ∨ c = '\r') ∧
      ((q ≠ .never ∧ r.stop = r.start) ∨
        (q = .never ∧ ∃ f u, m.firstToken b = .ok f ∧ m.token? f = some u ∧
          r.stop = u.span.start ∧ (m.tokens.between i f true).any Token.isComment = false)) := by
  by_cases hq : q = .never
  · rw [hq] at h
    obtain ⟨i, f, t, u, hi, hf, ht, hu, hno, -, rfl⟩ := Repair.join_eq_some h
    exact ⟨i, t, hi, ht, rfl, by simp [removal], .inr ⟨hq, f, u, hf, hu, rfl, hno⟩⟩
  · obtain ⟨i, blank, hi, hbreak⟩ := exists_break_of_propose hq h
    obtain ⟨t, ht, hstart, hstop, hnew⟩ := Repair.breakAfter_eq_some hbreak
    exact ⟨i, t, hi, ht, hstart, hnew, .inl ⟨hq, by omega⟩⟩

theorem start_of_propose {q : Requirement} {a b i : Nat} {r : Replacement} {t : Token}
    (h : Repair.propose q m a b = .ok (some r)) (hi : m.lastToken a = .ok i)
    (ht : m.token? i = some t) : r.start = t.span.stop := by
  obtain ⟨i', t', hi', ht', hstart, -⟩ := fix_cases h
  cases hi.symm.trans hi'
  cases ht.symm.trans ht'
  exact hstart

section pair

variable (hm : m.Coherent NodeKind.isListItem) (hc : m.CommentsBetween) {a b : Nat}
  (hab : m.tree.Adjacent a b)
include hm hc hab

theorem not_covers_of_join {i f n : Nat} {t u : Token} (hi : m.lastToken a = .ok i)
    (hf : m.firstToken b = .ok f) (ht : m.token? i = some t) (hu : m.token? f = some u)
    (hno : (m.tokens.between i f true).any Token.isComment = false)
    (hpass : ¬m.PassesOver a) (hn : t.span.stop ≤ n) (hn' : n < u.span.start) : ¬m.Covers n := by
  rintro ⟨k, v, hv, hstart, hstop⟩
  have hs := hm.placed.separate
  obtain ⟨before, l, ha, hl⟩ := SourceModel.exists_lastIn hi
  obtain ⟨after, hb, hf⟩ := SourceModel.exists_firstIn hf
  rcases SourceModel.lastToken_cases ha hl hi with ⟨rfl, -⟩ | hg
  · have hik : i < k := hs.lt_of_stop_lt ht hv (by omega)
    have hkf : k < f := hs.lt_of_start_lt hv hu (by omega)
    cases hcode : v.isComment with
    | true =>
        have := TokenStore.any_between_iff.2 ⟨k, v, hik, hkf, hv, hcode⟩
        rw [hno] at this
        cases this
    | false =>
        have haft := hm.after_lastIn hc hab ha hb hl hf
        have := (TokenStore.after_eq_some_iff.1 haft).2 k hik
          ⟨v, hv, by simp [TokenStore.counts, hcode]⟩
        omega
  · exact hpass ⟨before, l, i, ha, hl, hg⟩

theorem exists_token_of_cut {q : Requirement} {r : Replacement} (hq : q = .never)
    (hpass : m.PassesOver a) (h : Repair.propose q m a b = .ok (some r)) :
    ∃ l s, m.token? l = some s ∧ r.start ≤ s.span.start ∧ s.span.stop ≤ r.stop := by
  have hs := hm.placed.separate
  obtain ⟨i, t, hi, ht, hstart, -, ⟨hno, -⟩ | ⟨-, f, u, hf, hu, hstop, -⟩⟩ := fix_cases h
  · exact absurd hq hno
  obtain ⟨before, l, j, ha, hl, hg⟩ := hpass
  obtain ⟨after, hb, hf⟩ := SourceModel.exists_firstIn hf
  rw [SourceModel.lastToken_of_guards ha hl hg] at hi
  cases hi
  -- The semicolon is between the two tokens that the join runs between.
  obtain ⟨s, -, -, -, hsl, -, hbef, -⟩ := hg
  obtain ⟨⟨hjl, -⟩, -⟩ := TokenStore.before_eq_some_iff.1 hbef
  have hlf := (TokenStore.after_eq_some_iff.1 (hm.after_lastIn hc hab ha hb hl hf)).1.1
  have := hs.apart hjl ht hsl
  have := hs.apart hlf hsl hu
  exact ⟨l, s, hsl, by omega, by omega⟩

variable (hw : m.Spaced white)
include hw

/-- A fix deletes nothing but space, unless it joins across a semicolon that is passed over. -/
theorem deletesOnlySpace_iff {q : Requirement} {r : Replacement}
    (h : Repair.propose q m a b = .ok (some r)) :
    m.DeletesOnlySpace white r ↔ ¬(q = .never ∧ m.PassesOver a) := by
  constructor
  · rintro hspace ⟨hq, hpass⟩
    obtain ⟨l, s, hsl, hstart, hstop⟩ := exists_token_of_cut hm hc hab hq hpass h
    have hwidth := hm.placed.separate.width hsl
    exact (hspace s.span.start hstart (by omega)).2 ⟨l, s, hsl, Nat.le_refl _, hwidth⟩
  intro hpass n hn hn'
  obtain ⟨i, t, hi, ht, hstart, -, ⟨-, hstop⟩ | ⟨hq, f, u, hf, hu, hstop, hno⟩⟩ := fix_cases h
  · omega
  · have hbare : ¬m.Covers n :=
      not_covers_of_join hm hc hab hi hf ht hu hno (fun h => hpass ⟨hq, h⟩) (by omega) (by omega)
    obtain ⟨c, hchar⟩ := hm.placed.exists_charAt? hu (n := n) (by omega)
    exact ⟨⟨c, hchar, (hw hchar).resolve_right hbare⟩, hbare⟩

end pair

/-! ### Fixes of a check -/

/-- Whether a report is on statements to be joined across a semicolon that is passed over. -/
def CutsSemicolon (m : SourceModel) (report : Report) : Prop :=
  report.requirement = .never ∧ m.PassesOver report.previous

section check

variable (hm : m.Coherent NodeKind.isListItem) (hc : m.CommentsBetween) {reports : List Report}
  (h : p.check m = .ok reports)
include hm h

theorem propose_of_mem {report : Report} (hr : report ∈ reports) :
    m.tree.Adjacent report.previous report.node ∧
      Repair.propose report.requirement m report.previous report.node = .ok report.fix := by
  obtain ⟨hab, -, -, hfix⟩ := reports_of_mem hm.grown.linked h hr
  exact ⟨hab, hfix⟩

omit hm h in
theorem exists_report {r : Replacement}
    (hr : r ∈ accepted m.text.toList (reports.filterMap Report.fix)) :
    ∃ report ∈ reports, report.fix = some r :=
  List.mem_filterMap.1 (mem_accepted hr).1

theorem spares_of_deletesOnlySpace
    (hspace : ∀ r ∈ accepted m.text.toList (reports.filterMap Report.fix),
      m.DeletesOnlySpace white r) :
    m.tokens.Spares (accepted m.text.toList (reports.filterMap Report.fix)) := by
  intro r hr j u hu
  obtain ⟨report, hmem, hfix⟩ := exists_report hr
  obtain ⟨-, hpropose⟩ := propose_of_mem hm h hmem
  rw [hfix] at hpropose
  obtain ⟨i, t, -, ht, hstart, -⟩ := fix_cases hpropose
  exact (hspace r hr).spares hm.placed ht hstart hu

theorem white_of_mem_newText (hends : ∀ c, c = '\n' ∨ c = '\r' → white c = true) {r : Replacement}
    (hr : r ∈ accepted m.text.toList (reports.filterMap Report.fix)) {c : Char}
    (hchar : c ∈ r.newText.toList) : white c = true := by
  obtain ⟨report, hmem, hfix⟩ := exists_report hr
  obtain ⟨-, hpropose⟩ := propose_of_mem hm h hmem
  rw [hfix] at hpropose
  obtain ⟨-, -, -, -, -, hnew, -⟩ := fix_cases hpropose
  exact hends c (hnew c hchar)

include hc

/-- **A semicolon that is cut out loses its text.** -/
theorem tokenTexts_ne_of_cut {report : Report} {r : Replacement} (hmem : report ∈ reports)
    (hfix : report.fix = some r)
    (hr : r ∈ accepted m.text.toList (reports.filterMap Report.fix))
    (hcut : CutsSemicolon m report) :
    (m.rebase (reports.filterMap Report.fix)).tokenTexts ≠ m.tokenTexts := by
  obtain ⟨hab, hpropose⟩ := propose_of_mem hm h hmem
  rw [hfix] at hpropose
  obtain ⟨l, s, hsl, hstart, hstop⟩ := exists_token_of_cut hm hc hab hcut.1 hcut.2 hpropose
  have hwidth := hm.placed.separate.width hsl
  intro heq
  have hsame := SourceModel.tokenTexts_rebase_eq_iff.1 heq hsl
  obtain ⟨mid, hmid, hlen⟩ := hm.placed.exists_slice hsl
  rw [hmid, moved_of_cut hwidth hstart hstop 0 (accepted_apart _ _) hr
    fun x hx => start_le_of_fits (mem_accepted hx).2] at hsame
  obtain ⟨xs, ys, -, hx, hy⟩ := Text.slice?_eq_some_iff.1 hsame
  unfold Span.length at hlen
  omega

variable (hw : m.Spaced white)
include hw

theorem spares_of_not_cuts (hcut : ∀ report ∈ reports, ∀ r, report.fix = some r →
      r ∈ accepted m.text.toList (reports.filterMap Report.fix) → ¬CutsSemicolon m report) :
    m.tokens.Spares (accepted m.text.toList (reports.filterMap Report.fix)) := by
  have hspace : ∀ r ∈ accepted m.text.toList (reports.filterMap Report.fix),
      m.DeletesOnlySpace white r := by
    intro r hr
    obtain ⟨report, hmem, hfix⟩ := exists_report hr
    obtain ⟨hab, hpropose⟩ := propose_of_mem hm h hmem
    rw [hfix] at hpropose
    exact (deletesOnlySpace_iff hm hc hab hw hpropose).2 (hcut report hmem r hfix hr)
  exact spares_of_deletesOnlySpace hm h hspace

end check

/-- **What the fixes of a check delete.**  A fix deletes nothing but white space outside of the
tokens, unless it joins statements across a semicolon that is passed over.  All fixes together leave
the texts of the tokens as they are exactly if no accepted one does that, and the new text is then
made of those tokens and white space. -/
theorem fixes_delete_iff (hm : m.Coherent NodeKind.isListItem) (hc : m.CommentsBetween)
    (hw : m.Spaced white) {reports : List Report} (h : p.check m = .ok reports) :
    (∀ report ∈ reports, ∀ r, report.fix = some r →
      (m.DeletesOnlySpace white r ↔ ¬CutsSemicolon m report)) ∧
    ((m.rebase (reports.filterMap Report.fix)).tokenTexts = m.tokenTexts ↔
      ∀ report ∈ reports, ∀ r, report.fix = some r →
        r ∈ accepted m.text.toList (reports.filterMap Report.fix) → ¬CutsSemicolon m report) ∧
    ((m.rebase (reports.filterMap Report.fix)).tokenTexts = m.tokenTexts →
      (m.rebase (reports.filterMap Report.fix)).Placed ∧
      ((∀ c, c = '\n' ∨ c = '\r' → white c = true) →
        (m.rebase (reports.filterMap Report.fix)).Spaced white)) := by
  have hcuts : (m.rebase (reports.filterMap Report.fix)).tokenTexts = m.tokenTexts →
      ∀ report ∈ reports, ∀ r, report.fix = some r →
        r ∈ accepted m.text.toList (reports.filterMap Report.fix) → ¬CutsSemicolon m report :=
    fun heq report hmem r hfix hr hcut => tokenTexts_ne_of_cut hm hc h hmem hfix hr hcut heq
  refine ⟨fun report hmem r hfix => ?_, ⟨hcuts, fun hcut => ?_⟩, fun heq => ?_⟩
  · obtain ⟨hab, hpropose⟩ := propose_of_mem hm h hmem
    rw [hfix] at hpropose
    exact deletesOnlySpace_iff hm hc hab hw hpropose
  · have hspares := spares_of_not_cuts hm hc h hw hcut
    exact SourceModel.tokenTexts_rebase_eq_iff.2 (SourceModel.slice?_rebase hm.placed hspares)
  · have hspares := spares_of_not_cuts hm hc h hw (hcuts heq)
    exact ⟨hm.placed.rebase hspares, fun hends =>
      SourceModel.Spaced.rebase hm.placed hspares hw fun r hr c hchar =>
        white_of_mem_newText hm h hends hr hchar⟩

/-- Statements that are two lines apart. -/
def apart : SourceModel :=
  .ofOffsets "if (a) \x7b\x7d\n\nb"
    [⟨.keyword, 0, 2, none⟩, ⟨.punctuator, 3, 4, none⟩, ⟨.identifier, 4, 5, none⟩,
      ⟨.punctuator, 5, 6, none⟩, ⟨.punctuator, 7, 8, none⟩, ⟨.punctuator, 8, 9, some .block⟩,
      ⟨.identifier, 11, 12, none⟩]
    [⟨0, .statement .conditional, 0, 9⟩, ⟨1, .statement .block, 7, 9⟩,
      ⟨0, .statement (.expression false), 11, 12⟩] (by decide)

theorem fixes_delete_apart :
    apart.Coherent NodeKind.isListItem ∧ apart.CommentsBetween ∧
    apart.Spaced JavaScript.isSpace ∧
    check ⟨[⟨.never, .single .any, .single .any⟩]⟩ apart =
      .ok [⟨1, 3, .never, some (.removal 9 11)⟩] ∧
    apart.DeletesOnlySpace JavaScript.isSpace (.removal 9 11) ∧
    (apart.rebase [.removal 9 11]).tokenTexts = apart.tokenTexts := by
  have hpairs : apart.tree.pairs = [(1, 3)] := by decide +kernel
  have hm : apart.Coherent NodeKind.isListItem :=
    ⟨SourceModel.grown_ofOffsets _, by decide +kernel, by decide +kernel, by decide +kernel⟩
  have hc : apart.CommentsBetween := by
    rw [SourceModel.commentsBetween_iff hm.grown, hpairs]
    decide +kernel
  have hw : apart.Spaced JavaScript.isSpace := by decide +kernel
  have hcheck : check ⟨[⟨.never, .single .any, .single .any⟩]⟩ apart =
      .ok [⟨1, 3, .never, some (.removal 9 11)⟩] := by
    rw [check_eq hm.grown.linked rfl, hpairs]
    cbv
  -- The first statement ends with its brace.
  have hlast : apart.tokens.lastIn ⟨0, 9, ⟨1, 0⟩, ⟨1, 9⟩⟩ (fun _ => true) = some 5 := by
    decide +kernel
  have hkeeps : ¬CutsSemicolon apart ⟨1, 3, .never, some (.removal 9 11)⟩ := by
    rintro ⟨-, n, l, i, hn, hl, s, _, _, _, hs, hsemi, -⟩
    cases hn
    cases hlast.symm.trans hl
    cases hs
    cases hsemi
  obtain ⟨hone, hall, -⟩ := fixes_delete_iff hm hc hw hcheck
  refine ⟨hm, hc, hw, hcheck, (hone _ (List.mem_singleton.2 rfl) _ rfl).2 hkeeps,
    hall.2 fun report hmem r _ _ => ?_⟩
  rw [List.mem_singleton.1 hmem]
  exact hkeeps

/-- A semicolon that guards the next line.  It is passed over, and the brace in front of it closes a
body, that of a function. -/
def guardedCall : SourceModel :=
  .ofOffsets "if (a) x = function () \x7b\x7d\n;foo()"
    [⟨.keyword, 0, 2, none⟩, ⟨.punctuator, 3, 4, none⟩, ⟨.identifier, 4, 5, none⟩,
      ⟨.punctuator, 5, 6, none⟩, ⟨.identifier, 7, 8, none⟩, ⟨.punctuator, 9, 10, none⟩,
      ⟨.keyword, 11, 19, none⟩, ⟨.punctuator, 20, 21, none⟩, ⟨.punctuator, 21, 22, none⟩,
      ⟨.punctuator, 23, 24, none⟩, ⟨.punctuator, 24, 25, some .block⟩,
      ⟨.punctuator, 26, 27, none⟩, ⟨.identifier, 27, 30, none⟩, ⟨.punctuator, 30, 31, none⟩,
      ⟨.punctuator, 31, 32, none⟩]
    [⟨0, .statement .conditional, 0, 27⟩, ⟨1, .statement (.expression false), 7, 27⟩,
      ⟨2, .other, 11, 25⟩, ⟨3, .statement .block, 23, 25⟩,
      ⟨0, .statement (.expression false), 27, 32⟩] (by decide)

theorem not_fixes_delete_guardedCall :
    guardedCall.Coherent NodeKind.isListItem ∧ guardedCall.CommentsBetween ∧
    guardedCall.Spaced JavaScript.isSpace ∧
    check ⟨[⟨.never, .single .any, .single .any⟩]⟩ guardedCall =
      .ok [⟨1, 5, .never, some (.removal 25 27)⟩] ∧
    ¬guardedCall.DeletesOnlySpace JavaScript.isSpace (.removal 25 27) ∧
    (guardedCall.rebase [.removal 25 27]).tokenTexts ≠ guardedCall.tokenTexts := by
  have hpairs : guardedCall.tree.pairs = [(1, 5)] := by decide +kernel
  have hm : guardedCall.Coherent NodeKind.isListItem :=
    ⟨SourceModel.grown_ofOffsets _, by decide +kernel, by decide +kernel, by decide +kernel⟩
  have hc : guardedCall.CommentsBetween := by
    rw [SourceModel.commentsBetween_iff hm.grown, hpairs]
    decide +kernel
  have hcheck : check ⟨[⟨.never, .single .any, .single .any⟩]⟩ guardedCall =
      .ok [⟨1, 5, .never, some (.removal 25 27)⟩] := by
    rw [check_eq hm.grown.linked rfl, hpairs]
    cbv
  refine ⟨hm, hc, by decide +kernel, hcheck, fun hspace => ?_, by decide +kernel⟩
  exact (hspace 26 (by decide) (by decide)).2 ⟨11, _, rfl, by decide +kernel, by decide +kernel⟩

end Policy

end Interline
