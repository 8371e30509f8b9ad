import Mathlib
import Interline.Proofs.FixPlaces

/-! # Fixes that share a place

The fixes of a check are anchored at the ends of statements.  No statement ends between the last
token of another one and what follows it (`Coherent.le_of_lt_lastToken`), so two fixes are apart
unless they start at one place, and of those that do one is applied.

`Policy.fixes_compatible` states this for a whole check, and says when two fixes start at one place:
one statement hands its semicolon over to the next line, and the other one's neighbour starts with
that semicolon (`Coherent.handsOver_of_common_end`). -/

namespace Interline

open Replacement

/-! ### Ends of statements -/

namespace SourceModel

variable {m : SourceModel}

/-- Statement `a` passes over the semicolon that it ends with, and statement `d` starts with it. -/
def HandsOver (m : SourceModel) (a d : Nat) : Prop :=
  ∃ n l i, m.tree.node? a = some n ∧ m.tokens.lastIn n.span (fun _ => true) = some l ∧
    m.Guards n l i ∧ m.firstToken d = .ok l

theorem not_passesOver {a l : Nat} {n : Node} (ha : m.tree.node? a = some n)
    (hl : m.tokens.lastIn n.span (fun _ => true) = some l) (h : ∀ i, ¬m.Guards n l i) :
    ¬m.PassesOver a := by
  rintro ⟨n', l', i, ha', hl', hg⟩
  rw [ha] at ha'
  cases ha'
  rw [hl] at hl'
  cases hl'
  exact h i hg

namespace Coherent

variable (hm : m.Coherent NodeKind.isListItem) (hc : m.CommentsBetween) {a b c d i : Nat}
  (hab : m.tree.Adjacent a b) (hcd : m.tree.Adjacent c d)
include hm hc hab hcd

theorem le_of_lt_lastToken {f j : Nat} (hi : m.lastToken a = .ok i) (hf : m.firstToken b = .ok f)
    (hj : m.lastToken c = .ok j) (hij : i < j) : f ≤ j := by
  obtain ⟨before, l, ha, hl⟩ := exists_lastIn hi
  obtain ⟨after, hb, hf⟩ := exists_firstIn hf
  obtain ⟨_, after', _, f', _, hd, -, -, -, -, hf', -⟩ := hm.ends hcd
  obtain ⟨-, hcode⟩ := hm.lastToken_lt hcd hj (firstToken_eq hd hf')
  obtain ⟨-, hmin⟩ := TokenStore.after_eq_some_iff.1 (hm.after_lastIn hc hab ha hb hl hf)
  rcases lastToken_cases ha hl hi with ⟨rfl, -⟩ | hg
  · exact hmin j hij hcode
  · -- Behind the token that is read as the last one there is the semicolon, which ends nothing.
    obtain ⟨-, -, -, -, -, -, hbef, -⟩ := id hg
    obtain ⟨-, hmax⟩ := TokenStore.before_eq_some_iff.1 hbef
    rcases Nat.lt_trichotomy j l with hlt | rfl | hgt
    · have := hmax j hlt hcode
      omega
    · exact absurd hj (hm.lastToken_ne_of_guards hab hcd ha hl hg)
    · exact hmin j hgt hcode

/-- If two statements end with one token, one of them hands its semicolon over to what follows the
other. -/
theorem handsOver_of_common_end (hne : a ≠ c) (hai : m.lastToken a = .ok i)
    (hci : m.lastToken c = .ok i) :
    (m.HandsOver a d ∧ ¬m.PassesOver c) ∨ (m.HandsOver c b ∧ ¬m.PassesOver a) := by
  obtain ⟨na, la, hna, hla⟩ := exists_lastIn hai
  obtain ⟨nc, lc, hnc, hlc⟩ := exists_lastIn hci
  obtain ⟨_, nb, _, fb, _, hb, -, -, -, -, hfb, -⟩ := hm.ends hab
  obtain ⟨_, nd, _, fd, _, hd, -, -, -, -, hfd, -⟩ := hm.ends hcd
  rcases lastToken_cases hna hla hai with ⟨rfl, hnoa⟩ | hga
  · rcases lastToken_cases hnc hlc hci with ⟨rfl, -⟩ | hgc
    · exact absurd (hm.eq_of_lastIn hab hcd hna hnc hla hlc) hne
    · obtain ⟨-, -, -, -, -, -, hbef, -⟩ := id hgc
      have haf := hm.after_lastIn hc hab hna hb hla hfb
      obtain rfl := TokenStore.after_of_before hbef hgc.countsAt haf
      exact .inr ⟨⟨nc, fb, i, hnc, hlc, hgc, firstToken_eq hb hfb⟩, not_passesOver hna hla hnoa⟩
  · rcases lastToken_cases hnc hlc hci with ⟨rfl, hnoc⟩ | hgc
    · obtain ⟨-, -, -, -, -, -, hbef, -⟩ := id hga
      have haf := hm.after_lastIn hc hcd hnc hd hlc hfd
      obtain rfl := TokenStore.after_of_before hbef hga.countsAt haf
      exact .inl ⟨⟨na, fd, i, hna, hla, hga, firstToken_eq hd hfd⟩, not_passesOver hnc hlc hnoc⟩
    · obtain ⟨-, -, -, -, -, -, hba, -⟩ := id hga
      obtain ⟨-, -, -, -, -, -, hbc, -⟩ := id hgc
      obtain rfl := TokenStore.before_inj hba hbc hga.countsAt hgc.countsAt
      exact absurd (hm.eq_of_lastIn hab hcd hna hnc hla hlc) hne

end Coherent

end SourceModel

/-! ### Two fixes -/

namespace Policy

variable {p : Policy} {m : SourceModel}

theorem one_le_of_common_end (hm : m.Coherent NodeKind.isListItem) (hc : m.CommentsBetween)
    {a b c d i k : Nat} {q : Requirement} (hab : m.tree.Adjacent a b) (hcd : m.tree.Adjacent c d)
    (hne : a ≠ c) (hai : m.lastToken a = .ok i) (hci : m.lastToken c = .ok i)
    (hj : p.judge m (c, d) = .ok (q, k)) : 1 ≤ k := by
  obtain ⟨-, f, -, hf, -⟩ := Linebreaks.count_eq_ok (judge_eq_ok hj).2
  obtain ⟨-, t, ht, -⟩ := hm.lastToken_lt hcd hci hf
  obtain ⟨u, hu⟩ := SourceModel.exists_token_of_firstToken hm.placed.separate hf
  rw [linebreaks_of_judge hj hci hf, Linebreaks.one_le_betweenTokens_iff ht hu]
  exact hm.lines_of_common_end hc hab hcd hne hai hci hf ht hu

section pairs

variable (hm : m.Coherent NodeKind.isListItem) {a b c d : Nat} (hab : m.tree.Adjacent a b)
  (hcd : m.tree.Adjacent c d) {q q' : Requirement} {r r' : Replacement}
  (h : Repair.propose q m a b = .ok (some r)) (h' : Repair.propose q' m c d = .ok (some r'))
include hm hab h

theorem fits_of_propose : r.fits m.text.toList = true := by
  obtain ⟨i, t, hi, ht, -⟩ := fix_cases h
  obtain ⟨_, after, _, f, _, hb, -, -, -, -, hf, -⟩ := hm.ends hab
  have hf := SourceModel.firstToken_eq hb hf
  obtain ⟨u, hu⟩ := SourceModel.exists_token_of_firstToken hm.placed.separate hf
  exact Repair.fits_of_propose hm.placed.separate h hi ht hf hu (hm.lastToken_lt hab hi hf).1
    hm.placed.onBoundaries

include hcd h'

omit hab hcd in
theorem start_eq_iff : r.start = r'.start ↔ m.lastToken a = m.lastToken c := by
  obtain ⟨i, t, hi, ht, hstart, -⟩ := fix_cases h
  obtain ⟨j, u, hj, hu, hstart', -⟩ := fix_cases h'
  rw [hi, hj]
  constructor
  · intro he
    rw [hm.placed.separate.eq_of_stop_eq ht hu (by omega)]
  · intro he
    cases he
    rw [ht] at hu
    cases hu
    omega

/-- Of two fixes the one behind the earlier token ends before the other one starts. -/
theorem precedes_of_lt (hc : m.CommentsBetween) {i j : Nat} (hi : m.lastToken a = .ok i)
    (hj : m.lastToken c = .ok j) (hij : i < j) : r.Precedes r' := by
  have hs := hm.placed.separate
  obtain ⟨i', t, hi', ht, hstart, -, hstop⟩ := fix_cases h
  obtain ⟨j', u, hj', hu, hstart', -⟩ := fix_cases h'
  rw [hi] at hi'
  cases hi'
  rw [hj] at hj'
  cases hj'
  have hlt := hs.stop_lt hij ht hu
  unfold Precedes
  rcases hstop with ⟨-, hstop⟩ | ⟨-, f, v, hf, hv, hstop, -⟩
  · omega
  · have hfj := hm.le_of_lt_lastToken hc hab hcd hi hf hj hij
    have hw := hs.width hv
    have := hs.stop_le hfj hv hu
    omega

end pairs

/-! ### All fixes -/

section check

variable (hm : m.Coherent NodeKind.isListItem) (hlab : m.LabelsHold) (hc : m.CommentsBetween)
  {reports : List Report} (h : p.check m = .ok reports)
include hm h

theorem fits_of_mem : ∀ r ∈ reports.filterMap Report.fix, r.fits m.text.toList = true := by
  intro r hr
  obtain ⟨report, hmem, hfix⟩ := List.mem_filterMap.1 hr
  obtain ⟨hab, hpropose⟩ := propose_of_mem hm h hmem
  exact fits_of_propose hm hab (hfix ▸ hpropose)

include hc

theorem compatible_fixes : Compatible (reports.filterMap Report.fix) := by
  intro r hr r' hr'
  obtain ⟨report, hmem, hfix⟩ := List.mem_filterMap.1 hr
  obtain ⟨report', hmem', hfix'⟩ := List.mem_filterMap.1 hr'
  obtain ⟨hab, hpropose⟩ := propose_of_mem hm h hmem
  obtain ⟨hcd, hpropose'⟩ := propose_of_mem hm h hmem'
  rw [hfix] at hpropose
  rw [hfix'] at hpropose'
  obtain ⟨i, -, hi, -⟩ := fix_cases hpropose
  obtain ⟨j, -, hj, -⟩ := fix_cases hpropose'
  rcases Nat.lt_trichotomy i j with hlt | rfl | hgt
  · exact .inr (.inl (precedes_of_lt hm hab hcd hpropose hpropose' hc hi hj hlt))
  · exact .inl ((start_eq_iff hm hpropose hpropose').2 (hi.trans hj.symm))
  · exact .inr (.inr (precedes_of_lt hm hcd hab hpropose' hpropose hc hj hi hgt))

include hlab

omit hc in
theorem nodup_starts_iff : ((reports.filterMap Report.fix).map start).Nodup ↔
    ∀ R ∈ reports, ∀ R' ∈ reports, R.fix.isSome = true → R'.fix.isSome = true →
      m.lastToken R.previous = m.lastToken R'.previous → R = R' := by
  unfold List.Nodup
  rw [List.pairwise_map, List.pairwise_filterMap]
  constructor
  · intro hpair R hR R' hR' hsome hsome' hlast
    by_contra hne
    obtain ⟨r, hr⟩ := Option.isSome_iff_exists.1 hsome
    obtain ⟨r', hr'⟩ := Option.isSome_iff_exists.1 hsome'
    obtain ⟨hab, hpropose⟩ := propose_of_mem hm h hR
    obtain ⟨hcd, hpropose'⟩ := propose_of_mem hm h hR'
    have hsame := (start_eq_iff hm (hr ▸ hpropose) (hr' ▸ hpropose')).2 hlast
    have : Std.Symm fun x y : Report => ∀ s, x.fix = some s → ∀ t, y.fix = some t →
        s.start ≠ t.start := ⟨fun x y hxy t ht s hs => (hxy s hs t ht).symm⟩
    exact hpair.forall hR hR' hne r hr r' hr' hsame
  · intro hall
    refine (nodup_reports hm hlab h).pairwise_of_forall_ne fun R hR R' hR' hne r hr r' hr' he => ?_
    obtain ⟨hab, hpropose⟩ := propose_of_mem hm h hR
    obtain ⟨hcd, hpropose'⟩ := propose_of_mem hm h hR'
    exact hne (hall R hR R' hR' (Option.isSome_iff_exists.2 ⟨r, hr⟩)
      (Option.isSome_iff_exists.2 ⟨r', hr'⟩)
      ((start_eq_iff hm (hr ▸ hpropose) (hr' ▸ hpropose')).1 he))

theorem ne_always_of_start_eq {R R' : Report} {r r' : Replacement} (hR : R ∈ reports)
    (hR' : R' ∈ reports) (hr : R.fix = some r) (hr' : R'.fix = some r') (hne : R ≠ R')
    (he : r.start = r'.start) : R'.requirement ≠ .always := by
  obtain ⟨hab, -, hpropose⟩ := violation_of_mem hm hlab h hR
  obtain ⟨hcd, ⟨k, hj, hs⟩, hpropose'⟩ := violation_of_mem hm hlab h hR'
  rw [hr] at hpropose
  rw [hr'] at hpropose'
  have hlast := (start_eq_iff hm hpropose hpropose').1 he
  obtain ⟨i, -, hi, -⟩ := fix_cases hpropose
  have hone := one_le_of_common_end hm hc hab hcd
    (fun hsame => hne (eq_of_previous hm hlab h hR hR' hsame)) hi (hlast.symm.trans hi) hj
  intro halways
  rw [halways] at hs
  simp only [Requirement.isSatisfiedBy, decide_eq_false_iff_not] at hs
  exact hs hone

end check

/-- **The fixes of a check go together, but for those at one place.**  Each fits the text, and two
of them are apart or start at one offset.  One fix is applied for each offset, and so all of them
exactly if no two are behind the same token.  If two are, one of the statements in front hands its
semicolon over to the neighbour of the other one, which keeps its own, and neither pair asks for a
single line break. -/
theorem fixes_compatible (hm : m.Coherent NodeKind.isListItem) (hlab : m.LabelsHold)
    (hc : m.CommentsBetween) {reports : List Report} (h : p.check m = .ok reports) :
    (∀ r ∈ reports.filterMap Report.fix, r.fits m.text.toList = true) ∧
    Compatible (reports.filterMap Report.fix) ∧
    (applyAll m.text (reports.filterMap Report.fix)).applied =
      ((reports.filterMap Report.fix).map start).dedup.length ∧
    (applyAll m.text (reports.filterMap Report.fix)).applied +
      (applyAll m.text (reports.filterMap Report.fix)).skipped =
        (reports.filterMap Report.fix).length ∧
    ((applyAll m.text (reports.filterMap Report.fix)).skipped = 0 ↔
      ∀ R ∈ reports, ∀ R' ∈ reports, R.fix.isSome = true → R'.fix.isSome = true →
        m.lastToken R.previous = m.lastToken R'.previous → R = R') ∧
    ∀ R ∈ reports, ∀ R' ∈ reports, ∀ r r', R.fix = some r → R'.fix = some r' → R ≠ R' →
      r.start = r'.start →
        R.requirement ≠ .always ∧ R'.requirement ≠ .always ∧
        ((m.HandsOver R.previous R'.node ∧ ¬m.PassesOver R'.previous) ∨
          (m.HandsOver R'.previous R.node ∧ ¬m.PassesOver R.previous)) := by
  have hfits := fits_of_mem hm h
  have hcomp := compatible_fixes hm hc h
  have happlied : (applyAll m.text (reports.filterMap Report.fix)).applied =
      ((reports.filterMap Report.fix).map start).dedup.length := length_accepted hcomp hfits
  have hle := (List.dedup_sublist ((reports.filterMap Report.fix).map start)).length_le
  have hsum : (applyAll m.text (reports.filterMap Report.fix)).applied +
      (applyAll m.text (reports.filterMap Report.fix)).skipped =
        (reports.filterMap Report.fix).length := by
    rw [List.length_map, ← happlied] at hle
    exact Nat.add_sub_of_le hle
  refine ⟨hfits, hcomp, happlied, hsum, ?_, ?_⟩
  · rw [← nodup_starts_iff hm hlab h, ← List.dedup_eq_self]
    constructor
    · intro hzero
      apply (List.dedup_sublist _).eq_of_length
      rw [← happlied, List.length_map]
      omega
    · intro hself
      rw [hself, List.length_map] at happlied
      omega
  · intro R hR R' hR' r r' hr hr' hne he
    obtain ⟨hab, hpropose⟩ := propose_of_mem hm h hR
    obtain ⟨hcd, hpropose'⟩ := propose_of_mem hm h hR'
    rw [hr] at hpropose
    rw [hr'] at hpropose'
    obtain ⟨i, -, hi, -⟩ := fix_cases hpropose
    have hlast := (start_eq_iff hm hpropose hpropose').1 he
    refine ⟨ne_always_of_start_eq hm hlab hc h hR' hR hr' hr (fun e => hne e.symm) he.symm,
      ne_always_of_start_eq hm hlab hc h hR hR' hr hr' hne he, ?_⟩
    exact hm.handsOver_of_common_end hc hab hcd
      (fun hsame => hne (eq_of_previous hm hlab h hR hR' hsame)) hi (hlast.symm.trans hi)

/-- A clause that hands its empty statement over to the next line, behind a block. -/
def emptyBehindBlock : SourceModel :=
  .ofOffsets "switch(a)\x7bcase 1:\x7b\x7d\n;case 2:c\x7d"
    [⟨.keyword, 0, 6, none⟩, ⟨.punctuator, 6, 7, none⟩, ⟨.identifier, 7, 8, none⟩,
      ⟨.punctuator, 8, 9, none⟩, ⟨.punctuator, 9, 10, none⟩, ⟨.keyword, 10, 14, none⟩,
      ⟨.numeric, 15, 16, none⟩, ⟨.punctuator, 16, 17, none⟩, ⟨.punctuator, 17, 18, none⟩,
      ⟨.punctuator, 18, 19, some .block⟩, ⟨.punctuator, 20, 21, none⟩, ⟨.keyword, 21, 25, none⟩,
      ⟨.numeric, 26, 27, none⟩, ⟨.punctuator, 27, 28, none⟩, ⟨.identifier, 28, 29, none⟩,
      ⟨.punctuator, 29, 30, some .switch⟩]
    [⟨0, .statement .switch, 0, 30⟩, ⟨1, .switchCase, 10, 21⟩, ⟨2, .statement .block, 17, 19⟩,
      ⟨2, .statement .empty, 20, 21⟩, ⟨1, .switchCase, 21, 29⟩,
      ⟨5, .statement (.expression false), 28, 29⟩] (by decide)

theorem emptyBehindBlock_model :
    emptyBehindBlock.Coherent NodeKind.isListItem ∧ emptyBehindBlock.LabelsHold ∧
    emptyBehindBlock.CommentsBetween ∧ emptyBehindBlock.Spaced JavaScript.isSpace ∧
    emptyBehindBlock.tree.pairs = [(3, 4), (2, 5)] := by
  have hm : emptyBehindBlock.Coherent NodeKind.isListItem :=
    ⟨SourceModel.grown_ofOffsets _, by decide +kernel, by decide +kernel, by decide +kernel⟩
  have hpairs : emptyBehindBlock.tree.pairs = [(3, 4), (2, 5)] := by decide +kernel
  refine ⟨hm, by decide +kernel, ?_, by decide +kernel, hpairs⟩
  rw [SourceModel.commentsBetween_iff hm.grown, hpairs]
  decide +kernel

theorem check_emptyBehindBlock :
    check ⟨[⟨.blankLine, .single .any, .single .any⟩]⟩ emptyBehindBlock =
      .ok [⟨3, 4, .blankLine, some (.insertion 19 "\n")⟩,
        ⟨2, 5, .blankLine, some (.insertion 19 "\n")⟩] := by
  obtain ⟨hm, -, -, -, hpairs⟩ := emptyBehindBlock_model
  rw [check_eq hm.grown.linked rfl, hpairs]
  cbv

theorem fixes_compatible_emptyBehindBlock :
    emptyBehindBlock.Coherent NodeKind.isListItem ∧ emptyBehindBlock.LabelsHold ∧
    emptyBehindBlock.CommentsBetween ∧
    check ⟨[⟨.blankLine, .single .any, .single .any⟩]⟩ emptyBehindBlock =
      .ok [⟨3, 4, .blankLine, some (.insertion 19 "\n")⟩,
        ⟨2, 5, .blankLine, some (.insertion 19 "\n")⟩] ∧
    Compatible [.insertion 19 "\n", .insertion 19 "\n"] ∧
    (applyAll emptyBehindBlock.text [.insertion 19 "\n", .insertion 19 "\n"]).applied =
      [19, 19].dedup.length ∧
    ((emptyBehindBlock.HandsOver 3 5 ∧ ¬emptyBehindBlock.PassesOver 2) ∨
      (emptyBehindBlock.HandsOver 2 4 ∧ ¬emptyBehindBlock.PassesOver 3)) := by
  obtain ⟨hm, hlab, hc, -, -⟩ := emptyBehindBlock_model
  obtain ⟨-, hcomp, happlied, -, -, hshare⟩ := fixes_compatible hm hlab hc check_emptyBehindBlock
  refine ⟨hm, hlab, hc, check_emptyBehindBlock, hcomp, happlied, ?_⟩
  exact (hshare _ List.mem_cons_self _ (List.mem_cons_of_mem _ List.mem_cons_self) _ _ rfl rfl
    (by simp) rfl).2.2

/-- Of the two line breaks that are to go behind the block one is left out. -/
theorem not_all_applied_emptyBehindBlock :
    emptyBehindBlock.Coherent NodeKind.isListItem ∧ emptyBehindBlock.LabelsHold ∧
    emptyBehindBlock.CommentsBetween ∧ emptyBehindBlock.Spaced JavaScript.isSpace ∧
    check ⟨[⟨.blankLine, .single .any, .single .any⟩]⟩ emptyBehindBlock =
      .ok [⟨3, 4, .blankLine, some (.insertion 19 "\n")⟩,
        ⟨2, 5, .blankLine, some (.insertion 19 "\n")⟩] ∧
    (applyAll emptyBehindBlock.text [.insertion 19 "\n", .insertion 19 "\n"]).applied = 1 ∧
    (applyAll emptyBehindBlock.text [.insertion 19 "\n", .insertion 19 "\n"]).skipped = 1 := by
  obtain ⟨hm, hlab, hc, hspaced, -⟩ := emptyBehindBlock_model
  exact ⟨hm, hlab, hc, hspaced, check_emptyBehindBlock, by cbv, by cbv⟩

end Policy

end Interline
