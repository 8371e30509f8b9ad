import Mathlib
import Interline.Proofs.OnePass

/-! # Passes come to an end

Where a policy tells statements apart by the lines that they span, the fixes of one check can be the
reason for new reports of the next one.  If the policy never forbids line breaks, this comes to an
end (`Policy.passes_end`).

A pass lowers the count of no pair (`SourceModel.Widens`), and raises the sum of all counts if it has
something to report (`Policy.total_lt_of_reports`).  No count is above two, so the sum,
`totalLinebreaks`, leaves room for two passes a pair. -/

namespace Interline

open Replacement

/-! ### Sums of line breaks -/

namespace SourceModel

variable {m m' : SourceModel}

/-- The line breaks of a pair; none, if they cannot be counted. -/
def linebreaks (m : SourceModel) (pair : Nat × Nat) : Nat :=
  match Linebreaks.count m pair.1 pair.2 with
  | .ok k => k
  | .error _ => 0

/-- The line breaks of all pairs together. -/
def totalLinebreaks (m : SourceModel) : Nat := (m.tree.pairs.map m.linebreaks).sum

theorem linebreaks_eq {a b k : Nat} (h : Linebreaks.count m a b = .ok k) :
    m.linebreaks (a, b) = k := by
  unfold linebreaks
  rw [h]

theorem linebreaks_le_two (pair : Nat × Nat) : m.linebreaks pair ≤ 2 := by
  unfold linebreaks
  split
  next k h =>
    obtain ⟨i, f, -, -, rfl⟩ := Linebreaks.count_eq_ok h
    exact Linebreaks.betweenTokens_le_two m.tokens i f
  next => exact Nat.zero_le 2

theorem totalLinebreaks_le : m.totalLinebreaks ≤ 2 * m.tree.pairs.length := by
  have h := List.sum_le_card_nsmul (m.tree.pairs.map m.linebreaks) 2 fun k hk => by
    obtain ⟨pair, -, rfl⟩ := List.mem_map.1 hk
    exact linebreaks_le_two pair
  rw [List.length_map, smul_eq_mul] at h
  unfold totalLinebreaks
  omega

/-- The second model has the same pairs as the first, and none of them stands closer together. -/
structure Widens (m m' : SourceModel) : Prop where
  pairs : m'.tree.pairs.Perm m.tree.pairs
  count : ∀ {a b : Nat}, m.tree.Adjacent a b → ∃ k k', Linebreaks.count m a b = .ok k ∧
    Linebreaks.count m' a b = .ok k' ∧ k ≤ k'

theorem Widens.total_lt (h : m.Widens m') (hl : m.tree.Linked) {a b k k' : Nat}
    (hab : m.tree.Adjacent a b) (hk : Linebreaks.count m a b = .ok k)
    (hk' : Linebreaks.count m' a b = .ok k') (hlt : k < k') :
    m.totalLinebreaks < m'.totalLinebreaks := by
  unfold totalLinebreaks
  rw [(h.pairs.map m'.linebreaks).sum_eq]
  apply List.sum_lt_sum
  · rintro ⟨c, d⟩ hcd
    obtain ⟨n, n', hn, hn', hle⟩ := h.count ((SyntaxTree.mem_pairs_iff hl).1 hcd)
    rw [linebreaks_eq hn, linebreaks_eq hn']
    exact hle
  · refine ⟨(a, b), (SyntaxTree.mem_pairs_iff hl).2 hab, ?_⟩
    rw [linebreaks_eq hk, linebreaks_eq hk']
    exact hlt

end SourceModel

namespace Policy

variable {p : Policy} {m : SourceModel}

/-! ### One pass -/

namespace Pass

variable {fixes : List Replacement} (hm : m.Coherent NodeKind.isListItem)
  (hpass : p.Pass m fixes)
include hm hpass

theorem betweenTokens_le {i f : Nat} {t u : Token} (hif : i < f) (ht : m.token? i = some t)
    (hu : m.token? f = some u) :
    Linebreaks.betweenTokens m.tokens i f ≤
      Linebreaks.betweenTokens (m.rebase fixes).tokens i f := by
  obtain ⟨t', ht', -, -, htstop⟩ := hpass.token?_lines hm ht
  obtain ⟨u', hu', -, hustart, -⟩ := hpass.token?_lines hm hu
  have hadd := hm.placed.separate.addedLines_le (accepted m.text.toList fixes)
    (Nat.le_of_lt hif) ht hu
  have hplaced := SourceModel.Placed.rebase hm.placed (hpass.spares hm)
  have hone := Linebreaks.one_le_betweenTokens_iff ht hu
  have hone' := Linebreaks.one_le_betweenTokens_iff ht' hu'
  have htwo : 2 ≤ Linebreaks.betweenTokens m.tokens i f →
      2 ≤ Linebreaks.betweenTokens (m.rebase fixes).tokens i f := by
    rw [Linebreaks.two_le_betweenTokens_iff hm.placed.ascending hm.placed.lined ht hu hif,
      Linebreaks.two_le_betweenTokens_iff hplaced.ascending hplaced.lined ht' hu' hif]
    rintro ⟨j, hij, hjf, hleaves⟩
    exact ⟨j, hij, hjf, hpass.leavesLine_of_leavesLine hm hleaves⟩
  have := Linebreaks.betweenTokens_le_two m.tokens i f
  omega

/-- No pair comes closer together, however its semicolon is read. -/
theorem widens (hlab : m.LabelsHold) (hc : m.CommentsBetween) : m.Widens (m.rebase fixes) where
  pairs := .of_eq SyntaxTree.pairs_rebase
  count := by
    intro a b hab
    obtain ⟨⟨q, k⟩, hj⟩ := exists_verdict hm hlab p hab
    obtain ⟨before, after, l, f, ha, hb, -, -, -, hl, hf, -⟩ := hm.ends hab
    have hfirst := SourceModel.firstToken_eq hb hf
    obtain ⟨u, hu, -⟩ := ((TokenStore.firstIn_eq_some_iff hm.placed.separate).1 hf).1
    refine ⟨k, _, (judge_eq_ok hj).2, count_rebase hm hpass ha hb hl hf, ?_⟩
    have same : ∀ {i : Nat}, m.lastToken a = .ok i →
        k ≤ Linebreaks.betweenTokens (m.rebase fixes).tokens i f := by
      intro i hi
      obtain ⟨hif, t, ht, -⟩ := hm.lastToken_lt hab hi hfirst
      rw [linebreaks_of_judge hj hi hfirst]
      exact hpass.betweenTokens_le hm hif ht hu
    cases hsemi : (m.rebase fixes).isLeadingSemicolon
        (before.rebase (m.rebase fixes).text.toList (accepted m.text.toList fixes)) l with
    | none =>
        -- A semicolon that guarded the neighbour would still do so.
        refine same (SourceModel.lastToken_of_not_guards ha hl fun j hg => ?_)
        have hg' := SourceModel.isLeadingSemicolon_eq_some_iff.2
          (hpass.guards_rebase hm hab ha hl hg)
        rw [hsemi] at hg'
        cases hg'
    | some j =>
        have hg := SourceModel.isLeadingSemicolon_eq_some_iff.1 hsemi
        rcases hpass.guards_or_joined hm hab hc ha hb hl hf hg with
          hold | ⟨hlast, -, s, u', hs, hu', hline, -⟩
        · exact same (SourceModel.lastToken_of_guards ha hl hold)
        · have := linebreaks_of_judge hj hlast hfirst
          have := Linebreaks.one_le_betweenTokens_iff hs hu'
          omega

end Pass

theorem lt_of_met {q : Requirement} {k k' : Nat} (hne : q ≠ .never)
    (hk : q.isSatisfiedBy k = false) (hk' : q.isSatisfiedBy k' = true) : k < k' := by
  rcases unmet_cases hne hk with ⟨rfl, hlt⟩ | ⟨rfl, hlt⟩
  · have : 1 ≤ k' := by simpa [Requirement.isSatisfiedBy] using hk'
    omega
  · have : 2 ≤ k' := by simpa [Requirement.isSatisfiedBy] using hk'
    omega

/-- **A pass that has something to report moves statements apart.** -/
theorem total_lt_of_reports (hm : m.Coherent NodeKind.isListItem) (hlab : m.LabelsHold)
    (hc : m.CommentsBetween) (hnever : ∀ r ∈ p.rules, r.requirement ≠ .never)
    {reports : List Report} (h : p.check m = .ok reports)
    (hpass : p.Pass m (reports.filterMap Report.fix)) (hne : reports ≠ []) :
    m.totalLinebreaks < (m.rebase (reports.filterMap Report.fix)).totalLinebreaks := by
  have hl := hm.grown.linked
  by_contra hno
  apply hne
  have hnone : p.check m = .ok [] := by
    refine check_eq_nil hl fun a b hab => ?_
    obtain ⟨⟨q, k⟩, hj⟩ := exists_verdict hm hlab p hab
    refine ⟨q, k, hj, ?_⟩
    by_contra hs
    obtain ⟨k', hcount, hs'⟩ := exists_count_rebase hm hlab hc hpass hnever hab hj
    exact hno ((hpass.widens hm hlab hc).total_lt hl hab (judge_eq_ok hj).2 hcount
      (lt_of_met (ne_never_of_judge hm hlab hnever hab hj) (by simpa using hs) hs'))
  rw [h] at hnone
  exact Except.ok.inj hnone

/-! ### Many passes -/

/-- One pass: a check, and the model of the text that its fixes make. -/
def pass (p : Policy) (m : SourceModel) : Except ModelError SourceModel := do
  let reports ← p.check m
  return m.rebase (reports.filterMap Report.fix)

/-- As many passes as are told, one after the other. -/
def passes (p : Policy) : Nat → SourceModel → Except ModelError SourceModel
  | 0, m => return m
  | n + 1, m => do p.passes n (← p.pass m)

theorem pass_eq {reports : List Report} (h : p.check m = .ok reports) :
    p.pass m = .ok (m.rebase (reports.filterMap Report.fix)) := by
  unfold pass
  rw [h]
  rfl

theorem passes_succ {m' : SourceModel} (h : p.pass m = .ok m') (n : Nat) :
    p.passes (n + 1) m = p.passes n m' := by
  rw [passes, h]
  rfl

theorem exists_step (hm : m.Coherent NodeKind.isListItem) (hlab : m.LabelsHold)
    (hc : m.CommentsBetween) (hnever : ∀ r ∈ p.rules, r.requirement ≠ .never) :
    ∃ m' reports, p.check m = .ok reports ∧ p.pass m = .ok m' ∧ m.Widens m' ∧
      (reports ≠ [] → m.totalLinebreaks < m'.totalLinebreaks) ∧
      m'.Coherent NodeKind.isListItem ∧ m'.LabelsHold ∧ m'.CommentsBetween := by
  obtain ⟨reports, hreports, hpass⟩ := exists_pass hm hlab hnever
  have hs := hpass.spares hm
  exact ⟨_, reports, hreports, pass_eq hreports, hpass.widens hm hlab hc,
    total_lt_of_reports hm hlab hc hnever hreports hpass, SourceModel.Coherent.rebase hs hm,
    SourceModel.LabelsHold.rebase hlab, SourceModel.CommentsBetween.rebase hs hm hc⟩

theorem exists_passes (hnever : ∀ r ∈ p.rules, r.requirement ≠ .never) (n : Nat) :
    ∀ {m : SourceModel}, m.Coherent NodeKind.isListItem → m.LabelsHold → m.CommentsBetween →
      ∃ m₁ m₂ reports, p.passes n m = .ok m₁ ∧ p.check m₁ = .ok reports ∧
        p.pass m₁ = .ok m₂ ∧ m₁.Widens m₂ ∧
        (reports ≠ [] → m₁.totalLinebreaks < m₂.totalLinebreaks) := by
  induction n with
  | zero =>
      intro m hm hlab hc
      obtain ⟨m', reports, hreports, hpass, hwide, hlt, -⟩ := exists_step hm hlab hc hnever
      exact ⟨m, m', reports, rfl, hreports, hpass, hwide, hlt⟩
  | succ n ih =>
      intro m hm hlab hc
      obtain ⟨m', -, -, hpass, -, -, hm', hlab', hc'⟩ := exists_step hm hlab hc hnever
      rw [passes_succ hpass]
      exact ih hm' hlab' hc'

/-- The room for more line breaks bounds the passes that have something to report. -/
theorem exists_clean (hnever : ∀ r ∈ p.rules, r.requirement ≠ .never) (room : Nat) :
    ∀ {m : SourceModel}, m.Coherent NodeKind.isListItem → m.LabelsHold → m.CommentsBetween →
      2 * m.tree.pairs.length ≤ m.totalLinebreaks + room →
      ∃ n ≤ room, ∃ m₁, p.passes n m = .ok m₁ ∧ p.check m₁ = .ok [] := by
  induction room with
  | zero =>
      intro m hm hlab hc hroom
      obtain ⟨m', reports, hreports, -, hwide, hlt, -⟩ := exists_step hm hlab hc hnever
      have hnil : reports = [] := by
        by_contra hne
        have := hlt hne
        have := SourceModel.totalLinebreaks_le (m := m')
        have := hwide.pairs.length_eq
        omega
      exact ⟨0, Nat.le_refl 0, m, rfl, hnil ▸ hreports⟩
  | succ room ih =>
      intro m hm hlab hc hroom
      obtain ⟨m', reports, hreports, hpass, hwide, hlt, hm', hlab', hc'⟩ :=
        exists_step hm hlab hc hnever
      by_cases hnil : reports = []
      · exact ⟨0, Nat.zero_le _, m, rfl, hnil ▸ hreports⟩
      · have := hlt hnil
        have := hwide.pairs.length_eq
        obtain ⟨n, hn, m₁, hpasses, hclean⟩ := ih hm' hlab' hc' (by omega)
        exact ⟨n + 1, by omega, m₁, (passes_succ hpass n).trans hpasses, hclean⟩

/-- **Passes come to an end.**  In a model of a text, let a policy only ask for line breaks, and fix
what it reports again and again.  Each pass lowers the count of no pair; if there has been anything
to report, it raises their sum; and after at most two passes for each pair there is nothing left to
report. -/
theorem passes_end (hm : m.Coherent NodeKind.isListItem) (hlab : m.LabelsHold)
    (hc : m.CommentsBetween) (hnever : ∀ r ∈ p.rules, r.requirement ≠ .never) :
    (∀ n, ∃ m₁ m₂ reports, p.passes n m = .ok m₁ ∧ p.check m₁ = .ok reports ∧
      p.pass m₁ = .ok m₂ ∧ m₁.Widens m₂ ∧
      (reports ≠ [] → m₁.totalLinebreaks < m₂.totalLinebreaks)) ∧
    ∃ n ≤ 2 * m.tree.pairs.length, ∃ m₁, p.passes n m = .ok m₁ ∧ p.check m₁ = .ok [] := by
  refine ⟨fun n => exists_passes hnever n hm hlab hc, ?_⟩
  exact exists_clean hnever (2 * m.tree.pairs.length) hm hlab hc (Nat.le_add_left _ _)

/-- A block with two statements, which spans several lines as soon as they stand apart. -/
def bracedPair : SourceModel :=
  .ofOffsets "\x7ba;b\x7dc"
    [⟨.punctuator, 0, 1, none⟩, ⟨.identifier, 1, 2, none⟩, ⟨.punctuator, 2, 3, none⟩,
      ⟨.identifier, 3, 4, none⟩, ⟨.punctuator, 4, 5, some .block⟩, ⟨.identifier, 5, 6, none⟩]
    [⟨0, .statement .block, 0, 5⟩, ⟨1, .statement (.expression false), 1, 3⟩,
      ⟨1, .statement (.expression false), 3, 4⟩, ⟨0, .statement (.expression false), 5, 6⟩]
    (by decide)

theorem bracedPair_model :
    bracedPair.Coherent NodeKind.isListItem ∧ bracedPair.LabelsHold ∧ bracedPair.CommentsBetween ∧
    bracedPair.Spaced JavaScript.isSpace ∧ bracedPair.tree.pairs = [(2, 3), (1, 4)] := by
  have hm : bracedPair.Coherent NodeKind.isListItem :=
    ⟨SourceModel.grown_ofOffsets _, by decide +kernel, by decide +kernel, by decide +kernel⟩
  have hpairs : bracedPair.tree.pairs = [(2, 3), (1, 4)] := by decide +kernel
  refine ⟨hm, by decide +kernel, ?_, by decide +kernel, hpairs⟩
  rw [SourceModel.commentsBetween_iff hm.grown, hpairs]
  decide +kernel

/-- Line breaks everywhere, and blank lines behind blocks of several lines. -/
def airy : Policy :=
  ⟨[⟨.always, .single .any, .single .any⟩, ⟨.blankLine, .single .multilineBlockLike, .single .any⟩]⟩

/-- The same behind one pass, and behind two. -/
def bracedLines : SourceModel := bracedPair.rebase [.insertion 3 "\n", .insertion 5 "\n"]

def bracedSpaced : SourceModel := bracedLines.rebase [.insertion 6 "\n"]

/-- The first pass makes the block span two lines, so the second one asks for a blank line behind
it; the third check finds nothing. -/
theorem passes_end_bracedPair :
    bracedPair.Coherent NodeKind.isListItem ∧ bracedPair.LabelsHold ∧ bracedPair.CommentsBetween ∧
    (∀ r ∈ airy.rules, r.requirement ≠ .never) ∧
    airy.check bracedPair = .ok [⟨2, 3, .always, some (.insertion 3 "\n")⟩,
      ⟨1, 4, .always, some (.insertion 5 "\n")⟩] ∧
    airy.passes 1 bracedPair = .ok bracedLines ∧
    airy.check bracedLines = .ok [⟨1, 4, .blankLine, some (.insertion 6 "\n")⟩] ∧
    airy.passes 2 bracedPair = .ok bracedSpaced ∧ airy.check bracedSpaced = .ok [] ∧
    bracedPair.Widens bracedLines ∧ bracedLines.Widens bracedSpaced ∧
    bracedPair.totalLinebreaks < bracedLines.totalLinebreaks ∧
    bracedLines.totalLinebreaks < bracedSpaced.totalLinebreaks ∧
    ∃ n ≤ 2 * bracedPair.tree.pairs.length, ∃ m₁, airy.passes n bracedPair = .ok m₁ ∧
      airy.check m₁ = .ok [] := by
  obtain ⟨hm, hlab, hc, -, -⟩ := bracedPair_model
  have hnever : ∀ r ∈ airy.rules, r.requirement ≠ .never := by decide
  have hfirst : airy.check bracedPair = .ok [⟨2, 3, .always, some (.insertion 3 "\n")⟩,
      ⟨1, 4, .always, some (.insertion 5 "\n")⟩] := by cbv
  have hsecond : airy.check bracedLines = .ok [⟨1, 4, .blankLine, some (.insertion 6 "\n")⟩] := by
    cbv
  have honce : airy.passes 1 bracedPair = .ok bracedLines := passes_succ (pass_eq hfirst) 0
  have htwice : airy.passes 2 bracedPair = .ok bracedSpaced :=
    (passes_succ (pass_eq hfirst) 1).trans (passes_succ (pass_eq hsecond) 0)
  obtain ⟨hpasses, hclean⟩ := passes_end hm hlab hc hnever
  obtain ⟨m₁, m₂, reports, hm₁, hreports, hm₂, hwide, hlt⟩ := hpasses 0
  cases hm₁
  cases hfirst.symm.trans hreports
  cases (pass_eq hfirst).symm.trans hm₂
  obtain ⟨n₁, n₂, reports', hn₁, hreports', hn₂, hwide', hlt'⟩ := hpasses 1
  cases honce.symm.trans hn₁
  cases hsecond.symm.trans hreports'
  cases (pass_eq hsecond).symm.trans hn₂
  exact ⟨hm, hlab, hc, hnever, hfirst, honce, hsecond, htwice, by cbv, hwide, hwide',
    hlt (List.cons_ne_nil _ _), hlt' (List.cons_ne_nil _ _), hclean⟩

end Policy

end Interline
