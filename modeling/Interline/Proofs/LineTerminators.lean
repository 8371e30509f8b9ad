import Mathlib
import Interline.Proofs.FixPlaces
import Interline.Proofs.OnePass

/-! # One kind of line terminator

A text whose lines all end with a carriage return and a line feed stays such a text when it is
fixed, and so does one whose lines all end with a bare line feed (`Policy.fixes_keep_terminators`).
Both are the same statement for one or the other value of a Boolean: `Text.Ends` says of a text that
the line feeds in it follow carriage returns, or that they do not, given the character in front.

* The line terminator is guessed from the first line (`Text.newline`), which in such a text is right
  for all of them (`Text.newline_of_ends`).
* An edit is harmless if it starts behind another character than a carriage return, puts in whole
  terminators, and does not leave a line feed behind itself that it has cut off from its return
  (`Replacement.KeepsEnds`).  `Replacement.Rewrites.ends` is the induction over the edits, with the
  last character written so far as its state.
* Fixes start and stop at the ends of tokens, which are harmless if no token there begins or ends
  with a part of a terminator (`Policy.keepsEnds_of_propose`). -/

namespace Interline

open Replacement

/-! ### Texts -/

namespace Text

/-- Whether each line feed follows a carriage return, or none of them does; `last` is the character
in front of the text. -/
def Ends (returns : Bool) : Option Char → List Char → Prop
  | _, [] => True
  | last, c :: cs => (c = '\n' → decide (last = some '\r') = returns) ∧ Ends returns (some c) cs

variable {returns : Bool} {last : Option Char} {cs xs ys : List Char}

instance decidableEnds (returns : Bool) :
    ∀ (last : Option Char) (cs : List Char), Decidable (Ends returns last cs)
  | _, [] => isTrue trivial
  | last, c :: cs =>
    have := decidableEnds returns (some c) cs
    inferInstanceAs (Decidable
      ((c = '\n' → decide (last = some '\r') = returns) ∧ Ends returns (some c) cs))

theorem ends_append : Ends returns last (xs ++ ys) ↔
    Ends returns last xs ∧ Ends returns (xs.getLast?.or last) ys := by
  induction xs generalizing last with
  | nil => simp [Ends]
  | cons x xs ih =>
      have hlast : (x :: xs).getLast?.or last = xs.getLast?.or (some x) := by
        rw [List.getLast?_cons]
        cases xs.getLast? <;> rfl
      rw [List.cons_append, Ends, Ends, ih, hlast, and_assoc]

/-- What is in front of a text matters only if the text starts with a line feed. -/
theorem Ends.behind (h : Ends returns last cs) {last' : Option Char}
    (hhead : cs.head? = some '\n' → decide (last' = some '\r') = returns) :
    Ends returns last' cs := by
  cases cs with
  | nil => trivial
  | cons c cs => exact ⟨fun hc => hhead (by rw [hc]; rfl), h.2⟩

theorem ends_iff : Ends returns last cs ↔ ∀ front back, cs = front ++ '\n' :: back →
    decide (front.getLast?.or last = some '\r') = returns := by
  constructor
  · rintro h front back rfl
    exact (ends_append.1 h).2.1 rfl
  · intro h
    induction cs generalizing last with
    | nil => trivial
    | cons c cs ih =>
        refine ⟨?_, ih fun front back e => ?_⟩
        · rintro rfl
          exact h [] cs rfl
        · have hfront := h (c :: front) back (by rw [e]; rfl)
          rw [List.getLast?_cons] at hfront
          cases hlast : front.getLast? with
          | none => rwa [hlast] at hfront
          | some b => rwa [hlast] at hfront

theorem eq_of_byteLength {xs ys zs ws : List Char} (h : xs ++ ys = zs ++ ws)
    (hlen : byteLength xs = byteLength zs) : xs = zs ∧ ys = ws := by
  obtain ⟨mid, rfl, rfl⟩ := exists_between h (Nat.le_of_eq hlen)
  rw [byteLength_append] at hlen
  have hmid : byteLength mid = 0 := by omega
  obtain rfl := eq_nil_of_byteLength hmid
  simp

/-- The terminator with a carriage return, or the one without. -/
def terminator (returns : Bool) : List Char := if returns then ['\r', '\n'] else ['\n']

/-- The first line tells how lines end. -/
theorem newline_of_ends (h : Ends returns last cs)
    (hlast : last = some '\r' → cs.head? ≠ some '\n') (hsome : returns = true → '\n' ∈ cs) :
    newline cs = terminator returns := by
  fun_induction newline cs generalizing last with
  | case1 rest =>
      have hreturns := h.2.1 rfl
      simp only [decide_true] at hreturns
      rw [← hreturns]
      rfl
  | case2 rest =>
      have hno : last ≠ some '\r' := fun hr => hlast hr rfl
      have hreturns := h.1 rfl
      rw [decide_eq_false hno] at hreturns
      rw [← hreturns]
      rfl
  | case3 c rest hcrlf hlf ih =>
      apply ih h.2
      · intro hc hhead
        obtain ⟨rest', rfl⟩ := List.head?_eq_some_iff.1 hhead
        exact hcrlf rest' (Option.some.inj hc) rfl
      · intro hreturns
        exact (List.mem_cons.1 (hsome hreturns)).resolve_left fun hc => hlf hc.symm
  | case4 =>
      cases returns with
      | false => rfl
      | true => exact absurd (hsome rfl) (by simp)

/-- Whether a text can be put behind everything but a carriage return. -/
def Insertable (returns : Bool) (new : List Char) : Prop :=
  ∀ last, last ≠ some '\r' → Ends returns last new ∧ new.getLast?.or last ≠ some '\r'

theorem insertable_nil : Insertable returns [] := fun _ hlast => ⟨trivial, hlast⟩

theorem Insertable.append (hx : Insertable returns xs) (hy : Insertable returns ys) :
    Insertable returns (xs ++ ys) := by
  intro last hlast
  obtain ⟨hends, hlast'⟩ := hx last hlast
  obtain ⟨hends', hlast''⟩ := hy _ hlast'
  rw [List.getLast?_append, Option.or_assoc]
  exact ⟨ends_append.2 ⟨hends, hends'⟩, hlast''⟩

theorem insertable_terminator : Insertable returns (terminator returns) := by
  intro last hlast
  cases returns with
  | true => simp [terminator, Ends]
  | false => simp [terminator, Ends, hlast]

theorem insertable_lineEnds (h : newline cs = terminator returns) (copies : Nat) :
    Insertable returns (lineEnds cs copies) := by
  unfold lineEnds
  rw [h]
  induction copies with
  | zero => exact insertable_nil
  | succ copies ih =>
      rw [List.replicate_succ, List.flatten_cons]
      exact insertable_terminator.append ih

end Text

/-! ### Edits -/

namespace Replacement

/-- An edit of a text that leaves its line terminators whole. -/
structure KeepsEnds (text : List Char) (returns : Bool) (r : Replacement) : Prop where
  front : ∀ before after, text = before ++ after → Text.byteLength before = r.start →
    before.getLast? ≠ some '\r'
  new : Text.Insertable returns r.newText.toList
  back : ∀ before after, text = before ++ after → Text.byteLength before = r.stop →
    after.head? = some '\n' → returns = false

/-- Edits that leave line terminators whole leave them as they are in all of the text.  What is
written before an edit never ends with a carriage return. -/
theorem Rewrites.ends {text cs out : List Char} {returns : Bool} {k : Nat} {rs : List Replacement}
    (h : Rewrites k cs rs out) (hrs : ∀ r ∈ rs, r.KeepsEnds text returns) {front : List Char}
    (e : text = front ++ cs) (hk : Text.byteLength front = k) {last : Option Char}
    (hlast : last ≠ some '\r') (hcs : Text.Ends returns last cs) : Text.Ends returns last out := by
  induction h generalizing front last with
  | keep => exact hcs
  | @replace k kept cut rest out r rs hkept hcut _ ih =>
      have hr := hrs r List.mem_cons_self
      rw [Text.ends_append, Text.ends_append] at hcs
      obtain ⟨⟨hkeptEnds, -⟩, hrest⟩ := hcs
      have hlast' : kept.getLast?.or last ≠ some '\r' := by
        have hfront := hr.front (front ++ kept) (cut ++ rest) (by simp [e])
          (by rw [Text.byteLength_append]; omega)
        rw [List.getLast?_append] at hfront
        cases hend : kept.getLast? with
        | none => simpa using hlast
        | some c => simpa [hend] using hfront
      obtain ⟨hnew, hlast''⟩ := hr.new _ hlast'
      have htext : text = front ++ kept ++ cut ++ rest := by simp [e]
      have hstop : Text.byteLength (front ++ kept ++ cut) = r.stop := by
        simp only [Text.byteLength_append]
        omega
      have hback := hr.back _ rest htext hstop
      have hout := ih (fun x hx => hrs x (List.mem_cons_of_mem _ hx)) htext hstop hlast''
        (hrest.behind fun hhead => by rw [hback hhead]; exact decide_eq_false hlast'')
      rw [Text.ends_append, Text.ends_append, List.getLast?_append, Option.or_assoc]
      exact ⟨⟨hkeptEnds, hnew⟩, hout⟩

end Replacement

/-! ### Tokens at the ends -/

namespace SourceModel

variable {m : SourceModel}

/-- Whether the text of a token neither begins nor ends with a part of a line terminator. -/
def OffLineEnds (m : SourceModel) (t : Token) : Prop :=
  ∀ mid ∈ Text.slice? m.text.toList t.span.start t.span.stop,
    ∀ c ∈ mid.head?.toList ++ mid.getLast?.toList, c ≠ '\n' ∧ c ≠ '\r'

/-- The test for it. -/
def isOffLineEnds (m : SourceModel) (t : Token) : Bool :=
  (Text.slice? m.text.toList t.span.start t.span.stop).all fun mid =>
    (mid.head?.toList ++ mid.getLast?.toList).all fun c => c != '\n' && c != '\r'

theorem isOffLineEnds_iff {t : Token} : m.isOffLineEnds t = true ↔ m.OffLineEnds t := by
  simp only [isOffLineEnds, OffLineEnds, Option.all_eq_true, List.all_eq_true, Bool.and_eq_true,
    bne_iff_ne]
  rfl

/-- The tokens at both ends of statements and clauses are such tokens. -/
def EndsOffLineEnds (m : SourceModel) : Prop :=
  ∀ {a i : Nat} {t : Token}, m.tree.isItem a = true →
    m.firstToken a = .ok i ∨ m.lastToken a = .ok i → m.token? i = some t → m.OffLineEnds t

theorem endsOffLineEnds_of_all (h : m.tokens.toList.all m.isOffLineEnds = true) :
    m.EndsOffLineEnds :=
  fun _ _ ht => isOffLineEnds_iff.1 (List.all_eq_true.1 h _ (List.mem_of_getElem? ht))

section cuts

variable (hs : m.tokens.Separate) (hb : m.OnBoundaries) {i : Nat} {t : Token}
  (ht : m.token? i = some t) (hoff : m.OffLineEnds t) {before after : List Char}
  (e : m.text.toList = before ++ after)
include hs hb ht

theorem exists_cuts : ∃ front mid back, m.text.toList = front ++ mid ++ back ∧ mid ≠ [] ∧
    Text.byteLength front = t.span.start ∧ Text.byteLength (front ++ mid) = t.span.stop ∧
    Text.slice? m.text.toList t.span.start t.span.stop = some mid := by
  obtain ⟨front, rest, e, hfront⟩ := Text.isBoundary_iff.1 (hb ht).1
  obtain ⟨through, back, e', hthrough⟩ := Text.isBoundary_iff.1 (hb ht).2
  have hwidth := hs.width ht
  obtain ⟨mid, rfl, rfl⟩ := Text.exists_between (e.symm.trans e') (by omega)
  refine ⟨front, mid, back, e', ?_, hfront, hthrough, ?_⟩
  · rintro rfl
    rw [List.append_nil] at hthrough
    omega
  · rw [Text.byteLength_append] at hthrough
    exact Text.slice?_eq_some_iff.2 ⟨front, back, e', hfront, by omega⟩

include hoff e

theorem OffLineEnds.getLast?_ne (hlen : Text.byteLength before = t.span.stop) {c : Char}
    (hc : c = '\n' ∨ c = '\r') : before.getLast? ≠ some c := by
  obtain ⟨front, mid, back, e', hmid, -, hstop, hslice⟩ := exists_cuts hs hb ht
  obtain ⟨rfl, -⟩ := Text.eq_of_byteLength (e.symm.trans e') (hlen.trans hstop.symm)
  intro hlast
  rw [List.getLast?_append_of_ne_nil _ hmid] at hlast
  have hchar := hoff mid hslice c (by simp [hlast])
  tauto

theorem OffLineEnds.head?_ne (hlen : Text.byteLength before = t.span.start) {c : Char}
    (hc : c = '\n' ∨ c = '\r') : after.head? ≠ some c := by
  obtain ⟨front, mid, back, e', hmid, hstart, -, hslice⟩ := exists_cuts hs hb ht
  rw [List.append_assoc] at e'
  obtain ⟨-, rfl⟩ := Text.eq_of_byteLength (e.symm.trans e') (hlen.trans hstart.symm)
  intro hhead
  rw [List.head?_append_of_ne_nil _ hmid] at hhead
  have hchar := hoff mid hslice c (by simp [hhead])
  tauto

end cuts

end SourceModel

/-! ### Fixes -/

theorem Repair.exists_breaks {m : SourceModel} {i : Nat} {blank : Bool} {r : Replacement}
    (h : breakAfter m i blank = some r) :
    ∃ t copies, m.token? i = some t ∧ r = breaks m t copies := by
  unfold breakAfter at h
  obtain ⟨t, ht, h⟩ := Option.bind_eq_some_iff.1 h
  cases h
  cases hblank : blank && _ with
  | true => exact ⟨t, 2, ht, by simp [breaks, Text.lineEnds]⟩
  | false => exact ⟨t, 1, ht, by simp [breaks, Text.lineEnds]⟩

namespace Policy

section fixes

variable {m : SourceModel} (hs : m.tokens.Separate) (hb : m.OnBoundaries) (hoff : m.EndsOffLineEnds)
  {returns : Bool} (hends : Text.Ends returns none m.text.toList)
  (hsome : returns = true → '\n' ∈ m.text.toList)
include hs hb hoff hends hsome

theorem keepsEnds_of_propose {q : Requirement} {a b : Nat} {r : Replacement}
    (ha : m.tree.isItem a = true) (hb' : m.tree.isItem b = true)
    (h : Repair.propose q m a b = .ok (some r)) : r.KeepsEnds m.text.toList returns := by
  by_cases hq : q = .never
  · subst hq
    obtain ⟨i, f, t, u, hi, hf, ht, hu, -, -, rfl⟩ := Repair.join_eq_some h
    have hlast := hoff ha (.inr hi) ht
    have hfirst := hoff hb' (.inl hf) hu
    refine ⟨fun before after e hlen => ?_, Text.insertable_nil, fun before after e hlen hhead => ?_⟩
    · exact hlast.getLast?_ne hs hb ht e hlen (.inr rfl)
    · exact absurd hhead (hfirst.head?_ne hs hb hu e hlen (.inl rfl))
  · obtain ⟨i, blank, hi, hbreak⟩ := exists_break_of_propose hq h
    obtain ⟨t, copies, ht, rfl⟩ := Repair.exists_breaks hbreak
    have hlast := hoff ha (.inr hi) ht
    have hnewline := Text.newline_of_ends hends (by simp) hsome
    refine ⟨fun before after e hlen => ?_, ?_, fun before after e hlen hhead => ?_⟩
    · exact hlast.getLast?_ne hs hb ht e hlen (.inr rfl)
    · simpa [Repair.breaks, insertion] using Text.insertable_lineEnds hnewline copies
    · -- A line feed behind the token is one of the text, and the token is in front of it.
      obtain ⟨after, rfl⟩ := List.head?_eq_some_iff.1 hhead
      have hfeed := Text.ends_iff.1 hends before after e
      rw [Option.or_none, decide_eq_false (hlast.getLast?_ne hs hb ht e hlen (.inr rfl))] at hfeed
      exact hfeed.symm

theorem ends_applyAll {p : Policy} (hl : m.tree.Linked) {reports : List Report}
    (h : p.check m = .ok reports) :
    Text.Ends returns none (applyAll m.text (reports.filterMap Report.fix)).text.toList := by
  have hkeeps : ∀ r ∈ accepted m.text.toList (reports.filterMap Report.fix),
      r.KeepsEnds m.text.toList returns := by
    intro r hr
    obtain ⟨report, hmem, hfix⟩ := exists_report hr
    obtain ⟨hab, -, -, hpropose⟩ := reports_of_mem hl h hmem
    rw [hfix] at hpropose
    exact keepsEnds_of_propose hs hb hoff hends hsome hab.isItem.1 hab.isItem.2 hpropose
  have hwhole : m.text.toList = [] ++ m.text.toList := rfl
  have hout := (rewrites_accepted m.text.toList (reports.filterMap Report.fix)).ends hkeeps
    hwhole rfl (by simp) hends
  simpa [applyAll] using hout

end fixes

/-- **Fixes keep line terminators uniform.**  Let tokens have width, be apart and end at places of
the text, and let no token at an end of a statement or clause begin or end with a part of a line
terminator.  If the text has a line feed and all its line feeds follow carriage returns, so do all
line feeds of the text with the fixes of a check applied; and if none of them does, then none does
there. -/
theorem fixes_keep_terminators (p : Policy) {m : SourceModel} (hg : m.tree.Grown)
    (hs : m.tokens.Separate) (hb : m.OnBoundaries) (hoff : m.EndsOffLineEnds)
    {reports : List Report} (h : p.check m = .ok reports) :
    ('\n' ∈ m.text.toList →
      (∀ front back, m.text.toList = front ++ '\n' :: back → front.getLast? = some '\r') →
      ∀ front back, (applyAll m.text (reports.filterMap Report.fix)).text.toList =
        front ++ '\n' :: back → front.getLast? = some '\r') ∧
    ((∀ front back, m.text.toList = front ++ '\n' :: back → front.getLast? ≠ some '\r') →
      ∀ front back, (applyAll m.text (reports.filterMap Report.fix)).text.toList =
        front ++ '\n' :: back → front.getLast? ≠ some '\r') := by
  constructor
  · intro hsome hall front back e
    have hends : Text.Ends true none m.text.toList := by
      simpa only [Text.ends_iff, Option.or_none, decide_eq_true_iff] using hall
    have hout := ends_applyAll hs hb hoff hends (fun _ => hsome) hg.linked h
    simpa using Text.ends_iff.1 hout front back e
  · intro hnone front back e
    have hends : Text.Ends false none m.text.toList := by
      simpa only [Text.ends_iff, Option.or_none, decide_eq_false_iff_not] using hnone
    have hout := ends_applyAll hs hb hoff hends (fun h => nomatch h) hg.linked h
    simpa using Text.ends_iff.1 hout front back e

/-- A block, a blank line, and two statements on one line. -/
def twoOnALine : SourceModel :=
  .ofOffsets "\x7b\x7d\r\n\r\nb; c\r\n"
    [⟨.punctuator, 0, 1, none⟩, ⟨.punctuator, 1, 2, some .block⟩, ⟨.identifier, 6, 7, none⟩,
      ⟨.punctuator, 7, 8, none⟩, ⟨.identifier, 9, 10, none⟩]
    [⟨0, .statement .block, 0, 2⟩, ⟨0, .statement (.expression false), 6, 8⟩,
      ⟨0, .statement (.expression false), 9, 10⟩] (by decide)

/-- The same with bare line feeds, and a carriage return that ends no line. -/
def twoBehindReturn : SourceModel :=
  .ofOffsets "\x7b\x7d\n\nb;\rc\n"
    [⟨.punctuator, 0, 1, none⟩, ⟨.punctuator, 1, 2, some .block⟩, ⟨.identifier, 4, 5, none⟩,
      ⟨.punctuator, 5, 6, none⟩, ⟨.identifier, 7, 8, none⟩]
    [⟨0, .statement .block, 0, 2⟩, ⟨0, .statement (.expression false), 4, 6⟩,
      ⟨0, .statement (.expression false), 7, 8⟩] (by decide)

/-- What follows a block is joined with it, and other statements stand on lines of their own. -/
def joinBehindBlocks : Policy :=
  ⟨[⟨.always, .single .any, .single .any⟩, ⟨.never, .single .block, .single .any⟩]⟩

theorem fixes_keep_terminators_twoOnALine :
    joinBehindBlocks.check twoOnALine =
      .ok [⟨1, 2, .never, some (.removal 2 6)⟩, ⟨2, 3, .always, some (.insertion 8 "\r\n")⟩] ∧
    (∀ front back, (applyAll twoOnALine.text [.removal 2 6, .insertion 8 "\r\n"]).text.toList =
      front ++ '\n' :: back → front.getLast? = some '\r') ∧
    joinBehindBlocks.check twoBehindReturn =
      .ok [⟨1, 2, .never, some (.removal 2 4)⟩, ⟨2, 3, .always, some (.insertion 6 "\n")⟩] ∧
    ∀ front back, (applyAll twoBehindReturn.text [.removal 2 4, .insertion 6 "\n"]).text.toList =
      front ++ '\n' :: back → front.getLast? ≠ some '\r' := by
  have hg : twoOnALine.tree.Grown := SourceModel.grown_ofOffsets _
  have hg' : twoBehindReturn.tree.Grown := SourceModel.grown_ofOffsets _
  have hp : twoOnALine.Placed := by decide +kernel
  have hp' : twoBehindReturn.Placed := by decide +kernel
  have hoff : twoOnALine.EndsOffLineEnds :=
    SourceModel.endsOffLineEnds_of_all (by decide +kernel)
  have hoff' : twoBehindReturn.EndsOffLineEnds :=
    SourceModel.endsOffLineEnds_of_all (by decide +kernel)
  have hpairs : twoOnALine.tree.pairs = [(1, 2), (2, 3)] := by decide +kernel
  have hpairs' : twoBehindReturn.tree.pairs = [(1, 2), (2, 3)] := by decide +kernel
  have hcheck : joinBehindBlocks.check twoOnALine =
      .ok [⟨1, 2, .never, some (.removal 2 6)⟩,
        ⟨2, 3, .always, some (.insertion 8 "\r\n")⟩] := by
    rw [check_eq hg.linked rfl, hpairs]
    cbv
  have hcheck' : joinBehindBlocks.check twoBehindReturn =
      .ok [⟨1, 2, .never, some (.removal 2 4)⟩, ⟨2, 3, .always, some (.insertion 6 "\n")⟩] := by
    rw [check_eq hg'.linked rfl, hpairs']
    cbv
  have hall : Text.Ends true none twoOnALine.text.toList := by decide +kernel
  have hnone : Text.Ends false none twoBehindReturn.text.toList := by decide +kernel
  simp only [Text.ends_iff, Option.or_none, decide_eq_true_iff, decide_eq_false_iff_not]
    at hall hnone
  refine ⟨hcheck, ?_, hcheck', ?_⟩
  · exact (fixes_keep_terminators joinBehindBlocks hg hp.separate hp.onBoundaries hoff hcheck).1
      (by decide +kernel) hall
  · exact (fixes_keep_terminators joinBehindBlocks hg' hp'.separate hp'.onBoundaries hoff'
      hcheck').2 hnone

end Policy
end Interline
