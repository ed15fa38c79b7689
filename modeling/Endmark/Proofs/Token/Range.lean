import Endmark.Proofs.Token.Scanning

/-!
# Parts of a source

The part of a source between two offsets is cut into the same tokens as its bytes by themselves,
unless it ends inside of the exponent of a number.
-/

namespace Endmark.Token

open Site
open List
open Text (byte isDigitByte)

/-- Is the mark of an exponent inside, but a digit that it needs beyond? -/
def splitsExponent (beyond : List UInt8) : List UInt8 → Bool
  | [] => false
  | mark :: rest =>
    (isExponentMark mark && !startsExponent rest && startsExponent (rest ++ beyond)) ||
      splitsExponent beyond rest

variable {ahead : List UInt8}

theorem splitsExponent_drop (h : splitsExponent beyond ahead = false) (n : Nat) :
  splitsExponent beyond (ahead.drop n) = false
  := by
  induction ahead generalizing n with
  | nil => rwa [drop_nil]
  | cons mark rest ih =>
    cases n with
    | zero => exact h
    | succ n => exact ih (Bool.or_eq_false_iff.mp h).2 n

theorem startsExponent_take :
  startsExponent (rest.take 2 ++ beyond) = startsExponent (rest ++ beyond)
  := by
  rcases rest with - | ⟨b, - | ⟨c, rest⟩⟩ <;> rfl

theorem startsExponent_append (h : startsExponent rest) :
  startsExponent (rest ++ beyond)
  := by
  rcases rest with - | ⟨b, - | ⟨c, rest⟩⟩
  · cases h
  · simp only [startsExponent, head?_nil, Option.any_none, Bool.and_false, Bool.or_false] at h
    simp [startsExponent, h]
  · exact h

/-- What lies beyond matters only for an exponent that is split. -/
theorem exponentWidth_inside (h : splitsExponent beyond ahead = false) :
  exponentWidth beyond ahead = exponentWidth [] ahead
  := by
  cases ahead with
  | nil => rfl
  | cons mark rest =>
    rw [exponentWidth, exponentWidth, startsExponent_take, startsExponent_take, append_nil]
    cases hmark : isExponentMark mark with
    | false =>
      rw [isExponentMark] at hmark
      simp [hmark]
    | true =>
      have hsame : startsExponent (rest ++ beyond) = startsExponent rest := by
        cases hrest : startsExponent rest with
        | true => exact startsExponent_append hrest
        | false => simpa [hmark, hrest] using (Bool.or_eq_false_iff.mp h).1
      rw [hsame]

/-- No lexeme but a number looks beyond the end. -/
theorem lexemeAt_inside (h : splitsExponent beyond (b :: rest) = false) :
  lexemeAt beyond b rest = lexemeAt [] b rest
  := by
  have hnumber : numberWidth beyond (b :: rest) = numberWidth [] (b :: rest) := by
    have hdecimal : numberWidth.decimal beyond (b :: rest) =
        numberWidth.decimal [] (b :: rest) := by
      simp only [numberWidth.decimal]
      rw [exponentWidth_inside (splitsExponent_drop h _)]
    cases rest with
    | nil => exact hdecimal
    | cons mark rest => rw [numberWidth, numberWidth, hdecimal]
  unfold lexemeAt
  rw [hnumber]

/-! ### Tokens elsewhere -/

/-- The span so many bytes further on. -/
def shift (d : Nat) (s : Span) : Span :=
  ⟨s.file, s.start + d, s.stop + d⟩

/-- The token or fault so many bytes further on.  Whether a token opens its line is left out, since
that is about the bytes before it. -/
def Item.shifted (d : Nat) : Item → Item
  | .ok t => .ok ⟨t.kind, shift d t.span, t.textStart + d, t.textStop + d, t.text, false⟩
  | .error e => .error ⟨e.fault, shift d e.span⟩

variable {file : Option Nat} {offset : Nat}

theorem item_shifted
    (h : ∀ kind width lead trail, l = .token kind width lead trail → trail ≤ width) :
  (item ⟨file, offset + d, opens, ahead⟩ l).shifted 0 =
    (item ⟨file, offset, opens', ahead⟩ l).shifted d
  := by
  cases l with
  | fault fault width => simp [item, Item.shifted, shift, add_right_comm]
  | token kind width lead trail =>
    have htrail := h kind width lead trail rfl
    simp only [item, Item.shifted, shift, Except.ok.injEq, mk.injEq,
      Span.mk.injEq, true_and, and_true]
    omega

theorem trail_le {kind : Kind}
    (h : lexemeAt [] b rest = .token kind width lead trail) :
  trail ≤ width
  := by
  obtain ⟨t, r, -, rfl, hshape⟩ := lexemeAt_shape h
  generalize b :: t = bytes at hshape
  cases hshape <;> omega

theorem skipLayout_shifted :
  ∃ offset₁ opens₁ opens₁' n,
    skipLayout ⟨file, offset + d, opens, ahead⟩ = ⟨file, offset₁ + d, opens₁, ahead.drop n⟩ ∧
    skipLayout ⟨file, offset, opens', ahead⟩ = ⟨file, offset₁, opens₁', ahead.drop n⟩
  := by
  refine ⟨offset + layoutWidth false ahead,
    (skipLayout ⟨file, offset, opens, ahead⟩).opensLine, _, layoutWidth false ahead, ?_, rfl⟩
  rw [add_right_comm]
  rfl

theorem after_shifted :
  after ⟨file, offset + d, opens, ahead⟩ l =
    ⟨file, offset + l.width + d, false, ahead.drop l.width⟩
  := by
  rw [add_right_comm]
  rfl

/-- Scanning the same bytes at another offset, with others beyond their end. -/
theorem scan_shifted (h : splitsExponent beyond ahead = false) (file : Option Nat)
    (offset d stop fuel : Nat) (raw opens opens' : Bool) :
  (scan beyond (stop + d) fuel raw ⟨file, offset + d, opens, ahead⟩).map (Item.shifted 0) =
    (scan [] stop fuel raw ⟨file, offset, opens', ahead⟩).map (.shifted d)
  := by
  induction fuel generalizing raw offset opens opens' ahead with
  | zero => rfl
  | succ fuel ih =>
    have hplain (kind : Kind) (width : Nat) : ∀ kind' width' lead trail,
        Lexeme.plain kind width = .token kind' width' lead trail → trail ≤ width' := by
      rintro _ _ _ _ ⟨⟩
      exact Nat.zero_le _
    obtain ⟨offset₁, opens₁, opens₁', n, hskip, hskip'⟩ :=
      skipLayout_shifted
    have hhere := splitsExponent_drop h n
    rw [scan, scan, hskip, hskip']
    generalize ahead.drop n = here at hhere ⊢
    cases here with
    | nil => rfl
    | cons b rest =>
      simp only
      split
      · cases payloadWidth? 0 rest with
        | none =>
          refine congrArg₂ cons (item_shifted (hplain _ _)) ?_
          simp [Item.shifted, shift, atEnd, add_right_comm]
        | some width =>
          simp only [rawBlock, items, after_shifted]
          refine congrArg₂ cons (item_shifted (hplain _ _)) ?_
          refine congrArg₂ cons (item_shifted (hplain _ _)) ?_
          refine congrArg₂ cons (item_shifted (hplain _ _)) ?_
          apply ih
          exact splitsExponent_drop (splitsExponent_drop (splitsExponent_drop hhere _) _) _
      · rw [lexemeAt_inside hhere, after_shifted]
        refine congrArg₂ cons (item_shifted fun _ _ _ _ => trail_le) ?_
        exact ih (splitsExponent_drop hhere _) _ _ _ _

/-- The part of a source between two offsets has the tokens and faults of its bytes by themselves,
if it does not end inside of an exponent. -/
theorem itemsBetween_shifted (file : Option Nat) {source : List UInt8} {start stop : Nat}
    (hstart : start ≤ stop) (hstop : stop ≤ source.length)
    (h : splitsExponent (source.drop stop) (between source start stop) = false) :
  (itemsBetween file source start stop).map (Item.shifted 0) =
    (itemsOf file (between source start stop)).map (Item.shifted start)
  := by
  have hlength : (between source start stop).length = stop - start := by
    rw [between, List.length_drop, List.length_take, Nat.min_eq_left hstop]
  have hscan := scan_shifted h file 0 start (stop - start) (stop - start + 1) false
    (start == 0 || source[start - 1]? == some (byte '\n')) true
  rw [Nat.zero_add, Nat.sub_add_cancel hstart] at hscan
  rw [itemsOf_eq, hlength, ← hscan]
  simp only [itemsBetween, Nat.min_eq_left hstop]
  rw [← between, hlength]

/-- The second field of `f"{1e5}{1e}"` ends with a mark, and the first one cut short does so too. -/
def marked : List UInt8 :=
  "f\"\x7b1e5\x7d\x7b1e\x7d\"".toList.map byte

/-- With the digit of an exponent beyond the end, its mark is a part of the number. -/
theorem marked_split :
  (itemsBetween none marked 3 5).map (Item.shifted 0) ≠
    (itemsOf none (between marked 3 5)).map (Item.shifted 3)
  := by
  decide +kernel

theorem marked_shifted :
  splitsExponent (marked.drop 10) (between marked 8 10) = false ∧
    (itemsBetween none marked 8 10).map (Item.shifted 0) =
      (itemsOf none (between marked 8 10)).map (Item.shifted 8)
  := by
  have hinside : splitsExponent (marked.drop 10) (between marked 8 10) = false := by decide +kernel
  exact ⟨hinside, itemsBetween_shifted none (by decide) (by decide +kernel) hinside⟩

end Endmark.Token
