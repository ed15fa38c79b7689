import Mathlib
import Endmark.Token.Lexer

/-!
# Layout between tokens

A token is cut at the same place when what follows it stays the same up to some point, and layout
stands from there on.  So the tokens of a source stay what they are when there is other layout
between them.
-/

namespace Endmark.Token

open Lexeme
open List
open Text (byte isDigitByte isLetterByte isContinuation ofBytes)

/-! ### Layout -/

/-- Separators, and comments with the ends of their lines. -/
inductive Layout : List UInt8 → Prop
  | nil : Layout []
  | blank {b : UInt8} {rest : List UInt8} (hb : isSeparator b = true) (h : Layout rest) :
      Layout (b :: rest)
  | comment {text rest : List UInt8} (htext : ∀ b ∈ text, b ≠ byte '\n') (h : Layout rest) :
      Layout (byte '#' :: (text ++ byte '\n' :: rest))

/-- Is the byte a separator, or the start of a comment? -/
def isLayoutByte (b : UInt8) : Bool :=
  isSeparator b || b == byte '#'

/-- All bytes that layout can start with. -/
def layoutBytes : List UInt8 :=
  [byte ' ', byte '\t', byte '\n', byte '\r', 0x0C, byte '#']

variable {p : UInt8 → Bool} {kind : Kind} {width : Nat}

theorem mem_layoutBytes (h : isLayoutByte b) :
  b ∈ layoutBytes
  := by
  simpa [isLayoutByte, isSeparator, layoutBytes, or_assoc] using h

/-- What holds of none of the bytes that layout can start with. -/
theorem eq_false_of_isLayoutByte (hp : ∀ b ∈ layoutBytes, p b = false) (h : isLayoutByte b) :
  p b = false
  := hp b (mem_layoutBytes h)

/-- A comment goes to the end of its line. -/
theorem layoutWidth_comment {text : List UInt8} (htext : ∀ b ∈ text, b ≠ byte '\n') :
  layoutWidth true (text ++ byte '\n' :: rest) = text.length + 1 + layoutWidth false rest
  := by
  induction text with
  | nil =>
    rw [nil_append, layoutWidth]
    simp
    omega
  | cons b text ih =>
    rw [forall_mem_cons] at htext
    have hb : (b != byte '\n') := by simpa using htext.1
    rw [cons_append, layoutWidth, if_pos rfl, hb, ih htext.2, length_cons]
    omega

/-- All of the layout is skipped, and what follows it is looked at next. -/
theorem Layout.layoutWidth_append (h : Layout gap) (rest : List UInt8) :
  layoutWidth false (gap ++ rest) = gap.length + layoutWidth false rest
  := by
  induction h with
  | nil => simp
  | blank hb _ ih =>
    rw [cons_append, layoutWidth, if_neg (by decide), if_pos hb, length_cons]
    omega
  | @comment text after htext _ ih =>
    rw [cons_append, append_assoc, cons_append, layoutWidth, if_neg (by decide),
      if_neg (by decide), if_pos (by decide), layoutWidth_comment htext]
    simp only [length_cons, length_append]
    omega

theorem Layout.isLayoutByte_head (h : Layout (b :: gap)) :
  isLayoutByte b
  := by
  cases h with
  | blank hb _ => rw [isLayoutByte, hb, Bool.true_or]
  | comment => decide

/-- Layout goes on as long as a comment does, or with a byte of layout. -/
theorem layoutWidth_cons :
  layoutWidth inComment (b :: rest) =
    if inComment || isLayoutByte b then
      layoutWidth (if inComment then b != byte '\n' else b == byte '#') rest + 1
    else 0
  := by
  rw [layoutWidth]
  cases inComment with
  | true => rfl
  | false =>
    rw [isLayoutByte]
    cases hblank : isSeparator b with
    | true =>
      have hsharp : (b == byte '#') = false := by
        rw [beq_eq_false_iff_ne]
        rintro rfl
        revert hblank
        decide
      simp [hsharp]
    | false => cases b == byte '#' <;> rfl

theorem layoutWidth_of_not_isLayoutByte (h : isLayoutByte b = false) {rest : List UInt8} :
  layoutWidth false (b :: rest) = 0
  := by
  rw [layoutWidth_cons, h]
  rfl

theorem layoutWidth_le (inComment : Bool) (ahead : List UInt8) :
  layoutWidth inComment ahead ≤ ahead.length
  := by
  induction ahead generalizing inComment with
  | nil => rfl
  | cons b rest ih =>
    rw [layoutWidth_cons]
    split
    · exact Nat.succ_le_succ (ih _)
    · exact Nat.zero_le _

/-- What is skipped does not depend on what follows the first byte that is not skipped. -/
theorem layoutWidth_append (h : layoutWidth inComment (gap ++ b :: rest) = gap.length) :
  layoutWidth inComment (gap ++ b :: rest') = gap.length ∧ isLayoutByte b = false
  := by
  induction gap generalizing inComment with
  | nil =>
    rw [nil_append, layoutWidth_cons] at h ⊢
    split at h
    case isTrue => cases h
    case isFalse hskip =>
      rw [if_neg hskip]
      simp only [Bool.or_eq_true, not_or, Bool.not_eq_true] at hskip
      exact ⟨rfl, hskip.2⟩
  | cons a gap ih =>
    rw [cons_append, layoutWidth_cons] at h ⊢
    split at h
    case isTrue hskip =>
      rw [if_pos hskip]
      obtain ⟨hwidth, hb⟩ := ih (Nat.succ.inj h)
      exact ⟨congrArg (· + 1) hwidth, hb⟩
    case isFalse => cases h

/-! ### What follows a token -/

/-- The other bytes are the same up to some point, and layout stands there from then on. -/
inductive Alike : List UInt8 → List UInt8 → Prop
  | same (r : List UInt8) : Alike r r
  | layout {b : UInt8} (hb : isLayoutByte b = true) (r r' : List UInt8) : Alike r (b :: r')
  | cons (b : UInt8) {r r' : List UInt8} (h : Alike r r') : Alike (b :: r) (b :: r')

theorem Alike.append (s : List UInt8) (h : Alike r r') :
  Alike (s ++ r) (s ++ r')
  := by
  induction s with
  | nil => exact h
  | cons b s ih => exact .cons b ih

/-- A byte that is no layout stands in the first bytes as well. -/
theorem Alike.exists_cons (h : Alike a (b :: rest')) (hb : isLayoutByte b = false) :
  ∃ rest, a = b :: rest ∧ Alike rest rest'
  := by
  cases h with
  | same => exact ⟨rest', rfl, .same rest'⟩
  | layout hlayout => cases hb.symm.trans hlayout
  | cons _ h => exact ⟨_, rfl, h⟩

/-- The width of a run is the same, unless it goes on after `s`. -/
theorem runWidth_alike (hp : ∀ b ∈ layoutBytes, p b = false) (h : Alike r r')
    (hwidth : runWidth p (s ++ r) ≤ s.length) :
  runWidth p (s ++ r') = runWidth p (s ++ r)
  := by
  induction s with
  | nil =>
    rw [nil_append, length_nil, Nat.le_zero] at hwidth
    rw [nil_append, nil_append, hwidth]
    cases r' with
    | nil => rfl
    | cons b rest' =>
      rw [runWidth, takeWhile_cons]
      split
      case isTrue hb =>
        have hlayout : isLayoutByte b = false := by
          by_contra hlayout
          rw [eq_false_of_isLayoutByte hp (Bool.not_eq_false _ ▸ hlayout)] at hb
          cases hb
        obtain ⟨rest, rfl, -⟩ := h.exists_cons hlayout
        rw [runWidth, takeWhile_cons, if_pos hb] at hwidth
        cases hwidth
      case isFalse => rfl
  | cons a s ih =>
    simp only [runWidth, cons_append, takeWhile_cons] at hwidth ih ⊢
    split
    case isTrue ha =>
      rw [if_pos ha, length_cons, length_cons] at hwidth
      rw [length_cons, length_cons, ih (by omega)]
    case isFalse => rfl

/-- A byte that satisfies what layout does not stands in the first bytes as well. -/
theorem Alike.exists_cons_of (hp : ∀ b ∈ layoutBytes, p b = false)
    (h : Alike a (b :: rest')) (hb : p b) :
  ∃ rest, a = b :: rest ∧ Alike rest rest'
  := by
  apply h.exists_cons
  by_contra hlayout
  rw [Bool.not_eq_false] at hlayout
  cases (eq_false_of_isLayoutByte hp hlayout).symm.trans hb

/-! ### Numbers -/

section

variable (h : Alike r r')

include h

theorem digitsWidth_alike (hwidth : digitsWidth (s ++ r) ≤ s.length) :
  digitsWidth (s ++ r') = digitsWidth (s ++ r)
  := runWidth_alike (by decide +kernel) h hwidth

/-- Do the bytes start with a point and a digit? -/
def startsFraction : List UInt8 → Bool
  | point :: digit :: _ => point == byte '.' && isDigitByte digit
  | _ => false

omit h in
theorem fractionWidth_eq {ahead : List UInt8} :
  fractionWidth ahead = if startsFraction ahead then digitsWidth ahead.tail + 1 else 0
  := by
  rcases ahead with - | ⟨point, - | ⟨digit, rest⟩⟩ <;> rfl

omit h in
theorem startsFraction_of_alike (h : Alike a a') (hstarts : startsFraction a') :
  startsFraction a
  := by
  rcases a' with - | ⟨point, - | ⟨digit, rest'⟩⟩
  · cases hstarts
  · cases hstarts
  · rw [startsFraction, Bool.and_eq_true] at hstarts
    obtain ⟨rest, rfl, hrest⟩ := h.exists_cons_of (p := (· == byte '.')) (by decide +kernel) hstarts.1
    obtain ⟨after, rfl, -⟩ := hrest.exists_cons_of (by decide +kernel) hstarts.2
    rw [startsFraction, hstarts.1, hstarts.2]
    rfl

omit h in
theorem digitsWidth_pos (hb : isDigitByte b) (rest : List UInt8) :
  0 < digitsWidth (b :: rest)
  := by
  rw [digitsWidth, runWidth, takeWhile_cons, hb]
  simp

/-- The width of a fraction does not depend on what follows. -/
theorem fractionWidth_alike (hwidth : fractionWidth (s ++ r) ≤ s.length) :
  fractionWidth (s ++ r') = fractionWidth (s ++ r)
  := by
  rw [fractionWidth_eq] at hwidth ⊢
  rw [fractionWidth_eq]
  split at hwidth
  case isTrue hstarts =>
    -- the point and a digit are before what may differ
    rcases s with - | ⟨point, - | ⟨digit, s⟩⟩
    · cases hwidth
    · rcases r with - | ⟨digit, r⟩
      · cases hstarts
      · rw [singleton_append, startsFraction, Bool.and_eq_true] at hstarts
        have hpos := digitsWidth_pos hstarts.2 r
        simp only [singleton_append, tail_cons, length_singleton] at hwidth
        omega
    · simp only [cons_append] at hwidth hstarts ⊢
      have hstarts' : startsFraction (point :: digit :: (s ++ r')) := hstarts
      rw [if_pos hstarts', if_pos hstarts]
      congr 1
      exact digitsWidth_alike h (s := digit :: s) (by simpa using hwidth)
  case isFalse hstarts =>
    rw [if_neg hstarts, if_neg]
    exact fun hstarts' => hstarts (startsFraction_of_alike (h.append s) hstarts')

omit h in
theorem startsExponent_of_alike (h : Alike a a') (hstarts : startsExponent (a'.take 2)) :
  startsExponent (a.take 2)
  := by
  rcases a' with - | ⟨first, rest'⟩
  · cases hstarts
  · rw [take_succ_cons, startsExponent, Bool.or_eq_true, Bool.and_eq_true] at hstarts
    rcases hstarts with hdigit | ⟨hsign, hnext⟩
    · obtain ⟨rest, rfl, -⟩ := h.exists_cons_of (by decide +kernel) hdigit
      rw [take_succ_cons, startsExponent, hdigit]
      rfl
    · obtain ⟨rest, rfl, hrest⟩ := h.exists_cons_of (by decide +kernel) hsign
      rcases rest' with - | ⟨second, rest'⟩
      · cases hnext
      · obtain ⟨after, rfl, -⟩ := hrest.exists_cons_of (by decide +kernel)
          (p := isDigitByte) (b := second) hnext
        rw [take_succ_cons, startsExponent, Bool.or_eq_true, Bool.and_eq_true]
        exact .inr ⟨hsign, hnext⟩

/-- Is the byte the mark of an exponent? -/
def isExponentMark (b : UInt8) : Bool :=
  b == byte 'e' || b == byte 'E'

omit h in
/-- An exponent that starts has a digit behind its sign. -/
theorem exponent_pos {rest : List UInt8} (h : startsExponent (rest.take 2)) :
  0 < digitsWidth (rest.drop (runWidth isSign (rest.take 1)))
  := by
  rcases rest with - | ⟨first, rest⟩
  · cases h
  · rw [take_succ_cons, startsExponent, Bool.or_eq_true, Bool.and_eq_true] at h
    rw [take_succ_cons, runWidth, takeWhile_cons]
    rcases h with hdigit | ⟨hsign, hnext⟩
    · have hsign : isSign first = false := by
        by_contra hsign
        rw [Bool.not_eq_false, isSign, Bool.or_eq_true, beq_iff_eq, beq_iff_eq] at hsign
        rcases hsign with rfl | rfl <;> revert hdigit <;> decide
      rw [hsign]
      exact digitsWidth_pos hdigit rest
    · rw [if_pos hsign]
      rcases rest with - | ⟨second, rest⟩
      · cases hnext
      · exact digitsWidth_pos (b := second) hnext rest

/-- The width of a sign and the digits behind it. -/
def signedWidth (ahead : List UInt8) : Nat :=
  runWidth isSign (ahead.take 1) + digitsWidth (ahead.drop (runWidth isSign (ahead.take 1)))

/-- An exponent whose digits are all before what may differ stays what it is. -/
theorem signedWidth_alike (hstarts : startsExponent ((s ++ r).take 2))
    (hwidth : signedWidth (s ++ r) ≤ s.length) :
  startsExponent ((s ++ r').take 2) ∧ signedWidth (s ++ r') = signedWidth (s ++ r)
  := by
  have hpos := exponent_pos hstarts
  rcases s with - | ⟨first, s⟩
  · rw [signedWidth, length_nil] at hwidth
    omega
  · simp only [signedWidth, cons_append, take_succ_cons, take_zero] at *
    by_cases hsign : isSign first
    · have hone : runWidth isSign [first] = 1 := by
        rw [runWidth, takeWhile_cons, if_pos hsign]
        rfl
      rw [hone] at hwidth hpos ⊢
      simp only [drop_succ_cons, drop_zero, length_cons] at hwidth hpos ⊢
      rw [digitsWidth_alike h (by omega)]
      refine ⟨?_, rfl⟩
      -- the digit behind the sign is one of those before what may differ
      rcases s with - | ⟨second, s⟩
      · simp only [length_nil] at hwidth
        omega
      · exact hstarts
    · have hzero : runWidth isSign [first] = 0 := by
        rw [runWidth, takeWhile_cons, if_neg hsign]
        rfl
      rw [hzero] at hwidth ⊢
      simp only [drop_zero] at hwidth ⊢
      rw [← cons_append, digitsWidth_alike h (by simpa using hwidth)]
      simp only [startsExponent, hsign] at hstarts ⊢
      exact ⟨hstarts, rfl⟩

omit h in
theorem exponentWidth_cons {mark : UInt8} {rest : List UInt8} :
  exponentWidth [] (mark :: rest) =
    if isExponentMark mark && startsExponent (rest.take 2) then 1 + signedWidth rest else 0
  := by
  rw [exponentWidth, append_nil, signedWidth, ← add_assoc]
  rfl

/-- The width of an exponent does not depend on what follows. -/
theorem exponentWidth_alike (hwidth : exponentWidth [] (s ++ r) ≤ s.length) :
  exponentWidth [] (s ++ r') = exponentWidth [] (s ++ r)
  := by
  by_cases hstarts : ∃ mark rest, s ++ r = mark :: rest ∧
      (isExponentMark mark && startsExponent (rest.take 2))
  · obtain ⟨mark, rest, hahead, hstarts⟩ := hstarts
    rw [hahead, exponentWidth_cons, if_pos hstarts] at hwidth ⊢
    rcases s with - | ⟨mark', s⟩
    · rw [length_nil] at hwidth
      omega
    · rw [cons_append] at hahead
      obtain ⟨rfl, rfl⟩ := hahead
      rw [Bool.and_eq_true] at hstarts
      rw [length_cons] at hwidth
      obtain ⟨hexponent, hsigned⟩ := signedWidth_alike h hstarts.2 (by omega)
      rw [cons_append, exponentWidth_cons, hstarts.1, hexponent, hsigned]
      rfl
  · have hnone {a : List UInt8} (ha : ¬ ∃ mark rest, a = mark :: rest ∧
        (isExponentMark mark && startsExponent (rest.take 2))) :
        exponentWidth [] a = 0 := by
      rcases a with - | ⟨mark, rest⟩
      · rfl
      · rw [exponentWidth_cons, if_neg fun hboth => ha ⟨mark, rest, rfl, hboth⟩]
    rw [hnone hstarts, hnone]
    rintro ⟨mark, rest', hahead', hboth⟩
    have halike := h.append s
    rw [hahead'] at halike
    rw [Bool.and_eq_true] at hboth
    obtain ⟨rest, hahead, hrest⟩ := halike.exists_cons_of (by decide +kernel) hboth.1
    refine hstarts ⟨mark, rest, hahead, ?_⟩
    rw [Bool.and_eq_true]
    exact ⟨hboth.1, startsExponent_of_alike hrest hboth.2⟩

/-- Do the bytes start with a zero and the mark of a radix? -/
def startsRadix : List UInt8 → Bool
  | zero :: mark :: _ => zero == byte '0' && isRadixMark mark
  | _ => false

omit h in
theorem numberWidth_eq {ahead : List UInt8} :
  numberWidth [] ahead =
    if startsRadix ahead then
      (.intLiteral, 2 + runWidth (fun b => isLetterByte b || isDigitByte b || b == byte '_')
        (ahead.drop 2))
    else numberWidth.decimal [] ahead
  := by
  rcases ahead with - | ⟨zero, - | ⟨mark, rest⟩⟩ <;> rfl

theorem decimal_alike (hwidth : (numberWidth.decimal [] (s ++ r)).2 ≤ s.length) :
  numberWidth.decimal [] (s ++ r') = numberWidth.decimal [] (s ++ r)
  := by
  simp only [numberWidth.decimal] at hwidth ⊢
  have hwhole : digitsWidth (s ++ r') = digitsWidth (s ++ r) := digitsWidth_alike h (by omega)
  rw [hwhole]
  generalize digitsWidth (s ++ r) = whole at *
  have hdrop (n : Nat) (hn : n ≤ s.length) (t : List UInt8) : (s ++ t).drop n = s.drop n ++ t :=
    drop_append_of_le_length hn
  rw [hdrop whole (by omega), hdrop whole (by omega)] at *
  have hfraction : fractionWidth (s.drop whole ++ r') = fractionWidth (s.drop whole ++ r) := by
    apply fractionWidth_alike h
    rw [length_drop]
    omega
  rw [hfraction]
  rw [hdrop _ (by omega), hdrop _ (by omega)] at *
  rw [exponentWidth_alike h]
  rw [length_drop]
  omega

/-- The width of a number does not depend on what follows. -/
theorem numberWidth_alike (hwidth : (numberWidth [] (s ++ r)).2 ≤ s.length) :
  numberWidth [] (s ++ r') = numberWidth [] (s ++ r)
  := by
  rw [numberWidth_eq] at hwidth ⊢
  rw [numberWidth_eq]
  split at hwidth
  case isTrue hradix =>
    rcases s with - | ⟨zero, - | ⟨mark, s⟩⟩
    · simp only [length_nil] at hwidth
      omega
    · simp only [length_singleton] at hwidth
      omega
    · have hradix' : startsRadix (zero :: mark :: s ++ r') := hradix
      rw [if_pos hradix, if_pos hradix']
      simp only [cons_append, drop_succ_cons, drop_zero, length_cons]
        at hwidth ⊢
      rw [runWidth_alike (by decide +kernel) h (by omega)]
  case isFalse hradix =>
    have hradix' : ¬ startsRadix (s ++ r') := by
      intro hstarts
      apply hradix
      have halike := h.append s
      generalize s ++ r' = a' at hstarts halike
      generalize s ++ r = a at halike
      rcases a' with - | ⟨zero, - | ⟨mark, rest'⟩⟩
      · cases hstarts
      · cases hstarts
      · rw [startsRadix, Bool.and_eq_true] at hstarts
        obtain ⟨rest, rfl, hrest⟩ :=
          halike.exists_cons_of (p := (· == byte '0')) (by decide +kernel) hstarts.1
        obtain ⟨after, rfl, -⟩ := hrest.exists_cons_of (by decide +kernel) hstarts.2
        rw [startsRadix, hstarts.1, hstarts.2]
        rfl
    rw [if_neg hradix, if_neg hradix']
    exact decimal_alike h hwidth

end

/-! ### Strings and raw blocks -/

/-- The text of a string in front of the quote that closes it. -/
inductive Quotable (quote : UInt8) : List UInt8 → Prop
  | nil (hslash : (quote == byte '\\') = false) (hline : (quote == byte '\n') = false) :
      Quotable quote []
  | escaped (b : UInt8) {text : List UInt8} (h : Quotable quote text) :
      Quotable quote (byte '\\' :: b :: text)
  | cons {b : UInt8} {text : List UInt8} (hslash : (b == byte '\\') = false)
      (hline : (b == byte '\n') = false) (hquote : (b == quote) = false) (h : Quotable quote text) :
      Quotable quote (b :: text)

/-- A string ends at the first quote that is not escaped. -/
theorem stringWidth_eq_true :
  stringWidth quote body = (n, true) ↔
    ∃ text r, body = text ++ quote :: r ∧ text.length = n ∧ Quotable quote text
  := by
  constructor
  · intro h
    fun_induction stringWidth quote body generalizing n with
    | case1 => cases h
    | case2 => cases h
    | case3 b hb c rest width closed hinner ih =>
      cases h
      cases beq_iff_eq.mp hb
      obtain ⟨text, r, rfl, rfl, htext⟩ := ih hinner
      exact ⟨_ :: c :: text, r, rfl, rfl, .escaped c htext⟩
    | case4 => cases h
    | case5 b rest hslash hline hb =>
      cases h
      cases beq_iff_eq.mp hb
      rw [Bool.not_eq_true] at hslash hline
      exact ⟨[], rest, rfl, rfl, .nil hslash hline⟩
    | case6 b rest hslash hline hquote width closed hinner ih =>
      cases h
      obtain ⟨text, r, rfl, rfl, htext⟩ := ih hinner
      rw [Bool.not_eq_true] at hslash hline hquote
      exact ⟨b :: text, r, rfl, rfl, .cons hslash hline hquote htext⟩
  · rintro ⟨text, r, rfl, rfl, htext⟩
    induction htext with
    | nil hslash hline =>
      rw [stringWidth.eq_def]
      simp [hslash, hline]
    | escaped b _ ih => simp [stringWidth, ih]
    | cons hslash hline hquote _ ih =>
      rw [stringWidth.eq_def]
      simp [hslash, hline, hquote, ih]

/-- Each brace that closes does so for one in the bytes or for one of `depth` before them, and at the
end none is open. -/
inductive Balanced : Nat → List UInt8 → Prop
  | nil : Balanced 0 []
  | opening {depth : Nat} {bytes : List UInt8} (h : Balanced (depth + 1) bytes) :
      Balanced depth (byte '\x7b' :: bytes)
  | closing {depth : Nat} {bytes : List UInt8} (h : Balanced depth bytes) :
      Balanced (depth + 1) (byte '\x7d' :: bytes)
  | other {depth : Nat} {b : UInt8} {bytes : List UInt8} (hopen : (b == byte '\x7b') = false)
      (hclose : (b == byte '\x7d') = false) (h : Balanced depth bytes) : Balanced depth (b :: bytes)

/-- A payload ends at the brace that balances it. -/
theorem payloadWidth?_eq_some :
  payloadWidth? depth body = some n ↔
    ∃ payload r, body = payload ++ byte '\x7d' :: r ∧ payload.length = n ∧ Balanced depth payload
  := by
  constructor
  · intro h
    fun_induction payloadWidth? depth body generalizing n with
    | case1 => cases h
    | case2 depth b rest hb ih =>
      obtain ⟨k, hk, rfl⟩ := Option.map_eq_some_iff.mp h
      obtain ⟨payload, r, rfl, rfl, hbalanced⟩ := ih hk
      cases beq_iff_eq.mp hb
      exact ⟨_ :: payload, r, rfl, rfl, .opening hbalanced⟩
    | case3 b rest hopen hb =>
      cases h
      cases beq_iff_eq.mp hb
      exact ⟨[], rest, rfl, rfl, .nil⟩
    | case4 b rest hopen hb depth ih =>
      obtain ⟨k, hk, rfl⟩ := Option.map_eq_some_iff.mp h
      obtain ⟨payload, r, rfl, rfl, hbalanced⟩ := ih hk
      cases beq_iff_eq.mp hb
      exact ⟨_ :: payload, r, rfl, rfl, .closing hbalanced⟩
    | case5 depth b rest hopen hclose ih =>
      obtain ⟨k, hk, rfl⟩ := Option.map_eq_some_iff.mp h
      obtain ⟨payload, r, rfl, rfl, hbalanced⟩ := ih hk
      rw [Bool.not_eq_true] at hopen hclose
      exact ⟨b :: payload, r, rfl, rfl, .other hopen hclose hbalanced⟩
  · rintro ⟨payload, r, rfl, rfl, hbalanced⟩
    have hbraces : (byte '\x7d' == byte '\x7b') = false := by decide
    induction hbalanced with
    | nil => simp [payloadWidth?, hbraces]
    | opening _ ih => simp [payloadWidth?, ih]
    | closing _ ih => simp [payloadWidth?, hbraces, ih]
    | other hopen hclose _ ih => simp [payloadWidth?, hopen, hclose, ih]

/-! ### Lexemes -/

/-- A text in quotes, and what follows it. -/
theorem quoted_eq_token :
  quoted kind lead quote body = .token kind' width lead' trail ↔
    (∃ text r, body = text ++ quote :: r ∧ width = lead + text.length + 1 ∧ Quotable quote text) ∧
      kind' = kind ∧ lead' = lead ∧ trail = 1
  := by
  rw [quoted]
  constructor
  · intro h
    split at h <;> cases h
    obtain ⟨text, r, hbody, rfl, htext⟩ := stringWidth_eq_true.mp ‹_›
    exact ⟨⟨text, r, hbody, rfl, htext⟩, rfl, rfl, rfl⟩
  · rintro ⟨⟨text, r, hbody, rfl, htext⟩, rfl, rfl, rfl⟩
    rw [stringWidth_eq_true.mpr ⟨text, r, hbody, rfl, htext⟩]

/-- A text in quotes stays the same when what follows it is replaced. -/
theorem quoted_append (h : quoted kind lead quote (s ++ r) = .token kind' width lead' trail)
    (hwidth : width ≤ lead + s.length) :
  quoted kind lead quote (s ++ r') = .token kind' width lead' trail
  := by
  obtain ⟨⟨text, after, hbody, rfl, htext⟩, hrest⟩ := quoted_eq_token.mp h
  have hfront : text ++ [quote] <+: s ++ r := ⟨after, by simp [hbody]⟩
  obtain ⟨t, rfl⟩ := prefix_of_prefix_length_le hfront (prefix_append s r) (by
    rw [length_append, length_singleton]
    omega)
  exact quoted_eq_token.mpr ⟨⟨text, t ++ r', by simp, rfl, htext⟩, hrest⟩

/-- Does an f-string start with the byte, in front of the others? -/
def startsFString (b : UInt8) (rest : List UInt8) : Bool :=
  (b == byte 'f' || b == byte 'F') && rest.head?.any isQuote

/-- The lexeme of an operator, of punctuation, or of a character that means nothing. -/
def symbolAt (b : UInt8) (rest : List UInt8) : Lexeme :=
  match single? b, rest.head?.bind (double? b), operator? b with
  | some kind, _, _ => .plain kind 1
  | none, some kind, _ => .plain kind 2
  | none, none, some kind => .plain kind 1
  | none, none, none => .plain .unknown (1 + runWidth isContinuation rest)

theorem lexemeAt_eq :
  lexemeAt [] b rest =
    if isQuote b then .quoted .stringLiteral 1 b rest
    else if isDigitByte b then
      .plain (numberWidth [] (b :: rest)).1 (numberWidth [] (b :: rest)).2
    else if isNameStart b then
      if startsFString b rest then .quoted .fstringLiteral 2 (rest.headD 0) rest.tail
      else lexemeAt.name b rest
    else symbolAt b rest
  := by
  rcases rest with - | ⟨q, body⟩
  · simp only [startsFString, head?_nil, Option.any_none, Bool.and_false]
    rfl
  · rfl

section

variable (h : Alike r r')

include h

theorem startsFString_alike {b : UInt8} {t : List UInt8} (hstarts : startsFString b (t ++ r')) :
  startsFString b (t ++ r)
  := by
  have halike := h.append t
  generalize t ++ r' = a' at hstarts halike
  generalize t ++ r = a at halike
  rw [startsFString, Bool.and_eq_true] at hstarts ⊢
  refine ⟨hstarts.1, ?_⟩
  rcases a' with - | ⟨q, rest'⟩
  · cases hstarts.2
  · obtain ⟨rest, rfl, -⟩ := halike.exists_cons_of (p := isQuote) (by decide +kernel) hstarts.2
    exact hstarts.2

/-- A name does not depend on what follows its end. -/
theorem name_alike (hlexeme : lexemeAt.name b (t ++ r) = .token kind width lead trail)
    (hwidth : width ≤ t.length + 1) :
  lexemeAt.name b (t ++ r') = .token kind width lead trail
  := by
  simp only [lexemeAt.name, plain, token.injEq] at hlexeme ⊢
  have hrun : runWidth isNamePart (t ++ r') = runWidth isNamePart (t ++ r) :=
    runWidth_alike (by decide +kernel) h (by omega)
  have htake : (b :: (t ++ r')).take (1 + runWidth isNamePart (t ++ r)) =
      (b :: (t ++ r)).take (1 + runWidth isNamePart (t ++ r)) := by
    rw [add_comm, take_succ_cons, take_succ_cons,
      take_append_of_le_length (by omega), take_append_of_le_length (by omega)]
  rw [hrun, htake]
  exact hlexeme

omit h in
theorem double?_layout {b : UInt8} :
  ∀ c ∈ layoutBytes, (double? b c).isSome = false
  := by
  have hsecond : ∀ c ∈ layoutBytes, (c == byte '>') = false ∧ (c == byte '*') = false ∧
      (c == byte '/') = false ∧ (c == byte '=') = false := by
    decide +kernel
  intro c hc
  obtain ⟨hgreater, hstar, hslash, hequal⟩ := hsecond c hc
  simp [double?, hgreater, hstar, hslash, hequal]

/-- A symbol does not depend on what follows its end. -/
theorem symbolAt_alike (hlexeme : symbolAt b (t ++ r) = .token kind width lead trail)
    (hwidth : width = t.length + 1) :
  symbolAt b (t ++ r') = .token kind width lead trail
  := by
  rw [symbolAt] at hlexeme ⊢
  cases hsingle : single? b with
  | some single =>
    simp only [hsingle] at hlexeme ⊢
    exact hlexeme
  | none =>
    cases hdouble : (t ++ r).head?.bind (double? b) with
    | some double =>
      simp only [hsingle, hdouble, plain, token.injEq] at hlexeme
      rcases t with - | ⟨c, t⟩
      · rw [length_nil] at hwidth
        omega
      · have hdouble' : (c :: t ++ r').head?.bind (double? b) = some double := hdouble
        simp only [hdouble', plain, token.injEq]
        exact hlexeme
    | none =>
      -- what follows an operator of one byte does not make a longer one of it
      have hdouble' : (t ++ r').head?.bind (double? b) = none := by
        have halike := h.append t
        generalize t ++ r' = a' at halike
        generalize t ++ r = a at halike hdouble
        rcases a' with - | ⟨c, rest'⟩
        · rfl
        · by_contra hsome
          rw [head?_cons, Option.bind_some, ← Ne, Option.ne_none_iff_isSome] at hsome
          obtain ⟨rest, rfl, -⟩ := halike.exists_cons_of double?_layout hsome
          rw [head?_cons, Option.bind_some] at hdouble
          rw [hdouble] at hsome
          cases hsome
      simp only [hsingle, hdouble, hdouble'] at hlexeme ⊢
      cases hoperator : operator? b with
      | some operator =>
        simp only [hoperator] at hlexeme ⊢
        exact hlexeme
      | none =>
        simp only [hoperator, plain, token.injEq] at hlexeme ⊢
        rw [runWidth_alike (by decide +kernel) h (by omega)]
        exact hlexeme

/-- A token stays the same when what follows it is alike. -/
theorem lexemeAt_alike (hlexeme : lexemeAt [] b (t ++ r) = .token kind width lead trail)
    (hwidth : width = t.length + 1) :
  lexemeAt [] b (t ++ r') = .token kind width lead trail
  := by
  rw [lexemeAt_eq] at hlexeme ⊢
  split at hlexeme
  case isTrue hquote =>
    rw [if_pos hquote]
    exact quoted_append hlexeme (by omega)
  case isFalse hquote =>
    rw [if_neg hquote]
    split at hlexeme
    case isTrue hdigit =>
      rw [if_pos hdigit]
      simp only [plain, token.injEq] at hlexeme ⊢
      rw [← cons_append, numberWidth_alike h (s := b :: t)]
      · exact hlexeme
      · rw [cons_append, length_cons]
        omega
    case isFalse hdigit =>
      rw [if_neg hdigit]
      split at hlexeme
      case isTrue hname =>
        rw [if_pos hname]
        split at hlexeme
        case isTrue hstarts =>
          -- the quote is part of the token
          rcases t with - | ⟨q, t⟩
          · rw [quoted] at hlexeme
            split at hlexeme
            · rw [token.injEq] at hlexeme
              rw [length_nil] at hwidth
              omega
            · cases hlexeme
          · have hstarts' : startsFString b (q :: t ++ r') := hstarts
            rw [if_pos hstarts']
            rw [length_cons] at hwidth
            exact quoted_append hlexeme (by omega)
        case isFalse hstarts =>
          rw [if_neg fun hstarts' => hstarts (startsFString_alike h hstarts')]
          exact name_alike h hlexeme (by omega)
      case isFalse hname =>
        rw [if_neg hname]
        exact symbolAt_alike h hlexeme hwidth

end

end Endmark.Token
