import Endmark.Ir.Lexeme
import Endmark.Proofs.Number.Radix

/-!
# Lexemes as they are written

A row of lexemes, with blanks between them where two would grow together, is taken apart into
the same lexemes again.
-/

namespace Endmark.Ir

open Text
open List

/-! ### Names and words -/

/-- Can it be a name after `%` or `@`? -/
def isName (name : String) : Bool :=
  !name.toList.isEmpty && name.toList.all isNameChar

/-- Can it be a word? -/
def isWord (text : String) : Bool :=
  text.toList.head?.any startsWord && text.toList.all isNameChar && text != "NaN" && text != "inf"

namespace Lexeme

/-- A lexeme as it is written. -/
@[simp]
def spelling : Lexeme → List Char
  | word text => text.toList
  | var name => '%' :: name.toList
  | global name => '@' :: name.toList
  | int value => (toString value.toInt).toList
  | float value => value.write.toList
  | str text => (Text.quote text).toList
  | mark c => [c]
  | arrow => ['-', '>']
  | newline => ['\n']

/-- Is it a lexeme that a text can have? -/
def isRegular : Lexeme → Bool
  | word text => isWord text
  | var name | global name => isName name
  | mark c => isMark c
  | _ => true

/-- Is it a floating-point number? -/
def isFloat : Lexeme → Bool
  | float _ => true
  | _ => false

/-- Would the character of a name right after it belong to it? -/
def isOpen : Lexeme → Bool
  | word _ | var _ | global _ | int _ | float _ => true
  | _ => false

/-- Does it start with a character that is in no name? -/
def isApart : Lexeme → Bool
  | word _ | int _ | float _ => false
  | _ => true

end Lexeme

/-- The characters do not go on a name. -/
def Ends (rest : List Char) : Prop :=
  ∀ c ∈ rest.head?, isNameChar c = false

variable {l : Lexeme}

theorem span_append (hname : ∀ c ∈ name, isNameChar c) (hrest : Ends rest) :
  (name ++ rest).takeWhile isNameChar = name ∧ (name ++ rest).dropWhile isNameChar = rest
  := by
  rw [takeWhile_append_of_pos hname, dropWhile_append_of_pos hname]
  cases rest with
  | nil => simp
  | cons c cs => simp [hrest c rfl]

/-! ### Strings -/

theorem cut?_append {after : List Char} (h : ∀ c ∈ before, c ≠ sep) :
  cut? sep (before ++ sep :: after) = some (before, after)
  := by
  have hne : ∀ c ∈ before, (c != sep) := by simpa using h
  rw [cut?, dropWhile_append_of_pos hne, takeWhile_append_of_pos hne]
  simp

/-- A character that is spelled by its code point. -/
theorem unicodeChar?_hexDigits :
  unicodeChar? ('\x7b' :: hexDigits c.toNat) = some c
  := by
  have hbound : c.toNat < 0x100000000 := c.val.toNat_lt
  rw [unicodeChar?, drop_succ_cons, drop_zero, hexDigits,
    Number.readUnsigned_toDigits (by decide) (by decide) hbound]
  have hvalid : c.toNat.isValidChar := c.valid
  simp [if_pos hvalid]

/-- The digits of a code point hold no brace. -/
theorem cut?_hexDigits (n : Nat) (rest : List Char) :
  cut? '\x7d' ('\x7b' :: (hexDigits n ++ '\x7d' :: rest)) =
    some ('\x7b' :: hexDigits n, rest)
  := by
  have hdigit : ∀ d < 16, d.digitChar ≠ '\x7d' := by decide
  rw [← cons_append, cut?_append]
  intro c hc
  obtain rfl | hc := mem_cons.mp hc
  · decide
  · obtain ⟨d, hd, rfl⟩ := Number.exists_of_mem_toDigits (by decide) hc
    apply hdigit d hd

/-- What is written for a character of a string is read as the character. -/
theorem stringBody_quoteChar :
  stringBody line (quoteChar c ++ rest) =
    (stringBody line rest).map fun (text, rest) => (c :: text, rest)
  := by
  unfold quoteChar
  split
  any_goals simp [stringBody, stringEscape?, escaped?]
  rename_i hquote hslash hfeed _ _ _
  split
  · have hcut := cut?_hexDigits c.toNat rest
    simp only [append_assoc, cons_append, stringBody]
    split
    · rename_i hnone
      cases hcut.symm.trans hnone
    · rename_i hempty
      cases hcut.symm.trans hempty
    · rename_i hgroup
      cases hcut.symm.trans hgroup
      rw [unicodeChar?_hexDigits]
  · rw [singleton_append, stringBody]
    · apply hfeed
    · intro hc _
      apply hslash hc
    · apply hquote
    · intro _ hc _
      apply hslash hc
    · intro _ _ hc _
      apply hslash hc

/-- What is written for a string, after its opening quote, is read as the string. -/
theorem stringBody_quote :
  stringBody line (text.flatMap quoteChar ++ '"' :: rest) = .ok (text, rest)
  := by
  induction text with
  | nil => simp [stringBody]
  | cons c cs ih =>
    rw [flatMap_cons, append_assoc, stringBody_quoteChar, ih]
    rfl

/-! ### Numbers -/

/-- Digits go on a number up to what does not go on a name. -/
theorem numberRun_append (hbefore : before ≠ 'e' ∧ before ≠ 'E') (hdigits : ∀ c ∈ digits, c.isDigit)
    (hrest : Ends rest) :
  numberRun before (digits ++ rest) = digits
  := by
  induction digits generalizing before with
  | nil =>
    cases rest with
    | nil => rfl
    | cons c cs =>
      have hc := hrest c rfl
      simp only [isNameChar, Bool.or_eq_false_iff] at hc
      simp [numberRun, hc, hbefore]
  | cons c cs ih =>
    have hc := hdigits c mem_cons_self
    have hne : c ≠ 'e' ∧ c ≠ 'E' := by
      constructor <;> (rintro rfl; cases hc)
    rw [cons_append, numberRun]
    simp [isAlphanumeric, Char.isAlphanum, hc,
      ih hne fun d hd => hdigits d (mem_cons_of_mem c hd)]

/-- An integer is written as an optional sign and digits. -/
theorem exists_toString_eq {n : Int} :
  ∃ digits, digits ≠ [] ∧ (∀ c ∈ digits, c.isDigit) ∧
    ((toString n).toList = digits ∨ (toString n).toList = '-' :: digits)
  := by
  have hdigits (k : Nat) : ∀ c ∈ Nat.toDigits 10 k, c.isDigit :=
    fun c hc => Nat.isDigit_of_mem_toDigits (by decide) (by decide) hc
  rw [Int.toString_eq_repr, Int.repr_eq_if]
  split
  · use Nat.toDigits 10 n.toNat, Nat.toDigits_ne_nil, hdigits _
    left
    apply Nat.toList_repr
  · use Nat.toDigits 10 (-n).toNat, Nat.toDigits_ne_nil, hdigits _
    right
    rw [String.toList_append, Nat.toList_repr]
    rfl

/-- Digits without a radix mark are a decimal number, with a sign or without one. -/
theorem number?_eq (hdigits : ∀ c ∈ digits, c.isDigit)
    (htext : text = digits ∨ text = '-' :: digits) :
  number? text = decimal? text
  := by
  have hmark {x : Char} {rest : List Char} (hx : x.isDigit = false) :
      digits ≠ '0' :: x :: rest := by
    rintro rfl
    rw [hdigits x (by simp)] at hx
    cases hx
  unfold number?
  dsimp only
  split
  any_goals rfl
  all_goals
    rename_i heq
    obtain rfl | rfl := htext
    · split at heq
      · cases hdigits '-' (by simp)
      · cases hmark rfl heq
    · cases hmark rfl heq

theorem number?_toString :
  number? (toString v.toInt).toList = some (.int v)
  := by
  obtain ⟨digits, _, hdigits, heq⟩ := exists_toString_eq
  rw [number?_eq hdigits heq, decimal?, Number.readInt64_toString]

/-! ### Lexemes -/

/-- A lexeme can start with the character: it is no blank and starts no comment. -/
def Starts (c : Char) : Prop :=
  (c = '\n' ∨ Text.isBlank c = false) ∧ c ≠ '#'

instance (c : Char) : Decidable (Starts c) :=
  inferInstanceAs (Decidable (_ ∧ _))

/-- The first lexeme of a text, and then the others. -/
theorem lexemesFrom_cons (hc : Starts c) (h : lexemeAt line c cs = .ok (l, rest)) :
  lexemesFrom line (c :: cs) =
    (lexemesFrom (if c == '\n' then line + 1 else line) rest).map ((l, line) :: ·)
  := by
  obtain ⟨hblank, hcomment⟩ := hc
  have hfirst : (c != '\n' && isBlank c) = false := by
    obtain rfl | hblank := hblank
    · rfl
    · rw [hblank, Bool.and_false]
  have hsecond : (c == '#') = false := by simpa using hcomment
  rw [lexemesFrom, hfirst, hsecond, if_neg Bool.false_ne_true, if_neg Bool.false_ne_true]
  split
  · rename_i e herror
    cases h.symm.trans herror
  · rename_i l' rest' hread
    cases h.symm.trans hread
    rfl

/-- Characters of names are no blanks. -/
theorem isBlank_of_isNameChar (h : isNameChar c) :
  isBlank c = false
  := by
  have hrange : 33 ≤ c.toNat ∧ c.toNat ≤ 122 := by
    simp only [isNameChar, isAlphanumeric, Char.isAlphanum, Char.isAlpha, Char.isUpper,
      Char.isLower, Char.isDigit, Bool.or_eq_true, Bool.and_eq_true, decide_eq_true_eq,
      beq_iff_eq] at h
    obtain ((h | h) | h) | h := h
    · change (65 ≤ c.toNat ∧ c.toNat ≤ 90 ∨ 97 ≤ c.toNat ∧ c.toNat ≤ 122) ∨
        48 ≤ c.toNat ∧ c.toNat ≤ 57 at h
      omega
    all_goals
      subst h
      decide
  simp only [isBlank, Bool.or_eq_false_iff, Bool.and_eq_false_iff, decide_eq_false_iff_not,
    beq_eq_false_iff_ne]
  omega

theorem isDigit_of_startsWord (h : startsWord c) :
  c.isDigit = false
  := by
  simp only [startsWord, Char.isAlpha, Char.isUpper, Char.isLower, Char.isDigit,
    Bool.or_eq_true, Bool.and_eq_true, decide_eq_true_eq, beq_iff_eq, Bool.and_eq_false_iff,
    decide_eq_false_iff_not] at h ⊢
  obtain (h | h) | h := h
  · change 65 ≤ c.toNat ∧ c.toNat ≤ 90 ∨ 97 ≤ c.toNat ∧ c.toNat ≤ 122 at h
    change ¬ 48 ≤ c.toNat ∨ ¬ c.toNat ≤ 57
    omega
  all_goals
    subst h
    decide

/-- A character of a name is none of those that are in no name. -/
theorem ne_of_isNameChar (h : isNameChar c) (hx : isNameChar x = false) :
  c ≠ x
  := by
  rintro rfl
  rw [h] at hx
  cases hx

theorem starts_of_isNameChar (h : isNameChar c) :
  Starts c
  := ⟨.inr (isBlank_of_isNameChar h), ne_of_isNameChar h (by decide)⟩

theorem isNameChar_of_isDigit (h : c.isDigit) :
  isNameChar c
  := by
  simp [isNameChar, isAlphanumeric, Char.isAlphanum, h]

/-- A word is read back. -/
theorem lexemeAt_word (h : isWord text) (htext : text.toList = c :: cs) (hrest : Ends rest) :
  lexemeAt line c (cs ++ rest) = .ok (.word text, rest)
  := by
  simp only [isWord, Bool.and_eq_true, htext, head?_cons, Option.any_some, all_eq_true,
    bne_iff_ne] at h
  obtain ⟨⟨⟨hstart, hall⟩, hnan⟩, hinf⟩ := h
  have hc := hall c mem_cons_self
  have hcs : ∀ d ∈ cs, isNameChar d := fun d hd => hall d (mem_cons_of_mem c hd)
  have hlexeme : wordLexeme (c :: cs) = .word text := by
    rw [← htext, wordLexeme, String.ofList_toList]
    split
    · cases hnan rfl
    · cases hinf rfl
    · rfl
  have hne (x : Char) (hx : isNameChar x = false) : c ≠ x := ne_of_isNameChar hc hx
  have hnumber : startsNumber c (cs ++ rest) = false := by
    simp [startsNumber, isDigit_of_startsWord hstart, hne '-' (by decide)]
  simp [lexemeAt, hne '\n' (by decide), hne ';' (by decide), hne '%' (by decide),
    hne '@' (by decide), hne '"' (by decide), hne '-' (by decide), hnumber, hstart,
    span_append hcs hrest, hlexeme]

theorem lexemeAt_name (h : isName name) (hrest : Ends rest) :
  lexemeAt line '%' (name.toList ++ rest) = .ok (.var name, rest) ∧
    lexemeAt line '@' (name.toList ++ rest) = .ok (.global name, rest)
  := by
  simp only [isName, Bool.and_eq_true, all_eq_true] at h
  have hne : name ≠ "" := by
    rintro rfl
    cases h.1
  simp [lexemeAt, span_append h.2 hrest, hne]

/-- Digits after a digit or a sign are read as one number. -/
theorem lexemeAt_digits (htext : (toString v.toInt).toList = c :: cs) (hcs : ∀ d ∈ cs, d.isDigit)
    (hc : c.isDigit ∨ c = '-' ∧ cs ≠ []) (hrest : Ends rest) :
  lexemeAt line c (cs ++ rest) = .ok (.int v, rest)
  := by
  have hne (x : Char) (hx : x.isDigit = false) (hx' : '-' ≠ x) : c ≠ x := by
    rintro rfl
    obtain hc | ⟨rfl, _⟩ := hc
    · rw [hc] at hx
      cases hx
    · cases hx' rfl
  have harrow : (c == '-' && (cs ++ rest).head? == some '>') = false := by
    cases cs with
    | nil =>
      obtain hc | ⟨_, hcs⟩ := hc
      · have : c ≠ '-' := by
          rintro rfl
          cases hc
        simp [this]
      · cases hcs rfl
    | cons d ds =>
      have : d ≠ '>' := by
        rintro rfl
        cases hcs '>' mem_cons_self
      simp [this]
  have hnumber : startsNumber c (cs ++ rest) := by
    obtain hc | ⟨rfl, hcons⟩ := hc
    · simp [startsNumber, hc]
    · obtain ⟨d, ds, rfl⟩ := exists_cons_of_ne_nil hcons
      simp [startsNumber, hcs d mem_cons_self]
  have hrun : numberRun c (cs ++ rest) = cs := by
    apply numberRun_append ⟨hne 'e' rfl (by decide), hne 'E' rfl (by decide)⟩ hcs hrest
  have hfilter : (c :: cs).filter (· != '_') = c :: cs := by
    rw [filter_eq_self]
    intro d hd
    obtain rfl | hd := mem_cons.mp hd
    · simpa using hne '_' rfl (by decide)
    · have : d ≠ '_' := by
        rintro rfl
        cases hcs '_' hd
      simpa using this
  simp only [lexemeAt, harrow, hnumber, hrun, hfilter]
  rw [← htext, number?_toString]
  simp [hne '\n' rfl (by decide), hne ';' rfl (by decide), hne '%' rfl (by decide),
    hne '@' rfl (by decide), hne '"' rfl (by decide)]

/-- A number is read back. -/
theorem lexemeAt_int (hrest : Ends rest) :
  ∃ c cs, (toString v.toInt).toList = c :: cs ∧ Starts c ∧
    lexemeAt line c (cs ++ rest) = .ok (.int v, rest)
  := by
  obtain ⟨digits, hne, hdigits, heq | heq⟩ := exists_toString_eq
  · obtain ⟨c, cs, rfl⟩ := exists_cons_of_ne_nil hne
    have hc := hdigits c mem_cons_self
    use c, cs, heq, starts_of_isNameChar (isNameChar_of_isDigit hc)
    apply lexemeAt_digits heq _ (.inl hc) hrest
    intro d hd
    apply hdigits d (mem_cons_of_mem c hd)
  · use '-', digits, heq, by decide
    apply lexemeAt_digits heq hdigits (.inr ⟨rfl, hne⟩) hrest

theorem mem_of_isMark (h : isMark c) :
  c ∈ ['(', ')', ',', ':', '=', '\x7b', '\x7d']
  := by
  simpa [isMark, or_assoc] using h

/-- A lexeme that is written is read as the lexeme, if what follows does not go on it. -/
theorem exists_lexemeAt (hregular : l.isRegular) (hfloat : l.isFloat = false)
    (hrest : l.isOpen → Ends rest) :
  ∃ c cs, l.spelling ++ rest = c :: cs ∧ Starts c ∧ lexemeAt line c cs = .ok (l, rest)
  := by
  cases l with
  | word text =>
    obtain ⟨c, cs, htext⟩ : ∃ c cs, text.toList = c :: cs := by
      apply exists_cons_of_ne_nil
      intro hnil
      simp [Lexeme.isRegular, isWord, hnil] at hregular
    have hc : isNameChar c := by
      simp [Lexeme.isRegular, isWord, htext] at hregular
      apply hregular.1.1.2.1
    rw [Lexeme.spelling, htext]
    exact ⟨c, _, rfl, starts_of_isNameChar hc, lexemeAt_word hregular htext (hrest rfl)⟩
  | var name => exact ⟨'%', _, rfl, by decide, (lexemeAt_name hregular (hrest rfl)).1⟩
  | global name => exact ⟨'@', _, rfl, by decide, (lexemeAt_name hregular (hrest rfl)).2⟩
  | int v =>
    obtain ⟨c, cs, htext, hread⟩ := lexemeAt_int (hrest rfl)
    rw [Lexeme.spelling, htext]
    exact ⟨c, _, rfl, hread⟩
  | float v => cases hfloat
  | str text =>
    refine ⟨'"', text.toList.flatMap quoteChar ++ '"' :: rest, ?_, by decide, ?_⟩
    · simp [quote]
    · simp [lexemeAt, stringBody_quote, Except.map]
  | mark c =>
    have hread : ∀ c ∈ ['(', ')', ',', ':', '=', '\x7b', '\x7d'], Starts c ∧
        lexemeAt line c rest = .ok (.mark c, rest) := by
      simp [lexemeAt, startsNumber, startsWord]
      decide
    exact ⟨c, rest, rfl, hread c (mem_of_isMark hregular)⟩
  | arrow => exact ⟨'-', '>' :: rest, rfl, by decide, by simp [lexemeAt]⟩
  | newline => exact ⟨'\n', rest, rfl, by decide, rfl⟩

/-! ### Rows of lexemes -/

/-- A piece of a text: a blank or a lexeme. -/
inductive Piece where
  | blank
  | lexeme (l : Lexeme)

namespace Piece

/-- A word as a piece. -/
abbrev word (text : String) : Piece := lexeme (.word text)

/-- A mark as a piece. -/
abbrev mark (c : Char) : Piece := lexeme (.mark c)

/-- A global as a piece. -/
abbrev global (name : String) : Piece := lexeme (.global name)

/-- The end of a line. -/
abbrev newline : Piece := lexeme .newline
/-- A piece as it is written. -/
@[simp]
def spelling : Piece → List Char
  | blank => [' ']
  | lexeme l => l.spelling

/-- The lexeme, if the piece is no blank. -/
def lexeme? : Piece → Option Lexeme
  | blank => none
  | lexeme l => some l

/-- The second piece can stand right after the first one. -/
def Follows : Piece → Piece → Prop
  | lexeme l, lexeme l' => l.isOpen = true → l'.isApart = true
  | _, _ => True

/-- Can the piece be read back? -/
def isPlain : Piece → Bool
  | blank => true
  | lexeme l => l.isRegular && !l.isFloat

@[simp] theorem follows_blank (p : Piece) : p.Follows blank := by cases p <;> trivial
@[simp] theorem blank_follows (p : Piece) : blank.Follows p := by cases p <;> trivial

@[simp]
theorem follows_mark (p : Piece) (c : Char) :
  p.Follows (mark c)
  := by
  cases p with
  | blank => trivial
  | lexeme l => exact fun _ => rfl

@[simp]
theorem mark_follows (c : Char) (p : Piece) :
  (mark c).Follows p
  := by
  cases p with
  | blank => trivial
  | lexeme l => exact fun h => by cases h

@[simp] theorem isPlain_blank : blank.isPlain := rfl
@[simp] theorem isPlain_int (v : Int64) : (lexeme (.int v)).isPlain := rfl
@[simp] theorem isPlain_str (s : String) : (lexeme (.str s)).isPlain := rfl
@[simp] theorem isPlain_arrow : (lexeme .arrow).isPlain := rfl
@[simp] theorem isPlain_word (w : String) : (word w).isPlain = isWord w := Bool.and_true _
@[simp] theorem isPlain_var (n : String) : (lexeme (.var n)).isPlain = isName n := Bool.and_true _
@[simp] theorem isPlain_global {n : String} : (global n).isPlain = isName n := Bool.and_true _
@[simp] theorem isPlain_mark (c : Char) : (mark c).isPlain = isMark c := Bool.and_true _

end Piece

/-- Pieces as they are written. -/
def spell (ps : List Piece) : List Char :=
  ps.flatMap Piece.spelling

/-- The lexemes among pieces. -/
def lexemesIn (ps : List Piece) : List Lexeme :=
  ps.filterMap Piece.lexeme?

@[simp]
theorem lexemesIn_append :
  lexemesIn (ps ++ qs) = lexemesIn ps ++ lexemesIn qs
  := filterMap_append

@[simp]
theorem spell_append (ps qs : List Piece) :
  spell (ps ++ qs) = spell ps ++ spell qs
  := flatMap_append

/-- What stands apart from a lexeme does not go on it. -/
theorem ends_spelling (hregular : l.isRegular) (h : l.isApart) (rest : List Char) :
  Ends (l.spelling ++ rest)
  := by
  cases l with
  | word | int | float => cases h
  | mark c =>
    rintro _ ⟨⟩
    have hmark := mem_of_isMark hregular
    fin_cases hmark <;> rfl
  | str text =>
    intro c hc
    simp [quote] at hc
    subst hc
    decide
  | _ =>
    rintro _ ⟨⟩
    decide

/-- The pieces can be read back one by one. -/
structure IsRow (ps : List Piece) : Prop where
  plain : ∀ p ∈ ps, p.isPlain = true
  chain : ps.IsChain Piece.Follows

/-- The pieces can be read back, and any piece can stand after them. -/
structure IsText (ps : List Piece) : Prop extends IsRow ps where
  closed : ∀ p ∈ ps.getLast?, ∀ q, p.Follows q

@[simp]
theorem isRow_nil :
  IsRow []
  := ⟨by simp, .nil⟩

/-- A row is plain pieces, each of which may follow the one before. -/
@[simp]
theorem isRow_cons :
  IsRow (p :: ps) ↔ p.isPlain ∧ (∀ q ∈ ps.head?, p.Follows q) ∧ IsRow ps
  := by
  constructor
  · rintro ⟨hplain, hchain⟩
    use hplain p mem_cons_self, hchain.rel_head?
    exact ⟨fun q hq => hplain q (mem_cons_of_mem p hq), hchain.tail⟩
  · rintro ⟨hp, hfollows, hps⟩
    constructor
    · intro q hq
      obtain rfl | hq := mem_cons.mp hq
      · apply hp
      · apply hps.plain q hq
    · rw [isChain_cons]
      exact ⟨hfollows, hps.chain⟩

theorem IsRow.append (hps : IsRow ps) (hqs : IsRow qs)
    (h : ∀ p ∈ ps.getLast?, ∀ q ∈ qs.head?, p.Follows q) :
  IsRow (ps ++ qs)
  := by
  constructor
  · intro p hp
    obtain hp | hp := mem_append.mp hp
    · apply hps.plain p hp
    · apply hqs.plain p hp
  · rw [isChain_append]
    exact ⟨hps.chain, hqs.chain, h⟩

namespace IsText

theorem append_row (hps : IsText ps) (hqs : IsRow qs) :
  IsRow (ps ++ qs)
  := by
  apply hps.toIsRow.append hqs
  intro p hp q _
  apply hps.closed p hp q

theorem append (hps : IsText ps) (hqs : IsText qs) :
  IsText (ps ++ qs)
  := by
  use hps.append_row hqs.toIsRow
  intro p hp
  rw [getLast?_append, Option.mem_def, Option.or_eq_some_iff] at hp
  obtain hp | ⟨_, hp⟩ := hp
  · apply hqs.closed p hp
  · apply hps.closed p hp

theorem flatMap {α : Type} {row : α → List Piece} {xs : List α} (h : ∀ x ∈ xs, IsText (row x)) :
  IsText (xs.flatMap row)
  := by
  induction xs with
  | nil => exact ⟨isRow_nil, by simp⟩
  | cons x rest ih =>
    apply (h x mem_cons_self).append
    apply ih fun y hy => h y (mem_cons_of_mem x hy)

end IsText

theorem isText_blank :
  IsText [.blank]
  := by
  refine ⟨isRow_cons.mpr ⟨rfl, by simp, isRow_nil⟩, ?_⟩
  rintro p ⟨⟩ q
  trivial

theorem IsRow.append_blank (h : IsRow ps) :
  IsText (ps ++ [.blank])
  := by
  constructor
  · apply h.append isText_blank.toIsRow
    rintro p _ _ ⟨⟩
    apply p.follows_blank
  · intro p hp q
    rw [getLast?_concat] at hp
    cases hp
    apply q.blank_follows

/-- After a mark or the end of a line anything can stand, and these can stand anywhere. -/
theorem IsRow.append_apart (h : IsRow ps) (hl : l.isRegular) (hopen : l.isOpen = false)
    (hapart : l.isApart) :
  IsText (ps ++ [.lexeme l])
  := by
  have hplain : Piece.isPlain (.lexeme l) := by
    cases l <;> simp_all [Piece.isPlain, Lexeme.isFloat, Lexeme.isOpen]
  constructor
  · apply h.append (isRow_cons.mpr ⟨hplain, by simp, isRow_nil⟩)
    rintro p _ _ ⟨⟩
    cases p with
    | blank => trivial
    | lexeme l' => exact fun _ => hapart
  · intro p hp q
    rw [getLast?_concat] at hp
    cases hp
    cases q with
    | blank => trivial
    | lexeme l' =>
      intro h
      rw [hopen] at h
      cases h

theorem IsRow.append_mark (h : IsRow ps) (c : Char) (hc : isMark c := by rfl) :
  IsText (ps ++ [.mark c])
  := h.append_apart hc rfl rfl

theorem IsRow.append_newline (h : IsRow ps) :
  IsText (ps ++ [.newline])
  := h.append_apart rfl rfl rfl

/-- A row of pieces is read as the lexemes among them. -/
theorem exists_lexemesFrom_spell (h : IsRow ps) (line : Nat) :
  ∃ ls, lexemesFrom line (spell ps) = .ok ls ∧ ls.map (·.1) = lexemesIn ps ++ [.newline]
  := by
  induction ps generalizing line with
  | nil => exact ⟨_, by rw [spell, flatMap_nil, lexemesFrom], rfl⟩
  | cons p rest ih =>
    obtain ⟨hp, hfollows, hrest⟩ := isRow_cons.mp h
    cases p with
    | blank =>
      obtain ⟨ls, hread, hls⟩ := ih hrest line
      refine ⟨ls, ?_, hls⟩
      change lexemesFrom line (' ' :: spell rest) = _
      rw [lexemesFrom, if_pos (by decide), hread]
    | lexeme l =>
      simp only [Piece.isPlain, Bool.and_eq_true, Bool.not_eq_true'] at hp
      -- The next piece is a blank, or stands apart.
      have hends (hopen : l.isOpen) : Ends (spell rest) := by
        cases rest with
        | nil =>
          rintro _ ⟨⟩
        | cons q qs =>
          cases q with
          | blank =>
            rintro _ ⟨⟩
            decide
          | lexeme l' =>
            have hl' := hrest.plain (.lexeme l') mem_cons_self
            simp only [Piece.isPlain, Bool.and_eq_true] at hl'
            apply ends_spelling hl'.1 (hfollows _ rfl hopen)
      obtain ⟨c, cs, heq, hstarts, hlexeme⟩ := exists_lexemeAt hp.1 hp.2 hends
      obtain ⟨ls, hread, hls⟩ := ih hrest (if c == '\n' then line + 1 else line)
      use (l, line) :: ls
      constructor
      · change lexemesFrom line (l.spelling ++ spell rest) = _
        rw [heq, lexemesFrom_cons hstarts hlexeme, hread]
        rfl
      · rw [map_cons, hls]
        rfl

end Endmark.Ir
