import Endmark.Proofs.Ir.Spelling
import Endmark.Proofs.Token.Scanning

/-!
# Quoted texts are read back

What `quote` writes for a text is read in two ways: as a string of the intermediate language, and
as a string literal of a source.  Both give the text back; the second one knows no code points, so
that only the control characters with an escape of their own may be in the text.
-/

namespace Endmark.Token

open List
open String (utf8EncodeChar)
open Text

/-- Is the character no control character, or one that an escape of its own stands for? -/
def isQuotable (c : Char) : Bool :=
  !isControl c || ['\n', '\t', '\r', '\x00'].contains c

/-- How a quotable character is written: after a backslash, or as it is. -/
theorem quoteChar_cases (h : isQuotable c) :
  (∃ e, quoteChar c = ['\\', e] ∧ escaped? e = some c ∧ utf8EncodeChar e = [byte e]) ∨
    quoteChar c = [c] ∧ c ≠ '"' ∧ c ≠ '\\' ∧ c ≠ '\n'
  := by
  unfold quoteChar
  split
  case h_7 hquote hslash hline htab hreturn hzero =>
    right
    have hcontrol : isControl c = false := by
      grind [isQuotable]
    simpa [hcontrol] using ⟨hquote, hslash, hline⟩
  all_goals exact .inl ⟨_, rfl, rfl, rfl⟩

variable {cs : List Char}

/-- The escapes of a literal give the text back. -/
theorem unescape_quoted (h : ∀ c ∈ cs, isQuotable c) :
  unescape (cs.flatMap quoteChar) = cs
  := by
  induction cs with
  | nil => rfl
  | cons c cs ih =>
    obtain ⟨hc, hcs⟩ := forall_mem_cons.mp h
    rw [flatMap_cons]
    obtain ⟨e, hquoted, he, -⟩ | ⟨hquoted, -, hslash, -⟩ := quoteChar_cases hc
    · simp [hquoted, unescape, he, ih hcs]
    · rw [hquoted, singleton_append, unescape, ih hcs]
      intro _ _ hc _
      apply hslash hc

/-- A character other than these three stays within the quotes. -/
theorem Quotable.char (hquote : c ≠ '"') (hslash : c ≠ '\\') (hline : c ≠ '\n')
    (h : Quotable (byte '"') rest) :
  Quotable (byte '"') (utf8EncodeChar c ++ rest)
  := by
  have hne {a : Char} (ha : byte a < 0x80) (hchar : Text.char (byte a) = a) (hc : c ≠ a) :
      ∀ b ∈ utf8EncodeChar c, (b == byte a) = false := by
    intro b hb
    rw [beq_eq_false_iff_ne]
    rintro rfl
    apply hc ((eq_of_mem_utf8EncodeChar ha hb).trans hchar)
  have hslash := hne (by decide) rfl hslash
  have hline := hne (by decide) rfl hline
  have hquote := hne (by decide) rfl hquote
  clear hne
  generalize utf8EncodeChar c = bs at *
  induction bs with
  | nil => exact h
  | cons b bs ih =>
    rw [forall_mem_cons] at hslash hline hquote
    exact .cons hslash.1 hline.1 hquote.1 (ih hslash.2 hline.2 hquote.2)

/-- No byte of a quoted text ends the literal. -/
theorem quotable_quoted (h : ∀ c ∈ cs, isQuotable c) :
  Quotable (byte '"') ((cs.flatMap quoteChar).flatMap utf8EncodeChar)
  := by
  induction cs with
  | nil => exact .nil rfl rfl
  | cons c cs ih =>
    obtain ⟨hc, hcs⟩ := forall_mem_cons.mp h
    rw [flatMap_cons, flatMap_append]
    obtain ⟨e, hquoted, -, he⟩ | ⟨hquoted, hquote, hslash, hline⟩ := quoteChar_cases hc
    · rw [hquoted, flatMap_cons, flatMap_singleton, he]
      exact .escaped (byte e) (ih hcs)
    · rw [hquoted, flatMap_singleton]
      exact .char hquote hslash hline (ih hcs)

/-- A source that is one literal. -/
theorem exists_lex_literal {text : List UInt8} (h : Quotable (byte '"') text) :
  ∃ t, lex file (byte '"' :: (text ++ [byte '"'])) = ([t, atEnd file (text.length + 2)], []) ∧
    t.kind = .stringLiteral ∧ t.span = ⟨file, 0, text.length + 2⟩ ∧ t.text = ofBytes text
  := by
  let site : Site := ⟨file, 0, true, byte '"' :: (text ++ [byte '"'])⟩
  let l := lexemeAt [] (byte '"') (text ++ [byte '"'])
  have hl : l = .token .stringLiteral (text.length + 2) 1 1 :=
    quoted_eq_token.mpr ⟨⟨text, [], rfl, by omega, h⟩, rfl, rfl, rfl⟩
  have hafter : site.after l = ⟨file, text.length + 2, false, []⟩ := by
    simp [hl, site, Site.after, Lexeme.width]
  obtain ⟨t, hitem, ht⟩ : ∃ t, site.item l = .ok t ∧ t.kind = .stringLiteral ∧
      t.span = ⟨file, 0, text.length + 2⟩ ∧ t.text = ofBytes text := by
    simp [hl, site, Site.item]
  refine ⟨t, ?_, ht⟩
  have hitems : itemsOf file site.ahead = [.ok t, .ok (atEnd file (text.length + 2))] := by
    rw [itemsOf_eq, ← hitem]
    change site.item l :: scan _ _ _ l.opensRaw (site.after l) = _
    rw [hafter]
    simp [site, scan, Site.skipLayout, layoutWidth]
  rw [lex, hitems]
  rfl

/-- What is written for a text is one string of the intermediate language, which is the text,
whatever follows it; and as a source it is one literal, whose escapes spell the text, if each
control character in it has an escape of its own. -/
theorem quote_reads_back (s : String) :
  (∀ line rest, Ir.lexemesFrom line ((quote s).toList ++ rest) =
      (Ir.lexemesFrom line rest).map ((.str s, line) :: ·)) ∧
    Ir.lexemes (quote s) = .ok [(.str s, 1), (.newline, 1)] ∧
    ((∀ c ∈ s.toList, isControl c → c ∈ ['\n', '\t', '\r', '\x00']) → ∀ file, ∃ t,
      lex file (bytes (quote s)) = ([t, atEnd file (bytes (quote s)).length], []) ∧
      t.kind = .stringLiteral ∧ t.span = ⟨file, 0, (bytes (quote s)).length⟩ ∧
      unescape t.text.toList = s.toList)
  := by
  have hread (line rest) : Ir.lexemesFrom line ((quote s).toList ++ rest) =
      (Ir.lexemesFrom line rest).map ((.str s, line) :: ·) := by
    have hquote : (quote s).toList ++ rest = '"' :: (s.toList.flatMap quoteChar ++ '"' :: rest) := by
      simp [quote]
    have hlexeme : Ir.lexemeAt line '"' (s.toList.flatMap quoteChar ++ '"' :: rest) =
        .ok (.str s, rest) := by
      simp [Ir.lexemeAt, Ir.stringBody_quote, Except.map]
    rw [hquote, Ir.lexemesFrom_cons (by decide) hlexeme]
    rfl
  refine ⟨hread, ?_, ?_⟩
  · rw [Ir.lexemes, ← append_nil (quote s).toList, hread, Ir.lexemesFrom]
    rfl
  · intro h file
    have hall : ∀ c ∈ s.toList, isQuotable c := by
      simpa [isQuotable, or_iff_not_imp_left] using h
    have hbytes : bytes (quote s) =
        byte '"' :: ((s.toList.flatMap quoteChar).flatMap utf8EncodeChar ++ [byte '"']) := by
      rw [quote, bytes_ofList, cons_append, flatMap_cons, flatMap_append, flatMap_singleton]
      rfl
    obtain ⟨t, hlex, hkind, hspan, htext⟩ := exists_lex_literal (quotable_quoted hall)
    rw [hbytes]
    refine ⟨t, by simpa using hlex, hkind, by simpa using hspan, ?_⟩
    rw [htext, ofBytes_flatMap, String.toList_ofList, unescape_quoted hall]

/-- A text with quotes, backslashes, a line feed, a zero and characters of two and four bytes. -/
theorem hard_text_reads_back :
  ∃ t, lex none (bytes (quote "\"\\n\n\x00\\\"é😀\t'")) =
      ([t, atEnd none (bytes (quote "\"\\n\n\x00\\\"é😀\t'")).length], []) ∧
    t.kind = .stringLiteral ∧ unescape t.text.toList = "\"\\n\n\x00\\\"é😀\t'".toList
  := by
  obtain ⟨t, hlex, hkind, -, htext⟩ :=
    (quote_reads_back "\"\\n\n\x00\\\"é😀\t'").2.2 (by simp [isControl]) none
  exact ⟨t, hlex, hkind, htext⟩

end Endmark.Token
