import Endmark.Proofs.Tree.Statements

/-!
# Sources with other layout

A source that is read without reports is read the same, up to spans, with other layout between its
tokens.
-/

namespace Endmark.Tree

open Reader
open Token
open List Option
open Text (byte)

/-! ### Sources without reports -/

/-- The token at the end of a source. -/
def finishOf (tokens : List Token) (file : Option Nat) (stop : Nat) : Token :=
  match tokens.getLast? with
  | some t => if t.kind == .endOfFile then t else .atEnd file stop
  | none => .atEnd file stop

theorem finishOf_kind :
  (finishOf tokens file stop).kind = .endOfFile
  := by
  rw [finishOf]
  split
  · split
    case isTrue hkind => exact beq_iff_eq.mp hkind
    case isFalse => rfl
  · rfl

theorem finishOf_word (h : ts'.map word = ts.map word) :
  (finishOf ts' file' stop').word = (finishOf ts file stop).word
  := by
  have hlast : ts'.getLast?.map word = ts.getLast?.map word := by
    rw [← getLast?_map, ← getLast?_map, h]
  rw [finishOf, finishOf]
  cases hts : ts.getLast? with
  | none =>
    rw [hts, map_none, map_eq_none_iff] at hlast
    rw [hlast]
    rfl
  | some t =>
    rw [hts, map_some, map_eq_some_iff] at hlast
    obtain ⟨t', ht', hword⟩ := hlast
    have hkind : t'.kind = t.kind := congrArg Word.kind hword
    rw [ht']
    dsimp only
    rw [hkind]
    split
    · exact hword
    · rfl

/-- The items that tokens spell, and the cursor after them. -/
def itemsOf (tokens : List Token) (file : Option Nat) (stop : Nat) : List Item × Cursor :=
  let words := tokens.filter (·.kind != .endOfFile)
  Reader.itemsIn (Reader.fieldIn (stop + 1)) (words.length + 1)
    (.start words (finishOf tokens file stop))

/-- The file that the tokens are in. -/
def fileOf (tokens : List Token) : Option Nat :=
  match tokens.head? with
  | some t => t.span.file
  | none => some 0

theorem ofTokens_eq :
  ofTokens tokens stop = ⟨⟨fileOf tokens, (itemsOf tokens (fileOf tokens) stop).1⟩,
    (itemsOf tokens (fileOf tokens) stop).2.reports.toList⟩
  := rfl

/-- Tokens that say the same are read the same, unless something is reported. -/
theorem ofTokens_retold (hwords : ts'.map word = ts.map word)
    (hproper : ∀ t ∈ ts, t.word.Proper n) (hn : n ≤ stop) (hn' : n ≤ stop')
    (hquiet : (ofTokens ts stop).diagnostics = []) :
  (ofTokens ts' stop').diagnostics = [] ∧
    Item.RetoldAll (ofTokens ts stop).unit.items (ofTokens ts' stop').unit.items
  := by
  rw [ofTokens_eq] at hquiet ⊢
  have hfilter : (ts'.filter (·.kind != .endOfFile)).map word =
      (ts.filter (·.kind != .endOfFile)).map word := by
    rw [map_word_filter, map_word_filter, hwords]
  have hcount : (ts'.filter (·.kind != .endOfFile)).length =
      (ts.filter (·.kind != .endOfFile)).length := by
    rw [← length_map word, hfilter, length_map]
  have hstart : Similar n []
      (.start (ts.filter (·.kind != .endOfFile)) (finishOf ts (fileOf ts) stop))
      (.start (ts'.filter (·.kind != .endOfFile)) (finishOf ts' (fileOf ts') stop')) :=
    similar_start hfilter (fun t ht => hproper t (mem_of_mem_filter ht))
      finishOf_kind (finishOf_word hwords)
  have hself : (fieldIn (stop + 1)).Follow n (fieldIn (stop + 1)) :=
    follow_fieldIn (by omega) (by omega)
  have hfield : (fieldIn (stop + 1)).Follow n (fieldIn (stop' + 1)) :=
    follow_fieldIn (by omega) (by omega)
  have hitems : Loud (itemsOf ts (fileOf ts) stop).2 ∨
      Similar n [] (itemsOf ts (fileOf ts) stop).2 (itemsOf ts' (fileOf ts') stop').2 ∧
        Item.RetoldAll (itemsOf ts (fileOf ts) stop).1 (itemsOf ts' (fileOf ts') stop').1 := by
    simp only [itemsOf, hcount]
    exact follows_itemsIn hself hfield _ _ hstart
  rcases hitems with hloud | ⟨hsimilar, hretold⟩
  · simp only [Array.toList_eq_nil_iff] at hquiet
    rw [Loud, hquiet] at hloud
    cases hloud
  · exact ⟨congrArg Array.toList hsimilar.right.reports, hretold⟩

/-! ### Sources -/

/-- A source that is read without reports is cut into tokens without faults. -/
theorem lex_quiet (h : (parse file source).diagnostics = []) :
  (lex file source).2 = []
  := by
  have hall : ∀ d ∈ (lex file source).2, d.isError := by
    intro d hd
    obtain ⟨e, -, rfl⟩ := mem_map.mp hd
    rfl
  simp only [parse] at h
  cases hfaults : (lex file source).2 with
  | nil => rfl
  | cons d ds =>
    have hany : Diagnostic.anyError (d :: ds) := by
      rw [Diagnostic.anyError, any_cons, hall d (hfaults ▸ mem_cons_self), Bool.true_or]
    rw [hfaults, hany] at h
    cases h

theorem parse_eq (h : (lex file source).2 = []) :
  parse file source = ofTokens (lex file source).1 source.length
  := by
  simp only [parse, h]
  rfl

theorem lex_proper (h : (lex file source).2 = []) :
  ∀ t ∈ (lex file source).1, t.word.Proper source.length
  := by
  obtain ⟨pieces, last, hcut⟩ := exists_cut_of_lex h
  rw [hcut.lex_eq, forall_mem_append, forall_mem_singleton]
  refine ⟨fun t ht => ?_, Word.proper_of_isFree rfl _⟩
  have hword : t.word ∈ pieces.map Piece.word :=
    map_word_placed file 0 true pieces ▸ mem_map_of_mem ht
  obtain ⟨p, hp, hp'⟩ := mem_map.mp hword
  exact hp' ▸ hcut.proper p hp

/-- The tokens of a source are in its file. -/
theorem fileOf_lex (h : (lex file source).2 = []) :
  fileOf (lex file source).1 = file
  := by
  obtain ⟨pieces, last, hcut⟩ := exists_cut_of_lex h
  rw [hcut.lex_eq]
  cases pieces <;> rfl

/-- What a source without reports says does not depend on the layout between its tokens. -/
theorem parse_relaid {file : Option Nat} {source source' : List UInt8}
    (hquiet : (parse file source).diagnostics = [])
    (h : Relaid source 0 (lex file source).1 source') :
  (parse file source').diagnostics = [] ∧
    (parse file source').unit.withoutSpans = (parse file source).unit.withoutSpans
  := by
  have hfaults := lex_quiet hquiet
  obtain ⟨hfaults', hwords⟩ := Token.lex_relaid hfaults h
  rw [parse_eq hfaults] at hquiet ⊢
  rw [parse_eq hfaults']
  have hproper : ∀ t ∈ (lex file source).1, t.word.Proper (min source.length source'.length) := by
    intro t ht
    have hmem : t.word ∈ (lex file source').1.map Token.word := hwords ▸ List.mem_map_of_mem ht
    obtain ⟨t', ht', hword⟩ := List.mem_map.mp hmem
    have hleft := lex_proper hfaults t ht
    have hright := lex_proper hfaults' t' ht'
    rw [hword] at hright
    exact ⟨hleft.name, fun hkind => Nat.lt_min.mpr ⟨hleft.body hkind, hright.body hkind⟩⟩
  obtain ⟨hreports, hretold⟩ := ofTokens_retold hwords hproper (Nat.min_le_left _ _)
    (Nat.min_le_right _ _) hquiet
  refine ⟨hreports, ?_⟩
  rw [Unit.withoutSpans, Unit.withoutSpans, hretold.same, ofTokens_eq, ofTokens_eq]
  simp only [fileOf_lex hfaults, fileOf_lex hfaults']

/-- A raw block and an assignment without layout: `asm{a}x=f"{y}";` -/
def crowded : List UInt8 :=
  "asm\x7ba\x7dx=f\"\x7by\x7d\";".toList.map Text.byte

/-- The same with a blank before the brace, a comment after the sign and an empty line at the end. -/
def spaced : List UInt8 :=
  "asm \x7ba\x7dx=#!\nf\"\x7by\x7d\";\n".toList.map Text.byte

theorem spaced_parse :
  (parse none crowded).diagnostics = [] ∧ Relaid crowded 0 (lex none crowded).1 spaced ∧
    (parse none spaced).diagnostics = [] ∧
    (parse none spaced).unit.withoutSpans = (parse none crowded).unit.withoutSpans
  := by
  have hquiet : (parse none crowded).diagnostics = [] := by decide +kernel
  have htokens : (lex none crowded).1 = [
      ⟨.wordAsm, ⟨none, 0, 3⟩, 0, 3, "asm", true⟩, ⟨.rawOpen, ⟨none, 3, 4⟩, 3, 4, "\x7b", false⟩,
      ⟨.rawText, ⟨none, 4, 5⟩, 4, 5, "a", false⟩, ⟨.rawClose, ⟨none, 5, 6⟩, 5, 6, "\x7d", false⟩,
      ⟨.ident, ⟨none, 6, 7⟩, 6, 7, "x", false⟩, ⟨.equal, ⟨none, 7, 8⟩, 7, 8, "=", false⟩,
      ⟨.fstringLiteral, ⟨none, 8, 14⟩, 10, 13, "\x7by\x7d", false⟩,
      ⟨.semicolon, ⟨none, 14, 15⟩, 14, 15, ";", false⟩, .atEnd none 15] := by
    decide +kernel
  have hspaced : spaced = [] ++ between crowded 0 3 ++ ([byte ' '] ++ between crowded 3 4 ++
      ([] ++ between crowded 4 5 ++ ([] ++ between crowded 5 6 ++ ([] ++ between crowded 6 7 ++
      ([] ++ between crowded 7 8 ++ ((byte '#' :: ([byte '!'] ++ byte '\n' :: [])) ++
      between crowded 8 14 ++ ([] ++ between crowded 14 15 ++
      ([byte '\n'] ++ between crowded 15 15 ++ [])))))))) := by
    decide +kernel
  have hrelaid : Relaid crowded 0 (lex none crowded).1 spaced := by
    rw [htokens, hspaced]
    refine .cons (.inl rfl) (.cons (.inr ⟨rfl, by decide, .blank rfl .nil⟩) (.cons (.inl rfl)
      (.cons (.inl rfl) (.cons (.inl rfl) (.cons (.inl rfl) (.cons (.inr ⟨rfl, by decide, ?_⟩)
      (.cons (.inl rfl) (.cons (.inr ⟨rfl, by decide, .blank rfl .nil⟩) (.nil 15)))))))))
    exact .comment (by decide +kernel) .nil
  exact ⟨hquiet, hrelaid, parse_relaid hquiet hrelaid⟩

/-! ### Names -/

/-- What is read from a source without reports is whole. -/
theorem whole_of_parse (h : (parse file source).diagnostics = []) :
  ∀ i ∈ (parse file source).unit.items, i.isWhole
  := by
  have hfaults := lex_quiet h
  rw [parse_eq hfaults] at h ⊢
  exact (ofTokens_retold rfl (lex_proper hfaults) (le_refl _) (le_refl _) h).2.whole

/-- The program consists of units that were read from sources without reports. -/
def Program.Parsed (program : Program) : Prop :=
  ∀ u ∈ program.main :: program.libraries, ∃ file source, (parse file source).diagnostics = [] ∧
    (parse file source).unit = u

theorem parsed_of_parse (h : (parse file source).diagnostics = []) :
  Program.Parsed ⟨(parse file source).unit, []⟩
  := by
  intro u hu
  rw [mem_singleton] at hu
  exact ⟨file, source, h, hu.symm⟩

/-- A parsed program is spelled properly. -/
theorem Program.Parsed.spelled (h : program.Parsed) :
  Typed.Spelled program
  := by
  have hitems : ∀ u ∈ program.main :: program.libraries, ∀ i ∈ u.items, i.Spelled := by
    intro u hu
    obtain ⟨file, source, hquiet, rfl⟩ := h u hu
    exact fun i hi => Item.spelled_of_isWhole (whole_of_parse hquiet i hi)
  have hfunctions {items : List Item} (hspelled : ∀ i ∈ items, i.Spelled) :
      ∀ f ∈ Typed.functionsIn items, (Item.function f).Spelled := by
    intro f hf
    obtain ⟨i, hi, hif⟩ := mem_filterMap.mp hf
    cases i with
    | function g =>
      cases hif
      exact hspelled _ hi
    | statement s => cases hif
  have hmain := hitems program.main mem_cons_self
  constructor
  · intro f hf
    obtain hf | hf := mem_append.mp hf
    · apply hfunctions _ f hf
      intro i hi
      obtain ⟨u, hu, hi⟩ := mem_flatMap.mp hi
      exact hitems u (mem_cons_of_mem _ hu) i hi
    · exact hfunctions hmain f hf
  · have hstatements : ∀ s ∈ Typed.statementsOf program, (Item.statement s).Spelled := by
      intro s hs
      obtain ⟨i, hi, his⟩ := mem_filterMap.mp hs
      cases i with
      | function g => cases his
      | statement s =>
        cases his
        exact hmain _ hi
    generalize Typed.statementsOf program = ss at hstatements ⊢
    induction ss with
    | nil => rintro _ ⟨⟩
    | cons s ss ih =>
      intro i hi
      obtain hi | hi := mem_append.mp hi
      · exact hstatements s mem_cons_self i hi
      · exact ih (fun s hs => hstatements s (mem_cons_of_mem _ hs)) i hi

/-! ### Whole sources -/

/-- All that is read without reports is whole; a tree that is not whole comes with a report. -/
theorem parse_whole (file : Option Nat) (source : List UInt8) :
  ((parse file source).diagnostics = [] →
      ∀ i ∈ (parse file source).unit.items, i.isWhole = true) ∧
    ((∃ i ∈ (parse file source).unit.items, i.isWhole = false) →
      (parse file source).diagnostics ≠ [])
  := by
  refine ⟨whole_of_parse, ?_⟩
  rintro ⟨i, hi, hbroken⟩ h
  rw [whole_of_parse h i hi] at hbroken
  cases hbroken

/-- A function that leaves a loop and returns, and a loop that goes on. -/
def rounds : List UInt8 :=
  ("def f(n): while n > 0: break; end; return f\"\x7bn\x7d\"; end; " ++
    "for i in [1]: continue; end;").toList.map byte

/-- The same words out of place. -/
def strays : List UInt8 :=
  "break; return (1;".toList.map byte

theorem rounds_whole :
  (∀ i ∈ (parse none rounds).unit.items, i.isWhole = true) ∧ (parse none strays).diagnostics ≠ []
  := by
  have hquiet : (parse none rounds).diagnostics = [] := by decide +kernel
  have hbroken : ∃ i ∈ (parse none strays).unit.items, i.isWhole = false := by decide +kernel
  exact ⟨(parse_whole none rounds).1 hquiet, (parse_whole none strays).2 hbroken⟩

end Endmark.Tree
