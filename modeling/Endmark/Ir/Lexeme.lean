import Endmark.Ir.Printer

/-!
# Words and marks of the intermediate language

A text is taken apart into lexemes, each with the number of its line.  A semicolon ends a
line as a line feed does, without starting a new number, and a comment goes from `#` to the
end of the line.
-/

namespace Endmark.Ir

open Number (Binary64)

/-- The smallest parts of a text. -/
inductive Lexeme where
  | word (text : String)
  | var (name : String)
  | global (name : String)
  | int (value : Int64)
  | float (value : Binary64)
  | str (text : String)
  | mark (c : Char)
  | arrow
  | newline
deriving DecidableEq, Repr, Inhabited

/-- How reports speak of a lexeme. -/
def Lexeme.describe : Lexeme → String
  | word text => s!"`{text}`"
  | var name => s!"`%{name}`"
  | global name => s!"`@{name}`"
  | int value => s!"`{value.toInt}`"
  | float value => s!"`{value.write}`"
  | str _ => "string"
  | mark c => s!"`{c}`"
  | arrow => "`->`"
  | newline => "end of line"

/-- What can be wrong with a text. -/
inductive Fault where
  | nameAfter (c : Char)
  | unterminatedString
  | unicodeEscape
  | unknownEscape (c : Char)
  | invalidNumber (text : String)
  | unexpectedChar (c : Char)
  | expectedMark (c : Char) (found : Lexeme)
  | expectedLineEnd (found : Lexeme)
  | expectedWord (found : Lexeme)
  | expectedGlobal (found : Lexeme)
  | expectedVar (found : Lexeme)
  | expectedInt (found : Lexeme)
  | expectedOperand (found : Lexeme)
  | expectedDestination (found : Lexeme)
  | expectedRawText (found : Lexeme)
  | expectedInstruction (found : Lexeme)
  | expectedArrow
  | expectedString (found : Lexeme)
  | expectedStringName
  | unknownType (name : String)
  | unknownInstruction (name : String)
  | notDefinedOn (name : String) (ty : WordType)
  | needsDestination (name : String)
  | missingBrace (function : String)
  | stringOrder (next : Nat)
  | unexpectedWord (text : String)
  | unexpectedBrace
deriving DecidableEq, Repr

def Fault.message : Fault → String
  | .nameAfter c => s!"expected a name after `{c}`"
  | .unterminatedString => "unterminated string"
  | .unicodeEscape => "bad unicode escape"
  | .unknownEscape c => s!"unknown escape `\\{c}`"
  | .invalidNumber text => s!"invalid number `{text}`"
  | .unexpectedChar c => s!"unexpected character `{c}`"
  | .expectedMark c found => s!"expected `{c}`, found {found.describe}"
  | .expectedLineEnd found => s!"expected end of line, found {found.describe}"
  | .expectedWord found => s!"expected a name, found {found.describe}"
  | .expectedGlobal found => s!"expected `@name`, found {found.describe}"
  | .expectedVar found => s!"expected `%name`, found {found.describe}"
  | .expectedInt found => s!"expected an integer, found {found.describe}"
  | .expectedOperand found => s!"expected an operand, found {found.describe}"
  | .expectedDestination found => s!"expected a destination, found {found.describe}"
  | .expectedRawText found => s!"expected a string after `asm`, found {found.describe}"
  | .expectedInstruction found => s!"expected an instruction, found {found.describe}"
  | .expectedArrow => "expected `->` after the parameter list"
  | .expectedString found => s!"expected a string, found {found.describe}"
  | .expectedStringName => "expected `@str.N`"
  | .unknownType name => s!"unknown type `{name}`"
  | .unknownInstruction name => s!"unknown instruction `{name}`"
  | .notDefinedOn name ty => s!"`{name}` is not defined on `{ty.name}`"
  | .needsDestination name => s!"`{name}` needs a destination"
  | .missingBrace function => s!"function `@{function}` is missing `\x7d`"
  | .stringOrder next => s!"string constants must be numbered in order, expected @str.{next}"
  | .unexpectedWord text => s!"unexpected `{text}` at module level"
  | .unexpectedBrace => "unexpected `\x7d`"

def Fault.messageAt (fault : Fault) (line : Nat) : String :=
  s!"line {line}: {fault.message}"

/-- Why a text is not read. -/
inductive ReadError where
  | fault (line : Nat) (fault : Fault)
  /-- A unicode escape without an opening brace right before the closing one; nothing is
  reported of it, and all work on the text is given up.  What is left of a text is a list of
  characters here, and all other parts that are taken of it are in range by construction. -/
  | abandoned
deriving DecidableEq, Repr

/-- What a mapped result comes from. -/
theorem of_map_ok {α β ε : Type} {f : α → β} {x : Except ε α} {b : β} (h : x.map f = .ok b) :
  ∃ a, x = .ok a ∧ f a = b
  := by
  cases x with
  | error e => cases h
  | ok a => exact ⟨a, rfl, Except.ok.inj h⟩

/-! ### Strings -/

/-- The character of a unicode escape, given what stands between the mark and the closing
brace.  The first character there is passed over. -/
def unicodeChar? (group : List Char) : Option Char :=
  match Number.readUnsigned 16 0x100000000 (group.drop 1) with
  | some n => if n.isValidChar then some (Char.ofNat n) else none
  | none => none

/-- The character that a backslash before `c` spells in a string, if it spells one. -/
def stringEscape? (c : Char) : Option Char :=
  if c = '\'' then none else Text.escaped? c

/-- The text of a string after its opening quote, and what follows the closing one. -/
def stringBody (line : Nat) : List Char → Except ReadError (List Char × List Char)
  | [] | '\n' :: _ | ['\\'] => .error (.fault line .unterminatedString)
  | '"' :: cs => .ok ([], cs)
  | '\\' :: 'u' :: cs =>
    match _closed : Text.cut? '\x7d' cs with
    | none => .error (.fault line .unicodeEscape)
    | some ([], _) => .error .abandoned
    | some (group, rest) =>
      match unicodeChar? group with
      | none => .error (.fault line .unicodeEscape)
      | some c => (stringBody line rest).map fun (text, rest) => (c :: text, rest)
  | '\\' :: c :: cs =>
    match stringEscape? c with
    | none => .error (.fault line (.unknownEscape c))
    | some e => (stringBody line cs).map fun (text, rest) => (e :: text, rest)
  | c :: cs => (stringBody line cs).map fun (text, rest) => (c :: text, rest)
termination_by cs => cs.length
decreasing_by
  · have := Text.length_of_cut? _closed
    simp only [List.length_cons]
    omega
  · simp only [List.length_cons]
    omega
  · simp only [List.length_cons]
    omega

/-! ### Numbers -/

/-- The characters that go on a number, given the one before them.  A sign goes on one only
after the mark of an exponent. -/
def numberRun : Char → List Char → List Char
  | _, [] => []
  | before, c :: cs =>
    let sign := (c == '+' || c == '-') && (before == 'e' || before == 'E')
    if Text.isAlphanumeric c || c == '.' || c == '_' || sign then c :: numberRun c cs else []

/-- An integer in a radix other than ten. -/
def radixInt? (radix : Nat) (negative : Bool) (digits : List Char) : Option Lexeme :=
  let limit := Int.ofNat (Nat.pow 2 127)
  match Number.readSigned radix (-limit) (limit - 1) digits with
  | none => none
  | some magnitude =>
    let value := if negative then -magnitude else magnitude
    if Number.minInt64 ≤ value ∧ value ≤ Number.maxInt64 then some (.int (.ofInt value)) else none

/-- A number without a radix mark. -/
def decimal? (text : List Char) : Option Lexeme :=
  match Number.readInt64 10 text with
  | some value => some (.int value)
  | none => (Binary64.read text).map .float

/-- A number, if the whole text is one. -/
def number? (text : List Char) : Option Lexeme :=
  let (negative, digits) := match text with
    | '-' :: rest => (true, rest)
    | _ => (false, text)
  match digits with
  | '0' :: 'x' :: rest | '0' :: 'X' :: rest => radixInt? 16 negative rest
  | '0' :: 'b' :: rest | '0' :: 'B' :: rest => radixInt? 2 negative rest
  | '0' :: 'o' :: rest | '0' :: 'O' :: rest => radixInt? 8 negative rest
  | _ => decimal? text

/-! ### Lexemes -/

/-- May a name contain the character? -/
def isNameChar (c : Char) : Bool :=
  Text.isAlphanumeric c || c == '_' || c == '.' || c == '$'

def startsWord (c : Char) : Bool :=
  c.isAlpha || c == '_' || c == '.'

/-- Is the character a lexeme of its own? -/
def isMark (c : Char) : Bool :=
  c == '(' || c == ')' || c == ',' || c == ':' || c == '=' || c == '\x7b' || c == '\x7d'

/-- Does a number start with `c`, when `cs` follows? -/
def startsNumber (c : Char) (cs : List Char) : Bool :=
  c.isDigit ||
    (c == '-' &&
      match cs with
      | n :: _ => n.isDigit || n == 'i' || n == 'N'
      | [] => false)

/-- A word, or a float that is written as one. -/
def wordLexeme (text : List Char) : Lexeme :=
  match String.ofList text with
  | "NaN" => .float (Binary64.ofParts false 0x7FF8000000000000)
  | "inf" => .float (Binary64.infinity false)
  | word => .word word

/-- The lexeme that starts with `c`, which is neither blank nor the start of a comment, and
what follows it. -/
def lexemeAt (line : Nat) (c : Char) (cs : List Char) : Except ReadError (Lexeme × List Char) :=
  if c == '\n' || c == ';' then
    .ok (.newline, cs)
  else if c == '%' || c == '@' then
    let name := String.ofList (cs.takeWhile isNameChar)
    if name.isEmpty then
      .error (.fault line (.nameAfter c))
    else
      .ok (if c == '%' then .var name else .global name, cs.dropWhile isNameChar)
  else if c == '"' then
    (stringBody line cs).map fun (text, rest) => (.str (String.ofList text), rest)
  else if c == '-' && cs.head? == some '>' then
    .ok (.arrow, cs.tail)
  else if startsNumber c cs then
    let run := numberRun c cs
    let text := (c :: run).filter (· != '_')
    match number? text with
    | some lexeme => .ok (lexeme, cs.drop run.length)
    | none => .error (.fault line (.invalidNumber (String.ofList text)))
  else if startsWord c then
    .ok (wordLexeme (c :: cs.takeWhile isNameChar), cs.dropWhile isNameChar)
  else if isMark c then
    .ok (.mark c, cs)
  else
    .error (.fault line (.unexpectedChar c))

theorem suffix_of_stringBody {line : Nat} {cs text rest : List Char}
    (h : stringBody line cs = .ok (text, rest)) :
  rest <:+ cs
  := by
  fun_induction stringBody line cs generalizing text rest with
  | case1 | case2 | case3 | case5 | case6 | case7 | case9 => simp at h
  | case4 cs =>
    simp at h
    simp [h.2]
  | case8 _ group _ _ hcut _ _ ih =>
    obtain ⟨_, hr, heq⟩ := of_map_ok h
    cases heq
    rw [Text.eq_of_cut? hcut]
    exact (ih hr).trans ⟨'\\' :: 'u' :: (group ++ ['\x7d']), by simp⟩
  | case10 c _ _ _ _ ih =>
    obtain ⟨_, hr, heq⟩ := of_map_ok h
    cases heq
    exact (ih hr).trans ⟨['\\', c], rfl⟩
  | case11 c _ _ _ _ _ _ ih =>
    obtain ⟨_, hr, heq⟩ := of_map_ok h
    cases heq
    exact (ih hr).trans ⟨[c], rfl⟩

theorem suffix_of_lexemeAt {line : Nat} {c : Char} {cs rest : List Char} {lexeme : Lexeme}
    (h : lexemeAt line c cs = .ok (lexeme, rest)) :
  rest <:+ cs
  := by
  have hdrop : cs.dropWhile isNameChar <:+ cs := List.dropWhile_suffix _
  unfold lexemeAt at h
  split at h
  · cases h
    exact List.suffix_rfl
  split at h
  · simp only at h
    split at h
    · cases h
    · cases h
      exact hdrop
  split at h
  · obtain ⟨_, hr, heq⟩ := of_map_ok h
    cases heq
    exact suffix_of_stringBody hr
  split at h
  · cases h
    exact List.tail_suffix _
  split at h
  · simp only at h
    split at h
    · cases h
      exact List.drop_suffix ..
    · cases h
  split at h
  · cases h
    exact hdrop
  split at h
  · cases h
    exact List.suffix_rfl
  · cases h

/-- The lexemes of a text whose first line has the given number, each with its line.  The
last one is the end of a line. -/
def lexemesFrom (line : Nat) : List Char → Except ReadError (List (Lexeme × Nat))
  | [] => .ok [(.newline, line)]
  | c :: cs =>
    if c != '\n' && Text.isBlank c then
      lexemesFrom line cs
    else if c == '#' then
      lexemesFrom line (cs.dropWhile (· != '\n'))
    else
      match _read : lexemeAt line c cs with
      | .error e => .error e
      | .ok (lexeme, rest) =>
        (lexemesFrom (if c == '\n' then line + 1 else line) rest).map ((lexeme, line) :: ·)
termination_by cs => cs.length
decreasing_by
  · simp
  · have : (cs.dropWhile (· != '\n')).length ≤ cs.length := (List.dropWhile_sublist _).length_le
    simp only [List.length_cons]
    omega
  · have := (suffix_of_lexemeAt _read).length_le
    simp only [List.length_cons]
    omega

/-- The lexemes of a text with their lines. -/
def lexemes (text : String) : Except ReadError (List (Lexeme × Nat)) :=
  lexemesFrom 1 text.toList

end Endmark.Ir
