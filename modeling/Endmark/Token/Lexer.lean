import Endmark.Diagnostic
import Endmark.Token.Basic

/-!
# Cutting a source into tokens

Layout only separates tokens.  After one of the words that open a raw block, a brace starts
a payload that ends at the matching brace and is cut no further.

A lexeme is found by looking at the bytes ahead, and is described by widths alone; the place
of a token is added afterwards.  A source is read up to a given end, but whether an exponent
follows a number is decided by the bytes of the whole source, also beyond that end.
-/

namespace Endmark.Token

open Text

/-- What can be wrong with a piece of source. -/
inductive LexFault where
  | unterminatedString
  | unterminatedRawBlock
deriving DecidableEq, Repr

def LexFault.message : LexFault → String
  | .unterminatedString => "unterminated string literal"
  | .unterminatedRawBlock => "unterminated raw block: missing closing `\x7d`"

/-- A fault where it stands. -/
structure LexError where
  fault : LexFault
  span : Span
deriving DecidableEq, Repr

def LexError.diagnostic (e : LexError) : Diagnostic :=
  .error .lex e.span e.fault.message

/-- Is the byte one of those that only separate tokens? -/
def isSeparator (b : UInt8) : Bool :=
  b == byte ' ' || b == byte '\t' || b == byte '\n' || b == byte '\r' || b == 0x0C

/-- May a name begin with the byte? -/
def isNameStart (b : UInt8) : Bool :=
  isLetterByte b || b == byte '_'

/-- May the byte stand in a name? -/
def isNamePart (b : UInt8) : Bool :=
  isNameStart b || isDigitByte b

/-- The number of bytes of layout and comments ahead; a comment goes to the end of its
line. -/
def layoutWidth (inComment : Bool) : List UInt8 → Nat
  | [] => 0
  | b :: rest =>
    if inComment then
      layoutWidth (b != byte '\n') rest + 1
    else if isSeparator b then
      layoutWidth false rest + 1
    else if b == byte '#' then
      layoutWidth true rest + 1
    else
      0

/-- The number of bytes at the start that satisfy `p`. -/
def runWidth (p : UInt8 → Bool) (ahead : List UInt8) : Nat :=
  (ahead.takeWhile p).length

/-- The bytes of a string up to its closing quote, and whether there is one.  A string ends
with its line, but a backslash takes the next byte with it, whatever it is. -/
def stringWidth (quote : UInt8) : List UInt8 → Nat × Bool
  | [] => (0, false)
  | b :: rest =>
    if b == byte '\\' then
      match rest with
      | [] => (1, false)
      | _ :: rest =>
        let (width, closed) := stringWidth quote rest
        (width + 2, closed)
    else if b == byte '\n' then
      (0, false)
    else if b == quote then
      (0, true)
    else
      let (width, closed) := stringWidth quote rest
      (width + 1, closed)

/-- The bytes of a raw payload before the brace that closes it, with `depth` further braces
open. -/
def payloadWidth? (depth : Nat) : List UInt8 → Option Nat
  | [] => none
  | b :: rest =>
    if b == byte '\x7b' then
      (payloadWidth? (depth + 1) rest).map (· + 1)
    else if b == byte '\x7d' then
      match depth with
      | 0 => some 0
      | depth + 1 => (payloadWidth? depth rest).map (· + 1)
    else
      (payloadWidth? depth rest).map (· + 1)

/-! ### Numbers -/

def digitsWidth (ahead : List UInt8) : Nat :=
  runWidth (fun b => isDigitByte b || b == byte '_') ahead

/-- Does the byte mark a radix after a zero? -/
def isRadixMark (b : UInt8) : Bool :=
  [byte 'x', byte 'X', byte 'b', byte 'B', byte 'o', byte 'O'].contains b

def isSign (b : UInt8) : Bool :=
  b == byte '+' || b == byte '-'

/-- The width of the point and the digits after it; without a digit there is none. -/
def fractionWidth (ahead : List UInt8) : Nat :=
  match ahead with
  | point :: digit :: rest =>
    if point == byte '.' && isDigitByte digit then digitsWidth (digit :: rest) + 1 else 0
  | _ => 0

/-- Do the bytes start with a digit, or with a sign and a digit? -/
def startsExponent : List UInt8 → Bool
  | [] => false
  | b :: rest => isDigitByte b || (isSign b && rest.head?.any isDigitByte)

/-- The width of the exponent; `beyond` are the bytes after the end of what is read. -/
def exponentWidth (beyond ahead : List UInt8) : Nat :=
  match ahead with
  | [] => 0
  | mark :: rest =>
    if (mark == byte 'e' || mark == byte 'E') && startsExponent (rest.take 2 ++ beyond) then
      let sign := runWidth isSign (rest.take 1)
      1 + sign + digitsWidth (rest.drop sign)
    else
      0

/-- The kind and the width of a number. -/
def numberWidth (beyond ahead : List UInt8) : Kind × Nat :=
  match ahead with
  | zero :: mark :: rest =>
    if zero == byte '0' && isRadixMark mark then
      (.intLiteral, 2 + runWidth (fun b => isLetterByte b || isDigitByte b || b == byte '_') rest)
    else
      decimal
  | _ => decimal
where
  /-- A number without a mark for its radix. -/
  decimal : Kind × Nat :=
    let whole := digitsWidth ahead
    let fraction := fractionWidth (ahead.drop whole)
    let exponent := exponentWidth beyond (ahead.drop (whole + fraction))
    (if fraction + exponent = 0 then .intLiteral else .floatLiteral, whole + fraction + exponent)

/-! ### Lexemes -/

/-- A piece of source at the head of what is ahead. -/
inductive Lexeme where
  /-- A token of `width` bytes, the first `lead` and the last `trail` of which are not part
  of its text. -/
  | token (kind : Kind) (width lead trail : Nat)
  /-- A fault, reported at the first byte, that takes up `width` bytes. -/
  | fault (fault : LexFault) (width : Nat)
deriving DecidableEq, Repr

/-- The bytes taken up by a lexeme. -/
def Lexeme.width : Lexeme → Nat
  | .token _ width _ _ => width
  | .fault _ width => width

/-- A token all of which is its text. -/
def Lexeme.plain (kind : Kind) (width : Nat) : Lexeme :=
  .token kind width 0 0

/-- A string after `lead` bytes, the last of which is its opening quote. -/
def Lexeme.quoted (kind : Kind) (lead : Nat) (quote : UInt8) (body : List UInt8) : Lexeme :=
  match stringWidth quote body with
  | (width, true) => .token kind (lead + width + 1) lead 1
  | (width, false) => .fault .unterminatedString (lead + width)

def isQuote (b : UInt8) : Bool :=
  b == byte '"' || b == byte '\''

/-- The kind of a token that is one byte and no start of a longer one. -/
def single? (b : UInt8) : Option Kind :=
  if b == byte '(' then some .leftParen
  else if b == byte ')' then some .rightParen
  else if b == byte '[' then some .leftBracket
  else if b == byte ']' then some .rightBracket
  else if b == byte '\x7b' then some .leftBrace
  else if b == byte '\x7d' then some .rightBrace
  else if b == byte ',' then some .comma
  else if b == byte ';' then some .semicolon
  else if b == byte ':' then some .colon
  else if b == byte '.' then some .dot
  else if b == byte '%' then some .percent
  else none

/-- The kind of a token of two bytes. -/
def double? (b c : UInt8) : Option Kind :=
  if b == byte '-' && c == byte '>' then some .arrow
  else if b == byte '*' && c == byte '*' then some .starStar
  else if b == byte '/' && c == byte '/' then some .slashSlash
  else if c == byte '=' then
    if b == byte '+' then some .plusEqual
    else if b == byte '-' then some .minusEqual
    else if b == byte '*' then some .starEqual
    else if b == byte '/' then some .slashEqual
    else if b == byte '=' then some .equalEqual
    else if b == byte '!' then some .notEqual
    else if b == byte '<' then some .lessEqual
    else if b == byte '>' then some .greaterEqual
    else none
  else none

/-- The kind of an operator of one byte that may also start a longer one. -/
def operator? (b : UInt8) : Option Kind :=
  if b == byte '+' then some .plus
  else if b == byte '-' then some .minus
  else if b == byte '*' then some .star
  else if b == byte '/' then some .slash
  else if b == byte '=' then some .equal
  else if b == byte '<' then some .less
  else if b == byte '>' then some .greater
  else none

/-- The lexeme at the head of `b :: rest`, where no layout is ahead. -/
def lexemeAt (beyond : List UInt8) (b : UInt8) (rest : List UInt8) : Lexeme :=
  if isQuote b then
    .quoted .stringLiteral 1 b rest
  else if isDigitByte b then
    let (kind, width) := numberWidth beyond (b :: rest)
    .plain kind width
  else if isNameStart b then
    match rest with
    | q :: body =>
      if (b == byte 'f' || b == byte 'F') && isQuote q then .quoted .fstringLiteral 2 q body
      else name
    | [] => name
  else
    match single? b, rest.head?.bind (double? b), operator? b with
    | some kind, _, _ => .plain kind 1
    | none, some kind, _ => .plain kind 2
    | none, none, some kind => .plain kind 1
    -- All bytes of a character are kept in one token.
    | none, none, none => .plain .unknown (1 + runWidth isContinuation rest)
where
  /-- A name or a word with a meaning of its own. -/
  name : Lexeme :=
    let width := 1 + runWidth isNamePart rest
    let word := ofBytes ((b :: rest).take width)
    .plain ((keyword? word).getD .ident) width

/-- The lexemes of a raw block whose payload has `width` bytes. -/
def rawBlock (width : Nat) : List Lexeme :=
  [.plain .rawOpen 1, .plain .rawText width, .plain .rawClose 1]

/-! ### Tokens -/

abbrev Item := Except LexError Token

/-- The place of a lexeme: its file, the offset of its first byte, whether nothing stands
before it on its line, and its first byte and all that follow. -/
structure Site where
  file : Option Nat
  offset : Nat
  opensLine : Bool
  ahead : List UInt8

/-- What a lexeme gives. -/
def Site.item (s : Site) : Lexeme → Item
  | .token kind width lead trail =>
    .ok {
      kind
      span := ⟨s.file, s.offset, s.offset + width⟩
      textStart := s.offset + lead
      textStop := s.offset + width - trail
      text := ofBytes ((s.ahead.take (width - trail)).drop lead)
      opensLine := s.opensLine }
  | .fault fault _ => .error ⟨fault, ⟨s.file, s.offset, s.offset + 1⟩⟩

/-- The place behind a lexeme. -/
def Site.after (s : Site) (l : Lexeme) : Site :=
  { s with offset := s.offset + l.width, opensLine := false, ahead := s.ahead.drop l.width }

/-- The place after the layout ahead. -/
def Site.skipLayout (s : Site) : Site :=
  let width := layoutWidth false s.ahead
  { s with
    offset := s.offset + width
    opensLine :=
      match (s.ahead.take width).getLast? with
      | some last => last == byte '\n'
      | none => s.opensLine
    ahead := s.ahead.drop width }

/-- The results for lexemes that follow each other, and the place after them. -/
def Site.items (s : Site) : List Lexeme → List Item × Site
  | [] => ([], s)
  | l :: ls =>
    let (items, last) := (s.after l).items ls
    (s.item l :: items, last)

/-- Does a brace after the lexeme open a raw block? -/
def Lexeme.opensRaw : Lexeme → Bool
  | .token kind _ _ _ => kind == .wordAilang || kind == .wordAsm
  | .fault _ _ => false

/-- The results from a place on, at most `fuel` lexemes, where `raw` tells whether a brace
opens a raw block, and the last result is the end of the file at `stop`. -/
def scan (beyond : List UInt8) (stop : Nat) : Nat → Bool → Site → List Item
  | 0, _, _ => []
  | fuel + 1, raw, site =>
    let site := site.skipLayout
    match site.ahead with
    | [] => [.ok (atEnd site.file stop)]
    | b :: rest =>
      if raw && b == byte '\x7b' then
        match payloadWidth? 0 rest with
        | some width =>
          let (items, last) := site.items (rawBlock width)
          items ++ scan beyond stop fuel false last
        | none =>
          -- No brace closes the block, so its payload is the rest of the source.
          [site.item (.plain .rawOpen 1),
            .error ⟨.unterminatedRawBlock, ⟨site.file, site.offset, site.offset + 1⟩⟩,
            .ok (atEnd site.file stop)]
      else
        let lexeme := lexemeAt beyond b rest
        site.item lexeme :: scan beyond stop fuel lexeme.opensRaw (site.after lexeme)

/-- The results for the bytes from `start` to `stop` of a source, or to its end if that
comes first. -/
def itemsBetween (file : Option Nat) (source : List UInt8) (start stop : Nat) : List Item :=
  let stop := min stop source.length
  let ahead := (source.take stop).drop start
  let opensLine := start == 0 || source[start - 1]? == some (byte '\n')
  scan (source.drop stop) stop (ahead.length + 1) false ⟨file, start, opensLine, ahead⟩

/-- The results for bytes that stand by themselves, the first of them at `offset`. -/
def itemsAt (file : Option Nat) (offset : Nat) (ahead : List UInt8) : List Item :=
  scan [] (offset + ahead.length) (ahead.length + 1) false ⟨file, offset, false, ahead⟩

/-- The tokens and faults of a source. -/
def itemsOf (file : Option Nat) (source : List UInt8) : List Item :=
  itemsBetween file source 0 source.length

def tokensIn (items : List Item) : List Token :=
  items.filterMap Except.toOption

/-- The faults among the results. -/
def errorsIn (items : List Item) : List LexError :=
  items.filterMap fun
    | .error e => some e
    | .ok _ => none

/-- The tokens of a source and the reports of its faults.  The last token is the end of the
file. -/
def lex (file : Option Nat) (source : List UInt8) : List Token × List Diagnostic :=
  let items := itemsOf file source
  (tokensIn items, (errorsIn items).map (·.diagnostic))

end Endmark.Token
