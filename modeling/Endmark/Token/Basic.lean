import Endmark.Source.Span

/-!
# Tokens

The words of a source.  A token knows its text and its place, so that what reads tokens
needs the source no more.
-/

namespace Endmark

namespace Token

/-- The kinds of tokens. -/
inductive Kind where
  | endOfFile
  | unknown
  | ident
  | intLiteral
  | floatLiteral
  | stringLiteral
  | fstringLiteral
  | boolLiteral
  | noneLiteral
  | rawOpen
  | rawText
  | rawClose
  | leftParen
  | rightParen
  | leftBracket
  | rightBracket
  | leftBrace
  | rightBrace
  | comma
  | semicolon
  | colon
  | dot
  | arrow
  | plus
  | minus
  | star
  | starStar
  | slash
  | slashSlash
  | percent
  | equal
  | equalEqual
  | notEqual
  | less
  | lessEqual
  | greater
  | greaterEqual
  | plusEqual
  | minusEqual
  | starEqual
  | slashEqual
  | wordDef
  | wordFunc
  | wordEnd
  | wordReturn
  | wordIf
  | wordElif
  | wordElse
  | wordFor
  | wordWhile
  | wordIn
  | wordBreak
  | wordContinue
  | wordPass
  | wordAnd
  | wordOr
  | wordNot
  | wordAilang
  | wordAsm
  /-- A word kept free, with no meaning in the language. -/
  | reserved
deriving DecidableEq, Repr, Inhabited

/-- How reports speak of a kind. -/
def Kind.describe : Kind → String
  | .endOfFile => "end of file"
  | .unknown => "unknown character"
  | .ident => "identifier"
  | .intLiteral => "integer literal"
  | .floatLiteral => "float literal"
  | .stringLiteral => "string literal"
  | .fstringLiteral => "f-string"
  | .boolLiteral => "boolean literal"
  | .noneLiteral => "`None`"
  | .rawOpen | .leftBrace => "`\x7b`"
  | .rawText => "raw block contents"
  | .rawClose | .rightBrace => "`\x7d`"
  | .leftParen => "`(`"
  | .rightParen => "`)`"
  | .leftBracket => "`[`"
  | .rightBracket => "`]`"
  | .comma => "`,`"
  | .semicolon => "`;`"
  | .colon => "`:`"
  | .dot => "`.`"
  | .arrow => "`->`"
  | .plus => "`+`"
  | .minus => "`-`"
  | .star => "`*`"
  | .starStar => "`**`"
  | .slash => "`/`"
  | .slashSlash => "`//`"
  | .percent => "`%`"
  | .equal => "`=`"
  | .equalEqual => "`==`"
  | .notEqual => "`!=`"
  | .less => "`<`"
  | .lessEqual => "`<=`"
  | .greater => "`>`"
  | .greaterEqual => "`>=`"
  | .plusEqual => "`+=`"
  | .minusEqual => "`-=`"
  | .starEqual => "`*=`"
  | .slashEqual => "`/=`"
  | .wordDef => "`def`"
  | .wordFunc => "`func`"
  | .wordEnd => "`end`"
  | .wordReturn => "`return`"
  | .wordIf => "`if`"
  | .wordElif => "`elif`"
  | .wordElse => "`else`"
  | .wordFor => "`for`"
  | .wordWhile => "`while`"
  | .wordIn => "`in`"
  | .wordBreak => "`break`"
  | .wordContinue => "`continue`"
  | .wordPass => "`pass`"
  | .wordAnd => "`and`"
  | .wordOr => "`or`"
  | .wordNot => "`not`"
  | .wordAilang => "`ailang`"
  | .wordAsm => "`asm`"
  | .reserved => "reserved keyword"

/-- The words with a meaning of their own, and those kept free. -/
def keyword? (word : String) : Option Kind :=
  match word with
  | "def" => some .wordDef
  | "func" => some .wordFunc
  | "end" => some .wordEnd
  | "return" => some .wordReturn
  | "if" => some .wordIf
  | "elif" => some .wordElif
  | "else" => some .wordElse
  | "for" => some .wordFor
  | "while" => some .wordWhile
  | "in" => some .wordIn
  | "break" => some .wordBreak
  | "continue" => some .wordContinue
  | "pass" => some .wordPass
  | "and" => some .wordAnd
  | "or" => some .wordOr
  | "not" => some .wordNot
  | "ailang" => some .wordAilang
  | "asm" => some .wordAsm
  | "True" | "False" => some .boolLiteral
  | "None" => some .noneLiteral
  | "class" | "import" | "from" | "as" | "is" | "lambda" | "try" | "except" | "finally"
  | "with" | "global" | "nonlocal" | "yield" | "del" | "raise" | "assert" | "async"
  | "await" => some .reserved
  | _ => none

end Token

/-- A word of a source.  The text of a string is what stands between its quotes, at the
offsets `textStart` and `textStop`; the text of any other token is all of it. -/
structure Token where
  kind : Token.Kind
  span : Span
  textStart : Nat
  textStop : Nat
  text : String
  /-- Does nothing stand before the token on its line? -/
  opensLine : Bool
deriving DecidableEq, Repr, Inhabited

namespace Token

def atEnd (file : Option Nat) (offset : Nat) : Token :=
  ⟨.endOfFile, ⟨file, offset, offset⟩, offset, offset, "", false⟩

end Token

end Endmark
