import Endmark.Tree.Basic
import Endmark.Token.Lexer

/-!
# What can be wrong with a source

The causes that reading a tree reports, and their wording.
-/

namespace Endmark.Tree

/-- The constructs that are closed by an end mark. -/
inductive Construct where
  | function
  | branch
  | whileLoop
  | forLoop
deriving DecidableEq, Repr

def Construct.keyword : Construct → String
  | .function => "def"
  | .branch => "if"
  | .whileLoop => "while"
  | .forLoop => "for"

/-- Blocks and expressions are nested at most this deep, counted together. -/
def maxNesting : Nat := 100

/-- The reasons for which a source is refused. -/
inductive Fault where
  | lexical (fault : Token.LexFault)
  | expected (wanted : Token.Kind) (place : String) (found : Token.Kind)
  | expectedType (found : Token.Kind)
  | expectedExpression (found : Token.Kind)
  | strayEnd
  | strayBranch (found : Token.Kind)
  | neverClosed (block : Construct)
  | notClosedBeforeDef (block : Construct)
  | tooDeep
  | endWithoutSemicolon
  | outsideLoop (found : Token.Kind)
  | outsideFunction
  | unsupportedWord (word : String)
  | unexpectedCharacter (text : String)
  | chainedAssignment
  | invalidTarget
  | nestedFunction
  | elifAfterElse
  | secondElse
  | chainedComparison
  | calledExpression
  | attributeAccess
  | intOutOfRange (text : String)
  | invalidFloat (text : String)
  | tuple
  | unterminatedField
  | strayBrace
  | emptyField
  | afterField (found : Token.Kind)
deriving DecidableEq, Repr

def Fault.message : Fault → String
  | .lexical fault => fault.message
  | .expected wanted place found =>
    s!"expected {wanted.describe} {place}, found {found.describe}"
  | .expectedType found => s!"expected a type, found {found.describe}"
  | .expectedExpression found => s!"expected expression, found {found.describe}"
  | .strayEnd => "`end` without an open block"
  | .strayBranch found => s!"{found.describe} without a matching `if`"
  | .neverClosed block =>
    s!"`{block.keyword}` block is never closed: expected `end;` before end of file"
  | .notClosedBeforeDef block =>
    s!"`{block.keyword}` block is never closed: " ++
      "expected `end;` before the next function definition"
  | .tooDeep => s!"nesting too deep: more than {maxNesting} levels"
  | .endWithoutSemicolon => "expected `;` after `end`"
  | .outsideLoop found => s!"{found.describe} outside of a loop"
  | .outsideFunction => "`return` outside of a function"
  | .unsupportedWord word => s!"`{word}` is not supported"
  | .unexpectedCharacter text => s!"unexpected character `{text}`"
  | .chainedAssignment => "chained assignment is not supported"
  | .invalidTarget => "invalid assignment target"
  | .nestedFunction => "function definitions are only allowed at the top level"
  | .elifAfterElse => "`elif` after `else`"
  | .secondElse => "`if` statement has more than one `else`"
  | .chainedComparison => "chained comparisons are not supported"
  | .calledExpression => "only named functions can be called"
  | .attributeAccess => "attribute access is not supported"
  | .intOutOfRange text => s!"integer literal `{text}` is out of range"
  | .invalidFloat text => s!"invalid float literal `{text}`"
  | .tuple => "tuples are not supported"
  | .unterminatedField => "unterminated `\x7b` in f-string"
  | .strayBrace => "single `\x7d` is not allowed in f-string"
  | .emptyField => "empty expression in f-string"
  | .afterField found => s!"unexpected {found.describe} in f-string field"

end Endmark.Tree
