import Endmark.Number.Decimal
import Endmark.Text.Escape
import Endmark.Tree.Cursor
import Endmark.Tree.FString

/-!
# Reading expressions

The levels of precedence, from the loosest to the tightest: `or`, `and`, `not`,
comparisons, sums, products, signs, powers, and what follows an operand.  A level reads its
operands with the next one; what may hold any expression again is read one level of nesting
deeper, and the levels left are counted down.
-/

namespace Endmark.Tree

open Token (Kind)

/-- The readers for expressions one level of nesting deeper. -/
structure Deeper where
  expr : Reader Expr
  negation : Reader Expr
  unary : Reader Expr

/-- Reads the expression of a field: the offset of its first byte, and its bytes. -/
abbrev FieldReader := Nat → List UInt8 → Reader (Option Expr)

namespace Reader

/-! ### Raw blocks and types -/

/-- A raw block, of which the opening word is next. -/
def rawBlock : Reader (Option RawBlock) := do
  let word ← advance
  let lang : Dialect := if word.kind == .wordAilang then .ailang else .asm
  match ← expect .rawOpen s!"after `{lang.keyword}`" with
  | none => return none
  | some opening =>
    let (payload, payloadSpan) ←
      if (← peek) == .rawText then do
        let text ← advance
        pure (text.text, text.span)
      else
        pure ("", opening.span)
    match ← expect .rawClose "to close the raw block" with
    | none => return none
    | some _ => return some ⟨lang, payload, payloadSpan⟩

/-- A type, read in at most `fuel` levels. -/
def typeExprIn : Nat → Reader (Option TypeExpr)
  | 0 => return none
  | fuel + 1 => do
    let token ← current
    match token.kind with
    | .ident =>
      modify Cursor.step
      let isList ← if token.text == "list" then eat .leftBracket else pure false
      if isList then
        match ← typeExprIn fuel with
        | none => return none
        | some item =>
          match ← expect .rightBracket "to close the list type" with
          | none => return none
          | some closing => return some (.list (token.span.join closing.span) item)
      else
        return some (.named token.span token.text)
    | .noneLiteral =>
      modify Cursor.step
      return some (.named token.span "None")
    | found =>
      report token.span (.expectedType found)
      return none

def typeExpr : Reader (Option TypeExpr) := do
  typeExprIn ((← tokensAhead) + 1)

/-! ### Operands -/

/-- Expressions with commas between them and an optional one at the end, up to a closing
bracket, which is left; at most `fuel` of them. -/
def commaListIn (expr : Reader Expr) (closing : Kind) : Nat → Reader (List Expr)
  | 0 => return []
  | fuel + 1 => do
    let item ← expr
    let more ← eat .comma
    if !more || (← peek) == closing then
      return [item]
    else
      return item :: (← commaListIn expr closing fuel)

/-- Expressions with commas between them, up to a closing bracket, which is left. -/
def commaList (expr : Reader Expr) (closing : Kind) : Reader (List Expr) := do
  if (← peek) == closing then
    return []
  else
    commaListIn expr closing ((← tokensAhead) + 1)

/-- The parts of an f-string, the body of which starts at the offset `base`. -/
def fstringParts (field : FieldReader) (file : Option Nat) (base : Nat) :
    List Segment → Reader (List FStringPart)
  | [] => return []
  | .text raw :: rest => do
    let text := String.ofList (Text.unescape (Text.ofBytes raw).toList)
    return .text text :: (← fstringParts field file base rest)
  | .field offset body :: rest => do
    match ← field (base + offset) body with
    | some expr => return .field expr :: (← fstringParts field file base rest)
    | none => fstringParts field file base rest
  | .stray offset :: rest => do
    report ⟨file, base + offset, base + offset + 1⟩ .strayBrace
    fstringParts field file base rest
  | .unclosed offset :: _ => do
    report ⟨file, base + offset, base + offset + 1⟩ .unterminatedField
    return []

/-- An operand without anything after it. -/
def primary (field : FieldReader) (deeper : Deeper) : Reader Expr := do
  let token ← current
  let span := token.span
  match token.kind with
  | .intLiteral =>
    modify Cursor.step
    match Number.literal? token.text with
    | some value => return .literal span (.int value)
    | none =>
      report span (.intOutOfRange token.text)
      return .error span
  | .floatLiteral =>
    modify Cursor.step
    let digits := token.text.toList.filter (· != '_')
    match Number.Binary64.read digits with
    | some value => return .literal span (.float value)
    | none =>
      report span (.invalidFloat (String.ofList digits))
      return .error span
  | .stringLiteral =>
    modify Cursor.step
    return .literal span (.str (String.ofList (Text.unescape token.text.toList)))
  | .fstringLiteral =>
    modify Cursor.step
    let body := segments (Text.bytes token.text)
    return .fstring span (← fstringParts field span.file token.textStart body)
  | .boolLiteral =>
    modify Cursor.step
    return .literal span (.bool (token.text == "True"))
  | .noneLiteral =>
    modify Cursor.step
    return .literal span .none
  | .ident =>
    modify Cursor.step
    return .name span token.text
  | .leftParen =>
    modify Cursor.step
    let inner ← deeper.expr
    let next ← current
    if next.kind == .comma then
      report next.span .tuple
    let _ ← expect .rightParen "to close the parenthesized expression"
    return inner.withSpan (← spanFrom span)
  | .leftBracket =>
    modify Cursor.step
    let items ← commaList deeper.expr .rightBracket
    let _ ← expect .rightBracket "to close the list"
    return .list (← spanFrom span) items
  | .wordAilang | .wordAsm =>
    match ← rawBlock with
    | some block => return .raw (← spanFrom span) block
    | none => return .error span
  | found =>
    report span (.expectedExpression found)
    return .error span

/-- An operand with the calls, subscripts and attributes after it, at most `fuel` of
them. -/
def suffixesIn (deeper : Deeper) : Nat → Expr → Reader Expr
  | 0, expr => return expr
  | fuel + 1, expr => do
    match ← peek with
    | .leftParen =>
      modify Cursor.step
      let args ← commaList deeper.expr .rightParen
      let _ ← expect .rightParen "to close the argument list"
      let span ← spanFrom expr.span
      match expr with
      | .name at_ name => suffixesIn deeper fuel (.call span ⟨name, at_⟩ args)
      | .error _ => suffixesIn deeper fuel (.error span)
      | _ =>
        report expr.span .calledExpression
        suffixesIn deeper fuel (.error span)
    | .leftBracket =>
      modify Cursor.step
      let index ← deeper.expr
      let _ ← expect .rightBracket "to close the subscript"
      suffixesIn deeper fuel (.index (← spanFrom expr.span) expr index)
    | .dot =>
      let dot ← advance
      report dot.span .attributeAccess
      let _ ← eat .ident
      suffixesIn deeper fuel (.error (← spanFrom expr.span))
    | _ => return expr

/-- A primary expression with its suffixes. -/
def operand (field : FieldReader) (deeper : Deeper) : Reader Expr := do
  let expr ← primary field deeper
  suffixesIn deeper (← tokensAhead) expr

/-! ### Operators -/

/-- Two operands joined by an operator. -/
def joined (op : BinaryOp) (lhs rhs : Expr) : Expr :=
  .binary (lhs.span.join rhs.span) op lhs rhs

/-- Operands joined from the left by the operators of one level, at most `fuel` of them. -/
def chainIn (op? : Kind → Option BinaryOp) (operand : Reader Expr) : Nat → Expr → Reader Expr
  | 0, lhs => return lhs
  | fuel + 1, lhs => do
    match op? (← peek) with
    | none => return lhs
    | some op =>
      modify Cursor.step
      let rhs ← operand
      chainIn op? operand fuel (joined op lhs rhs)

/-- Operands joined from the left by the operators of one level. -/
def chain (op? : Kind → Option BinaryOp) (operand : Reader Expr) : Reader Expr := do
  let lhs ← operand
  chainIn op? operand (← tokensAhead) lhs

/-- Powers associate to the right, and the exponent may carry its own sign. -/
def power (field : FieldReader) (deeper : Deeper) : Reader Expr := do
  let base ← operand field deeper
  if ← eat .starStar then
    return joined .pow base (← deeper.unary)
  else
    return base

/-- A unary operation. -/
def applied (op : UnaryOp) (operand : Reader Expr) : Reader Expr := do
  let token ← advance
  let expr ← operand
  return .unary (token.span.join expr.span) op expr

/-- A power with signs before it. -/
def unary (field : FieldReader) (deeper : Deeper) : Reader Expr := do
  match ← peek with
  | .minus => applied .neg deeper.unary
  | .plus => applied .plus deeper.unary
  | _ => power field deeper

def productOp? : Kind → Option BinaryOp
  | .star => some .mul
  | .slash => some .div
  | .slashSlash => some .floorDiv
  | .percent => some .mod
  | _ => none

def sumOp? : Kind → Option BinaryOp
  | .plus => some .add
  | .minus => some .sub
  | _ => none

def comparisonOp? : Kind → Option BinaryOp
  | .equalEqual => some .eq
  | .notEqual => some .notEq
  | .less => some .less
  | .lessEqual => some .lessEq
  | .greater => some .greater
  | .greaterEqual => some .greaterEq
  | _ => none

/-- Signed powers joined by the operators of sums and products. -/
def arithmetic (field : FieldReader) (deeper : Deeper) : Reader Expr :=
  chain sumOp? (chain productOp? (unary field deeper))

/-- At most one comparison; a second one is reported and left. -/
def comparison (field : FieldReader) (deeper : Deeper) : Reader Expr := do
  let lhs ← arithmetic field deeper
  match comparisonOp? (← peek) with
  | none => return lhs
  | some op =>
    modify Cursor.step
    let rhs ← arithmetic field deeper
    let next ← current
    if (comparisonOp? next.kind).isSome then
      report next.span .chainedComparison
    return joined op lhs rhs

def negation (field : FieldReader) (deeper : Deeper) : Reader Expr := do
  match ← peek with
  | .wordNot => applied .not deeper.negation
  | _ => comparison field deeper

/-- The operators that bind the least. -/
def disjunction (field : FieldReader) (deeper : Deeper) : Reader Expr :=
  let orOp? : Kind → Option BinaryOp := fun kind => if kind == .wordOr then some .or else none
  let andOp? : Kind → Option BinaryOp := fun kind => if kind == .wordAnd then some .and else none
  chain orOp? (chain andOp? (negation field deeper))

/-- What is read in place of an expression that is nested too deep. -/
def tooDeepExpr : Reader Expr := do
  tooDeep
  return .error (← current).span

/-- The readers for expressions with so many levels of nesting left. -/
def deeper (field : FieldReader) : Nat → Deeper
  | 0 => ⟨tooDeepExpr, tooDeepExpr, tooDeepExpr⟩
  | levels + 1 =>
    let inner := deeper field levels
    ⟨disjunction field inner, negation field inner, unary field inner⟩

/-! ### Fields of f-strings -/

/-- The tokens of a field before the end of the file, or the first fault. -/
def fieldTokens (items : List Token.Item) : Except Token.LexError (List Token) := do
  let tokens ← items.mapM id
  return tokens.filter (·.kind != .endOfFile)

/-- The expression that is all of a field, with all levels of nesting left. -/
def fieldExpr (field : FieldReader) : Reader Expr := do
  let expr ← (deeper field maxNesting).expr
  let next ← current
  if next.kind != .endOfFile then
    report next.span (.afterField next.kind)
  return expr

/-- The expression in a field, the f-strings of which have fields of their own.  It is read
separately; whatever is wrong with it drops the field. -/
def fieldWith (field : FieldReader) : FieldReader := fun offset body => do
  let file := (← get).finish.span.file
  let stop := offset + body.length
  match fieldTokens (Token.itemsAt file offset body) with
  | .error e =>
    report e.span (.lexical e.fault)
    return none
  | .ok [] =>
    report ⟨file, offset, stop⟩ .emptyField
    return none
  | .ok tokens =>
    let (expr, inner) := (fieldExpr field).run (.start tokens (.atEnd file stop))
    modify (·.adopt inner.reports)
    return if inner.reports.isEmpty then some expr else none

/-- The expression in a field, where at most `fuel` f-strings stand inside each other. -/
def fieldIn : Nat → FieldReader
  | 0 => fun _ _ => return none
  | fuel + 1 => fieldWith (fieldIn fuel)

end Reader

end Endmark.Tree
