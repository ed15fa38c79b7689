import Endmark.Tree.Expressions

/-!
# Reading statements and units

Blocks are closed by their end marks, whatever the layout.  A statement that is not
understood is reported, and reading goes on with the next one.
-/

namespace Endmark.Tree

open Token (Kind)

namespace Reader

/-! ### Simple statements -/

/-- May an expression begin so? -/
def opensExpression : Kind → Bool
  | .ident | .intLiteral | .floatLiteral | .stringLiteral | .fstringLiteral | .boolLiteral
  | .noneLiteral | .leftParen | .leftBracket | .minus | .plus | .wordNot | .wordAilang
  | .wordAsm => true
  | _ => false

/-- The operator of an assignment, which is absent in a plain one. -/
def assignmentOp? : Kind → Option (Option BinaryOp)
  | .equal => some none
  | .plusEqual => some (some .add)
  | .minusEqual => some (some .sub)
  | .starEqual => some (some .mul)
  | .slashEqual => some (some .div)
  | _ => none

/-- An expression, or an assignment to it. -/
def exprOrAssign (expr : Reader Expr) : Reader (Option Stmt) := do
  let lhs ← expr
  match assignmentOp? (← peek) with
  | none => return some (.expr lhs.span lhs)
  | some op =>
    modify Cursor.step
    let value ← expr
    let next ← current
    if next.kind == .equal then
      report next.span .chainedAssignment
    let span := lhs.span.join value.span
    match lhs with
    | .name at_ name => return some (.assign span (.name ⟨name, at_⟩) op value)
    | .index _ base index => return some (.assign span (.index base index) op value)
    | .error _ => return none
    | _ =>
      report lhs.span .invalidTarget
      return none

/-- A return, which must be in a function. -/
def returnStmt (expr : Reader Expr) : Reader Stmt := do
  let word ← advance
  if !(← get).inFunction then
    report word.span .outsideFunction
  let value ← if opensExpression (← peek) then some <$> expr else pure none
  return .ret (← spanFrom word.span) value

/-- A statement without a block, up to what ends it. -/
def simpleBody (expr : Reader Expr) : Reader (Option Stmt) := do
  let token ← current
  let span := token.span
  match token.kind with
  | .wordReturn => some <$> returnStmt expr
  | .wordBreak | .wordContinue =>
    modify Cursor.step
    if !(← get).inLoop then
      report span (.outsideLoop token.kind)
    return some (if token.kind == .wordBreak then .leave span else .next span)
  | .wordPass =>
    modify Cursor.step
    return some (.pass span)
  | .wordAilang | .wordAsm =>
    match ← rawBlock with
    | some block => return some (.raw (← spanFrom span) block)
    | none => return none
  | .reserved =>
    modify Cursor.step
    report span (.unsupportedWord token.text)
    return none
  | .unknown =>
    modify Cursor.step
    report span (.unexpectedCharacter token.text)
    return none
  | _ => exprOrAssign expr

/-- A statement without a block, and the semicolon after it if there is one.  After a fault
the rest of the statement is skipped. -/
def simpleStmt (expr : Reader Expr) : Reader (Option Stmt) := do
  let before ← reportCount
  let stmt ← simpleBody expr
  if (← reportCount) > before then
    synchronize
  else
    let _ ← eat .semicolon
  return stmt

/-! ### Blocks -/

/-- An `elif` or `else` without its `if`. -/
def strayBranch : Reader PUnit := do
  let token ← advance
  report token.span (.strayBranch token.kind)
  synchronize

/-- Reads with `p`, and skips a token if it read none. -/
def progress (p : Reader α) : Reader α := do
  let before ← tokensAhead
  let a ← p
  if (← tokensAhead) == before then
    modify Cursor.step
  return a

/-- Statements up to the end mark of the innermost construct, which is left, or up to an
`elif` or `else` if these go on with it; at most `fuel` rounds. -/
def blockIn (stmt : Reader (Option Stmt)) (inBranch : Bool) : Nat → Reader (List Stmt)
  | 0 => return []
  | fuel + 1 => do
    let token ← current
    match token.kind with
    | .wordEnd => return []
    | .wordElif | .wordElse =>
      if inBranch then
        return []
      else
        strayBranch
        blockIn stmt inBranch fuel
    | .endOfFile =>
      reportNeverClosed
      return []
    | kind =>
      if (kind == .wordDef || kind == .wordFunc) && token.opensLine then
        reportNotClosedBeforeDef
        return []
      else
        let first ← progress stmt
        let rest ← blockIn stmt inBranch fuel
        return first.toList ++ rest

/-- Statements up to the end mark of the innermost construct. -/
def block (stmt : Reader (Option Stmt)) (inBranch : Bool) : Reader (List Stmt) := do
  blockIn stmt inBranch ((← tokensAhead) + 1)

/-- The colon in front of a body. -/
def bodyColon (construct : String) : Reader PUnit := do
  if (← expect .colon s!"to open the {construct} body").isNone then
    recoverHead

/-- A name, or one that stands for its absence. -/
def identOr (fallback : Span) (place : String) : Reader Ident := do
  match ← expect .ident place with
  | some token => return ⟨token.text, token.span⟩
  | none => return ⟨"<error>", fallback⟩

/-! ### Compound statements -/

/-- A condition with its body. -/
def arm (expr : Reader Expr) (stmt : Reader (Option Stmt)) (construct : String) :
    Reader Arm := do
  let cond ← expr
  bodyColon construct
  return .mk cond (← block stmt true)

/-- The `elif` and `else` parts of a branch, at most `fuel` of them: the arms, and the last
part.  What follows an `else` is read and dropped. -/
def alternativesIn (expr : Reader Expr) (stmt : Reader (Option Stmt)) :
    Nat → List Arm → Option (List Stmt) → Reader (List Arm × Option (List Stmt))
  | 0, arms, otherwise => return (arms, otherwise)
  | fuel + 1, arms, otherwise => do
    match ← peek with
    | .wordElif =>
      let word ← advance
      if otherwise.isSome then
        report word.span .elifAfterElse
      let next ← arm expr stmt "`elif`"
      alternativesIn expr stmt fuel (if otherwise.isNone then arms ++ [next] else arms) otherwise
    | .wordElse =>
      let word ← advance
      if otherwise.isSome then
        report word.span .secondElse
      bodyColon "`else`"
      let body ← block stmt true
      alternativesIn expr stmt fuel arms (otherwise.or (some body))
    | _ => return (arms, otherwise)

/-- A branch with all of its arms. -/
def branchStmt (expr : Reader Expr) (stmt : Reader (Option Stmt)) : Reader Stmt := do
  let word ← advance
  openBlock .branch word.span
  let first ← arm expr stmt "`if`"
  let (arms, otherwise) ← alternativesIn expr stmt (← tokensAhead) [first] none
  endBlock
  return .branch (← spanFrom word.span) arms otherwise

/-- A loop with its condition. -/
def whileStmt (expr : Reader Expr) (stmt : Reader (Option Stmt)) : Reader Stmt := do
  let word ← advance
  openBlock .whileLoop word.span
  let cond ← expr
  bodyColon "`while`"
  let body ← block stmt false
  endBlock
  return .whileLoop (← spanFrom word.span) cond body

/-- A loop over the items of a value. -/
def forStmt (expr : Reader Expr) (stmt : Reader (Option Stmt)) : Reader Stmt := do
  let word ← advance
  openBlock .forLoop word.span
  let target ← identOr word.span "after `for`"
  let iter ← match ← expect .wordIn "in `for` loop" with
    | some _ => expr
    | none => pure (.error word.span)
  bodyColon "`for`"
  let body ← block stmt false
  endBlock
  return .forLoop (← spanFrom word.span) target iter body

/-! ### Functions -/

/-- Parameters with commas between them, at most `fuel` of them. -/
def paramsIn : Nat → Reader (List Param)
  | 0 => return []
  | fuel + 1 => do
    match ← expect .ident "in the parameter list" with
    | none => return []
    | some token =>
      let declared ← if ← eat .colon then typeExpr else pure none
      let param : Param := ⟨⟨token.text, token.span⟩, declared⟩
      if ← eat .comma then
        return param :: (← paramsIn fuel)
      else
        return [param]

/-- The parenthesis after the parameters, and the result type if there is one.  Nothing more is
looked for after a fault. -/
def resultType (before : Nat) : Reader (Option TypeExpr) := do
  if (← reportCount) == before then
    let _ ← expect .rightParen "to close the parameter list"
  let arrow ← if (← reportCount) == before then eat .arrow else pure false
  if arrow then typeExpr else pure none

/-- The parameters and the result of a function. -/
def signature (before : Nat) : Reader (List Param × Option TypeExpr) := do
  match ← expect .leftParen "after the function name" with
  | none => return ([], none)
  | some _ =>
    let params ← if (← peek) == .rightParen then pure [] else paramsIn ((← tokensAhead) + 1)
    return (params, ← resultType before)

/-- A function definition, of which the word is next. -/
def function (stmt : Reader (Option Stmt)) : Reader Function := do
  let word ← advance
  let before ← reportCount
  let name ← identOr word.span "after `def`"
  let (params, ret) ← if (← reportCount) == before then signature before else pure ([], none)
  if (← reportCount) == before then
    bodyColon "function"
  else
    recoverHead
  openBlock .function word.span
  let body ← block stmt false
  endBlock
  let span ← spanFrom word.span
  return ⟨if word.kind == .wordDef then .wordDef else .wordFunc, name, params, ret, body, span⟩

/-- A function where none may be: it is read for its faults, and dropped. -/
def nestedFunction (stmt : Reader (Option Stmt)) : Reader (Option Stmt) := do
  let word ← current
  let _ ← function stmt
  report word.span .nestedFunction
  return none

/-! ### All statements -/

/-- Does a construct with a body start with the kind? -/
def opensBlock : Kind → Bool
  | .wordDef | .wordFunc | .wordIf | .wordWhile | .wordFor => true
  | _ => false

/-- A construct with a body; its expressions and statements are one level deeper. -/
def compound (expr : Reader Expr) (stmt : Reader (Option Stmt)) : Reader (Option Stmt) := do
  match ← peek with
  | .wordIf => some <$> branchStmt expr stmt
  | .wordWhile => some <$> whileStmt expr stmt
  | .wordFor => some <$> forStmt expr stmt
  | _ => nestedFunction stmt

/-- A statement with so many levels of nesting left. -/
def statement (field : FieldReader) : Nat → Reader (Option Stmt)
  | 0 => do
    if opensBlock (← peek) then
      tooDeep
      return none
    else
      simpleStmt (deeper field 0).expr
  | levels + 1 => do
    if opensBlock (← peek) then
      compound (deeper field levels).expr (statement field levels)
    else
      simpleStmt (deeper field (levels + 1)).expr

/-! ### Units -/

/-- One item of a unit, unless something else stands in its place. -/
def item (field : FieldReader) : Reader (Option Item) := do
  match ← peek with
  | .wordEnd =>
    let token ← advance
    report token.span .strayEnd
    let _ ← eat .semicolon
    return none
  | .wordElif | .wordElse =>
    strayBranch
    return none
  | .wordDef | .wordFunc =>
    let f ← function (statement field (maxNesting - 1))
    return some (.function f)
  | _ => return (← statement field maxNesting).map .statement

/-- The items of a unit, at most `fuel` rounds. -/
def itemsIn (field : FieldReader) : Nat → Reader (List Item)
  | 0 => return []
  | fuel + 1 => do
    if (← peek) == .endOfFile then
      return []
    else
      let first ← progress (item field)
      return first.toList ++ (← itemsIn field fuel)

end Reader

/-- A unit and what is wrong with its source. -/
structure Parsed where
  unit : Unit
  diagnostics : List Diagnostic

/-- The unit that tokens spell; the end of the file may be left out, and is at `stop`
then. -/
def ofTokens (tokens : List Token) (stop : Nat) : Parsed :=
  let file := match tokens.head? with
    | some t => t.span.file
    | none => some 0
  let finish := match tokens.getLast? with
    | some t => if t.kind == .endOfFile then t else .atEnd file stop
    | none => .atEnd file stop
  let words := tokens.filter (·.kind != .endOfFile)
  -- No f-string is inside more others than the source has bytes.
  let field := Reader.fieldIn (stop + 1)
  let (items, cursor) := (Reader.itemsIn field (words.length + 1)).run (.start words finish)
  ⟨⟨file, items⟩, cursor.reports.toList⟩

/-- The unit of a source.  A source that cannot be cut into tokens has no items. -/
def parse (file : Option Nat) (source : List UInt8) : Parsed :=
  let (tokens, faults) := Token.lex file source
  if Diagnostic.anyError faults then ⟨⟨file, []⟩, faults⟩ else ofTokens tokens source.length

end Endmark.Tree
