import Endmark.Tree.Fault

/-!
# The cursor of a reader of tokens

A reader walks once over the tokens of a unit.  It keeps the constructs that are open, and
reports what is wrong; after it has met the end of the file inside a construct, or nesting
that is too deep, it reports no more.
-/

namespace Endmark.Tree

open Token (Kind)

/-- A construct that waits for its end mark, and the word that opened it. -/
structure Opened where
  kind : Construct
  span : Span
deriving DecidableEq, Repr

/-- What a reader keeps: the tokens ahead, the reports and the open blocks. -/
structure Cursor where
  ahead : List Token
  /-- The token that is met when no other is left. -/
  finish : Token
  last : Option Span
  reports : Array Diagnostic
  /-- The open constructs, the innermost first. -/
  blocks : List Opened
  /-- Has reading come to a point where it cannot go on? -/
  halted : Bool
  /-- How many tokens were ahead at a definition that was found inside an open construct. -/
  blamed : Option Nat

abbrev Reader := StateM Cursor

namespace Cursor

def start (tokens : List Token) (finish : Token) : Cursor :=
  ⟨tokens, finish, none, #[], [], false, none⟩

def current (c : Cursor) : Token :=
  c.ahead.headD c.finish

/-- The cursor after the next token. -/
def step (c : Cursor) : Cursor :=
  match c.ahead with
  | [] => c
  | t :: rest => { c with ahead := rest, last := some t.span }

/-- The cursor after the tokens at its head that satisfy `p`. -/
def skipWhile (c : Cursor) (p : Token → Bool) : Cursor :=
  let skipped := c.ahead.takeWhile p
  { c with
    ahead := c.ahead.dropWhile p
    last := (skipped.getLast?.map (·.span)).or c.last }

/-- The cursor with a report, unless reading has halted. -/
def report (c : Cursor) (span : Span) (fault : Fault) : Cursor :=
  if c.halted then c
  else { c with reports := c.reports.push (.error .parse span fault.message) }

/-- The cursor with the reports of another one, unless reading has halted. -/
def adopt (c : Cursor) (reports : Array Diagnostic) : Cursor :=
  if c.halted then c else { c with reports := c.reports ++ reports }

/-- The cursor at the end of the file, where it stays without further reports. -/
def halt (c : Cursor) : Cursor :=
  { c.skipWhile (fun _ => true) with halted := true }

/-- The span of the token read last, or of the next one if none has been read. -/
def lastSpan (c : Cursor) : Span :=
  c.last.getD c.current.span

/-- Is a loop open, with no function inside it? -/
def inLoop (c : Cursor) : Bool :=
  match c.blocks.find? (·.kind != .branch) with
  | some block => block.kind != .function
  | none => false

/-- Is a function open? -/
def inFunction (c : Cursor) : Bool :=
  c.blocks.any (·.kind == .function)

end Cursor

namespace Reader

/-- The next token, which stays the next one. -/
def current : Reader Token := do
  return (← get).current

def peek : Reader Kind := do
  return (← current).kind

/-- Takes the next token. -/
def advance : Reader Token := do
  let token ← current
  modify Cursor.step
  return token

def lastSpan : Reader Span := do
  return (← get).lastSpan

/-- The span from a token to the token read last. -/
def spanFrom (start : Span) : Reader Span := do
  return start.join (← lastSpan)

def report (span : Span) (fault : Fault) : Reader PUnit :=
  modify (·.report span fault)

/-- The number of reports so far. -/
def reportCount : Reader Nat := do
  return (← get).reports.size

/-- The number of tokens ahead; no loop that reads a token each time runs longer. -/
def tokensAhead : Reader Nat := do
  return (← get).ahead.length

/-- Takes the next token if it has the kind. -/
def eat (kind : Kind) : Reader Bool := do
  if (← peek) == kind then
    modify Cursor.step
    return true
  else
    return false

/-- Reads a token of the given kind, and reports anything else. -/
def expect (kind : Kind) (place : String) : Reader (Option Token) := do
  let token ← current
  if token.kind == kind then
    modify Cursor.step
    return some token
  else
    report token.span (.expected kind place token.kind)
    return none

/-- May a statement start with, or a block end with, the kind? -/
def isBoundary : Kind → Bool
  | .endOfFile | .wordEnd | .wordElif | .wordElse | .wordDef | .wordFunc | .wordIf | .wordWhile
  | .wordFor | .wordReturn | .wordBreak | .wordContinue | .wordPass | .wordAilang
  | .wordAsm => true
  | _ => false

/-- Skips to the next statement: past a semicolon, or to the start of one. -/
def synchronize : Reader PUnit := do
  modify (·.skipWhile fun t => t.kind != .semicolon && !isBoundary t.kind)
  let _ ← eat .semicolon

/-- Skips past the colon of a broken head, if one comes before the next statement, so that
the body still meets its end mark. -/
def recoverHead : Reader PUnit := do
  modify (·.skipWhile fun t => t.kind != .colon && t.kind != .semicolon && !isBoundary t.kind)
  let _ ← eat .colon

/-- Reports nesting that is too deep, and halts. -/
def tooDeep : Reader PUnit := do
  report (← current).span .tooDeep
  modify Cursor.halt

def openBlock (kind : Construct) (span : Span) : Reader PUnit :=
  modify fun c => { c with blocks := ⟨kind, span⟩ :: c.blocks }

/-- Closes the innermost construct, with its end mark if that is next. -/
def endBlock : Reader PUnit := do
  modify fun c => { c with blocks := c.blocks.tail }
  let c ← get
  if !c.halted && c.current.kind == .wordEnd then
    modify Cursor.step
    if !(← eat .semicolon) then
      report c.current.span .endWithoutSemicolon

/-- Reports the innermost construct as open at the end of the file, and halts. -/
def reportNeverClosed : Reader PUnit := do
  let c ← get
  match c.blocks with
  | [] => pure ()
  | block :: _ =>
    if !c.halted then
      report block.span (.neverClosed block.kind)
      modify fun c => { c with halted := true }

/-- Reports the innermost construct as open at a definition, once for the definition. -/
def reportNotClosedBeforeDef : Reader PUnit := do
  let c ← get
  match c.blocks with
  | [] => pure ()
  | block :: _ =>
    if c.blamed != some c.ahead.length then
      report block.span (.notClosedBeforeDef block.kind)
      modify fun c => { c with blamed := some c.ahead.length }

end Reader

end Endmark.Tree
