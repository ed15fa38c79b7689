import Endmark.Source.Files

/-!
# Diagnostics

What every stage of the compiler reports: a kind, a message, a place and notes.
-/

namespace Endmark

/-- The stage of the compiler that owns a kind of diagnostic. -/
inductive Stage where
  | lexing
  | parsing
  | resolution
  | lowering
  | codeGeneration
  | emission
deriving DecidableEq, Repr

def Stage.name : Stage → String
  | .lexing => "lexing"
  | .parsing => "parsing"
  | .resolution => "resolution"
  | .lowering => "lowering"
  | .codeGeneration => "code generation"
  | .emission => "emission"

namespace Diagnostic

/-- What went wrong, coarsely. -/
inductive Kind where
  | lex
  | parse
  | unboundName
  | typeConflict
  | lowering
  | codegen
  | emit
deriving DecidableEq, Repr, Inhabited

def Kind.all : List Kind :=
  [.lex, .parse, .unboundName, .typeConflict, .lowering, .codegen, .emit]

def Kind.stage : Kind → Stage
  | .lex => .lexing
  | .parse => .parsing
  | .unboundName | .typeConflict => .resolution
  | .lowering => .lowering
  | .codegen => .codeGeneration
  | .emit => .emission

def Kind.code : Kind → String
  | .lex => "E0101"
  | .parse => "E0201"
  | .unboundName => "E0301"
  | .typeConflict => "E0302"
  | .lowering => "E0401"
  | .codegen => "E0501"
  | .emit => "E0601"

def Kind.name : Kind → String
  | .lex => "LexError"
  | .parse => "ParseError"
  | .unboundName => "UnboundNameError"
  | .typeConflict => "TypeConflictError"
  | .lowering => "LoweringError"
  | .codegen => "CodegenError"
  | .emit => "EmitError"

/-- Whether a compilation can go on. -/
inductive Severity where
  | error
  | warning
deriving DecidableEq, Repr, Inhabited

def Severity.name : Severity → String
  | .error => "error"
  | .warning => "warning"

end Diagnostic

/-- A report about the source. -/
structure Diagnostic where
  kind : Diagnostic.Kind
  severity : Diagnostic.Severity
  message : String
  span : Span
  notes : List String
deriving DecidableEq, Repr, Inhabited

namespace Diagnostic

def error (kind : Kind) (span : Span) (message : String) : Diagnostic :=
  ⟨kind, .error, message, span, []⟩

def warning (kind : Kind) (span : Span) (message : String) : Diagnostic :=
  ⟨kind, .warning, message, span, []⟩

def isError (d : Diagnostic) : Bool :=
  d.severity == .error

def anyError (ds : List Diagnostic) : Bool :=
  ds.any isError

/-- The first line of a report. -/
def headline (d : Diagnostic) : String :=
  s!"{d.severity.name}[{d.kind.code}] {d.kind.name}: {d.message}"

/-- The offending line with carets below it.  The carets are as many as the span has bytes,
at least one and at most as many as the line has. -/
def excerpt (d : Diagnostic) (column : Nat) (line : List UInt8) : String :=
  let width := min (max d.span.length 1) (max line.length 1)
  let pad := String.ofList (List.replicate (column - 1) ' ')
  let carets := String.ofList (List.replicate width '^')
  s!"\n   | {Text.ofBytes line}\n   | {pad}{carets}"

def place (d : Diagnostic) (files : Files) : String :=
  match files.locate? d.span, files.line? d.span with
  | some location, some line =>
    s!"\n  --> {location.render}" ++ d.excerpt location.column line
  | _, _ => ""

def render (d : Diagnostic) (files : Files) : String :=
  d.headline ++ d.place files ++ String.join (d.notes.map fun note => s!"\n   = note: {note}")

/-- Reports as they are shown, one below the other. -/
def renderAll (ds : List Diagnostic) (files : Files) : String :=
  "\n".intercalate (ds.map (·.render files))

end Diagnostic

end Endmark
