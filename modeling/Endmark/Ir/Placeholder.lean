import Endmark.Text.Blank

/-!
# Placeholders in raw text

In the text of raw machine instructions a name in braces stands for a variable or a global
of the program.
-/

namespace Endmark.Ir

/-- What stands between braces: a variable or a global, if it is one of them. -/
inductive Placeholder where
  | var (name : String)
  | global (name : String)
deriving DecidableEq, Repr, Inhabited

/-- The placeholder that a text between braces is.  Blanks around it do not matter. -/
def Placeholder.ofGroup? (group : List Char) : Option Placeholder :=
  match Text.trim group with
  | '%' :: name => some (.var (String.ofList name))
  | '@' :: name => some (.global (String.ofList name))
  | _ => none

/-- A piece of raw text: text as it is, what stands between braces, or what follows a brace
that is not closed. -/
inductive RawPiece where
  | text (text : List Char)
  | group (group : List Char)
  | unclosed (rest : List Char)
deriving DecidableEq, Repr, Inhabited

/-- A raw text, cut at its braces. -/
def rawPieces (cs : List Char) : List RawPiece :=
  match _opened : Text.cut? '\x7b' cs with
  | none => [.text cs]
  | some (before, after) =>
    match _closed : Text.cut? '\x7d' after with
    | none => [.text before, .unclosed after]
    | some (group, rest) => .text before :: .group group :: rawPieces rest
termination_by cs.length
decreasing_by
  have := Text.length_of_cut? _opened
  have := Text.length_of_cut? _closed
  omega

/-- The placeholders of a raw text. -/
def placeholders (text : String) : List Placeholder :=
  (rawPieces text.toList).filterMap fun
    | .group g => Placeholder.ofGroup? g
    | .text _ | .unclosed _ => none

end Endmark.Ir
