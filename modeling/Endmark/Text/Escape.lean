import Endmark.Text.Blank

/-!
# Escapes in string literals

A literal of the source spells a few characters with a backslash; a backslash before any
other character stands for itself.  A literal of the intermediate language is written by
`quote`, which spells the remaining control characters by their code point.
-/

namespace Endmark.Text

/-- The character that a backslash before `c` spells, if it spells one. -/
def escaped? (c : Char) : Option Char :=
  match c with
  | 'n' => some '\n'
  | 't' => some '\t'
  | 'r' => some '\r'
  | '0' => some '\x00'
  | '\\' => some '\\'
  | '\'' => some '\''
  | '"' => some '"'
  | _ => none

/-- The characters that the body of a string literal spells. -/
def unescape : List Char → List Char
  | [] => []
  | '\\' :: c :: cs =>
    match escaped? c with
    | some e => e :: unescape cs
    | none => '\\' :: c :: unescape cs
  | c :: cs => c :: unescape cs

/-- The hexadecimal digits of a number, in small letters and without leading zeros. -/
def hexDigits (n : Nat) : List Char :=
  Nat.toDigits 16 n

/-- How a character is written between quotes. -/
def quoteChar (c : Char) : List Char :=
  match c with
  | '"' => ['\\', '"']
  | '\\' => ['\\', '\\']
  | '\n' => ['\\', 'n']
  | '\t' => ['\\', 't']
  | '\r' => ['\\', 'r']
  | '\x00' => ['\\', '0']
  | _ =>
    if isControl c then
      ['\\', 'u', '\x7b'] ++ hexDigits c.toNat ++ ['\x7d']
    else
      [c]

/-- A text as a literal of the intermediate language. -/
def quote (s : String) : String :=
  String.ofList ('"' :: s.toList.flatMap quoteChar ++ ['"'])

end Endmark.Text
