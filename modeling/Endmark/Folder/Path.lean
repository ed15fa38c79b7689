import Endmark.Text.Blank

/-!
# Paths

A path is a list of names.  As it is written, the names have slashes between them; empty
names and single dots say nothing, except for a dot at the start, which is kept when the path
is shown.  The root of all folders has a slash for its name, which no other name holds.
-/

namespace Endmark

/-- The names that lead from a folder to what is below it. -/
abbrev Path := List String

namespace Path

/-- The pieces between the slashes of a path as it is written. -/
def pieces (text : String) : List String :=
  (Text.pieces (· == '/') text.toList).map String.ofList

/-- Does the piece say nothing? -/
def isSilent (piece : String) : Bool :=
  piece.isEmpty || piece == "."

/-- Does the path lead from the root of all folders? -/
def isAbsolute (text : String) : Bool :=
  text.startsWith "/"

/-- The path that a text spells.  Two dots are kept as a name. -/
def ofString (text : String) : Path :=
  (if isAbsolute text then ["/"] else []) ++ (pieces text).filter (!isSilent ·)

def render (p : Path) : String :=
  "/".intercalate p

/-- The names that are to be gone along one by one, dots among them. -/
def names (text : String) : List String :=
  (pieces text).filter (!·.isEmpty)

/-- Does the path end in a slash? -/
def endsInSlash (text : String) : Bool :=
  text.toList.getLast? == some '/'

/-- Does the name lead to no other one than the folder it is looked for in, or the one above? -/
def isDots (name : String) : Bool :=
  name == "." || name == ".."

/-- The folder above.  Above the working folder there are only dots, and above the root there is
the root. -/
def above (p : Path) : Path :=
  if p = ["/"] then p
  else if p.all (· == "..") then p ++ [".."]
  else p.dropLast

/-- The pieces without the last ones that say nothing; the first one is kept. -/
def trimPieces : List String → List String
  | [] => []
  | first :: rest => first :: (rest.reverse.dropWhile isSilent).reverse

/-- What leads to the folder of what is meant, as it is written. -/
def parent (text : String) : String :=
  "/".intercalate (trimPieces (trimPieces (pieces text)).dropLast)

/-- What is written and what leads to its folder, to the folder of that one and so on. -/
def leadsFrom : Nat → String → List String
  | 0, _ => []
  | n + 1, text => if text.isEmpty then [] else text :: leadsFrom n (parent text)

/-- What is written and what leads to its folder, to the folder of that one and so on. -/
def leads (text : String) : List String :=
  leadsFrom text.length text

/-- The number of names, counting a root or a dot at the start. -/
def count (text : String) : Nat :=
  (if (pieces text).head? = some "." then 1 else 0) + (ofString text).length

/-- What follows the last dot of a name, unless that is its only one and stands first. -/
def extension? (name : String) : Option String :=
  match (Text.pieces (· == '.') name.toList).reverse with
  | [] | [_] | [_, []] => none
  | last :: _ => some (String.ofList last)

/-- Does one path stand before another?  Names are compared one by one. -/
def before : Path → Path → Bool
  | [], _ => true
  | _ :: _, [] => false
  | a :: p, b :: q => if a = b then before p q else decide (a < b)

end Path

end Endmark
