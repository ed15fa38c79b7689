/-!
# Blank characters, lines and pieces

The blank characters are those with the Unicode property `White_Space`, the control
characters those of the general category `Cc`.  Texts are taken apart as lists of
characters.
-/

namespace Endmark.Text

/-- Has the character the property `White_Space`? -/
def isBlank (c : Char) : Bool :=
  let n := c.toNat
  (9 ≤ n && n ≤ 13) || n == 0x20 || n == 0x85 || n == 0xA0 || n == 0x1680 ||
    (0x2000 ≤ n && n ≤ 0x200A) || n == 0x2028 || n == 0x2029 || n == 0x202F ||
    n == 0x205F || n == 0x3000

def isControl (c : Char) : Bool :=
  c.toNat < 0x20 || (0x7F ≤ c.toNat && c.toNat ≤ 0x9F)

/-- Is the character an ASCII letter or digit? -/
def isAlphanumeric (c : Char) : Bool :=
  c.isAlphanum

/-- The characters without the blanks at their start. -/
def trimLeft (cs : List Char) : List Char :=
  cs.dropWhile isBlank

/-- The characters without the last ones that satisfy `p`. -/
def dropLastWhile (p : Char → Bool) (cs : List Char) : List Char :=
  (cs.reverse.dropWhile p).reverse

/-- The characters without the blanks at either end. -/
def trim (cs : List Char) : List Char :=
  dropLastWhile isBlank (trimLeft cs)

/-- The characters with ASCII capitals made small. -/
def lower (cs : List Char) : List Char :=
  cs.map Char.toLower

def strip? (start : List Char) (cs : List Char) : Option (List Char) :=
  if start.isPrefixOf cs then some (cs.drop start.length) else none

/-- The characters before the first `sep` and those after it, if there is one. -/
def cut? (sep : Char) (cs : List Char) : Option (List Char × List Char) :=
  match cs.dropWhile (· != sep) with
  | [] => none
  | _ :: after => some (cs.takeWhile (· != sep), after)

/-- The first `sep` stands between what is before it and what is after it. -/
theorem eq_of_cut? {sep : Char} {cs before after : List Char}
    (h : cut? sep cs = some (before, after)) :
  cs = before ++ sep :: after
  := by
  have hcs := List.takeWhile_append_dropWhile (p := (· != sep)) (l := cs)
  have hhead := List.head?_dropWhile_not (· != sep) cs
  unfold cut? at h
  split at h
  · cases h
  · next hdrop =>
    rw [hdrop] at hcs hhead
    cases h
    simp only [bne_eq_false_iff_eq] at hhead
    exact hhead ▸ hcs.symm

/-- What follows the first `sep` is shorter than the whole. -/
theorem length_of_cut? {sep : Char} {cs before after : List Char}
    (h : cut? sep cs = some (before, after)) :
  after.length < cs.length
  := by
  simp [eq_of_cut? h]
  omega

/-- The pieces between the separators, at least one. -/
def pieces (sep : Char → Bool) : List Char → List (List Char)
  | [] => [[]]
  | c :: cs =>
    let rest := pieces sep cs
    if sep c then
      [] :: rest
    else
      match rest with
      | [] => [[c]]
      | piece :: others => (c :: piece) :: others

/-- One line without the carriage return before its line feed. -/
def dropReturn (line : List Char) : List Char :=
  match line.reverse with
  | '\r' :: before => before.reverse
  | _ => line

/-- The lines of a text: each ends with a line feed, an optional carriage return before it
belongs to the end, and no empty line follows the last line feed. -/
def lines (cs : List Char) : List (List Char) :=
  match (pieces (· == '\n') cs).reverse with
  | [] => []
  | last :: closed =>
    let closed := closed.map dropReturn
    (if last.isEmpty then closed else last :: closed).reverse

end Endmark.Text
