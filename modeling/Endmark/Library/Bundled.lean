import Endmark.Library.Basic

/-!
# The library that comes with the compiler

Functions on integers and lists of integers.
-/

namespace Endmark.Library

def integers : String :=
  "\n".intercalate
    ["# Integer helpers. Library units hold function definitions only.",
      "",
      "def abs(x):",
      "    if x < 0:",
      "        return -x;",
      "    end;",
      "    return x;",
      "end;",
      "",
      "def min(a, b):",
      "    if a < b:",
      "        return a;",
      "    end;",
      "    return b;",
      "end;",
      "",
      "def max(a, b):",
      "    if a > b:",
      "        return a;",
      "    end;",
      "    return b;",
      "end;",
      "",
      "def sum(xs):",
      "    total = 0;",
      "    for x in xs:",
      "        total = total + x;",
      "    end;",
      "    return total;",
      "end;",
      ""]

def bundled : List LibraryUnit :=
  [⟨["math.aim"], Text.bytes integers⟩]

end Endmark.Library
