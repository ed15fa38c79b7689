import Endmark.Routine.Lists
import Endmark.Routine.Memory
import Endmark.Routine.Numbers
import Endmark.Routine.Output
import Endmark.Routine.Strings

/-!
# Routines that compiled programs call

Arguments are passed in `rdi`, `rsi` and so on, and the result in `rax`.  Only registers that
a call may change are used.
-/

namespace Endmark

/-- A routine of the runtime. -/
structure Routine where
  name : String
  insts : Code.Insts
deriving DecidableEq, Repr, Inhabited

namespace Routine

def all : List Routine :=
  [⟨"__aim_alloc", alloc⟩, ⟨"__aim_check_index", checkIndex⟩, ⟨"__aim_exit", exit⟩,
    ⟨"__aim_float_to_str", floatToStr⟩, ⟨"__aim_free", free⟩, ⟨"__aim_int_to_str", intToStr⟩,
    ⟨"__aim_list_concat", listConcat⟩, ⟨"__aim_pow_int", powInt⟩,
    ⟨"__aim_print_str", printStr⟩, ⟨"__aim_range", range⟩, ⟨"__aim_str_concat", strConcat⟩,
    ⟨"__aim_str_eq", strEq⟩, ⟨"__aim_str_from_bytes", strFromBytes⟩,
    ⟨"__aim_str_index", strIndex⟩, ⟨"__aim_write", write⟩]

def find? (name : String) : Option Routine :=
  all.find? (·.name == name)

/-- The words of data that routines use: the front and the end of the chunk that memory is
taken from. -/
def dataWords : List String :=
  ["__aim_heap.ptr", "__aim_heap.end"]

def startSymbol : String := "_start"

/-- The instructions at the start of a program: it calls `init`, if there is one, and `entry`,
whose result is the status that it ends with. -/
def start (init : Option String) (entry : String) : Code.Insts :=
  [.label startSymbol, .alu .xor .rbp .rbp] ++ init.toList.map .call ++
    [.call entry, .mov .rdi .rax, .movImm .rax 60, .syscall]

end Routine

end Endmark
