import Endmark.Number.Radix
import Endmark.Text.Blank

/-!
# Registers and conditions

The registers of an x86-64 processor and the conditions on its flags, with their codes and
their names.
-/

namespace Endmark.Machine

/-- The general registers, in the order of their codes. -/
inductive Reg where
  | rax
  | rcx
  | rdx
  | rbx
  | rsp
  | rbp
  | rsi
  | rdi
  | r8
  | r9
  | r10
  | r11
  | r12
  | r13
  | r14
  | r15
deriving DecidableEq, Repr, Inhabited

namespace Reg

/-- All general registers, in the order of their codes. -/
def all : List Reg :=
  [rax, rcx, rdx, rbx, rsp, rbp, rsi, rdi, r8, r9, r10, r11, r12, r13, r14, r15]

/-- The registers that arguments are passed in, in order. -/
def arguments : List Reg :=
  [rdi, rsi, rdx, rcx, r8, r9]

def code : Reg → Nat
  | rax => 0
  | rcx => 1
  | rdx => 2
  | rbx => 3
  | rsp => 4
  | rbp => 5
  | rsi => 6
  | rdi => 7
  | r8 => 8
  | r9 => 9
  | r10 => 10
  | r11 => 11
  | r12 => 12
  | r13 => 13
  | r14 => 14
  | r15 => 15

/-- The low three bits of the code; the fourth stands apart. -/
def low (r : Reg) : Nat :=
  r.code % 8

def name : Reg → String
  | rax => "rax"
  | rcx => "rcx"
  | rdx => "rdx"
  | rbx => "rbx"
  | rsp => "rsp"
  | rbp => "rbp"
  | rsi => "rsi"
  | rdi => "rdi"
  | r8 => "r8"
  | r9 => "r9"
  | r10 => "r10"
  | r11 => "r11"
  | r12 => "r12"
  | r13 => "r13"
  | r14 => "r14"
  | r15 => "r15"

def byteName : Reg → String
  | rax => "al"
  | rcx => "cl"
  | rdx => "dl"
  | rbx => "bl"
  | rsp => "spl"
  | rbp => "bpl"
  | rsi => "sil"
  | rdi => "dil"
  | r8 => "r8b"
  | r9 => "r9b"
  | r10 => "r10b"
  | r11 => "r11b"
  | r12 => "r12b"
  | r13 => "r13b"
  | r14 => "r14b"
  | r15 => "r15b"

def ofName? (s : String) : Option Reg :=
  all.find? (·.name == s)

/-- The register whose lowest byte has the given name. -/
def ofByteName? (s : String) : Option Reg :=
  all.find? (·.byteName == s)

/-- Without a mark the codes four to seven would mean other bytes than the lowest. -/
def lowByteNeedsExtension (r : Reg) : Bool :=
  4 ≤ r.code && r.code < 8

end Reg

/-- The registers for floating-point numbers. -/
structure Xmm where
  index : Fin 16
deriving DecidableEq, Repr, Inhabited

namespace Xmm

def code (x : Xmm) : Nat :=
  x.index.val

def name (x : Xmm) : String :=
  s!"xmm{x.code}"

/-- The register with the given name.  Its number may have leading zeros and a plus sign. -/
def ofName? (s : String) : Option Xmm :=
  match Text.strip? "xmm".toList s.toList with
  | none => none
  | some digits =>
    match Number.readUnsigned 10 256 digits with
    | none => none
    | some n => if h : n < 16 then some ⟨⟨n, h⟩⟩ else none

end Xmm

/-- The conditions, in the order of their codes. -/
inductive Cond where
  | o
  | no
  | b
  | ae
  | e
  | ne
  | be
  | a
  | s
  | ns
  | p
  | np
  | l
  | ge
  | le
  | g
deriving DecidableEq, Repr, Inhabited

namespace Cond

def all : List Cond :=
  [o, no, b, ae, e, ne, be, a, s, ns, p, np, l, ge, le, g]

def code : Cond → Nat
  | o => 0
  | no => 1
  | b => 2
  | ae => 3
  | e => 4
  | ne => 5
  | be => 6
  | a => 7
  | s => 8
  | ns => 9
  | p => 10
  | np => 11
  | l => 12
  | ge => 13
  | le => 14
  | g => 15

def name : Cond → String
  | o => "o"
  | no => "no"
  | b => "b"
  | ae => "ae"
  | e => "e"
  | ne => "ne"
  | be => "be"
  | a => "a"
  | s => "s"
  | ns => "ns"
  | p => "p"
  | np => "np"
  | l => "l"
  | ge => "ge"
  | le => "le"
  | g => "g"

/-- The condition that holds when this one does not. -/
def negate : Cond → Cond
  | o => no
  | no => o
  | b => ae
  | ae => b
  | e => ne
  | ne => e
  | be => a
  | a => be
  | s => ns
  | ns => s
  | p => np
  | np => p
  | l => ge
  | ge => l
  | le => g
  | g => le

/-- The other names of conditions. -/
def aliases : List (String × Cond) :=
  [("z", e), ("nz", ne), ("c", b), ("nae", b), ("nc", ae), ("nb", ae), ("na", be), ("nbe", a),
    ("pe", p), ("po", np), ("nge", l), ("nl", ge), ("ng", le), ("nle", g)]

def ofName? (s : String) : Option Cond :=
  aliases.lookup s <|> all.find? (·.name == s)

end Cond

end Endmark.Machine
