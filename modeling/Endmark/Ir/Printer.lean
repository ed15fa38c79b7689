import Endmark.Ir.Basic
import Endmark.Number.Decimal
import Endmark.Text.Escape

/-!
# The text of the intermediate language

Each instruction is one line.  What is written here is read back by the reader.
-/

namespace Endmark.Ir

/-- An operand as it is written. -/
def Operand.render : Operand → String
  | .var name => "%" ++ name
  | .global name => "@" ++ name
  | .int value => toString value.toInt
  | .float value => value.write
  | .bool true => "true"
  | .bool false => "false"
  | .str index => s!"@str.{index}"

def Place.render : Place → String
  | .var name => "%" ++ name
  | .global name => "@" ++ name

namespace Instr

/-- The start of an instruction that may have a destination. -/
def renderDst : Option Place → String
  | some dst => dst.render ++ " = "
  | none => ""

/-- An instruction as it is written. -/
def render : Instr → String
  | label name => name ++ ":"
  | move dst ty src => s!"{dst.render} = mov.{ty.name} {src.render}"
  | binary dst op ty lhs rhs =>
    s!"{dst.render} = {op.name}.{ty.name} {lhs.render}, {rhs.render}"
  | unary dst op ty src => s!"{dst.render} = {op.name}.{ty.name} {src.render}"
  | call dst callee args =>
    renderDst dst ++ s!"call @{callee}(" ++ ", ".intercalate (args.map Operand.render) ++ ")"
  | branch cond ifTrue ifFalse => s!"br {cond.render}, {ifTrue}, {ifFalse}"
  | jump target => s!"jmp {target}"
  | load dst ty base offset =>
    s!"{dst.render} = load.{ty.name} {base.render}, {offset.toInt}"
  | store ty base offset value =>
    s!"store.{ty.name} {base.render}, {offset.toInt}, {value.render}"
  | alloc dst size => s!"{dst.render} = alloc {size.render}"
  | free block => s!"free {block.render}"
  | ret (some value) => s!"ret {value.render}"
  | ret none => "ret"
  | raw dst text _ => renderDst dst ++ "asm " ++ Text.quote text

/-- The line of an instruction in a function; labels stand at the margin. -/
def renderLine : Instr → String
  | label name => name ++ ":\n"
  | i => "  " ++ i.render ++ "\n"

end Instr

/-- A parameter or variable with its kind, as it is written. -/
def Var.render (v : Var) : String :=
  s!"%{v.name}: {v.ty.name}"

/-- A function as it is written. -/
def Function.render (f : Function) : String :=
  s!"func @{f.name}(" ++ ", ".intercalate (f.params.map Var.render) ++
    s!") -> {f.result.name} \x7b\n" ++
    String.join (f.vars.map fun v => "  var " ++ v.render ++ "\n") ++
    String.join (f.body.map Instr.renderLine) ++ "\x7d"

/-- A module as it is written. -/
def Module.render (m : Module) : String :=
  s!"entry @{m.entry}\n" ++
    (match m.init with
      | some init => s!"init @{init}\n"
      | none => "") ++
    String.join (m.globals.map fun g => s!"global @{g.name}: {g.ty.name}\n") ++
    String.join (m.strings.zipIdx.map fun (s, i) =>
      s!"string @str.{i} = " ++ Text.quote s ++ "\n") ++
    String.join (m.functions.map fun f => "\n" ++ f.render ++ "\n")

end Endmark.Ir
