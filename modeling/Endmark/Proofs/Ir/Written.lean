import Endmark.Ir.Reader
import Endmark.Proofs.Ir.Spelling

/-!
# Modules as they are written

A module whose names can stand in a text is written as a row of lexemes.
-/

namespace Endmark.Ir

open List Bool

/-! ### What can be written -/

/-- Can the operand be told from others when it is written?  A string constant has a number
that fits in a word, and a global has no name like one. -/
def Operand.isWritten : Operand → Bool
  | .var name => isName name
  | .global name => isName name && Read.globalOperand name == .global name
  | .str index => index < Number.wordCount
  | _ => true

/-- Can the place be written? -/
def Place.isWritten : Place → Bool
  | .var name | .global name => isName name

namespace Instr

/-- Can the instruction be written? -/
def isWritten : Instr → Bool
  | label name => isWord name
  | move dst _ src | unary dst _ _ src => dst.isWritten && src.isWritten
  | binary dst op ty lhs rhs =>
    dst.isWritten && op.supports ty && lhs.isWritten && rhs.isWritten
  | call dst callee args =>
    dst.all (·.isWritten) && isName callee && args.all (·.isWritten)
  | branch cond ifTrue ifFalse => cond.isWritten && isWord ifTrue && isWord ifFalse
  | jump target => isWord target
  | load dst _ base _ => dst.isWritten && base.isWritten
  | store _ base _ value => base.isWritten && value.isWritten
  | alloc dst size => dst.isWritten && size.isWritten
  | free block => block.isWritten
  | ret value => value.all (·.isWritten)
  | raw dst _ _ => dst.all (·.isWritten)

/-- The instruction without its place in a source. -/
def withoutSpan : Instr → Instr
  | raw dst text _ => raw dst text .nowhere
  | i => i

end Instr

/-- Can the function be written?  In a body `var` starts the declaration of a variable. -/
def Function.isWritten (f : Function) : Bool :=
  isName f.name && f.params.all (isName ·.name) && f.vars.all (isName ·.name) &&
    f.body.all fun i => i.isWritten && i != .label "var"

/-- The function without its place in a source. -/
def Function.withoutSpans (f : Function) : Function :=
  { f with body := f.body.map Instr.withoutSpan, span := .nowhere }

/-- Can the module be written? -/
def Module.isWritten (m : Module) : Bool :=
  isName m.entry && m.init.all isName && m.globals.all (isName ·.name) &&
    m.strings.length ≤ Number.wordCount && m.functions.all (·.isWritten)

/-- The module without places in a source. -/
def Module.withoutSpans (m : Module) : Module :=
  { m with functions := m.functions.map Function.withoutSpans }

/-- Is the operand a floating-point number? -/
def Operand.isFloat : Operand → Bool
  | .float _ => true
  | _ => false

/-- Has no instruction of the module a floating-point number as an operand? -/
def Module.isFloatless (m : Module) : Bool :=
  m.functions.all fun f => f.body.all fun i => i.operands.all fun o => !o.isFloat

/-! ### Rows -/

/-- The lexeme of an operand. -/
def Operand.lexeme : Operand → Lexeme
  | .var name => .var name
  | .global name => .global name
  | .int value => .int value
  | .float value => .float value
  | .bool true => .word "true"
  | .bool false => .word "false"
  | .str index => .global s!"str.{index}"

/-- The lexeme of a place. -/
def Place.lexeme : Place → Lexeme
  | .var name => .var name
  | .global name => .global name

/-- The name of an instruction on words of a kind. -/
def typedName (name : String) (ty : WordType) : String :=
  name ++ "." ++ ty.name

/-- Rows with commas between them. -/
def separated : List (List Piece) → List Piece
  | [] => []
  | [row] => row
  | row :: rest => row ++ .mark ',' :: .blank :: separated rest

namespace Instr

/-- The row of what an instruction with a destination starts with. -/
def dstRow : Option Place → List Piece
  | some dst => [.lexeme dst.lexeme, .blank, .mark '=', .blank]
  | none => []

/-- The row of an instruction. -/
def row : Instr → List Piece
  | label name => [.word name, .mark ':']
  | move dst ty src => dstRow dst ++ [.word (typedName "mov" ty), .blank, .lexeme src.lexeme]
  | binary dst op ty lhs rhs =>
    dstRow dst ++ [.word (typedName op.name ty), .blank, .lexeme lhs.lexeme, .mark ',', .blank,
      .lexeme rhs.lexeme]
  | unary dst op ty src => dstRow dst ++ [.word (typedName op.name ty), .blank, .lexeme src.lexeme]
  | call dst callee args =>
    dstRow dst ++ [.word "call", .blank, .global callee, .mark '('] ++
      separated (args.map fun o => [.lexeme o.lexeme]) ++ [.mark ')']
  | branch cond ifTrue ifFalse =>
    [.word "br", .blank, .lexeme cond.lexeme, .mark ',', .blank, .word ifTrue, .mark ',', .blank,
      .word ifFalse]
  | jump target => [.word "jmp", .blank, .word target]
  | load dst ty base offset =>
    dstRow dst ++ [.word (typedName "load" ty), .blank, .lexeme base.lexeme, .mark ',', .blank,
      .lexeme (.int offset)]
  | store ty base offset value =>
    [.word (typedName "store" ty), .blank, .lexeme base.lexeme, .mark ',', .blank,
      .lexeme (.int offset), .mark ',', .blank, .lexeme value.lexeme]
  | alloc dst size => dstRow dst ++ [.word "alloc", .blank, .lexeme size.lexeme]
  | free block => [.word "free", .blank, .lexeme block.lexeme]
  | ret (some value) => [.word "ret", .blank, .lexeme value.lexeme]
  | ret none => [.word "ret"]
  | raw dst text _ => dstRow dst ++ [.word "asm", .blank, .lexeme (.str text)]

/-- The row of the line of an instruction. -/
def line : Instr → List Piece
  | label name => (label name).row ++ [.newline]
  | i => .blank :: .blank :: i.row ++ [.newline]

end Instr

/-- The row of a parameter or variable. -/
def Var.row (v : Var) : List Piece :=
  [.lexeme (.var v.name), .mark ':', .blank, .word v.ty.name]

/-- The row of the line of a variable. -/
def Var.line (v : Var) : List Piece :=
  .blank :: .blank :: .word "var" :: .blank :: v.row ++ [.newline]

/-- The row of a function. -/
def Function.row (f : Function) : List Piece :=
  [.word "func", .blank, .global f.name, .mark '('] ++ separated (f.params.map Var.row) ++
    [.mark ')', .blank, .lexeme .arrow, .blank, .word f.result.name, .blank, .mark '\x7b',
      .newline] ++
    f.vars.flatMap Var.line ++ f.body.flatMap Instr.line ++ [.mark '\x7d']

/-- The row of a function between empty lines. -/
def Function.block (f : Function) : List Piece :=
  .newline :: f.row ++ [.newline]

/-- The row of the line that names where a program starts. -/
def startRow (word name : String) : List Piece :=
  [.word word, .blank, .global name, .newline]

/-- The row of the line of a global. -/
def Var.globalLine (g : Var) : List Piece :=
  [.word "global", .blank, .global g.name, .mark ':', .blank, .word g.ty.name, .newline]

/-- The row of the line of a string constant. -/
def stringLine (s : String) (index : Nat) : List Piece :=
  [.word "string", .blank, .global s!"str.{index}", .blank, .mark '=', .blank, .lexeme (.str s),
    .newline]

/-- The row of a module. -/
def Module.row (m : Module) : List Piece :=
  startRow "entry" m.entry ++ m.init.elim [] (startRow "init") ++
    m.globals.flatMap Var.globalLine ++
    (m.strings.zipIdx.flatMap fun (s, i) => stringLine s i) ++
    m.functions.flatMap Function.block

/-! ### Texts of rows -/

@[simp]
theorem spell_nil :
  spell [] = []
  := rfl

@[simp]
theorem spell_cons (p : Piece) (ps : List Piece) :
  spell (p :: ps) = p.spelling ++ spell ps
  := rfl

theorem toList_join {α : Type} {text : α → String} {row : α → List Piece}
    (h : ∀ x, (text x).toList = spell (row x)) (xs : List α) :
  (String.join (xs.map text)).toList = spell (xs.flatMap row)
  := by
  rw [String.toList_join, flatMap_map, spell, flatMap_assoc]
  simp [h, spell]

/-- A text that is put into another one stays as it is. -/
@[simp]
theorem toString_text (s : String) :
  toString s = s
  := rfl

theorem Operand.toList_render (o : Operand) :
  o.render.toList = o.lexeme.spelling
  := by
  cases o with
  | bool b => cases b <;> rfl
  | _ => simp [render, lexeme]

theorem Place.toList_render (p : Place) :
  p.render.toList = p.lexeme.spelling
  := by
  cases p <;> simp [render, lexeme]

theorem spell_separated (rows : List (List Piece)) :
  spell (separated rows) = [',', ' '].intercalate (rows.map spell)
  := by
  fun_induction separated rows with
  | case1 => rfl
  | case2 row => simp
  | case3 row rest hne ih =>
    have hrest : rest.map spell ≠ [] := by simpa using hne
    rw [map_cons, intercalate_cons_of_ne_nil hrest, ← ih]
    simp

namespace Instr

theorem toList_renderDst :
  (renderDst dst).toList = spell (dstRow dst)
  := by
  cases dst with
  | none => rfl
  | some p => simp [renderDst, dstRow, Place.toList_render]

theorem toList_render (i : Instr) :
  i.render.toList = spell i.row
  := by
  cases i with
  | call dst callee args =>
    simp [render, row, toList_renderDst, spell_separated, Function.comp_def,
      Operand.toList_render]
  | raw dst text span => simp [render, row, toList_renderDst]
  | ret value => cases value <;> simp [render, row, Operand.toList_render]
  | _ => simp [render, row, dstRow, typedName, Place.toList_render, Operand.toList_render]

theorem toList_renderLine (i : Instr) :
  i.renderLine.toList = spell i.line
  := by
  cases i with
  | label name => simp [renderLine, line, row]
  | _ => simp only [renderLine, line, String.toList_append, toList_render, spell_append]; rfl

end Instr

theorem Var.toList_render (v : Var) :
  v.render.toList = spell v.row
  := by
  simp [render, row]

theorem Var.toList_line (v : Var) :
  ("  var " ++ v.render ++ "\n").toList = spell v.line
  := by
  simp [line, toList_render]

theorem Function.toList_render (f : Function) :
  f.render.toList = spell f.row
  := by
  simp only [render, row, String.toList_append, toList_join Var.toList_line,
    toList_join Instr.toList_renderLine, String.toList_intercalate, map_map, Function.comp_def,
    Var.toList_render, spell_append, spell_separated]
  simp

/-- A module is rendered as it is spelled. -/
theorem Module.toList_render (m : Module) :
  m.render.toList = spell m.row
  := by
  have hglobal (g : Var) : s!"global @{g.name}: {g.ty.name}\n".toList = spell g.globalLine := by
    simp [Var.globalLine]
  have hstrings : (String.join (m.strings.zipIdx.map fun (s, i) =>
      s!"string @str.{i} = " ++ Text.quote s ++ "\n")).toList =
      spell (m.strings.zipIdx.flatMap fun (s, i) => stringLine s i) := by
    apply toList_join
    simp [stringLine]
  have hfunction (f : Function) : ("\n" ++ f.render ++ "\n").toList = spell f.block := by
    simp [Function.block, Function.toList_render]
  simp only [render, row, String.toList_append, toList_join hglobal, hstrings,
    toList_join hfunction]
  cases m.init <;> simp [startRow]

/-! ### Rows can be read back -/

@[simp]
theorem WordType.isWord_name (ty : WordType) :
  isWord ty.name
  := by
  cases ty <;> decide

/-- The words that lines start with. -/
@[simp]
theorem isWord_keyword :
  ∀ w ∈ ["mov", "call", "br", "jmp", "load", "store", "alloc", "free", "ret", "asm", "var", "func",
    "global", "string"], isWord w
  := by decide

/-- The name of an instruction with the kind of word after a point is a word. -/
@[simp]
theorem isWord_typedName (h : isWord name) (ty : WordType) :
  isWord (typedName name ty)
  := by
  have hty : isName ty.name := by cases ty <;> decide
  simp only [isName, isWord, and_eq_true, all_eq_true, bne_iff_ne] at h hty ⊢
  obtain ⟨⟨⟨hstart, hall⟩, _⟩, _⟩ := h
  have hpoint {s : String} (hs : '.' ∉ s.toList) : typedName name ty ≠ s := by
    rintro rfl
    apply hs
    simp [typedName]
  refine ⟨⟨⟨?_, ?_⟩, hpoint (by decide)⟩, hpoint (by decide)⟩
  · cases hname : name.toList with
    | nil =>
      rw [hname] at hstart
      cases hstart
    | cons c cs =>
      simpa [typedName, hname] using hstart
  · intro c hc
    simp only [typedName, String.toList_append, mem_append] at hc
    obtain (hc | hc) | hc := hc
    · apply hall c hc
    · cases mem_singleton.mp hc
      decide
    · apply hty.2 c hc

@[simp]
theorem BinOp.isWord_name (op : BinOp) :
  isWord op.name
  := by
  cases op <;> decide

@[simp]
theorem UnOp.isWord_name (op : UnOp) :
  isWord op.name
  := by
  cases op <;> decide

/-- Names of string constants are names. -/
theorem isName_string {index : Nat} :
  isName s!"str.{index}"
  := by
  have hlist : (s!"str.{index}").toList = 's' :: 't' :: 'r' :: '.' :: Nat.toDigits 10 index := by
    simp
  simp only [isName, hlist, isEmpty_cons, Bool.not_false, Bool.true_and, all_cons,
    and_eq_true, all_eq_true]
  refine ⟨rfl, rfl, rfl, rfl, ?_⟩
  intro c hc
  apply isNameChar_of_isDigit
  apply Nat.isDigit_of_mem_toDigits (by decide) (by decide) hc

theorem Operand.isPlain_lexeme {o : Operand} (h : o.isWritten) (hfloat : o.isFloat = false) :
  Piece.isPlain (.lexeme o.lexeme)
  := by
  cases o with
  | float => cases hfloat
  | bool b => cases b <;> decide
  | str index => exact Piece.isPlain_global.trans isName_string
  | _ => simp_all [isWritten, lexeme]

theorem Place.isPlain_lexeme {p : Place} (h : p.isWritten) :
  Piece.isPlain (.lexeme p.lexeme)
  := by
  cases p <;> simpa [isWritten, lexeme] using h

/-- Rows with commas between them can be read back before a closing parenthesis. -/
theorem isText_separated (h : ∀ row ∈ rows, IsRow row) :
  IsText (separated rows ++ [.mark ')'])
  := by
  fun_induction separated rows with
  | case1 => exact isRow_nil.append_mark ')'
  | case2 row => exact (h row mem_cons_self).append_mark ')'
  | case3 row rest hne ih =>
    have hrow := (h row mem_cons_self).append_mark ','
    have hrest := ih fun r hr => h r (mem_cons_of_mem row hr)
    simpa using hrow.append (isText_blank.append hrest)

namespace Instr

theorem isText_dstRow (h : dst.all (·.isWritten)) :
  IsText (dstRow dst)
  := by
  cases dst with
  | none => exact ⟨isRow_nil, by simp [dstRow]⟩
  | some p =>
    have hrow : IsRow [.lexeme p.lexeme, .blank] := by
      simp [Place.isPlain_lexeme h]
    exact (hrow.append_mark '=').append isText_blank

theorem isWritten_operands {i : Instr} (h : i.isWritten) :
  ∀ o ∈ i.operands, o.isWritten
  := by
  cases i with
  | ret value => cases value <;> simp_all [isWritten, operands]
  | _ => simp_all [isWritten, operands]

/-- An instruction without floats is spelled as a row. -/
theorem isRow_row {i : Instr} (h : i.isWritten) (hfloat : ∀ o ∈ i.operands, o.isFloat = false) :
  IsRow i.row
  := by
  have hplain : ∀ o ∈ i.operands, Piece.isPlain (.lexeme o.lexeme) := fun o ho =>
    Operand.isPlain_lexeme (isWritten_operands h o ho) (hfloat o ho)
  have hdst {dst : Place} {ps : List Piece} (hdst : dst.isWritten) (hps : IsRow ps) :
      IsRow (dstRow dst ++ ps) :=
    (isText_dstRow (Option.all_some.trans hdst)).append_row hps
  cases i
  all_goals
    simp only [isWritten, and_eq_true] at h
    simp [operands] at hplain
  case label => simp [row, isMark, h]
  case move | unary | load | alloc =>
    apply hdst h.1
    simp [isMark, hplain]
  case binary =>
    apply hdst h.1.1.1
    simp [isMark, hplain]
  case call dst callee args =>
    have hargs : ∀ r ∈ args.map fun o => [.lexeme o.lexeme], IsRow r := by
      simpa using hplain
    have hopen : IsRow [.word "call", .blank, .global callee] := by
      simp [h.1.2]
    have hcall := (hopen.append_mark '(').append (isText_separated hargs)
    simpa [row] using ((isText_dstRow h.1.1).append hcall).toIsRow
  case branch => simp [row, isMark, hplain, h]
  case jump => simp [row, h]
  case store => simp [row, isMark, hplain]
  case free => simp [row, hplain]
  case ret value => cases value <;> simp_all [row]
  case raw =>
    apply (isText_dstRow h).append_row
    simp

theorem isText_line {i : Instr} (h : i.isWritten) (hfloat : ∀ o ∈ i.operands, o.isFloat = false) :
  IsText i.line
  := by
  have hrow := (isRow_row h hfloat).append_newline
  cases i with
  | label name => apply hrow
  | _ => apply isText_blank.append (isText_blank.append hrow)

end Instr

theorem Var.isRow_row {v : Var} (h : isName v.name) :
  IsRow v.row
  := by
  simp [row, h, isMark]

theorem Var.isText_line {v : Var} (h : isName v.name) :
  IsText v.line
  := by
  have hstart : IsRow [.blank, .blank, .word "var"] := by simp
  exact hstart.append_blank.append (isRow_row h).append_newline

/-- A function without floats is spelled as a text. -/
theorem Function.isText_row {f : Function} (h : f.isWritten)
    (hfloat : ∀ i ∈ f.body, ∀ o ∈ i.operands, o.isFloat = false) :
  IsText f.row
  := by
  simp only [isWritten, and_eq_true, all_eq_true] at h
  obtain ⟨⟨⟨hname, hparams⟩, hvars⟩, hbody⟩ := h
  have hstart : IsRow [.word "func", .blank, .global f.name] := by
    simp [hname]
  have hlist : IsText (separated (f.params.map Var.row) ++ [.mark ')']) := by
    apply isText_separated
    intro r hr
    obtain ⟨v, hv, rfl⟩ := mem_map.mp hr
    apply Var.isRow_row (hparams v hv)
  have hresult : IsRow [.blank, .lexeme .arrow, .blank, .word f.result.name, .blank,
      .mark '\x7b'] := by
    simp [isMark]
  have hdeclared : IsText (f.vars.flatMap Var.line) :=
    .flatMap fun v hv => Var.isText_line (hvars v hv)
  have hlines : IsText (f.body.flatMap Instr.line) :=
    .flatMap fun i hi => Instr.isText_line (hbody i hi).1 (hfloat i hi)
  have htext := (((((hstart.append_mark '(').append hlist).append hresult.append_newline).append
    hdeclared).append hlines).append (isRow_nil.append_mark '\x7d')
  simpa [row] using htext

theorem isText_startRow (hword : isWord word) (hname : isName name) :
  IsText (startRow word name)
  := by
  have hrow : IsRow [.word word, .blank, .global name] := by
    simp [hname, hword]
  exact hrow.append_newline

theorem Var.isText_globalLine {g : Var} (h : isName g.name) :
  IsText g.globalLine
  := by
  have hrow : IsRow [.word "global", .blank, .global g.name, .mark ':', .blank,
      .word g.ty.name] := by
    simp [h, isMark]
  exact hrow.append_newline

theorem isText_stringLine :
  IsText (stringLine s index)
  := by
  have hrow : IsRow [.word "string", .blank, .global s!"str.{index}", .blank, .mark '=', .blank,
      .lexeme (.str s)] := by
    simp only [isRow_cons, Piece.isPlain_global, isName_string]
    simp [isMark]
  exact hrow.append_newline

/-- The row of a module without floating-point numbers can be read back. -/
theorem Module.isRow_row {m : Module} (h : m.isWritten) (hfloat : m.isFloatless) :
  IsRow m.row
  := by
  simp only [isWritten, isFloatless, and_eq_true, all_eq_true, not_eq_true']
    at h hfloat
  obtain ⟨⟨⟨⟨hentry, hinit⟩, hglobals⟩, _⟩, hfunctions⟩ := h
  have hstart : IsText (m.init.elim [] (startRow "init")) := by
    cases hm : m.init with
    | none => exact ⟨isRow_nil, by simp⟩
    | some init =>
      rw [hm] at hinit
      exact isText_startRow (by decide) hinit
  have hfunction : IsText (m.functions.flatMap Function.block) := by
    apply IsText.flatMap
    intro f hf
    have htext := Function.isText_row (hfunctions f hf) (hfloat f hf)
    exact (isRow_nil.append_newline.append htext).append isRow_nil.append_newline
  exact (((((isText_startRow (by decide) hentry).append hstart).append
    (.flatMap fun g hg => Var.isText_globalLine (hglobals g hg))).append
    (.flatMap fun s _ => isText_stringLine)).append hfunction).toIsRow

end Endmark.Ir
