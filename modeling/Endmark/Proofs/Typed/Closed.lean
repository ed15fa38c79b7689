import Endmark.Proofs.Typed.Consistency
import Endmark.Proofs.Tree.Layout

/-!
# Names are resolved

In an accepted program every variable is a slot of its function or a global of the module, and
every call is one of a function of the module with the right number of arguments.  The slots of
a function have different names, so that a slot stands for one binding: the one that is the
innermost for its name where the variable is used.
-/

namespace Endmark.Typed

open List Bool
open Endmark.Tree (Program)

/-! ### What is named is there -/

/-- The variable is one of the slots, or a global. -/
def Variable.In (slots : List String) (O : Outside) : Variable → Prop
  | .slot x => x ∈ slots
  | .global x => O.global x

/-- What the expression itself names is there. -/
def Expr.In (slots : List String) (O : Outside) : Expr → Prop
  | .var _ v => v.In slots O
  | .function _ name => ∃ n, O.function name n
  | .call _ callee args => O.function callee args.length
  | .raw _ block => ∀ entry ∈ block.scope, entry.2.1.In slots O
  | _ => True

/-- What the statement itself names is there. -/
def Stmt.In (slots : List String) (O : Outside) : Stmt → Prop
  | .assign _ (.var v) _ => v.In slots O
  | .forLoop _ v _ _ => v.In slots O
  | .raw _ block => ∀ entry ∈ block.scope, entry.2.1.In slots O
  | _ => True

/-- What the expressions and the statements name is there. -/
structure Closed (slots : List String) (O : Outside) (es : List Expr) (sts : List Stmt) :
    Prop where
  expr : ∀ e ∈ es, e.In slots O
  stmt : ∀ st ∈ sts, st.In slots O

/-- What has to be there, as what is demanded. -/
def Outside.vocabulary (O : Outside) (slots : List String) : Vocabulary where
  slot x := x ∈ slots
  global := O.global
  function := O.function
  block raw := ∀ entry ∈ raw.scope, entry.2.1.In slots O
  length _ := True

theorem Variable.in_of_vocabulary {O : Outside} (h : (O.vocabulary slots).variable v) :
  v.In slots O
  := by
  cases v <;> apply h

/-- What is within the vocabulary of a program is closed. -/
theorem Within.closed (h : Within (O.vocabulary slots) es sts) :
  Closed slots O es sts
  := by
  constructor
  · intro e he
    have huses := h.expr e he
    cases e with
    | var => apply Variable.in_of_vocabulary huses
    | function | call | raw => apply huses
    | _ => trivial
  · intro st hst
    have huses := h.stmt st hst
    unfold Stmt.In
    split
    · apply Variable.in_of_vocabulary huses
    · apply Variable.in_of_vocabulary huses
    · apply huses
    · trivial

/-! ### Programs -/

/-- The names of a function are resolved: its slots have different names, all that it names is
there, and each name stands for the innermost binding of what is written. -/
structure Function.Resolved (O : Outside) (w : Written) (f : Function) : Prop where
  nodup : ((f.params ++ f.locals).map (·.name)).Nodup
  closed : Closed ((f.params ++ f.locals).map (·.name)) O f.nodes f.statements
  lexical : f.Elaborates O w

/-- The names of a module are resolved. -/
structure Module.Resolved (program : Program) (m : Module) : Prop where
  nodup : (m.functions.map (·.name)).Nodup
  entry : m.entry ∈ m.functions.map (·.name)
  init : ∀ name ∈ m.init, name ∈ m.functions.map (·.name)
  functions : List.Forall₂ (fun w f => f.Resolved m.outside w) (written program) m.functions

/-- What a function names is there when it elaborates what is written. -/
theorem Function.Elaborates.closed {f : Function} (h : f.Elaborates O w) :
  Closed ((f.params ++ f.locals).map (·.name)) O f.nodes f.statements
  := by
  apply Within.closed
  apply (h.within (N := O.vocabulary ((f.params ++ f.locals).map (·.name))) _ _ _).body
  · exact ⟨fun _ hx => hx, fun _ _ hf => hf⟩
  · exact fun l hl => mem_map_of_mem hl
  · intro d _
    cases d with
    | raw => exact fun scope hscope entry hentry => Variable.in_of_vocabulary (hscope entry hentry)
    | _ => trivial

/-- The slots of a function of an accepted program have different names. -/
theorem nodup_slots (hnamed : Named program) (h : (infer program).module = some m)
    (hf : f ∈ m.functions) :
  ((f.params ++ f.locals).map (·.name)).Nodup
  := by
  obtain ⟨hplan, hreports, rfl, _⟩ := infer_eq_some h
  obtain ⟨i, p, before, reports, s, events, hp, hchecked⟩ := exists_checkedIn hreports hf
  have horderly := hchecked.orderly (hplan.ready hnamed _ hp)
  have hparams : (p.typed (readBy program) i f.body s).params.map (·.name) =
      p.params.map (·.name) := by
    simpa [Function.comp_def] using
      congrArg (map Prod.fst) (params_typed p (readBy program) i f.body s)
  rw [hchecked.typed, map_append, hparams]
  simp only [FunctionPlan.typed, map_map]
  apply horderly.nodup

theorem names_of_elaborates {fs : List Function} (h : Forall₂ (fun w f => f.Elaborates O w) ws fs) :
  fs.map (·.name) = ws.map (·.name)
  := by
  induction h with
  | nil => rfl
  | cons hfirst _ ih => rw [map_cons, map_cons, hfirst.name, ih]

/-- The names of an accepted program are resolved. -/
theorem accepted_resolved {program : Program} {m : Module} (hnamed : Named program)
    (h : (infer program).module = some m) :
  m.Resolved program
  := by
  have helaborates := infer_elaborates h
  have hboth := (List.forall₂_and_left m.functions (written program)).mpr
    ⟨fun f hf => nodup_slots hnamed h hf, helaborates.flip⟩
  have hstarts := infer_starts h
  have hnames : m.functions.map (·.name) = (planOf program).functions.map (·.name) := by
    rw [names_of_elaborates helaborates, ← planOf_written h, List.map_map]
    rfl
  obtain ⟨hplan, _, rfl, _⟩ := infer_eq_some h
  constructor
  · rw [hnames]
    apply hplan.nodup
  · rw [hnames]
    apply hstarts.hasEntry
  · rw [hnames]
    intro name hname
    apply (hstarts.init name hname).2
  · apply hboth.flip.imp
    rintro w f ⟨hslots, hf⟩
    exact ⟨hslots, hf.closed, hf⟩

/-! ### Programs that have been read -/

/-- An identifier has no point and is no numeral. -/
theorem isPlain_of_isIdentifier (h : isIdentifier name) :
  isPlain name
  := by
  rw [isIdentifier, and_eq_true, Option.any_eq_true, all_eq_true] at h
  obtain ⟨⟨c, hhead, hfirst⟩, hall⟩ := h
  have hc : c ∈ name.toList := mem_of_mem_head? hhead
  rw [isPlain, and_eq_true, all_eq_true, not_eq_true', all_eq_false]
  constructor
  · intro d hd
    have := hall d hd
    rw [bne_iff_ne]
    rintro rfl
    revert this
    decide
  · use c, hc
    intro hdigit
    rw [or_eq_true, beq_iff_eq] at hfirst
    obtain halpha | rfl := hfirst
    · simp only [Char.isDigit, Char.isAlpha, Char.isUpper, Char.isLower, and_eq_true,
        or_eq_true, decide_eq_true_eq, UInt32.le_iff_toNat_le] at hdigit halpha
      have hdigits : '9'.val.toNat < 'A'.val.toNat := by decide
      have hletters : 'A'.val.toNat ≤ 'a'.val.toNat := by decide
      omega
    · revert hdigit
      decide

/-- A program that was read from sources is named as they are written in it. -/
theorem named_of_parsed (h : program.Parsed) :
  Named program
  := by
  intro f hf
  obtain ⟨_, hparams, hbound⟩ := h.spelled.1 f hf
  constructor
  · intro p hp
    apply isPlain_of_isIdentifier (hparams p hp)
  · intro ident hident
    apply isPlain_of_isIdentifier (hbound ident hident)

/-- Names are used again in blocks that are beside each other and inside of each other. -/
def shadowing : List UInt8 :=
  ("g = 2; def twice(n): return n * g; end; def main(): for i in range(3): k = twice(i); " ++
    "if k: t = k; end; t = 0; end; k = 1; return k; end;").toList.map Text.byte

theorem shadowing_resolved :
  let program : Program := ⟨(Tree.parse none shadowing).unit, []⟩
  Named program ∧ ∃ m, (infer program).module = some m ∧ m.Resolved program
  := by
  have hquiet : (Tree.parse none shadowing).diagnostics = [] := by decide +kernel
  have hnamed := named_of_parsed (Tree.parsed_of_parse hquiet)
  have hsome : (infer ⟨(Tree.parse none shadowing).unit, []⟩).module.isSome = true := by
    decide +kernel
  obtain ⟨m, hm⟩ := Option.isSome_iff_exists.mp hsome
  exact ⟨hnamed, m, hm, accepted_resolved hnamed hm⟩

end Endmark.Typed
