import Endmark.Proofs.Ir.Reading
import Endmark.Proofs.Lowering.Blocks
import Endmark.Proofs.Lowering.Preservation
import Endmark.Proofs.Tree.Layout

/-!
# Texts that read back

A module that is read from a text can be written, and so can one that is lowered from a
program.  If no floating-point number stands in it, its text reads back as the module itself,
without its places in a source.
-/

namespace Endmark.Typed

open List Bool
open Ir (isName isNameChar)

/-! ### Names of a source -/

theorem isNameChar_of_isIdentifier (h : isIdentifier name) :
  ∀ c ∈ name.toList, isNameChar c ∧ c ≠ '.'
  := by
  simp only [isIdentifier, and_eq_true, all_eq_true] at h
  intro c hc
  have halnum := h.2 c hc
  constructor
  · simp only [isNameChar, or_eq_true] at halnum ⊢
    left
    left
    apply halnum
  · rintro rfl
    cases halnum

theorem isName_of_isIdentifier (h : isIdentifier name) :
  isName name
  := by
  have hchars := isNameChar_of_isIdentifier h
  simp only [isName, and_eq_true, all_eq_true]
  refine ⟨?_, fun c hc => (hchars c hc).1⟩
  simp only [isIdentifier, and_eq_true] at h
  cases hlist : name.toList with
  | nil =>
    rw [hlist] at h
    cases h.1
  | cons c cs => rfl

/-- A slot is spelled as a name. -/
theorem isName_slotName (h : isName name) {count : Nat} :
  isName (slotName name count)
  := by
  cases count with
  | zero => apply h
  | succ count =>
    simp only [isName, and_eq_true, all_eq_true] at h ⊢
    rw [toList_slotName_succ]
    constructor
    · simp
    · intro c hc
      obtain hc | hc := mem_append.mp hc
      · apply h.2 c hc
      · obtain rfl | hc := mem_cons.mp hc
        · decide
        · apply Ir.isNameChar_of_mem_toDigits
          simpa using hc

/-- A name without a point is not that of a string constant. -/
theorem written_of_isIdentifier (h : isIdentifier name) :
  Ir.written.global name
  := by
  use isName_of_isIdentifier h
  have hstrip : Text.strip? "str.".toList name.toList = none := by
    rw [Text.strip?, if_neg]
    intro hprefix
    have hpoint : '.' ∈ name.toList := by
      apply ( isPrefixOf_iff_prefix.mp hprefix).subset
      decide
    apply (isNameChar_of_isIdentifier h _ hpoint).2 rfl
  unfold Ir.Read.globalOperand
  rw [hstrip]

end Endmark.Typed

namespace Endmark.Lowering

open Ir (WordType isName written)
open Typed (isIdentifier)

/-- What is demanded of a typed program that is to be written. -/
def writable : Typed.Vocabulary where
  slot x := isName x = true
  global x := written.global x
  function f _ := isName f = true
  block raw := ∀ entry ∈ raw.scope, (placeOf entry.2.1).Uses written
  length _ := True

/-- All that lowering adds can be written. -/
theorem serves_written (hglobals : ∀ g ∈ env.globals, written.global g.1) :
  Serves writable written False 0 env
  where
  slot _ h := h
  global _ h := h
  function _ _ h := h
  temp i _ := Ir.isName_toString i
  label := written_labelName
  routine := by
    have hall : routinesUsed.all isName := by decide
    exact List.all_eq_true.mp hall
  start := trivial
  item _ _ _ _ := trivial
  word := trivial
  rawStmt _ _ _ h := Lower.emits_rawStmt h hglobals
  rawValue _ _ _ h := Lower.emits_rawValue h hglobals

/-- A program that is spelled as sources are has names that can be written. -/
theorem within_writable (hspelled : Typed.Spelled program)
    (h : (Typed.infer program).module = some m) :
  ∀ f ∈ m.functions, f.Within writable
  := by
  have hplan := Typed.spelled_planOf hspelled h
  obtain ⟨_, hreports, hm, _⟩ := Typed.infer_eq_some h
  apply Typed.infer_within hspelled h
  · constructor
    · intro x hx
      obtain ⟨g, hg, rfl⟩ := List.mem_map.mp hx
      rw [hm] at hg
      obtain ⟨binding, hbinding, rfl⟩ := List.mem_map.mp hg
      exact Typed.written_of_isIdentifier (hplan.global binding hbinding)
    · rintro _ _ ⟨f, hf, -, rfl, -⟩
      have hname := List.mem_map_of_mem (f := Typed.Function.name) hf
      rw [hm, (Typed.pass_checked hreports).names] at hname
      obtain ⟨g, hg, hname⟩ := List.mem_map.mp hname
      rw [← hname]
      exact Typed.isName_of_isIdentifier (hplan.function g hg)
  · exact fun x count hx => Typed.isName_slotName (Typed.isName_of_isIdentifier hx)
  · intro e _
    cases e with
    | raw =>
      rintro scope hscope ⟨x, v, _⟩ hentry
      cases v <;> exact hscope _ hentry
    | _ => trivial

/-- Every function that is reached comes from one of the typed program. -/
theorem Lowered.name_mem (h : Lowered m all ir) (hg : g ∈ ir.functions) :
  g.name ∈ m.functions.map (·.name)
  := by
  rw [← names_of_functions h.functions]
  rw [h.reached] at hg
  apply List.mem_map_of_mem (List.mem_of_mem_filter hg)

/-- A module that is lowered from a program can be written. -/
theorem isWritten_of_lower
    (hspelled : Typed.Spelled program) (h : (Typed.infer program).module = some m)
    (hlower : lower m = .ok ir) (hstrings : ir.strings.length ≤ Number.wordCount) :
  ir.isWritten
  := by
  have hwithin := within_writable hspelled h
  obtain ⟨hplans, hreports, rfl, _⟩ := Typed.infer_eq_some h
  have hstarts := Typed.infer_starts h
  have hplan := hplans.spelled hstarts hspelled
  obtain ⟨all, hlowered⟩ := exists_lowered hlower
  have hglobal : ∀ g ∈ ir.globals, written.global g.name := by
    intro g hg
    rw [hlowered.globals] at hg
    obtain ⟨l, hl, rfl⟩ := List.mem_map.mp hg
    obtain ⟨binding, hbinding, rfl⟩ := List.mem_map.mp hl
    apply Typed.written_of_isIdentifier (hplan.global binding hbinding)
  have huses : ∀ g ∈ ir.functions, g.Uses written ir.strings.length := by
    apply lower_uses (fun slots => serves_written ?_) hwithin hlower
    intro g hg
    obtain ⟨l, hl, rfl⟩ := List.mem_map.mp hg
    apply hglobal ⟨l.name, .ofTy l.ty⟩
    rw [hlowered.globals]
    apply List.mem_map_of_mem hl
  have hname : ∀ name ∈ (Typed.planOf program).functions.map (·.name), isName name := by
    intro name hname
    obtain ⟨f, hf, rfl⟩ := List.mem_map.mp hname
    apply Typed.isName_of_isIdentifier (hplan.function f hf)
  simp only [Ir.Module.isWritten, Bool.and_eq_true, List.all_eq_true, Option.all_eq_true,
    decide_eq_true_eq]
  refine ⟨⟨⟨⟨?_, ?_⟩, fun g hg => (hglobal g hg).1⟩, hstrings⟩, ?_⟩
  · rw [hlowered.entry]
    apply hname _ hstarts.hasEntry
  · intro name hinit
    rw [hlowered.init] at hinit
    apply hname _ (hstarts.init name hinit).2
  · intro g hg
    simp only [Ir.Function.isWritten, Bool.and_eq_true, List.all_eq_true, bne_iff_ne]
    refine ⟨⟨⟨?_, (huses g hg).params⟩, (huses g hg).vars⟩, ?_⟩
    · have hmem := hlowered.name_mem hg
      rw [(Typed.pass_checked hreports).names] at hmem
      apply hname _ hmem
    · exact fun i hi => Ir.Instr.isWritten_of_uses ((huses g hg).code i hi) hstrings

/-! ### Reading back -/

/-- The module is read from a text, or lowered from a program that was read from sources and is
accepted. -/
def Comes (m : Ir.Module) : Prop :=
  (∃ text, Ir.Module.read text = .ok m) ∨
    ∃ program typed, program.Parsed ∧ (Typed.infer program).module = some typed ∧
      lower typed = .ok m ∧ m.strings.length ≤ Number.wordCount

/-- The text of a module without floating-point numbers reads back as the module itself,
without its places in a source. -/
theorem read_render_of_comes {m : Ir.Module} (h : Comes m) (hfloat : m.isFloatless = true) :
  Ir.Module.read m.render = .ok m.withoutSpans
  := by
  apply Ir.Module.read_render _ hfloat
  obtain ⟨text, hread⟩ | ⟨program, typed, hparsed, hinfer, hlower, hstrings⟩ := h
  · apply Ir.Module.isWritten_of_read hread
  · apply isWritten_of_lower hparsed.spelled hinfer hlower hstrings

/-- Counts down: `def main(): n = 3; while n: n -= 1; end; print("\n"); end;` -/
def countdown : List UInt8 :=
  "def main(): n = 3; while n: n -= 1; end; print(\"\\n\"); end;".toList.map Text.byte

theorem countdown_reads_back :
  ∃ m, Comes m ∧ m.isFloatless = true ∧ Ir.Module.read m.render = .ok m.withoutSpans
  := by
  have hquiet : (Tree.parse none countdown).diagnostics = [] := by decide +kernel
  have hlowered : ((Typed.infer ⟨(Tree.parse none countdown).unit, []⟩).module.any fun typed =>
      (lower typed).toOption.any fun m => m.isFloatless && m.strings.length == 1) = true := by
    decide +kernel
  simp only [Option.any_eq_true, Bool.and_eq_true, beq_iff_eq] at hlowered
  obtain ⟨typed, htyped, m, hm, hfloat, hstrings⟩ := hlowered
  have hcomes : Comes m := by
    refine .inr ⟨_, typed, Tree.parsed_of_parse hquiet, htyped, eq_ok_of_toOption hm, ?_⟩
    rw [hstrings, Number.wordCount]
    omega
  exact ⟨m, hcomes, hfloat, read_render_of_comes hcomes hfloat⟩

end Endmark.Lowering
