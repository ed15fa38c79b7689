import Endmark.Proofs.Image.Acceptance
import Endmark.Proofs.Ir.Reach
import Endmark.Proofs.Lowering.RoundTrip

/-!
# Programs that become executables

A program without raw blocks that is accepted and can be lowered can also be compiled.  What is
compiled can be linked when the file is not too large.
-/

namespace Endmark

open Machine
open Routine
open Code
open Typed
open List

/-! ### Functions that are kept -/

namespace Ir

/-- The callees may be restricted to those that the instruction mentions. -/
theorem Instr.Uses.narrow {i : Instr}
    (h : i.Uses V n) (hcallee : ∀ name ∈ i.mentions, V.callee name → callee name) :
  i.Uses { V with callee := callee } n
  := by
  cases i with
  | call dst name args => exact ⟨h.1, hcallee name (mem_singleton_self _) h.2.1, h.2.2⟩
  | _ => exact h

end Ir

variable {name : String}

namespace Code

theorem mem_names_putSymbol (h : other = name ∨ other ∈ symbols.map (·.1)) :
  other ∈ (putSymbol name offset symbols).map (·.1)
  := by
  induction symbols with
  | nil => simpa [putSymbol] using h
  | cons first rest ih =>
    rw [map_cons, mem_cons] at h
    rw [putSymbol]
    split
    case isTrue hname =>
      rw [hname] at h
      rw [map_cons, mem_cons]
      exact h.elim .inl id
    case isFalse =>
      rw [map_cons, mem_cons]
      rcases h with hname | hfirst | hrest
      · exact .inr (ih (.inl hname))
      · exact .inl hfirst
      · exact .inr (ih (.inr hrest))

/-- Every part of the data has a symbol. -/
theorem mem_names_symbolsFrom (h : name ∈ symbols.map (·.1) ∨ name ∈ parts.map (·.1)) :
  name ∈ (symbolsFrom offset symbols parts).map (·.1)
  := by
  induction parts generalizing offset symbols with
  | nil => exact h.resolve_right not_mem_nil
  | cons part rest ih =>
    apply ih
    rw [map_cons, mem_cons] at h
    rcases h with hold | hfirst | hrest
    · exact .inl (mem_names_putSymbol (.inr hold))
    · exact .inl (mem_names_putSymbol (.inl hfirst))
    · exact .inr hrest

/-- The names of the symbols of the data of a module. -/
def dataNames (m : Ir.Module) : List String :=
  (symbolsFrom 0 [] (dataParts m)).map (·.1)

theorem globalSymbol_mem (h : name ∈ m.globals.map (·.name)) :
  globalSymbol name ∈ dataNames m
  := by
  apply mem_names_symbolsFrom
  right
  rw [dataParts, map_append, mem_append]
  left
  obtain ⟨g, hg, rfl⟩ := mem_map.mp h
  rw [map_map]
  exact mem_map_of_mem (f := fun g => globalSymbol g.name) hg

theorem stringSymbol_mem (h : index < m.strings.length) :
  stringSymbol index ∈ dataNames m
  := by
  apply mem_names_symbolsFrom
  right
  rw [dataParts, map_append, mem_append]
  right
  rw [map_map, mem_map]
  refine ⟨(m.strings[index], index), ?_, rfl⟩
  rw [mem_zipIdx_iff_getElem?]
  exact getElem?_eq_getElem h

theorem isUnitLabel_of_mem_dataNames (h : name ∈ dataNames m) :
  isUnitLabel name = false
  := by
  obtain ⟨entry, hentry, rfl⟩ := mem_map.mp h
  rcases mem_symbolsFrom hentry with hnone | ⟨part, hpart, hname, -⟩
  · cases hnone
  · rw [← hname]
    rcases (part_of_mem_dataParts hpart).1 with ⟨x, hx⟩ | ⟨k, hk⟩
    · rw [hx]
      simp [isUnitLabel, globalSymbol]
    · rw [hk]
      simp [isUnitLabel, stringSymbol]

end Code

/-! ### Programs without raw blocks -/

/-- The number of items, if the expression is a list that is written out. -/
def Tree.Expr.itemCount : Tree.Expr → Nat
  | .list _ items => items.length
  | _ => 0

/-- A program that was read from sources, without raw blocks and with lists that are not too
long. -/
structure Ordinary (program : Tree.Program) : Prop where
  parsed : program.Parsed
  raw : ∀ e ∈ Typed.nodesIn program, e.isRaw = false
  lists : ∀ e ∈ Typed.nodesIn program, e.itemCount < 2 ^ 28

namespace Lowering

/-- What is demanded of a typed program that is to be linked. -/
def linkable (functions globals : List String) : Typed.Vocabulary where
  slot _ := True
  global x := x ∈ globals
  function f _ := f ∈ functions
  block _ := False
  length count := count < 2 ^ 28

/-- What is demanded of code that is to be linked. -/
def linked (functions globals : List String) : Ir.Vocabulary where
  var _ := True
  global x := x ∈ globals
  callee f := f ∈ functions ∨ f ∈ routinesUsed
  label x := ∃ i, x = labelName i
  offset o := Number.fitsSigned 32 o.toInt = true
  raw := False

theorem fits_item {count : Nat} (h : count < 2 ^ 28) (hk : k < count) :
  Number.fitsSigned 32 (wordSize + wordSize * .ofNat k).toInt
  := by
  have hsum : wordSize + wordSize * .ofNat k = .ofNat (8 + 8 * k) := by
    rw [Int64.ofNat_add, Int64.ofNat_mul]
    rfl
  rw [hsum, Int64.toInt_ofNat_of_lt (by omega)]
  simp only [Number.fitsSigned]
  norm_num
  omega

theorem serves_linked {functions : List String} :
  Serves (linkable functions globals) (linked functions globals) False 0 env
  where
  slot _ _ := trivial
  global _ h := h
  function _ _ h := .inl h
  temp _ _ := trivial
  label i := ⟨i, rfl⟩
  routine _ h := .inr h
  start := (by decide : Number.fitsSigned 32 (0 : Int64).toInt)
  item _ h _ hk := fits_item h hk
  word := (by decide : Number.fitsSigned 32 wordSize.toInt)
  rawStmt _ _ _ h := h.elim
  rawValue _ _ _ h := h.elim

section

variable (hordinary : Ordinary program) (h : (Typed.infer program).module = some m)
  (hlower : lower m = .ok ir)

include hordinary h

/-- The functions of an ordinary program name only functions and globals of it. -/
theorem within_linkable :
  ∀ f ∈ m.functions, f.Within (linkable (m.functions.map (·.name)) (m.globals.map (·.name)))
  := by
  apply infer_within hordinary.parsed.spelled h
  · constructor
    · exact fun _ hx => hx
    · rintro _ _ ⟨f, hf, -, rfl, -⟩
      exact mem_map_of_mem hf
  · exact fun _ _ _ => trivial
  · intro e he
    have hraw := hordinary.raw e he
    have hlist := hordinary.lists e he
    cases e with
    | raw => cases hraw
    | list => exact hlist
    | _ => trivial

/-- The functions of an accepted program have names as they are cut out of a source, and none has
the name of the start. -/
theorem isIdentifier_of_infer (hname : name ∈ m.functions.map (·.name)) :
  isIdentifier name ∧ name ≠ startSymbol
  := by
  obtain ⟨hplans, hreports, rfl, -⟩ := infer_eq_some h
  have hstarts := infer_starts h
  rw [(pass_checked hreports).names] at hname
  obtain ⟨f, hf, rfl⟩ := mem_map.mp hname
  refine ⟨(hplans.spelled hstarts hordinary.parsed.spelled).function f hf, fun hstart => ?_⟩
  rcases hplans.planned hf with ⟨g, -, hplanned⟩ | htop
  · have hreserved := hplanned.notReserved
    rw [hstart] at hreserved
    revert hreserved
    decide +kernel
  · rcases hstarts.topLevel f hf htop.topLevel with hmain | hinit
    · rw [hmain] at hstart
      revert hstart
      decide
    · rw [hinit] at hstart
      revert hstart
      decide

include hlower

/-- What is demanded of the code of the functions that are kept. -/
theorem uses_kept (hg : g ∈ ir.functions) :
  g.Uses (linked (ir.functions.map (·.name)) (ir.globals.map (·.name))) ir.strings.length
  := by
  obtain ⟨all, hlowered⟩ := exists_lowered hlower
  have huses := lower_uses (fun _ => serves_linked) (within_linkable hordinary h) hlower g hg
  have hnames := names_of_functions hlowered.functions
  have hglobals : ir.globals.map (·.name) = m.globals.map (·.name) := by
    rw [hlowered.globals, map_map]
    rfl
  refine ⟨fun i hi => ?_, huses.params, huses.vars⟩
  rw [hglobals]
  apply (huses.code i hi).narrow
  rintro name hmention (hfunction | hroutine)
  · left
    rw [← hnames] at hfunction
    rw [hlowered.reached] at hg ⊢
    have hnodup : (all.map (·.name)).Nodup := by
      rw [hnames]
      exact infer_names_nodup h
    obtain ⟨f, hf, rfl⟩ := mem_map.mp hfunction
    exact mem_map_of_mem ((Ir.mem_keepReached hnodup).mpr
      (.next hf ((Ir.mem_keepReached hnodup).mp hg) ⟨i, hi, Ir.mem_mentions.mp hmention⟩))
  · exact .inr hroutine

theorem name_of_kept (hname : name ∈ ir.functions.map (·.name)) :
  isIdentifier name ∧ name ≠ startSymbol
  := by
  obtain ⟨all, hlowered⟩ := exists_lowered hlower
  obtain ⟨g, hg, rfl⟩ := mem_map.mp hname
  exact isIdentifier_of_infer hordinary h (hlowered.name_mem hg)

/-- A lowered function names what can be linked. -/
theorem sound_of_lower (hg : g ∈ ir.functions) :
  Sound (linked (ir.functions.map (·.name)) (ir.globals.map (·.name))) ir.strings.length g
  := by
  have huses := uses_kept hordinary h hlower hg
  have hname := (name_of_kept hordinary h hlower (mem_map_of_mem hg)).1
  refine ⟨huses, ?_, ?_, ?_⟩
  · exact lower_labelled (fun _ hblock => hblock) (within_linkable hordinary h) hlower g hg
  · intro name hlabel
    obtain ⟨i, hi, heq⟩ := mem_filterMap.mp hlabel
    cases i with
    | label x =>
      cases heq
      obtain ⟨k, rfl⟩ := huses.code _ hi
      simp [labelName]
    | _ => cases heq
  · exact isUnitLabel_eq_false fun hpoint =>
      (isNameChar_of_isIdentifier hname _ hpoint).2 rfl

end

/-- What the functions of a module may refer to. -/
def Symbol (ir : Ir.Module) (name : String) : Prop :=
  name ∈ ir.functions.map (·.name) ∨ name ∈ Routine.all.map (·.name) ∨ name ∈ Code.dataNames ir

/-- What its code refers to is defined. -/
theorem compiles_linked :
  Compiles (linked (ir.functions.map (·.name)) (ir.globals.map (·.name))) ir.strings.length
    (Symbol ir)
  where
  global _ hx := .inr (.inr (globalSymbol_mem hx))
  string _ hindex := .inr (.inr (stringSymbol_mem hindex))
  callee name hname := by
    refine hname.imp_right fun hroutine => .inl ?_
    have hall : ∀ name ∈ routinesUsed, name ∈ all.map (·.name) := by decide +kernel
    exact hall name hroutine
  alloc := by
    have hmem : allocRoutine ∈ all.map (·.name) := by decide +kernel
    exact .inr (.inl hmem)
  free := by
    have hmem : freeRoutine ∈ all.map (·.name) := by decide +kernel
    exact .inr (.inl hmem)
  offset _ ho := ho
  raw := id

section

variable (hordinary : Ordinary program) (h : (Typed.infer program).module = some m)
  (hlower : lower m = .ok ir)

include h hlower

/-- The entry and the code before it are among the functions kept. -/
theorem roots_kept :
  ir.entry ∈ ir.functions.map (·.name) ∧ ∀ name ∈ ir.init, name ∈ ir.functions.map (·.name)
  := by
  obtain ⟨all, hlowered⟩ := exists_lowered hlower
  have hnames := names_of_functions hlowered.functions
  have hnodup : (all.map (·.name)).Nodup := by
    rw [hnames]
    exact infer_names_nodup h
  obtain ⟨hplans, hreports, rfl, -⟩ := infer_eq_some h
  have hstarts := infer_starts h
  rw [(pass_checked hreports).names] at hnames
  have hkept {name : String} (hroot : name ∈ ir.entry :: ir.init.toList)
      (hname : name ∈ (planOf program).functions.map (·.name)) :
      name ∈ ir.functions.map (·.name) := by
    rw [← hnames] at hname
    obtain ⟨f, hf, rfl⟩ := mem_map.mp hname
    rw [hlowered.reached]
    exact mem_map_of_mem ((Ir.mem_keepReached hnodup).mpr (.start hf hroot))
  constructor
  · apply hkept mem_cons_self
    rw [hlowered.entry]
    exact hstarts.hasEntry
  · intro name hinit
    apply hkept (mem_cons_of_mem _ (Option.mem_toList.mpr hinit))
    rw [hlowered.init] at hinit
    exact (hstarts.init name hinit).2

include hordinary

theorem isUnitLabel_of_symbol (hname : Symbol ir name) :
  isUnitLabel name = false
  := by
  rcases hname with hfunction | hroutine | hdata
  · have hidentifier := (name_of_kept hordinary h hlower hfunction).1
    exact isUnitLabel_eq_false fun hpoint =>
      (isNameChar_of_isIdentifier hidentifier _ hpoint).2 rfl
  · have hall : ∀ name ∈ all.map (·.name), isUnitLabel name = false := by
      decide +kernel
    exact hall name hroutine
  · exact isUnitLabel_of_mem_dataNames hdata

/-- A program without raw blocks that is accepted and lowered is compiled to a module that can be
linked. -/
theorem exists_linkable :
  ∃ code, compile ir = .ok code ∧ Image.Linkable code
  := by
  obtain ⟨hentry, hinit⟩ := roots_kept h hlower
  obtain ⟨functions, hnames, hrelocations, hcompile⟩ := exists_compile compiles_linked
    (fun name hname => isUnitLabel_of_symbol hordinary h hlower hname)
    (fun g hg => sound_of_lower hordinary h hlower hg) hentry
  refine ⟨_, hcompile, ?_⟩
  obtain ⟨all, hlowered⟩ := exists_lowered hlower
  have hkept {name : String} (hname : name ∈ functions.map (·.name)) :
      isIdentifier name ∧ name ≠ startSymbol := by
    rw [hnames] at hname
    exact name_of_kept hordinary h hlower hname
  exact {
    compiled := compiled_of_compile hcompile
    nodup := by
      rw [hnames, hlowered.reached]
      apply Nodup.sublist (filter_sublist.map _)
      rw [names_of_functions hlowered.functions]
      exact infer_names_nodup h
    plain := fun f hf hpoint =>
      (isNameChar_of_isIdentifier (hkept (mem_map_of_mem hf)).1 _ hpoint).2 rfl
    start := fun hstart => (hkept hstart).2 rfl
    entry := by
      rwa [hnames]
    init := by
      rwa [hnames]
    relocations := by
      rw [hnames]
      exact hrelocations }

end

end Lowering

open Lowering in
/-- A program without raw blocks that is accepted and lowered is compiled, and what is compiled is
linked if the file, with the text, the gap behind it and the data, is smaller than two to the
thirty-one bytes. -/
theorem exists_compile_link {program : Tree.Program} {m : Typed.Module} {ir : Ir.Module}
    (hordinary : Ordinary program) (h : (Typed.infer program).module = some m)
    (hlower : lower m = .ok ir) :
  ∃ code units, Code.compile ir = .ok code ∧ Image.codeUnits code = .ok units ∧
    (Image.fileSize code units < 2 ^ 31 →
      ∃ image, Image.link code = .ok image ∧ image.bytes.length = Image.fileSize code units)
  := by
  obtain ⟨code, hcode, hlinkable⟩ := exists_linkable hordinary h hlower
  obtain ⟨start, units, hgathered⟩ := hlinkable.exists_units
  exact ⟨code, units, hcode, Image.codeUnits_eq_ok.mpr ⟨start, hgathered⟩,
    hlinkable.exists_image hgathered⟩

/-- Prints a text: `def main(): print("hello"); end;` -/
def greeting : Tree.Program where
  main := (Tree.parse (some 0) ("def main(): print(\"hello\"); end;".toList.map Text.byte)).unit
  libraries := []

/-- What `greeting` is lowered to. -/
def greetingModule : Ir.Module :=
  { Image.greetModule with functions := [{ Image.greet with span := ⟨some 0, 0, 32⟩ }] }

theorem compile_greetingModule :
  compile greetingModule = .ok Image.greetCode
  := by
  decide +kernel

theorem greeting_compile_link :
  Ordinary greeting ∧ ∃ m, (Typed.infer greeting).module = some m ∧
    Lowering.lower m = .ok greetingModule ∧ Code.compile greetingModule = .ok Image.greetCode ∧
    ∃ image, Image.link Image.greetCode = .ok image ∧ image.bytes.length = 0x1010
  := by
  have hparsed : greeting.Parsed := Tree.parsed_of_parse (by decide +kernel)
  have hordinary : Ordinary greeting := ⟨hparsed, by decide +kernel, by decide +kernel⟩
  have hlowered : (Typed.infer greeting).module.map Lowering.lower =
      some (.ok greetingModule) := by
    decide +kernel
  obtain ⟨m, hm, hlower⟩ := Option.map_eq_some_iff.mp hlowered
  refine ⟨hordinary, m, hm, hlower, compile_greetingModule, ?_⟩
  obtain ⟨code, units, hcode, hunits, himage⟩ := exists_compile_link hordinary hm hlower
  cases hcode.symm.trans compile_greetingModule
  have hsize : Image.fileSize Image.greetCode units = 0x1010 := by
    have hgreet : Image.codeUnits Image.greetCode = .ok Image.greetUnits := by decide +kernel
    cases hunits.symm.trans hgreet
    decide +kernel
  rw [hsize] at himage
  exact himage (by decide)

end Endmark
