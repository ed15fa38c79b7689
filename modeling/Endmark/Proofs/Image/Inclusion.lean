import Endmark.Proofs.Image.Acceptance

/-!
# Units of an image

Linking takes in the routines that are needed, and no others: those that functions and the start
of the program refer to, those that such routines refer to, and so on.  A symbol is reported as
undefined when something that is taken in refers to it and nothing can define it.
-/

namespace Endmark.Image

open List

/-- A unit of the image refers to the symbol. -/
def Refers (m : Code.Module) (symbol : String) : Prop :=
  ∃ u, Included m u ∧ ∃ r ∈ u.relocations, r.symbol = symbol

/-- Linking reports a symbol that is not defined. -/
def ReportsUndefined (m : Code.Module) : Prop :=
  ∃ reports, link m = .error reports ∧ ∃ symbol unit, (Fault.undefined symbol unit).report ∈ reports

/-- The symbol has an address in the text. -/
def InText (image : Image) (symbol : String) : Prop :=
  ∃ address, image.symbols.lookup symbol = some address ∧ address < baseAddress + image.text.length

/-- The symbol has an address in the data. -/
def InData (image : Image) (symbol : String) : Prop :=
  ∃ address, image.symbols.lookup symbol = some address ∧ baseAddress + image.dataOffset ≤ address

variable {units : List CodeUnit} {symbols : List (String × Nat)}

/-- What is referred to has no address just when it is not known. -/
theorem Gathered.lookup_eq_none (h : Gathered m start units)
    (hreferences : name ∈ references units) (hsymbols : linkedSymbols m units = .ok symbols) :
  symbols.lookup name = none ↔ ¬ Known m name
  := by
  have hnames : (placedUnits m units).map (·.1.name) = units.map (·.name) := by
    conv_rhs => rw [← map_placeUnits (textStart (allData m units)) units, map_map]
    rfl
  rw [linkedSymbols, addresses] at hsymbols
  split at hsymbols
  case h_1 => cases hsymbols
  case h_2 =>
    cases hsymbols
    rw [lookup_eq_none_iff_notMem, h.known_iff hreferences, not_iff_not, ← hnames, map_append,
      mem_append, map_map, map_map]
    exact or_congr .rfl ((mergeSort_perm _ _).map _).mem_iff

theorem fieldValue_eq_undefined :
  fieldValue symbols unit address r = .error (.undefined symbol other) ↔
    symbols.lookup r.symbol = none ∧ r.symbol = symbol ∧ unit = other
  := by
  rw [fieldValue]
  split
  case h_1 hnone => simp [hnone]
  case h_2 target hsome =>
    simp only [hsome]
    split <;> simp

theorem report_eq_undefined {fault : Fault}
    (h : fault.report = (Fault.undefined symbol unit).report) :
  ∃ symbol unit, fault = .undefined symbol unit
  := by
  have hkind := congrArg Diagnostic.kind h
  cases fault with
  | undefined symbol unit => exact ⟨symbol, unit, rfl⟩
  | _ => cases hkind

/-- When all units and data have addresses, the symbols are reported that nothing can define. -/
theorem Gathered.reports_undefined (h : Gathered m start units)
    (hsymbols : linkedSymbols m units = .ok symbols) :
  ReportsUndefined m ↔ ∃ symbol, Refers m symbol ∧ ¬ Known m symbol
  := by
  have hfaults {symbol unit : String} : .undefined symbol unit ∈ faultsIn m units symbols ↔
      ∃ p ∈ placedUnits m units, ∃ r ∈ p.1.relocations,
        symbols.lookup r.symbol = none ∧ r.symbol = symbol ∧ p.1.name = unit := by
    simp [faultsIn, mem_faults_resolve, fieldValue_eq_undefined]
  rw [ReportsUndefined, link_eq (codeUnits_eq_ok.mpr ⟨start, h⟩) hsymbols]
  constructor
  · rintro ⟨reports, hlink, symbol, unit, hmem⟩
    split at hlink
    case isTrue => cases hlink
    case isFalse =>
      cases hlink
      obtain ⟨fault, hfault, hreport⟩ := mem_map.mp hmem
      obtain ⟨symbol, unit, rfl⟩ := report_eq_undefined hreport
      obtain ⟨p, hp, r, hr, hnone, -⟩ := hfaults.mp hfault
      have hu := mem_units_iff.mpr ⟨p, hp, rfl⟩
      have hrefers := mem_references.mpr ⟨p.1, hu, r, hr, rfl⟩
      exact ⟨r.symbol, ⟨p.1, h.mem_iff.mp hu, r, hr, rfl⟩,
        (h.lookup_eq_none hrefers hsymbols).mp hnone⟩
  · rintro ⟨_, ⟨u, hu, r, hr, rfl⟩, hunknown⟩
    have hu := h.mem_iff.mpr hu
    have hrefers := mem_references.mpr ⟨u, hu, r, hr, rfl⟩
    have hnone := (h.lookup_eq_none hrefers hsymbols).mpr hunknown
    obtain ⟨p, hp, rfl⟩ := mem_units_iff.mp hu
    have hfault := hfaults.mpr ⟨p, hp, r, hr, hnone, rfl, rfl⟩
    rw [if_neg (ne_nil_of_mem hfault)]
    exact ⟨_, rfl, _, _, mem_map_of_mem hfault⟩

section

variable (h : Linked m units image)

include h

/-- A name is in the text just when its unit is included. -/
theorem Linked.inText_iff (name : String) :
  InText image name ↔ ∃ u, Included m u ∧ u.name = name
  := by
  obtain ⟨start, hgathered⟩ := codeUnits_eq_ok.mp h.gathered
  have hl := h.laidOut
  constructor
  · rintro ⟨address, hlookup, hlt⟩
    rcases (h.lookup_symbols name).mp hlookup with ⟨p, hp, hname, -⟩ | ⟨d, -, -, rfl⟩
    · exact ⟨p.1, hgathered.mem_iff.mp (mem_units_iff.mpr ⟨p, hp, rfl⟩), hname⟩
    · have := hl.after_text
      omega
  · rintro ⟨u, hu, hname⟩
    obtain ⟨p, hp, rfl⟩ := mem_units_iff.mp (hgathered.mem_iff.mpr hu)
    exact ⟨_, (h.lookup_symbols name).mpr (.inl ⟨p, hp, hname, rfl⟩),
      Nat.add_lt_add_left (hl.in_text p hp) _⟩

/-- A word of the runtime is in the data just when something refers to it. -/
theorem Linked.inData_iff (hword : word ∈ Routine.dataWords) :
  InData image word ↔ Refers m word
  := by
  obtain ⟨start, hgathered⟩ := codeUnits_eq_ok.mp h.gathered
  have hl := h.laidOut
  have hdata : word ∈ (dataSymbols m units).map (·.1) ↔ Refers m word := by
    simp only [Refers, ← hgathered.mem_iff, ← mem_references]
    rw [dataSymbols, map_append, map_wordSymbols, mem_append, mem_filter,
      contains_iff_mem, and_iff_right hword, or_iff_right]
    intro hother
    obtain ⟨d, hd, rfl⟩ := mem_map.mp hother
    exact notMem_dataWords h.compiled hd hword
  rw [← hdata]
  constructor
  · rintro ⟨address, hlookup, hle⟩
    rcases (h.lookup_symbols word).mp hlookup with ⟨p, hp, -, rfl⟩ | ⟨d, hd, rfl, -⟩
    · have := hl.in_text p hp
      have := hl.after_text
      omega
    · exact mem_map_of_mem hd
  · intro hmem
    obtain ⟨d, hd, rfl⟩ := mem_map.mp hmem
    exact ⟨_, (h.lookup_symbols _).mpr (.inr ⟨d, hd, rfl, rfl⟩), Nat.le_add_right _ _⟩

end

/-- An image has the text of the units that are included and no other, and of the words of the
routines those that they refer to. -/
theorem link_includes {ir : Ir.Module} (hcompile : Code.compile ir = .ok m)
    (hnodup : (m.functions.map (·.name)).Nodup)
    (hstart : Routine.startSymbol ∉ m.functions.map (·.name))
    (hdata : ∀ d ∈ m.symbols, d.1 ∉ m.functions.map (·.name)) :
  ((∀ word ∈ Routine.dataWords, word ∉ m.functions.map (·.name)) →
    Machine.isUnitLabel m.entry = false → (∀ name ∈ m.init, Machine.isUnitLabel name = false) →
    (ReportsUndefined m ↔ ∃ symbol, Refers m symbol ∧ ¬ Known m symbol)) ∧
  ∀ image, link m = .ok image →
    (∀ name, InText image name ↔ ∃ u, Included m u ∧ u.name = name) ∧
    ∀ word ∈ Routine.dataWords, InData image word ↔ Refers m word
  := by
  have hm := Code.compiled_of_compile hcompile
  constructor
  · intro hwords hentry hinit
    obtain ⟨a, ha, -⟩ := exists_start hentry hinit fun _ h => h
    obtain ⟨start, units, h⟩ := exists_gathered ha hnodup hstart
    have hfree : ∀ name ∈ (dataSymbols m units).map (·.1), name ∉ m.functions.map (·.name) := by
      rw [dataSymbols, List.map_append, map_wordSymbols, List.forall_mem_append,
        List.forall_mem_map]
      exact ⟨hdata, fun word hword => hwords word (List.mem_of_mem_filter hword)⟩
    obtain ⟨symbols, hsymbols⟩ := exists_linkedSymbols (h.apart hm hfree)
    exact h.reports_undefined hsymbols
  · intro image hlink
    obtain ⟨units, h⟩ := linked_of_link hm hlink
    exact ⟨h.inText_iff, fun word hword => h.inData_iff hword⟩

theorem greet_includes :
  Code.compile greetModule = .ok greetCode ∧
    link greetCode = .ok (linkedImage greetCode greetUnits greetSymbols) ∧
    (∀ symbol, Refers greetCode symbol → Known greetCode symbol) ∧
    (∃ u, Included greetCode u ∧ u.name = "__aim_write") ∧ ¬ Refers greetCode "__aim_heap.ptr"
  := by
  obtain ⟨hreports, hlinked⟩ := link_includes compile_greetModule (by decide) (by decide)
    (by decide)
  obtain ⟨htext, hwords⟩ := hlinked _ link_greetCode
  refine ⟨compile_greetModule, link_greetCode, fun symbol hrefers => ?_, ?_, ?_⟩
  · by_contra hunknown
    obtain ⟨reports, hlink, -⟩ := (hreports (by decide) (by decide) (by decide)).mpr
      ⟨symbol, hrefers, hunknown⟩
    cases hlink.symm.trans link_greetCode
  · exact (htext _).mp ⟨0x400100, by decide, by decide +kernel⟩
  · rw [← hwords _ (by decide)]
    rintro ⟨address, hlookup, -⟩
    have hnone : greetSymbols.lookup "__aim_heap.ptr" = none := by decide
    cases hnone.symm.trans hlookup

/-- Its entry has the name of a label, and calls a function that does not exist. -/
def stray : Ir.Module where
  functions := [⟨".main", [], .i64, [], [.call none "nowhere" [], .ret (some (.int 0))], .nowhere⟩]
  globals := []
  strings := []
  entry := ".main"
  init := none

@[inherit_doc stray]
def strayCode : Code.Module where
  functions := [{
    name := ".main"
    insts := [.label ".main", .push .rbp, .mov .rbp .rsp, .call "nowhere", .movImm .rax 0,
      .label ".epilogue", .lea .rsp (.offset .rbp 0), .pop .rbp, .ret]
    code := [0x55, 0x48, 0x89, 0xe5, 0xe8, 0, 0, 0, 0, 0x48, 0xc7, 0xc0, 0, 0, 0, 0, 0x48, 0x8d,
      0x65, 0, 0x5d, 0xc3]
    relocations := [⟨5, "nowhere", -4⟩] }]
  data := []
  symbols := []
  entry := ".main"
  init := none

/-- A start that cannot call its entry is reported in place of the symbol that is not defined. -/
theorem stray_unreported :
  Code.compile stray = .ok strayCode ∧ (strayCode.functions.map (·.name)).Nodup ∧
    Routine.startSymbol ∉ strayCode.functions.map (·.name) ∧
    (∀ d ∈ strayCode.symbols, d.1 ∉ strayCode.functions.map (·.name)) ∧
    (∃ symbol, Refers strayCode symbol ∧ ¬ Known strayCode symbol) ∧ ¬ ReportsUndefined strayCode
  := by
  have hfunctions : stray.functions.map (Code.compileFunction stray) =
      strayCode.functions.map .ok := by
    rw [stray, List.map_singleton, Code.compileFunction, allocation_of_mentioned rfl]
    decide +kernel
  have hlink : link strayCode = .error [(Fault.entryStub (.undefinedLabel ".main")).report] := by
    decide +kernel
  refine ⟨?_, by decide, by decide, by decide, ⟨"nowhere", ?_, ?_⟩, ?_⟩
  · rw [Code.compile, if_pos (by simp [stray]), hfunctions]
    rfl
  · exact ⟨_, .function List.mem_cons_self, _, List.mem_cons_self, rfl⟩
  · simp only [Known]
    decide +kernel
  · rintro ⟨reports, hreports, symbol, unit, hmem⟩
    cases hreports.symm.trans hlink
    obtain ⟨symbol, unit, heq⟩ := report_eq_undefined (List.mem_singleton.mp hmem).symm
    cases heq

end Endmark.Image
