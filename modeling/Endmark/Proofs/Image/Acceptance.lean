import Endmark.Proofs.Code.Acceptance
import Endmark.Proofs.Image.Linking

/-!
# Modules that can be linked

When what the functions of a module refer to is a function, a routine or a symbol of the data,
all of it has an address: the routines that are needed include those that needed ones refer to.
When the file is not too large, all fields have room for the distances.
-/

namespace Endmark.Image

open Machine
open Code
open List Bool

/-- Routines refer to routines and to their words of data only. -/
theorem symbol_of_mem_routineUnits :
  ∀ u ∈ routineUnits, ∀ r ∈ u.relocations,
    r.symbol ∈ Routine.all.map (·.name) ∨ r.symbol ∈ Routine.dataWords
  := by
  decide +kernel

/-! ### Units that can be gathered -/

/-- What is demanded of a compiled module that can be linked. -/
structure Linkable (m : Code.Module) : Prop where
  compiled : m.Compiled
  nodup : (m.functions.map (·.name)).Nodup
  plain : ∀ f ∈ m.functions, '.' ∉ f.name.toList
  start : Routine.startSymbol ∉ m.functions.map (·.name)
  entry : m.entry ∈ m.functions.map (·.name)
  init : ∀ name ∈ m.init, name ∈ m.functions.map (·.name)
  relocations : ∀ f ∈ m.functions, ∀ r ∈ f.relocations,
    r.symbol ∈ m.functions.map (·.name) ∨ r.symbol ∈ Routine.all.map (·.name) ∨
      r.symbol ∈ m.symbols.map (·.1)

/-- The names that units can refer to: functions, symbols of the data, routines and the words that
they use, and the start. -/
def Known (m : Code.Module) (name : String) : Prop :=
  name ∈ m.functions.map (·.name) ∨ name ∈ m.symbols.map (·.1) ∨
    name ∈ Routine.all.map (·.name) ∨ name ∈ Routine.dataWords ∨ name = Routine.startSymbol

/-- A point is in the name of every symbol of the data. -/
theorem point_mem (hm : m.Compiled) (hname : name ∈ (dataSymbols m units).map (·.1)) :
  '.' ∈ name.toList
  := by
  rw [dataSymbols, map_append, map_wordSymbols, mem_append] at hname
  rcases hname with hname | hname
  · obtain ⟨d, hd, rfl⟩ := mem_map.mp hname
    rcases (hm.symbols d hd).2 with ⟨x, hx⟩ | ⟨k, hk⟩
    · rw [hx, globalSymbol, String.toList_append]
      exact mem_append_left _ (by decide)
    · rw [hk]
      simp [stringSymbol, toString]
  · have hword : ∀ word ∈ Routine.dataWords, '.' ∈ word.toList := by decide +kernel
    exact hword name (mem_of_mem_filter hname)

/-- Symbols have addresses when no unit has the name of data. -/
theorem exists_linkedSymbols (h : ∀ u ∈ units, u.name ∉ (dataSymbols m units).map (·.1)) :
  ∃ symbols, linkedSymbols m units = .ok symbols
  := by
  rw [linkedSymbols, addresses]
  split
  case h_1 name offset hfound =>
    exfalso
    have hmem := mem_of_find?_eq_some hfound
    rw [mem_mergeSort] at hmem
    have hsome := find?_some hfound
    obtain ⟨address, haddress⟩ := Option.isSome_iff_exists.mp hsome
    obtain ⟨p, hp, heq⟩ := mem_map.mp (mem_of_lookup_eq_some haddress)
    apply h p.1 (mem_units_iff.mpr ⟨p, hp, rfl⟩)
    rw [(Prod.mk.inj heq).1]
    exact mem_map_of_mem (f := (·.1)) hmem
  case h_2 => exact ⟨_, rfl⟩

/-! ### Sizes -/

theorem Fits.finish_le (h : Fits offset placed) (hp : p ∈ placed) :
  p.2 + p.1.code.length ≤ textEnd offset placed
  := by
  obtain ⟨before, after, htext, hbefore⟩ := h.textFrom_split hp
  have hlength := h.length_textFrom
  rw [htext, length_append, length_append] at hlength
  omega

/-- The size of the file that units are linked to. -/
def fileSize (m : Code.Module) (units : List CodeUnit) : Nat :=
  if (allData m units).isEmpty then textSize m units
  else dataPage m units + (allData m units).length

theorem finish_le_fileSize (hp : p ∈ placedUnits m units) :
  p.2 + p.1.code.length ≤ fileSize m units
  := by
  have hend : p.2 + p.1.code.length ≤ textSize m units :=
    (fits_placeUnits _ _).finish_le hp
  have hpage : textSize m units ≤ dataPage m units :=
    le_alignUp (by decide)
  rw [fileSize]
  split <;> omega

theorem exists_gathered {a : Assembled} (ha : assemble (Routine.start m.init m.entry) = .ok a)
    (hnodup : (m.functions.map (·.name)).Nodup)
    (hstart : Routine.startSymbol ∉ m.functions.map (·.name)) :
  ∃ start units, Gathered m start units
  := by
  refine ⟨startUnit a, _, ⟨a, ha, rfl⟩, ?_, rfl⟩
  rw [map_append, map_map, nodup_append]
  refine ⟨hnodup, nodup_singleton _, ?_⟩
  rintro name hname _ hmem rfl
  rw [mem_singleton.mp hmem] at hname
  exact hstart hname

/-- The start of a program can be assembled when no name in it has to be defined there, and refers
to what it calls. -/
theorem exists_start {P : String → Prop} {entry : String} (hentry : P entry)
    (hinit : ∀ name ∈ init, P name) (hunit : ∀ name, P name → isUnitLabel name = false) :
  ∃ a, assemble (Routine.start init entry) = .ok a ∧ ∀ r ∈ a.relocations, P r.symbol
  := by
  have hdefined : Assembler.defined (Routine.start init entry) = [Routine.startSymbol] := by
    cases init <;> rfl
  have hcall {name : String} (hname : P name) : KeepTo P [.call name] := by
    apply keepTo_singleton
    · rintro _ ⟨⟩
    · rintro _ ⟨⟩
      exact hname
  have hkeep : KeepTo P (Routine.start init entry) := by
    refine ((keepTo_of_all rfl).append ?_).append
      ((hcall hentry).append (keepTo_of_all rfl))
    cases init with
    | none => exact keepTo_nil
    | some name => exact hcall (hinit name rfl)
  obtain ⟨a, ha, hrelocations⟩ := exists_assemble
    (by rw [hdefined]; exact nodup_singleton _) hkeep
    fun name hname hlabel => by cases (hunit name hname).symm.trans hlabel
  exact ⟨a, ha, fun r hr => (hrelocations r hr).1⟩

section

variable (hm : Linkable m)

include hm

theorem Linkable.plain_name (h : name ∈ m.functions.map (·.name)) :
  '.' ∉ name.toList
  := by
  obtain ⟨f, hf, rfl⟩ := mem_map.mp h
  exact hm.plain f hf

/-- The start can be assembled, and refers to functions only. -/
theorem Linkable.exists_start :
  ∃ a, assemble (Routine.start m.init m.entry) = .ok a ∧
    ∀ r ∈ a.relocations, r.symbol ∈ m.functions.map (·.name)
  := Image.exists_start hm.entry hm.init fun _ hname =>
    isUnitLabel_eq_false (hm.plain_name hname)

theorem Linkable.exists_units :
  ∃ start units, Gathered m start units
  := by
  obtain ⟨a, ha, -⟩ := hm.exists_start
  exact exists_gathered ha hm.nodup hm.start

section

variable {units : List CodeUnit} (h : Gathered m start units)

include h

/-! ### Symbols that have addresses -/

omit hm in
/-- What is referred to is a unit or a symbol of the data just when it is known. -/
theorem Gathered.known_iff (hreferences : name ∈ references units) :
  Known m name ↔ name ∈ units.map (·.name) ∨ name ∈ (dataSymbols m units).map (·.1)
  := by
  have hunit {u : CodeUnit} (hu : Included m u) : u.name ∈ units.map (·.name) :=
    mem_map_of_mem (h.mem_iff.mpr hu)
  have hfunction (hname : name ∈ m.functions.map (·.name)) : name ∈ units.map (·.name) := by
    obtain ⟨f, hf, rfl⟩ := mem_map.mp hname
    exact hunit (.function hf)
  rw [dataSymbols, map_append, map_wordSymbols, mem_append, mem_filter,
    contains_iff_mem, and_iff_left hreferences]
  constructor
  · rintro (hname | hsymbol | hroutine | hword | rfl)
    · exact .inl (hfunction hname)
    · exact .inr (.inl hsymbol)
    · by_cases hfree : name ∈ m.functions.map (·.name)
      · exact .inl (hfunction hfree)
      · rw [← map_name_routineUnits] at hroutine
        obtain ⟨u, hu, rfl⟩ := mem_map.mp hroutine
        obtain ⟨v, hv, hasks⟩ := mem_references.mp hreferences
        exact .inl (hunit (.routine hu hfree (h.mem_iff.mp hv) hasks))
    · exact .inr (.inr hword)
    · obtain ⟨a, ha, -⟩ := h.assembled
      exact .inl (hunit (.start ha))
  · rintro (hname | hsymbol | hword)
    · obtain ⟨u, hu, rfl⟩ := mem_map.mp hname
      cases h.mem_iff.mp hu with
      | function hf => exact .inl (mem_map_of_mem hf)
      | start => exact .inr (.inr (.inr (.inr rfl)))
      | routine hu => exact .inr (.inr (.inl (name_mem_all hu)))
    · exact .inr (.inl hsymbol)
    · exact .inr (.inr (.inr (.inl hword)))

omit hm in
/-- No unit has the name of data when no function has. -/
theorem Gathered.apart (hcompiled : m.Compiled)
    (hfree : ∀ name ∈ (dataSymbols m units).map (·.1), name ∉ m.functions.map (·.name)) :
  ∀ u ∈ units, u.name ∉ (dataSymbols m units).map (·.1)
  := by
  intro u hu hname
  have hplain : ∀ name ∈ Routine.startSymbol :: Routine.all.map (·.name), '.' ∉ name.toList := by
    decide +kernel
  have hpoint := point_mem hcompiled hname
  cases h.mem_iff.mp hu with
  | function hf => exact hfree _ hname (mem_map_of_mem hf)
  | start => exact hplain _ mem_cons_self hpoint
  | routine hu => exact hplain _ (mem_cons_of_mem _ (name_mem_all hu)) hpoint

/-- What a unit refers to is known. -/
theorem Gathered.known (hu : u ∈ units) (hr : r ∈ u.relocations) :
  Known m r.symbol
  := by
  cases h.mem_iff.mp hu with
  | function hf =>
    rcases hm.relocations _ hf r hr with hsymbol | hsymbol | hsymbol
    · exact .inl hsymbol
    · exact .inr (.inr (.inl hsymbol))
    · exact .inr (.inl hsymbol)
  | start ha =>
    obtain ⟨b, hb, hfunctions⟩ := hm.exists_start
    cases ha.symm.trans hb
    exact .inl (hfunctions r hr)
  | routine hu => exact .inr (.inr ((symbol_of_mem_routineUnits _ hu r hr).imp_right .inl))

end

/-! ### Images -/

theorem Linkable.lt_fileSize (hd : d ∈ dataSymbols m units) :
  dataPage m units + d.2 < fileSize m units
  := by
  have hlt := lt_length_allData hm.compiled hd
  have hdata : (allData m units).isEmpty = false := by
    rw [isEmpty_eq_false_iff]
    exact ne_nil_of_length_pos (Nat.zero_lt_of_lt hlt)
  rw [fileSize, hdata]
  simp only [false_eq_true, if_false]
  omega

/-- Each field has a value of 32 bits, as the file is small. -/
theorem Linkable.exists_fieldValue {start : CodeUnit} (h : Gathered m start units)
    (hsize : fileSize m units < 2 ^ 31) {symbols : List (String × Nat)}
    (hsymbols : linkedSymbols m units = .ok symbols) (hp : p ∈ placedUnits m units)
    (hr : r ∈ p.1.relocations) (name : String) :
  ∃ value, fieldValue symbols name (baseAddress + p.2) r = .ok value
  := by
  have hunits := units_of_codeUnits hm.compiled (codeUnits_eq_ok.mpr ⟨start, h⟩)
  have hmap : (placedUnits m units).map (·.1) = units := map_placeUnits _ _
  have hu := mem_units_iff.mpr ⟨p, hp, rfl⟩
  have hlookup := lookup_addresses hsymbols (by rw [hmap]; exact hunits.nodup)
    (nodup_dataSymbols hm.compiled units) r.symbol
  -- the symbol is somewhere in the file
  have htarget : ∃ target, symbols.lookup r.symbol = some target ∧ baseAddress ≤ target ∧
      target ≤ baseAddress + fileSize m units := by
    rcases (h.known_iff (mem_references.mpr ⟨_, hu, r, hr, rfl⟩)).mp (h.known hm hu hr) with
      hsymbol | hsymbol
    · rw [← hmap, map_map] at hsymbol
      obtain ⟨q, hq, hname⟩ := mem_map.mp hsymbol
      have hend := finish_le_fileSize hq
      exact ⟨_, (hlookup _).mpr (.inl ⟨q, hq, hname, rfl⟩), by omega, by omega⟩
    · obtain ⟨d, hd, hname⟩ := mem_map.mp hsymbol
      have hend := hm.lt_fileSize hd
      exact ⟨_, (hlookup _).mpr (.inr ⟨d, hd, hname, rfl⟩), by omega, by omega⟩
  obtain ⟨target, hfound, hlow, hhigh⟩ := htarget
  obtain ⟨stop, hstop, haddend⟩ := (hunits.regular _ hu).addend r hr
  have hend := finish_le_fileSize hp
  have hfits : Number.fitsSigned 32
      ((target : Int) + r.addend - (baseAddress + p.2 + r.offset : Nat)) := by
    simp only [Number.fitsSigned]
    norm_num
    omega
  rw [fieldValue, hfound]
  simp only [hfits]
  exact ⟨_, rfl⟩

/-- A module can be linked when the file is not too large, and that is its size. -/
theorem Linkable.exists_image {start : CodeUnit} (h : Gathered m start units)
    (hsize : fileSize m units < 2 ^ 31) :
  ∃ image, link m = .ok image ∧ image.bytes.length = fileSize m units
  := by
  have hunits := codeUnits_eq_ok.mpr ⟨start, h⟩
  have hfree : ∀ name ∈ (dataSymbols m units).map (·.1), name ∉ m.functions.map (·.name) :=
    fun name hdata hname => hm.plain_name hname (point_mem hm.compiled hdata)
  obtain ⟨symbols, hsymbols⟩ := exists_linkedSymbols (h.apart hm.compiled hfree)
  have hquiet : faultsIn m units symbols = [] := by
    rw [faultsIn, flatMap_eq_nil_iff]
    refine fun p hp => eq_nil_iff_forall_not_mem.mpr fun fault => ?_
    rw [mem_faults_resolve]
    rintro ⟨r, hr, hfault⟩
    obtain ⟨value, hvalue⟩ := hm.exists_fieldValue h hsize hsymbols hp hr p.1.name
    cases hvalue.symm.trans hfault
  have hlink : link m = .ok (linkedImage m units symbols) := by
    rw [link_eq hunits hsymbols, if_pos hquiet]
  refine ⟨_, hlink, ?_⟩
  have hlinked : Linked m units (linkedImage m units symbols) :=
    ⟨hm.compiled, hunits, rfl, hsymbols, hquiet⟩
  rw [hlinked.length_bytes, hlinked.length_text, hlinked.dataOffset_eq, hlinked.data_eq, fileSize]
  split <;> rfl

end

end Endmark.Image
