import Endmark.Proofs.Image.Layout
import Endmark.Proofs.Ir.Liveness
import Endmark.Proofs.Machine.Assembler
import Endmark.Proofs.Machine.Decoding
import Endmark.Proofs.Saturation

/-!
# Linked images

Where a compiled module can be linked, the image has each of its units at a place of its own and
the data on pages of their own, every symbol has an address in its segment, every field leads to
its symbol, and the headers tell where the segments are.
-/

namespace Endmark

open Code
open Machine
open Routine
open List

/-! ### Symbols of data -/

variable {symbols : List (String × Nat)}

variable {insts : Insts} {name : String}

namespace Code

theorem mem_putSymbol (h : entry ∈ putSymbol name offset symbols) :
  entry = (name, offset) ∨ entry ∈ symbols
  := by
  induction symbols with
  | nil => exact .inl (mem_singleton.mp h)
  | cons first rest ih =>
    rw [putSymbol] at h
    split at h
    · exact (mem_cons.mp h).imp_right (mem_cons_of_mem _)
    · rcases mem_cons.mp h with rfl | h
      · exact .inr mem_cons_self
      · exact (ih h).imp_right (mem_cons_of_mem _)

theorem nodup_putSymbol (h : (symbols.map (·.1)).Nodup) :
  ((putSymbol name offset symbols).map (·.1)).Nodup
  := by
  induction symbols with
  | nil => exact nodup_singleton name
  | cons first rest ih =>
    rw [map_cons, nodup_cons] at h
    rw [putSymbol]
    split
    case isTrue hname =>
      rw [hname] at h
      exact nodup_cons.mpr h
    case isFalse hname =>
      rw [map_cons, nodup_cons]
      refine ⟨fun hmem => ?_, ih h.2⟩
      obtain ⟨entry, hentry, heq⟩ := mem_map.mp hmem
      rcases mem_putSymbol hentry with rfl | hentry
      · exact hname heq.symm
      · exact h.1 (heq ▸ mem_map_of_mem hentry)

theorem nodup_symbolsFrom (h : (symbols.map (·.1)).Nodup) :
  ((symbolsFrom offset symbols parts).map (·.1)).Nodup
  := by
  induction parts generalizing offset symbols with
  | nil => exact h
  | cons part rest ih => exact ih (nodup_putSymbol h)

/-- The symbol of a part has an offset at which all of the part is behind it. -/
theorem mem_symbolsFrom (h : entry ∈ symbolsFrom offset symbols parts) :
  entry ∈ symbols ∨ ∃ part ∈ parts, part.1 = entry.1 ∧
    entry.2 + part.2.length ≤ offset + (parts.flatMap (·.2)).length
  := by
  induction parts generalizing offset symbols with
  | nil => exact .inl h
  | cons part rest ih =>
    obtain ⟨name, bytes⟩ := part
    have hlength : ((((name, bytes) :: rest).flatMap (·.2)).length) =
        bytes.length + (rest.flatMap (·.2)).length := by
      rw [flatMap_cons, length_append]
    rcases ih h with hput | ⟨part, hpart, hname, hroom⟩
    · rcases mem_putSymbol hput with rfl | hold
      · exact .inr ⟨_, mem_cons_self, rfl, by simp only; omega⟩
      · exact .inl hold
    · exact .inr ⟨part, mem_cons_of_mem _ hpart, hname, by omega⟩

theorem part_of_mem_dataParts (h : part ∈ dataParts m) :
  ((∃ name, part.1 = globalSymbol name) ∨ ∃ k, part.1 = stringSymbol k) ∧ 0 < part.2.length
  := by
  rw [dataParts, mem_append, mem_map, mem_map] at h
  rcases h with ⟨g, -, rfl⟩ | ⟨⟨s, k⟩, -, rfl⟩
  · exact ⟨.inl ⟨_, rfl⟩, by simp⟩
  · refine ⟨.inr ⟨k, rfl⟩, ?_⟩
    simp only [stringData, length_append, Number.length_littleEndian]
    omega

theorem gather_eq_ok {results : List (Except (List Diagnostic) α)}
    (h : gather results = .ok values) :
  ∀ a ∈ values, .ok a ∈ results
  := by
  induction results generalizing values with
  | nil =>
    cases h
    exact fun _ ha => nomatch ha
  | cons result rest ih =>
    cases result with
    | error ds =>
      rw [gather] at h
      split at h <;> cases h
    | ok a =>
      obtain ⟨others, hrest, h⟩ := of_bind_ok h
      cases h
      rw [forall_mem_cons]
      exact ⟨mem_cons_self, fun b hb => mem_cons_of_mem _ (ih hrest b hb)⟩

/-- What is known of a compiled module: its functions are assembled, they have code, and its
symbols are in the data, with the names of globals and strings. -/
structure Module.Compiled (m : Module) : Prop where
  functions : ∀ f ∈ m.functions, ∃ a, Machine.assemble f.insts = .ok a ∧ a.code = f.code ∧
    a.relocations = f.relocations ∧ .ret ∈ f.insts
  nodup : (m.symbols.map (·.1)).Nodup
  symbols : ∀ d ∈ m.symbols, d.2 < m.data.length ∧
    ((∃ name, d.1 = globalSymbol name) ∨ ∃ k, d.1 = stringSymbol k)

theorem ret_mem_code {f : Frame} (h : f.code = .ok insts) :
  .ret ∈ insts
  := by
  rw [Frame.code] at h
  simp only at h
  split at h
  · cases h
    simp [Frame.epilogue]
  · cases h

theorem compileFunction_eq_ok (h : compileFunction m g = .ok f) :
  ∃ a, assemble f.insts = .ok a ∧ a.code = f.code ∧ a.relocations = f.relocations ∧
    .ret ∈ f.insts
  := by
  obtain ⟨insts, hcode, h⟩ := of_bind_ok h
  split at h
  case h_1 a ha =>
    cases h
    exact ⟨a, ha, rfl, rfl, ret_mem_code hcode⟩
  case h_2 => cases h

theorem compile_eq_ok {m : Module} (h : compile ir = .ok m) :
  gather (ir.functions.map (compileFunction ir)) = .ok m.functions ∧
    m.data = (dataParts ir).flatMap (·.2) ∧ m.symbols = symbolsFrom 0 [] (dataParts ir)
  := by
  rw [compile] at h
  split at h
  case isFalse => cases h
  case isTrue =>
    obtain ⟨functions, hgather, h⟩ := of_bind_ok h
    cases h
    exact ⟨hgather, rfl, rfl⟩

/-- What compiling gives is compiled. -/
theorem compiled_of_compile {m : Module} (h : compile ir = .ok m) :
  m.Compiled
  := by
  obtain ⟨hgather, hdata, hsymbols⟩ := compile_eq_ok h
  refine ⟨fun f hf => ?_, hsymbols ▸ nodup_symbolsFrom nodup_nil, fun d hd => ?_⟩
  · obtain ⟨g, -, hg⟩ := mem_map.mp (gather_eq_ok hgather f hf)
    exact compileFunction_eq_ok hg
  · rw [hsymbols] at hd
    rcases mem_symbolsFrom hd with hd | ⟨part, hpart, hname, hroom⟩
    · cases hd
    · obtain ⟨hkind, hlength⟩ := part_of_mem_dataParts hpart
      rw [← hname, hdata]
      exact ⟨by omega, hkind⟩

end Code

namespace Image

/-! ### Units -/

variable {u : CodeUnit} {units : List CodeUnit} {m : Code.Module}

theorem CodeUnit.regular_of_assemble (h : assemble insts = .ok a)
    (hcode : a.code = u.code) (hrelocations : a.relocations = u.relocations)
    (hi : i ∈ insts) (hlabel : i.isLabel = false) (href : i.reference? = none) :
  u.Regular
  := by
  obtain ⟨hordered, hinside⟩ := fields_of_assemble h
  have hpositive : 0 < a.code.length := by
    apply length_pos_of_assemble h hi href
    intro short e he
    have hencodes : i.Encodes e := ⟨hlabel, short, he⟩
    exact length_pos_of_ne_nil hencodes.bytes_ne_nil
  rw [hrelocations] at hordered hinside
  rw [hcode] at hinside hpositive
  exact ⟨hordered, fun r hr => (hinside r hr).1, fun r hr => (hinside r hr).2, hpositive⟩

theorem exists_plain_of_mem_all :
  ∀ r ∈ Routine.all, ∃ i ∈ r.insts, i.isLabel = false ∧ i.reference? = none
  := by
  decide +kernel

theorem exists_routine_of_mem (h : u ∈ routineUnits) :
  ∃ r ∈ Routine.all, ∃ a, assemble r.insts = .ok a ∧ u = ⟨r.name, a.code, a.relocations⟩
  := by
  obtain ⟨r, hr, hu⟩ := mem_filterMap.mp h
  split at hu
  case h_1 a ha =>
    cases hu
    exact ⟨r, hr, a, ha, rfl⟩
  case h_2 => cases hu

theorem regular_of_mem_routineUnits (h : u ∈ routineUnits) :
  u.Regular
  := by
  obtain ⟨r, hr, a, ha, rfl⟩ := exists_routine_of_mem h
  obtain ⟨i, hi, hlabel, href⟩ := exists_plain_of_mem_all r hr
  exact CodeUnit.regular_of_assemble ha rfl rfl hi hlabel href

/-- All routines can be assembled. -/
theorem map_name_routineUnits :
  routineUnits.map (·.name) = all.map (·.name)
  := by
  decide +kernel

theorem name_mem_all (h : u ∈ routineUnits) :
  u.name ∈ all.map (·.name)
  := map_name_routineUnits ▸ mem_map_of_mem h

theorem mem_references :
  name ∈ references units ↔ ∃ u ∈ units, ∃ r ∈ u.relocations, r.symbol = name
  := by
  simp [references]

/-- The routines that units do not define themselves. -/
def offered (units : List CodeUnit) : List CodeUnit :=
  routineUnits.filter (·.name ∉ units.map (·.name))

/-- A unit asks for the routines that it refers to. -/
def CodeUnit.Asks (u v : CodeUnit) : Prop :=
  ∃ r ∈ u.relocations, r.symbol = v.name

/-- The routines that a round adds. -/
def freshRoutines (table : List CodeUnit) (defined : List String) (needed : List CodeUnit)
    (symbols : List String) : List CodeUnit :=
  table.filter fun r => symbols.contains r.name && !defined.contains r.name && !needed.contains r

theorem neededFrom_eq {fuel : Nat} {needed : List CodeUnit} {symbols : List String} :
  neededFrom table defined fuel needed symbols =
    saturate (freshRoutines table defined) references fuel needed symbols
  := by
  induction fuel generalizing needed symbols with
  | zero => rfl
  | succ fuel ih =>
    rw [neededFrom]
    simp only [ih]
    rfl

/-- The routines that are needed are those that can be reached from the units. -/
theorem mem_neededRoutines :
  u ∈ neededRoutines units ↔
    Reached (offered units) (·.name ∈ references units) CodeUnit.Asks u
  := by
  have hfresh (needed : List CodeUnit) (symbols : List String) (u : CodeUnit) :
      u ∈ freshRoutines routineUnits (units.map (·.name)) needed symbols ↔
        u ∈ offered units ∧ u ∉ needed ∧ u.name ∈ symbols := by
    simp only [freshRoutines, offered, mem_filter, Bool.and_eq_true, Bool.not_eq_true',
      contains_eq_mem, decide_eq_true_eq, decide_eq_false_iff_not]
    exact ⟨fun ⟨hu, ⟨hdue, hfree⟩, hnew⟩ => ⟨⟨hu, hfree⟩, hnew, hdue⟩,
      fun ⟨⟨hu, hfree⟩, hnew, hdue⟩ => ⟨hu, ⟨hdue, hfree⟩, hnew⟩⟩
  have hfuel : (offered units).length < routineUnits.length + 1 := by
    exact Nat.lt_add_one_of_le (length_filter_le _ _)
  rw [neededRoutines, mem_filter, contains_iff_mem, neededFrom_eq,
    mem_saturate (fun symbols u => u.name ∈ symbols) hfresh (fun _ _ => mem_references) hfuel]
  exact and_iff_right_of_imp fun h => (mem_filter.mp h.mem).1

theorem mem_offered :
  u ∈ offered units ↔ u ∈ routineUnits ∧ u.name ∉ units.map (·.name)
  := by
  rw [offered, mem_filter, decide_eq_true_eq]

theorem nodup_names_neededRoutines {units : List CodeUnit} :
  ((neededRoutines units).map (·.name)).Nodup
  := by
  apply Nodup.sublist (filter_sublist.map _)
  decide +kernel

/-- The unit of a function. -/
def unitOf (f : Code.Function) : CodeUnit :=
  ⟨f.name, f.code, f.relocations⟩

/-- The unit at which a program starts. -/
def startUnit (a : Machine.Assembled) : CodeUnit :=
  ⟨Routine.startSymbol, a.code, a.relocations⟩

/-- The units are the functions, the routines that are needed, and the start. -/
structure Gathered (m : Code.Module) (start : CodeUnit) (units : List CodeUnit) : Prop where
  assembled : ∃ a, Machine.assemble (Routine.start m.init m.entry) = .ok a ∧ start = startUnit a
  nodup : ((m.functions.map unitOf ++ [start]).map (·.name)).Nodup
  units : units = m.functions.map unitOf ++ neededRoutines (m.functions.map unitOf ++ [start]) ++
    [start]

/-- The units of an image: the functions of the module, the start, and the routines which the module
does not define itself and a unit refers to. -/
inductive Included (m : Code.Module) : CodeUnit → Prop
  | function {f : Code.Function} (hf : f ∈ m.functions) : Included m (unitOf f)
  | start {a : Machine.Assembled} (ha : Machine.assemble (Routine.start m.init m.entry) = .ok a) :
      Included m (startUnit a)
  | routine {u v : CodeUnit} (hu : u ∈ routineUnits) (hfree : u.name ∉ m.functions.map (·.name))
      (hv : Included m v) (h : v.Asks u) : Included m u

/-- The units are those that are included. -/
theorem Gathered.mem_iff {start : CodeUnit} (h : Gathered m start units) :
  u ∈ units ↔ Included m u
  := by
  obtain ⟨⟨a, ha, rfl⟩, -, rfl⟩ := h
  have hoffered {u : CodeUnit} : u ∈ offered (m.functions.map unitOf ++ [startUnit a]) ↔
      u ∈ routineUnits ∧ u.name ∉ m.functions.map (·.name) := by
    have hstart : startSymbol ∉ all.map (·.name) := by decide +kernel
    rw [mem_offered, map_append, map_map, mem_append, not_or]
    refine and_congr_right fun hu => and_iff_left fun hname => hstart ?_
    have hname : u.name = startSymbol := mem_singleton.mp hname
    exact hname ▸ name_mem_all hu
  simp only [mem_append, mem_singleton, mem_neededRoutines]
  constructor
  · have hown {v : CodeUnit} (hv : v ∈ m.functions.map unitOf ++ [startUnit a]) :
        Included m v := by
      rcases mem_append.mp hv with hv | hv
      · obtain ⟨f, hf, rfl⟩ := mem_map.mp hv
        exact .function hf
      · rw [mem_singleton.mp hv]
        exact .start ha
    rintro ((hu | hu) | rfl)
    · exact hown (mem_append_left _ hu)
    · induction hu with
      | start hu hrefers =>
        obtain ⟨v, hv, hasks⟩ := mem_references.mp hrefers
        exact .routine (hoffered.mp hu).1 (hoffered.mp hu).2 (hown hv) hasks
      | next hu _ hasks ih => exact .routine (hoffered.mp hu).1 (hoffered.mp hu).2 ih hasks
    · exact .start ha
  · intro h
    induction h with
    | function hf => exact .inl (.inl (mem_map_of_mem hf))
    | start hb =>
      cases ha.symm.trans hb
      exact .inr rfl
    | @routine u v hu hfree _ hasks ih =>
      have hu := hoffered.mpr ⟨hu, hfree⟩
      refine .inl (.inr ?_)
      rcases ih with (hv | hv) | rfl
      · exact .start hu (mem_references.mpr ⟨v, mem_append_left _ hv, hasks⟩)
      · exact .next hu hv hasks
      · exact .start hu (mem_references.mpr ⟨_, by simp, hasks⟩)

/-- Gathering gives the functions, the routines that are needed, and the start. -/
theorem codeUnits_eq_ok :
  codeUnits m = .ok units ↔ ∃ start, Gathered m start units
  := by
  cases hstart : assemble (start m.init m.entry) with
  | error e =>
    rw [codeUnits, hstart]
    constructor
    · rintro ⟨⟩
    · rintro ⟨_, ⟨_, ha, -⟩, -, -⟩
      cases hstart.symm.trans ha
  | ok a =>
    simp only [codeUnits, hstart, Except.mapError, bind, Except.bind]
    constructor
    · intro h
      split at h
      case h_1 => cases h
      case h_2 hduplicate =>
        cases h
        have hnodup := Assembler.duplicate?_none hduplicate nodup_nil
        exact ⟨_, ⟨a, hstart, rfl⟩, hnodup, rfl⟩
    · rintro ⟨_, ⟨b, hb, rfl⟩, hnodup, rfl⟩
      cases hstart.symm.trans hb
      split
      case h_1 name hduplicate =>
        have hcount := Assembler.duplicate?_some hduplicate
        have hone := nodup_iff_count_le_one.mp hnodup name
        exact absurd hone (Nat.not_le.mpr hcount)
      case h_2 => rfl

/-- The units of a compiled module have names of their own, and the last one is the start. -/
structure Units (units : List CodeUnit) : Prop where
  regular : ∀ u ∈ units, u.Regular
  nodup : (units.map (·.name)).Nodup
  start : Routine.startSymbol ∈ units.map (·.name)

/-- The units of compiled code are regular and have distinct names. -/
theorem units_of_codeUnits (hm : m.Compiled) (h : codeUnits m = .ok units) :
  Units units
  := by
  obtain ⟨start, hgathered⟩ := codeUnits_eq_ok.mp h
  refine ⟨fun u hu => ?_, ?_, ?_⟩
  · cases hgathered.mem_iff.mp hu with
    | function hf =>
      obtain ⟨b, hb, hcode, hrelocations, hret⟩ := hm.functions _ hf
      exact CodeUnit.regular_of_assemble hb hcode hrelocations hret rfl rfl
    | start hb =>
      have hcall : .syscall ∈ Routine.start m.init m.entry := by simp [Routine.start]
      exact CodeUnit.regular_of_assemble hb rfl rfl hcall rfl rfl
    | routine hu => exact regular_of_mem_routineUnits hu
  · obtain ⟨-, hnodup, rfl⟩ := hgathered
    rw [append_assoc, (perm_append_comm.append_left _ |>.map _).nodup_iff,
      ← append_assoc, map_append, nodup_append]
    refine ⟨hnodup, nodup_names_neededRoutines, ?_⟩
    rintro name hname _ hother rfl
    obtain ⟨u, hu, rfl⟩ := mem_map.mp hother
    exact (mem_offered.mp (mem_neededRoutines.mp hu).mem).2 hname
  · obtain ⟨a, ha, -⟩ := hgathered.assembled
    exact mem_map_of_mem (f := (·.name)) (hgathered.mem_iff.mpr (.start ha))

/-! ### Addresses -/

/-- The symbols of data: those of the module, and words that routines use. -/
def dataSymbols (m : Code.Module) (units : List CodeUnit) : List (String × Nat) :=
  m.symbols ++ wordSymbols (references units) m.data.length

/-- The data of a module with the words that routines use. -/
def allData (m : Code.Module) (units : List CodeUnit) : List UInt8 :=
  m.data ++ List.replicate (8 * (wordSymbols (references units) m.data.length).length) 0

theorem mem_wordSymbols (h : d ∈ wordSymbols referenced offset) :
  d.1 ∈ dataWords ∧ d.2 < offset + 8 * (wordSymbols referenced offset).length
  := by
  rw [wordSymbols, mem_map] at h
  obtain ⟨⟨name, k⟩, hword, rfl⟩ := h
  have hmem := fst_mem_of_mem_zipIdx hword
  have hlt := snd_lt_of_mem_zipIdx hword
  refine ⟨mem_of_mem_filter hmem, ?_⟩
  simp only [wordSymbols, length_map, length_zipIdx]
  omega

theorem map_wordSymbols :
  (wordSymbols referenced offset).map (·.1) = dataWords.filter referenced.contains
  := by
  rw [wordSymbols, map_map]
  exact zipIdx_map_fst 0 _

theorem notMem_dataWords (hm : m.Compiled) (hd : d ∈ m.symbols) :
  d.1 ∉ dataWords
  := by
  intro hmem
  -- the words that routines use start with an underscore, and other symbols do not
  have hword : ∀ word ∈ dataWords, word.toList.head? = some '_' := by decide +kernel
  have hfirst := hword _ hmem
  rcases (hm.symbols d hd).2 with ⟨name, hname⟩ | ⟨k, hname⟩
  all_goals
    rw [hname] at hfirst
    simp [globalSymbol, stringSymbol, toString] at hfirst

theorem nodup_dataSymbols (hm : m.Compiled) (units : List CodeUnit) :
  ((dataSymbols m units).map (·.1)).Nodup
  := by
  rw [dataSymbols, map_append, nodup_append, map_wordSymbols]
  refine ⟨hm.nodup, .filter _ (by decide +kernel), ?_⟩
  intro name hname other hother heq
  subst heq
  obtain ⟨d, hd, rfl⟩ := mem_map.mp hname
  exact notMem_dataWords hm hd (mem_of_mem_filter hother)

theorem lt_length_allData (hm : m.Compiled) (hd : d ∈ dataSymbols m units) :
  d.2 < (allData m units).length
  := by
  rw [allData, length_append, length_replicate]
  rcases mem_append.mp hd with hd | hd
  · have hlt := (hm.symbols d hd).1
    omega
  · exact (mem_wordSymbols hd).2

/-- Every symbol has the address of what it names. -/
theorem lookup_addresses {placed : List (CodeUnit × Nat)} {dataOffset : Nat}
    {data : List (String × Nat)} (h : addresses placed dataOffset data = .ok symbols)
    (hplaced : ((placed.map (·.1)).map (·.name)).Nodup) (hdata : (data.map (·.1)).Nodup)
    (name : String) (address : Nat) :
  symbols.lookup name = some address ↔
    (∃ p ∈ placed, p.1.name = name ∧ baseAddress + p.2 = address) ∨
      ∃ d ∈ data, d.1 = name ∧ baseAddress + dataOffset + d.2 = address
  := by
  rw [addresses] at h
  split at h
  case h_1 => cases h
  case h_2 hfree =>
    cases h
    have hperm : (data.mergeSort fun a b => decide (a.1 ≤ b.1)).Perm data :=
      mergeSort_perm _ _
    have hnodup : ((placed.map (fun p => (p.1.name, baseAddress + p.2)) ++
        (data.mergeSort fun a b => decide (a.1 ≤ b.1)).map
          fun d => (d.1, baseAddress + dataOffset + d.2)).map (·.1)).Nodup := by
      rw [map_append, nodup_append, map_map, map_map]
      refine ⟨by rwa [map_map] at hplaced, ((hperm.map _).nodup_iff).mpr hdata, ?_⟩
      intro name hname other hother heq
      subst heq
      obtain ⟨d, hd, rfl⟩ := mem_map.mp hother
      have hnone := find?_eq_none.mp hfree d hd
      rw [Bool.not_eq_true, Option.isSome_eq_false_iff, Option.isNone_iff_eq_none,
        lookup_eq_none_iff_notMem, map_map] at hnone
      exact hnone hname
    rw [Iff.intro mem_of_lookup_eq_some (lookup_eq_some_of_mem hnodup)]
    simp

/-! ### Headers -/

/-- The number of segments. -/
def segments (image : Image) : Nat :=
  if image.data.isEmpty then 1 else 2

/-- The number in a field, lowest byte first. -/
def numberAt (bytes : List UInt8) (offset size : Nat) : Nat :=
  Number.ofLittleEndian (fieldAt bytes offset size)

/-- The header at `start` is that of a segment with the given part of the file, which is loaded to
the same place behind the base address. -/
structure DescribesSegment (bytes : List UInt8) (start flags offset size : Nat) : Prop where
  kind : numberAt bytes start 4 = 1
  rights : numberAt bytes (start + 4) 4 = flags
  fileOffset : numberAt bytes (start + 8) 8 = offset % 2 ^ 64
  address : numberAt bytes (start + 16) 8 = (baseAddress + offset) % 2 ^ 64
  physical : numberAt bytes (start + 24) 8 = (baseAddress + offset) % 2 ^ 64
  fileSize : numberAt bytes (start + 32) 8 = size % 2 ^ 64
  memorySize : numberAt bytes (start + 40) 8 = size % 2 ^ 64
  align : numberAt bytes (start + 48) 8 = pageSize

theorem numberAt_eq {bytes : List UInt8}
    (h : fieldAt bytes offset size = Number.littleEndian size n) :
  numberAt bytes offset size = n % 256 ^ size
  := by
  rw [numberAt, h, Number.ofLittleEndian_littleEndian]

theorem fieldAt_append_right (offset : Nat) {size : Nat} :
  fieldAt (before ++ rest) (before.length + offset) size = fieldAt rest offset size
  := by
  rw [fieldAt, drop_append, drop_eq_nil_of_le (by omega), nil_append]
  congr 2
  omega

/-- A header describes its segment. -/
theorem describesSegment_segmentHeader (hflags : flags < 256 ^ 4) :
  DescribesSegment (before ++ (segmentHeader flags offset size ++ rest)) before.length flags offset
    size
  := by
  constructor
  · exact numberAt_eq (n := 1) (fieldAt_append_right 0)
  · exact (numberAt_eq (fieldAt_append_right 4)).trans (Nat.mod_eq_of_lt hflags)
  · exact numberAt_eq (fieldAt_append_right 8)
  · exact numberAt_eq (fieldAt_append_right 16)
  · exact numberAt_eq (fieldAt_append_right 24)
  · exact numberAt_eq (fieldAt_append_right 32)
  · exact numberAt_eq (fieldAt_append_right 40)
  · exact numberAt_eq (n := pageSize) (fieldAt_append_right 48)

/-- The header of the file: the entry, and where and how many the headers of segments are. -/
structure DescribesFile (bytes : List UInt8) (entry segments : Nat) : Prop where
  magic : fieldAt bytes 0 4 = [0x7F, 0x45, 0x4C, 0x46]
  entry : numberAt bytes 24 8 = entry % 2 ^ 64
  table : numberAt bytes 32 8 = fileHeaderSize
  entrySize : numberAt bytes 54 2 = segmentHeaderSize
  entryCount : numberAt bytes 56 2 = segments

theorem describesFile_fileHeader {entry : Nat} {segments : Nat} (hsegments : segments < 256 ^ 2)
    {rest : List UInt8} :
  DescribesFile (fileHeader entry segments ++ rest) entry segments
  := by
  constructor
  · rfl
  · exact numberAt_eq rfl
  · exact numberAt_eq (n := fileHeaderSize) rfl
  · exact numberAt_eq (n := segmentHeaderSize) rfl
  · exact (numberAt_eq rfl).trans (Nat.mod_eq_of_lt hsegments)

theorem length_fileHeader {entry segments : Nat} :
  (fileHeader entry segments).length = fileHeaderSize
  := rfl

theorem length_segmentHeader :
  (segmentHeader flags offset size).length = segmentHeaderSize
  := rfl

/-! ### Images -/

/-- The image has the units at their offsets, the data behind them, and headers that say so. -/
structure LaidOut (m : Code.Module) (image : Image) (placed : List (CodeUnit × Nat)) : Prop where
  /-- The placed units are the functions, the routines that are needed, and the start. -/
  units : codeUnits m = .ok (placed.map (·.1))
  regular : ∀ p ∈ placed, p.1.Regular
  aligned : ∀ p ∈ placed, textAlign ∣ p.2
  after_headers : ∀ p ∈ placed, headerSize image.segments ≤ p.2
  apart : placed.Pairwise fun p q => p.2 + p.1.code.length ≤ q.2
  within : ∀ p ∈ placed, p.2 + p.1.code.length ≤ image.text.length
  /-- What the file has for a unit is its code, with the fields filled in. -/
  filled : ∀ p ∈ placed, Filled image.symbols p.1.relocations (baseAddress + p.2) p.1.code
    (fieldAt image.bytes p.2 p.1.code.length)
  symbols : ∀ name address, image.symbols.lookup name = some address ↔
    (∃ p ∈ placed, p.1.name = name ∧ baseAddress + p.2 = address) ∨
      ∃ d ∈ dataSymbols m (placed.map (·.1)), d.1 = name ∧
        baseAddress + image.dataOffset + d.2 = address
  in_text : ∀ p ∈ placed, p.2 < image.text.length
  in_data : ∀ d ∈ dataSymbols m (placed.map (·.1)), d.2 < image.data.length
  data : image.data = allData m (placed.map (·.1))
  page : image.data ≠ [] → pageSize ∣ baseAddress + image.dataOffset
  after_text : image.text.length ≤ image.dataOffset
  pages : ∀ i < image.text.length, ∀ k < image.data.length,
    (baseAddress + i) / pageSize < (baseAddress + image.dataOffset + k) / pageSize
  size : image.bytes.length =
    if image.data.isEmpty then image.text.length else image.dataOffset + image.data.length
  text_bytes : fieldAt image.bytes 0 image.text.length = image.text
  data_bytes : fieldAt image.bytes image.dataOffset image.data.length = image.data
  entry : image.symbols.lookup Routine.startSymbol = some image.entry
  file_header : DescribesFile image.bytes image.entry image.segments
  text_header : DescribesSegment image.bytes fileHeaderSize textFlags 0 image.text.length
  data_header : image.data ≠ [] →
    DescribesSegment image.bytes (fileHeaderSize + segmentHeaderSize) dataFlags image.dataOffset
      image.data.length

/-- Where the first unit starts. -/
def textStart (data : List UInt8) : Nat :=
  alignUp textAlign (headerSize (if data.isEmpty then 1 else 2))

/-- The units at their offsets. -/
def placedUnits (m : Code.Module) (units : List CodeUnit) : List (CodeUnit × Nat) :=
  placeUnits (textStart (allData m units)) units

theorem mem_units_iff :
  u ∈ units ↔ ∃ p ∈ placedUnits m units, p.1 = u
  := by
  conv_lhs => rw [← map_placeUnits (textStart (allData m units)) units]
  exact mem_map

/-- The offset behind the last unit. -/
def textSize (m : Code.Module) (units : List CodeUnit) : Nat :=
  textEnd (textStart (allData m units)) (placedUnits m units)

/-- The page at which data can start. -/
def dataPage (m : Code.Module) (units : List CodeUnit) : Nat :=
  alignUp pageSize (textSize m units)

/-- The text of an image: headers, and the units with their fields filled in. -/
def linkedText (m : Code.Module) (units : List CodeUnit) (symbols : List (String × Nat)) :
    List UInt8 :=
  let data := allData m units
  headers ((symbols.lookup Routine.startSymbol).getD 0) (textStart data) (textSize m units)
      (dataPage m units) data.length ++
    textFrom (textStart data)
      ((placedUnits m units).map fun p => ((resolve symbols p.1 p.2).1, p.2))

/-- The image of units with the given addresses. -/
def linkedImage (m : Code.Module) (units : List CodeUnit) (symbols : List (String × Nat)) :
    Image where
  text := linkedText m units symbols
  dataOffset :=
    if (allData m units).isEmpty then (linkedText m units symbols).length
    else dataPage m units
  data := allData m units
  symbols := symbols
  entry := (symbols.lookup Routine.startSymbol).getD 0

/-- What is wrong with the fields of units at their places. -/
def faultsIn (m : Code.Module) (units : List CodeUnit) (symbols : List (String × Nat)) :
    List Fault :=
  (placedUnits m units).flatMap fun p => (resolve symbols p.1 p.2).2

/-- The addresses of units at their places, and of data. -/
def linkedSymbols (m : Code.Module) (units : List CodeUnit) : Except Fault (List (String × Nat)) :=
  addresses (placedUnits m units) (dataPage m units)
    (dataSymbols m units)

/-- Linking in steps: symbols get addresses, fields are filled in, and the image is put
together. -/
theorem linkUnits_eq :
  linkUnits m units = ((linkedSymbols m units).mapError ([·])).bind fun symbols =>
    if faultsIn m units symbols = [] then .ok (linkedImage m units symbols)
    else .error (faultsIn m units symbols)
  := by
  change Except.bind (.mapError _ (linkedSymbols m units)) _ = _
  congr 1
  funext symbols
  simp only [flatMap_map, map_map]
  change (if (!(faultsIn m units symbols).isEmpty) = true then _ else _) = _
  by_cases hfaults : faultsIn m units symbols = []
  · rw [hfaults]
    rfl
  · rw [if_neg hfaults, if_pos (by simpa using hfaults)]
    rfl

theorem link_eq (hunits : codeUnits m = .ok units)
    (hsymbols : linkedSymbols m units = .ok symbols) :
  link m = if faultsIn m units symbols = [] then .ok (linkedImage m units symbols)
    else .error ((faultsIn m units symbols).map Fault.report)
  := by
  rw [link, hunits]
  simp only [linkUnits_eq, hsymbols, Except.mapError, Except.bind]
  by_cases hfaults : faultsIn m units symbols = [] <;> simp [hfaults]

theorem describesFile_headers {entry start textSize dataOffset dataSize : Nat} {rest : List UInt8} :
  DescribesFile (headers entry start textSize dataOffset dataSize ++ rest) entry
    (if dataSize = 0 then 1 else 2)
  := by
  rw [headers]
  split
  all_goals
    simp only [append_assoc]
    exact describesFile_fileHeader (by decide)

theorem describesText_headers {entry start textSize dataOffset dataSize : Nat} {rest : List UInt8} :
  DescribesSegment (headers entry start textSize dataOffset dataSize ++ rest) fileHeaderSize
    textFlags 0 textSize
  := by
  rw [headers]
  split
  all_goals
    simp only [append_assoc]
    exact describesSegment_segmentHeader (by decide)

theorem describesData_headers (entry start : Nat) {textSize dataOffset : Nat}
    (h : dataSize ≠ 0) {rest : List UInt8} :
  DescribesSegment (headers entry start textSize dataOffset dataSize ++ rest)
    (fileHeaderSize + segmentHeaderSize) dataFlags dataOffset dataSize
  := by
  rw [headers, if_neg h]
  simp only [append_assoc]
  rw [← append_assoc (fileHeader entry 2)]
  exact describesSegment_segmentHeader (by decide)

theorem exists_bytes_eq {image : Image} :
  ∃ more, image.bytes = image.text ++ more
  := by
  rw [bytes]
  split
  · exact ⟨[], (append_nil _).symm⟩
  · exact ⟨_, append_assoc _ _ _⟩

theorem headerSize_le_textStart (data : List UInt8) :
  headerSize (if data.isEmpty then 1 else 2) ≤ textStart data
  := le_alignUp (by decide)

theorem length_headers (entry textSize dataOffset : Nat) (data : List UInt8) :
  (headers entry (textStart data) textSize dataOffset data.length).length = textStart data
  := by
  have hle := headerSize_le_textStart data
  simp only [isEmpty_iff_length_eq_zero] at hle
  simp only [headers, length_append, length_replicate]
  split at hle <;>
    simp only [*, if_true, if_false, length_append, length_fileHeader,
      length_segmentHeader, headerSize] at hle ⊢ <;>
    omega

/-- The units of a compiled module, and what linking them gives. -/
structure Linked (m : Code.Module) (units : List CodeUnit) (image : Image) : Prop where
  compiled : m.Compiled
  gathered : codeUnits m = .ok units
  image_eq : image = linkedImage m units image.symbols
  addresses_eq : linkedSymbols m units = .ok image.symbols
  faultless : faultsIn m units image.symbols = []

/-- What linking gives is linked from some units. -/
theorem linked_of_link (hm : m.Compiled) (h : link m = .ok image) :
  ∃ units, Linked m units image
  := by
  cases hunits : codeUnits m with
  | error fault =>
    rw [link, hunits] at h
    cases h
  | ok units =>
    cases hsymbols : linkedSymbols m units with
    | error fault =>
      rw [link, hunits] at h
      simp only [linkUnits_eq, hsymbols] at h
      cases h
    | ok symbols =>
      rw [link_eq hunits hsymbols] at h
      split at h
      case isTrue hfaults =>
        cases h
        exact ⟨units, hm, hunits, rfl, hsymbols, hfaults⟩
      case isFalse => cases h

section

variable (h : Linked m units image)

include h

theorem Linked.regular (hp : p ∈ placedUnits m units) :
  p.1.Regular
  := (units_of_codeUnits h.compiled h.gathered).regular p.1 (mem_units_iff.mpr ⟨p, hp, rfl⟩)

theorem Linked.filled_resolve (hp : p ∈ placedUnits m units) :
  Filled image.symbols p.1.relocations (baseAddress + p.2) p.1.code
    (resolve image.symbols p.1 p.2).1.code
  := Image.filled_resolve (h.regular hp) (flatMap_eq_nil_iff.mp h.faultless p hp)

theorem Linked.data_eq :
  image.data = allData m units
  := congrArg data h.image_eq

theorem Linked.entry_eq :
  image.entry = (image.symbols.lookup startSymbol).getD 0
  := congrArg entry h.image_eq

/-- The headers, and the units behind them with their fields filled in. -/
theorem Linked.text_eq :
  image.text = headers image.entry (textStart (allData m units)) (textSize m units)
      (dataPage m units) (allData m units).length ++
    textFrom (textStart (allData m units)) ((placedUnits m units).map fun p =>
      ((resolve image.symbols p.1 p.2).1, p.2))
  := by
  rw [h.entry_eq]
  exact congrArg text h.image_eq

theorem Linked.dataOffset_eq :
  image.dataOffset = if (allData m units).isEmpty then image.text.length
    else dataPage m units
  := by
  have htext : image.text = linkedText m units image.symbols := congrArg text h.image_eq
  rw [htext]
  exact congrArg dataOffset h.image_eq

theorem Linked.fits :
  Fits (textStart (allData m units)) ((placedUnits m units).map fun p =>
    ((resolve image.symbols p.1 p.2).1, p.2))
  := (fits_placeUnits _ _).map fun _ hp => (h.filled_resolve hp).length

theorem Linked.length_text :
  image.text.length = textSize m units
  := by
  rw [h.text_eq, length_append, length_headers, h.fits.length_textFrom, textEnd_map]
  · rfl
  · exact fun p hp => (h.filled_resolve hp).length

/-- What the file has at the place of a unit. -/
theorem Linked.fieldAt_unit (hp : p ∈ placedUnits m units) :
  fieldAt image.bytes p.2 p.1.code.length = (resolve image.symbols p.1 p.2).1.code ∧
    p.2 + p.1.code.length ≤ image.text.length
  := by
  have hmem : ((resolve image.symbols p.1 p.2).1, p.2) ∈
      (placedUnits m units).map fun p =>
        ((resolve image.symbols p.1 p.2).1, p.2) := mem_map_of_mem hp
  obtain ⟨before, after, hcode, hbefore⟩ := h.fits.textFrom_split hmem
  obtain ⟨more, hbytes⟩ := exists_bytes_eq
  have hlength := (h.filled_resolve hp).length
  have hheaders := length_headers image.entry (textSize m units)
    (dataPage m units) (allData m units)
  have htext := h.text_eq
  rw [hcode] at htext
  generalize headers image.entry _ _ _ _ = front at htext hheaders
  have hstart : (front ++ before).length = p.2 := by
    rw [length_append]
    omega
  constructor
  · have hall : image.bytes = (front ++ before) ++ (resolve image.symbols p.1 p.2).1.code ++
        (after ++ more) := by
      rw [hbytes, htext]
      simp
    rw [hall, ← hlength, ← hstart]
    exact fieldAt_middle _ _ _
  · rw [htext]
    simp only [length_append] at hstart ⊢
    omega

/-- A symbol is the address of its unit or of its data. -/
theorem Linked.lookup_symbols (name : String) :
  image.symbols.lookup name = some address ↔
    (∃ p ∈ placedUnits m units, p.1.name = name ∧ baseAddress + p.2 = address) ∨
      ∃ d ∈ dataSymbols m units, d.1 = name ∧
        baseAddress + image.dataOffset + d.2 = address
  := by
  have hgood := units_of_codeUnits h.compiled h.gathered
  rw [lookup_addresses h.addresses_eq _ (nodup_dataSymbols h.compiled units) name address]
  · rw [h.dataOffset_eq]
    -- without data there are no symbols of data
    cases hempty : (allData m units).isEmpty with
    | false => rfl
    | true =>
      have hnone : ∀ d, d ∉ dataSymbols m units := fun d hd => by
        have hlt := lt_length_allData h.compiled hd
        rw [isEmpty_iff_length_eq_zero] at hempty
        omega
      simp [hnone]
  · rw [placedUnits, map_placeUnits]
    exact hgood.nodup

theorem Linked.lookup_start :
  image.symbols.lookup startSymbol = some image.entry
  := by
  have hstart := (units_of_codeUnits h.compiled h.gathered).start
  rw [← map_placeUnits (textStart (allData m units)) units, map_map, mem_map] at hstart
  obtain ⟨p, hp, hname⟩ := hstart
  have hlookup := (h.lookup_symbols startSymbol).mpr (.inl ⟨p, hp, hname, rfl⟩)
  rw [h.entry_eq, hlookup]
  rfl

/-- The size of the file. -/
theorem Linked.length_bytes :
  image.bytes.length =
    if image.data.isEmpty then image.text.length else image.dataOffset + image.data.length
  := by
  rw [bytes]
  split
  · rfl
  case isFalse hdata =>
    rw [length_append, length_append, length_replicate]
    have hoffset := h.dataOffset_eq
    rw [if_neg (by rwa [h.data_eq] at hdata), dataPage, ← h.length_text] at hoffset
    have hle : image.text.length ≤ alignUp pageSize image.text.length := le_alignUp (by decide)
    omega

theorem Linked.data_pages (hdata : image.data ≠ []) :
  image.dataOffset = alignUp pageSize image.text.length
  := by
  have hoffset := h.dataOffset_eq
  rw [h.data_eq] at hdata
  rwa [if_neg (by rwa [List.isEmpty_iff]), dataPage, ← h.length_text] at hoffset

theorem Linked.page_dvd (hdata : image.data ≠ []) :
  pageSize ∣ baseAddress + image.dataOffset
  := by
  rw [h.data_pages hdata]
  exact dvd_add (by decide) dvd_alignUp

theorem Linked.text_le_dataOffset :
  image.text.length ≤ image.dataOffset
  := by
  by_cases hdata : image.data = []
  · rw [h.dataOffset_eq, ← h.data_eq, hdata]
    exact le_refl _
  · rw [h.data_pages hdata]
    exact le_alignUp (by decide)

/-- The data is where the layout has it. -/
theorem Linked.fieldAt_data :
  fieldAt image.bytes image.dataOffset image.data.length = image.data
  := by
  by_cases hdata : image.data = []
  · rw [hdata]
    rfl
  · have hfill : (image.text ++
        replicate (image.dataOffset - image.text.length) 0).length = image.dataOffset := by
      rw [length_append, length_replicate]
      have hle := h.text_le_dataOffset
      omega
    have hmiddle := fieldAt_middle
      (image.text ++ replicate (image.dataOffset - image.text.length) 0) image.data []
    rw [hfill, append_nil] at hmiddle
    rwa [bytes, if_neg (by rwa [List.isEmpty_iff])]

theorem Linked.exists_headers :
  ∃ rest, image.bytes = headers image.entry (textStart (allData m units)) image.text.length
    (alignUp pageSize image.text.length) image.data.length ++ rest
  := by
  obtain ⟨more, hbytes⟩ := exists_bytes_eq
  rw [h.length_text, h.data_eq, hbytes, h.text_eq]
  exact ⟨_, append_assoc _ _ _⟩

/-- The parts of an image are where the layout has them. -/
theorem Linked.laidOut :
  LaidOut m image (placedUnits m units)
  := by
  have hunits : (placedUnits m units).map (·.1) = units := map_placeUnits _ _
  obtain ⟨rest, hheaders⟩ := h.exists_headers
  have hsegments : image.segments = if image.data.length = 0 then 1 else 2 := by
    rw [segments]
    simp
  refine {
    units := by rw [hunits]; exact h.gathered
    regular := fun p hp => h.regular hp
    aligned := fun p hp => dvd_of_mem_placeUnits hp
    after_headers := ?_
    apart := (fits_placeUnits _ _).pairwise
    within := fun p hp => (h.fieldAt_unit hp).2
    filled := ?_
    symbols := by rw [hunits]; exact fun name _ => h.lookup_symbols name
    in_text := ?_
    in_data := ?_
    data := by rw [hunits]; exact h.data_eq
    page := h.page_dvd
    after_text := h.text_le_dataOffset
    pages := ?_
    size := h.length_bytes
    text_bytes := ?_
    data_bytes := h.fieldAt_data
    entry := h.lookup_start
    file_header := ?_
    text_header := ?_
    data_header := ?_ }
  · intro p hp
    have hstart := (fits_placeUnits _ units).le_start hp
    have hle := headerSize_le_textStart (allData m units)
    rw [← h.data_eq] at hle
    exact hle.trans (h.data_eq ▸ hstart)
  · intro p hp
    rw [(h.fieldAt_unit hp).1]
    exact h.filled_resolve hp
  · intro p hp
    have hwithin := (h.fieldAt_unit hp).2
    have hpositive := (h.regular hp).nonempty
    omega
  · rw [hunits, h.data_eq]
    exact fun d hd => lt_length_allData h.compiled hd
  · intro i hi k hk
    have hpage := h.page_dvd (ne_nil_of_length_pos (by omega))
    have hle := h.text_le_dataOffset
    calc (baseAddress + i) / pageSize
        < (baseAddress + image.dataOffset) / pageSize := by
          rw [Nat.div_lt_iff_lt_mul (by decide), Nat.div_mul_cancel hpage]
          omega
      _ ≤ (baseAddress + image.dataOffset + k) / pageSize := by
          apply Nat.div_le_div_right
          omega
  · obtain ⟨more, hbytes⟩ := exists_bytes_eq
    rw [hbytes]
    exact fieldAt_middle [] image.text more
  · rw [hheaders, hsegments]
    apply describesFile_headers
  · rw [hheaders]
    apply describesText_headers
  · intro hdata
    rw [hheaders, h.data_pages hdata]
    apply describesData_headers
    rwa [Ne, length_eq_zero_iff]

end

/-- In the image of a compiled module every unit has a place of its own, every field leads to its
symbol, every symbol is in its segment, the segments have no page in common, and the headers
describe them. -/
theorem link_laidOut {ir : Ir.Module} {m : Code.Module} {image : Image}
    (hcompile : Code.compile ir = .ok m) (hlink : link m = .ok image) :
  ∃ placed, LaidOut m image placed
  := by
  obtain ⟨units, h⟩ := linked_of_link (Code.compiled_of_compile hcompile) hlink
  exact ⟨_, h.laidOut⟩

/-- Prints a text. -/
def greet : Ir.Function where
  name := "main"
  params := []
  result := .i64
  vars := []
  body := [.call none "__aim_print_str" [.str 0], .ret (some (.int 0))]
  span := .nowhere

@[inherit_doc greet]
def greetModule : Ir.Module where
  functions := [greet]
  globals := []
  strings := ["hello"]
  entry := "main"
  init := none

/-- The code of `greetModule`. -/
def greetCode : Code.Module where
  functions := [{
    name := "main"
    insts := [.label "main", .push .rbp, .mov .rbp .rsp, .lea .rdi (.rip "str.0"),
      .call "__aim_print_str", .movImm .rax 0, .label ".epilogue", .lea .rsp (.offset .rbp 0),
      .pop .rbp, .ret]
    code := [0x55, 0x48, 0x89, 0xe5, 0x48, 0x8d, 0x3d, 0, 0, 0, 0, 0xe8, 0, 0, 0, 0, 0x48, 0xc7,
      0xc0, 0, 0, 0, 0, 0x48, 0x8d, 0x65, 0, 0x5d, 0xc3]
    relocations := [⟨7, "str.0", -4⟩, ⟨12, "__aim_print_str", -4⟩] }]
  data := [5, 0, 0, 0, 0, 0, 0, 0, 0x68, 0x65, 0x6c, 0x6c, 0x6f, 0, 0, 0]
  symbols := [("str.0", 0)]
  entry := "main"
  init := none

/-- A function without variables keeps nothing in registers or slots. -/
theorem allocation_of_mentioned (h : Ir.mentioned f = []) :
  Allocation.ofFunction Allocation.registers f = ⟨[], [], 0⟩
  := by
  rw [Allocation.ofFunction, Ir.liveIntervals_eq, h]
  cbv

theorem compile_greetModule :
  compile greetModule = .ok greetCode
  := by
  decide +kernel

/-- The units of `greetCode`. -/
def greetUnits : List CodeUnit :=
  (codeUnits greetCode).toOption.getD []

/-- The addresses in the image of `greetCode`. -/
def greetSymbols : List (String × Nat) :=
  [("main", 0x4000b0), ("__aim_print_str", 0x4000d0), ("__aim_write", 0x400100),
    ("_start", 0x400130), ("str.0", 0x401000)]

theorem link_greetCode :
  link greetCode = .ok (linkedImage greetCode greetUnits greetSymbols)
  := by
  have hunits : codeUnits greetCode = .ok greetUnits := by decide +kernel
  have hsymbols : linkedSymbols greetCode greetUnits = .ok greetSymbols := by
    decide +kernel
  have hfaults : faultsIn greetCode greetUnits greetSymbols = [] := by decide +kernel
  rw [link_eq hunits hsymbols, if_pos hfaults]

theorem greet_laidOut :
  Code.compile greetModule = .ok greetCode ∧
    link greetCode = .ok (linkedImage greetCode greetUnits greetSymbols) ∧
    ∃ placed, LaidOut greetCode (linkedImage greetCode greetUnits greetSymbols) placed
  := ⟨compile_greetModule, link_greetCode, link_laidOut compile_greetModule link_greetCode⟩

end Image

end Endmark
