import Endmark.Image.Link
import Endmark.Proofs.Number.Bytes

/-!
# Units in the text of an image

Placed units start at multiples of sixteen, one behind the end of the other, and the text has
the code of each of them at its offset.  Filling in the fields of a unit changes its code in
these fields only: they do not overlap, so that each of them keeps the value put into it.
-/

namespace Endmark.Image

open Number
open List
open Machine (Relocation)
open Machine.Assembler (patch)
open Machine.Decoding (signed)

/-! ### Alignment -/

theorem dvd_alignUp :
  step ∣ alignUp step n
  := Dvd.intro_left _ rfl

theorem le_alignUp (hstep : 0 < step) :
  n ≤ alignUp step n
  := by
  have hdivide := Nat.div_add_mod (n + step - 1) step
  have hrest := Nat.mod_lt (n + step - 1) hstep
  rw [alignUp, mul_comm]
  omega

/-! ### Fields -/

/-- The bytes of a field at an offset. -/
def fieldAt (bytes : List UInt8) (offset size : Nat) : List UInt8 :=
  (bytes.drop offset).take size

variable {bytes : List UInt8}

theorem fieldAt_congr (h : ∀ k, offset ≤ k → k < offset + size → bytes[k]? = bytes'[k]?) :
  fieldAt bytes offset size = fieldAt bytes' offset size
  := by
  apply ext_getElem?
  intro k
  rw [fieldAt, fieldAt, getElem?_take, getElem?_take, getElem?_drop,
    getElem?_drop]
  split
  · apply h <;> omega
  · rfl

theorem fieldAt_middle (before field after : List UInt8) :
  fieldAt (before ++ field ++ after) before.length field.length = field
  := by
  rw [fieldAt, append_assoc, drop_left, take_left]

theorem length_patch {field : List UInt8} (h : offset + field.length ≤ bytes.length) :
  (patch bytes offset field).length = bytes.length
  := by
  simp only [patch, length_append, length_take, length_drop]
  omega

/-- Bytes beside the field stay. -/
theorem getElem?_patch {field : List UInt8} (h : offset + field.length ≤ bytes.length)
    (hk : k < offset ∨ offset + field.length ≤ k) :
  (patch bytes offset field)[k]? = bytes[k]?
  := by
  have htake : (bytes.take offset).length = offset := by
    rw [length_take]
    omega
  rw [patch, append_assoc]
  rcases hk with hk | hk
  · rw [getElem?_append_left (by omega), getElem?_take_of_lt hk]
  · rw [getElem?_append_right (by omega), getElem?_append_right (by omega),
      getElem?_drop]
    congr 1
    omega

theorem fieldAt_patch (h : offset ≤ bytes.length) (field : List UInt8) :
  fieldAt (patch bytes offset field) offset field.length = field
  := by
  have htake : (bytes.take offset).length = offset := by
    rw [length_take]
    omega
  have hmiddle := fieldAt_middle (bytes.take offset) field (bytes.drop (offset + field.length))
  rwa [htake] at hmiddle

/-! ### Filling in -/

/-- The fields of a unit are inside its code, one behind the other, their addends count from a
place in the code, and there is some code. -/
structure CodeUnit.Regular (u : CodeUnit) : Prop where
  ordered : u.relocations.Pairwise fun r s => r.offset + 4 ≤ s.offset
  inside : ∀ r ∈ u.relocations, r.offset + 4 ≤ u.code.length
  addend : ∀ r ∈ u.relocations, ∃ stop ≤ u.code.length, r.addend = (r.offset : Int) - stop
  nonempty : 0 < u.code.length

/-- The code differs from the other code only in the fields, each of which has the distance from
the field to its symbol, with the addend. -/
structure Filled (symbols : List (String × Nat)) (relocations : List Relocation) (address : Nat)
    (code filled : List UInt8) : Prop where
  length : filled.length = code.length
  outside : ∀ k, (∀ r ∈ relocations, k < r.offset ∨ r.offset + 4 ≤ k) → filled[k]? = code[k]?
  fields : ∀ r ∈ relocations, ∃ target, symbols.lookup r.symbol = some target ∧
    signed (fieldAt filled r.offset 4) = (target : Int) + r.addend - (address + r.offset : Nat)

/-- A field holds the distance to its symbol. -/
theorem fieldValue_eq_ok {symbols : List (String × Nat)}
     (h : fieldValue symbols unit address r = .ok value) :
  ∃ target, symbols.lookup r.symbol = some target ∧
    value = (target : Int) + r.addend - (address + r.offset : Nat) ∧
    fitsSigned 32 value
  := by
  rw [fieldValue] at h
  split at h
  case h_1 => cases h
  case h_2 target htarget =>
    simp only at h
    split at h
    case isTrue hfits =>
      cases h
      exact ⟨target, htarget, rfl, hfits⟩
    case isFalse => cases h

/-- One step of filling in. -/
def fillStep (symbols : List (String × Nat)) (offset : Nat) (state : CodeUnit × List Fault)
    (r : Relocation) : CodeUnit × List Fault :=
  match fieldValue symbols state.1.name (baseAddress + offset) r with
  | .ok value =>
    ({ state.1 with code := patch state.1.code r.offset (Number.littleEndianInt 4 value) }, state.2)
  | .error fault => (state.1, state.2 ++ [fault])

theorem resolve_eq {symbols : List (String × Nat)} :
  resolve symbols u offset = u.relocations.foldl (fillStep symbols offset) (u, [])
  := rfl

section

variable {symbols : List (String × Nat)}

/-- The faults are those of the fields. -/
theorem mem_faults_foldl {relocations : List Relocation} :
  fault ∈ (relocations.foldl (fillStep symbols offset) state).2 ↔ fault ∈ state.2 ∨
    ∃ r ∈ relocations, fieldValue symbols state.1.name (baseAddress + offset) r = .error fault
  := by
  induction relocations generalizing state with
  | nil => simp
  | cons r rest ih =>
    rw [foldl_cons, ih, fillStep]
    cases hvalue : fieldValue symbols state.1.name (baseAddress + offset) r with
    | ok value => simp [hvalue]
    | error other => simp [hvalue, or_assoc, eq_comm]

theorem mem_faults_resolve :
  fault ∈ (resolve symbols u offset).2 ↔
    ∃ r ∈ u.relocations, fieldValue symbols u.name (baseAddress + offset) r = .error fault
  := by
  simp [resolve_eq, mem_faults_foldl]

/-- Without faults, the fields are filled in.  The induction goes over the fields in their order:
those that come later leave the first one as it is. -/
theorem filled_foldl (hordered : relocations.Pairwise fun r s => r.offset + 4 ≤ s.offset)
    (hinside : ∀ r ∈ relocations, r.offset + 4 ≤ u.code.length)
    (h : (relocations.foldl (fillStep symbols offset) (u, [])).2 = []) :
  Filled symbols relocations (baseAddress + offset) u.code
    (relocations.foldl (fillStep symbols offset) (u, [])).1.code
  := by
  induction relocations generalizing u with
  | nil => exact ⟨rfl, fun _ _ => rfl, fun _ hr => nomatch hr⟩
  | cons r rest ih =>
    rw [pairwise_cons] at hordered
    rw [forall_mem_cons] at hinside
    rw [foldl_cons] at h ⊢
    cases hvalue : fieldValue symbols u.name (baseAddress + offset) r with
    | error fault =>
      have hmem : fault ∈ (rest.foldl (fillStep symbols offset)
          (fillStep symbols offset (u, []) r)).2 :=
        mem_faults_foldl.mpr (.inl (by simp [fillStep, hvalue]))
      rw [h] at hmem
      cases hmem
    | ok value =>
      have hstep : fillStep symbols offset (u, []) r =
          ({ u with code := patch u.code r.offset (littleEndianInt 4 value) }, []) := by
        simp [fillStep, hvalue]
      have hroom : r.offset + (littleEndianInt 4 value).length ≤ u.code.length := by
        exact hinside.1
      rw [hstep] at h ⊢
      have hrest := ih hordered.2 (by rw [length_patch hroom]; exact hinside.2) h
      obtain ⟨target, htarget, rfl, hfits⟩ := fieldValue_eq_ok hvalue
      refine ⟨hrest.length.trans (length_patch hroom), fun k hk => ?_, ?_⟩
      · rw [forall_mem_cons] at hk
        rw [hrest.outside k hk.2, getElem?_patch hroom]
        exact hk.1
      · rw [forall_mem_cons]
        refine ⟨⟨target, htarget, ?_⟩, hrest.fields⟩
        have hstart : r.offset ≤ u.code.length := by omega
        have hfirst := fieldAt_patch hstart (littleEndianInt 4
          ((target : Int) + r.addend - (baseAddress + offset + r.offset : Nat)))
        rw [length_littleEndianInt] at hfirst
        rw [fieldAt_congr, hfirst, signed_littleEndianInt (by decide) hfits]
        intro k _ hk
        apply hrest.outside
        intro s hs
        left
        exact lt_of_lt_of_le hk (hordered.1 s hs)

theorem filled_resolve (hu : u.Regular) (h : (resolve symbols u offset).2 = []) :
  Filled symbols u.relocations (baseAddress + offset) u.code (resolve symbols u offset).1.code
  := filled_foldl hu.ordered hu.inside h

end

/-! ### Placing -/

/-- Each of the units starts behind the end of the one before it, and the first one not before the
offset. -/
def Fits : Nat → List (CodeUnit × Nat) → Prop
  | _, [] => True
  | offset, (u, start) :: rest => offset ≤ start ∧ Fits (start + u.code.length) rest

theorem fits_placeUnits (offset : Nat) (units : List CodeUnit) :
  Fits offset (placeUnits offset units)
  := by
  induction units generalizing offset with
  | nil => trivial
  | cons u rest ih => exact ⟨le_alignUp (by decide), ih _⟩

@[simp]
theorem map_placeUnits (offset : Nat) (units : List CodeUnit) :
  (placeUnits offset units).map (·.1) = units
  := by
  induction units generalizing offset with
  | nil => rfl
  | cons u rest ih => rw [placeUnits, map_cons, ih]

theorem dvd_of_mem_placeUnits (h : p ∈ placeUnits offset units) :
  textAlign ∣ p.2
  := by
  induction units generalizing offset with
  | nil => cases h
  | cons u rest ih =>
    rw [placeUnits, mem_cons] at h
    rcases h with rfl | h
    · apply dvd_alignUp
    · exact ih h

/-- Code of the same length fits in the same places. -/
theorem Fits.map (h : Fits offset placed) {f : CodeUnit × Nat → CodeUnit}
    (hf : ∀ p ∈ placed, (f p).code.length = p.1.code.length) :
  Fits offset (placed.map fun p => (f p, p.2))
  := by
  induction placed generalizing offset with
  | nil => trivial
  | cons p rest ih =>
    rw [forall_mem_cons] at hf
    refine ⟨h.1, ?_⟩
    rw [hf.1]
    exact ih h.2 hf.2

theorem Fits.le_start (h : Fits offset placed) (hp : p ∈ placed) :
  offset ≤ p.2
  := by
  induction placed generalizing offset with
  | nil => cases hp
  | cons q rest ih =>
    rcases mem_cons.mp hp with rfl | hp
    · exact h.1
    · have hlater := ih h.2 hp
      have hfirst := h.1
      omega

theorem Fits.pairwise (h : Fits offset placed) :
  placed.Pairwise fun p q => p.2 + p.1.code.length ≤ q.2
  := by
  induction placed generalizing offset with
  | nil => exact .nil
  | cons p rest ih => exact .cons (fun q hq => h.2.le_start hq) (ih h.2)

theorem textEnd_cons {rest : List (CodeUnit × Nat)} :
  textEnd start ((u, offset) :: rest) = textEnd (offset + u.code.length) rest
  := by
  cases rest with
  | nil => rfl
  | cons p rest => rw [textEnd, textEnd, getLast?_cons_cons, getLast?_cons]

/-- Only the lengths of the units matter for where the text ends. -/
theorem textEnd_map (start : Nat) {f : CodeUnit × Nat → CodeUnit}
    (hf : ∀ p ∈ placed, (f p).code.length = p.1.code.length) :
  textEnd start (placed.map fun p => (f p, p.2)) = textEnd start placed
  := by
  induction placed generalizing start with
  | nil => rfl
  | cons p rest ih =>
    rw [forall_mem_cons] at hf
    rw [map_cons, textEnd_cons, textEnd_cons, hf.1]
    exact ih _ hf.2

theorem Fits.length_textFrom (h : Fits offset placed) :
  offset + (textFrom offset placed).length = textEnd offset placed
  := by
  induction placed generalizing offset with
  | nil => rfl
  | cons p rest ih =>
    have hlength := ih h.2
    have hstart := h.1
    rw [textFrom, textEnd_cons, length_append, length_append,
      length_replicate]
    omega

/-- Where the code of a unit is in the text. -/
theorem Fits.textFrom_split (h : Fits offset placed) (hp : p ∈ placed) :
  ∃ before after, textFrom offset placed = before ++ p.1.code ++ after ∧
    offset + before.length = p.2
  := by
  induction placed generalizing offset with
  | nil => cases hp
  | cons q rest ih =>
    have hfirst := h.1
    rcases mem_cons.mp hp with rfl | hp
    · refine ⟨_, _, rfl, ?_⟩
      rw [length_replicate]
      omega
    · obtain ⟨before, after, htext, hbefore⟩ := ih h.2 hp
      refine ⟨replicate (q.2 - offset) 0xCC ++ q.1.code ++ before, after, ?_, ?_⟩
      · rw [textFrom, htext]
        simp
      · rw [length_append, length_append, length_replicate]
        omega

end Endmark.Image
