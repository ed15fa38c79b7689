import Endmark.Code.Function
import Endmark.Proofs.Code.Allocation
import Endmark.Proofs.Machine.Memory
import Endmark.Proofs.Machine.Run

/-!
# Frames

The words below the return address are numbered downwards: the first one is the frame pointer
of the caller, then come the saved registers and then the slots.  What the code of a function
does to a register or slot leaves all that belongs to the caller as it is.
-/

namespace Endmark.Code

open UInt64
open Machine (Reg Inst Mem State Memory straight?)
open Ir (Operand)
open Machine.Memory (Writable Lawful loadWord? load? Stored)

/-! ### Displacements -/

theorem toUInt64_ofInt_neg {m : Nat} (h : m < 2 ^ 31) :
  (Int32.ofInt (-(m : Int))).toInt64.toUInt64 = 0 - ofNat m
  := by
  have hwide : (Int32.ofInt (-(m : Int))).toInt64 = .ofInt (-(m : Int)) := by
    rw [← Int64.toInt_inj, Int32.toInt_toInt64, Int32.toInt_ofInt, Int64.toInt_ofInt,
      Int.bmod_eq_of_le, Int.bmod_eq_of_le]
    all_goals simp
    all_goals omega
  rw [hwide, Int64.ofInt_neg]
  exact UInt64.eq_of_toBitVec_eq rfl

theorem toUInt64_ofNat (h : m < 2 ^ 31) :
  (Int32.ofNat m).toInt64.toUInt64 = ofNat m
  := by
  have hwide : (Int32.ofNat m).toInt64 = .ofNat m := by
    rw [← Int64.toInt_inj, Int32.toInt_toInt64, Int32.toInt_ofNat_of_lt h,
      Int64.toInt_ofNat_of_lt (h.trans (by decide))]
  rw [hwide]
  rfl

/-! ### Words of the stack -/

/-- The address of the word with a given number below `top`. -/
def cell (top : UInt64) (j : Nat) : UInt64 :=
  top - UInt64.ofNat (8 * j)

theorem cell_sub (top : UInt64) (i : Nat) :
  cell top i - ofNat (8 * j) = cell top (i + j)
  := by
  rw [cell, cell, mul_add, ofNat_add, sub_sub]

theorem cell_succ_add :
  cell top (j + 1) + 8 = cell top j
  := by
  rw [← cell_sub]
  apply sub_add_cancel

theorem toNat_cell (h : 8 * j ≤ top.toNat) :
  (cell top j).toNat = top.toNat - 8 * j
  := by
  have := top.toNat_lt
  have hj : (ofNat (8 * j)).toNat = 8 * j := toNat_ofNat_of_lt' (h.trans_lt top.toNat_lt)
  rw [cell, UInt64.toNat_sub]
  omega

theorem toNat_cell_add (hi : i < 8) (hj : 1 ≤ j) (h : 8 * j ≤ top.toNat) :
  (cell top j + ofNat i).toNat = top.toNat - 8 * j + i
  := by
  have := top.toNat_lt
  rw [UInt64.toNat_add, toNat_cell h, toNat_ofNat_of_lt' (hi.trans (by decide))]
  omega

theorem loadWord?_cell_of_stored [Memory μ] [Lawful μ] {m' : μ} (hi : 8 * i ≤ top.toNat)
    (hj : 8 * j ≤ top.toNat) (hne : i ≠ j) (h : Stored m (cell top i) v m') :
  loadWord? m' (cell top j) = loadWord? m (cell top j)
  := by
  have := top.toNat_lt
  apply h.loadWord?
  all_goals
    rw [UInt64.toNat_sub, toNat_cell hi, toNat_cell hj]
    omega

/-! ### The caller's part -/

/-- Memory from a store. -/
theorem exists_store [Memory μ] [Lawful μ] (s : State μ) (hj : 1 ≤ j) (htop : 8 * j ≤ top.toNat)
    (h : ∀ a : UInt64, top.toNat ≤ a.toNat + 8 * j → a.toNat < top.toNat → Writable s.memory a) :
    ∃ m', s.store (cell top j) v = .ok { s with memory := m' } ∧
    Stored s.memory (cell top j) v m'
  := by
  have hbytes : ∀ i < 8, Writable s.memory (cell top j + ofNat i) := by
    intro i hi
    have := toNat_cell_add hi hj htop
    apply h <;> omega
  obtain ⟨m', hstore, hm'⟩ := Memory.exists_storeWord? hbytes v
  refine ⟨m', ?_, hm'⟩
  simp [State.store, hstore]

namespace Frame

/-- The number of words of a frame below the return address. -/
def size (f : Frame) : Nat :=
  1 + f.allocation.saved.length + f.slotBytes / 8

theorem slotBytes_eq {f : Frame} :
  f.slotBytes = 8 * (f.slotBytes / 8)
  := by
  rw [slotBytes]
  omega

/-- The number of the word of a slot. -/
def slotCell (f : Frame) (k : Nat) : Nat :=
  f.allocation.saved.length + 2 + k

theorem slotCell_le_size {f : Frame} (hk : k < f.allocation.slots) :
  f.slotCell k ≤ f.size
  := by
  rw [slotCell, size, slotBytes]
  omega

/-- There is room on the stack for the frame. -/
structure Room {μ : Type} [Memory μ] (f : Frame) (s : State μ) : Prop where
  below : 8 * f.size ≤ (s.get .rsp).toNat
  small : 8 * f.size < 2 ^ 31
  writable : ∀ a : UInt64, (s.get .rsp).toNat ≤ a.toNat + 8 * f.size →
    a.toNat < (s.get .rsp).toNat → Writable s.memory a

/-- The register may be changed by the code of the function. -/
def Free (f : Frame) (r : Reg) : Prop :=
  r ≠ .rsp ∧ r ≠ .rbp ∧ (r ∈ Allocation.registers → r ∈ f.allocation.saved)

/-- Between the prologue and the epilogue of a function that has been called in the state `s₀`,
all that belongs to the caller can be restored. -/
structure Inside {μ : Type} [Memory μ] (f : Frame) (s₀ s : State μ) : Prop where
  rsp : s.get .rsp = cell (s₀.get .rsp) f.size
  rbp : s.get .rbp = cell (s₀.get .rsp) 1
  caller : loadWord? s.memory (cell (s₀.get .rsp) 1) = some (s₀.get .rbp)
  saved : ∀ k r, f.allocation.saved[k]? = some r →
    loadWord? s.memory (cell (s₀.get .rsp) (k + 2)) = some (s₀.get r)
  others : ∀ r ∈ Allocation.registers, r ∉ f.allocation.saved → s.get r = s₀.get r
  writable : ∀ a : UInt64, (s₀.get .rsp).toNat ≤ a.toNat + 8 * f.size →
    a.toNat < (s₀.get .rsp).toNat → Writable s.memory a
  outside : ∀ a : UInt64, a.toNat + 8 * f.size < (s₀.get .rsp).toNat ∨
    (s₀.get .rsp).toNat ≤ a.toNat → load? s.memory a = load? s₀.memory a

/-- The value is in the place. -/
def Holds {μ : Type} [Memory μ] (f : Frame) (top : UInt64) (s : State μ) (v : UInt64) :
    Location → Prop
  | .reg r => s.get r = v
  | .slot k => loadWord? s.memory (cell top (f.slotCell k)) = some v

theorem ne_of_mem_registers :
  ∀ r ∈ Allocation.registers, r ≠ .rsp ∧ r ≠ .rbp
  := by
  decide

/-- Registers and slots are handed out as the live intervals of the function need them. -/
abbrev Served (f : Frame) : Prop :=
  f.allocation.Serves Allocation.registers (Ir.liveIntervals f.function)

variable [Memory μ] {f : Frame} {s : State μ}

/-- Only registers of the list may differ, and flags. -/
structure Leaves (rs : List Reg) (s s' : State μ) : Prop where
  get : ∀ r ∉ rs, s'.get r = s.get r
  xmms : s'.xmms = s.xmms
  memory : s'.memory = s.memory

/-- Only the registers for intermediate results may differ, and flags. -/
abbrev Scratch : State μ → State μ → Prop :=
  Leaves [.rax, .rcx]

variable {s' : State μ}

section

omit [Memory μ]

theorem Leaves.trans (h : Leaves rs s s') (h' : Leaves rs s' s'') :
  Leaves rs s s''
  := ⟨fun r hr => (h'.get r hr).trans (h.get r hr), h'.xmms.trans h.xmms, h'.memory.trans h.memory⟩

theorem Leaves.mono (h : Leaves rs s s') (hrs : rs ⊆ rs') :
  Leaves rs' s s'
  := ⟨fun r hr => h.get r fun hmem => hr (hrs hmem), h.xmms, h.memory⟩

theorem leaves_set (hr : r ∈ rs) :
  Leaves rs s (s.set r v)
  := ⟨fun _ hr' => s.get_set_of_ne (ne_of_mem_of_not_mem hr hr').symm, rfl, rfl⟩

end

/-- Changing free registers leaves what belongs to the caller. -/
theorem Inside.leaves (h : f.Inside s₀ s) (hs' : Leaves rs s s') (hrs : ∀ r ∈ rs, f.Free r) :
  f.Inside s₀ s'
  := by
  obtain ⟨hrsp, hrbp, hcaller, hsaved, hothers, hwritable, houtside⟩ := h
  rw [← hs'.memory] at hcaller hsaved hwritable houtside
  exact {
    rsp := (hs'.get _ fun hmem => (hrs _ hmem).1 rfl).trans hrsp
    rbp := (hs'.get _ fun hmem => (hrs _ hmem).2.1 rfl).trans hrbp
    caller := hcaller
    saved := hsaved
    others := by
      intro r hr hnot
      rw [hs'.get r fun hmem => hnot ((hrs r hmem).2.2 hr), hothers r hr hnot]
    writable := hwritable
    outside := houtside
  }

theorem Inside.scratch (h : f.Inside s₀ s) (hs' : Scratch s s') :
  f.Inside s₀ s'
  := by
  have hfree : ∀ r ∈ [.rax, .rcx], r ≠ .rsp ∧ r ≠ .rbp ∧ r ∉ Allocation.registers := by decide
  refine h.leaves hs' fun r hr => ?_
  obtain ⟨hrsp, hrbp, hnot⟩ := hfree r hr
  exact ⟨hrsp, hrbp, fun hmem => absurd hmem hnot⟩

/-- Writing a slot leaves what belongs to the caller. -/
theorem Inside.store [Lawful μ] (h : f.Inside s₀ s) (hroom : f.Room s₀)
    (hk : k < f.allocation.slots) (hm : Stored s.memory (cell (s₀.get .rsp) (f.slotCell k)) v m) :
  f.Inside s₀ { s with memory := m }
  := by
  have hcell := slotCell_le_size hk
  have hbelow := hroom.below
  have hkeep {j : Nat} (hj : j ≤ f.allocation.saved.length + 1) :
      loadWord? m (cell (s₀.get .rsp) j) = loadWord? s.memory (cell (s₀.get .rsp) j) := by
    apply loadWord?_cell_of_stored _ _ _ hm
    all_goals rw [slotCell] at *
    all_goals omega
  exact {
    rsp := h.rsp
    rbp := h.rbp
    caller := (hkeep (by omega)).trans h.caller
    saved := by
      intro k r hr
      have hlt := (getElem?_eq_some_iff.mp hr).1
      exact (hkeep (by omega)).trans (h.saved k r hr)
    others := h.others
    writable := fun a hlow hhigh => hm.writable a (h.writable a hlow hhigh)
    outside := by
      intro a ha
      rw [hm.same, h.outside a ha]
      have := (s₀.get .rsp).toNat_lt
      have := a.toNat_lt
      rw [UInt64.toNat_sub, toNat_cell (by omega)]
      rw [slotCell] at *
      omega
  }

omit [Memory μ] in
/-- Where a slot is, by the base pointer. -/
theorem address_slot_of_rbp (hrbp : s.get .rbp = cell top 1)
    (hsmall : 8 * f.size < 2 ^ 31) (hk : k < f.allocation.slots) :
  s.address place (f.slot k) = cell top (f.slotCell k)
  := by
  have hcell := slotCell_le_size hk
  have hdisp : (-8 * (f.allocation.saved.length + 1 + k : Int)) =
      -((8 * (f.allocation.saved.length + 1 + k) : Nat) : Int) := by
    omega
  have hadd : 1 + (f.allocation.saved.length + 1 + k) = f.slotCell k := by
    rw [slotCell]
    omega
  rw [slot, Mem.offset, State.address, hrbp, hdisp, toUInt64_ofInt_neg (by omega), ← hadd,
    ← cell_sub]
  simp [sub_eq_add_neg]

theorem address_slot {place : String → UInt64} (h : f.Inside s₀ s) (hroom : f.Room s₀)
    (hk : k < f.allocation.slots) :
  s.address place (f.slot k) = cell (s₀.get .rsp) (f.slotCell k)
  := address_slot_of_rbp h.rbp hroom.small hk

/-! ### Values of variables -/

/-- The word that an operand stands for, where a variable without a place counts as zero. -/
def Reads (place : String → UInt64) (f : Frame) (s : State μ) (v : UInt64) : Operand → Prop
  | .var x =>
    match f.allocation.location? x with
    | some (.reg r) => s.get r = v
    | some (.slot k) => loadWord? s.memory (s.address place (f.slot k)) = some v
    | none => v = 0
  | .global x => loadWord? s.memory (place (globalSymbol x)) = some v
  | .int value => value.toUInt64 = v
  | .float value => value.bits = v
  | .bool value => (if value then 1 else 0 : UInt64) = v
  | .str index => place (stringSymbol index) = v

/-- Loading brings the value of the operand and changes that register only. -/
theorem exists_load (h : f.Reads place s v o) (r : Reg) :
  ∃ s', straight? place (f.load r o) s = some s' ∧ s'.get r = v ∧ Leaves [r] s s'
  := by
  have hset (v : UInt64) : (s.set r v).get r = v ∧ Leaves [r] s (s.set r v) :=
    ⟨by simp, leaves_set (.head _)⟩
  have hload {a : UInt64} (ha : loadWord? s.memory a = some v) : s.load a = .ok v := by
    rw [State.load, ha]
  cases o with
  | var x =>
    rw [Reads] at h
    rw [load]
    cases hloc : f.allocation.location? x with
    | none =>
      rw [hloc] at h
      cases h
      refine ⟨(s.set r 0).setFlags (.ofBits 0), ?_, (hset 0).1, (hset 0).2.get, rfl, rfl⟩
      simp only [straight?, Inst.exec, Machine.AluOp.apply, UInt64.xor_self]
      rfl
    | some loc =>
      rw [hloc] at h
      cases loc with
      | reg src =>
        cases h
        simp only
        split
        case isTrue heq =>
          subst heq
          exact ⟨s, rfl, rfl, fun _ _ => rfl, rfl, rfl⟩
        case isFalse => exact ⟨_, rfl, hset _⟩
      | slot k =>
        refine ⟨s.set r v, ?_, hset v⟩
        simp only [straight?, Inst.exec, hload h]
        rfl
  | global x =>
    refine ⟨s.set r v, ?_, hset v⟩
    simp only [load, straight?, Inst.exec, State.address, hload h]
    rfl
  | bool value =>
    cases h
    cases value <;> exact ⟨_, rfl, hset _⟩
  | int | float | str =>
    cases h
    exact ⟨_, rfl, hset _⟩

/-- An operand keeps its value with the registers and words that it may be in. -/
theorem Reads.keep (hserves : f.Served) (h : f.Reads place s v o)
    (hregs : ∀ r ∈ .rbp :: Allocation.registers, s'.get r = s.get r)
    (hslots : ∀ k < f.allocation.slots, loadWord? s'.memory (s.address place (f.slot k)) =
      loadWord? s.memory (s.address place (f.slot k)))
    (hglobal : ∀ name, o = .global name → loadWord? s'.memory (place (globalSymbol name)) =
      loadWord? s.memory (place (globalSymbol name))) :
  f.Reads place s' v o
  := by
  have haddress (k : Nat) : s'.address place (f.slot k) = s.address place (f.slot k) := by
    simp [slot, Mem.offset, State.address, hregs .rbp (.head _)]
  cases o with
  | var x =>
    rw [Reads] at h ⊢
    cases hloc : f.allocation.location? x with
    | none =>
      rw [hloc] at h
      exact h
    | some loc =>
      rw [hloc] at h
      cases loc with
      | reg r => exact (hregs r (.tail _ (hserves.registers x r hloc))).trans h
      | slot k =>
        simp only at h ⊢
        rw [haddress, hslots k ((hserves.slots k).mp ⟨x, hloc⟩), h]
  | global name => exact (hglobal name rfl).trans h
  | _ => exact h

section

variable (hserves : f.Served)

include hserves

/-- Registers for intermediate results do not matter to what places hold. -/
theorem Holds.scratch (hloc : f.allocation.location? x = some loc) (h : f.Holds top s v loc)
    (hs' : Scratch s s') :
  f.Holds top s' v loc
  := by
  have hplaces : ∀ r ∈ Allocation.registers, r ∉ [.rax, .rcx] := by decide
  cases loc with
  | reg d => exact (hs'.get d (hplaces d (hserves.registers x d hloc))).trans h
  | slot k =>
    rw [Holds, hs'.memory]
    exact h

/-- What storing a register in the place of a variable does. -/
structure Kept (f : Frame) (s₀ s : State μ) (x : String) (v : UInt64) (s' : State μ) : Prop where
  inside : f.Inside s₀ s'
  /-- The value is in the place of the variable. -/
  holds : ∀ loc, f.allocation.location? x = some loc → f.Holds (s₀.get .rsp) s' v loc
  /-- What is in other places stays there. -/
  others : ∀ y loc w, f.allocation.location? y = some loc →
    f.allocation.location? x ≠ some loc → f.Holds (s₀.get .rsp) s w loc →
    f.Holds (s₀.get .rsp) s' w loc
  /-- Registers that are no places stay as they are. -/
  registers : ∀ r ∉ Allocation.registers, s'.get r = s.get r

theorem free_of_location (h : f.allocation.location? x = some (.reg r)) :
  f.Free r
  := by
  obtain ⟨hrsp, hrbp⟩ := ne_of_mem_registers r (hserves.registers x r h)
  exact ⟨hrsp, hrbp, fun _ => (hserves.saved r).mpr ⟨x, h⟩⟩

/-- The register of a variable has got a value. -/
theorem Kept.leaves (h : f.Inside s₀ s)
    (hloc : f.allocation.location? x = some (.reg d)) (hv : s'.get d = v)
    (hs' : Leaves [d] s s') :
  f.Kept s₀ s x v s'
  := by
  exact {
    inside := h.leaves hs' fun r hr => by
      cases List.mem_singleton.mp hr
      exact free_of_location hserves hloc
    holds := by
      intro loc hloc'
      cases hloc.symm.trans hloc'
      exact hv
    others := by
      intro y loc w hy hne hholds
      cases loc with
      | reg r =>
        refine (hs'.get r fun hmem => ?_).trans hholds
        cases List.mem_singleton.mp hmem
        exact hne hloc
      | slot k =>
        rw [Holds, hs'.memory]
        exact hholds
    registers := by
      refine fun r hr => hs'.get r fun hmem => ?_
      cases List.mem_singleton.mp hmem
      exact hr (hserves.registers x _ hloc)
  }

theorem Kept.set (h : f.Inside s₀ s) (hloc : f.allocation.location? x = some (.reg d))
    (v : UInt64) :
  f.Kept s₀ s x v (s.set d v)
  := leaves hserves h hloc (s.get_set_self d) (leaves_set (.head _))

/-- Writing the slot of a variable keeps the others. -/
theorem Kept.store [Lawful μ] (h : f.Inside s₀ s) (hroom : f.Room s₀)
    (hloc : f.allocation.location? x = some (.slot k))
    (hm : Stored s.memory (cell (s₀.get .rsp) (f.slotCell k)) v m) :
  f.Kept s₀ s x v { s with memory := m }
  := by
  have hbelow := hroom.below
  have hslot {y : String} {j : Nat} (hy : f.allocation.location? y = some (.slot j)) :
      8 * f.slotCell j ≤ (s₀.get .rsp).toNat := by
    have := slotCell_le_size ((hserves.slots j).mp ⟨y, hy⟩)
    omega
  exact {
    inside := h.store hroom ((hserves.slots k).mp ⟨x, hloc⟩) hm
    holds := by
      intro loc hloc'
      cases hloc.symm.trans hloc'
      exact hm.load
    others := by
      intro y loc w hy hne hholds
      cases loc with
      | reg r => exact hholds
      | slot j =>
        rw [Holds, loadWord?_cell_of_stored (hslot hloc) (hslot hy) _ hm]
        · exact hholds
        · rw [slotCell, slotCell]
          rintro heq
          apply hne
          rw [hloc]
          congr 2
          omega
    registers := fun _ _ => rfl
  }

/-- A register can be stored to the slot of a variable. -/
theorem exists_kept_slot [Lawful μ] (h : f.Inside s₀ s) (hroom : f.Room s₀)
    (hloc : f.allocation.location? x = some (.slot k)) :
  ∃ s', straight? place [.store (f.slot k) r] s = some s' ∧ f.Kept s₀ s x (s.get r) s'
  := by
  have hk := (hserves.slots k).mp ⟨x, hloc⟩
  have hcell := slotCell_le_size hk
  have hpos : 1 ≤ f.slotCell k := by
    rw [slotCell]
    omega
  have hbelow := hroom.below
  obtain ⟨m, hstore, hm⟩ := exists_store s hpos (by omega)
    (fun a hlow hhigh => h.writable a (by omega) hhigh)
  refine ⟨_, ?_, .store hserves h hroom hloc hm⟩
  simp only [straight?, Inst.exec, address_slot h hroom hk, hstore]
  rfl

/-- A register is stored in the place of a variable. -/
theorem exists_kept [Lawful μ] (h : f.Inside s₀ s) (hroom : f.Room s₀) :
  ∃ s', straight? place (f.store (.var x) r) s = some s' ∧ f.Kept s₀ s x (s.get r) s'
  := by
  rw [store]
  cases hloc : f.allocation.location? x with
  | none =>
    refine ⟨s, rfl, h, ?_, fun _ _ _ _ _ hholds => hholds, fun _ _ => rfl⟩
    intro loc hloc'
    cases hloc.symm.trans hloc'
  | some loc =>
    cases loc with
    | reg d =>
      refine ⟨s.set d (s.get r), ?_, .set hserves h hloc _⟩
      simp only
      split
      case isTrue heq =>
        subst heq
        rw [State.set_get]
        rfl
      case isFalse => rfl
    | slot k => exact exists_kept_slot hserves h hroom hloc

end

end Frame

end Endmark.Code
