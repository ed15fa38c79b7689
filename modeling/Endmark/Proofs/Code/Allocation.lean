import Endmark.Code.Allocation
import Endmark.Proofs.Ir.Liveness

/-!
# Allocation keeps variables apart

At each moment of the scan a register is free, or held by a variable whose interval has not
ended yet, and not both.  A variable that has lost its register or that never had one is in a
slot of its own.  Hence variables that are needed at the same position are never in the same
place.
-/

namespace Endmark.Code.Allocation

open List
open Machine (Reg)
open Ir (Interval)

/-! ### Locations -/

/-- Only the location of the one variable changes. -/
theorem lookup_put :
  (put y loc entries).lookup x = if x = y then some loc else entries.lookup x
  := by
  induction entries with
  | nil => rw [put, lookup_cons_ite]
  | cons entry rest ih =>
    rw [put]
    split
    · rename_i h
      cases h
      rw [lookup_cons_ite, lookup_cons_ite]
      split <;> rfl
    · grind

theorem keys_put :
  (put y loc entries).map (·.1) =
    if y ∈ entries.map (·.1) then entries.map (·.1) else entries.map (·.1) ++ [y]
  := by
  induction entries with
  | nil => rfl
  | cons entry rest ih =>
    rw [put]
    grind

namespace Scan

variable {s : Scan}

theorem lookup_spill :
  (s.spill y).locations.lookup x =
    if x = y then some (.slot s.slots) else s.locations.lookup x
  := lookup_put

theorem lookup_hold :
  (s.hold i r).locations.lookup x = if x = i.var then some (.reg r) else s.locations.lookup x
  := lookup_put

/-- The variables in registers are those that were, but for the one that goes to a slot. -/
theorem lookup_spill_reg :
  (s.spill y).locations.lookup x = some (.reg r) ↔
    x ≠ y ∧ s.locations.lookup x = some (.reg r)
  := by
  rw [lookup_spill]
  split <;> simp [*]

/-- The variable in the next slot is the one that goes there. -/
theorem lookup_spill_slot (hy : ∀ k, s.locations.lookup y ≠ some (.slot k)) :
  (s.spill y).locations.lookup x = some (.slot k) ↔
    x = y ∧ k = s.slots ∨ s.locations.lookup x = some (.slot k)
  := by
  rw [lookup_spill]
  split
  · rename_i h
    subst h
    simp [hy, eq_comm]
  · simp [*]

/-- The variables in slots are those that were, if the one in the register is not. -/
theorem lookup_hold_slot (hi : s.locations.lookup i.var = none) :
  (s.hold i r).locations.lookup x = some (.slot k) ↔ s.locations.lookup x = some (.slot k)
  := by
  rw [lookup_hold]
  split
  · rename_i h
    simp [h, hi]
  · rfl

theorem lookup_hold_reg (hi : s.locations.lookup i.var = none) :
  (s.hold i r).locations.lookup x = some (.reg r') ↔
    x = i.var ∧ r' = r ∨ s.locations.lookup x = some (.reg r')
  := by
  rw [lookup_hold]
  split
  · rename_i h
    simp [h, hi, eq_comm]
  · simp [*]

end Scan

/-! ### The scan -/

/-- What holds of a scan at a position, after the intervals that have been seen.  Of the
registers, some may be in hand for what comes next. -/
structure Scan.Sound (regs inHand : List Reg) (seen : List Interval) (now : Nat) (s : Scan) :
    Prop where
  /-- No variable has two entries. -/
  keys : (s.locations.map (·.1)).Nodup
  /-- Just the variables that have been seen have a location. -/
  located : ∀ x, x ∈ s.locations.map (·.1) ↔ x ∈ seen.map (·.var)
  /-- Each register is in one place only. -/
  shared : (inHand ++ s.free ++ s.active.map (·.reg)).Perm regs
  /-- A variable has the register that it holds. -/
  holds : ∀ h ∈ s.active, s.locations.lookup h.var = some (.reg h.reg)
  /-- A variable in a register holds it as long as its interval has not ended. -/
  held : ∀ i ∈ seen, ∀ r, s.locations.lookup i.var = some (.reg r) →
    ⟨i.stop, i.var, r⟩ ∈ s.active ∨ i.stop < now
  /-- Variables in the same register are not needed at the same position. -/
  apart : ∀ i ∈ seen, ∀ j ∈ seen, ∀ r, i.var ≠ j.var → s.locations.lookup i.var = some (.reg r) →
    s.locations.lookup j.var = some (.reg r) → i.stop < j.start ∨ j.stop < i.start
  /-- Registers are among those that may be handed out. -/
  registers : ∀ x r, s.locations.lookup x = some (.reg r) → r ∈ regs
  /-- The slots that are in use are those up to the number of slots. -/
  slots : ∀ k, (∃ x, s.locations.lookup x = some (.slot k)) ↔ k < s.slots
  /-- No slot has two variables. -/
  distinct : ∀ x y k, s.locations.lookup x = some (.slot k) →
    s.locations.lookup y = some (.slot k) → x = y

theorem foldl_later_mem (first : Holding) (rest : List Holding) :
  rest.foldl later first ∈ first :: rest
  := by
  induction rest generalizing first with
  | nil => apply mem_cons_self
  | cons second rest ih =>
    rw [foldl_cons]
    have hmem := ih (later first second)
    rw [later] at hmem ⊢
    split at hmem
    · rw [if_pos ‹_›]
      apply mem_cons_of_mem _ hmem
    · rw [if_neg ‹_›]
      obtain heq | hmem := mem_cons.mp hmem
      · rw [heq]
        apply mem_cons_self
      · apply mem_cons_of_mem _ (mem_cons_of_mem _ hmem)

theorem mem_of_last? (h : last? active = some held) :
  held ∈ active
  := by
  cases active with
  | nil => cases h
  | cons first rest =>
    cases h
    apply foldl_later_mem

namespace Scan.Sound

variable {s : Scan}

/-- A variable that has not been seen has no location. -/
theorem lookup_eq_none (h : s.Sound regs inHand seen now) (hx : x ∉ seen.map (·.var)) :
  s.locations.lookup x = none
  := by
  rw [lookup_eq_none_iff_notMem, h.located]
  apply hx

/-- Nothing has been seen yet. -/
theorem start (regs : List Reg) :
  (Scan.mk [] regs [] 0 []).Sound regs [] [] 0
  := by
  constructor <;> simp

/-- Registers whose intervals have ended are free again. -/
theorem expire (h : s.Sound regs inHand seen now) {start : Nat} (hstart : now ≤ start) :
  (s.expire regs start).Sound regs inHand seen start
  := by
  have hfree := mergeSort_perm
    (s.free ++ (s.active.filter (·.stop < start)).map (·.reg))
    fun a b => regs.idxOf a ≤ regs.idxOf b
  have hactive := (filter_append_perm (fun h : Holding => decide (h.stop < start)) s.active).map
    (·.reg)
  rw [map_append] at hactive
  have hshared : (inHand ++ (s.expire regs start).free ++
      (s.expire regs start).active.map (·.reg)).Perm regs := by
    refine trans ?_ h.shared
    rw [append_assoc, append_assoc]
    refine .append_left _ (trans (hfree.append_right _) ?_)
    rw [append_assoc]
    exact hactive.append_left _
  exact {
    keys := h.keys
    located := h.located
    shared := hshared
    holds := fun held hheld => h.holds held (mem_of_mem_filter hheld)
    held := by
      intro i hi r hr
      obtain hactive | hended := h.held i hi r hr
      · by_cases hstop : i.stop < start
        · exact .inr hstop
        · left
          apply mem_filter.mpr ⟨hactive, _⟩
          simpa using hstop
      · omega
    apart := h.apart
    registers := h.registers
    slots := h.slots
    distinct := h.distinct }

/-- A register is in hand instead of free. -/
theorem take {free : List Reg} (h : s.Sound regs [] seen now) (hfree : s.free = r :: free)
    {used : List Reg} :
  { s with free, used }.Sound regs [r] seen now
  := by
  have hshared := h.shared
  rw [hfree] at hshared
  exact { h with shared := hshared }

/-- Slots stay in order when one more is used. -/
theorem slots_spill (h : s.Sound regs inHand seen now)
    (hy : ∀ k, s.locations.lookup y ≠ some (.slot k)) (k : Nat) :
  (∃ x, (s.spill y).locations.lookup x = some (.slot k)) ↔ k < (s.spill y).slots
  := by
  have hslots := h.slots k
  simp only [lookup_spill_slot hy, exists_or, exists_eq_left, hslots]
  change _ ↔ k < s.slots + 1
  omega

/-- Spilling keeps slots apart. -/
theorem distinct_spill (h : s.Sound regs inHand seen now)
    (hz : ∀ k, s.locations.lookup z ≠ some (.slot k)) (x y : String) (k : Nat)
    (hx : (s.spill z).locations.lookup x = some (.slot k))
    (hy : (s.spill z).locations.lookup y = some (.slot k)) :
  x = y
  := by
  have hlt {x : String} (hx : s.locations.lookup x = some (.slot k)) : k < s.slots :=
    (h.slots k).mp ⟨x, hx⟩
  rw [lookup_spill_slot hz] at hx hy
  obtain ⟨rfl, hk⟩ | hx := hx <;> obtain ⟨rfl, hk'⟩ | hy := hy
  · rfl
  · exact absurd (hlt hy) (by omega)
  · exact absurd (hlt hx) (by omega)
  · exact h.distinct x y k hx hy

/-- A variable gives its register away and gets a slot. -/
theorem evict {held : Holding} (hregs : regs.Nodup) (h : s.Sound regs [] seen now)
    (hheld : held ∈ s.active) :
  ({ s with active := s.active.erase held }.spill held.var).Sound regs [held.reg] seen now
  := by
  have hlookup := h.holds held hheld
  have hkeys : held.var ∈ s.locations.map (·.1) := exists_lookup_iff.mp ⟨_, hlookup⟩
  have hslot (k : Nat) : s.locations.lookup held.var ≠ some (.slot k) := by simp [hlookup]
  have hperm : (held.reg :: (s.free ++ (s.active.erase held).map (·.reg))).Perm regs := by
    refine trans ?_ h.shared
    refine perm_middle.symm.trans ?_
    exact ((perm_cons_erase hheld).map (·.reg)).symm.append_left _
  have hother : ∀ other ∈ s.active.erase held, other.var ≠ held.var := by
    intro other hmem heq
    have hreg : other.reg = held.reg := by
      have hother := h.holds other (mem_of_mem_erase hmem)
      rw [heq, hlookup, Option.some.injEq, Location.reg.injEq] at hother
      apply hother.symm
    apply (nodup_cons.mp (hperm.nodup_iff.mpr hregs)).1
    apply mem_append_right _ (mem_map.mpr ⟨other, hmem, hreg⟩)
  exact {
    keys := by
      rw [spill, keys_put, if_pos hkeys]
      apply h.keys
    located := by
      rw [spill, keys_put, if_pos hkeys]
      apply h.located
    shared := hperm
    holds := by
      intro other hmem
      rw [lookup_spill_reg]
      exact ⟨hother other hmem, h.holds other (mem_of_mem_erase hmem)⟩
    held := by
      intro i hi r hr
      rw [lookup_spill_reg] at hr
      refine (h.held i hi r hr.2).imp_left fun hactive => ?_
      apply (mem_erase_of_ne _).mpr hactive
      rintro rfl
      apply hr.1 rfl
    apart := by
      intro i hi j hj r hne hri hrj
      rw [lookup_spill_reg] at hri hrj
      apply h.apart i hi j hj r hne hri.2 hrj.2
    registers := by
      intro x r hr
      rw [lookup_spill_reg] at hr
      apply h.registers x r hr.2
    slots := h.slots_spill hslot
    distinct := h.distinct_spill hslot }

/-! A variable that has not been seen gets a location. -/

section

variable {i : Interval}

theorem keys_put_new (h : s.Sound regs inHand seen now) (hi : i.var ∉ seen.map (·.var)) :
  ((put i.var loc s.locations).map (·.1)).Nodup
  := by
  have hkeys : i.var ∉ s.locations.map (·.1) := (h.located _).not.mpr hi
  rw [keys_put, if_neg hkeys]
  apply nodup_append.mpr ⟨h.keys, nodup_singleton _, _⟩
  intro x hx y hy heq
  rw [heq, mem_singleton.mp hy] at hx
  apply hkeys hx

theorem located_put_new (h : s.Sound regs inHand seen now) (hi : i.var ∉ seen.map (·.var))
    (x : String) :
  x ∈ (put i.var loc s.locations).map (·.1) ↔ x ∈ (seen ++ [i]).map (·.var)
  := by
  have hkeys : i.var ∉ s.locations.map (·.1) := (h.located _).not.mpr hi
  rw [keys_put, if_neg hkeys, mem_append, map_append, mem_append, h.located]
  rfl

theorem ne_of_active (h : s.Sound regs inHand seen now) (hi : i.var ∉ seen.map (·.var))
    {held : Holding} (hheld : held ∈ s.active) :
  held.var ≠ i.var
  := by
  intro heq
  apply hi
  rw [← heq, ← h.located]
  apply exists_lookup_iff.mp ⟨_, h.holds held hheld⟩

theorem mem_of_ne (hj : j ∈ seen ++ [i]) (hne : j.var ≠ i.var) :
  j ∈ seen
  := by
  obtain hj | hj := mem_append.mp hj
  · apply hj
  · rw [mem_singleton.mp hj] at hne
    exact absurd rfl hne

theorem eq_of_var (hi : i.var ∉ seen.map (·.var)) (hj : j ∈ seen ++ [i]) (hvar : j.var = i.var) :
  j = i
  := by
  obtain hj | hj := mem_append.mp hj
  · apply absurd _ hi
    apply mem_map.mpr ⟨j, hj, hvar⟩
  · apply mem_singleton.mp hj

/-- It gets a slot. -/
theorem spill (h : s.Sound regs [] seen now) (hi : i.var ∉ seen.map (·.var)) :
  (s.spill i.var).Sound regs [] (seen ++ [i]) now
  := by
  have hslot (k : Nat) : s.locations.lookup i.var ≠ some (.slot k) := by
    simp [h.lookup_eq_none hi]
  exact {
    keys := h.keys_put_new hi
    located := h.located_put_new hi
    shared := h.shared
    holds := fun held hheld => lookup_spill_reg.mpr ⟨h.ne_of_active hi hheld, h.holds held hheld⟩
    held := by
      intro j hj r hr
      rw [lookup_spill_reg] at hr
      apply h.held j (mem_of_ne hj hr.1) r hr.2
    apart := by
      intro j hj k hk r hne hrj hrk
      rw [lookup_spill_reg] at hrj hrk
      apply h.apart j (mem_of_ne hj hrj.1) k (mem_of_ne hk hrk.1) r hne hrj.2 hrk.2
    registers := by
      intro x r hr
      rw [lookup_spill_reg] at hr
      apply h.registers x r hr.2
    slots := h.slots_spill hslot
    distinct := h.distinct_spill hslot }

/-- It gets the register that is in hand.  Whoever had this register before does not need it
any more. -/
theorem hold (hregs : regs.Nodup) (h : s.Sound regs [r] seen i.start)
    (hi : i.var ∉ seen.map (·.var)) :
  (s.hold i r).Sound regs [] (seen ++ [i]) i.start
  := by
  have hnone := h.lookup_eq_none hi
  have hlookup {x : String} {r' : Reg} :
      (s.hold i r).locations.lookup x = some (.reg r') ↔
        x = i.var ∧ r' = r ∨ s.locations.lookup x = some (.reg r') :=
    lookup_hold_reg hnone
  have hold {j : Interval} {r' : Reg} (hj : j ∈ seen ++ [i])
      (hr : s.locations.lookup j.var = some (.reg r')) : j ∈ seen := by
    apply mem_of_ne hj
    intro hvar
    rw [hvar, hnone] at hr
    cases hr
  have hended {j : Interval} (hj : j ∈ seen) (hr : s.locations.lookup j.var = some (.reg r)) :
      j.stop < i.start := by
    obtain hactive | hended := h.held j hj r hr
    · have hnodup := h.shared.nodup_iff.mpr hregs
      rw [append_assoc, singleton_append, nodup_cons] at hnodup
      apply absurd _ hnodup.1
      apply mem_append_right _ (mem_map.mpr ⟨_, hactive, rfl⟩)
    · apply hended
  exact {
    keys := h.keys_put_new hi
    located := h.located_put_new hi
    shared := by
      refine trans ?_ h.shared
      rw [Scan.hold, map_append, ← append_assoc]
      exact perm_append_comm
    holds := by
      intro held hheld
      rw [hlookup]
      obtain hheld | hheld := mem_append.mp hheld
      · exact .inr (h.holds held hheld)
      · rw [mem_singleton.mp hheld]
        exact .inl ⟨rfl, rfl⟩
    held := by
      intro j hj r' hr
      obtain ⟨hvar, rfl⟩ | hr := hlookup.mp hr
      · left
        rw [eq_of_var hi hj hvar]
        apply mem_append_right _ (mem_singleton.mpr rfl)
      · refine (h.held j (hold hj hr) r' hr).imp_left fun hactive => ?_
        apply mem_append_left _ hactive
    apart := by
      intro j hj k hk r' hne hrj hrk
      obtain ⟨hj', rfl⟩ | hrj := hlookup.mp hrj <;> obtain ⟨hk', hr⟩ | hrk := hlookup.mp hrk
      · exact absurd (hj'.trans hk'.symm) hne
      · right
        rw [eq_of_var hi hj hj']
        apply hended (hold hk hrk) hrk
      · left
        rw [eq_of_var hi hk hk']
        apply hended (hold hj hrj)
        rw [hrj, hr]
      · apply h.apart j (hold hj hrj) k (hold hk hrk) r' hne hrj hrk
    registers := by
      intro x r' hr
      obtain ⟨_, rfl⟩ | hr := hlookup.mp hr
      · apply h.shared.mem_iff.mp
        simp
      · apply h.registers x r' hr
    slots := by
      simp only [lookup_hold_slot hnone]
      apply h.slots
    distinct := by
      intro x y k hx hy
      rw [lookup_hold_slot hnone] at hx hy
      apply h.distinct x y k hx hy }

end

/-- One interval more, which starts no earlier than those before. -/
theorem place (hregs : regs.Nodup) (h : s.Sound regs [] seen now) (hstart : now ≤ i.start)
    (hi : i.var ∉ seen.map (·.var)) :
  (s.place regs i).Sound regs [] (seen ++ [i]) i.start
  := by
  have hexpired := h.expire hstart
  rw [Scan.place]
  split
  · rename_i r free hfree
    apply (hexpired.take hfree).hold hregs hi
  · split
    · apply hexpired.spill hi
    · rename_i held hlast
      split
      · apply (hexpired.evict hregs (mem_of_last? hlast)).hold hregs hi
      · apply hexpired.spill hi

end Scan.Sound

/-- The registers that have been handed out are those that variables are in. -/
def Scan.Used (s : Scan) : Prop :=
  ∀ r, r ∈ s.used ↔ ∃ x, s.locations.lookup x = some (.reg r)

namespace Scan.Used

variable {s : Scan} {i : Interval}

theorem hold (h : s.Used) (hi : s.locations.lookup i.var = none) :
  ({ s with used := r :: s.used }.hold i r).Used
  := by
  intro r'
  simp only [lookup_hold_reg (s := { s with used := r :: s.used }) hi, exists_or, exists_eq_left]
  change r' ∈ r :: s.used ↔ _
  rw [mem_cons, h r']

theorem spill (h : s.Used) (hi : s.locations.lookup i.var = none) :
  (s.spill i.var).Used
  := by
  intro r
  rw [Scan.spill, h r]
  apply exists_congr
  intro x
  change _ ↔ (s.spill i.var).locations.lookup x = _
  rw [lookup_spill_reg, iff_and_self]
  rintro hx rfl
  rw [hi] at hx
  cases hx

/-- The register of one variable goes to another. -/
theorem pass (h : s.Used) (hi : s.locations.lookup i.var = none) {held : Holding}
    (hheld : s.locations.lookup held.var = some (.reg held.reg)) (active : List Holding) :
  (({ s with active }.spill held.var).hold i held.reg).Used
  := by
  have hne : i.var ≠ held.var := by
    intro heq
    rw [← heq, hi] at hheld
    cases hheld
  have hnone : ({ s with active }.spill held.var).locations.lookup i.var = none := by
    rw [lookup_spill, if_neg hne]
    apply hi
  intro r
  simp only [lookup_hold_reg hnone, lookup_spill_reg]
  refine (h r).trans ⟨?_, ?_⟩
  · rintro ⟨x, hx⟩
    by_cases hxheld : x = held.var
    · rw [hxheld, hheld] at hx
      cases hx
      exact ⟨i.var, .inl ⟨rfl, rfl⟩⟩
    · exact ⟨x, .inr ⟨hxheld, hx⟩⟩
  · rintro ⟨x, ⟨_, rfl⟩ | hx⟩
    · exact ⟨held.var, hheld⟩
    · exact ⟨x, hx.2⟩

theorem place (h : s.Used) (hs : s.Sound regs [] seen now) (hi : i.var ∉ seen.map (·.var)) :
  (s.place regs i).Used
  := by
  have hexpired : (s.expire regs i.start).Used := h
  have hnone : (s.expire regs i.start).locations.lookup i.var = none := hs.lookup_eq_none hi
  rw [Scan.place]
  split
  · apply hexpired.hold hnone
  · split
    · apply hexpired.spill hnone
    · rename_i held hlast
      split
      · apply hexpired.pass hnone
        apply hs.holds held (mem_of_mem_filter (mem_of_last? hlast))
      · apply hexpired.spill hnone

end Scan.Used

/-- A whole scan of intervals in the order of their starts. -/
theorem Scan.Sound.foldl {s : Scan} (hregs : regs.Nodup) (h : s.Sound regs [] seen now)
    (hused : s.Used) (hsorted : intervals.Pairwise fun i j => i.start ≤ j.start)
    (hnow : ∀ i ∈ intervals, now ≤ i.start) (hvars : ((seen ++ intervals).map (·.var)).Nodup) :
  (intervals.foldl (.place regs) s).Used ∧
    ∃ now', (intervals.foldl (.place regs) s).Sound regs [] (seen ++ intervals) now'
  := by
  induction intervals generalizing s seen now with
  | nil =>
    rw [append_nil]
    exact ⟨hused, now, h⟩
  | cons i rest ih =>
    rw [pairwise_cons] at hsorted
    have hi : i.var ∉ seen.map (·.var) := by
      rw [map_append, nodup_append] at hvars
      intro hmem
      apply hvars.2.2 _ hmem _ mem_cons_self rfl
    have hplaced := h.place hregs (hnow i mem_cons_self) hi
    rw [append_cons] at hvars ⊢
    apply ih hplaced (hused.place h hi) hsorted.2 hsorted.1 hvars

/-! ### The places of variables -/

/-- An allocation of registers to variables with the given intervals: each variable that has
one gets one place, and variables that are needed at the same position get different ones. -/
structure Serves (a : Allocation) (regs : List Reg) (intervals : List Interval) : Prop where
  /-- No variable is entered twice. -/
  keys : (a.locations.map (·.1)).Nodup
  /-- Just the variables with an interval have a place. -/
  located : ∀ x, (∃ loc, a.location? x = some loc) ↔ ∃ i ∈ intervals, i.var = x
  /-- Variables that are needed at the same position are in different places. -/
  apart : ∀ i ∈ intervals, ∀ j ∈ intervals, i.var ≠ j.var → ∀ p, i.Covers p → j.Covers p →
    a.location? i.var ≠ a.location? j.var
  /-- Registers are among those that may be handed out. -/
  registers : ∀ x r, a.location? x = some (.reg r) → r ∈ regs
  /-- No slot has two variables. -/
  distinct : ∀ x y k, a.location? x = some (.slot k) → a.location? y = some (.slot k) → x = y
  /-- The slots in use are those below the number of slots. -/
  slots : ∀ k, (∃ x, a.location? x = some (.slot k)) ↔ k < a.slots
  /-- The saved registers are in order. -/
  ordered : a.saved.Sublist regs
  /-- The saved registers are those that variables are in. -/
  saved : ∀ r, r ∈ a.saved ↔ ∃ x, a.location? x = some (.reg r)

/-- Places for intervals in the order of their starts. -/
theorem ofIntervals_serves (hregs : regs.Nodup)
    (hsorted : intervals.Pairwise fun i j => i.start ≤ j.start)
    (hvars : (intervals.map (·.var)).Nodup) :
  (ofIntervals regs intervals).Serves regs intervals
  := by
  obtain ⟨hused, now, h⟩ := (Scan.Sound.start regs).foldl hregs (by simp [Scan.Used]) hsorted
    (fun _ _ => Nat.zero_le _) hvars
  rw [nil_append] at h
  exact {
    keys := h.keys
    located := by
      intro x
      rw [location?, exists_lookup_iff]
      refine (h.located x).trans ?_
      rw [mem_map]
    apart := by
      intro i hi j hj hne p hip hjp heq
      obtain ⟨loc, hloc⟩ := exists_lookup_iff.mpr
        ((h.located i.var).mpr (mem_map_of_mem hi))
      have hloc' := heq.symm.trans hloc
      cases loc with
      | reg r =>
        obtain hlt | hlt := h.apart i hi j hj r hne hloc hloc'
        · exact absurd (hip.2.trans_lt hlt) (not_lt.mpr hjp.1)
        · exact absurd (hjp.2.trans_lt hlt) (not_lt.mpr hip.1)
      | slot k => apply hne (h.distinct _ _ k hloc hloc')
    registers := h.registers
    distinct := h.distinct
    slots := h.slots
    ordered := filter_sublist
    saved := by
      intro r
      refine mem_filter.trans ?_
      rw [contains_iff_mem, hused r]
      apply and_iff_right_of_imp
      rintro ⟨x, hx⟩
      apply h.registers x r hx }

/-- Whatever registers are handed out, every variable of a function gets a place, and not that
of another one that is needed at the same position. -/
theorem ofFunction_serves (regs : List Reg) (hregs : regs.Nodup) (f : Ir.Function) :
  (ofFunction regs f).Serves regs (Ir.liveIntervals f)
  := ofIntervals_serves hregs (Ir.pairwise_liveIntervals f) Ir.nodup_liveIntervals

/-- Four variables, of which three are needed at the same position:
`b = 1; c = b + a; d = c + a; return d`. -/
def crowded : Ir.Function where
  name := "crowded"
  params := [⟨"a", .i64⟩]
  result := .i64
  vars := [⟨"b", .i64⟩, ⟨"c", .i64⟩, ⟨"d", .i64⟩]
  body := [.move (.var "b") .i64 (.int 1), .binary (.var "c") .add .i64 (.var "b") (.var "a"),
    .binary (.var "d") .add .i64 (.var "c") (.var "a"), .ret (some (.var "d"))]
  span := .nowhere

/-- With one register, `a` has to give it away, `c` does not get it, and `d` gets it in the end. -/
theorem crowded_served :
  [Reg.rbx].Nodup ∧ (ofFunction [.rbx] crowded).Serves [.rbx] (Ir.liveIntervals crowded) ∧
    ofFunction [.rbx] crowded =
      ⟨[("a", .slot 0), ("b", .reg .rbx), ("c", .slot 1), ("d", .reg .rbx)], [.rbx], 2⟩
  := ⟨by decide, ofFunction_serves [.rbx] (by decide) crowded, by cbv⟩

end Endmark.Code.Allocation
