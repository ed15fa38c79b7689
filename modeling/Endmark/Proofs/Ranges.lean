import Endmark.Proofs.Code.Convention
import Endmark.Proofs.Lowering.Counting
import Endmark.Proofs.Machine.Arithmetic
import Endmark.Routine.Lists

/-!
# Ranges

A loop over a range that is written there counts, and a range that is kept is a list.  Both give the
same numbers just when the difference of the bounds is a number of 64 bits.
-/

namespace Endmark

open Machine
open List Option

/-- So many numbers, each one more than the one before. -/
def consecutive (first : Int64) : Nat → List Int64
  | 0 => []
  | n + 1 => first :: consecutive (first + 1) n

theorem length_consecutive (n : Nat) :
  (consecutive first n).length = n
  := by
  induction n generalizing first with
  | zero => rfl
  | succ n ih => rw [consecutive, length_cons, ih]

theorem getElem?_consecutive (first : Int64) (hk : k < n) :
  (consecutive first n)[k]? = some (first + .ofNat k)
  := by
  induction n generalizing first k with
  | zero => cases hk
  | succ n ih =>
    cases k with
    | zero => simp [consecutive]
    | succ k =>
      rw [consecutive, getElem?_cons_succ, ih _ (by omega), Int64.ofNat_add,
        Int64.add_assoc, Int64.add_comm 1]
      rfl

theorem consecutive_eq_map :
  consecutive first n = (range n).map (after first 1)
  := by
  apply ext_getElem?
  intro k
  by_cases hk : k < n
  · rw [getElem?_consecutive first hk, getElem?_map, getElem?_range hk, map_some,
      after, Int64.toInt_one, mul_one, Int64.ofInt_add, Int64.ofInt_toInt, Int64.ofInt_eq_ofNat]
  · rw [getElem?_eq_none] <;> simp [length_consecutive] <;> omega

namespace Lowering

open Ir (Operand Instr Words Execution labelNames)
open Typed (NoNumber)

/-! ### Counting -/

/-- Control goes from one state to the other, and on the way the instruction with the number `k`
writes the values to the variable, in this order. -/
inductive Writes (code : List Instr) (k : Nat) (x : String) :
    Ir.State → List Int64 → Ir.State → Prop
  | stay {s} : Writes code k x s [] s
  | pass {s s' e vs} (hstep : Ir.step? code s = some (.goes s')) (hpc : s.pc ≠ k)
      (h : Writes code k x s' vs e) : Writes code k x s vs e
  | write {s s' e v vs} (hstep : Ir.step? code s = some (.goes s')) (hpc : s.pc = k)
      (hv : s'.words x = some v) (h : Writes code k x s' vs e) : Writes code k x s (v :: vs) e

/-- Each visit to the copy of the counter writes its value. -/
theorem Writes.of_visits {finish : Nat}
    (hcopy : ∃ ty, code[k]? = some (.move (.var x) ty (.var counter)))
    (h : (Execution.words code).Visits k finish counter a vs b) :
  Writes code k x a.1 vs b.1
  := by
  have hgoes {a b : Ir.State × Unit} (h : (Execution.words code).step? a = some b) :
      Ir.step? code a.1 = some (.goes b.1) := by
    simp only [Execution.words] at h
    split at h
    · rename_i hstep
      cases h
      exact hstep
    · cases h
  induction h with
  | stay => exact .stay
  | pass hstep hk _ _ ih => exact .pass (hgoes hstep) hk ih
  | @visit a _ _ v _ hstep hk hv _ ih =>
    refine .write (hgoes hstep) hk ?_ ih
    obtain ⟨ty, hcopy⟩ := hcopy
    have heffect : (Instr.move (.var x) ty (.var counter)).effect? code a.1 =
        some (.goes (a.1.put x v)) := bind_eq_some_iff.mpr ⟨v, hv, rfl⟩
    cases hstep.symm.trans ((Execution.words code).goes () (hk ▸ hcopy) rfl heffect)
    exact Function.update_self ..

open Performs (countLoop)
open Lower (countInside countOutside)

/-- The loop over a range has been lowered around a body from which control comes back in each
round, and control comes to the loop with the bounds. -/
structure Counting (env : Env) (s b : State) (x : String) (start stop : Operand)
    (body : Loop → Lower PUnit) (code : List Instr) (w : Words) (first last : Int64) : Prop where
  body : (body (countLoop s.labels)).Gives env (countInside env (.slot x) start stop 1 s) ⟨⟩ b
  grown : (countInside env (.slot x) start stop 1 s).code.toList <+: b.code.toList
  within : (countOutside 1 s b).Within code
  labels : (labelNames code).Nodup
  returns : CountsAt.Returns (.words code) (toString s.temps) (toString (s.temps + 1))
    (s.code.size + 2) b.code.size (s.here w, ())
  first : start.value? w = some first
  last : stop.value? w = some last
  old : OldOperand s.temps stop

/-- The loop gives the variable the values in this order, and ends. -/
def Counts (env : Env) (s b : State) (x : String) (start stop : Operand)
    (body : Loop → Lower PUnit) (code : List Instr) (w : Words) (items : List Int64) : Prop :=
  (Lower.countingLoop (.slot x) start stop 1 body).Gives env s ⟨⟩ (countOutside 1 s b) ∧
  ∃ w', Writes code (s.code.size + 6) x (s.here w) items ((countOutside 1 s b).here w')

variable {body : Loop → Lower PUnit} {first last : Int64}
  (h : Counting env s b x start stop body code w first last)

include h

/-- The loop counts from its start to its end. -/
theorem Counting.counts :
  Counts env s b x start stop body code w (consecutive first (last.toInt - first.toInt).toNat)
  := by
  refine ⟨Lower.gives_countingLoop.mpr ⟨b, h.body, rfl⟩, ?_⟩
  obtain ⟨new, hcode⟩ := h.grown
  have hcounts := countsAt_of_within hcode.symm h.within h.labels
  obtain ⟨w', henters, hi, hm⟩ := enters_counting hcode.symm h.within h.first h.last h.old
  have hexact {k : Nat} (hk : k ≤ (last.toInt - first.toInt).toNat) :
      (after first 1 k).toInt = first.toInt + k := by
    have := first.le_toInt
    have := first.toInt_lt
    have := last.toInt_lt
    rw [after, Int64.toInt_one, Int64.toInt_ofInt_of_le] <;> omega
  obtain ⟨e, hend, hvisits⟩ := hcounts.leaves h.returns henters hi hm
    (n := (last.toInt - first.toInt).toNat) (by
      intro k hk
      rw [hexact hk.le, Int64.toInt_one, Precedes, if_pos one_pos]
      omega) (by
      rw [hexact le_rfl, Int64.toInt_one, Precedes, if_pos one_pos]
      omega)
  rw [consecutive_eq_map]
  obtain ⟨⟨_, w''⟩, _⟩ := e
  refine ⟨w'', ?_⟩
  have hhere : (countOutside 1 s b).here w'' = ⟨b.code.size + 4, w''⟩ := by
    simp [State.here, countOutside, State.emit]
  rw [hhere, ← show _ = b.code.size + 4 from hend]
  exact .of_visits hcounts.copy hvisits

end Lowering

namespace Routine

open Machine.Memory (Writable Lawful loadWord? load? Stored)
open Code.Frame (Stacked)

/-! ### Listing -/

variable [Memory μ] {s : State μ} {start stop : Int64}

/-- How many items a list for a range gets. -/
def itemCount (start stop : Int64) : Nat :=
  (stop - start).toInt.toNat

/-- The number of items is the difference of the bounds, or none if it is not positive. -/
theorem exists_counted (hrdi : s.get .rdi = start.toUInt64) (hrsi : s.get .rsi = stop.toUInt64) :
  ∃ s', Goes place range ⟨0, s⟩ ⟨7, s'⟩ ∧ s'.get .rcx = .ofNat (itemCount start stop) ∧
    (∀ r ≠ .rcx, s'.get r = s.get r) ∧ s'.memory = s.memory
  := by
  obtain ⟨s₁, hs₁, hrcx, hget, hmemory, hflags⟩ : ∃ s₁, straight? place (range.take 4) s = some s₁ ∧
      s₁.get .rcx = (stop - start).toUInt64 ∧ (∀ r ≠ .rcx, s₁.get r = s.get r) ∧
      s₁.memory = s.memory ∧ s₁.flags = .ofBits (stop - start).toUInt64 := by
    have hdifference : s.get .rsi - s.get .rdi = (stop - start).toUInt64 := by
      rw [hrdi, hrsi, Int64.toUInt64_sub]
    refine ⟨_, rfl, hdifference, ?_, rfl, ?_⟩
    · rintro (_ | _) hr <;> first | rfl | contradiction
    · rw [← hdifference]
      exact congrArg Flags.ofBits UInt64.and_self
  have hstart : Goes place range ⟨0, s⟩ ⟨4, s₁⟩ := .straight (stands_part 0 4) hs₁
  have hjump : Stands range 4 [.jcc .g ".sized"] := stands_part 4 1
  have hcond : Cond.g.holds s₁.flags = decide (0 < stop - start) := by
    rw [hflags, (holds_ofBits _).2.2.2]
    rfl
  have hpositive : 0 < stop - start ↔ 0 < (stop - start).toInt := Int64.lt_iff_toInt_lt
  by_cases hpos : 0 < stop - start
  · have hlabel : Goes place range ⟨6, s₁⟩ ⟨7, s₁⟩ := .straight (stands_part 6 1) rfl
    have hbranch : Goes place range ⟨4, s₁⟩ ⟨6, s₁⟩ :=
      .branch hjump (by rw [hcond, decide_eq_true hpos]) rfl
    refine ⟨s₁, (hstart.trans hbranch).trans hlabel, ?_, hget, hmemory⟩
    have hnat : stop - start = .ofNat (itemCount start stop) := by
      rw [itemCount, ← Int64.ofInt_eq_ofNat, Int.toNat_of_nonneg (hpositive.mp hpos).le,
        Int64.ofInt_toInt]
    rw [hrcx, hnat]
    rfl
  · have hlabel : Goes place range ⟨5, s₁⟩ ⟨7, _⟩ := .straight (stands_part 5 2) rfl
    have hpass : Goes place range ⟨4, s₁⟩ ⟨5, s₁⟩ :=
      .pass hjump (by rw [hcond, decide_eq_false hpos])
    refine ⟨_, (hstart.trans hpass).trans hlabel, ?_, ?_, hmemory⟩
    · rw [itemCount, Int.toNat_of_nonpos (not_lt.mp (mt hpositive.mpr hpos))]
      exact UInt64.xor_self
    · intro r hr
      rw [← hget r hr]
      cases r <;> first | rfl | contradiction

theorem ofNat_shiftLeft :
  UInt64.ofNat n <<< 3 = .ofNat (8 * n)
  := by
  rw [← UInt64.toNat_inj]
  simp
  omega

/-- The routine is called with the bounds of a range, and there is room on the stack. -/
structure RangeCalled (start stop : Int64) (s : State μ) : Prop where
  rdi : s.get .rdi = start.toUInt64
  rsi : s.get .rsi = stop.toUInt64
  below : 16 ≤ (s.get .rsp).toNat
  writable : ∀ a : UInt64, (s.get .rsp).toNat ≤ a.toNat + 16 → a.toNat < (s.get .rsp).toNat →
    Writable s.memory a

/-- The routine asks for a block with a word for the length and one for each item, and keeps the
first item and the length on the stack. -/
theorem RangeCalled.exists_asked [Lawful μ] (h : RangeCalled start stop s) :
  ∃ s', Goes place range ⟨0, s⟩ ⟨12, s'⟩ ∧ range[12]? = some (.call "__aim_alloc") ∧
    s'.get .rdi = .ofNat (8 * (itemCount start stop + 1)) ∧
    Stacked (s.get .rsp) 2 s s' [start.toUInt64, .ofNat (itemCount start stop)]
  := by
  obtain ⟨hrdi, hrsi, hbelow, hwritable⟩ := h
  obtain ⟨s₁, hs₁, hrcx, hget, hmemory⟩ := exists_counted hrdi hrsi
  have hrsp₁ := hget .rsp (by decide)
  have hstart : Stacked (s.get .rsp) 2 s s₁ [] := by
    refine ⟨?_, by simp, ?_, by simp [hmemory]⟩
    · simp [hrsp₁, Code.cell]
    · rw [hmemory]
      exact hwritable
  obtain ⟨s₂, hs₂, hstacked₂, hget₂⟩ := hstart.push hbelow (by decide)
  obtain ⟨s₃, hs₃, hstacked₃, hget₃⟩ := hstacked₂.push hbelow one_lt_two
  have hpushes : Goes place range ⟨7, s₁⟩ ⟨9, s₃⟩ :=
    .straight (stands_part 7 2) (straight?_append_of hs₂ hs₃)
  have hrcx₃ : s₃.get .rcx = .ofNat (itemCount start stop) := by
    rw [hget₃ _ (by decide), hget₂ _ (by decide), hrcx]
  have hsize : Goes place range ⟨9, s₃⟩ ⟨12, _⟩ := .straight (stands_part 9 3) rfl
  refine ⟨_, (hs₁.trans hpushes).trans hsize, rfl, ?_, ?_⟩
  · change s₃.get .rcx <<< 3 + 8 = _
    rw [hrcx₃, ofNat_shiftLeft, mul_add, UInt64.ofNat_add]
    rfl
  · rw [hget₂ _ (by decide), hrcx, hget _ (by decide), hrdi] at hstacked₃
    exact ⟨hstacked₃.rsp, hstacked₃.words, hstacked₃.writable, hstacked₃.outside⟩

/-! ### Filling the list -/

/-- A list with a length has been filled with its first items. -/
structure Filled (m : μ) (a : UInt64) (n : Nat) (start : Int64) (k : Nat) : Prop where
  length : loadWord? m a = some (.ofNat n)
  items : ∀ j < k, loadWord? m (a + .ofNat (8 * (j + 1))) = some (start + .ofNat j).toUInt64
  writable : ∀ i < 8 * (n + 1), Writable m (a + .ofNat i)

/-- The routine has stored some of the items and comes to the next one. -/
structure Filling (a : UInt64) (n : Nat) (start : Int64) (k : Nat) (s : State μ) : Prop where
  rax : s.get .rax = a
  rcx : s.get .rcx = .ofNat n
  rdx : s.get .rdx = (start + .ofNat k).toUInt64
  rsi : s.get .rsi = .ofNat k
  filled : Filled s.memory a n start k

/-- One more item is stored. -/
theorem Filled.store [Lawful μ] {m : μ} (h : Filled m a n start k)
    (hroom : a.toNat + 8 * (n + 1) ≤ 2 ^ 64) (hk : k < n) :
  ∃ m', Memory.storeWord? m (a + .ofNat (8 * (k + 1))) (start + .ofNat k).toUInt64 = some m' ∧
    Filled m' a n start (k + 1)
  := by
  have hnat {i : Nat} (hi : i < 8 * (n + 1)) : (a + .ofNat i).toNat = a.toNat + i := by
    rw [UInt64.toNat_add, UInt64.toNat_ofNat_of_lt' (by rw [UInt64.size]; omega)]
    omega
  obtain ⟨m', hm', hstored⟩ := Memory.exists_storeWord? (m := m)
    (a := a + .ofNat (8 * (k + 1))) (by
      intro i hi
      rw [add_assoc, ← UInt64.ofNat_add]
      exact h.writable _ (by omega)) (start + .ofNat k).toUInt64
  have hkeep {j : Nat} (hj : j ≤ k) : loadWord? m' (a + .ofNat (8 * j)) =
      loadWord? m (a + .ofNat (8 * j)) := by
    have hj' := hnat (i := 8 * j) (by omega)
    have hk' := hnat (i := 8 * (k + 1)) (by omega)
    apply hstored.loadWord?
    all_goals
      rw [UInt64.toNat_sub]
      omega
  refine ⟨m', hm', ?_, ?_, fun i hi => hstored.writable _ (h.writable i hi)⟩
  · have := hkeep (Nat.zero_le k)
    simp only [mul_zero, UInt64.reduceOfNat, add_zero] at this
    rw [this, h.length]
  · intro j hj
    obtain rfl | hlt := eq_or_lt_of_le (Nat.le_of_lt_succ hj)
    · exact hstored.load
    · rw [hkeep hlt, h.items j hlt]

section

variable {a : UInt64} (place : String → UInt64) (hroom : a.toNat + 8 * (n + 1) ≤ 2 ^ 64)

include hroom

/-- Is the number of items that have been stored compared with the length? -/
theorem Filling.compared (h : Filling a n start k s) (hk : k ≤ n) :
  ∃ s', Goes place range ⟨18, s⟩ ⟨19, s'⟩ ∧ Filling a n start k s' ∧
    Cond.ge.holds s'.flags = decide (n ≤ k)
  := by
  have hcompare : Goes place range ⟨18, s⟩ ⟨19, _⟩ := .straight (stands_part 18 1) rfl
  refine ⟨_, hcompare, ⟨h.rax, h.rcx, h.rdx, h.rsi, h.filled⟩, ?_⟩
  have hflags := (holds_ofSub (.ofNat k) (.ofNat n)).2.2.2.2.2
  rw [h.rsi, h.rcx]
  refine hflags.trans (decide_eq_decide.mpr ?_)
  rw [Int64.le_iff_toInt_le, Int64.toInt_ofNat_of_lt (by omega), Int64.toInt_ofNat_of_lt (by omega),
    Int.ofNat_le]

/-- The next item is stored. -/
theorem Filling.next [Lawful μ] (h : Filling a n start k s) (hk : k < n) :
  ∃ s', Goes place range ⟨18, s⟩ ⟨18, s'⟩ ∧ Filling a n start (k + 1) s'
  := by
  obtain ⟨s₁, hs₁, h₁, hflags⟩ := h.compared place hroom hk.le
  have hpass : Goes place range ⟨19, s₁⟩ ⟨20, s₁⟩ :=
    .pass (stands_part 19 1) (by rw [hflags, decide_eq_false (by omega)])
  obtain ⟨m, hm, hfilled⟩ := h₁.filled.store hroom hk
  have haddress : s₁.address place (.base .rax (some (.rsi, 8)) 8) = a + .ofNat (8 * (k + 1)) := by
    change s₁.get .rax + s₁.get .rsi * 8 + 8 = _
    rw [h₁.rax, h₁.rsi, mul_add, UInt64.ofNat_add, UInt64.ofNat_mul, mul_comm,
      add_assoc]
    rfl
  have hstored : Goes place range ⟨20, s₁⟩ ⟨21, { s₁ with memory := m }⟩ :=
    .store (stands_part 20 1) (by rw [haddress, h₁.rdx, hm])
  have hmore : Goes place range ⟨21, { s₁ with memory := m }⟩ ⟨23, _⟩ :=
    .straight (stands_part 21 2) rfl
  have hjump (t : State μ) : Goes place range ⟨23, t⟩ ⟨17, t⟩ :=
    .jump (stands_part 23 1) rfl
  have hlabel (t : State μ) : Goes place range ⟨17, t⟩ ⟨18, t⟩ :=
    .straight (stands_part 17 1) rfl
  have hround := ((hs₁.trans hpass).trans hstored).trans ((hmore.trans (hjump _)).trans (hlabel _))
  refine ⟨_, hround, h₁.rax, h₁.rcx, ?_, ?_, hfilled⟩
  · change s₁.get .rdx + 1 = _
    rw [h₁.rdx, Int64.ofNat_add, ← Int64.add_assoc]
    rfl
  · change s₁.get .rsi + 1 = _
    rw [h₁.rsi, UInt64.ofNat_add]
    rfl

/-- All items are stored. -/
theorem Filling.rest [Lawful μ] (h : Filling a n start k s) (hk : k ≤ n) :
  ∃ s', Goes place range ⟨18, s⟩ ⟨25, s'⟩ ∧ s'.get .rax = a ∧ Filled s'.memory a n start n
  := by
  induction hleft : n - k generalizing k s with
  | zero =>
    obtain rfl : k = n := by omega
    obtain ⟨s₁, hs₁, h₁, hflags⟩ := h.compared place hroom hk
    have hjump : Goes place range ⟨19, s₁⟩ ⟨24, s₁⟩ :=
      .branch (stands_part 19 1) (by rw [hflags, decide_eq_true hk]) rfl
    have hlabel : Goes place range ⟨24, s₁⟩ ⟨25, s₁⟩ :=
      .straight (stands_part 24 1) rfl
    exact ⟨s₁, (hs₁.trans hjump).trans hlabel, h₁.rax, h₁.filled⟩
  | succ left ih =>
    obtain ⟨s₁, hs₁, h₁⟩ := h.next place hroom (by omega)
    obtain ⟨s', hs', hrest⟩ := ih h₁ (by omega) (by omega)
    exact ⟨s', hs₁.trans hs', hrest⟩

end

/-- The routine for memory has come back with a block of so many words.  It has left the two words
on top of the stack as they were. -/
structure Provided (s s' : State μ) (a : UInt64) (words : Nat) : Prop where
  rax : s'.get .rax = a
  rsp : s'.get .rsp = s.get .rsp
  stack : ∀ i < 16, load? s'.memory (s.get .rsp + .ofNat i) = load? s.memory (s.get .rsp + .ofNat i)
  room : a.toNat + 8 * words ≤ 2 ^ 64
  writable : ∀ i < 8 * words, Writable s'.memory (a + .ofNat i)

/-- In the block the list is made. -/
theorem exists_listed [Lawful μ] {place : String → UInt64}
    (hstacked : Stacked top 2 s₀ s₁ [start.toUInt64, .ofNat n]) (h : Provided s₁ s a (n + 1)) :
  ∃ s', Goes place range ⟨13, s⟩ ⟨25, s'⟩ ∧ range[25]? = some .ret ∧ s'.get .rax = a ∧
    Filled s'.memory a n start n
  := by
  have hkeep (j : Nat) (hj : j < 2) : loadWord? s.memory (s.get .rsp + .ofNat (8 * j)) =
      loadWord? s₁.memory (Code.cell top 2 + .ofNat (8 * j)) := by
    rw [h.rsp, ← show s₁.get .rsp = Code.cell top 2 from hstacked.rsp]
    apply Memory.loadWord?_congr
    intro i hi
    rw [add_assoc, ← UInt64.ofNat_add]
    exact h.stack _ (by omega)
  have hlength : loadWord? s.memory (s.get .rsp) = some (.ofNat n) := by
    have hwords := hstacked.words 1 _ rfl
    simpa [hwords] using hkeep 0 (by decide)
  have hfirst : loadWord? s.memory (s.get .rsp + 8) = some start.toUInt64 := by
    rw [show (8 : UInt64) = .ofNat (8 * 1) from rfl, hkeep 1 (by decide), ← hstacked.words 0 _ rfl]
    exact congrArg _ Code.cell_succ_add
  obtain ⟨m, hm, hstored⟩ := Memory.exists_storeWord? (m := s.memory) (a := a)
    (fun i hi => h.writable i (by omega)) (.ofNat n)
  have hrax : a = s.get .rax + 0 + 0 := by
    rw [add_zero, add_zero, h.rax]
  rw [hrax] at hm
  obtain ⟨s₃, hgoes, hfilling⟩ : ∃ s₃, Goes place range ⟨13, s⟩ ⟨18, s₃⟩ ∧
      Filling a n start 0 s₃ := by
    refine ⟨_, .trans (Goes.pop (stands_part 13 1) rfl hlength) (.trans (Goes.pop (stands_part 14 1)
      (by simp) hfirst) (.trans (Goes.store (stands_part 15 1) hm) (Goes.straight (stands_part 16 2)
      rfl))), h.rax, rfl, ?_, UInt64.xor_self, hstored.load, by simp,
      fun i hi => hstored.writable _ (h.writable i hi)⟩
    change start.toUInt64 = (start + 0).toUInt64
    rw [Int64.add_zero]
  obtain ⟨s', hs', hdone⟩ := hfilling.rest place h.room (Nat.zero_le n)
  exact ⟨s', hgoes.trans hs', rfl, hdone⟩

/-- The list stands in memory: its length and then its items. -/
structure IsList (m : μ) (a : UInt64) (items : List Int64) : Prop where
  length : loadWord? m a = some (.ofNat items.length)
  items : ∀ (k : Nat) v, items[k]? = some v →
    loadWord? m (a + .ofNat (8 * (k + 1))) = some v.toUInt64

/-- The routine makes the list if it is provided with a block for it. -/
def Lists (place : String → UInt64) (s : State μ) (items : List Int64) : Prop :=
  ∃ s₁, Goes place range ⟨0, s⟩ ⟨12, s₁⟩ ∧ range[12]? = some (.call "__aim_alloc") ∧
    s₁.get .rdi = .ofNat (8 * (items.length + 1)) ∧
    ∀ s₂ a, Provided s₁ s₂ a (items.length + 1) →
      ∃ s₃, Goes place range ⟨13, s₂⟩ ⟨25, s₃⟩ ∧ range[25]? = some .ret ∧ s₃.get .rax = a ∧
        IsList s₃.memory a items

/-- The routine lists the numbers of a range. -/
theorem RangeCalled.lists [Lawful μ] (h : RangeCalled start stop s) :
  Lists place s (consecutive start (itemCount start stop))
  := by
  rw [Lists, length_consecutive]
  obtain ⟨s₁, hs₁, hcall, hrdi, hstacked⟩ := h.exists_asked
  refine ⟨s₁, hs₁, hcall, hrdi, ?_⟩
  intro s₂ a hprovided
  obtain ⟨s₃, hs₃, hret, hrax, hfilled⟩ := exists_listed hstacked hprovided
  refine ⟨s₃, hs₃, hret, hrax, ?_, ?_⟩
  · rw [hfilled.length, length_consecutive]
  · intro k v hv
    have hk := (List.getElem?_eq_some_iff.mp hv).1
    rw [length_consecutive] at hk
    rw [getElem?_consecutive start hk] at hv
    cases hv
    exact hfilled.items k hk

end Routine

/-! ### Counting and listing -/

open Lowering Routine

/-- The exact and the wrapped difference of the bounds allow the same number of values just when the
exact one is a number of 64 bits. -/
theorem consecutive_eq_iff :
  consecutive first (last.toInt - first.toInt).toNat = consecutive first (itemCount first last) ↔
    -2 ^ 63 ≤ last.toInt - first.toInt ∧ last.toInt - first.toInt < 2 ^ 63
  := by
  have hlengths : consecutive first (last.toInt - first.toInt).toNat =
      consecutive first (itemCount first last) ↔
      (last.toInt - first.toInt).toNat = itemCount first last := by
    constructor
    · intro h
      rw [← length_consecutive (last.toInt - first.toInt).toNat, h, length_consecutive]
    · intro h
      rw [h]
  have := first.toInt_lt
  have := last.le_toInt
  rw [hlengths, itemCount, Int64.toInt_sub, Int.bmod_def]
  split <;> omega

/-- A loop over a range and the list of the range have the same values just when the difference of
the bounds is a number of 64 bits. -/
theorem counted_eq_listed_iff {μ : Type} [Memory μ] [Memory.Lawful μ] {env : Env} {s b : State}
    {x : String} {start stop : Ir.Operand} {body : Loop → Lower PUnit} {code : List Ir.Instr}
    {w : Ir.Words} {first last : Int64}
    (hloop : Counting env s b x start stop body code w first last)
    (place : String → UInt64) {t : Machine.State μ} (hcall : RangeCalled first last t) :
  ∃ items items', Counts env s b x start stop body code w items ∧ Lists place t items' ∧
    (items = items' ↔ -2 ^ 63 ≤ last.toInt - first.toInt ∧ last.toInt - first.toInt < 2 ^ 63)
  := ⟨_, _, hloop.counts, hcall.lists, consecutive_eq_iff⟩

/-- Inside of a loop over a range. -/
def idling (first last : Int64) : State :=
  Lower.countInside ⟨[], []⟩ (.slot "i") (.int first) (.int last) 1 untouched

/-- The loop with an empty body. -/
def idleLoop (first last : Int64) : List Ir.Instr :=
  (idled first last 1).code.toList

theorem counting_idling :
  Counting ⟨[], []⟩ untouched (idling first last) "i" (.int first) (.int last) (fun _ => pure ⟨⟩)
    (idleLoop first last) (fun _ => none) first last
  := by
  refine ⟨rfl, prefix_rfl, prefix_rfl, nodup_idled, ?_, rfl, rfl, trivial⟩
  apply (rangeLoop_idled (by decide) (e := .literal default (.int 1)) rfl
    default).returns prefix_rfl
  apply completes_idled

/-- A call for the list of a range. -/
def askingFor (first last : Int64) : Machine.State Ram where
  regs := { rdi := first.toUInt64, rsi := last.toUInt64, rsp := 0x8000 }
  xmms := .replicate 16 0
  flags := {}
  memory := ⟨fun _ => 0⟩

theorem rangeCalled_askingFor (first last : Int64) :
  RangeCalled first last (askingFor first last)
  := ⟨rfl, rfl, show 16 ≤ (0x8000 : UInt64).toNat by decide, fun _ _ _ _ => ⟨_, rfl⟩⟩

theorem twoToFive_counted_eq_listed :
  ∃ items, Counts ⟨[], []⟩ untouched (idling 2 5) "i" (.int 2) (.int 5) (fun _ => pure ⟨⟩)
      (idleLoop 2 5) (fun _ => none) items ∧
    Lists (fun _ => 0) (askingFor 2 5) items
  := by
  obtain ⟨items, items', hcounts, hlists, hiff⟩ := counted_eq_listed_iff counting_idling
    (fun _ => 0) (rangeCalled_askingFor 2 5)
  obtain rfl := hiff.mpr (by decide)
  exact ⟨items, hcounts, hlists⟩

/-- From the greatest number to the least, a loop has no values but the list has one. -/
theorem greatestToLeast_counted_ne_listed :
  Counts ⟨[], []⟩ untouched (idling Int64.maxValue Int64.minValue) "i" (.int Int64.maxValue)
      (.int Int64.minValue) (fun _ => pure ⟨⟩) (idleLoop Int64.maxValue Int64.minValue)
      (fun _ => none) [] ∧
    Lists (fun _ => 0) (askingFor Int64.maxValue Int64.minValue) [Int64.maxValue]
  := ⟨counting_idling.counts, (rangeCalled_askingFor _ _).lists⟩

end Endmark
