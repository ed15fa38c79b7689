import Endmark.Proofs.Code.Frame

/-!
# The start and the end of functions

The prologue of a function makes its frame and brings the arguments to the places of the
parameters.  The epilogue restores what belongs to the caller.
-/

namespace Endmark.Code.Frame

open UInt64
open List Option
open Machine (Reg Inst Mem State Memory straight? straight?_append_of)
open Machine.Memory (Writable Lawful loadWord? load? Stored)

variable [Memory μ] {f : Frame} {s₀ s : State μ}

/-! ### The epilogue -/

/-- Registers are restored from the words on the stack. -/
theorem straight?_pops {value : Reg → UInt64} {rs : List Reg} (hrsp : .rsp ∉ rs)
    (htop : s.get .rsp = cell top (base + rs.length))
    (hwords : ∀ i r, rs[i]? = some r →
      loadWord? s.memory (cell top (base + rs.length - i)) = some (value r)) :
  ∃ s', straight? place (rs.map .pop) s = some s' ∧ s'.get .rsp = cell top base ∧
    s'.memory = s.memory ∧ (∀ r ∈ rs, s'.get r = value r) ∧
    ∀ r ∉ rs, r ≠ .rsp → s'.get r = s.get r
  := by
  induction rs generalizing s with
  | nil => exact ⟨s, rfl, htop, rfl, by simp, fun _ _ _ => rfl⟩
  | cons r rest ih =>
    rw [mem_cons, not_or] at hrsp
    have hword : s.load (s.get .rsp) = .ok (value r) := by
      have hfirst := hwords 0 r rfl
      rw [Nat.sub_zero, ← htop] at hfirst
      simp [State.load, hfirst]
    let s₁ := (s.set .rsp (s.get .rsp + 8)).set r (value r)
    have hpop : Inst.exec place (.pop r) s = .ok (s₁, .next) := by
      simp only [Inst.exec, State.pop, hword]
      rfl
    have htop₁ : s₁.get .rsp = cell top (base + rest.length) := by
      rw [State.get_set_of_ne _ hrsp.1, State.get_set_self, htop, length_cons,
        ← add_assoc, cell_succ_add]
    obtain ⟨s', hs', htop', hmemory, hrest, hothers⟩ := ih hrsp.2 htop₁ (by
      intro i r' hr'
      have := hwords (i + 1) r' hr'
      rw [length_cons, ← add_assoc, Nat.add_sub_add_right] at this
      exact this)
    refine ⟨s', ?_, htop', hmemory, ?_, ?_⟩
    · rw [map_cons, straight?, hpop]
      exact hs'
    · intro r' hr'
      by_cases hmem : r' ∈ rest
      · exact hrest r' hmem
      · obtain rfl := (mem_cons.mp hr').resolve_right hmem
        rw [hothers r' hmem (symm hrsp.1), State.get_set_self]
    · intro r' hr' hne
      rw [mem_cons, not_or] at hr'
      rw [hothers r' hr'.2 hne, State.get_set_of_ne _ hr'.1, State.get_set_of_ne _ hne]

/-- The epilogue restores what belongs to the caller. -/
theorem straight?_epilogue (h : f.Inside s₀ s) (hroom : f.Room s₀) (hserves : f.Served) :
  ∃ block s', f.epilogue = block ++ [.ret] ∧ straight? place block s = some s' ∧
    s'.get .rax = s.get .rax ∧ s'.get .rsp = s₀.get .rsp ∧ s'.get .rbp = s₀.get .rbp ∧
    (∀ r ∈ Allocation.registers, s'.get r = s₀.get r) ∧ s'.memory = s.memory
  := by
  have hnot (r : Reg) (hr : r ∉ Allocation.registers) : r ∉ f.allocation.saved.reverse := by
    rw [mem_reverse]
    exact fun hmem => hr (hserves.ordered.subset hmem)
  have hsmall := hroom.small
  rw [size] at hsmall
  -- the stack pointer is set to the last saved register
  let s₁ := s.set .rsp (cell (s₀.get .rsp) (1 + f.allocation.saved.reverse.length))
  have hlea : straight? place [.label epilogueLabel,
      .lea .rsp (.offset .rbp (.ofInt (-8 * (f.allocation.saved.length : Int))))] s =
      some s₁ := by
    have hdisp : (-8 * (f.allocation.saved.length : Int)) =
        -((8 * f.allocation.saved.length : Nat) : Int) := by
      omega
    have haddress : s.address place (.offset .rbp
        (.ofInt (-8 * (f.allocation.saved.length : Int)))) =
        cell (s₀.get .rsp) (1 + f.allocation.saved.reverse.length) := by
      rw [Mem.offset, State.address, h.rbp, hdisp, toUInt64_ofInt_neg (by omega),
        ← cell_sub]
      simp [sub_eq_add_neg]
    simp only [straight?, Inst.exec, haddress]
    rfl
  have hrsp₁ : s₁.get .rsp = cell (s₀.get .rsp) (1 + f.allocation.saved.reverse.length) := by
    rw [State.get_set_self]
  have hwords : ∀ i r, f.allocation.saved.reverse[i]? = some r →
      loadWord? s₁.memory (cell (s₀.get .rsp) (1 + f.allocation.saved.reverse.length - i)) =
        some (s₀.get r) := by
    intro i r hr
    have hlt := (List.getElem?_eq_some_iff.mp hr).1
    rw [length_reverse] at hlt
    rw [getElem?_reverse hlt] at hr
    have hword := h.saved _ r hr
    have hcell : f.allocation.saved.length - 1 - i + 2 = 1 + f.allocation.saved.length - i := by
      omega
    rw [hcell] at hword
    rw [length_reverse]
    exact hword
  obtain ⟨s₂, hpops, hrsp₂, hmemory₂, hsaved, hothers⟩ :=
    straight?_pops (hnot _ (by decide)) hrsp₁ hwords
  have hcaller : ∀ i r, [.rbp][i]? = some r →
      loadWord? s₂.memory (cell (s₀.get .rsp) (0 + [Reg.rbp].length - i)) = some (s₀.get r) := by
    intro i r hr
    obtain ⟨rfl, rfl⟩ : i = 0 ∧ r = .rbp := by
      cases i with
      | zero => exact ⟨rfl, (some.inj hr).symm⟩
      | succ i => cases hr
    rw [hmemory₂]
    exact h.caller
  have hrsp : Reg.rsp ∉ [.rbp] := by decide
  obtain ⟨s₃, hpop, hrsp₃, hmemory₃, hrbp, hothers₃⟩ :=
    straight?_pops hrsp hrsp₂ hcaller
  have hget (r : Reg) (hrsp : r ≠ .rsp) (hrbp : r ≠ .rbp) : s₃.get r = s₂.get r :=
    hothers₃ r (by simpa using hrbp) hrsp
  refine ⟨_, s₃, ?_, straight?_append_of (straight?_append_of hlea hpops) hpop, ?_, ?_,
    hrbp _ (by simp), ?_, ?_⟩
  · rw [append_assoc]
    rfl
  · rw [hget _ (by decide) (by decide), hothers _ (hnot _ (by decide)) (by decide),
      State.get_set_of_ne _ (by decide)]
  · rw [hrsp₃, cell]
    simp
  · intro r hr
    obtain ⟨hrsp, hrbp⟩ := ne_of_mem_registers r hr
    rw [hget r hrsp hrbp]
    by_cases hmem : r ∈ f.allocation.saved
    · exact hsaved r (mem_reverse.mpr hmem)
    · rw [hothers r (fun hmem' => hmem (mem_reverse.mp hmem')) hrsp, State.get_set_of_ne _ hrsp]
      exact h.others r hr hmem
  · rw [hmemory₃, hmemory₂]
    rfl

/-! ### Pushing -/

/-- Words have been pushed below `top`, where there is room for `room` words, and nothing else has
changed in memory. -/
structure Stacked (top : UInt64) (room : Nat) (s₀ s : State μ) (words : List UInt64) : Prop where
  rsp : s.get .rsp = cell top words.length
  words : ∀ k v, words[k]? = some v → loadWord? s.memory (cell top (k + 1)) = some v
  writable : ∀ a : UInt64, top.toNat ≤ a.toNat + 8 * room → a.toNat < top.toNat →
    Writable s.memory a
  outside : ∀ a : UInt64, a.toNat + 8 * room < top.toNat ∨ top.toNat ≤ a.toNat →
    load? s.memory a = load? s₀.memory a

variable {words : List UInt64}

theorem Stacked.leaves (h : Stacked top room s₀ s words) (hs' : Leaves rs s s') (hrs : .rsp ∉ rs) :
  Stacked top room s₀ s' words
  := by
  obtain ⟨hrsp, hwords, hwritable, houtside⟩ := h
  rw [← hs'.memory] at hwords hwritable houtside
  exact ⟨(hs'.get _ hrs).trans hrsp, hwords, hwritable, houtside⟩

/-- A push puts one more word on the stack, where there is room. -/
theorem Stacked.pushWord [Lawful μ] (hroom : 8 * room ≤ top.toNat)
    (h : Stacked top room s₀ s words) (hlt : words.length < room) :
  ∃ s', s.push v = .ok s' ∧ Stacked top room s₀ s' (words ++ [v]) ∧ ∀ r ≠ .rsp, s'.get r = s.get r
  := by
  have htop : s.get .rsp - 8 = cell top (words.length + 1) := by
    rw [h.rsp, ← cell_sub]
    rfl
  let s₁ := s.set .rsp (s.get .rsp - 8)
  obtain ⟨m, hstore, hm⟩ := exists_store s₁ (Nat.le_add_left 1 words.length) (by omega)
    (fun a hlow hhigh => h.writable a (by omega) hhigh)
  refine ⟨{ s₁ with memory := m }, ?_, ?_, ?_⟩
  · rw [← htop] at hstore
    exact hstore
  · exact {
      rsp := by
        rw [length_append]
        exact (s.get_set_self .rsp).trans htop
      words := by
        intro k u hu
        by_cases hk : k < words.length
        · rw [getElem?_append_left hk] at hu
          rw [← h.words k u hu]
          apply loadWord?_cell_of_stored _ _ _ hm
          all_goals omega
        · have hlast := (List.getElem?_eq_some_iff.mp hu).1
          rw [length_append, length_singleton] at hlast
          obtain rfl : k = words.length := by omega
          rw [getElem?_concat_length] at hu
          cases hu
          exact hm.load
      writable := fun a hlow hhigh => hm.writable a (h.writable a hlow hhigh)
      outside := by
        intro a ha
        rw [hm.same, ← h.outside a ha]
        · rfl
        · have := top.toNat_lt
          have := a.toNat_lt
          rw [UInt64.toNat_sub, toNat_cell (by omega)]
          omega
    }
  · intro r' hr'
    exact s.get_set_of_ne hr'

theorem Stacked.push [Lawful μ] (hroom : 8 * room ≤ top.toNat) (h : Stacked top room s₀ s words)
    (hlt : words.length < room) :
  ∃ s', straight? place [.push r] s = some s' ∧
    Stacked top room s₀ s' (words ++ [s.get r]) ∧ ∀ r' ≠ .rsp, s'.get r' = s.get r'
  := by
  obtain ⟨s', hs', hstacked, hget⟩ := h.pushWord hroom hlt
  refine ⟨s', ?_, hstacked, hget⟩
  simp only [straight?, Inst.exec, hs']
  rfl

/-- Pushing registers puts their words on the stack in order. -/
theorem Stacked.pushes [Lawful μ] {place : String → UInt64} (hroom : 8 * room ≤ top.toNat)
    {rs : List Reg} (hrs : .rsp ∉ rs) (h : Stacked top room s₀ s words)
    (hlt : words.length + rs.length ≤ room) :
  ∃ s', straight? place (rs.map .push) s = some s' ∧
    Stacked top room s₀ s' (words ++ rs.map s.get) ∧ ∀ r ≠ .rsp, s'.get r = s.get r
  := by
  induction rs generalizing s words with
  | nil =>
    refine ⟨s, rfl, ?_, fun _ _ => rfl⟩
    rw [map_nil, append_nil]
    exact h
  | cons r rest ih =>
    rw [mem_cons, not_or] at hrs
    rw [length_cons] at hlt
    obtain ⟨s₁, hpush, h₁, hget₁⟩ := h.push hroom (by omega)
    obtain ⟨s', hpushes, h', hget⟩ := ih hrs.2 h₁ (by simp; omega)
    have hsame : rest.map s₁.get = rest.map s.get := by
      apply map_congr_left
      rintro r' hr'
      apply hget₁
      rintro rfl
      exact hrs.2 hr'
    refine ⟨s', straight?_append_of hpush hpushes, ?_, ?_⟩
    · rw [hsame, append_assoc] at h'
      exact h'
    · intro r' hr'
      rw [hget r' hr', hget₁ r' hr']

/-! ### The prologue -/

/-- The instructions of the prologue that make the frame. -/
def opening (f : Frame) : Insts :=
  [.label f.function.name, .push .rbp, .mov .rbp .rsp] ++
    f.allocation.saved.map .push ++
    (if f.slotBytes > 0 then [.aluImm .sub .rsp (.ofNat f.slotBytes)] else [])

/-- The instructions that bring the parameters, from the one with the given number on, to their
places. -/
def params (f : Frame) (k : Nat) (ps : List Ir.Var) : Insts :=
  (ps.zipIdx k).flatMap fun (p, k) => f.param k p.name

/-- The stack pointer is moved by a number of bytes. -/
theorem exists_moved (place : String → UInt64) (hn : n < 2 ^ 31) (hop : op = .add ∨ op = .sub)
    (s : State μ) (htop : (op.apply (s.get .rsp) (ofNat n)).1 = some top) :
  ∃ s', straight? place (if n > 0 then [.aluImm op .rsp (.ofNat n)] else []) s = some s' ∧
    s'.get .rsp = top ∧ s'.memory = s.memory ∧ ∀ r ≠ .rsp, s'.get r = s.get r
  := by
  rcases hop with rfl | rfl
  all_goals
    cases htop
    split
    · refine ⟨_, rfl, ?_, rfl, fun r hr => s.get_set_of_ne hr⟩
      rw [← toUInt64_ofNat hn]
      exact s.get_set_self .rsp
    · obtain rfl : n = 0 := by omega
      exact ⟨s, rfl, by simp, rfl, fun _ _ => rfl⟩

/-- The frame is made, and all other registers stay as they are. -/
theorem straight?_opening [Lawful μ] (hroom : f.Room s₀) (hserves : f.Served) :
  ∃ s, straight? place f.opening s₀ = some s ∧ f.Inside s₀ s ∧
    ∀ r, r ≠ .rsp → r ≠ .rbp → s.get r = s₀.get r
  := by
  have hbelow := hroom.below
  have hsize : f.size = 1 + f.allocation.saved.length + f.slotBytes / 8 := rfl
  have hnot (r : Reg) (hr : r ∉ Allocation.registers) : r ∉ f.allocation.saved :=
    fun hmem => hr (hserves.ordered.subset hmem)
  have hstart : Stacked (s₀.get .rsp) f.size s₀ s₀ [] := by
    refine ⟨?_, by simp, hroom.writable, fun _ _ => rfl⟩
    simp [cell]
  obtain ⟨s₁, hpush, h₁, hget₁⟩ := hstart.push hbelow (by simp; omega)
  -- the frame pointer is set to where that of the caller is
  let s₂ := s₁.set .rbp (s₁.get .rsp)
  have h₂ : Stacked (s₀.get .rsp) f.size s₀ s₂ [s₀.get .rbp] := by
    refine ⟨?_, h₁.words, h₁.writable, h₁.outside⟩
    exact (s₁.get_set_of_ne (by decide)).trans h₁.rsp
  obtain ⟨s₃, hpushes, h₃, hget₃⟩ := h₂.pushes hbelow (hnot _ (by decide)) (by simp; omega)
  have hsmall := hroom.small
  obtain ⟨s₄, hlower, hrsp₄, hmemory₄, hget₄⟩ := exists_moved place (n := f.slotBytes)
    (by omega) (.inr rfl) s₃ rfl
  have hget (r : Reg) (hrsp : r ≠ .rsp) (hrbp : r ≠ .rbp) : s₄.get r = s₀.get r := by
    rw [hget₄ r hrsp, hget₃ r hrsp, State.get_set_of_ne _ hrbp, hget₁ r hrsp]
  refine ⟨s₄, ?_, ?_, hget⟩
  · have hlabel : straight? place [.label f.function.name, .push .rbp] s₀ = some s₁ := hpush
    have hmov : straight? place [.mov .rbp .rsp] s₁ = some s₂ := rfl
    exact straight?_append_of (straight?_append_of (straight?_append_of hlabel hmov) hpushes) hlower
  · have hwords (k : Nat) (v : UInt64)
        (hv : ([s₀.get .rbp] ++ f.allocation.saved.map s₂.get)[k]? = some v) :
        loadWord? s₄.memory (cell (s₀.get .rsp) (k + 1)) = some v := by
      rw [hmemory₄]
      exact h₃.words k v hv
    exact {
      rsp := by
        rw [hrsp₄, h₃.rsp, slotBytes_eq, cell_sub, hsize]
        simp [add_comm]
      rbp := by
        rw [hget₄ _ (by decide), hget₃ _ (by decide), State.get_set_self, h₁.rsp]
        rfl
      caller := hwords 0 _ rfl
      saved := by
        intro k r hr
        have hmem := mem_of_getElem? hr
        obtain ⟨hrsp, hrbp⟩ := ne_of_mem_registers r (hserves.ordered.subset hmem)
        apply hwords (k + 1)
        rw [singleton_append, getElem?_cons_succ, getElem?_map, hr, map_some,
          State.get_set_of_ne _ hrbp, hget₁ r hrsp]
      others := by
        intro r hr _
        obtain ⟨hrsp, hrbp⟩ := ne_of_mem_registers r hr
        exact hget r hrsp hrbp
      writable := by
        rw [hmemory₄]
        exact h₃.writable
      outside := by
        rw [hmemory₄]
        exact h₃.outside
    }

/-! ### Parameters -/

/-- The function is called with the arguments: six in registers, the others on the stack above the
return address, and there is room for the frame. -/
structure Called (f : Frame) (args : List Int64) (s : State μ) : Prop where
  room : f.Room s
  registers : ∀ (k : Nat) (r : Reg) (v : Int64), Reg.arguments[k]? = some r → args[k]? = some v →
    s.get r = v.toUInt64
  stack : ∀ (k : Nat) (v : Int64), args[Reg.arguments.length + k]? = some v →
    loadWord? s.memory (s.get .rsp + UInt64.ofNat (8 * (k + 1))) = some v.toUInt64
  above : (s.get .rsp).toNat + 8 * (args.length - Reg.arguments.length + 1) ≤ 2 ^ 64
  small : 8 * args.length < 2 ^ 31

/-- The variables that have been written are in their places. -/
def HoldsAll (f : Frame) (top : UInt64) (s : State μ) (w : Ir.Words) : Prop :=
  ∀ x v, w x = some v → ∃ loc, f.allocation.location? x = some loc ∧ f.Holds top s v.toUInt64 loc

/-- The words after more parameters have got their arguments. -/
def bind (w : Ir.Words) (bindings : List (Ir.Var × Int64)) : Ir.Words :=
  bindings.foldl (fun w (p, v) => Function.update w p.name (some v)) w

/-- Parameters have places, and different ones have different places. -/
theorem exists_location_param (hserves : f.Served) (hx : x ∈ f.function.params.map (·.name)) :
  ∃ loc, f.allocation.location? x = some loc ∧
    ∀ y ∈ f.function.params.map (·.name), y ≠ x → f.allocation.location? y ≠ some loc
  := by
  have hinterval {y : String} (hy : y ∈ f.function.params.map (·.name)) :
      ∃ i ∈ Ir.liveIntervals f.function, i.var = y ∧ i.Covers 0 :=
    Ir.exists_interval (Ir.mem_positions.mpr (.inl ⟨rfl, hy⟩))
  obtain ⟨i, hi, rfl, hcovers⟩ := hinterval hx
  obtain ⟨loc, hloc⟩ := (hserves.located i.var).mpr ⟨i, hi, rfl⟩
  refine ⟨loc, hloc, ?_⟩
  rintro y hy hne hloc'
  obtain ⟨j, hj, rfl, hcovers'⟩ := hinterval hy
  exact hserves.apart j hj i hi hne 0 hcovers' hcovers (hloc'.trans hloc.symm)

section

variable [Lawful μ] (place : String → UInt64) (hcalled : f.Called args s₀)

include hcalled

/-- An argument on the stack is loaded. -/
theorem straight?_argument (h : f.Inside s₀ s) (hk : Reg.arguments.length ≤ k)
    (hv : args[k]? = some v) :
  straight? place [.load .rax (.offset .rbp (.ofNat (16 + 8 * (k - Reg.arguments.length))))] s =
    some (s.set .rax v.toUInt64)
  := by
  obtain ⟨j, rfl⟩ := Nat.exists_eq_add_of_le hk
  have hlt := (List.getElem?_eq_some_iff.mp hv).1
  have hsmall := hcalled.small
  have habove := hcalled.above
  have hsix : Reg.arguments.length = 6 := rfl
  have haddress : s.address place (.offset .rbp
      (.ofNat (16 + 8 * (Reg.arguments.length + j - Reg.arguments.length)))) =
      s₀.get .rsp + ofNat (8 * (j + 1)) := by
    have hbytes : 16 + 8 * (Reg.arguments.length + j - Reg.arguments.length) =
        8 + 8 * (j + 1) := by omega
    rw [Mem.offset, State.address, h.rbp, hbytes, toUInt64_ofNat (by omega), ofNat_add]
    simp only [add_zero]
    rw [← add_assoc]
    congr 1
    apply sub_add_cancel
  have hword : loadWord? s.memory (s₀.get .rsp + ofNat (8 * (j + 1))) =
      some v.toUInt64 := by
    rw [← hcalled.stack j v hv]
    apply Memory.loadWord?_congr
    intro i hi
    apply h.outside
    have hj : (ofNat (8 * (j + 1))).toNat = 8 * (j + 1) :=
      toNat_ofNat_of_lt' (by rw [UInt64.size]; omega)
    have hi' : (ofNat i).toNat = i := toNat_ofNat_of_lt' (hi.trans (by decide))
    rw [UInt64.toNat_add, UInt64.toNat_add]
    omega
  simp only [straight?, Inst.exec, haddress, State.load, hword]
  rfl

/-- A parameter is brought to its place. -/
theorem exists_param (hserves : f.Served) (h : f.Inside s₀ s)
    (hargs : ∀ r ∈ Reg.arguments, s.get r = s₀.get r) (hv : args[k]? = some v)
     (hloc : f.allocation.location? x = some loc) :
  ∃ s₁ s', straight? place (f.param k x) s = some s' ∧ f.Kept s₀ s₁ x v.toUInt64 s' ∧
    Scratch s s₁ ∧ ∀ r ∈ Reg.arguments, s'.get r = s.get r
  := by
  have hplace : ∀ r ∈ Reg.arguments, r ∉ Allocation.registers := by decide
  have hstore {s₁ : State μ} (h₁ : f.Inside s₀ s₁) {src : Reg} (hsrc : s₁.get src = v.toUInt64) :
      ∃ s', straight? place (Location.casesOn (motive := fun _ => Insts) loc
        (fun r => [.mov r src]) fun k => [.store (f.slot k) src]) s₁ = some s' ∧
          f.Kept s₀ s₁ x v.toUInt64 s' := by
    rw [← hsrc]
    cases loc with
    | reg d => exact ⟨_, rfl, .set hserves h₁ hloc _⟩
    | slot j => exact exists_kept_slot hserves h₁ hcalled.room hloc
  rw [param, hloc]
  cases hr : Reg.arguments[k]? with
  | some r =>
    have hsrc : s.get r = v.toUInt64 := by
      rw [hargs r (mem_of_getElem? hr), hcalled.registers k r v hr hv]
    obtain ⟨s', hs', hkept⟩ := hstore h hsrc
    refine ⟨s, s', by cases loc <;> exact hs', hkept, ⟨fun _ _ => rfl, rfl, rfl⟩, ?_⟩
    intro r' hr'
    exact hkept.registers r' (hplace r' hr')
  | none =>
    have hload := straight?_argument place hcalled h (getElem?_eq_none_iff.mp hr) hv
    have hscratch : Scratch s (s.set .rax v.toUInt64) := leaves_set (by decide)
    obtain ⟨s', hs', hkept⟩ := hstore (h.scratch hscratch) (s.get_set_self .rax)
    refine ⟨_, s', straight?_append_of hload (by cases loc <;> exact hs'), hkept, hscratch, ?_⟩
    intro r' hr'
    have hne : r' ≠ .rax := by
      revert r'
      decide
    rw [hkept.registers r' (hplace r' hr'), State.get_set_of_ne _ hne]

/-- The parameters from one on are brought to their places. -/
theorem exists_params (hserves : f.Served)
    (hps : ∀ p ∈ ps, p.name ∈ f.function.params.map (·.name)) (hk : ps.length + k = args.length)
    (h : f.Inside s₀ s) (hargs : ∀ r ∈ Reg.arguments, s.get r = s₀.get r)
    (hw : f.HoldsAll (s₀.get .rsp) s w)
    (hparams : ∀ x v, w x = some v → x ∈ f.function.params.map (·.name)) :
  ∃ s', straight? place (f.params k ps) s = some s' ∧ f.Inside s₀ s' ∧
    f.HoldsAll (s₀.get .rsp) s' (bind w (ps.zip (args.drop k)))
  := by
  induction ps generalizing k s w with
  | nil => exact ⟨s, rfl, h, hw⟩
  | cons p rest ih =>
    rw [length_cons] at hk
    obtain ⟨v, hv⟩ : ∃ v, args[k]? = some v := ⟨_, getElem?_eq_getElem (by omega)⟩
    obtain ⟨loc, hloc, hapart⟩ := exists_location_param hserves (hps p mem_cons_self)
    obtain ⟨s₁, s₂, hs₂, hkept, hs₁, hsame⟩ :=
      exists_param place hcalled hserves h hargs hv hloc
    have hdrop : args.drop k = v :: args.drop (k + 1) := by
      rw [drop_eq_getElem?_toList_append, hv]
      rfl
    have hw₂ : f.HoldsAll (s₀.get .rsp) s₂ (Function.update w p.name (some v)) := by
      intro x u hu
      by_cases hx : x = p.name
      · subst hx
        rw [Function.update_self] at hu
        cases hu
        exact ⟨loc, hloc, hkept.holds loc hloc⟩
      · rw [Function.update_of_ne hx] at hu
        obtain ⟨loc', hloc', hholds⟩ := hw x u hu
        refine ⟨loc', hloc', hkept.others x loc' _ hloc' ?_ (hholds.scratch hserves hloc' hs₁)⟩
        intro heq
        apply hapart x (hparams x u hu) hx
        rw [hloc', ← heq, hloc]
    have hargs₂ : ∀ r ∈ Reg.arguments, s₂.get r = s₀.get r := by
      intro r hr
      rw [hsame r hr, hargs r hr]
    have hparams₂ : ∀ x u, Function.update w p.name (some v) x = some u →
        x ∈ f.function.params.map (·.name) := by
      intro x u hu
      by_cases hx : x = p.name
      · rw [hx]
        exact hps p mem_cons_self
      · rw [Function.update_of_ne hx] at hu
        exact hparams x u hu
    obtain ⟨s', hs', hinside, hw'⟩ := ih (k := k + 1) (fun q hq => hps q (.tail _ hq)) (by omega)
      hkept.inside hargs₂ hw₂ hparams₂
    refine ⟨s', straight?_append_of hs₂ hs', hinside, ?_⟩
    rw [hdrop]
    exact hw'

/-- The prologue makes the frame and brings the arguments to their places. -/
theorem exists_prologue (hserves : f.Served) (hargs : args.length = f.function.params.length) :
  ∃ s, straight? place f.prologue s₀ = some s ∧ f.Inside s₀ s ∧
    f.HoldsAll (s₀.get .rsp) s (f.function.start args).words
  := by
  obtain ⟨s₁, hopening, h₁, hget⟩ := straight?_opening hcalled.room hserves
  have hargs₁ : ∀ r ∈ Reg.arguments, s₁.get r = s₀.get r := by
    intro r hr
    have hr' : r ≠ .rsp ∧ r ≠ .rbp := by
      revert r
      decide
    exact hget r hr'.1 hr'.2
  have hps : ∀ p ∈ f.function.params, p.name ∈ f.function.params.map (·.name) := fun p hp =>
    mem_map_of_mem hp
  obtain ⟨s, hparams, h, hw⟩ := exists_params place hcalled hserves hps (k := 0) (by omega)
    (w := fun _ => none) h₁ hargs₁ (fun _ _ hv => nomatch hv) (fun _ _ hv => nomatch hv)
  exact ⟨s, straight?_append_of hopening hparams, h, hw⟩

end

end Endmark.Code.Frame
