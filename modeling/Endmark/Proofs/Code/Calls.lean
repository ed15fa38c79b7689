import Endmark.Proofs.Code.Preservation

/-!
# Calls

A call brings its operands to where the prologue of the called function looks for them, and the
stack pointer is then a multiple of sixteen.  After a function that keeps to its own part of the
stack, the caller finds its frame as it was.
-/

namespace Endmark.Code.Frame

open Allocation
open List
open Machine (Reg Inst Mem State Memory straight? straight?_append_of)
open Machine.Memory (Writable Lawful loadWord? load? Stored)
open Ir (Operand)

variable [Memory μ] {f g : Frame} {s : State μ}

/-! ### Operands -/

/-- The operand has the value, in a frame below `top`.  A variable without a place counts as
zero. -/
def Means (f : Frame) (place : String → UInt64) (top : UInt64) (s : State μ) (v : UInt64) :
    Operand → Prop
  | .var x =>
    match f.allocation.location? x with
    | some loc => f.Holds top s v loc
    | none => v = 0
  | .global name => loadWord? s.memory (place (globalSymbol name)) = some v
  | .int i => v = i.toUInt64
  | .float x => v = x.bits
  | .bool b => v = if b then 1 else 0
  | .str k => v = place (stringSymbol k)

/-- The operands have the values. -/
abbrev MeansAll (f : Frame) (place : String → UInt64) (top : UInt64) (s : State μ) :
    List Operand → List UInt64 → Prop :=
  List.Forall₂ fun o v => f.Means place top s v o

@[inherit_doc MeansAll]
abbrev ReadsAll (f : Frame) (place : String → UInt64) (s : State μ) :
    List Operand → List UInt64 → Prop :=
  List.Forall₂ fun o v => f.Reads place s v o

section

variable (hserves : f.Served)

include hserves

/-- What operands mean in a frame is what they stand for in the code. -/
theorem Means.reads (ho : f.Means place top s v o)
    (hrbp : s.get .rbp = cell top 1) (hsmall : 8 * f.size < 2 ^ 31) :
  f.Reads place s v o
  := by
  cases o with
  | var x =>
    rw [Means] at ho
    rw [Reads]
    cases hloc : f.allocation.location? x with
    | none =>
      rw [hloc] at ho
      exact ho
    | some loc =>
      rw [hloc] at ho
      cases loc with
      | reg r => exact ho
      | slot k =>
        simp only [address_slot_of_rbp hrbp hsmall ((hserves.slots k).mp ⟨x, hloc⟩)]
        exact ho
  | global name => exact ho
  | _ => exact ho.symm

/-- Operands are brought into registers that are neither places nor the stack or frame pointer. -/
theorem exists_loadedAll (rs : List Reg) (hrs : rs.Nodup)
    (hfree : ∀ r ∈ rs, r ∉ .rbp :: registers) (hos : f.ReadsAll place s os vs) :
  ∃ s', straight? place ((os.zip rs).flatMap fun (o, r) => f.load r o) s = some s' ∧
    (∀ (k : Nat) r v, rs[k]? = some r → vs[k]? = some v → s'.get r = v) ∧ Leaves rs s s'
  := by
  induction os generalizing vs rs s with
  | nil =>
    cases hos
    exact ⟨s, rfl, by simp, fun _ _ => rfl, rfl, rfl⟩
  | cons o os ih =>
    obtain _ | ⟨ho, hos⟩ := hos
    rename_i v vs
    cases rs with
    | nil => exact ⟨s, rfl, by simp, fun _ _ => rfl, rfl, rfl⟩
    | cons r rs =>
      obtain ⟨hr, hrs⟩ := nodup_cons.mp hrs
      obtain ⟨s₁, hs₁, hvalue, hleaves⟩ := exists_load ho r
      have hos₁ : f.ReadsAll place s₁ os vs := by
        refine hos.imp fun o v ho => ho.keep hserves (fun r' hr' => hleaves.get r' ?_) ?_ ?_
        · rw [mem_singleton]
          rintro rfl
          exact hfree r' mem_cons_self hr'
        all_goals simp only [hleaves.memory, implies_true]
      obtain ⟨s', hs', hvalues, hleaves'⟩ := ih rs hrs (fun r' hr' => hfree r' (.tail _ hr')) hos₁
      refine ⟨s', straight?_append_of hs₁ hs', ?_,
        (hleaves.mono (by simp)).trans (hleaves'.mono (subset_cons_self r rs))⟩
      rintro (_ | k) r' v' hr' hv'
      · cases hr'
        cases hv'
        rw [hleaves'.get _ hr, hvalue]
      · exact hvalues k r' v' hr' hv'

end

/-- Operands are pushed, while the registers and words that they may be in stay. -/
theorem exists_pushedAll [Lawful μ] (hroom : 8 * room ≤ low.toNat)
    (hos : f.ReadsAll place s os vs) (h : Stacked low room s t words)
    (hlt : words.length + os.length ≤ room) (hregs : ∀ r, r ≠ .rsp → r ≠ .rax → t.get r = s.get r)
    (hkeep : ∀ t : State μ, (∀ a : UInt64, a.toNat + 8 * room < low.toNat ∨ low.toNat ≤ a.toNat →
      load? t.memory a = load? s.memory a) → (∀ r ∈ .rbp :: registers, t.get r = s.get r) →
      ∀ o v, o ∈ os → f.Reads place s v o → f.Reads place t v o) :
  ∃ s', straight? place (os.flatMap fun o => f.load .rax o ++ [.push .rax]) t = some s' ∧
    Stacked low room s s' (words ++ vs) ∧ ∀ r, r ≠ .rsp → r ≠ .rax → s'.get r = s.get r
  := by
  induction hos generalizing t words with
  | nil =>
    refine ⟨t, rfl, ?_, hregs⟩
    rw [append_nil]
    exact h
  | @cons o v os vs ho hos ih =>
    rw [length_cons] at hlt
    have hplaces : ∀ r ∈ .rbp :: registers, r ≠ .rsp ∧ r ≠ .rax := by decide
    have ho' := hkeep t h.outside (fun r hr => hregs r (hplaces r hr).1 (hplaces r hr).2) o v
      mem_cons_self ho
    obtain ⟨t₁, ht₁, hvalue, hleaves⟩ := exists_load ho' .rax
    have h₁ := h.leaves hleaves (by decide)
    obtain ⟨t₂, ht₂, h₂, hget⟩ := h₁.push hroom (by omega)
    rw [hvalue] at h₂
    obtain ⟨s', hs', hstacked, hregs'⟩ := ih h₂ (by simp; omega) (by
      intro r hrsp hrax
      rw [hget r hrsp, hleaves.get r (by simpa using hrax), hregs r hrsp hrax])
      fun t ht hr o v ho => hkeep t ht hr o v (.tail _ ho)
    refine ⟨s', straight?_append_of (straight?_append_of ht₁ ht₂) hs', ?_, hregs'⟩
    rw [append_assoc] at hstacked
    exact hstacked

/-! ### Calling -/

/-- The arguments past the sixth. -/
def onStack {α : Type} (args : List α) : List α :=
  args.drop Reg.arguments.length

theorem length_onStack {args : List α} :
  (onStack args).length = args.length - 6
  := length_drop

/-- The words on the stack for the arguments past the sixth, which are padded to an even number. -/
def argumentWords (args : List Operand) : Nat :=
  (onStack args).length + (onStack args).length % 2

/-- The instructions in front of a call. -/
def handover (f : Frame) (args : List Operand) : Insts :=
  (if (onStack args).length % 2 = 1 then [.aluImm .sub .rsp 8] else []) ++
    (onStack args).reverse.flatMap (fun a => f.load .rax a ++ [.push .rax]) ++
    (args.zip Reg.arguments).flatMap fun (a, r) => f.load r a

/-- The instruction behind a call, if there is one. -/
def cleanup (args : List Operand) : Insts :=
  if 8 * argumentWords args > 0 then [.aluImm .add .rsp (.ofNat (8 * argumentWords args))] else []

/-- The words on the stack that a call takes before the body of the called function. -/
def depth (g : Frame) (args : List Operand) : Nat :=
  argumentWords args + 1 + g.size

/-- The byte is none of those that a call takes on the stack. -/
def Spared (g : Frame) (args : List Operand) (s : State μ) (a : UInt64) : Prop :=
  a.toNat + 8 * g.depth args < (s.get .rsp).toNat ∨ (s.get .rsp).toNat ≤ a.toNat

/-- A call of a function can be made in a frame below `top`: the operands have values, none of which
is on the part of the stack that is taken, and there is room. -/
structure Ready (f g : Frame) (place : String → UInt64) (top : UInt64) (args : List Operand)
    (values : List Int64) (s : State μ) : Prop where
  rsp : s.get .rsp = cell top f.size
  rbp : s.get .rbp = cell top 1
  frame : 8 * f.size ≤ top.toNat ∧ 8 * f.size < 2 ^ 31
  means : f.MeansAll place top s args (values.map (·.toUInt64))
  globals : ∀ name, .global name ∈ args → ∀ i < 8,
    g.Spared args s (place (globalSymbol name) + UInt64.ofNat i)
  below : 8 * g.depth args ≤ (s.get .rsp).toNat
  small : 8 * (args.length + g.size) < 2 ^ 31
  writable : ∀ a, ¬ g.Spared args s a → Writable s.memory a

/-- The stack pointer is moved down by a word if the number of words is odd. -/
theorem exists_padded (n : Nat) (s : State μ) :
  ∃ s', straight? place (if n % 2 = 1 then [.aluImm .sub .rsp 8] else []) s = some s' ∧
    s'.get .rsp = cell (s.get .rsp) (n % 2) ∧ s'.memory = s.memory ∧ ∀ r ≠ .rsp, s'.get r = s.get r
  := by
  have hmoved := exists_moved place (n := 8 * (n % 2)) (by omega) (.inr rfl) s rfl
  rcases Nat.mod_two_eq_zero_or_one n with h | h
  all_goals
    rw [h] at hmoved ⊢
    exact hmoved

/-- The words that operands may be in are not where arguments are pushed. -/
theorem Ready.reads_of_outside [Lawful μ] {t : State μ} (hserves : f.Served)
    (h : Ready f g place top args values s) (hn : (onStack args).length = n)
    (houtside : ∀ a : UInt64,
      a.toNat + 8 * (n + 1 + g.size) < (cell (s.get .rsp) (n % 2)).toNat ∨
        (cell (s.get .rsp) (n % 2)).toNat ≤ a.toNat → load? t.memory a = load? s.memory a)
    (hregs : ∀ r ∈ .rbp :: registers, t.get r = s.get r) (ho : o ∈ args)
    (hv : f.Reads place s v o) :
  f.Reads place t v o
  := by
  obtain ⟨hrsp, hrbp, ⟨hframe, hsmall⟩, -, hglobals, hbelow, -, -⟩ := h
  have hdepth : g.depth args = n % 2 + (n + 1 + g.size) := by
    rw [depth, argumentWords, hn]
    omega
  simp only [Spared] at hglobals hbelow
  have hlow : (cell (s.get .rsp) (n % 2)).toNat = (s.get .rsp).toNat - 8 * (n % 2) :=
    toNat_cell (by omega)
  have hbase : (s.get .rsp).toNat = top.toNat - 8 * f.size := by
    rw [hrsp, toNat_cell hframe]
  apply hv.keep hserves hregs
  · intro k hk
    rw [address_slot_of_rbp hrbp hsmall hk]
    apply Memory.loadWord?_congr
    intro i hi
    have hcell := slotCell_le_size hk
    have hpos : 1 ≤ f.slotCell k := by
      rw [slotCell]
      omega
    apply houtside
    rw [toNat_cell_add hi hpos (by omega)]
    omega
  · rintro name rfl
    apply Memory.loadWord?_congr
    intro i hi
    have := hglobals name ho i hi
    apply houtside
    omega

/-- The operands are brought to where the called function looks for them. -/
theorem exists_handedOver [Lawful μ] (hserves : f.Served) (h : Ready f g place top args values s) :
  ∃ s', straight? place (f.handover args) s = some s' ∧
    Stacked (cell (s.get .rsp) ((onStack args).length % 2))
      ((onStack args).length + 1 + g.size) s s'
      (onStack (values.map (·.toUInt64))).reverse ∧
    (∀ (k : Nat) r (v : Int64), Reg.arguments[k]? = some r → values[k]? = some v →
      s'.get r = v.toUInt64) ∧
    ∀ r ∈ .rbp :: registers, s'.get r = s.get r
  := by
  have hkeep t o v := h.reads_of_outside hserves rfl (t := t) (o := o) (v := v)
  obtain ⟨hrsp, hrbp, ⟨hframe, hsmall⟩, hmeans, -, hbelow, -, hwritable⟩ := h
  generalize hn : (onStack args).length = n at hkeep ⊢
  have hdepth : g.depth args = n % 2 + (n + 1 + g.size) := by
    rw [depth, argumentWords]
    omega
  simp only [Spared] at hbelow hwritable
  have hlow : (cell (s.get .rsp) (n % 2)).toNat = (s.get .rsp).toNat - 8 * (n % 2) :=
    toNat_cell (by omega)
  have hbase : (s.get .rsp).toNat = top.toNat - 8 * f.size := by
    rw [hrsp, toNat_cell hframe]
  obtain ⟨s₁, hs₁, hrsp₁, hmemory₁, hget₁⟩ := exists_padded n s
  have hstart : Stacked (cell (s.get .rsp) (n % 2)) (n + 1 + g.size) s s₁ [] := by
    refine ⟨?_, by simp, ?_, by simp [hmemory₁]⟩
    · rw [hrsp₁]
      simp [cell]
    · intro a hlow' hhigh
      rw [hmemory₁]
      apply hwritable
      omega
  have hreads : f.ReadsAll place s args (values.map (·.toUInt64)) :=
    hmeans.imp fun _ _ ho => ho.reads hserves hrbp hsmall
  have hpushed : f.ReadsAll place s (onStack args).reverse
      (onStack (values.map (·.toUInt64))).reverse :=
    forall₂_reverse_iff.mpr (forall₂_drop Reg.arguments.length hreads)
  obtain ⟨s₂, hs₂, hstacked, hget₂⟩ := exists_pushedAll (by omega) hpushed
    hstart (by simp only [length_nil, length_reverse]; omega)
    (fun r hr _ => hget₁ r hr)
    (fun t ht hregs o v ho => hkeep t o v ht hregs (mem_of_mem_drop (mem_reverse.mp ho)))
  have hplaces : ∀ r ∈ .rbp :: registers, r ≠ .rsp ∧ r ≠ .rax ∧ r ∉ Reg.arguments := by
    decide
  have hregs₂ (r : Reg) (hr : r ∈ .rbp :: registers) : s₂.get r = s.get r :=
    hget₂ r (hplaces r hr).1 (hplaces r hr).2.1
  have hreads₂ : f.ReadsAll place s₂ args (values.map (·.toUInt64)) := by
    apply ((forall₂_and_left args _).mpr ⟨fun _ ho => ho, hreads⟩).imp
    rintro o v ⟨ho, hv⟩
    exact hkeep s₂ o v hstacked.outside hregs₂ ho hv
  obtain ⟨s', hs', hvalues, hleaves⟩ :=
    exists_loadedAll hserves Reg.arguments (by decide) (by decide) hreads₂
  refine ⟨s', ?_, hstacked.leaves hleaves (by decide), ?_, ?_⟩
  · rw [handover, hn]
    exact straight?_append_of (straight?_append_of hs₁ hs₂) hs'
  · intro k r v hr hv
    exact hvalues k r _ hr (by rw [getElem?_map, hv]; rfl)
  · intro r hr
    rw [hleaves.get r (hplaces r hr).2.2, hregs₂ r hr]

/-- The function is called with the values of the operands. -/
theorem called_of_stacked [Lawful μ] (h : Ready f g place top args values s)
    (hstacked : Stacked (cell (s.get .rsp) ((onStack args).length % 2))
      ((onStack args).length + 1 + g.size) s s₂
      ((onStack (values.map (·.toUInt64))).reverse ++ [back]))
    (hregs : ∀ (k : Nat) r (v : Int64), Reg.arguments[k]? = some r → values[k]? = some v →
      s₂.get r = v.toUInt64) :
  g.Called values s₂
  := by
  obtain ⟨hrsp, hrbp, -, hmeans, -, hbelow, hsmall, -⟩ := h
  have hlength : args.length = values.length := by
    rw [hmeans.length_eq, length_map]
  have hsix : Reg.arguments.length = 6 := rfl
  generalize hn : (onStack args).length = n at *
  have hn' : n = values.length - 6 := by
    rw [← hn, length_onStack, hlength]
  generalize hlow : cell (s.get .rsp) (n % 2) = low at *
  have hdepth : g.depth args = n % 2 + (n + 1 + g.size) := by
    rw [depth, argumentWords]
    omega
  have hlow' : low.toNat = (s.get .rsp).toNat - 8 * (n % 2) := by
    rw [← hlow, toNat_cell (by omega)]
  have hwords : ((onStack (values.map (·.toUInt64))).reverse ++ [back]).length =
      n + 1 := by
    simp [hn', length_onStack]
  have hrsp₂ : s₂.get .rsp = cell low (n + 1) := by
    rw [hstacked.rsp, hwords]
  have htop : (s₂.get .rsp).toNat = low.toNat - 8 * (n + 1) := by
    rw [hrsp₂, toNat_cell (by omega)]
  have := (s.get .rsp).toNat_lt
  exact {
    room := by
      refine ⟨by omega, by omega, ?_⟩
      intro a hle hlt
      apply hstacked.writable <;> omega
    registers := hregs
    stack := by
      intro k v hv
      have hk := (List.getElem?_eq_some_iff.mp hv).1
      have haddress : s₂.get .rsp + .ofNat (8 * (k + 1)) = cell low (n - 1 - k + 1) := by
        have hsplit : n + 1 = n - 1 - k + 1 + (k + 1) := by omega
        rw [hrsp₂, hsplit, ← cell_sub]
        apply sub_add_cancel
      rw [haddress]
      apply hstacked.words
      have hreverse : (onStack (values.map (·.toUInt64))).length = n := by
        rw [length_onStack, length_map, hn']
      rw [getElem?_append_left (by rw [length_reverse]; omega),
        getElem?_reverse (by rw [hreverse]; omega), hreverse, onStack,
        getElem?_drop,
        getElem?_map, show n - 1 - (n - 1 - k) = k by omega, hv]
      rfl
    above := by omega
    small := by omega
  }

/-! ### Parameters -/

theorem bind_of_notMem (hx : x ∉ bindings.map (·.1.name)) (w : Ir.Words) :
  bind w bindings x = w x
  := by
  induction bindings generalizing w with
  | nil => rfl
  | cons b rest ih =>
    rw [map_cons, mem_cons, not_or] at hx
    exact (ih hx.2 _).trans (Function.update_of_ne hx.1 _ _)

/-- Parameters with different names get one argument each. -/
theorem bind_zip {ps : List Ir.Var} (hps : (ps.map (·.name)).Nodup) {k : Nat}
    (hp : ps[k]? = some p) (hv : values[k]? = some v) (w : Ir.Words) :
  bind w (ps.zip values) p.name = some v
  := by
  induction ps generalizing values k w with
  | nil => cases hp
  | cons q ps ih =>
    obtain ⟨hq, hps⟩ := nodup_cons.mp hps
    cases values with
    | nil => cases hv
    | cons u values =>
      cases k with
      | zero =>
        cases hp
        cases hv
        change bind (Function.update w p.name (some v)) (ps.zip values) p.name = some v
        rw [bind_of_notMem _ _, Function.update_self]
        intro hmem
        obtain ⟨⟨q, u⟩, hb, heq⟩ := mem_map.mp hmem
        exact hq (mem_map.mpr ⟨q, (of_mem_zip hb).1, heq⟩)
      | succ k => exact ih hps hp hv _

/-! ### Returning -/

/-- The body of a function that was called in the state `s₀` has come to its end.  It may have done
anything but to what the epilogue restores and to the stack above, as far as `top`. -/
structure Finished (g : Frame) (top : UInt64) (s₀ s : State μ) : Prop where
  inside : g.Inside { s₀ with memory := s.memory } s
  above : ∀ a : UInt64, (s₀.get .rsp).toNat ≤ a.toNat → a.toNat < top.toNat →
    load? s.memory a = load? s₀.memory a

/-- The epilogue restores what belongs to the caller, and control goes back. -/
theorem Finished.exists_returned [Lawful μ] (h : g.Finished top s₀ s) (hroom : g.Room s₀)
    (hserves : g.Served) (htop : (s₀.get .rsp).toNat + 8 ≤ top.toNat)
    (hback : loadWord? s₀.memory (s₀.get .rsp) = some back) :
  ∃ restore s₁ s₂, g.epilogue = restore ++ [.ret] ∧ straight? place restore s = some s₁ ∧
    s₁.pop = .ok (back, s₂) ∧ s₂.get .rsp = s₀.get .rsp + 8 ∧
    (∀ r ∈ .rbp :: registers, s₂.get r = s₀.get r) ∧ s₂.memory = s.memory
  := by
  obtain ⟨restore, s₁, hrestore, hs₁, -, hrsp, hrbp, hregs, hmemory⟩ :=
    straight?_epilogue h.inside ⟨hroom.below, hroom.small, h.inside.writable⟩ hserves
  have hrsp : s₁.get .rsp = s₀.get .rsp := hrsp
  have hload : s₁.load (s₁.get .rsp) = .ok back := by
    have hword : loadWord? s₁.memory (s₁.get .rsp) = some back := by
      rw [← hback, hrsp, hmemory]
      apply Memory.loadWord?_congr
      intro i hi
      have := top.toNat_lt
      apply h.above
      all_goals
        rw [UInt64.toNat_add, UInt64.toNat_ofNat_of_lt' (hi.trans (by decide))]
        omega
    simp [State.load, hword]
  refine ⟨restore, s₁, s₁.set .rsp (s₁.get .rsp + 8), hrestore, hs₁, ?_, ?_, ?_, hmemory⟩
  · simp only [State.pop, hload]
    rfl
  · rw [State.get_set_self, hrsp]
  · intro r hr
    have hne : r ≠ .rsp := by
      revert r
      decide
    rw [State.get_set_of_ne _ hne]
    obtain rfl | hr := mem_cons.mp hr
    · exact hrbp
    · exact hregs r hr

/-- With the return address, the frames of functions have an even number of words. -/
theorem size_odd (f : Frame) :
  f.size % 2 = 1
  := by
  rw [size, slotBytes]
  omega

/-- A function calls another one with as many arguments as that has parameters.  At the call the
stack pointer is a multiple of sixteen, and after the prologue of the called function each
parameter has its value.  When that function has come to its end, control goes back, and the stack
pointer, the frame pointer, all places in registers and all words of the frame of the caller are as
before. -/
theorem call_keeps_convention [Lawful μ] (m : Ir.Module) (caller callee : Ir.Function)
    (hparams : (callee.params.map (·.name)).Nodup) (haligned : top.toNat % 16 = 8)
    {args : List Operand} (hargs : args.length = callee.params.length) {values : List Int64}
    (hready : Ready (ofFunction m caller) (ofFunction m callee) place top args values s)
    (back : UInt64) :
  ∃ before after s₁ s₂ s₃,
    (ofFunction m caller).call callee.name args = before ++ [.call callee.name] ++ after ∧
    straight? place before s = some s₁ ∧ (s₁.get .rsp).toNat % 16 = 0 ∧
    s₁.push back = .ok s₂ ∧ straight? place (ofFunction m callee).prologue s₂ = some s₃ ∧
    (∀ (k : Nat) p v loc, callee.params[k]? = some p → values[k]? = some v →
      (ofFunction m callee).allocation.location? p.name = some loc →
      (ofFunction m callee).Holds (s₂.get .rsp) s₃ v.toUInt64 loc) ∧
    ∀ s₄, (ofFunction m callee).Finished top s₂ s₄ →
      ∃ restore s₅ s₆ s₇, (ofFunction m callee).epilogue = restore ++ [.ret] ∧
        straight? place restore s₄ = some s₅ ∧ s₅.pop = .ok (back, s₆) ∧
        straight? place after s₆ = some s₇ ∧
        (∀ r ∈ .rsp :: .rbp :: Allocation.registers, s₇.get r = s.get r) ∧
        ∀ j, 1 ≤ j → j ≤ (ofFunction m caller).size →
          loadWord? s₇.memory (cell top j) = loadWord? s.memory (cell top j)
  := by
  have hserves := served_ofFunction m
  obtain ⟨s₁, hs₁, hstacked₁, hregs, hkept⟩ := exists_handedOver (hserves caller) hready
  have hcaller := (ofFunction m caller).size_odd
  have hlength : args.length = values.length := by
    rw [hready.means.length_eq, List.length_map]
  have hbelow := hready.below
  have hsmall := hready.small
  have hframe := hready.frame.1
  have hwords : argumentWords args = (onStack args).length + (onStack args).length % 2 := rfl
  have hshort : (onStack args).length = args.length - 6 := length_onStack
  have hreverse : (onStack (values.map (·.toUInt64))).reverse.length = (onStack args).length := by
    simp [length_onStack, hlength]
  have hbase : (s.get .rsp).toNat = top.toNat - 8 * (ofFunction m caller).size := by
    rw [hready.rsp, toNat_cell hframe]
  rw [depth, hwords] at hbelow
  generalize hn : (onStack args).length = n at *
  have hlow : (cell (s.get .rsp) (n % 2)).toNat = (s.get .rsp).toNat - 8 * (n % 2) :=
    toNat_cell (by omega)
  obtain ⟨s₂, hpush, hstacked, hget₂⟩ := hstacked₁.pushWord (by omega) (by omega)
  have hrsp₁ : s₁.get .rsp = cell (s.get .rsp) (n % 2 + n) := by
    rw [hstacked₁.rsp, hreverse]
    apply cell_sub
  have hrsp₂ : s₂.get .rsp = cell (s.get .rsp) (n % 2 + (n + 1)) := by
    rw [hstacked.rsp, List.length_append, hreverse]
    apply cell_sub
  have hnat₂ : (s₂.get .rsp).toNat = (s.get .rsp).toNat - 8 * (n % 2 + (n + 1)) := by
    rw [hrsp₂, toNat_cell (by omega)]
  have hback : loadWord? s₂.memory (s₂.get .rsp) = some back := by
    rw [hstacked.rsp, List.length_append, hreverse]
    exact hstacked.words n back (by rw [← hreverse, List.getElem?_concat_length])
  have hcalled : (ofFunction m callee).Called values s₂ := by
    apply called_of_stacked hready
    · rw [hn]
      exact hstacked
    · intro k r v hr hv
      rw [hget₂ r, hregs k r v hr hv]
      rintro rfl
      exact absurd (List.mem_of_getElem? hr) (by decide)
  obtain ⟨s₃, hs₃, -, hholds⟩ :=
    exists_prologue place hcalled (hserves callee) (hlength.symm.trans hargs)
  have hcleanup : 8 * argumentWords args < 2 ^ 31 := by omega
  refine ⟨_, _, s₁, s₂, s₃, rfl, hs₁, ?_, hpush, hs₃, ?_, ?_⟩
  · rw [hrsp₁, toNat_cell (by omega)]
    omega
  · intro k p v loc hp hv hloc
    obtain ⟨loc', hloc', hholds⟩ := hholds p.name v (bind_zip hparams hp hv _)
    cases hloc.symm.trans hloc'
    exact hholds
  · intro s₄ hfinished
    obtain ⟨restore, s₅, s₆, hrestore, hs₅, hpop, hrsp₆, hget₆, hmemory₆⟩ :=
      hfinished.exists_returned hcalled.room (hserves callee) (by omega) hback
    obtain ⟨s₇, hs₇, hrsp₇, hmemory₇, hget₇⟩ :=
      exists_moved place hcleanup (.inl rfl) s₆ rfl
    refine ⟨restore, s₅, s₆, s₇, hrestore, hs₅, hpop, hs₇, ?_, ?_⟩
    · intro r hr
      obtain rfl | hr := List.mem_cons.mp hr
      · rw [hrsp₇, hrsp₆, hrsp₂, ← Nat.add_assoc, cell_succ_add, hwords, Nat.add_comm n]
        apply sub_add_cancel
      · have hne : r ≠ .rsp := by
          revert r
          decide
        rw [hget₇ r hne, hget₆ r hr, hget₂ r hne, hkept r hr]
    · intro j hj hle
      apply Machine.Memory.loadWord?_congr
      intro i hi
      have hnat : (cell top j + UInt64.ofNat i).toNat = top.toNat - 8 * j + i :=
        toNat_cell_add hi hj (by omega)
      rw [hmemory₇, hmemory₆, hfinished.above _ (by omega) (by omega)]
      apply hstacked.outside
      omega

/-- In the frame of `adding`, whose stack pointer was `0x8008`. -/
def passingOn : State Machine.Ram where
  regs := { rbx := 4, rbp := 0x8000, rsp := 0x7fc0 }
  xmms := .replicate 16 0
  flags := {}
  memory := ⟨fun a => if a = 0x7fd0 then 6 else if a = 0x9000 then 3 else 0⟩

/-- The last of the seven operands is passed on the stack, below a word of padding. -/
theorem ready_passingOn :
  Ready (ofFunction addingModule adding) (ofFunction addingModule adding) (fun _ => 0x9000) 0x8008
    [.var "g", .var "b", .global "x", .int (-1), .bool true, .str 0, .var "g"]
    [6, 4, 3, -1, 1, 0x9000, 6] passingOn
  := by
  have hsize : (ofFunction addingModule adding).size = 9 := by
    rw [size, slotBytes, allocation_adding]
    rfl
  refine ⟨by rw [hsize]; rfl, rfl, by rw [hsize]; decide, ?_, ?_, ?_, ?_, fun _ _ _ => ⟨_, rfl⟩⟩
  · have hb : (ofFunction addingModule adding).Means (fun _ => 0x9000) 0x8008 passingOn 4
        (.var "b") := by
      simp only [Means, allocation_adding]
      rfl
    have hg : (ofFunction addingModule adding).Means (fun _ => 0x9000) 0x8008 passingOn 6
        (.var "g") := by
      have hslot : loadWord? passingOn.memory (cell 0x8008 7) = some 6 := by decide +kernel
      simp only [Means, allocation_adding]
      change loadWord? _ (cell _ (slotCell _ 0)) = _
      rw [slotCell, allocation_adding]
      exact hslot
    have hx : loadWord? passingOn.memory 0x9000 = some 3 := by decide +kernel
    exact .cons hg (.cons hb (.cons hx (.cons rfl (.cons rfl (.cons rfl (.cons hg .nil))))))
  · intro name hname i hi
    right
    have hi' : (UInt64.ofNat i).toNat = i := UInt64.toNat_ofNat_of_lt' (hi.trans (by decide))
    rw [UInt64.toNat_add, hi']
    change 0x7fc0 ≤ (0x9000 + i) % 2 ^ 64
    omega
  · rw [depth, hsize]
    decide
  · rw [hsize]
    decide

theorem passingOn_keeps_convention :
  Ready (ofFunction addingModule adding) (ofFunction addingModule adding) (fun _ => 0x9000) 0x8008
    [.var "g", .var "b", .global "x", .int (-1), .bool true, .str 0, .var "g"]
    [6, 4, 3, -1, 1, 0x9000, 6] passingOn ∧
  ∃ before after s₁,
    (ofFunction addingModule adding).call "adding"
      [.var "g", .var "b", .global "x", .int (-1), .bool true, .str 0, .var "g"] =
      before ++ [.call "adding"] ++ after ∧
    straight? (fun _ => 0x9000) before passingOn = some s₁ ∧ (s₁.get .rsp).toNat % 16 = 0
  := by
  obtain ⟨before, after, s₁, s₂, s₃, hcall, hs₁, haligned, -⟩ :=
    call_keeps_convention addingModule adding adding (by decide) (by decide) (by decide)
      ready_passingOn 0
  exact ⟨ready_passingOn, before, after, s₁, hcall, hs₁, haligned⟩

end Endmark.Code.Frame
