import Endmark.Proofs.Machine.Assembler

/-!
# The shortest code

Which jumps are short decides how far all jumps go: with more of them long, no distance gets
shorter.  Relaxing starts with short jumps only.  It makes a jump long only if that jump is long
in every choice of forms in which the short ones reach their targets, so that no such choice has
fewer long jumps or fewer bytes.
-/

namespace Endmark.Machine

open List Option

namespace Assembler

/-! ### Offsets -/

/-- How many bytes the first items have, as many of them as said. -/
def bytesBefore (items : List Item) (k : Nat) : Nat :=
  ((items.take k).map size).sum

theorem bytesBefore_succ {items : List Item} :
  bytesBefore items (k + 1) = bytesBefore items k + (items[k]?.map size).getD 0
  := by
  rw [bytesBefore, take_add_one, bytesBefore]
  cases items[k]? <;> simp

theorem bytesBefore_mono (items : List Item) :
  Monotone (bytesBefore items)
  := by
  apply monotone_nat_of_le_succ
  intro k
  rw [bytesBefore_succ]
  apply Nat.le_add_right

/-- A label is at the bytes before it. -/
theorem mem_labelsFrom {start : Nat} {items : List Item} :
  (name, there) ∈ labelsFrom start items ↔
    ∃ j, (items.map (·.1))[j]? = some (.label name) ∧ there = start + bytesBefore items j
  := by
  induction items generalizing start with
  | nil => simp [labelsFrom]
  | cons item rest ih =>
    obtain ⟨i, short⟩ := item
    have hrest : (name, there) ∈ labelsFrom (start + size (i, short)) rest ↔
        ∃ j, ((i :: rest.map (·.1)))[j + 1]? = some (.label name) ∧
          there = start + bytesBefore ((i, short) :: rest) (j + 1) := by
      simp [ih, bytesBefore, add_assoc]
    rw [map_cons, ← Nat.or_exists_add_one, ← hrest]
    cases i
    case label other =>
      rw [labelsFrom]
      simp [bytesBefore, eq_comm]
    all_goals simp [labelsFrom]

theorem getElem?_widenFrom {start : Nat} {items : List Item} :
  (widenFrom labels start items)[k]? = items[k]?.map fun item =>
    (item.1, item.2 && reaches labels (start + bytesBefore items (k + 1)) item.1)
  := by
  induction items generalizing start k with
  | nil => rfl
  | cons item rest ih =>
    cases k with
    | zero => simp [widenFrom, bytesBefore]
    | succ k =>
      rw [widenFrom, getElem?_cons_succ, ih]
      simp [bytesBefore, add_assoc]

/-! ### Choices -/

/-- The distance fits in a signed byte. -/
def Near (distance : Int) : Prop :=
  -128 ≤ distance ∧ distance ≤ 127

/-- A choice of forms for the instructions: some jumps to labels of the unit are short, and their
distances fit. -/
structure Choice (insts : List (Inst String)) (items : List Item) : Prop where
  same : items.map (·.1) = insts
  jumps : ∀ i, (i, true) ∈ items →
    i.isJump = true ∧ ∃ name, i.target? = some name ∧ name ∈ defined insts
  near : ∀ (k j : Nat) i name, items[k]? = some (i, true) → i.target? = some name →
    insts[j]? = some (.label name) → Near (bytesBefore items j - bytesBefore items (k + 1))

/-- The items of one list are short wherever those of the other are. -/
structure Shorter (items wider : List Item) : Prop where
  same : items.map (·.1) = wider.map (·.1)
  short : ∀ (k : Nat) i, wider[k]? = some (i, true) → items[k]? = some (i, true)

section

variable {items : List Item}

/-- A short jump reaches its label just when that is near. -/
theorem reaches_iff (hnodup : (defined (items.map (·.1))).Nodup) :
  reaches (labelsFrom 0 items) here i ↔ ∀ (name : String) (j : Nat),
    i.target? = some name → (items.map (·.1))[j]? = some (.label name) →
      Near (bytesBefore items j - here)
  := by
  have hlookup (name : String) (there : Nat) : (labelsFrom 0 items).lookup name = some there ↔
      ∃ j, (items.map (·.1))[j]? = some (.label name) ∧ there = bytesBefore items j := by
    have hmem : (name, there) ∈ labelsFrom 0 items ↔ _ := mem_labelsFrom
    simp only [zero_add] at hmem
    rw [← hmem]
    refine ⟨mem_of_lookup_eq_some, lookup_eq_some_of_mem ?_⟩
    rw [map_labelsFrom]
    exact hnodup
  have hnear (distance : Int) : Number.fitsSigned 8 distance ↔ Near distance := by
    rw [Number.fitsSigned_iff, Near]
    omega
  rw [reaches]
  constructor
  · intro h name j htarget hlabel
    rw [htarget, bind_some, (hlookup name _).mpr ⟨j, hlabel, rfl⟩] at h
    exact (hnear _).mp h
  · intro h
    split
    · rename_i there hthere
      obtain ⟨name, htarget, hthere⟩ := bind_eq_some_iff.mp hthere
      obtain ⟨j, hlabel, rfl⟩ := (hlookup name there).mp hthere
      exact (hnear _).mpr (h name j htarget hlabel)
    · rfl

theorem size_le_of_short {short short' : Bool} (h : short' → short) :
  size (i, short) ≤ size (i, short')
  := by
  cases short <;> cases short'
  case true.false =>
    cases i <;> first | exact le_refl _ | simp [size, Inst.encode, Encoding.branch]
  all_goals simp_all

namespace Shorter

/-- An item is no longer than a wider one. -/
theorem size_le (h : Shorter items wider) (k : Nat) :
  (items[k]?.map size).getD 0 ≤ (wider[k]?.map size).getD 0
  := by
  have hinsts : (items.map (·.1))[k]? = (wider.map (·.1))[k]? := by rw [h.same]
  rw [getElem?_map, getElem?_map] at hinsts
  cases hk : wider[k]? with
  | none =>
    rw [hk, map_none, map_eq_none_iff] at hinsts
    rw [hinsts]
  | some item =>
    obtain ⟨i, short⟩ := item
    rw [hk, map_some, map_eq_some_iff] at hinsts
    obtain ⟨⟨_, short'⟩, hitem, rfl⟩ := hinsts
    rw [hitem]
    apply size_le_of_short
    rintro rfl
    cases hitem.symm.trans (h.short k _ hk)
    rfl

/-- Between two places there are no more bytes. -/
theorem bytes_le (h : Shorter items wider) (hjk : j ≤ k) :
  bytesBefore items k + bytesBefore wider j ≤ bytesBefore wider k + bytesBefore items j
  := by
  induction k, hjk using Nat.le_induction with
  | base => omega
  | succ k _ ih =>
    have := h.size_le k
    rw [bytesBefore_succ, bytesBefore_succ]
    omega

/-- A jump that is short in a choice of forms is not made long where no other is longer. -/
theorem widen (h : Shorter items wider) (hwider : Choice insts wider)
    (hnodup : (defined insts).Nodup) :
  Shorter (widen items) wider
  := by
  have hinsts := h.same.trans hwider.same
  refine ⟨map_widenFrom.trans h.same, fun k i hk => ?_⟩
  rw [Assembler.widen, getElem?_widenFrom, h.short k i hk, map_some, Bool.true_and,
    (reaches_iff (by rwa [hinsts])).mpr]
  intro name j htarget hlabel
  rw [hinsts] at hlabel
  obtain ⟨hlow, hhigh⟩ := hwider.near k j i name hk htarget hlabel
  rcases le_total j (k + 1) with hj | hj
  all_goals
    have := h.bytes_le hj
    have := bytesBefore_mono items hj
    rw [Near]
    omega

theorem relax (h : Shorter items wider) (hwider : Choice insts wider)
    (hnodup : (defined insts).Nodup) :
  Shorter (relax fuel items) wider
  := by
  induction fuel generalizing items with
  | zero => exact h
  | succ fuel ih =>
    rw [relax]
    split
    · exact h
    · exact ih (h.widen hwider hnodup)

end Shorter

/-- At the start all jumps are short that are so in any choice. -/
theorem Choice.shorter_start (h : Choice insts items) :
  Shorter (start (defined insts) insts) items
  := by
  refine ⟨by simp [start, h.same, Function.comp_def], fun k i hk => ?_⟩
  obtain ⟨hjump, name, htarget, hname⟩ := h.jumps i (mem_of_getElem? hk)
  have hinst : insts[k]? = some i := by rw [← h.same, getElem?_map, hk, map_some]
  simp [start, hinst, hjump, htarget, hname]

theorem choice_items (hnodup : (defined insts).Nodup) :
  Choice insts (Assembler.items insts)
  := by
  refine ⟨map_items insts, fun i hi => mem_start (mem_relax hi), ?_⟩
  intro k j i name hk htarget hlabel
  have hsettled : ((widen (items insts)).map (·.2))[k]? =
      ((items insts).map (·.2))[k]? := by rw [settled_items insts]
  rw [getElem?_map, getElem?_map, widen, getElem?_widenFrom, hk] at hsettled
  simp only [map_some, zero_add, some.injEq] at hsettled
  rw [← map_items insts] at hlabel
  exact (reaches_iff (by rwa [map_items])).mp hsettled name j htarget hlabel

theorem Listing.length {start : Nat} {code : List UInt8}
    (h : Listing labels start items pieces code relocations) :
  code.length = bytesBefore items items.length
  := by
  rw [h.code, bytesBefore, take_length, length_flatMap, ← h.forms, List.map_map]
  congr 1
  exact map_congr_left fun p hp => (h.sizes p hp).symm

end

end Assembler

open Assembler

/-- The code is that of a choice of forms, and what is long in it is long in every choice, so that
no choice has fewer bytes. -/
theorem assemble_least {insts : List (Inst String)} {a : Assembled} (h : assemble insts = .ok a) :
  ∃ items, Choice insts items ∧
    emitFrom (labelsFrom 0 items) 0 items = .ok (a.code, a.relocations) ∧
    a.code.length = bytesBefore items insts.length ∧
    ∀ choice, Choice insts choice →
      (∀ (k : Nat) i, items[k]? = some (i, false) → choice[k]? = some (i, false)) ∧
      a.code.length ≤ bytesBefore choice insts.length
  := by
  obtain ⟨hnodup, hemit, -, pieces, hpieces⟩ := exists_listing_of_assemble h
  have hlength : a.code.length = bytesBefore (items insts) insts.length := by
    rw [hpieces.length, ← List.length_map (f := (·.1)), map_items]
  refine ⟨items insts, choice_items hnodup, hemit, hlength, fun choice hchoice => ?_⟩
  have hshorter : Shorter (items insts) choice :=
    hchoice.shorter_start.relax hchoice hnodup
  constructor
  · intro k i hk
    have hinst : choice[k]?.map (·.1) = some i := by
      rw [← List.getElem?_map, ← hshorter.same, List.getElem?_map, hk, Option.map_some]
    obtain ⟨⟨_, short⟩, hitem, rfl⟩ := Option.map_eq_some_iff.mp hinst
    cases short
    · exact hitem
    · cases hk.symm.trans (hshorter.short k _ hitem)
  · have := hshorter.bytes_le (Nat.zero_le insts.length)
    simpa [hlength, bytesBefore] using this

/-- The jump out of the loop is one byte too far.  Made long, it takes the jump back too far. -/
def longLoop : List (Inst String) :=
  [.label ".again", .jcc .e ".done"] ++ List.replicate 121 .nop ++
    [.jmp ".again", .nop, .nop, .nop, .nop, .nop, .label ".done", .ret]

theorem longLoop_least :
  ∃ a, assemble longLoop = .ok a ∧ a.code.length = 138 ∧ ∃ items, Choice longLoop items ∧
    a.code.length = bytesBefore items longLoop.length ∧
    ∀ choice, Choice longLoop choice → a.code.length ≤ bytesBefore choice longLoop.length
  := by
  have hlength : (assemble longLoop).toOption.map (·.code.length) = some 138 := by
    decide +kernel
  cases hok : assemble longLoop with
  | error err =>
    rw [hok] at hlength
    cases hlength
  | ok a =>
    rw [hok] at hlength
    obtain ⟨items, hitems, -, heq, hleast⟩ := assemble_least hok
    exact ⟨a, rfl, Option.some.inj hlength, items, hitems, heq,
      fun choice hchoice => (hleast choice hchoice).2⟩

end Endmark.Machine
