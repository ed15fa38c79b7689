import Endmark.Proofs.Scope

/-!
# Open blocks

The scopes that are open in a function are its blocks, from the innermost one outwards, and
around them there is the scope of the module only.  A name is bound to the slot that the
innermost block says which binds it.  Here is how that changes when blocks are opened and
names declared.
-/

namespace Endmark

open List Option

/-- The blocks that are open in a function, the innermost one first: the names that each of
them binds, the last one first, with their slots. -/
abbrev Blocks := List (List (String × String))

namespace Blocks

/-- The slot that a name is bound to in the innermost block that binds it. -/
def slot? (Γ : Blocks) (name : String) : Option String :=
  Γ.findSome? (·.lookup name)

/-- The blocks with a name bound in the innermost one. -/
def bind (name slot : String) : Blocks → Blocks
  | [] => [[(name, slot)]]
  | block :: outer => ((name, slot) :: block) :: outer

end Blocks

namespace Scopes

variable {t t' : Scopes} {span : Span}

/-! ### The scopes of a function -/

/-- The scopes are those of one function: the module's is around all of them, then comes the
function's own, and all others are blocks in it. -/
structure Nested (t : Scopes) : Prop where
  root : t.shape? 0 = some (.module, none)
  function : t.shape? 1 = some (.function, some 0)
  block : ∀ i shape, t.shape? (i + 2) = some shape →
    ∃ p, p ≤ i ∧ shape = (.block, some (p + 1))

/-- Only the shape matters. -/
theorem Nested.of_shape (h : t.Nested) (hshape : ∀ i, t'.shape? i = t.shape? i) :
  t'.Nested
  := by
  constructor
  · rw [hshape, h.root]
  · rw [hshape, h.function]
  · intro i shape
    rw [hshape]
    apply h.block

theorem Nested.two_le_size (h : t.Nested) :
  2 ≤ t.scopes.size
  := by
  by_contra hlt
  have := shape?_eq_none_iff.mpr (show t.scopes.size ≤ 1 by omega)
  rw [h.function] at this
  cases this

/-- A new block is inside of the function. -/
theorem Nested.push (h : t.Nested) (hi : 0 < i) (hlt : i < t.scopes.size) :
  (t.push i .block).Nested
  := by
  constructor
  · rw [shape?_push, if_neg (by omega), h.root]
  · rw [shape?_push, if_neg (by omega), h.function]
  · intro k shape hk
    rw [shape?_push] at hk
    split at hk
    · cases hk
      use i - 1
      constructor
      · omega
      · rw [Nat.sub_add_cancel hi]
    · apply h.block k shape hk

/-- The scope around another has a smaller number. -/
theorem Nested.ordered (h : t.Nested) :
  t.Ordered
  := by
  intro i k p hshape
  match i with
  | 0 =>
    rw [h.root] at hshape
    cases hshape
  | 1 =>
    rw [h.function] at hshape
    cases hshape
    exact one_pos
  | i + 2 =>
    obtain ⟨q, hq, heq⟩ := h.block i _ hshape
    cases heq
    omega

theorem outwards_of_none (h : t.shape? i = none) :
  t.outwards i = []
  := by
  have : t.scopes[i]? = none := by simpa [shape?] using h
  rw [outwards, outwardsIn, this]

/-- The scope of the module is the last one. -/
theorem Nested.exists_outwards_zero (h : t.Nested) :
  ∃ sc, t.scopes[0]? = some sc ∧ sc.kind = .module ∧ t.outwards 0 = [sc]
  := by
  obtain ⟨sc, hsc, heq⟩ := map_eq_some_iff.mp h.root
  simp only [Prod.mk.injEq] at heq
  use sc, hsc, heq.1
  rw [outwards, outwardsIn, hsc]
  rfl

/-- Around the scopes of the function there is that of the module only. -/
theorem Nested.outwards_eq (h : t.Nested) (hi : 0 < i) (hlt : i < t.scopes.size) :
  t.outwards i = withinFunction (t.outwards i) ++ t.outwards 0
  := by
  induction i using Nat.strong_induction_on with
  | _ i ih =>
    obtain ⟨sc, hsc⟩ : ∃ sc, t.scopes[i]? = some sc := by simp [hlt]
    have hshape : t.shape? i = some (sc.kind, sc.parent) := by simp [shape?, hsc]
    obtain - | - | i := i
    · cases hi
    · rw [h.function] at hshape
      simp only [some.injEq, Prod.mk.injEq] at hshape
      rw [h.ordered.outwards_cons hsc hshape.2.symm, withinFunction, ← hshape.1]
      rfl
    · obtain ⟨p, hp, heq⟩ := h.block i _ hshape
      simp only [Prod.mk.injEq] at heq
      rw [h.ordered.outwards_cons hsc heq.2, withinFunction, heq.1, cons_append,
        ← ih (p + 1) (by omega) (by omega) (by omega)]

/-- A name means what the function says, or else what the module says. -/
theorem Nested.lookup?_eq (h : t.Nested) (hi : 0 < i) (hlt : i < t.scopes.size) :
  t.lookup? i name = (t.ownLookup? i name).or (t.lookup? 0 name)
  := by
  rw [lookup?, h.outwards_eq hi hlt, findSome?_append]
  rfl

/-- What the function says stands in a scope other than that of the module. -/
theorem Nested.entry_of_own (h : t.Nested) (hn : t.ownLookup? i name = some n) :
  ∃ j, j ≠ 0 ∧ t.Entry j name n
  := by
  obtain ⟨j, hentry, hkind⟩ := entry_of_ownLookup? hn
  use j
  refine ⟨?_, hentry⟩
  rintro rfl
  obtain ⟨sc, hsc, hmodule, _⟩ := h.exists_outwards_zero
  apply hkind
  simp [kind?, hsc, hmodule]

/-- What the module says stands in its scope. -/
theorem Nested.entry_of_root (h : t.Nested) (hn : t.lookup? 0 name = some n) :
  t.Entry 0 name n
  := by
  obtain ⟨sc, hsc, _, hout⟩ := h.exists_outwards_zero
  simp only [lookup?, hout] at hn
  use sc, hsc
  apply mem_of_lookup_eq_some
  cases hlookup : sc.names.lookup name with
  | none => simp [hlookup] at hn
  | some m => simpa [hlookup] using hn

/-! ### Visible names -/

theorem mem_firstEntries :
  (x, n) ∈ firstEntries names ↔ names.lookup x = some n
  := by
  induction names with
  | nil => simp [firstEntries]
  | cons entry rest ih =>
    rw [firstEntries, mem_cons, mem_filter, ih, lookup_cons]
    by_cases hx : x = entry.1
    · simp [hx, Prod.ext_iff, eq_comm]
    · have hne : (x == entry.1) = false := by simpa using hx
      simp [hx, hne, Prod.ext_iff]

theorem lookup_flatMap {scopes : List Scope} :
  (scopes.flatMap (·.names)).lookup x = scopes.findSome? (·.names.lookup x)
  := by
  induction scopes with
  | nil => rfl
  | cons sc rest ih =>
    rw [flatMap_cons, lookup_append, ih, findSome?_cons]
    cases sc.names.lookup x <;> rfl

/-- A name means what it is listed with. -/
theorem mem_visible :
  (x, n) ∈ t.visible i ↔ t.lookup? i x = some n
  := by
  rw [lookup?, ← lookup_flatMap, visible, mem_firstEntries]

/-! ### Slots of names -/

/-- The names with the slots of their symbols. -/
def slotsOf (t : Scopes) (names : List (String × Nat)) : List (String × String) :=
  names.filterMap fun (x, n) => (t.symbol? n).map fun symbol => (x, symbol.slot)

/-- The names bound in a scope, with their slots. -/
def slotsAt (t : Scopes) (i : Nat) : List (String × String) :=
  (t.scopes[i]?.map fun sc => t.slotsOf sc.names).getD []

/-- The blocks from a scope outwards to that of the function. -/
def blocks (t : Scopes) (i : Nat) : Blocks :=
  (withinFunction (t.outwards i)).map fun sc => t.slotsOf sc.names

/-- Entries have symbols. -/
def Filled (t : Scopes) : Prop :=
  ∀ i x n, t.Entry i x n → (t.symbol? n).isSome = true

theorem Nested.blocks_one (h : t.Nested) :
  t.blocks 1 = [t.slotsAt 1]
  := by
  obtain ⟨sc, hsc, heq⟩ := map_eq_some_iff.mp h.function
  simp only [Prod.mk.injEq] at heq
  rw [blocks, h.ordered.outwards_cons hsc heq.2, withinFunction, heq.1]
  simp [slotsAt, hsc]

theorem Nested.blocks_succ (h : t.Nested) (hshape : t.shape? (i + 2) = some (.block, some p)) :
  t.blocks (i + 2) = t.slotsAt (i + 2) :: t.blocks p
  := by
  obtain ⟨sc, hsc, heq⟩ := map_eq_some_iff.mp hshape
  simp only [Prod.mk.injEq] at heq
  rw [blocks, h.ordered.outwards_cons hsc heq.2, withinFunction, heq.1]
  simp [slotsAt, hsc, blocks]

/-- Only the shape and the slots of the scopes up to one matter for its blocks. -/
theorem Nested.blocks_congr (h : t.Nested) (h' : t'.Nested) (hi : 0 < i)
    (heq : ∀ j, 0 < j → j ≤ i → t'.shape? j = t.shape? j ∧ t'.slotsAt j = t.slotsAt j) :
  t'.blocks i = t.blocks i
  := by
  induction i using Nat.strong_induction_on with
  | _ i ih =>
    obtain ⟨hshape, hslots⟩ := heq i hi le_rfl
    match i with
    | 1 => rw [h.blocks_one, h'.blocks_one, hslots]
    | i + 2 =>
      cases hi : t.shape? (i + 2) with
      | none =>
        rw [blocks, blocks, outwards_of_none hi, outwards_of_none (hshape.trans hi)]
        rfl
      | some shape =>
        obtain ⟨p, hp, rfl⟩ := h.block i shape hi
        rw [h.blocks_succ hi, h'.blocks_succ (hshape.trans hi), hslots,
          ih (p + 1) (by omega) (by omega) fun j hj hjp => heq j hj (by omega)]

/-- A name is bound to the slot of the symbol that it means in the function. -/
theorem Filled.slot?_blocks (h : t.Filled) :
  (t.blocks i).slot? name =
    (t.ownLookup? i name).bind fun n => (t.symbol? n).map (·.slot)
  := by
  have hone (names : List (String × Nat)) (hnames : ∀ x n, (x, n) ∈ names → (t.symbol? n).isSome) :
      (t.slotsOf names).lookup name =
        (names.lookup name).bind fun n => (t.symbol? n).map (·.slot) := by
    induction names with
    | nil => rfl
    | cons entry rest ih =>
      obtain ⟨x, n⟩ := entry
      obtain ⟨symbol, hsymbol⟩ := isSome_iff_exists.mp (hnames x n (by simp))
      have hrest := ih fun y m hm => hnames y m (mem_cons_of_mem _ hm)
      simp only [slotsOf, filterMap_cons, hsymbol, map_some, lookup_cons]
      cases name == x with
      | true => simp [hsymbol]
      | false => exact hrest
  have hall : ∀ sc ∈ withinFunction (t.outwards i), ∀ x n, (x, n) ∈ sc.names →
      (t.symbol? n).isSome := by
    intro sc hsc x n hn
    obtain ⟨j, hj⟩ := exists_of_mem_outwardsIn (mem_of_mem_withinFunction hsc).1
    apply h j x n ⟨sc, hj, hn⟩
  rw [blocks, ownLookup?]
  generalize withinFunction (t.outwards i) = scopes at hall
  induction scopes with
  | nil => rfl
  | cons sc rest ih =>
    have hfirst := hone sc.names (hall sc (by simp))
    have hrest := ih fun sc' hsc' => hall sc' (mem_cons_of_mem _ hsc')
    simp only [Blocks.slot?, map_cons, findSome?_cons, hfirst]
    cases hlookup : sc.names.lookup name with
    | none => exact hrest
    | some n =>
      obtain ⟨symbol, hsymbol⟩ := isSome_iff_exists.mp
        (hall sc (by simp) name n (mem_of_lookup_eq_some hlookup))
      simp [hsymbol]

/-! ### Opening blocks and declaring names -/

theorem slotsAt_push :
  (t.push i k).slotsAt j = if j = t.scopes.size then [] else t.slotsAt j
  := by
  simp only [slotsAt, push, Array.getElem?_push]
  split
  · rfl
  · rfl

/-- A new block binds nothing. -/
theorem Nested.blocks_push (h : t.Nested) (hi : 0 < i) (hlt : i < t.scopes.size) :
  (t.push i .block).blocks t.scopes.size = [] :: t.blocks i
  := by
  have hpush := h.push hi hlt
  obtain ⟨k, hk⟩ : ∃ k, t.scopes.size = k + 2 := ⟨t.scopes.size - 2, by omega⟩
  have hshape : (t.push i .block).shape? (k + 2) = some (.block, some i) := by
    rw [shape?_push, if_pos hk.symm]
  rw [hk, hpush.blocks_succ hshape, slotsAt_push, if_pos hk.symm]
  congr 1
  apply h.blocks_congr hpush hi
  intro j _ hj
  rw [shape?_push, slotsAt_push, if_neg (by omega), if_neg (by omega)]
  simp

theorem slotsOf_setType {names : List (String × Nat)} :
  (t.setType n ty).slotsOf names = t.slotsOf names
  := by
  apply filterMap_congr
  rintro ⟨x, k⟩ _
  simp only [symbol?_setType, Option.map_map]
  split
  · rfl
  · rfl

/-- The types of symbols do not matter. -/
theorem Nested.blocks_setType (h : t.Nested) (hi : 0 < i) :
  (t.setType n ty).blocks i = t.blocks i
  := by
  apply h.blocks_congr (h.of_shape fun _ => shape?_setType) hi
  intro j _ _
  use shape?_setType
  simp only [slotsAt, slotsOf_setType]
  rfl

theorem slotsOf_declare (hnames : ∀ x n, (x, n) ∈ names → (t.symbol? n).isSome) :
  (t.declare i name ty kind span slot).slotsOf names = t.slotsOf names
  := by
  apply filterMap_congr
  rintro ⟨x, n⟩ hn
  have hne : n ≠ t.symbols.size := by
    rintro rfl
    have := hnames x _ hn
    rw [symbol?_size] at this
    cases this
  simp [symbol?_declare, if_neg hne]

/-- A declared name is bound in its scope, before the others. -/
theorem Filled.slotsAt_declare (h : t.Filled) (hlt : i < t.scopes.size) :
  (t.declare i name ty kind span slot).slotsAt j =
    if i = j then (name, slot) :: t.slotsAt j else t.slotsAt j
  := by
  have hnames (sc : Scope) (hsc : t.scopes[j]? = some sc) :
      (t.declare i name ty kind span slot).slotsOf sc.names = t.slotsOf sc.names :=
    slotsOf_declare fun x n hn => h j x n ⟨sc, hsc, hn⟩
  have hget : (t.declare i name ty kind span slot).scopes[j]? =
      if i = j then
        t.scopes[j]?.map fun sc => { sc with names := (name, t.symbols.size) :: sc.names }
      else t.scopes[j]? := by
    simp [declare, Array.getElem?_modify]
  split
  · rename_i hij
    subst hij
    have hnew : (t.declare i name ty kind span slot).symbol? t.symbols.size =
        some ⟨name, ty, t.depth i, kind, span, slot⟩ := by
      rw [symbol?_declare, if_pos rfl]
    obtain ⟨sc, hsc⟩ : ∃ sc, t.scopes[i]? = some sc := by simp [hlt]
    rw [slotsAt, slotsAt, hget, if_pos rfl, hsc, map_some, map_some,
      map_some, ← hnames sc hsc]
    simp [slotsOf, hnew]
  · rename_i hij
    rw [slotsAt, slotsAt, hget, if_neg hij]
    cases hsc : t.scopes[j]? with
    | none => rfl
    | some sc => rw [map_some, map_some, hnames sc hsc]

/-- Declaring a name in the innermost scope binds it there. -/
theorem Nested.blocks_declare (h : t.Nested) (hfilled : t.Filled) (hi : 0 < i)
    (hlt : i < t.scopes.size) :
  (t.declare i name ty kind span slot).blocks i = (t.blocks i).bind name slot
  := by
  have h' : (t.declare i name ty kind span slot).Nested := h.of_shape fun _ => shape?_declare
  match i with
  | 1 =>
    rw [h.blocks_one, h'.blocks_one, hfilled.slotsAt_declare hlt]
    rfl
  | i + 2 =>
    obtain ⟨shape, hshape⟩ : ∃ shape, t.shape? (i + 2) = some shape := by
      apply ne_none_iff_exists'.mp
      rw [Ne, shape?_eq_none_iff]
      omega
    obtain ⟨p, hp, rfl⟩ := h.block i shape hshape
    have hshape' : (t.declare (i + 2) name ty kind span slot).shape? (i + 2) =
        some (.block, some (p + 1)) :=
      shape?_declare.trans hshape
    rw [h.blocks_succ hshape, h'.blocks_succ hshape', hfilled.slotsAt_declare hlt, if_pos rfl]
    rw [h.blocks_congr h' (Nat.succ_pos p)]
    · rfl
    · intro j _ hj
      rw [hfilled.slotsAt_declare hlt, if_neg (by omega)]
      simp

/-- What is declared in the module does not matter for the blocks. -/
theorem Nested.blocks_declare_root (h : t.Nested) (hfilled : t.Filled) (hi : 0 < i) :
  (t.declare 0 name ty kind span slot).blocks i = t.blocks i
  := by
  have hsize := h.two_le_size
  apply h.blocks_congr (h.of_shape fun _ => shape?_declare) hi
  intro j hj _
  rw [hfilled.slotsAt_declare (by omega), if_neg (by omega)]
  simp

end Scopes

end Endmark
