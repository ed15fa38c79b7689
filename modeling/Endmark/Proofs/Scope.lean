import Endmark.Proofs.Lookup
import Endmark.Scope

/-!
# What is declared in scopes

A name can mean only what an entry of some scope says, and inside a function only what an
entry of a scope other than that of the module says.  Here is how the entries and symbols
change when scopes are opened and names declared.
-/

namespace Endmark.Scopes

open List

/-- The scope has an entry for the name, with the number of a symbol. -/
def Entry (t : Scopes) (scope : Nat) (name : String) (n : Nat) : Prop :=
  ∃ sc, t.scopes[scope]? = some sc ∧ (name, n) ∈ sc.names

/-- What the scope belongs to. -/
def kind? (t : Scopes) (scope : Nat) : Option Scope.Kind :=
  t.scopes[scope]?.map (·.kind)

variable {t : Scopes} {span : Span}

/-! ### Looking names up -/

/-- The scopes around one are in the tree. -/
theorem exists_of_mem_outwardsIn (h : sc ∈ t.outwardsIn fuel start) :
  ∃ i : Nat, t.scopes[i]? = some sc
  := by
  induction fuel generalizing start with
  | zero => simp [outwardsIn] at h
  | succ fuel ih =>
    cases start with
    | none => simp [outwardsIn] at h
    | some i =>
      rw [outwardsIn] at h
      split at h
      · obtain rfl | h := mem_cons.mp h
        · use i
        · apply ih h
      · cases h

/-- A name means what an entry says. -/
theorem entry_of_lookup? (h : t.lookup? i name = some n) :
  ∃ j, t.Entry j name n
  := by
  obtain ⟨sc, hsc, hn⟩ := exists_of_findSome?_eq_some h
  obtain ⟨j, hj⟩ := exists_of_mem_outwardsIn hsc
  use j, sc, hj, mem_of_lookup_eq_some hn

theorem mem_of_mem_withinFunction {scopes : List Scope} (h : sc ∈ withinFunction scopes) :
  sc ∈ scopes ∧ sc.kind ≠ .module
  := by
  induction scopes with
  | nil => cases h
  | cons s rest ih =>
    rw [withinFunction] at h
    split at h
    · cases h
    · rename_i hkind
      cases mem_singleton.mp h
      simp [hkind]
    · rename_i hkind
      obtain rfl | h := mem_cons.mp h
      · simp [hkind]
      · obtain ⟨hmem, hne⟩ := ih h
        use mem_cons_of_mem _ hmem

/-- Inside a function a name means what an entry of a scope other than that of the module
says. -/
theorem entry_of_ownLookup? (h : t.ownLookup? i name = some n) :
  ∃ j, t.Entry j name n ∧ t.kind? j ≠ some .module
  := by
  obtain ⟨sc, hsc, hn⟩ := exists_of_findSome?_eq_some h
  obtain ⟨hsc, hkind⟩ := mem_of_mem_withinFunction hsc
  obtain ⟨j, hj⟩ := exists_of_mem_outwardsIn hsc
  use j, ⟨sc, hj, mem_of_lookup_eq_some hn⟩
  simpa [kind?, hj] using hkind

/-! ### Entries -/

/-- Declaring a name adds an entry for a new symbol. -/
theorem entry_declare :
  (t.declare i name ty kind span slot).Entry j x n →
    t.Entry j x n ∨ j = i ∧ x = name ∧ n = t.symbols.size
  := by
  rintro ⟨sc, hsc, hn⟩
  simp only [declare, Array.getElem?_modify] at hsc
  split at hsc
  · rename_i hij
    subst hij
    obtain ⟨sc', hsc', rfl⟩ := Option.map_eq_some_iff.mp hsc
    obtain hn | hn := mem_cons.mp hn
    · cases hn
      simp
    · left
      use sc', hsc', hn
  · left
    use sc, hsc, hn

@[simp]
theorem entry_setType :
  (t.setType m ty).Entry j x n ↔ t.Entry j x n
  := .rfl

/-- A new scope has no entries. -/
theorem entry_push (h : (t.push i k).Entry j x n) :
  t.Entry j x n
  := by
  obtain ⟨sc, hsc, hn⟩ := h
  simp only [push, Array.getElem?_push] at hsc
  split at hsc
  · cases hsc
    cases hn
  · use sc, hsc, hn

/-! ### Kinds of scopes -/

@[simp]
theorem kind?_declare :
  (t.declare i name ty kind span slot).kind? j = t.kind? j
  := by
  simp only [kind?, declare, Array.getElem?_modify]
  split
  · simp [Function.comp_def]
  · rfl

@[simp]
theorem kind?_setType :
  (t.setType m ty).kind? j = t.kind? j
  := rfl

theorem kind?_push :
  (t.push i k).kind? j = if j = t.scopes.size then some k else t.kind? j
  := by
  simp only [kind?, push, Array.getElem?_push]
  split <;> rfl

/-! ### Symbols -/

theorem symbol?_declare :
  (t.declare i name ty kind span slot).symbol? n =
    if n = t.symbols.size then some ⟨name, ty, t.depth i, kind, span, slot⟩ else t.symbol? n
  := by
  simp [symbol?, declare, Array.getElem?_push]

theorem symbol?_setType :
  (t.setType m ty).symbol? n =
    (t.symbol? n).map fun s => if m = n then { s with ty } else s
  := by
  simp only [symbol?, setType, Array.getElem?_modify]
  split <;> simp

@[simp]
theorem symbol?_push :
  (t.push i k).symbol? n = t.symbol? n
  := rfl

theorem symbol?_size :
  t.symbol? t.symbols.size = none
  := by
  simp [symbol?]

/-! ### The shape of the tree -/

/-- What the scope belongs to, and which one is around it. -/
def shape? (t : Scopes) (i : Nat) : Option (Scope.Kind × Option Nat) :=
  t.scopes[i]?.map fun sc => (sc.kind, sc.parent)

@[simp]
theorem shape?_declare :
  (t.declare i name ty kind span slot).shape? j = t.shape? j
  := by
  simp only [shape?, declare, Array.getElem?_modify]
  split
  · simp [Function.comp_def]
  · rfl

@[simp]
theorem shape?_setType :
  (t.setType m ty).shape? j = t.shape? j
  := rfl

theorem shape?_push :
  (t.push i k).shape? j = if j = t.scopes.size then some (k, some i) else t.shape? j
  := by
  simp only [shape?, push, Array.getElem?_push]
  split
  · rfl
  · rfl

theorem shape?_eq_none_iff :
  t.shape? i = none ↔ t.scopes.size ≤ i
  := by
  simp [shape?]

/-- The scope around another has a smaller number. -/
def Ordered (t : Scopes) : Prop :=
  ∀ i k p, t.shape? i = some (k, some p) → p < i

/-- More steps than there are scopes around one make no difference. -/
theorem Ordered.outwardsIn_eq (h : t.Ordered) (hlt : i < fuel) :
  t.outwardsIn fuel (some i) = t.outwards i
  := by
  induction i using Nat.strong_induction_on generalizing fuel with
  | _ i ih =>
    obtain ⟨fuel, rfl⟩ := Nat.exists_eq_add_one_of_ne_zero (ne_zero_of_lt hlt)
    rw [outwards, outwardsIn, outwardsIn]
    split
    · rename_i sc hsc
      cases hp : sc.parent with
      | none => cases fuel <;> cases i <;> rfl
      | some p =>
        have hpi := h i sc.kind p (by rw [shape?, hsc, ← hp]; rfl)
        rw [ih p hpi (by omega), ih p hpi hpi]
    · rfl

theorem Ordered.outwards_cons (h : t.Ordered) (hsc : t.scopes[i]? = some sc)
    (hp : sc.parent = some p) :
  t.outwards i = sc :: t.outwards p
  := by
  rw [outwards, outwardsIn, hsc]
  dsimp only
  rw [hp, h.outwardsIn_eq (h i sc.kind p (by rw [shape?, hsc, ← hp]; rfl))]

end Endmark.Scopes
