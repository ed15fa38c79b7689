import Endmark.Proofs.Typed.Blocks

/-!
# What names mean in a tree of scopes

Trees of scopes come about by changes: scopes are opened inside of others, names are declared, and
symbols get other types.  What a name means can be told from the history alone: on the way outwards
the first scope counts in which the name has been declared, and in it the last declaration.
-/

namespace Endmark.Scopes

open Option

/-! ### Histories -/

inductive Change where
  | push (parent : Nat) (kind : Scope.Kind)
  | declare (scope : Nat) (name : String) (ty : Ty) (kind : SymbolInfo.Kind) (span : Span)
    (slot : String)
  | setType (id : Nat) (ty : Ty)

namespace Change

/-- The scope that has to exist for the change. -/
def scope : Change → Nat
  | push i _ | declare i .. => i
  | setType .. => 0

def apply (t : Scopes) : Change → Scopes
  | push parent kind => t.push parent kind
  | declare scope name ty kind span slot => t.declare scope name ty kind span slot
  | setType id ty => t.setType id ty

end Change

/-- The tree after changes, of which the last one comes first. -/
def after : List Change → Scopes
  | [] => new
  | c :: before => c.apply (after before)

/-- Is each change made to a scope that exists then? -/
def arePossible : List Change → Bool
  | [] => true
  | c :: before => c.scope < (after before).scopes.size && arePossible before

/-- The symbol that was last declared under a name in a scope. -/
def lastDeclared? (i : Nat) (name : String) : List Change → Option Nat
  | [] => none
  | .declare j x .. :: before =>
    if j = i ∧ x = name then some (after before).symbols.size else lastDeclared? i name before
  | _ :: before => lastDeclared? i name before

/-- The scope that a symbol was declared in. -/
def declaredIn? (n : Nat) : List Change → Option Nat
  | [] => none
  | .declare i .. :: before =>
    if n = (after before).symbols.size then some i else declaredIn? n before
  | _ :: before => declaredIn? n before

/-! ### The way outwards -/

/-- The scopes from one outwards, by their numbers. -/
inductive Way (t : Scopes) : Nat → List Nat → Prop
  | last {i kind} (h : t.shape? i = some (kind, none)) : Way t i [i]
  | next {i kind p path} (h : t.shape? i = some (kind, some p)) (hp : Way t p path) :
    Way t i (i :: path)

/-- What the scope says of the name. -/
def said? (t : Scopes) (i : Nat) (name : String) : Option Nat :=
  t.scopes[i]?.bind (·.names.lookup name)

variable {t t' : Scopes}

/-- From each scope there is a way outwards. -/
theorem Ordered.exists_way (h : t.Ordered) (hi : i < t.scopes.size) :
  ∃ path, t.Way i path
  := by
  induction i using Nat.strong_induction_on with
  | _ i ih =>
    cases hshape : t.shape? i with
    | none => exact absurd (shape?_eq_none_iff.mp hshape) (not_le.mpr hi)
    | some shape =>
      obtain ⟨kind, _ | p⟩ := shape
      · exact ⟨_, .last hshape⟩
      · have hp := h i kind p hshape
        obtain ⟨path, hpath⟩ := ih p hp (hp.trans hi)
        exact ⟨_, .next hshape hpath⟩

/-- Scopes keep their way as long as they keep their shapes. -/
theorem Way.of_shape (h : t.Way i path)
    (hshape : ∀ j shape, t.shape? j = some shape → t'.shape? j = some shape) :
  t'.Way i path
  := by
  induction h with
  | last h => exact .last (hshape _ _ h)
  | next h _ ih => exact .next (hshape _ _ h) ih

/-- The way outwards goes through the scopes around. -/
theorem Way.outwards (hway : t.Way i path) (h : t.Ordered) :
  List.Forall₂ (fun j sc => t.scopes[j]? = some sc) path (t.outwards i)
  := by
  induction hway with
  | @last i _ hshape =>
    obtain ⟨sc, hsc, heq⟩ := map_eq_some_iff.mp hshape
    have hout : t.outwards i = [sc] := by
      cases i <;> simp [Scopes.outwards, outwardsIn, hsc, (Prod.mk.inj heq).2]
    exact hout ▸ .cons hsc .nil
  | next hshape _ ih =>
    obtain ⟨sc, hsc, heq⟩ := map_eq_some_iff.mp hshape
    rw [h.outwards_cons hsc (Prod.mk.inj heq).2]
    exact .cons hsc ih

theorem Way.depth (hway : t.Way i path) (h : t.Ordered) :
  t.depth i + 1 = path.length
  := by
  rw [Scopes.depth, ← (hway.outwards h).length_eq]
  cases hway <;> rfl

/-- The first number on the way with which `f` comes to something is `j`, after the others. -/
def Nearest (f : Nat → Option Nat) (path before : List Nat) (j n : Nat) : Prop :=
  (∃ later, path = before ++ j :: later) ∧ (∀ k ∈ before, f k = none) ∧ f j = some n

theorem exists_nearest_cons {P : List Nat → Nat → Prop} :
  (∃ before j, Nearest f (i :: path) before j n ∧ P before j) ↔ f i = some n ∧ P [] i ∨
    f i = none ∧ ∃ before j, Nearest f path before j n ∧ P (i :: before) j
  := by
  constructor
  · rintro ⟨_ | ⟨_, before⟩, j, ⟨⟨later, heq⟩, hbefore, hj⟩, hP⟩
    · cases heq
      exact .inl ⟨hj, hP⟩
    · cases heq
      rw [List.forall_mem_cons] at hbefore
      exact .inr ⟨hbefore.1, before, j, ⟨⟨later, rfl⟩, hbefore.2, hj⟩, hP⟩
  · rintro (⟨hi, hP⟩ | ⟨hi, before, j, ⟨⟨later, rfl⟩, hbefore, hj⟩, hP⟩)
    · exact ⟨[], i, ⟨⟨path, rfl⟩, by simp, hi⟩, hP⟩
    · exact ⟨i :: before, j, ⟨⟨later, rfl⟩, List.forall_mem_cons.mpr ⟨hi, hbefore⟩, hj⟩, hP⟩

section

variable (hway : t.Way i path) (h : t.Ordered)

include hway h

/-- A name means what the first scope on the way says that says anything.  In the function it means
the same if only blocks are passed on the way, and the scope is not that of the module. -/
theorem Way.lookups (name : String) (n : Nat) :
  (t.lookup? i name = some n ↔ ∃ before j, Nearest (t.said? · name) path before j n ∧ True) ∧
    (t.ownLookup? i name = some n ↔ ∃ before j, Nearest (t.said? · name) path before j n ∧
      (∀ k ∈ before, t.kind? k = some .block) ∧ t.kind? j ≠ some .module)
  := by
  have hscopes := hway.outwards h
  rw [lookup?, ownLookup?]
  generalize t.outwards i = scopes at hscopes
  clear hway
  induction hscopes with
  | nil => simp [withinFunction, Nearest]
  | @cons j sc path scopes hsc _ ih =>
    have hkind : t.kind? j = some sc.kind := by simp [kind?, hsc]
    have hsaid : t.said? j name = sc.names.lookup name := by simp [said?, hsc]
    rw [withinFunction, exists_nearest_cons, exists_nearest_cons]
    cases hk : sc.kind <;> cases hn : sc.names.lookup name <;>
      simp [hkind, hsaid, hk, hn, ih]

end

/-! ### What the history says -/

/-- The tree holds what its history says. -/
structure Holds (changes : List Change) : Prop where
  ordered : (after changes).Ordered
  said : ∀ i name, (after changes).said? i name = lastDeclared? i name changes
  depth : ∀ n symbol, (after changes).symbol? n = some symbol → ∃ i path,
    declaredIn? n changes = some i ∧ (after changes).Way i path ∧ symbol.depth + 1 = path.length

/-- A change leaves the shapes of scopes as they are. -/
theorem Change.shape?_apply (c : Change) (h : t.shape? i = some shape) :
  (c.apply t).shape? i = some shape
  := by
  cases c with
  | push =>
    have hi : i ≠ t.scopes.size := by
      rintro rfl
      cases h.symm.trans (shape?_eq_none_iff.mpr le_rfl)
    rw [apply, shape?_push, if_neg hi, h]
  | declare => rw [apply, shape?_declare, h]
  | setType => rw [apply, shape?_setType, h]

theorem said?_declare (h : scope < t.scopes.size) :
  (t.declare scope x ty kind span slot).said? i name =
    if scope = i ∧ x = name then some t.symbols.size else t.said? i name
  := by
  simp only [said?, declare, Array.getElem?_modify]
  by_cases hi : scope = i
  · subst hi
    by_cases hx : x = name
    · simp [h, hx]
    · have hne : (name == x) = false := by simpa using Ne.symm hx
      simp [h, hx, List.lookup_cons, hne]
  · simp [hi]

/-- Each change that is possible keeps to the history. -/
theorem Holds.cons (h : Holds changes) (c : Change) (hc : c.scope < (after changes).scopes.size) :
  Holds (c :: changes)
  := by
  have hway {i : Nat} {path : List Nat} (hi : (after changes).Way i path) :
      (after (c :: changes)).Way i path := hi.of_shape fun _ _ => c.shape?_apply
  have hkeep {n : Nat} {symbol : SymbolInfo} (hn : (after changes).symbol? n = some symbol) :
      ∃ i path, declaredIn? n changes = some i ∧ (after (c :: changes)).Way i path ∧
        symbol.depth + 1 = path.length := by
    obtain ⟨i, path, hin, hi, hdepth⟩ := h.depth n symbol hn
    exact ⟨i, path, hin, hway hi, hdepth⟩
  cases c with
  | push parent kind =>
    refine ⟨?_, ?_, fun n symbol => hkeep⟩
    · intro i k p hshape
      rw [after, Change.apply, shape?_push] at hshape
      split at hshape
      · cases hshape
        subst i
        exact hc
      · exact h.ordered i k p hshape
    · intro i name
      refine trans ?_ (h.said i name)
      simp only [after, Change.apply, said?, push, Array.getElem?_push]
      split
      · simp_all
      · rfl
  | declare scope x ty kind span slot =>
    refine ⟨?_, ?_, ?_⟩
    · intro i k p
      rw [after, Change.apply, shape?_declare]
      apply h.ordered
    · intro i name
      have hscope : scope < (after changes).scopes.size := hc
      rw [lastDeclared?, ← h.said, after, Change.apply, said?_declare hscope]
    · intro n symbol hn
      rw [after, Change.apply, symbol?_declare] at hn
      rw [declaredIn?]
      split at hn
      · cases hn
        obtain ⟨path, hpath⟩ := h.ordered.exists_way hc
        exact ⟨scope, path, if_pos ‹_›, hway hpath, hpath.depth h.ordered⟩
      · rw [if_neg ‹_›]
        exact hkeep hn
  | setType id ty =>
    refine ⟨h.ordered, h.said, ?_⟩
    intro n symbol hn
    rw [after, Change.apply, symbol?_setType] at hn
    obtain ⟨symbol, hsymbol, rfl⟩ := map_eq_some_iff.mp hn
    obtain ⟨i, path, hin, hi, hdepth⟩ := hkeep hsymbol
    refine ⟨i, path, hin, hi, ?_⟩
    split <;> exact hdepth

/-- After possible changes the tree holds what its history says. -/
theorem holds_of_arePossible (h : arePossible changes) :
  Holds changes
  := by
  induction changes with
  | nil =>
    have hroot {i : Nat} {shape : Scope.Kind × Option Nat} (hi : new.shape? i = some shape) :
        shape = (.module, none) := by
      cases i <;> cases hi
      rfl
    refine ⟨fun i k p hi => (nomatch hroot hi), ?_, fun n symbol hn => (nomatch hn)⟩
    intro i name
    cases i <;> rfl
  | cons c before ih =>
    obtain ⟨hc, hbefore⟩ := Bool.and_eq_true_iff.mp h
    exact (ih hbefore).cons c (of_decide_eq_true hc)

/-! ### Queries -/

/-- What is asked in a scope about a name is answered as the history says, where `path` leads from
the scope outwards. -/
structure Answers (changes : List Change) (i : Nat) (name : String) (path : List Nat) : Prop where
  visible : ∀ n, (name, n) ∈ (after changes).visible i ↔ (after changes).lookup? i name = some n
  listed : name ∈ ((after changes).visible i).map (·.1) ↔
    ((after changes).lookup? i name).isSome = true
  lookup : ∀ n, (after changes).lookup? i name = some n ↔
    ∃ before j, Nearest (lastDeclared? · name changes) path before j n
  own : ∀ n, (after changes).ownLookup? i name = some n ↔
    ∃ before j, Nearest (lastDeclared? · name changes) path before j n ∧
      (∀ k ∈ before, (after changes).kind? k = some .block) ∧
      (after changes).kind? j ≠ some .module

theorem Holds.answers (h : Holds changes) (hway : (after changes).Way i path) :
  Answers changes i name path
  := by
  have hlookups := hway.lookups h.ordered name
  simp only [h.said, and_true] at hlookups
  refine ⟨fun n => mem_visible, ?_, fun n => (hlookups n).1, fun n => (hlookups n).2⟩
  simp [mem_visible, isSome_iff_exists]

/-- The tree that changes lead to answers by its history alone, and knows of each symbol how deep the
scope is that it was declared in. -/
theorem queries_agree (h : arePossible changes) :
  (∀ i (sc : Scope) p, (after changes).scopes[i]? = some sc → sc.parent = some p → p < i) ∧
    (∀ i name, i < (after changes).scopes.size →
      ∃ path, (after changes).Way i path ∧ Answers changes i name path) ∧
    ∀ n symbol, (after changes).symbol? n = some symbol → ∃ i path,
      declaredIn? n changes = some i ∧ (after changes).Way i path ∧ symbol.depth + 1 = path.length
  := by
  have hholds := holds_of_arePossible h
  refine ⟨?_, ?_, hholds.depth⟩
  · intro i sc p hsc hp
    exact hholds.ordered i sc.kind p (by rw [shape?, hsc, ← hp]; rfl)
  · intro i name hi
    obtain ⟨path, hway⟩ := hholds.ordered.exists_way hi
    exact ⟨path, hway, hholds.answers hway⟩

/-- A global, and a variable of the same name that is declared twice in a block of a function. -/
def shadowing : List Change :=
  [.setType 1 .int, .declare 2 "x" .unknown .variable .nowhere "x.2",
    .declare 2 "x" .str .variable .nowhere "x.1", .push 1 .block, .push 0 .function,
    .declare 0 "x" .int .global .nowhere "x"]

theorem shadowing_queries_agree :
  (after shadowing).lookup? 2 "x" = some 2 ∧ (after shadowing).ownLookup? 1 "x" = none ∧
    ∃ path, (after shadowing).Way 2 path ∧ Answers shadowing 2 "x" path
  := by
  obtain ⟨-, hanswers, -⟩ := queries_agree (show arePossible shadowing by decide)
  exact ⟨by decide, by decide, hanswers 2 "x" (by decide)⟩

end Endmark.Scopes
