import Endmark.Proofs.Typed.Elaboration.Basic
import Endmark.Proofs.Typed.Steps

/-!
# Where a check stands

While a function is checked its scopes are nested, and what is declared in them denotes
something of the plan or a slot.  So a name means what the open blocks bind it to, or else what
the plan has under that name.
-/

namespace Endmark.Typed

open Scopes
open Option Bool

/-! ### What symbols denote -/

/-- The symbol, declared in the scope, denotes a function or global of the plan, or a slot. -/
def Denotes (plan : Plan) (scope : Nat) (symbol : SymbolInfo) : Prop :=
  match symbol.kind with
  | .function => scope = 0 ∧ (plan.callable? symbol.name).isSome = true
  | .global => scope = 0 ∧ symbol.slot = symbol.name ∧ plan.outside.global symbol.name
  | .variable | .parameter => scope ≠ 0

/-- The scopes are nested, and their entries denote what there is. -/
structure Denoting (plan : Plan) (t : Scopes) : Prop where
  nested : t.Nested
  entry : ∀ i x n, t.Entry i x n → ∃ symbol, t.symbol? n = some symbol ∧ symbol.name = x ∧
    Denotes plan i symbol

/-- A scope of the function is open. -/
structure State.Lexical (s : State) (plan : Plan) : Prop where
  scopes : Denoting plan s.scopes
  inner : 0 < s.scope
  inTree : s.scope < s.scopes.scopes.size

/-- Where the check of a function stands. -/
def State.context (s : State) (env : Env) : Context :=
  ⟨s.scopes.blocks s.scope, (env.function.params.map fun p => (p.name, p.name)) ++
    s.locals.map fun l => (l.name, l.sourceName)⟩

namespace Denoting

variable {t : Scopes}

theorem filled (h : Denoting plan t) :
  t.Filled
  := by
  intro i x n hentry
  obtain ⟨symbol, hsymbol, _⟩ := h.entry i x n hentry
  rw [hsymbol]
  rfl

theorem setType (h : Denoting plan t) :
  Denoting plan (t.setType n ty)
  := by
  constructor
  · apply h.nested.of_shape fun _ => shape?_setType
  · intro i x m hentry
    obtain ⟨symbol, hsymbol, hname, hdenotes⟩ := h.entry i x m hentry
    rw [symbol?_setType, hsymbol]
    split
    · refine ⟨_, rfl, hname, ?_⟩
      apply hdenotes
    · refine ⟨_, rfl, hname, hdenotes⟩

theorem push (h : Denoting plan t) (hi : 0 < i) (hlt : i < t.scopes.size) :
  Denoting plan (t.push i .block)
  := by
  constructor
  · apply h.nested.push hi hlt
  · intro j x n hentry
    apply h.entry j x n (entry_push hentry)

/-- What is declared has to denote what there is. -/
theorem entry_declare (h : ∀ i x n, t.Entry i x n → ∃ symbol, t.symbol? n = some symbol ∧
      symbol.name = x ∧ Denotes plan i symbol)
    (hnew : Denotes plan i ⟨name, ty, t.depth i, kind, span, slot⟩) :
  ∀ j x n, (t.declare i name ty kind span slot).Entry j x n →
    ∃ symbol, (t.declare i name ty kind span slot).symbol? n = some symbol ∧
      symbol.name = x ∧ Denotes plan j symbol
  := by
  intro j x n hentry
  rw [symbol?_declare]
  obtain hold | ⟨rfl, rfl, rfl⟩ := Scopes.entry_declare hentry
  · obtain ⟨symbol, hsymbol, hname, hdenotes⟩ := h j x n hold
    have hne : n ≠ t.symbols.size := by
      rintro rfl
      rw [symbol?_size] at hsymbol
      cases hsymbol
    rw [if_neg hne]
    use symbol
  · rw [if_pos rfl]
    exact ⟨_, rfl, rfl, hnew⟩

theorem declare (h : Denoting plan t)
    (hnew : Denotes plan i ⟨name, ty, t.depth i, kind, span, slot⟩) :
  Denoting plan (t.declare i name ty kind span slot)
  := by
  constructor
  · apply h.nested.of_shape fun _ => shape?_declare
  · apply entry_declare h.entry hnew

end Denoting

/-! ### Names -/

/-- A call finds a function with so many parameters. -/
theorem Plan.outside_of_callable? {p : Plan} (h : p.callable? name = some target) :
  p.outside.function name (p.functions.getD target default).params.length
  := by
  obtain ⟨hlt, hname, _⟩ := List.findIdx?_eq_some_iff_getElem.mp h
  have hget : p.functions.getD target default = p.functions[target] := by
    simp [List.getElem?_eq_getElem hlt]
  simp only [and_eq_true, beq_iff_eq, not_eq_true'] at hname
  rw [hget]
  use p.functions[target], List.getElem_mem hlt, hname.2, hname.1

namespace State.Lexical

variable {s : State}

/-- What a name means in the function is the slot that it is bound to. -/
theorem slot?_of_own (h : s.Lexical plan) (hown : s.Own name n symbol) :
  (s.scopes.blocks s.scope).slot? name = some symbol.slot
  := by
  rw [h.scopes.filled.slot?_blocks, hown.1, bind_some, hown.2]
  rfl

theorem slot?_of_none (h : s.Lexical plan) (hnone : s.scopes.ownLookup? s.scope name = none) :
  (s.scopes.blocks s.scope).slot? name = none
  := by
  rw [h.scopes.filled.slot?_blocks, hnone]
  rfl

/-- A name means a slot of the function that it is bound to, or something of the module. -/
theorem own_or_root (h : s.Lexical plan) (hmeans : s.Means name symbol) :
  ((s.scopes.blocks s.scope).slot? name = some symbol.slot ∧ symbol.name = name ∧
      ∃ i, i ≠ 0 ∧ Denotes plan i symbol) ∨
    (s.scopes.blocks s.scope).slot? name = none ∧ symbol.name = name ∧ Denotes plan 0 symbol
  := by
  obtain ⟨n, hn, hsymbol⟩ := bind_eq_some_iff.mp hmeans
  rw [h.scopes.nested.lookup?_eq h.inner h.inTree] at hn
  cases hown : s.scopes.ownLookup? s.scope name with
  | some m =>
    rw [hown] at hn
    cases hn
    left
    obtain ⟨i, hi, hentry⟩ := h.scopes.nested.entry_of_own hown
    obtain ⟨symbol', hsymbol', hname, hdenotes⟩ := h.scopes.entry i name n hentry
    cases hsymbol'.symm.trans hsymbol
    use h.slot?_of_own ⟨hown, hsymbol⟩, hname, i
  | none =>
    rw [hown] at hn
    right
    have hentry := h.scopes.nested.entry_of_root hn
    obtain ⟨symbol', hsymbol', hname, hdenotes⟩ := h.scopes.entry 0 name n hentry
    cases hsymbol'.symm.trans hsymbol
    use h.slot?_of_none hown, hname

/-- The variable that a name means is the one that it refers to. -/
theorem refers (h : s.Lexical plan) (hmeans : s.Means name symbol)
    (hv : SymbolInfo.meaning? symbol = some v) :
  Refers plan.outside (s.scopes.blocks s.scope) name v
  := by
  unfold SymbolInfo.meaning? at hv
  obtain ⟨hslot, hname, i, hi, hdenotes⟩ | ⟨hslot, hname, hdenotes⟩ := h.own_or_root hmeans
  · unfold Denotes at hdenotes
    split at hv
    · cases hv
    · rename_i hkind
      rw [hkind] at hdenotes
      cases hi hdenotes.1
    all_goals
      cases hv
      apply Refers.slot hslot
  · unfold Denotes at hdenotes
    split at hv
    · cases hv
    · rename_i hkind
      rw [hkind] at hdenotes
      cases hv
      rw [hdenotes.2.1, hname]
      apply Refers.global hslot
      rw [← hname]
      apply hdenotes.2.2
    all_goals
      rename_i hkind
      rw [hkind] at hdenotes
      cases hdenotes rfl

/-- A name that means a function is bound to no slot. -/
theorem function (h : s.Lexical plan) (hmeans : s.Means name symbol)
    (hkind : symbol.kind = .function) :
  (s.scopes.blocks s.scope).slot? name = none ∧ symbol.name = name ∧
    (plan.callable? name).isSome
  := by
  obtain ⟨_, _, i, hi, hdenotes⟩ | ⟨hslot, hname, hdenotes⟩ := h.own_or_root hmeans
  · rw [Denotes, hkind] at hdenotes
    cases hi hdenotes.1
  · rw [Denotes, hkind, hname] at hdenotes
    use hslot, hname, hdenotes.2

end State.Lexical

/-! ### States with the same names -/

/-- Between the states nothing has been declared. -/
structure State.Same (s s' : State) : Prop where
  scopes : s'.scopes = s.scopes
  scope : s'.scope = s.scope
  locals : s'.locals = s.locals

theorem State.Same.refl (s : State) :
  s.Same s
  := ⟨rfl, rfl, rfl⟩

theorem State.Same.trans {s : State} (h : s.Same s') (h' : s'.Same s'') :
  s.Same s''
  := ⟨h'.scopes.trans h.scopes, h'.scope.trans h.scope, h'.locals.trans h.locals⟩

theorem State.Same.lexical {s : State} (h : s.Same s') (hs : s.Lexical plan) :
  s'.Lexical plan
  := by
  constructor
  · rw [h.scopes]
    apply hs.scopes
  · rw [h.scope]
    apply hs.inner
  · rw [h.scope, h.scopes]
    apply hs.inTree

theorem State.Same.context {s : State} (h : s.Same s') :
  s'.context env = s.context env
  := by
  rw [State.context, State.context, h.scopes, h.scope, h.locals]

/-- The open scope is the same one in both states, and has the same scopes around it. -/
structure State.Around (s s' : State) : Prop where
  scope : s'.scope = s.scope
  shape : ∀ i shape, s.scopes.shape? i = some shape → s'.scopes.shape? i = some shape

theorem State.Same.around {s : State} (h : s.Same s') :
  s.Around s'
  := by
  constructor
  · apply h.scope
  · rw [h.scopes]
    intro i shape hi
    apply hi

theorem State.Around.trans {s : State} (h : s.Around s') (h' : s'.Around s'') :
  s.Around s''
  := by
  constructor
  · rw [h'.scope, h.scope]
  · intro i shape hi
    apply h'.shape i shape (h.shape i shape hi)

end Endmark.Typed
