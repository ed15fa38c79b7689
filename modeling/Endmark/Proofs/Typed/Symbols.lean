import Endmark.Proofs.Typed.Growth

/-!
# What symbols stand for

While a function is checked, the names declared in it are its parameters and its slots, and
those declared in the module are functions and globals of the plan.
-/

namespace Endmark.Typed

open Tables
open Scopes
open List Option
open Endmark.Tree (Program)

/-- The symbol stands for something of the plan, or for a slot of the function. -/
def Stands (env : Env) (s : State) (symbol : SymbolInfo) : Prop :=
  match symbol.kind with
  | .function => (env.plan.callable? symbol.name).isSome = true
  | .global => symbol.slot = symbol.name ∧ symbol.name ∈ env.plan.globals.map (·.1)
  | .parameter => symbol.slot = symbol.name ∧ symbol.name ∈ env.function.params.map (·.name)
  | .variable => env.function.topLevel = false ∧ symbol.slot ∈ s.locals.map (·.name) ∧
      (s.found.slot? env.index symbol.slot).isSome = true

/-- Entries mean symbols of their names, and symbols stand for what there is. -/
structure Arranged (env : Env) (s : State) : Prop where
  length : s.found.functions.length = env.plan.functions.length
  inner : 0 < s.scope
  root : s.scopes.kind? 0 = some .module
  entry : ∀ i name n, s.scopes.Entry i name n → ∃ symbol, s.scopes.symbol? n = some symbol ∧
    symbol.name = name ∧ (i ≠ 0 → symbol.kind = .variable ∨ symbol.kind = .parameter)
  symbol : ∀ n symbol, s.scopes.symbol? n = some symbol → Stands env s symbol
  slot : ∀ x ty, s.found.slot? env.index x = some ty → x ∈ s.locals.map (·.name)

variable {k : Nat} {prev : Tables} {plan : Plan}

/-- Nothing that symbols stand for is lost when slots are found and declared. -/
theorem Stands.mono (h : Stands env s symbol) (hlocals : s.locals ⊆ s'.locals)
    (hslots : ∀ x, (s.found.slot? env.index x).isSome → (s'.found.slot? env.index x).isSome) :
  Stands env s' symbol
  := by
  unfold Stands at h ⊢
  generalize symbol.kind = kind at h ⊢
  cases kind with
  | function | global | parameter => apply h
  | _ => use h.1, map_subset _ hlocals h.2.1, hslots _ h.2.2

namespace Arranged

/-- What a name means in the enclosing function is a slot or a parameter. -/
theorem kind_of_own (h : Arranged env s) {symbol : SymbolInfo} (hown : s.Own name n symbol) :
  symbol.kind = .variable ∨ symbol.kind = .parameter
  := by
  obtain ⟨j, hentry, hkind⟩ := entry_of_ownLookup? hown.1
  obtain ⟨symbol', hsymbol', _, hkinds⟩ := h.entry j name n hentry
  cases hsymbol'.symm.trans hown.2
  apply hkinds
  rintro rfl
  apply hkind h.root

/-- Changing the found types, but not where they are, keeps the arrangement. -/
theorem withFound (h : Arranged env s) (found : Tables)
    (hlength : found.functions.length = s.found.functions.length)
    (hslot : ∀ x, found.slot? env.index x = s.found.slot? env.index x) :
  Arranged env { s with found }
  := by
  refine { h with length := hlength.trans h.length, symbol := ?_, slot := ?_ }
  · intro n symbol hn
    apply (h.symbol n symbol hn).mono
    · apply Subset.refl
    · intro x hx
      rw [hslot]
      apply hx
  · intro x ty hx
    rw [hslot] at hx
    apply h.slot x ty hx

theorem takes (h : Arranged env s) (htakes : s.found.Takes target k declared ty found) :
  Arranged env { s with found }
  := h.withFound found htakes.grows.length htakes.sameAt.slot

/-- Finding a type for a slot that is declared, now or before, keeps the arrangement. -/
theorem setSlot (h : Arranged env s) (ty : Ty) (again : List (String × Nat))
    (hlocals : s.locals ⊆ locals) (hx : x ∈ locals.map (·.name)) :
  Arranged env { s with found := s.found.setSlot env.index x ty, locals, again }
  := by
  refine { h with
    length := length_setSlot.trans h.length, symbol := ?_, slot := ?_ }
  · intro n symbol hn
    apply (h.symbol n symbol hn).mono hlocals
    intro y hy
    rw [slot?_setSlot]
    split
    · rfl
    · apply hy
  · intro y u hy
    rw [slot?_setSlot] at hy
    split at hy
    · rename_i hxy
      rw [← hxy.2]
      apply hx
    · apply map_subset _ hlocals (h.slot y u hy)

/-- Changing the type of a symbol keeps the arrangement. -/
theorem setType (h : Arranged env s) : Arranged env { s with scopes := s.scopes.setType n ty }
  := by
  refine { h with entry := ?_, symbol := ?_ }
  · intro i name k hentry
    obtain ⟨symbol, hk, hname, hkind⟩ := h.entry i name k hentry
    use if n = k then { symbol with ty } else symbol
    constructor
    · rw [symbol?_setType, hk]
      rfl
    · split <;> exact ⟨hname, hkind⟩
  · intro k symbol hk
    rw [symbol?_setType] at hk
    obtain ⟨old, hold, rfl⟩ := map_eq_some_iff.mp hk
    split <;> apply h.symbol k old hold

/-- Declaring a symbol that stands for something keeps the arrangement. -/
theorem declare (h : Arranged env s) {span : Span} {slot : String}
    (hstands : ∀ depth, Stands env s ⟨name, ty, depth, kind, span, slot⟩)
    (hkind : scope ≠ 0 → kind = .variable ∨ kind = .parameter) :
  Arranged env { s with scopes := s.scopes.declare scope name ty kind span slot }
  := by
  refine { h with root := (kind?_declare ..).trans h.root, entry := ?_, symbol := ?_ }
  · intro i x n hentry
    rw [symbol?_declare]
    obtain hentry | ⟨rfl, rfl, rfl⟩ := entry_declare hentry
    · obtain ⟨symbol, hn, hname, hkinds⟩ := h.entry i x n hentry
      use symbol
      rw [if_neg]
      · use hn, hname, hkinds
      · rintro rfl
        rw [symbol?_size] at hn
        cases hn
    · rw [if_pos rfl]
      exact ⟨_, rfl, rfl, hkind⟩
  · intro n symbol hn
    rw [symbol?_declare] at hn
    split at hn
    · cases hn
      apply hstands
    · apply h.symbol n symbol hn

theorem size_pos (h : Arranged env s) :
  0 < s.scopes.scopes.size
  := by
  obtain ⟨sc, hsc, _⟩ := map_eq_some_iff.mp h.root
  apply (getElem?_eq_some_iff.mp hsc).1

/-- Opening a scope keeps the arrangement. -/
theorem push (h : Arranged env s) : Arranged env { s with scopes := s.scopes.push parent kind }
  := by
  refine { h with root := ?_, entry := ?_ }
  · rw [kind?_push, if_neg (ne_of_lt h.size_pos)]
    apply h.root
  · intro i name n hentry
    apply h.entry i name n (entry_push hentry)

end Arranged

/-- Each step keeps the arrangement. -/
theorem Step.arranged (h : Step env m m') (henv : env.Sound) (hm : Arranged env m.state) :
  Arranged env m'.state
  := by
  cases h with
  | form | skip | returnDeclared => apply hm
  | warn => exact { hm with }
  | pass _ _ htakes => apply hm.takes htakes
  | returnJoined => apply hm.withFound <;> simp
  | @declare _ ty ident s _ _ htop =>
    let slot : Local := ⟨s.newSlot ident.name, ident.name, ty, ident.span⟩
    have hslot := hm.setSlot (x := slot.name) ty ((ident.name, s.times ident.name) :: s.again)
      (subset_append_left s.locals [slot]) (by simp)
    apply hslot.declare
    · intro depth
      use htop
      constructor
      · simp [slot]
      · simp [slot, slot?_setSlot, hm.length, henv.index_lt]
    · intro _
      left
      rfl
  | assignParam _ _ _ _ _ htakes => apply (hm.takes htakes).setType
  | assignOther => apply hm.setType
  | @assignSlot _ _ name n symbol joined s _ hown hkind _ =>
    have hstands := hm.symbol n symbol hown.2
    have hvariable := (hm.kind_of_own hown).resolve_right hkind
    simp only [Stands, hvariable] at hstands
    have hslot := hm.setSlot joined s.again (.refl _) hstands.2.1
    apply hslot.setType
  | @assignGlobal _ _ joined ident s _ hbinds htop _ _ =>
    have hglobal := henv.globals htop ident.name hbinds
    have hfound := hm.withFound (s.found.setGlobal ident.name joined) rfl fun _ => rfl
    simp only [State.withGlobal]
    split
    · apply hfound.setType
    · apply hfound.declare
      · intro depth
        exact ⟨rfl, hglobal⟩
      · intro h
        cases h rfl
  | @enter _ s => exact { hm.push with inner := hm.size_pos }
  | leave h => exact { hm with inner := h }

/-- The function that is found under a name is there. -/
theorem callable?_isSome (hg : plan.functions[k]? = some g) (htop : g.topLevel = false) :
  (plan.callable? g.name).isSome
  := by
  rw [Plan.callable?, findIdx?_isSome, List.any_eq_true]
  use g, mem_of_getElem? hg
  simp [htop]

/-- At its start a function is arranged, if nothing is found of its slots yet. -/
theorem start_arranged (hlength : found.functions.length = plan.functions.length)
    (hslot : ∀ x, found.slot? index x = none) :
  Arranged (.of plan prev index f) (.start plan prev found reports index f)
  := by
  apply startScopes_of (P := fun t => Arranged (.of plan prev index f)
    { State.start plan prev found reports index f with scopes := t })
  · constructor
    · apply hlength
    · apply one_pos
    · rfl
    · rintro i name n ⟨sc, hsc, hn⟩
      obtain ⟨_, rfl⟩ := getElem?_eq_some_iff.mp hsc
      simp [new] at hn
    · intro n symbol hn
      simp [new, symbol?] at hn
    · intro x ty hx
      cases (hslot x).symm.trans hx
  · intro t k g hg htop ht
    apply ht.declare
    · intro depth
      apply callable?_isSome hg htop
    · intro h
      cases h rfl
  · intro _ t g hg ht
    apply ht.declare
    · intro depth
      exact ⟨rfl, mem_map_of_mem hg⟩
    · intro h
      cases h rfl
  · intro t ht
    apply ht.push
  · intro t k p hp ht
    apply ht.declare
    · intro depth
      exact ⟨rfl, mem_map_of_mem (mem_of_getElem? hp)⟩
    · intro _
      right
      rfl

/-! ### Plans -/

/-- Each name that is bound has a first binding. -/
theorem mem_firstBindings (h : ident ∈ idents) :
  ident.name ∈ (firstBindings idents).map (·.1)
  := by
  induction idents with
  | nil => cases h
  | cons first rest ih =>
    rw [firstBindings, map_cons, mem_cons]
    by_cases hname : ident.name = first.name
    · left
      apply hname
    · right
      obtain rfl | h := mem_cons.mp h
      · cases hname rfl
      · obtain ⟨binding, hbinding, heq⟩ := mem_map.mp (ih h)
        apply List.mem_map.mpr
        use binding
        simp [hbinding, heq, hname]

/-- All names that statements bind are among the globals. -/
theorem mem_globalsOf (h : ident ∈ boundByAll body) :
  ident.name ∈ (globalsOf body).map (·.1)
  := by
  obtain ⟨binding, hbinding, heq⟩ := mem_map.mp (mem_firstBindings h)
  apply List.mem_map.mpr
  use binding, mem_mergeSort.mpr hbinding, heq

/-- The functions of a plan without errors are as they have to be. -/
theorem PlansProgram.sound (h : PlansProgram program plan) (prev : Tables)
    (hf : plan.functions[i]? = some f) :
  (Env.of plan prev i f).Sound
  := by
  obtain ⟨g, _, hg⟩ | hstatements := h.planned (mem_of_getElem? hf)
  · constructor
    · apply hf
    · apply hg.params.nodup
    · intro htop
      cases hg.topLevel.symm.trans htop
    · intro htop
      cases hg.topLevel.symm.trans htop
  · constructor
    · apply hf
    · simp [Env.of, hstatements.params]
    · intro _
      apply hstatements.params
    · rintro _ name ⟨ident, hident, rfl⟩
      simp only [Env.of, h.globals]
      apply mem_globalsOf
      rw [← hstatements.body]
      apply hident

/-! ### Passes -/

/-- Only globals of the plan are found. -/
def Tables.GlobalsIn (plan : Plan) (t : Tables) : Prop :=
  ∀ x ty, t.global? x = some ty → x ∈ plan.globals.map (·.1)

theorem Tables.Takes.global? {t : Tables} (h : t.Takes target k declared ty t') :
  t'.global? x = t.global? x
  := by
  cases declared with
  | none =>
    obtain ⟨_, _, rfl⟩ := h
    rfl
  | some _ =>
    obtain ⟨_, rfl⟩ := h
    rfl

/-- A step finds planned globals only. -/
theorem Step.globalsIn (h : Step env m m') (henv : env.Sound)
    (hm : m.state.found.GlobalsIn env.plan) :
  m'.state.found.GlobalsIn env.plan
  := by
  cases h with
  | pass _ _ htakes | assignParam _ _ _ _ _ htakes =>
    intro x ty hx
    apply hm x ty
    rw [← hx]
    apply htakes.global?.symm
  | @assignGlobal _ _ joined ident s _ hbinds htop _ _ =>
    intro x ty hx
    rw [State.withGlobal, global?_setGlobal] at hx
    split at hx
    · rename_i hname
      rw [← hname]
      apply henv.globals htop ident.name hbinds
    · apply hm x ty hx
  | _ => apply hm

theorem Checked.globalsIn (h : Checked plan prev index fs found gs found')
    (hsound : ∀ j f, fs[j]? = some f → (Env.of plan prev (index + j) f).Sound)
    (hfound : found.GlobalsIn plan) :
  found'.GlobalsIn plan
  := by
  induction h with
  | nil => apply hfound
  | cons hfirst _ ih =>
    obtain ⟨_, s, _, hsteps, _, _, rfl⟩ := hfirst
    apply ih
    · intro j f hf
      rw [add_right_comm]
      apply hsound (j + 1) f hf
    · apply hsteps.keep (fun h => h.globalsIn (hsound 0 _ rfl)) hfound

/-- A pass that reports no error finds types of the globals of the plan only. -/
theorem pass_globalsIn (hplan : PlansProgram program plan) (h : Clean plan prev) :
  (pass plan prev).found.GlobalsIn plan
  := by
  apply (pass_checked h).globalsIn
  · intro j f hf
    rw [zero_add]
    apply hplan.sound prev hf
  · intro x ty hx
    rw [global?_initial] at hx
    split at hx
    · assumption
    · cases hx

/-- How the function `g` with the number `i` comes about in a pass that reads `prev` and finds
`last`: there are steps from its start to the state `s` which account for all of it. -/
structure CheckedIn (plan : Plan) (prev last : Tables) (i : Nat) (f : FunctionPlan)
    (g : Function) (before : Tables) (reports : Array Diagnostic) (s : State)
    (events : List Event) : Prop where
  steps : Steps (.of plan prev i f) ⟨.start plan prev before reports i f, []⟩ ⟨s, events⟩
  account : ∀ w ∈ accountOf g.body, w ∈ events
  typed : g = f.typed prev i g.body s
  initial : (Tables.initial plan).Grows before
  noSlots : ∀ x, before.slot? i x = none
  grows : s.found.Grows last
  same : Tables.SameAt i s.found last

/-- What is read, and found no less, is what reads see. -/
theorem refined_eq {held found : Ty} (h : held.fits found) :
  .refined (some held) found = held
  := by
  rw [Ty.refined, bind_some, Ty.fits_iff.mp h]
  rfl

namespace CheckedIn

/-- The function is arranged at its start. -/
theorem start (h : CheckedIn plan prev last i f g before reports s events) :
  Arranged (.of plan prev i f) (.start plan prev before reports i f)
  := by
  apply start_arranged _ h.noSlots
  rw [h.initial.length]
  apply length_map

theorem arranged (h : CheckedIn plan prev last i f g before reports s events)
    (henv : (Env.of plan prev i f).Sound) :
  Arranged (.of plan prev i f) s
  := h.steps.keep (fun h => h.arranged henv) h.start

/-- The result is what the pass has found in the end. -/
theorem result (h : CheckedIn plan prev last i f g before reports s events) :
  g.result = (last.function i).result
  := by
  rw [h.typed, h.same.result]
  rfl

variable (h : CheckedIn plan prev prev i f g before reports s events)

include h

/-- When the pass finds what it has read, that is what the parameters have. -/
theorem param (hf : plan.functions[i]? = some f) (hp : f.params[k]? = some p) :
  ∃ ty, prev.param? i k = some ty ∧ g.params[k]? = some ⟨p.name, p.name, ty, p.span⟩
  := by
  obtain ⟨t, ht, _⟩ := (h.initial.trans h.steps.grows).param i k _
    (covers_self (param?_initial_of hf hp))
  obtain ⟨ty, hty, hfits⟩ := h.grows.param i k t (covers_self ht)
  rw [h.typed]
  simp [FunctionPlan.typed, hp, hty, ht, refined_eq hfits]

/-- When the pass finds what it has read, each slot that is found is among the locals, with
what has been found. -/
theorem exists_local (henv : (Env.of plan prev i f).Sound) (hx : prev.slot? i x = some ty) :
  ∃ l ∈ g.locals, l.ty = ty
  := by
  have hfound : s.found.slot? i x = some ty := by
    rw [← h.same.slot x, hx]
  obtain ⟨l, hl, hname⟩ := mem_map.mp ((h.arranged henv).slot x ty hfound)
  use { l with ty }
  rw [h.typed]
  constructor
  · apply List.mem_map.mpr
    use l, hl
    rw [hname, hx, hfound, getD_some, refined_eq ty.fits_self]
  · rfl

end CheckedIn

/-- Each function of the plan is checked in a pass that reports no error. -/
theorem pass_function (h : Clean plan prev) (hf : plan.functions[i]? = some f) :
  ∃ g before reports s events, (pass plan prev).module.functions[i]? = some g ∧
    CheckedIn plan prev (pass plan prev).found i f g before reports s events
  := by
  obtain ⟨g, before, after, hg, hchecked, hbefore, hafter, hsame, hsame'⟩ :=
    (pass_checked h).function hf
  rw [zero_add] at hchecked hsame hsame'
  obtain ⟨reports, s, events, hsteps, haccount, htyped, rfl⟩ := hchecked
  use g, before, reports, s, events, hg
  refine ⟨hsteps, haccount, htyped, hbefore, ?_, hafter, hsame'⟩
  intro x
  rw [hsame.slot, slot?_initial]

/-- Each function that comes out of such a pass is a checked one of the plan. -/
theorem exists_checkedIn (h : Clean plan prev) (hg : g ∈ (pass plan prev).module.functions) :
  ∃ i f before reports s events, plan.functions[i]? = some f ∧
    CheckedIn plan prev (pass plan prev).found i f g before reports s events
  := by
  obtain ⟨i, hi⟩ := mem_iff_getElem?.mp hg
  have hlt := (List.getElem?_eq_some_iff.mp hi).1
  rw [(pass_checked h).length] at hlt
  have hf := getElem?_eq_getElem hlt
  obtain ⟨g', before, reports, s, events, hg', hchecked⟩ := pass_function h hf
  cases hi.symm.trans hg'
  use i, plan.functions[i], before, reports, s, events

end Endmark.Typed
