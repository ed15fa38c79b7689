import Endmark.Proofs.Typed.Faults
import Endmark.Proofs.Typed.Names

/-!
# Consistent types

A pass reads what the pass before has found.  When it finds no more than that, each use of a
variable has the type that is recorded for it, calls have the results of the functions that
they call, and arguments fit the parameters.
-/

namespace Endmark.Typed

open State
open Scopes
open Typed.SymbolInfo
open Tables
open List Option Bool
open Endmark.Tree (Program)

/-! ### Steps that find no more than has been read -/

/-- What `t` holds of parameters, globals and the slots of one function lies below what `t'`
holds. -/
structure Tables.Within (i : Nat) (t t' : Tables) : Prop where
  param : ∀ j k ty, Covers (t.param? j k) ty → Covers (t'.param? j k) ty
  global : ∀ x ty, Covers (t.global? x) ty → Covers (t'.global? x) ty
  slot : ∀ x ty, Covers (t.slot? i x) ty → Covers (t'.slot? i x) ty

variable {env : Env} {prev : Tables}

/-- What is found after a step bounds what has been found before. -/
theorem Step.within (h : Step env m m') (henv : env.Ready)
    (hm : Orderly env m.state) (hwithin : m'.state.found.Within env.index t) :
  m.state.found.Within env.index t
  := by
  constructor
  · intro j k ty hty
    apply hwithin.param j k ty (h.grows.param j k ty hty)
  · intro x ty hty
    apply hwithin.global x ty (h.grows.global x ty hty)
  · intro x ty hty
    apply hwithin.slot x ty (h.slot_grows henv hm hty)

/-- The variable has the type in the tables that the pass reads. -/
def Env.Holds (env : Env) (s : State) : Variable → Ty → Prop
  | .slot x, ty =>
    (∃ k p, env.function.params[k]? = some p ∧ p.name = x ∧
      env.prev.param? env.index k = some ty) ∨
    x ∈ s.locals.map (·.name) ∧ env.prev.slot? env.index x = some ty
  | .global x, ty => x ∈ env.plan.globals.map (·.1) ∧ env.prev.global? x = some ty

/-- Variables are used with the types that have been read, and what they and the parameters
of functions are given fits those. -/
structure Agrees (env : Env) (m : Moment) : Prop where
  symbol : ∀ n symbol v, m.state.scopes.symbol? n = some symbol →
    SymbolInfo.meaning? symbol = some v → env.Holds m.state v symbol.ty
  used : ∀ n v, .formed (.var n v) ∈ m.events → env.Holds m.state v n.ty
  assigned : ∀ v ty, .assigned v ty ∈ m.events →
    ∃ u, env.Holds m.state v u ∧ u.fits ty = true
  passed : ∀ target k arg, .passed target k arg ∈ m.events →
    arg.ty = .error ∨ Covers (env.prev.param? target k) arg.ty

/-- No variable is lost when slots are declared. -/
theorem Env.Holds.mono (h : env.Holds s v ty) (hlocals : s.locals ⊆ s'.locals) :
  env.Holds s' v ty
  := by
  cases v with
  | slot x =>
    apply h.imp_right
    intro ⟨hx, hty⟩
    use map_subset _ hlocals hx, hty
  | global x => apply h

namespace Agrees

/-- What has been agreed on stays so in a state with no fewer slots, if its symbols agree. -/
theorem of_symbols (h : Agrees env ⟨s, events⟩) (hlocals : s.locals ⊆ s'.locals)
    (hsymbol : ∀ n symbol v, s'.scopes.symbol? n = some symbol →
      meaning? symbol = some v → env.Holds s' v symbol.ty) :
  Agrees env ⟨s', events⟩
  := by
  constructor
  · apply hsymbol
  · intro n v hv
    apply (h.used n v hv).mono hlocals
  · intro v ty hv
    obtain ⟨u, hu, hfits⟩ := h.assigned v ty hv
    use u, hu.mono hlocals, hfits
  · apply h.passed

/-- The symbols stay as they are. -/
theorem of_scopes (h : Agrees env ⟨s, events⟩) (hlocals : s'.locals = s.locals)
    (hscopes : ∀ n, s'.scopes.symbol? n = s.scopes.symbol? n) :
  Agrees env ⟨s', events⟩
  := by
  have hsubset : s.locals ⊆ s'.locals := by
    rw [hlocals]
    apply Subset.refl
  apply h.of_symbols hsubset
  intro n symbol v hn hv
  rw [hscopes] at hn
  apply (h.symbol n symbol v hn hv).mono hsubset

/-- The type of a symbol becomes the one that has been read for its variable. -/
theorem setType (h : Agrees env ⟨s, events⟩) (found : Tables)
    (hn : ∀ symbol v, s.scopes.symbol? n = some symbol →
      meaning? symbol = some v → env.Holds s v ty) :
  Agrees env ⟨{ s with found, scopes := s.scopes.setType n ty }, events⟩
  := by
  apply h.of_symbols
  · apply Subset.refl
  · intro k symbol v hk hv
    rw [symbol?_setType] at hk
    obtain ⟨old, hold, rfl⟩ := map_eq_some_iff.mp hk
    split at hv
    · rename_i hnk
      subst hnk
      rw [if_pos rfl]
      apply hn old v hold hv
    · rename_i hnk
      rw [if_neg hnk]
      apply h.symbol k old v hold hv

/-- A symbol is declared for a variable, with the type that has been read. -/
theorem declare (h : Agrees env ⟨s, events⟩) {scope : Nat} {span : Span}
    (hlocals : s.locals ⊆ s'.locals)
    (hscopes : s'.scopes = s.scopes.declare scope name ty kind span slot)
    (hholds : ∀ depth v, meaning? ⟨name, ty, depth, kind, span, slot⟩ = some v → env.Holds s' v ty) :
  Agrees env ⟨s', events⟩
  := by
  apply h.of_symbols hlocals
  intro n symbol v hn hv
  rw [hscopes, symbol?_declare] at hn
  split at hn
  · cases hn
    apply hholds _ v hv
  · apply (h.symbol n symbol v hn hv).mono hlocals

/-- One more event is noted, and what it says agrees with what has been read. -/
theorem note (h : Agrees env ⟨s, events⟩)
    (hevent : match event with
      | .formed (.var n v) => env.Holds s v n.ty
      | .assigned v ty => ∃ u, env.Holds s v u ∧ u.fits ty
      | .passed target k arg => arg.ty = .error ∨ Covers (env.prev.param? target k) arg.ty
      | _ => True) :
  Agrees env ⟨s, event :: events⟩
  := by
  constructor
  · apply h.symbol
  · intro n v hv
    obtain rfl | hv := mem_cons.mp hv
    · apply hevent
    · apply h.used n v hv
  · intro v ty hv
    obtain rfl | hv := mem_cons.mp hv
    · apply hevent
    · apply h.assigned v ty hv
  · intro target k arg harg
    obtain rfl | harg := mem_cons.mp harg
    · apply hevent
    · apply h.passed target k arg harg

end Agrees

/-- A parameter that has taken a value has been read with a type that the value fits. -/
theorem Tables.Takes.fits {p : ParamPlan} (h : t.Takes target k p.declared ty t')
    (hp : (plan.functions.getD target default).params[k]? = some p)
    (hinitial : (initial plan).Grows t) (hprev : (initial plan).Grows prev)
    (hwithin : ∀ u, Covers (t'.param? target k) u → Covers (prev.param? target k) u) :
  Covers (prev.param? target k) ty
  := by
  have hplanned : (initial plan).param? target k = some (p.declared.getD .unknown) := by
    rw [getD_eq_getElem?_getD] at hp
    cases hf : plan.functions[target]? with
    | none =>
      rw [hf] at hp
      cases hp
    | some f =>
      rw [hf] at hp
      apply param?_initial_of hf hp
  cases hdeclared : p.declared with
  | some declared =>
    rw [hdeclared] at h hplanned
    apply hprev.param target k ty ⟨declared, hplanned, h.1⟩
  | none =>
    rw [hdeclared] at h
    obtain ⟨joined, hjoined, rfl⟩ := h
    obtain ⟨held, hheld, _⟩ := hinitial.param target k _ (covers_self hplanned)
    apply hwithin ty
    use joined, by simp [param?_setParam, hheld], (Ty.fits_of_join hjoined).2

/-- A variable has one type only. -/
theorem Env.Holds.unique (henv : env.Sound) (hdistinct : Distinct env s)
    (h : env.Holds s v ty) (h' : env.Holds s v ty') :
  ty = ty'
  := by
  obtain ⟨_, _, hdisjoint⟩ := nodup_append.mp hdistinct.nodup
  -- a parameter and a slot have different names
  have happart {k : Nat} {p : ParamPlan} (hp : env.function.params[k]? = some p) :
      p.name ∉ s.locals.map (·.name) := by
    intro hmem
    apply hdisjoint p.name _ p.name hmem rfl
    apply mem_map_of_mem (mem_of_getElem? hp)
  cases v with
  | slot x =>
    obtain ⟨k, p, hp, rfl, hty⟩ | ⟨hx, hty⟩ := h
    · obtain ⟨k', p', hp', hname, hty'⟩ | ⟨hx, _⟩ := h'
      · have hk : k = k' := by
          apply (getElem?_inj _ henv.nodup).mp
          · simp [hp, hp', hname]
          · simpa using (List.getElem?_eq_some_iff.mp hp).1
        subst hk
        apply some.inj (hty.symm.trans hty')
      · cases happart hp hx
    · obtain ⟨k', p', hp', rfl, _⟩ | ⟨_, hty'⟩ := h'
      · cases happart hp' hx
      · apply some.inj (hty.symm.trans hty')
  | global x => apply some.inj (h.2.symm.trans h'.2)

/-- A variable is given a value that fits what has been read for it. -/
theorem Agrees.assign {symbol : SymbolInfo}
    (h : Agrees env ⟨s, events⟩) (henv : env.Sound) (hdistinct : Distinct env s) {found : Tables}
    (hn : s.scopes.symbol? n = some symbol) (hv : meaning? symbol = some v)
    (hu : env.Holds s v u) (hfits : u.fits ty) :
  Agrees env ⟨s.withType found n symbol ty, .assigned v ty :: events⟩
  := by
  have hty : symbol.ty = u := (h.symbol n symbol v hn hv).unique henv hdistinct hu
  have hjoin : (symbol.ty.join ty).getD symbol.ty = u := by
    rw [hty, Ty.fits_iff.mp hfits]
    rfl
  rw [withType, hjoin]
  apply note
  · apply h.setType
    intro old w hold hw
    cases hold.symm.trans hn
    cases hw.symm.trans hv
    apply hu
  · use u, hu

/-- Outside of functions a name that means a variable means the global of that name. -/
theorem Arranged.meaning?_of_topLevel (h : Arranged env s) (henv : env.Sound)
    (htop : env.function.topLevel)
    (hcallable : env.plan.callable? name = none) {symbol : SymbolInfo}
    (hn : s.scopes.lookup? i name = some n) (hsymbol : s.scopes.symbol? n = some symbol)
    (hv : meaning? symbol = some v) :
  v = .global name
  := by
  obtain ⟨j, hentry⟩ := entry_of_lookup? hn
  obtain ⟨symbol', hsymbol', rfl, _⟩ := h.entry j name n hentry
  cases hsymbol'.symm.trans hsymbol
  have hstands := h.symbol n symbol hsymbol
  simp only [Stands] at hstands
  simp only [meaning?] at hv
  cases hkind : symbol.kind with
  | function =>
    rw [hkind] at hv
    cases hv
  | global =>
    rw [hkind] at hv hstands
    rw [← hstands.1]
    apply (some.inj hv).symm
  | parameter =>
    rw [hkind] at hstands
    simp [henv.params htop] at hstands
  | _ =>
    rw [hkind] at hstands
    cases htop.symm.trans hstands.1

section

variable {symbol : SymbolInfo} {found : Tables} (h : Agrees env ⟨s, events⟩) (henv : env.Sound)
  (horderly : Orderly env s)

include h henv horderly

/-- The slot that is declared has been read, with a type that the value fits. -/
theorem Agrees.withSlot (hwithin : (s.withSlot env ident ty).found.Within env.index env.prev) :
  Agrees env ⟨s.withSlot env ident ty, .assigned (.slot (s.newSlot ident.name)) ty :: events⟩
  := by
  have hslot : (s.withSlot env ident ty).found.slot? env.index (s.newSlot ident.name) =
      some ty := by
    simp [State.withSlot, slot?_setSlot, horderly.length, henv.index_lt]
  obtain ⟨u, hu, hfits⟩ := hwithin.slot _ ty (covers_self hslot)
  have hholds : env.Holds (s.withSlot env ident ty) (.slot (s.newSlot ident.name)) u := by
    right
    constructor
    · simp [State.withSlot]
    · apply hu
  apply note
  · apply h.declare (subset_append_left _ _) rfl
    intro _ v hv
    cases hv
    rw [hu, refined_eq hfits]
    apply hholds
  · use u, hholds

/-- A parameter of the function takes a value. -/
theorem Agrees.assignParam {p : ParamPlan} (hprev : (initial env.plan).Grows env.prev)
    (hwithin : found.Within env.index env.prev) (hown : s.Own name n symbol)
    (hkind : symbol.kind = .parameter)
    (hk : env.function.params.findIdx? (·.name == symbol.name) = some k)
    (hp : env.function.params[k]? = some p)
    (htakes : s.found.Takes env.index k p.declared ty found) :
  Agrees env ⟨s.withType found n symbol ty, .assigned (.slot symbol.slot) ty :: events⟩
  := by
  have hplanned : (env.plan.functions.getD env.index default).params[k]? = some p := by
    rw [getD_eq_getElem?_getD, henv.function]
    apply hp
  obtain ⟨u, hu, hfits⟩ := htakes.fits hplanned horderly.initial hprev (hwithin.param _ _)
  have hstands := horderly.symbol n symbol hown.2
  simp only [Stands, hkind] at hstands
  have hname : p.name = symbol.name := by
    obtain ⟨hlt, hpname, _⟩ := findIdx?_eq_some_iff_getElem.mp hk
    rw [(List.getElem?_eq_some_iff.mp hp).2] at hpname
    simpa using hpname
  apply h.assign henv horderly.toDistinct hown.2
  · simp [meaning?, hkind]
  · left
    use k, p, hp, hname.trans hstands.1.symm, hu
  · apply hfits

/-- A slot takes one more value. -/
theorem Agrees.assignSlot
    (hwithin : (s.found.setSlot env.index symbol.slot joined).Within env.index env.prev)
    (hown : s.Own name n symbol) (hkind : symbol.kind ≠ .parameter)
    (hjoined : ((s.found.slot? env.index symbol.slot).getD .unknown).join ty = some joined) :
  Agrees env ⟨s.withType (s.found.setSlot env.index symbol.slot joined) n symbol ty,
    .assigned (.slot symbol.slot) ty :: events⟩
  := by
  have hvariable := (horderly.kind_of_own hown).resolve_right hkind
  have hstands := horderly.symbol n symbol hown.2
  simp only [Stands, hvariable] at hstands
  have hslot : (s.found.setSlot env.index symbol.slot joined).slot? env.index symbol.slot =
      some joined := by
    simp [slot?_setSlot, horderly.length, henv.index_lt]
  obtain ⟨u, hu, hfits⟩ := hwithin.slot _ ty ⟨joined, hslot, (Ty.fits_of_join hjoined).2⟩
  apply h.assign henv horderly.toDistinct hown.2
  · simp [meaning?, hvariable]
  · right
    use hstands.2.1, hu
  · apply hfits

/-- A global takes a value outside of functions. -/
theorem Agrees.withGlobal
    (hwithin : (s.withGlobal env ident joined).found.Within env.index env.prev)
    (hbinds : env.Binds ident.name) (htop : env.function.topLevel)
    (hcallable : env.plan.callable? ident.name = none)
    (hjoined : ((s.found.global? ident.name).getD .unknown).join ty = some joined) :
  Agrees env ⟨s.withGlobal env ident joined, .assigned (.global ident.name) ty :: events⟩
  := by
  have hglobal : (s.withGlobal env ident joined).found.global? ident.name = some joined := by
    simp [State.withGlobal, global?_setGlobal]
  obtain ⟨u, hu, hfits⟩ := hwithin.global _ joined (covers_self hglobal)
  have hholds (s' : State) : env.Holds s' (.global ident.name) u := by
    use henv.globals htop ident.name hbinds, hu
  have hseen : .refined (env.prev.global? ident.name)
      (((s.found.setGlobal ident.name joined).global? ident.name).getD .unknown) = u := by
    rw [global?_setGlobal, if_pos rfl, getD_some, hu, refined_eq hfits]
  apply note
  · simp only [State.withGlobal, hseen]
    split
    · rename_i id hid
      apply h.setType
      intro symbol v hsymbol hv
      cases horderly.meaning?_of_topLevel henv htop hcallable hid hsymbol hv
      apply hholds
    · apply h.declare _ rfl
      · intro _ v hv
        cases hv
        apply hholds
      · apply Subset.refl
  · use u, hholds _, Ty.fits_trans hfits (Ty.fits_of_join hjoined).2

end

/-- With each step variables keep the types that have been read, if no more is found. -/
theorem Step.agrees (h : Step env m m') (henv : env.Sound) (horderly : Orderly env m.state)
    (hprev : (initial env.plan).Grows env.prev)
    (hwithin : m'.state.found.Within env.index env.prev) (hm : Agrees env m) :
  Agrees env m'
  := by
  cases h with
  | @form _ e s hformed =>
    apply hm.note
    cases e with
    | var n v =>
      obtain ⟨name, symbol, hmeans, hty, hv⟩ := hformed
      obtain ⟨id, _, hid⟩ := bind_eq_some_iff.mp hmeans
      dsimp only
      rw [hty]
      apply hm.symbol id symbol v hid hv
    | _ => trivial
  | warn => exact hm.of_scopes rfl fun _ => rfl
  | skip _ herror =>
    apply hm.note
    left
    apply herror
  | pass _ hp htakes =>
    apply Agrees.note
    · exact hm.of_scopes rfl fun _ => rfl
    · right
      apply htakes.fits hp horderly.initial hprev (hwithin.param _ _)
  | returnDeclared => apply hm.note trivial
  | returnJoined =>
    apply Agrees.note _ trivial
    exact hm.of_scopes rfl fun _ => rfl
  | declare => exact hm.withSlot henv horderly hwithin
  | assignParam _ hown hkind hk hp htakes =>
    exact hm.assignParam henv horderly hprev hwithin hown hkind hk hp htakes
  | @assignOther _ ty name id symbol s _ hown hkind hk =>
    have hstands := horderly.symbol id symbol hown.2
    simp only [Stands, hkind] at hstands
    obtain ⟨p, hp, hname⟩ := mem_map.mp hstands.2
    have hne := findIdx?_eq_none_iff.mp hk p hp
    simp [hname] at hne
  | assignSlot _ hown hkind hjoined => exact hm.assignSlot henv horderly hwithin hown hkind hjoined
  | assignGlobal _ hbinds htop hcallable hjoined =>
    exact hm.withGlobal henv horderly hwithin hbinds htop hcallable hjoined
  | enter => exact hm.of_scopes rfl fun _ => symbol?_push
  | leave => exact hm.of_scopes rfl fun _ => rfl

/-- If no more is found than has been read, variables keep the types that have been read. -/
theorem Steps.agrees (h : Steps env m m') (henv : env.Ready) (horderly : Orderly env m.state)
    (hprev : (initial env.plan).Grows env.prev)
    (hwithin : m'.state.found.Within env.index env.prev) (hm : Agrees env m) :
  Agrees env m'
  := by
  induction h with
  | refl => apply hm
  | tail hsteps hstep ih =>
    have horderly' := keep (Step.orderly henv) hsteps horderly
    apply hstep.agrees henv.toSound horderly' hprev hwithin
    apply ih (hstep.within henv horderly' hwithin)

/-- At the start variables have the types that are read. -/
theorem start_agrees {found : Tables} {reports : Array Diagnostic}
    (hf : plan.functions[i]? = some f) (hprev : (initial plan).Grows prev) :
  Agrees (.of plan prev i f) ⟨.start plan prev found reports i f, []⟩
  := by
  constructor
  · apply startScopes_of (P := fun t => ∀ n symbol v, t.symbol? n = some symbol →
      meaning? symbol = some v →
        Env.Holds (.of plan prev i f) (.start plan prev found reports i f) v symbol.ty)
    · intro n symbol v hn
      simp [new, symbol?] at hn
    · intro t k g _ _ ht n symbol v hn hv
      rw [symbol?_declare] at hn
      split at hn
      · cases hn
        cases hv
      · apply ht n symbol v hn hv
    · intro _ t g hg ht n symbol v hn hv
      rw [symbol?_declare] at hn
      split at hn
      · cases hn
        cases hv
        have hg : g.1 ∈ plan.globals.map (·.1) := mem_map_of_mem hg
        have hinitial : (initial plan).global? g.1 = some .unknown := by
          rw [global?_initial, if_pos hg]
        obtain ⟨u, hu, _⟩ := hprev.global g.1 .unknown (covers_self hinitial)
        use hg
        rw [hu]
        apply hu
      · apply ht n symbol v hn hv
    · intro t ht n symbol v hn hv
      apply ht n symbol v hn hv
    · intro t k p hp ht n symbol v hn hv
      rw [symbol?_declare] at hn
      split at hn
      · cases hn
        cases hv
        obtain ⟨u, hu, _⟩ := hprev.param i k _ (covers_self (param?_initial_of hf hp))
        left
        use k, p, hp, rfl
        rw [hu]
        apply hu
      · apply ht n symbol v hn hv
  all_goals simp

/-- An expression that is formed can be formed. -/
theorem Step.formed_cases (h : Step env m m') (he : .formed e ∈ m'.events) :
  .formed e ∈ m.events ∨ ∃ s events, events ⊆ m'.events ∧ Formed env s events e
  := by
  cases h with
  | @form events e' s hformed =>
    obtain heq | he := mem_cons.mp he
    · cases heq
      right
      use s, events, subset_cons_self _ _
    · left
      apply he
  | _ =>
    left
    simpa using he

/-- An expression that has been formed could be formed at the time. -/
theorem Steps.formed (h : Steps env m m') (he : .formed e ∈ m'.events) :
  .formed e ∈ m.events ∨ ∃ s events, events ⊆ m'.events ∧ Formed env s events e
  := by
  induction h with
  | refl =>
    left
    apply he
  | tail _ hstep ih =>
    obtain he | hformed := hstep.formed_cases he
    · apply (ih he).imp_right
      intro ⟨s, events, hevents, hformed⟩
      use s, events, Subset.trans hevents hstep.events_subset
    · right
      apply hformed

/-- Each slot that is declared is found. -/
theorem Step.found_locals (henv : env.Ready) (h : Step env m m') (hm : Orderly env m.state ∧
      ∀ x ∈ m.state.locals.map (·.name), ∃ ty, m.state.found.slot? env.index x = some ty) :
  Orderly env m'.state ∧
    ∀ x ∈ m'.state.locals.map (·.name), ∃ ty, m'.state.found.slot? env.index x = some ty
  := by
  obtain ⟨horderly, hm⟩ := hm
  use h.orderly henv horderly
  have hold : ∀ x ∈ m.state.locals.map (·.name),
      ∃ ty, m'.state.found.slot? env.index x = some ty := by
    intro x hx
    obtain ⟨ty, hty⟩ := hm x hx
    obtain ⟨u, hu, _⟩ := h.slot_grows henv horderly (covers_self hty)
    use u
  cases h with
  | @declare _ ty ident s =>
    intro x hx
    simp only [withSlot, map_append, map_cons, map_nil, mem_append,
      mem_singleton] at hx
    obtain hx | rfl := hx
    · apply hold x hx
    · simp [withSlot, slot?_setSlot, horderly.length, henv.index_lt]
  | _ => apply hold

/-- With each step what is returned fits the result that is found. -/
theorem Step.returned (henv : env.Sound) (h : Step env m m')
    (hm : (initial env.plan).Grows m.state.found ∧ ∀ value, .returned value ∈ m.events →
      (m.state.found.function env.index).result.fits value.ty) :
  (initial env.plan).Grows m'.state.found ∧ ∀ value, .returned value ∈ m'.events →
    (m'.state.found.function env.index).result.fits value.ty
  := by
  obtain ⟨hinitial, hm⟩ := hm
  use hinitial.trans h.grows
  have hold (value : Expr) (hvalue : .returned value ∈ m.events) :
      (m'.state.found.function env.index).result.fits value.ty := by
    apply Ty.fits_trans (h.grows.result env.index) (hm value hvalue)
  cases h with
  | @returnDeclared _ declared value s _ hret hfits =>
    intro value' hvalue'
    obtain heq | hvalue' := mem_cons.mp hvalue'
    · cases heq
      apply Ty.fits_trans (hinitial.result env.index)
      rw [result_initial henv.function, hret]
      apply hfits
    · apply hold value' hvalue'
  | @returnJoined _ joined value s _ _ hjoined =>
    intro value' hvalue'
    obtain heq | hvalue' := mem_cons.mp hvalue'
    · cases heq
      have hlt : env.index < s.found.functions.length := by
        rw [hinitial.length, initial, length_map]
        apply henv.index_lt
      rw [result_setResult, if_pos ⟨rfl, hlt⟩]
      apply (Ty.fits_of_join hjoined).2
    · apply hold value' hvalue'
  | _ => simpa using hold

/-! ### Functions of a settled program -/

/-- The function of the name. -/
def Module.function? (m : Module) (name : String) : Option Function :=
  m.functions.find? (·.name == name)

/-- The type is the one that is recorded for the slot. -/
def Function.Records (f : Function) (x : String) (ty : Ty) : Prop :=
  (∃ l ∈ f.params ++ f.locals, l.name = x) ∧
    ∀ l ∈ f.params ++ f.locals, l.name = x → l.ty = ty

/-- The type is the one that is recorded for the variable of a function. -/
def Module.Records (m : Module) (f : Function) (v : Variable) (ty : Ty) : Prop :=
  match v with
  | .slot x => f.Records x ty
  | .global x => (∃ g ∈ m.globals, g.name = x) ∧ ∀ g ∈ m.globals, g.name = x → g.ty = ty

/-- Calls have the results of the functions that they call, the arguments fit the parameters
unless they have been reported, and variables have the types that are recorded. -/
structure Module.Consistent (m : Module) : Prop where
  calls : ∀ f ∈ m.functions, ∀ n callee args, Expr.call n callee args ∈ f.nodes →
    ∃ g, m.function? callee = some g ∧ n.ty = g.result ∧ args.length = g.params.length ∧
      ∀ (k : Nat) (arg : Expr) (p : Local), args[k]? = some arg → g.params[k]? = some p →
        arg.ty = .error ∨ p.ty.fits arg.ty = true
  uses : ∀ f ∈ m.functions, ∀ n v, Expr.var n v ∈ f.nodes → m.Records f v n.ty

namespace CheckedIn

variable {reports : Array Diagnostic}

/-- Each expression of the function has been formed. -/
theorem formed (h : CheckedIn plan prev last i f g before reports s events) (he : e ∈ g.nodes) :
  .formed e ∈ events
  := by
  apply h.account
  left
  use e, he

/-- What is returned fits the result. -/
theorem returned (h : CheckedIn plan prev last i f g before reports s events)
    (henv : (Env.of plan prev i f).Sound) {span : Span}
    (hvalue : .ret span (some value) ∈ g.statements) :
  g.result.fits value.ty
  := by
  rw [h.result, h.same.result]
  apply (h.steps.keep (Step.returned henv) ⟨h.initial, by simp⟩).2
  apply h.account
  right
  use .ret span (some value), hvalue
  simp [Stmt.noted]

variable (h : CheckedIn plan prev prev i f g before reports s events)
  (henv : (Env.of plan prev i f).Ready)

include h henv

/-- In a function that is found as it has been read, variables agree with that. -/
theorem agrees :
  Agrees (.of plan prev i f) ⟨s, events⟩
  := by
  have hprev : (Tables.initial plan).Grows prev := by
    apply (h.initial.trans h.steps.grows).trans h.grows
  have hwithin : s.found.Within i prev := by
    constructor
    · apply h.grows.param
    · apply h.grows.global
    · intro x ty hx
      rw [h.same.slot x]
      apply hx
  apply h.steps.agrees henv (h.start_orderly henv) hprev hwithin
  apply start_agrees henv.function hprev

omit henv in
/-- The parameters are recorded with the types that have been read. -/
theorem prev_param? (hf : plan.functions[i]? = some f) (hl : g.params[k]? = some l) :
  ∃ p, f.params[k]? = some p ∧ p.name = l.name ∧ prev.param? i k = some l.ty
  := by
  have hlt : k < f.params.length := by
    have hlt := (List.getElem?_eq_some_iff.mp hl).1
    rw [h.typed] at hlt
    simpa [FunctionPlan.typed] using hlt
  have hp := getElem?_eq_getElem hlt
  obtain ⟨ty, hty, hparam⟩ := h.param hf hp
  cases hl.symm.trans hparam
  use f.params[k], hp, rfl, hty

/-- The slots of the function are recorded with the types that have been read. -/
theorem holds_slot (hl : l ∈ g.params ++ g.locals) :
  Env.Holds (.of plan prev i f) s (.slot l.name) l.ty
  := by
  obtain hl | hl := mem_append.mp hl
  · obtain ⟨k, hk⟩ := mem_iff_getElem?.mp hl
    obtain ⟨p, hp, hname, hty⟩ := h.prev_param? henv.function hk
    left
    use k, p, hp, hname, hty
  · rw [h.typed] at hl
    obtain ⟨l, hmem, rfl⟩ := mem_map.mp hl
    have hname : l.name ∈ s.locals.map (·.name) := mem_map_of_mem hmem
    obtain ⟨ty, hty⟩ := (h.steps.keep (Step.found_locals henv)
      ⟨h.start_orderly henv, by simp [State.start]⟩).2 l.name hname
    right
    use hname
    change prev.slot? i l.name = some (.refined _ _)
    have hsame : prev.slot? i l.name = some ty := (h.same.slot l.name).trans hty
    rw [hsame]
    change s.found.slot? i l.name = some ty at hty
    rw [hty, getD_some, refined_eq ty.fits_self]

/-- What has been read for a slot is recorded for it. -/
theorem records_slot (hx : Env.Holds (.of plan prev i f) s (.slot x) ty) :
  g.Records x ty
  := by
  constructor
  · obtain ⟨k, p, hp, rfl, _⟩ | ⟨hx, _⟩ := hx
    · obtain ⟨u, _, hparam⟩ := h.param henv.function hp
      exact ⟨_, mem_append_left _ (mem_of_getElem? hparam), rfl⟩
    · obtain ⟨l, hl, rfl⟩ := mem_map.mp hx
      rw [h.typed]
      exact ⟨_, mem_append_right _ (mem_map_of_mem hl), rfl⟩
  · rintro l hl rfl
    apply (h.holds_slot henv hl).unique henv.toSound (h.orderly henv).toDistinct hx

/-- What has been read for a variable is recorded for it. -/
theorem records {m : Module} (hm : m.globals = plan.globals.map fun binding =>
      ⟨binding.1, (prev.global? binding.1).getD .unknown, binding.2⟩)
    (hv : Env.Holds (.of plan prev i f) s v ty) :
  m.Records g v ty
  := by
  cases v with
  | slot x => apply h.records_slot henv hv
  | global x =>
    obtain ⟨hx, hty⟩ := hv
    rw [Module.Records, hm]
    constructor
    · obtain ⟨binding, hbinding, rfl⟩ := mem_map.mp hx
      exact ⟨_, mem_map_of_mem hbinding, rfl⟩
    · rintro l hl rfl
      obtain ⟨binding, _, rfl⟩ := mem_map.mp hl
      change prev.global? binding.1 = some ty at hty
      rw [hty]
      rfl

end CheckedIn

theorem Checked.names {found : Tables} (h : Checked plan prev index fs found gs found') :
  gs.map (·.name) = fs.map (·.name)
  := by
  induction h with
  | nil => rfl
  | cons hfirst _ ih =>
    obtain ⟨_, _, _, _, _, hg, _⟩ := hfirst
    rw [map_cons, ih, hg]
    rfl

/-- Only the last function of a plan cannot be called. -/
theorem PlansProgram.topLevel_of_lt (h : PlansProgram program plan) (hj : j < target)
    (hlt : target < plan.functions.length) (htarget : plan.functions[target].topLevel = false) :
  plan.functions[j].topLevel = false
  := by
  obtain ⟨fs, last, heq, hfs, hlast, _⟩ := h.functions
  simp only [heq] at hlt htarget ⊢
  have hfs' : target < fs.length := by
    by_contra hge
    rw [getElem_append_right (Nat.le_of_not_lt hge)] at htarget
    cases (hlast _ (getElem_mem _)).topLevel.symm.trans htarget
  rw [getElem_append_left (hj.trans hfs')]
  obtain ⟨g, _, hg⟩ := hfs _ (getElem_mem (hj.trans hfs'))
  apply hg.topLevel

/-- The first function of a name in the plan is the one that calls name. -/
theorem PlansProgram.find?_of_callable? (h : PlansProgram program plan) {gs : List Function}
    (hnames : gs.map (·.name) = plan.functions.map (·.name))
    (htarget : plan.callable? callee = some target) (hg : gs[target]? = some g) :
  gs.find? (·.name == callee) = some g
  := by
  obtain ⟨hlt, hcallee, hfirst⟩ := findIdx?_eq_some_iff_getElem.mp htarget
  rw [and_eq_true, not_eq_true'] at hcallee
  have hname (j : Nat) (hj : j < gs.length) (hj' : j < plan.functions.length) :
      gs[j].name = plan.functions[j].name := by
    simpa [hj, hj'] using congrArg (·[j]?) hnames
  obtain ⟨hlt', rfl⟩ := List.getElem?_eq_some_iff.mp hg
  rw [find?_eq_some_iff_getElem]
  constructor
  · rw [hname target hlt' hlt]
    apply hcallee.1
  · use target, hlt', rfl
    intro j hj
    have hnot := hfirst j hj
    -- the function that cannot be called comes last
    rw [h.topLevel_of_lt hj hlt hcallee.2] at hnot
    rw [hname j (hj.trans hlt') (hj.trans hlt)]
    simpa using hnot

/-- Calls have the results of the functions that they call, and the arguments fit. -/
theorem CheckedIn.call (hplan : PlansProgram program plan) (hnamed : Named program)
    (hreports : Clean plan prev) (hsettled : (pass plan prev).found = prev)
    {reports : Array Diagnostic}
    (h : CheckedIn plan prev prev i f g before reports s events) (hf : plan.functions[i]? = some f)
    {n : Note} (hcall : .call n callee args ∈ g.nodes) :
  ∃ g, (pass plan prev).module.function? callee = some g ∧ n.ty = g.result ∧
    args.length = g.params.length ∧
    ∀ (k : Nat) (arg : Expr) (p : Local), args[k]? = some arg → g.params[k]? = some p →
      arg.ty = .error ∨ p.ty.fits arg.ty
  := by
  obtain hcall | ⟨_, _, hevents, target, htarget, hlength, hty, hpassed⟩ :=
    h.steps.formed (h.formed hcall)
  · cases hcall
  · obtain ⟨hlt, _⟩ := findIdx?_eq_some_iff_getElem.mp htarget
    have htargetf := getElem?_eq_getElem hlt
    obtain ⟨g', before', reports', s', events', hg', hchecked'⟩ := pass_function hreports htargetf
    rw [hsettled] at hchecked'
    have hparams : args.length = g'.params.length := by
      rw [hlength, hchecked'.typed]
      simp [FunctionPlan.typed, htargetf]
    use g', hplan.find?_of_callable? (pass_checked hreports).names htarget hg'
    use hty.trans hchecked'.result.symm, hparams
    intro k arg p harg hp
    have hagrees := h.agrees (hplan.ready hnamed prev hf)
    apply (hagrees.passed target k arg (hevents (hpassed k arg harg))).imp_right
    rintro ⟨u, hu, hfits⟩
    obtain ⟨_, _, _, hty⟩ := hchecked'.prev_param? htargetf hp
    cases hu.symm.trans hty
    apply hfits

/-- What is returned fits the result of the function, and when inference has settled, calls,
arguments and variables have the types that are recorded for what they name. -/
theorem settled_consistent {program : Program} {m : Module} (hnamed : Named program)
    (h : (infer program).module = some m) :
  (∀ f ∈ m.functions, ∀ span value, .ret span (some value) ∈ f.statements →
    f.result.fits value.ty = true) ∧
    ((infer program).settled = true → m.Consistent)
  := by
  obtain ⟨hplan, hreports, rfl, hsettled⟩ := infer_eq_some h
  constructor
  · intro g hg span value hvalue
    obtain ⟨i, f, before, reports, s, events, hf, hchecked⟩ := exists_checkedIn hreports hg
    apply hchecked.returned (hplan.sound _ hf) hvalue
  · intro hs
    have hfound := hsettled.mp hs
    constructor
    · intro g hg n callee args hcall
      obtain ⟨i, f, before, reports, s, events, hf, hchecked⟩ := exists_checkedIn hreports hg
      rw [hfound] at hchecked
      apply hchecked.call hplan hnamed hreports hfound hf hcall
    · intro g hg n v hv
      obtain ⟨i, f, before, reports, s, events, hf, hchecked⟩ := exists_checkedIn hreports hg
      rw [hfound] at hchecked
      have henv := hplan.ready hnamed (readBy program) hf
      apply hchecked.records henv
      · rw [pass_globals, hfound]
      · apply (hchecked.agrees henv).used n v (hchecked.formed hv)

section

open Endmark.Tree

/-- A function calls itself, and a variable is changed in a loop:
`def sum(n): t = 0; for i in range(n): t = t + sum(i); end; return t; end;
def main(): return sum(3); end;` -/
def summing : Program where
  main := ⟨none, [
    plainFunction "sum" ["n"] [
      .assign .nowhere (.name ⟨"t", .nowhere⟩) none (.literal .nowhere (.int 0)),
      .forLoop .nowhere ⟨"i", .nowhere⟩
        (.call .nowhere ⟨"range", .nowhere⟩ [.name .nowhere "n"]) [
          .assign .nowhere (.name ⟨"t", .nowhere⟩) none
            (.binary .nowhere .add (.name .nowhere "t")
              (.call .nowhere ⟨"sum", .nowhere⟩ [.name .nowhere "i"]))],
      .ret .nowhere (some (.name .nowhere "t"))],
    plainFunction "main" [] [
      .ret .nowhere (some (.call .nowhere ⟨"sum", .nowhere⟩ [.literal .nowhere (.int 3)]))]]⟩
  libraries := []

theorem summing_consistent :
  Named summing ∧ ∃ m, (infer summing).module = some m ∧ m.Consistent
  := by
  have hnamed : Named summing := by decide +kernel
  have hsettled : (infer summing).settled = true := by decide +kernel
  have hsome : (infer summing).module.isSome = true := by decide +kernel
  obtain ⟨m, hm⟩ := Option.isSome_iff_exists.mp hsome
  exact ⟨hnamed, m, hm, (settled_consistent hnamed hm).2 hsettled⟩

/-- Each function returns what the next one does, for more functions than there are passes:
`def f0(): return f1(); end;` and so on, `def f17(): return 1; end;` and
`def main(): return 0; end;` -/
def callChain : Program where
  main := ⟨none,
    (List.range 17).map (fun i => plainFunction s!"f{i}" [] [
      .ret .nowhere (some (.call .nowhere ⟨s!"f{i + 1}", .nowhere⟩ []))]) ++ [
    plainFunction "f17" [] [.ret .nowhere (some (.literal .nowhere (.int 1)))],
    plainFunction "main" [] [.ret .nowhere (some (.literal .nowhere (.int 0)))]]⟩
  libraries := []

/-- Passes stop before inference has settled, and a call has not the type of the result. -/
theorem callChain_inconsistent :
  Named callChain ∧ (infer callChain).diagnostics = [] ∧ (infer callChain).settled = false ∧
    ∃ m, (infer callChain).module = some m ∧ ¬ m.Consistent
  := by
  have hnamed : Named callChain := by decide +kernel
  -- one evaluation for all of what is inferred
  have hall : ((infer callChain).diagnostics.isEmpty && !(infer callChain).settled &&
      (infer callChain).module.any fun m => m.functions.any fun f => f.nodes.any fun
        | .call n callee _ => (m.function? callee).any (·.result != n.ty)
        | _ => false) = true := by
    decide +kernel
  simp only [Bool.and_eq_true, List.isEmpty_iff, Bool.not_eq_true', Option.any_eq_true,
    List.any_eq_true] at hall
  obtain ⟨⟨hquiet, hsettled⟩, m, hm, f, hf, e, he, hne⟩ := hall
  refine ⟨hnamed, hquiet, hsettled, m, hm, ?_⟩
  intro hconsistent
  split at hne
  · obtain ⟨g, hg, hne⟩ := (Option.any_eq_true _ _).mp hne
    obtain ⟨g', hg', hty, _⟩ := hconsistent.calls f hf _ _ _ he
    cases hg.symm.trans hg'
    simp [hty] at hne
  · cases hne

end

end Endmark.Typed
