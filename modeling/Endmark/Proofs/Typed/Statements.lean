import Endmark.Proofs.Typed.Expressions

/-!
# Checking statements

A statement that is checked without an error reported is accounted for by the steps that are
made: its expressions have been formed, the variables that it assigns have been given their
types, and what it returns has been noted.  The check goes from one place in the function to
another, where blocks are opened and closed again and names are bound in the innermost one, and
what it gives elaborates the statement between the two places.
-/

namespace Endmark.Typed

open Scopes
open State
open List
open Endmark.Tree (Ident BinaryOp)

/-! ### Accounts -/

/-- What is noted of a statement by itself. -/
def Stmt.noted : Stmt → List Event
  | .assign _ (.var v) value => [.assigned v value.ty]
  | .forLoop _ v iter _ => (Check.itemType? iter.ty).toList.map (.assigned v)
  | .ret _ (some value) => [.returned value]
  | _ => []

/-- The events in which the expressions are formed, and those noted of the statements. -/
def notedIn (es : List Expr) (ss : List Stmt) : Set Event :=
  formedIn es ∪ {w | ∃ st ∈ ss, w ∈ st.noted}

theorem notedIn_append :
  notedIn (as ++ bs) (ss ++ ts) = notedIn as ss ∪ notedIn bs ts
  := by
  ext w
  simp only [notedIn, formedIn_append, mem_append, or_and_right, exists_or]
  apply or_or_or_comm

theorem notedIn_formed :
  notedIn (as ++ bs) ss = formedIn as ∪ notedIn bs ss
  := by
  rw [notedIn, formedIn_append, Set.union_assoc]
  rfl

theorem notedIn_cons :
  notedIn es (st :: ss) = notedIn es ss ∪ {w | w ∈ st.noted}
  := by
  ext w
  simp only [notedIn, mem_cons, exists_eq_or_imp, Set.mem_union, Set.mem_ofPred_eq, or_assoc]
  rw [or_comm (a := w ∈ st.noted)]

/-- All that belongs to checked statements. -/
def accountOf (body : List Stmt) : Set Event :=
  notedIn (Stmt.nodesOf body) (Stmt.insideOf body)

/-- All that belongs to the checked arms of a branch. -/
def accountOfArms (arms : List Arm) : Set Event :=
  notedIn (Stmt.nodesOfArms arms) (Stmt.insideArms arms)

@[simp]
theorem accountOf_nil :
  accountOf [] = ∅
  := by
  simp [accountOf, notedIn, Stmt.nodesOf, Stmt.insideOf]

theorem accountOf_cons :
  accountOf (st :: rest) = notedIn st.nodes st.inside ∪ accountOf rest
  := notedIn_append

theorem accountOf_append :
  accountOf (body ++ rest) = accountOf body ∪ accountOf rest
  := by
  induction body with
  | nil => simp
  | cons st body ih => rw [cons_append, accountOf_cons, ih, accountOf_cons, Set.union_assoc]

theorem accountOfArms_cons {cond : Expr} :
  accountOfArms (.mk cond body :: rest) =
    formedIn cond.nodes ∪ accountOf body ∪ accountOfArms rest
  := by
  rw [accountOfArms, Stmt.nodesOfArms, Stmt.insideArms, notedIn_append, notedIn_formed]
  rfl

/-- What is noted of one statement is what belongs to its parts, and its own. -/
theorem accountOf_branch {span : Span} :
  accountOf [.branch span arms otherwise] = accountOfArms arms ∪ accountOf otherwise
  := by
  rw [accountOf_cons, accountOf_nil, Stmt.nodes, Stmt.inside, notedIn_cons, notedIn_append]
  simp [Stmt.noted, accountOfArms, accountOf]

theorem accountOf_while {span : Span} {cond : Expr} :
  accountOf [.whileLoop span cond body] = formedIn cond.nodes ∪ accountOf body
  := by
  rw [accountOf_cons, accountOf_nil, Stmt.nodes, Stmt.inside, notedIn_cons, notedIn_formed]
  simp [Stmt.noted, accountOf]

theorem accountOf_for {span : Span} {iter : Expr} :
  accountOf [.forLoop span v iter body] = formedIn iter.nodes ∪ accountOf body ∪
    {w | ∃ ty ∈ Check.itemType? iter.ty, w = .assigned v ty}
  := by
  rw [accountOf_cons, accountOf_nil, Stmt.nodes, Stmt.inside, notedIn_cons, notedIn_formed]
  simp [Stmt.noted, accountOf, eq_comm]

attribute [local simp] notedIn Stmt.nodes Place.nodes Stmt.inside Stmt.noted

theorem accountOf_assign {span : Span} :
  accountOf [.assign span (.var v) value] = formedIn value.nodes ∪ {.assigned v value.ty}
  := by
  simp [accountOf_cons]

theorem accountOf_store {span : Span} :
  accountOf [.assign span (.index base i) value] =
    formedIn base.nodes ∪ formedIn i.nodes ∪ formedIn value.nodes
  := by
  simp [accountOf_cons, formedIn_append, Set.union_assoc]

namespace Check

/-! ### Checks that declare names -/

/-- The steps as `Reaches` has them leave the open scope as it is, and go from place to place as
`T` says. -/
structure Leads (env : Env) (s : State) (V : Set Event) (s' : State) (W : Set Event)
    (T : Context → Context → Prop) : Prop where
  reaches : Reaches env s V s' W
  walks : env.Sound → s.Lexical env.plan →
    s'.Lexical env.plan ∧ s.Around s' ∧ T (s.context env) (s'.context env)

/-- Without an error reported the check makes steps after the events of `V`, and leaves the open
scope as it is.  For its result `a` the events of `W a` are among them, and it goes from place to
place as `R` says. -/
def Walks (x : Check α) (env : Env) (V : Set Event) (W : α → Set Event)
    (R : Context → α → Context → Prop) : Prop :=
  ∀ s, x.Ends env s fun a s' => Leads env s V s' (W a) (R · a ·)

variable {R : Context → α → Context → Prop} {x : Check α}

theorem walks_pure (hW : W a ⊆ V) (h : ∀ Γ, R Γ a Γ) :
  (pure a : Check α).Walks env V W R
  := fun s => ends_pure ⟨.refl hW, fun _ hs => ⟨hs, (Same.refl s).around, h _⟩⟩

theorem walks_bind {X : β → Set Event} (hx : x.Walks env V W R)
    (hf : ∀ a, (f a).Walks env (V ∪ W a) X fun Γ' b Γ'' => ∀ Γ, R Γ a Γ' → U Γ b Γ'') :
  (x >>= f).Walks env V X U
  := by
  intro s
  apply ends_bind (hx s) fun a s' => hf a s'
  intro a s' b s'' h h'
  refine ⟨h.reaches.trans h'.reaches, fun henv hs => ?_⟩
  obtain ⟨hs', haround, hR⟩ := h.walks henv hs
  obtain ⟨hs'', haround', hU⟩ := h'.walks henv hs'
  use hs'', haround.trans haround'
  apply hU _ hR

/-- A check that declares nothing stays in its place. -/
theorem looks_then {R : Blocks → α → Prop}
    {U : Context → β → Context → Prop} (hx : x.Looks env V W R)
    (hf : ∀ a, (f a).Walks env (V ∪ W a) X fun Γ b Γ' => R Γ.blocks a → U Γ b Γ') :
  (x >>= f).Walks env V X U
  := by
  intro s
  apply ends_bind (hx s) fun a s' => hf a s'
  intro a s' b s'' h h'
  refine ⟨h.reaches.trans h'.reaches, fun henv hs => ?_⟩
  obtain ⟨hs'', haround, hU⟩ := h'.walks henv (h.same.lexical hs)
  use hs'', h.same.around.trans haround
  rw [h.same.context] at hU
  apply hU (h.holds hs)

theorem Walks.mono (h : x.Walks env V W R) (hRT : ∀ Γ a Γ', R Γ a Γ' → T Γ a Γ') :
  x.Walks env V W T
  := by
  intro s
  apply (h s).mono
  intro a s' h
  refine ⟨h.reaches, fun henv hs => ?_⟩
  obtain ⟨hs', haround, hR⟩ := h.walks henv hs
  use hs', haround
  apply hRT _ a _ hR

/-- The variable of the name gets a value, and there is a place behind that. -/
abbrev Assigning (env : Env) (ident : Ident) (Γ : Context) (v : Variable) (Γ' : Context) : Prop :=
  Γ.Assigns env.plan.outside env.function.topLevel ident.name v Γ'

/-- A check in a block of its own starts inside of the block, and goes on behind it. -/
theorem block_walks {body : Check α} (h : body.Walks env V W R) :
  (block body).Walks env V W fun Γ a Γ' => ∃ Γ₁, R Γ.enter a Γ₁ ∧ Γ' = Γ₁.leave
  := by
  intro s
  apply ends_get
  refine ends_modify id ?_
  have hleave (a : α) (s' : State) : (do
        modify ({ · with scope := s.scope })
        return a : Check α).Ends env s' fun b s'' =>
          b = a ∧ s'' = { s' with scope := s.scope } := by
    refine ends_modify id ?_
    apply ends_pure
    exact ⟨rfl, rfl⟩
  apply ends_bind (h _) hleave
  rintro a s' _ _ ⟨hreaches, hwalks⟩ ⟨rfl, rfl⟩
  constructor
  · intro events hs hV
    have henter : Step env ⟨s, events⟩ _ := .enter
    obtain ⟨events', hsteps, hW⟩ := hreaches events (henter.inner hs) hV
    refine ⟨events', ?_, hW⟩
    apply Relation.ReflTransGen.tail (.head henter hsteps) (.leave hs.1)
  · intro henv hs
    have hlt := hs.inTree
    have hsize := hs.scopes.nested.two_le_size
    obtain ⟨hs', haround, hR⟩ := hwalks henv ⟨hs.scopes.push hs.inner hs.inTree,
      lt_of_lt_of_le two_pos hsize, by simp [push]⟩
    have hshape (i : Nat) shape (hi : s.scopes.shape? i = some shape) :
        s'.scopes.shape? i = some shape := by
      apply haround.shape
      have hne : i ≠ s.scopes.scopes.size := by
        rintro rfl
        rw [shape?_eq_none_iff.mpr le_rfl] at hi
        cases hi
      rw [shape?_push, if_neg hne, hi]
    have hinner : s'.scopes.shape? s'.scope = some (.block, some s.scope) := by
      rw [haround.scope]
      apply haround.shape
      rw [shape?_push, if_pos rfl]
    refine ⟨⟨hs'.scopes, hs.inner, ?_⟩, ⟨rfl, hshape⟩, s'.context env, ?_, ?_⟩
    · by_contra hge
      obtain ⟨shape, hout⟩ : ∃ shape, s.scopes.shape? s.scope = some shape := by
        apply Option.ne_none_iff_exists'.mp
        rw [Ne, shape?_eq_none_iff]
        omega
      have := hshape _ _ hout
      rw [shape?_eq_none_iff.mpr (by simpa using hge)] at this
      cases this
    · convert hR using 1
      simp [context, Context.enter, hs.scopes.nested.blocks_push hs.inner hs.inTree]
    · obtain ⟨k, hk⟩ : ∃ k, s'.scope = k + 2 := by
        rw [haround.scope]
        exact ⟨s.scopes.scopes.size - 2, by dsimp only; omega⟩
      rw [hk] at hinner
      simp [context, Context.leave, hk, hs'.scopes.nested.blocks_succ hinner]

/-! ### Assignments -/

theorem freshSlot_outcome {name : String} :
  (freshSlot name).outcome env s =
    (s.newSlot name, { s with again := (name, s.times name) :: s.again })
  := by
  simp only [freshSlot, outcome_bind, outcome_get, newSlot, times]
  cases s.again.lookup name <;> rfl

theorem declareSlot_outcome :
  (declareSlot ident ty).outcome env s =
    (.slot (s.newSlot ident.name), s.withSlot env ident ty)
  := by
  simp only [declareSlot, outcome_bind, outcome_read, freshSlot_outcome, declare,
    outcome_modify, outcome_pure, withSlot]

/-- Whatever happens after the events of `V`, the type is known then. -/
def KnownAfter (V : Set Event) (ty : Ty) : Prop :=
  ∀ events, (∀ v ∈ V, v ∈ events) → Known events ty

theorem knownAfter_of_formed (h : .formed e ∈ V) :
  KnownAfter V e.ty
  := fun _ hV => ⟨e, hV _ h, .inl rfl⟩

/-- If all is well, then only the tables have changed, and the symbol can be given its type. -/
def Taken (env : Env) (V : Set Event) (s : State) (n : Nat) (symbol : SymbolInfo) (ty : Ty)
    (outcome : Except Ty PUnit) (s' : State) : Prop :=
  outcome = .ok ⟨⟩ → ∃ found, s' = { s with found } ∧
    Reaches env s V (s.withType found n symbol ty) {.assigned (.slot symbol.slot) ty}

/-- A parameter takes a value, or what does not belong to the function is left alone. -/
theorem assignParam_ends {name : String} (hV : KnownAfter V ty)
    (hown : s.Own name n symbol) (hkind : symbol.kind = .parameter) :
  (assignParam symbol.name ty).Ends env s (Taken env V s n symbol ty)
  := by
  apply ends_read
  split
  · rename_i hnone
    apply ends_pure
    intro _
    refine ⟨s.found, rfl, .single ?_⟩
    intro events hevents
    apply Step.assignOther (hV events hevents) hown hkind hnone
  · rename_i k hk
    obtain ⟨hlt, _⟩ := findIdx?_eq_some_iff_getElem.mp hk
    have hp := getElem?_eq_getElem hlt
    have hstep (found : Tables)
        (h : s.found.Takes env.index k env.function.params[k].declared ty found) :
        Reaches env s V (s.withType found n symbol ty) {.assigned (.slot symbol.slot) ty} := by
      apply Reaches.of_step (w := .assigned (.slot symbol.slot) ty)
      · intro events hevents
        apply Step.assignParam (hV events hevents) hown hkind hk hp h
      · simp
    rw [hp, Option.bind_some]
    split
    · rename_i declared hdeclared
      apply ends_pure
      intro hok
      use s.found, rfl
      apply hstep s.found
      rw [hdeclared]
      split at hok
      · rename_i hfits
        use hfits
      · cases hok
    · rename_i hdeclared
      apply ends_get
      split
      · rename_i joined hjoined
        refine ends_set id ?_
        apply ends_pure
        intro _
        refine ⟨_, rfl, hstep _ ?_⟩
        rw [hdeclared]
        use joined, Ty.absorb_eq_ok.mp hjoined
      · apply ends_pure
        intro h
        cases h

/-- A slot takes a value. -/
theorem assignSlot_ends {name : String} (hV : KnownAfter V ty)
    (hown : s.Own name n symbol) (hkind : symbol.kind ≠ .parameter) :
  (assignSlot symbol.slot ty).Ends env s (Taken env V s n symbol ty)
  := by
  apply ends_read
  apply ends_get
  split
  · rename_i joined hjoined
    refine ends_set id ?_
    apply ends_pure
    intro _
    refine ⟨_, rfl, .single ?_⟩
    intro events hevents
    apply Step.assignSlot (hV events hevents) hown hkind (Ty.absorb_eq_ok.mp hjoined)
  · apply ends_pure
    intro h
    cases h

/-- A name that the function does not bind yet gets a slot. -/
theorem declareSlot_ends (hV : KnownAfter V ty) (hbinds : env.Binds ident.name)
    (htop : env.function.topLevel = false)
    (hnone : s.Lexical env.plan → (s.scopes.blocks s.scope).slot? ident.name = none) :
  (declareSlot ident ty).Ends env s fun v s' =>
    Leads env s V s' {.assigned v ty} (Assigning env ident · v)
  := by
  rw [Ends, declareSlot_outcome]
  refine ⟨id, .inr ⟨.single ?_,
    fun _ hs => ?_⟩⟩
  · intro events hevents
    apply Step.declare (hV events hevents) hbinds htop
  · refine ⟨⟨hs.scopes.declare hs.inner.ne', hs.inner, ?_⟩, ⟨rfl, ?_⟩, ?_⟩
    · simpa [withSlot, Scopes.declare] using hs.inTree
    · simp [withSlot]
    · have hcontext : (s.withSlot env ident ty).context env =
          ⟨(s.context env).blocks.bind ident.name (s.newSlot ident.name),
            (s.context env).slots ++ [(s.newSlot ident.name, ident.name)]⟩ := by
        simp [context, withSlot,
          hs.scopes.nested.blocks_declare hs.scopes.filled hs.inner hs.inTree]
      rw [hcontext]
      apply Context.Assigns.new htop (hnone hs)

/-- A name of the function takes a value. -/
theorem assignLocal_walks (hV : KnownAfter V ty) (hbinds : env.Binds ident.name)
    (htop : env.function.topLevel = false) :
  (assignLocal ident ty).Walks env V (fun v => {.assigned v ty}) (Assigning env ident)
  := by
  intro s
  apply ends_get
  split
  · rename_i hnone
    apply declareSlot_ends hV hbinds htop
    intro hs
    apply hs.slot?_of_none hnone
  · rename_i n hn
    split
    · rename_i hsymbol
      apply declareSlot_ends hV hbinds htop
      intro hs
      obtain ⟨i, _, hentry⟩ := hs.scopes.nested.entry_of_own hn
      have := hs.scopes.filled i ident.name n hentry
      rw [hsymbol] at this
      cases this
    · rename_i symbol hsymbol
      have hbound {found : Tables} (h : Reaches env s V (s.withType found n symbol ty)
            {.assigned (.slot symbol.slot) ty}) :
          Leads env s V (s.withType found n symbol ty) {.assigned (.slot symbol.slot) ty}
            (Assigning env ident · (.slot symbol.slot)) := by
        refine ⟨h, fun _ hs => ⟨⟨hs.scopes.setType, hs.inner, hs.inTree⟩,
          ⟨rfl, fun i shape => id⟩, ?_⟩⟩
        simp only [context, withType, hs.scopes.nested.blocks_setType hs.inner]
        apply Context.Assigns.bound htop (hs.slot?_of_own ⟨hn, hsymbol⟩)
      -- what is done with the outcome, whichever way it comes about
      have hafter {after : Except Ty PUnit → Check Variable}
          (hok : after (.ok ⟨⟩) = do
            modify fun s : State =>
              { s with scopes := s.scopes.setType n ((symbol.ty.join ty).getD symbol.ty) }
            pure (.slot symbol.slot))
          (herror : ∀ held, after (.error held) = do
            report ident.span (.assigned ty ident.name held)
            pure (.slot symbol.slot)) (taken : Except Ty PUnit) (s₁ : State) :
          (after taken).Ends env s₁ fun v s₂ => taken = .ok ⟨⟩ ∧ v = .slot symbol.slot ∧
            s₂ = { s₁ with
              scopes := s₁.scopes.setType n ((symbol.ty.join ty).getD symbol.ty) } := by
        cases taken with
        | ok _ =>
          rw [hok]
          refine ends_modify id ?_
          apply ends_pure
          use rfl
        | error held =>
          rw [herror]
          apply ends_report_pure
      split
      · rename_i hkind
        apply ends_bind (assignParam_ends hV ⟨hn, hsymbol⟩ hkind) (hafter rfl fun _ => rfl)
        rintro _ _ _ _ htaken ⟨hok, rfl, rfl⟩
        obtain ⟨found, rfl, hreaches⟩ := htaken hok
        apply hbound hreaches
      · rename_i hkind
        apply ends_bind (assignSlot_ends hV ⟨hn, hsymbol⟩ hkind) (hafter rfl fun _ => rfl)
        rintro _ _ _ _ htaken ⟨hok, rfl, rfl⟩
        obtain ⟨found, rfl, hreaches⟩ := htaken hok
        apply hbound hreaches

/-- In the code outside of functions a global takes a value. -/
theorem bindGlobal_walks (hV : KnownAfter V ty) (hbinds : env.Binds ident.name)
    (htop : env.function.topLevel) (hcall : env.plan.callable? ident.name = none) :
  (bindGlobal ident ty).Walks env V (fun v => {.assigned v ty}) (Assigning env ident)
  := by
  intro s
  apply ends_read
  apply ends_get
  dsimp only
  split
  · rename_i joined hjoined
    have hleads : Leads env s V (s.withGlobal env ident joined)
        {.assigned (.global ident.name) ty} (Assigning env ident · (.global ident.name)) := by
      refine ⟨.single ?_, fun henv hs => ?_⟩
      · intro events hevents
        apply Step.assignGlobal (hV events hevents) hbinds htop hcall
          (Ty.absorb_eq_ok.mp hjoined)
      · have hglobal := henv.globals htop ident.name hbinds
        unfold withGlobal
        split
        · rename_i n _
          refine ⟨⟨hs.scopes.setType, hs.inner, hs.inTree⟩, ⟨rfl, fun i shape => id⟩, ?_⟩
          simp only [context, hs.scopes.nested.blocks_setType hs.inner]
          apply Context.Assigns.global htop hglobal
        · refine ⟨⟨hs.scopes.declare ⟨rfl, rfl, hglobal⟩, hs.inner, ?_⟩, ⟨rfl, ?_⟩, ?_⟩
          · simpa [Scopes.declare] using hs.inTree
          · simp
          · simp only [context,
              hs.scopes.nested.blocks_declare_root hs.scopes.filled hs.inner]
            apply Context.Assigns.global htop hglobal
    refine ends_modify id ?_
    apply ends_get
    simp only [withGlobal] at hleads
    split
    · rename_i n hn
      rw [show s.scopes.lookup? 0 ident.name = some n from hn] at hleads
      exact ends_set id (ends_pure hleads)
    · rename_i hn
      rw [show s.scopes.lookup? 0 ident.name = none from hn] at hleads
      exact ends_set id (ends_pure hleads)
  · apply ends_report
    intro s' hs'
    simp only [outcome_bind]
    split <;> apply hs'

/-- A name takes a value, unless it is that of a function. -/
theorem assign_walks (hV : KnownAfter V ty) (hbinds : env.Binds ident.name) :
  (assign ident ty).Walks env V (fun var? => {w | ∃ v ∈ var?, w = .assigned v ty})
    fun Γ var? Γ' => ∃ v, var? = some v ∧ Assigning env ident Γ v Γ'
  := by
  intro s
  apply ends_read
  split
  · apply ends_report_pure
  · have hcall : env.plan.callable? ident.name = none := by
      cases h : env.plan.callable? ident.name <;> simp_all
    have hsome (x : Check Variable)
          (hx : x.Walks env V (fun v => {.assigned v ty}) (Assigning env ident)) :
        (do return some (← x) : Check (Option Variable)).Walks env V
          (fun var? => {w | ∃ v ∈ var?, w = .assigned v ty}) fun Γ var? Γ' =>
            ∃ v, var? = some v ∧ Assigning env ident Γ v Γ' := by
      apply walks_bind hx
      intro v
      apply walks_pure
      · rintro w ⟨v', hv', rfl⟩
        cases hv'
        right
        rfl
      · intro Γ' Γ hv
        use v
    split
    · rename_i htop
      apply hsome _ (bindGlobal_walks hV hbinds htop hcall)
    · rename_i htop
      apply hsome _ (assignLocal_walks hV hbinds (Bool.eq_false_iff.mpr htop))

/-! ### Statements -/

theorem condition_looks (h : e.readable = false → env.Broken) :
  (condition e).Forms env V (Expr.Elaborates env.plan.outside · e)
  := by
  apply looks_bind (expr_looks e h)
  intro cond
  split
  · apply looks_pure Set.subset_union_right
    intro Γ hcond
    apply hcond
  · apply looks_report_pure

/-- Checking a returned value declares nothing. -/
theorem returned_looks {value : Expr} (hV : .formed value ∈ V) :
  (returned value).Looks env V (fun _ => {.returned value}) fun _ _ => True
  := by
  intro s
  apply ends_read
  split
  · rename_i declared hdeclared
    split
    · apply looks_report
    · rename_i hfits
      apply ends_pure
      refine ⟨.single ?_, .refl s, fun _ => trivial⟩
      intro events hevents
      apply Step.returnDeclared (hevents _ hV) hdeclared
      simpa using hfits
  · rename_i hdeclared
    apply ends_get
    split
    · rename_i joined hjoined
      refine ends_put id ?_
      refine ⟨.single ?_, ⟨rfl, rfl, rfl⟩, fun _ => trivial⟩
      intro events hevents
      apply Step.returnJoined (hevents _ hV) hdeclared (Ty.absorb_eq_ok.mp hjoined)
    · apply looks_report

theorem storable_looks :
  (storable base value).Looks env V (fun _ => ∅) fun _ _ => True
  := by
  unfold storable
  split
  · split
    · apply looks_report
    · apply looks_skip
  · apply looks_report
  · apply looks_skip
  · apply looks_skip
  · apply looks_report

/-- What an assignment stores: the value, or with an operator what the operator makes of what
the target holds and of the value. -/
theorem stored_looks {span : Span} {R : Blocks → Expr → Prop} (hcurrent : current.Forms env V R)
    (hV : formedIn value.nodes ⊆ V) :
  (stored op current value span).Forms env V fun Γ e =>
    (op = none ∧ e = value) ∨ ∃ o held ty, op = some o ∧ R Γ held ∧
      e = .binary ⟨ty, span⟩ o held value
  := by
  unfold stored
  split
  · rename_i o
    apply looks_bind hcurrent
    intro held
    apply (binary_looks _).mono
    · rintro Γ _ ⟨ty, rfl⟩ hheld
      right
      use o, held, ty
    · rw [formedIn_append, Set.union_comm]
      apply Set.union_subset_union_left _ hV
  · apply looks_pure
    · apply hV
    · intro _
      left
      exact ⟨rfl, rfl⟩

/-- An assignment is noted and elaborated. -/
theorem assignment_walks {value : Tree.Expr} {span : Span}
    (htarget : target.readable = false → env.Broken)
    (hvalue : value.readable = false → env.Broken)
    (hbinds : ∀ ident, target = .name ident → env.Binds ident.name) :
  (assignment target op value span).Walks env V (fun st => accountOf st.toList)
    (Stmt.Elaborates env.plan.outside env.function.topLevel · (.assign span target op value))
  := by
  apply looks_then (expr_looks value hvalue)
  intro value'
  match target with
  | .name ident =>
    apply looks_then (stored_looks name_looks Set.subset_union_right)
    intro stored
    apply walks_bind (assign_walks (knownAfter_of_formed _) (hbinds ident rfl))
    · intro var?
      apply walks_pure
      · cases var? with
        | none => simp
        | some v =>
          rw [Option.map_some, Option.toList_some, accountOf_assign]
          apply Set.union_subset_union
          · apply Set.subset_union_right
          · rintro w rfl
            use v, rfl
      · rintro Γ' Γ ⟨v, rfl, hv⟩ hstored hvalue
        obtain ⟨rfl, rfl⟩ | ⟨o, held, ty, rfl, hheld, rfl⟩ := hstored
        · apply Stmt.Elaborates.assign hvalue hv
        · apply Stmt.Elaborates.update hvalue hheld hv
    · right
      apply formed_mem stored.mem_nodes_self
  | .index base i =>
    have htarget := imp_of_and_eq_false htarget
    apply looks_then (expr_looks base htarget.1)
    intro base'
    apply looks_then (expr_looks i htarget.2)
    intro i'
    apply looks_then (stored_looks (item_looks (by rw [formedIn_append]; tauto_set)) (by tauto_set))
    intro stored
    apply looks_then storable_looks
    intro _
    apply looks_then indexType_looks
    intro _
    apply walks_pure
    · rw [Option.toList_some, accountOf_store]
      tauto_set
    · intro Γ _ _ hstored hindex hbase hvalue
      obtain ⟨rfl, rfl⟩ | ⟨o, held, ty, rfl, ⟨item, rfl⟩, rfl⟩ := hstored
      · apply Stmt.Elaborates.store hvalue hbase hindex
      · apply Stmt.Elaborates.storeUpdate hvalue hbase hindex

/-- A loop goes on with the type of the items of what it runs over. -/
theorem walks_loopItem {iter : Expr}
    (h : ∀ ty, itemType? iter.ty = some ty → (f ty).Walks env V W R)
    (herror : (f .error).Walks env V' W' R') :
  (loopItem iter >>= f).Walks env V W R
  := by
  unfold loopItem
  cases hty : itemType? iter.ty with
  | none =>
    intro s
    apply ends_of_faulty
    apply (herror _).1
    simp [Faulty, Diagnostic.anyError, Fault.at, Diagnostic.error, Diagnostic.isError]
  | some ty => apply h ty hty

section

variable {target : Ident} {iter : Tree.Expr} {span : Span} (hbinds : env.Binds target.name)
  (hbody : ∀ V, (stmts body).Walks env V accountOf
    (Stmt.ElaboratesAll env.plan.outside env.function.topLevel · body))

include hbinds hbody

/-- In a loop over checked items the variable takes an item, and then there is the body. -/
theorem items_walks {W : Option Stmt → Set Event} (hV : KnownAfter V ty)
    (hW : ∀ (var? : Option Variable) body, W (var?.map (.forLoop span · e' body)) ⊆
      V ∪ {w | ∃ v ∈ var?, w = .assigned v ty} ∪ accountOf body) :
  (do
    let var? ← assign target ty
    let body ← block (stmts body)
    return var?.map (.forLoop span · e' body) : Check _).Walks env V W
      fun Γ st Γ' => Expr.Elaborates env.plan.outside Γ.blocks e e' →
        Stmt.Elaborates env.plan.outside env.function.topLevel Γ
          (.forLoop span target e body) st Γ'
  := by
  apply walks_bind (assign_walks hV hbinds)
  intro var?
  apply walks_bind (block_walks (hbody _))
  intro body'
  apply walks_pure (hW var? body')
  rintro _ Γ₁ ⟨Γ₂, hbody, rfl⟩ Γ ⟨v, rfl, hv⟩ he
  apply Stmt.Elaborates.forLoop he hv hbody

/-- Checking a loop walks through its body. -/
theorem forLoop_walks (hread : iter.readable = false → env.Broken) :
  (stmt (.forLoop span target iter body)).Walks env V (fun a => accountOf a.toList)
    (Stmt.Elaborates env.plan.outside env.function.topLevel · (.forLoop span target iter body))
  := by
  unfold stmt
  apply looks_then (expr_looks iter hread)
  intro iter'
  apply walks_loopItem
  · intro ty hty
    apply items_walks hbinds hbody
    · intro events hV
      use iter', hV _ (.inr (formed_mem iter'.mem_nodes_self)), .inr hty
    · intro var? body
      cases var? with
      | none => simp
      | some v =>
        rw [Option.map_some, Option.toList_some, accountOf_for]
        rintro w ((hw | hw) | ⟨ty', hty', rfl⟩)
        · left; left; right
          apply hw
        · right
          apply hw
        · left; right
          cases hty.symm.trans hty'
          use v, rfl
  · apply items_walks (W := fun _ => ∅) (e := iter) hbinds hbody
      (knownAfter_of_formed (e := .faulty span) rfl)
    intro _ _
    apply Set.empty_subset

end

mutual

/-- All that belongs to a checked statement is noted, and it elaborates what is written. -/
theorem stmt_walks {st : Tree.Stmt} {V : Set Event} (hread : st.readable = false → env.Broken)
    (hbinds : ∀ ident ∈ boundBy st, env.Binds ident.name) :
  (stmt st).Walks env V (fun a => accountOf a.toList)
    (Stmt.Elaborates env.plan.outside env.function.topLevel · st)
  := by
  cases st with
  | branch span arms otherwise =>
    have hread := imp_of_and_eq_false hread
    rw [boundBy, forall_mem_append] at hbinds
    unfold stmt
    apply walks_bind (armsOf_walks hread.1 hbinds.1)
    intro arms'
    apply walks_bind (lastOf_walks hread.2 hbinds.2)
    intro last'
    apply walks_pure
    · simp [accountOf_branch, Set.union_assoc]
    · intro Γ₂ Γ₁ hlast Γ harms
      apply Stmt.Elaborates.branch harms hlast
  | whileLoop span cond body =>
    have hread := imp_of_and_eq_false hread
    rw [boundBy] at hbinds
    unfold stmt
    apply looks_then (condition_looks hread.1)
    intro cond'
    apply walks_bind (block_walks (stmts_walks hread.2 hbinds))
    intro body'
    apply walks_pure
    · simp [accountOf_while, Set.union_assoc]
    · rintro _ Γ ⟨Γ₁, hbody, rfl⟩ hcond
      apply Stmt.Elaborates.whileLoop hcond hbody
  | forLoop span target iter body =>
    have hread := imp_of_and_eq_false hread
    rw [boundBy, forall_mem_cons] at hbinds
    exact forLoop_walks hbinds.1 (fun _ => stmts_walks hread.2 hbinds.2) hread.1
  | ret span value =>
    cases value with
    | none => exact walks_pure (by simp [accountOf_cons]) fun _ => .ret
    | some value =>
      apply looks_then (expr_looks value hread)
      intro value'
      apply looks_then (returned_looks (.inr (formed_mem value'.mem_nodes_self)))
      intro _
      apply walks_pure
      · simp [accountOf_cons]
      · intro Γ _ hvalue
        apply Stmt.Elaborates.retValue hvalue
  | assign span target op value =>
    have hread := imp_of_and_eq_false hread
    apply assignment_walks hread.1 hread.2
    rintro ident rfl
    apply hbinds
    simp [boundBy]
  | expr span e =>
    apply looks_then (expr_looks e hread)
    intro e'
    apply walks_pure
    · simp [accountOf_cons]
    · intro Γ he
      apply Stmt.Elaborates.expr he
  | leave => exact walks_pure (by simp [accountOf_cons]) fun _ => .leave
  | next => exact walks_pure (by simp [accountOf_cons]) fun _ => .next
  | pass => exact walks_pure (by simp) fun _ => .pass
  | raw span raw =>
    apply looks_then rawBlock_looks
    intro block
    apply walks_pure
    · simp [accountOf_cons]
    · rintro Γ ⟨scope, hscope, rfl⟩
      apply Stmt.Elaborates.raw hscope

/-- Checking statements walks through them in order. -/
theorem stmts_walks {body : List Tree.Stmt} {V : Set Event}
    (hread : Tree.Stmt.readableAll body = false → env.Broken)
    (hbinds : ∀ ident ∈ boundByAll body, env.Binds ident.name) :
  (stmts body).Walks env V accountOf
    (Stmt.ElaboratesAll env.plan.outside env.function.topLevel · body)
  := by
  cases body with
  | nil =>
    unfold stmts
    exact walks_pure (by simp) fun _ => .nil
  | cons st rest =>
    have hread := imp_of_and_eq_false hread
    rw [boundByAll, forall_mem_append] at hbinds
    unfold stmts
    apply walks_bind (stmt_walks hread.1 hbinds.1)
    intro first
    apply walks_bind (stmts_walks hread.2 hbinds.2)
    intro others
    apply walks_pure
    · simp [accountOf_append, Set.union_assoc]
    · intro Γ₂ Γ₁ hrest Γ hfirst
      apply Stmt.ElaboratesAll.cons hfirst hrest

/-- Checking arms walks through each of them. -/
theorem armsOf_walks {arms : List Tree.Arm} {V : Set Event}
    (hread : Tree.Stmt.readableArms arms = false → env.Broken)
    (hbinds : ∀ ident ∈ boundByArms arms, env.Binds ident.name) :
  (armsOf arms).Walks env V accountOfArms
    (Stmt.ElaboratesArms env.plan.outside env.function.topLevel · arms)
  := by
  match arms with
  | [] =>
    unfold armsOf
    exact walks_pure (by simp [accountOfArms, Stmt.nodesOfArms, Stmt.insideArms]) fun _ => .nil
  | .mk cond body :: rest =>
    obtain ⟨hfirst, hread⟩ := imp_of_and_eq_false hread
    have hfirst := imp_of_and_eq_false hfirst
    rw [boundByArms, forall_mem_append] at hbinds
    unfold armsOf
    apply looks_then (condition_looks hfirst.1)
    intro cond'
    apply walks_bind (block_walks (stmts_walks hfirst.2 hbinds.1))
    intro body'
    apply walks_bind (armsOf_walks hread hbinds.2)
    intro others
    apply walks_pure
    · simp [accountOfArms_cons, Set.union_assoc]
    · rintro Γ₂ _ hrest Γ ⟨Γ₁, hbody, rfl⟩ hcond
      apply Stmt.ElaboratesArms.cons hcond hbody hrest

theorem lastOf_walks {last : Option (List Tree.Stmt)} {V : Set Event}
    (hread : Tree.Stmt.readableOption last = false → env.Broken)
    (hbinds : ∀ ident ∈ boundByOption last, env.Binds ident.name) :
  (lastOf last).Walks env V accountOf
    (Stmt.ElaboratesLast env.plan.outside env.function.topLevel · last)
  := by
  cases last with
  | none =>
    unfold lastOf
    exact walks_pure (by simp) fun _ => .none
  | some body =>
    unfold lastOf
    apply (block_walks (stmts_walks hread hbinds)).mono
    rintro Γ body' _ ⟨Γ₁, hbody, rfl⟩
    apply Stmt.ElaboratesLast.some hbody

end

end Check

end Endmark.Typed
