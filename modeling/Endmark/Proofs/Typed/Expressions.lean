import Endmark.Proofs.Typed.Elaboration.Lexical

/-!
# Checking expressions

A check that reports no error makes steps.  Checks in a row make the steps of one after those
of the other, and an expression that is checked has been formed on the way, with all
expressions in it.  It elaborates what is written in the blocks that are open.
-/

namespace Endmark

open List Option Bool

theorem Ty.absorb_eq_ok {held : Ty} :
  held.absorb ty = .ok joined ↔ held.join ty = some joined
  := by
  cases h : held.join ty <;> simp [absorb, h]

theorem Ty.isError_iff {ty : Ty} :
  ty.isError ↔ ty = .error
  := by
  cases ty <;> simp [isError]

namespace Typed

open Endmark.Tree (Ident BinaryOp UnaryOp)

/-- The events in which the expressions are formed. -/
def formedIn (es : List Expr) : Set Event :=
  {w | ∃ e ∈ es, w = .formed e}

@[simp]
theorem mem_formedIn :
  w ∈ formedIn es ↔ ∃ e ∈ es, w = .formed e
  := .rfl

@[simp]
theorem formedIn_nil :
  formedIn [] = ∅
  := by
  simp [formedIn]

theorem formedIn_append :
  formedIn (as ++ bs) = formedIn as ∪ formedIn bs
  := by
  ext w
  simp [or_and_right, exists_or]

namespace Check

/-- From a state, after the events of `V`, there are steps to another one, with the events of
`W` on the way. -/
def Reaches (env : Env) (s : State) (V : Set Event) (s' : State) (W : Set Event) : Prop :=
  ∀ events, s.Inner → (∀ v ∈ V, v ∈ events) →
    ∃ events', Steps env ⟨s, events⟩ ⟨s', events'⟩ ∧ ∀ w ∈ W, w ∈ events'

variable {R : Blocks → α → Prop}

/-- The events before are among the events after. -/
theorem Reaches.frame {W : Set Event} (h : Reaches env s V s' W) (hW : W' ⊆ V ∪ W) :
  Reaches env s V s' W'
  := by
  intro events hs hV
  obtain ⟨events', hsteps, hW'⟩ := h events hs hV
  use events', hsteps
  intro w hw
  obtain hv | hw := hW hw
  · apply hsteps.events_subset
    apply hV w hv
  · apply hW' w hw

/-- Steps can be made after steps. -/
theorem Reaches.trans {W : Set Event} (h : Reaches env s V s' W)
    (h' : Reaches env s' (V ∪ W) s'' X) :
  Reaches env s V s'' X
  := by
  intro events hs hV
  obtain ⟨events', hsteps, hW⟩ := h events hs hV
  have hVW : ∀ v ∈ V ∪ W, v ∈ events' := by
    rintro v (hv | hv)
    · apply hsteps.events_subset (hV v hv)
    · apply hW v hv
  obtain ⟨events'', hsteps', hX⟩ := h' events' (hsteps.keep Step.inner hs) hVW
  use events'', hsteps.trans hsteps'

/-- One step is enough. -/
theorem Reaches.of_step {W : Set Event}
    (h : ∀ events, (∀ v ∈ V, v ∈ events) → Step env ⟨s, events⟩ ⟨s', w :: events⟩)
    (hW : W ⊆ insert w V) :
  Reaches env s V s' W
  := by
  intro events _ hV
  use w :: events, .single (h events hV)
  intro x hx
  obtain rfl | hx := hW hx
  · apply mem_cons_self
  · apply mem_cons_of_mem _ (hV x hx)

theorem Reaches.single
    (h : ∀ events, (∀ v ∈ V, v ∈ events) → Step env ⟨s, events⟩ ⟨s', w :: events⟩) :
  Reaches env s V s' {w}
  := .of_step h (by simp)

/-- No step is needed for what has been noted. -/
theorem Reaches.refl {W : Set Event} (hW : W ⊆ V) :
  Reaches env s V s W
  := by
  intro events _ hV
  use events, .refl
  intro w hw
  apply hV w (hW hw)

/-- The steps as `Reaches` has them declare nothing, and `T` holds of the blocks that are
open. -/
structure Stays (env : Env) (s : State) (V : Set Event) (s' : State) (W : Set Event)
    (T : Blocks → Prop) : Prop where
  reaches : Reaches env s V s' W
  same : s.Same s'
  holds : s.Lexical env.plan → T (s.scopes.blocks s.scope)

/-- Without an error reported the check declares nothing, and makes steps after the events of
`V`.  For its result `a` the events of `W a` are among them, and `R` relates the open blocks to
it. -/
def Looks (x : Check α) (env : Env) (V : Set Event) (W : α → Set Event)
    (R : Blocks → α → Prop) : Prop :=
  ∀ s, x.Ends env s fun a s' => Stays env s V s' (W a) (R · a)

/-! ### Putting checks together -/

theorem looks_pure (hW : W a ⊆ V) (h : ∀ Γ, R Γ a) :
  (pure a : Check α).Looks env V W R
  := fun s => ends_pure ⟨.refl hW, .refl s, fun _ => h _⟩

theorem looks_skip :
  (pure a : Check α).Looks env V (fun _ => ∅) fun _ _ => True
  := looks_pure (Set.empty_subset V) fun _ => trivial

/-- Of two checks in a row the second one goes on from the events of the first one. -/
theorem looks_bind {x : Check α} {U : Blocks → β → Prop}
    (hx : x.Looks env V W R) (hf : ∀ a, (f a).Looks env (V ∪ W a) X fun Γ b => R Γ a → U Γ b) :
  (x >>= f).Looks env V X U
  := by
  intro s
  apply ends_bind (hx s) fun a s' => hf a s'
  intro a s' b s'' h h'
  refine ⟨h.reaches.trans h'.reaches, h.same.trans h'.same, fun hs => ?_⟩
  have hU := h'.holds (h.same.lexical hs)
  rw [h.same.scopes, h.same.scope] at hU
  apply hU (h.holds hs)

theorem looks_read (h : (f env).Looks env V W R) :
  ((read : Check Env) >>= f).Looks env V W R
  := h

theorem looks_report_pure {span : Span} :
  (report span fault >>= fun _ => (pure a : Check α)).Looks env V W R
  := fun _ => ends_report_pure

theorem looks_report {span : Span} {W : PUnit → Set Event} {R : Blocks → PUnit → Prop} :
  (report span fault).Looks env V W R
  := fun _ => ends_report_pure

theorem Looks.mono {x : Check α} (h : x.Looks env V W R) (hRT : ∀ Γ a, R Γ a → T Γ a) :
  x.Looks env V W T
  := fun s => (h s).mono fun a _ h => ⟨h.reaches, h.same, fun hs => hRT _ a (h.holds hs)⟩

/-! ### Expressions -/

/-- The check as `Looks` has it gives an expression, and all expressions in that are formed. -/
abbrev Forms (x : Check Expr) (env : Env) (V : Set Event) (R : Blocks → Expr → Prop) : Prop :=
  x.Looks env V (fun e => formedIn e.nodes) R

theorem formed_mem (he : e ∈ es) :
  .formed e ∈ formedIn es
  := ⟨e, he, rfl⟩

/-- An expression whose parts have been formed can be given. -/
theorem ends_form {parts : List Expr} {R : Blocks → Expr → Prop} (hnodes : e.nodes = e :: parts)
    (hparts : formedIn parts ⊆ V)
    (hform : ∀ events, (∀ v ∈ V, v ∈ events) → Formed env s events e)
    (hR : s.Lexical env.plan → R (s.scopes.blocks s.scope) e) :
  (pure e : Check Expr).Ends env s fun a s' => Stays env s V s' (formedIn a.nodes) (R · a)
  := by
  apply ends_pure
  refine ⟨.of_step (fun events hV => .form (hform events hV)) ?_, .refl s, hR⟩
  rintro w ⟨d, hd, rfl⟩
  rw [hnodes] at hd
  obtain rfl | hd := mem_cons.mp hd
  · apply Set.mem_insert
  · apply Set.mem_insert_of_mem _ (hparts (formed_mem hd))

/-- A name used as a value. -/
theorem name_looks {span : Span} :
  (name n span).Forms env V (Expr.Elaborates env.plan.outside · (.name span n))
  := by
  intro s
  apply ends_get
  split
  · apply ends_report_pure
  · rename_i symbol hmeans
    have hvar (v : Variable) (hv : SymbolInfo.meaning? symbol = some v) :
        (pure (.var ⟨symbol.ty, span⟩ v) : Check Expr).Ends env s fun e s' =>
          Stays env s V s' (formedIn e.nodes) fun Γ =>
            Expr.Elaborates env.plan.outside Γ (.name span n) e := by
      apply ends_form rfl (by simp)
      · intro events _
        use n, symbol, hmeans, rfl
      · intro hs
        apply Expr.Elaborates.var (hs.refers hmeans hv)
    split <;> rename_i hkind
    · apply ends_read
      split
      · apply ends_report_pure
      · apply hvar
        simp [SymbolInfo.meaning?, hkind]
    iterate 2
      · apply hvar
        simp [SymbolInfo.meaning?, hkind]
    · apply ends_form rfl (by simp)
      · intro events _
        use n, symbol, hmeans, rfl, hkind
      · intro hs
        obtain ⟨hfree, hname, hcall⟩ := hs.function hmeans hkind
        obtain ⟨target, htarget⟩ := isSome_iff_exists.mp hcall
        rw [hname]
        apply Expr.Elaborates.function hfree (Plan.outside_of_callable? htarget)

/-- An operation on two operands. -/
theorem binary_looks {span : Span} (hV : formedIn (lhs.nodes ++ rhs.nodes) ⊆ V) :
  (binary op lhs rhs span).Forms env V fun _ e => ∃ ty, e = .binary ⟨ty, span⟩ op lhs rhs
  := by
  intro s
  unfold binary
  split
  · rename_i ty hty
    apply ends_form rfl hV
    · intro events h
      use h _ (hV (formed_mem (by simp [lhs.mem_nodes_self]))),
        h _ (hV (formed_mem (by simp [rhs.mem_nodes_self]))), hty
    · intro _
      use ty
  · apply ends_report_pure

/-- An operation on one operand. -/
theorem unary_looks {operand : Expr} {span : Span} (hV : formedIn operand.nodes ⊆ V) :
  (unary op operand span).Forms env V fun _ e => ∃ ty, e = .unary ⟨ty, span⟩ op operand
  := by
  intro s
  unfold unary
  split
  · rename_i ty hty
    apply ends_form rfl hV
    · intro events h
      use h _ (hV (formed_mem operand.mem_nodes_self)), hty
    · intro _
      use ty
  · apply ends_report_pure

theorem indexType_looks :
  (indexType i).Looks env V (fun _ => ∅) fun _ _ => True
  := by
  unfold indexType
  split
  any_goals apply looks_skip
  apply looks_report

/-- An item of a value. -/
theorem item_looks {span : Span} (hV : formedIn (base.nodes ++ i.nodes) ⊆ V) :
  (item base i span).Forms env V fun _ e => ∃ ty, e = .index ⟨ty, span⟩ base i
  := by
  intro s
  unfold item
  split
  · rename_i ty hty
    apply ends_form rfl hV
    · intro events h
      use h _ (hV (formed_mem (by simp [base.mem_nodes_self]))),
        h _ (hV (formed_mem (by simp [i.mem_nodes_self]))), hty
    · intro _
      use ty
  · apply ends_report_pure

/-- A list, which is kept when its items do not agree. -/
theorem list_looks {span : Span} (hV : formedIn (Expr.nodesOf items) ⊆ V) :
  (list items span).Forms env V fun _ e => ∃ ty, e = .list ⟨ty, span⟩ items
  := by
  intro s
  have hitems (events : List Event) (h : ∀ v ∈ V, v ∈ events) :
      ∀ item ∈ items, .formed item ∈ events := by
    intro item hitem
    apply h _ (hV (formed_mem _))
    apply Expr.mem_nodesOf.mpr ⟨item, hitem, item.mem_nodes_self⟩
  unfold list
  split
  · rename_i ty hty
    apply ends_form rfl hV
    · intro events h
      use hitems events h
      simp [hty]
    · intro _
      exact ⟨_, rfl⟩
  · rename_i hnone
    refine ends_modify (by simp [State.Faulty, Diagnostic.anyError, Diagnostic.isError,
      Diagnostic.warning]) ?_
    apply ends_pure
    refine ⟨?_, ⟨rfl, rfl, rfl⟩, fun _ => ⟨_, rfl⟩⟩
    intro events _ h
    let e := Expr.list ⟨.list .unknown, span⟩ items
    have hform : ∀ s, Formed env s events e := by
      intro s
      use hitems events h
      simp [hnone]
    use .formed e :: events
    constructor
    · apply Relation.ReflTransGen.tail (.single (.warn rfl)) (.form (hform _))
    · rintro w ⟨d, hd, rfl⟩
      obtain rfl | hd := mem_cons.mp hd
      · apply mem_cons_self
      · apply mem_cons_of_mem
        apply h _ (hV (formed_mem hd))

/-- A parameter takes an argument, or the argument is skipped. -/
theorem argument_looks (hparam : (env.plan.functions.getD target default).params[k]? = some param)
    (hV : .formed arg ∈ V) :
  (argument callee target k param arg).Looks env V (fun _ => {.passed target k arg})
    fun _ _ => True
  := by
  intro s
  have hpass (found : Tables) (h : s.found.Takes target k param.declared arg.ty found) :
      Stays env s V { s with found } {.passed target k arg} fun _ => True := by
    refine ⟨.single ?_, ⟨rfl, rfl, rfl⟩, fun _ => trivial⟩
    intro events hevents
    apply Step.pass (hevents _ hV) hparam h
  unfold argument
  split
  · rename_i herror
    apply ends_pure
    refine ⟨.single ?_, .refl s, fun _ => trivial⟩
    intro events hevents
    apply Step.skip (hevents _ hV) (Ty.isError_iff.mp herror)
  · split
    · rename_i declared hdeclared
      split
      · apply looks_report
      · rename_i hfits
        apply ends_pure
        apply hpass
        rw [hdeclared]
        simpa [Tables.Takes] using hfits
    · rename_i hdeclared
      apply ends_get
      split
      · rename_i joined hjoined
        refine ends_put id ?_
        apply hpass
        rw [hdeclared]
        use joined, Ty.absorb_eq_ok.mp hjoined
      · apply looks_report

/-- Parameters from one on take the arguments, or those are skipped. -/
theorem arguments_looks :
  ∀ (k : Nat) (params : List ParamPlan) (args : List Expr) {V : Set Event},
    (env.plan.functions.getD target default).params.drop k = params →
    args.length = params.length → formedIn args ⊆ V →
    (arguments callee target k params args).Looks env V
      (fun _ => {w | ∃ i arg, args[i]? = some arg ∧ w = .passed target (k + i) arg})
      fun _ _ => True
  | _, [], [], _, _, _, _ => looks_pure (by simp) fun _ => trivial
  | _, [], _ :: _, _, _, hlength, _ | _, _ :: _, [], _, _, hlength, _ => by simp at hlength
  | k, param :: params, arg :: args, V, hparams, hlength, hV => by
    have hparam : (env.plan.functions.getD target default).params[k]? = some param := by
      rw [← head?_drop, hparams, head?_cons]
    have hrest : (env.plan.functions.getD target default).params.drop (k + 1) = params := by
      rw [← tail_drop, hparams, tail_cons]
    apply looks_bind (argument_looks hparam (hV (formed_mem mem_cons_self)))
    intro _ s
    apply (arguments_looks (k + 1) params args hrest (Nat.succ.inj hlength)
      (fun w ⟨e, he, hw⟩ => Or.inl (hV ⟨e, mem_cons_of_mem _ he, hw⟩)) s).mono
    rintro _ s' ⟨hreaches, hsame, _⟩
    refine ⟨hreaches.frame ?_, hsame, fun _ _ => trivial⟩
    rintro w ⟨i, e, he, rfl⟩
    cases i with
    | zero =>
      left
      right
      cases he
      rfl
    | succ i =>
      right
      use i, e, he
      rw [add_right_comm, add_assoc]

/-- A call of a function of the program, with as many arguments as that has parameters. -/
theorem callFunction_looks {span : Span} (hV : formedIn (Expr.nodesOf args) ⊆ V) :
  (callFunction callee args span).Forms env V fun _ e =>
    env.plan.outside.function callee.name args.length ∧
      ∃ ty, e = .call ⟨ty, span⟩ callee.name args
  := by
  apply looks_read
  split
  · apply looks_report_pure
  · rename_i target htarget
    dsimp only
    split
    · apply looks_report_pure
    · rename_i hlength
      have hlength := not_not.mp hlength
      have hargs : formedIn args ⊆ V := by
        rintro w ⟨e, he, rfl⟩
        apply hV (formed_mem (Expr.mem_nodesOf.mpr ⟨e, he, e.mem_nodes_self⟩))
      apply looks_bind (arguments_looks 0 _ args rfl hlength hargs)
      intro _ s
      apply ends_form rfl (hV.trans Set.subset_union_left)
      · intro events h
        use target, htarget, hlength, rfl
        intro k arg harg
        apply h
        right
        use k, arg, harg
        rw [zero_add]
      · intro _ _
        constructor
        · rw [hlength]
          apply Plan.outside_of_callable? htarget
        · exact ⟨_, rfl⟩

/-- A call of a function that every program has. -/
theorem callBuiltin_looks {span : Span} (hV : formedIn (Expr.nodesOf args) ⊆ V) :
  (callBuiltin callee args span).Forms env V fun _ e =>
    ∃ b ty, Builtin.find? callee.name = some b ∧ b.accepts args.length ∧
      e = .builtin ⟨ty, span⟩ b.kind args
  := by
  intro s
  unfold callBuiltin
  split
  · apply ends_report_pure
  · rename_i b hb
    split
    · apply ends_report_pure
    · rename_i haccepts
      split
      · rename_i ty hresult
        apply ends_form rfl hV
        · intro events h
          constructor
          · intro arg harg
            apply h _ (hV (formed_mem (Expr.mem_nodesOf.mpr ⟨arg, harg, arg.mem_nodes_self⟩)))
          · apply hresult
        · intro _
          use b, ty, hb
          simpa using haccepts
      · apply ends_report_pure

/-- A call, with its arguments elaborated. -/
theorem call_looks {span : Span} (hV : formedIn (Expr.nodesOf args) ⊆ V) :
  (call callee args span).Forms env V fun Γ e => ∀ source,
    Expr.ElaboratesAll env.plan.outside Γ source args →
      Expr.Elaborates env.plan.outside Γ (.call span callee source) e
  := by
  intro s
  apply ends_get
  split
  · rename_i symbol hmeans
    split
    · rename_i hkind
      apply (callFunction_looks hV s).mono
      rintro e s' ⟨hreaches, hsame, he⟩
      refine ⟨hreaches, hsame, fun hs source hsource => ?_⟩
      obtain ⟨hf, ty, rfl⟩ := he hs
      rw [hsource.length_eq] at hf
      apply Expr.Elaborates.call hsource (hs.function hmeans hkind).1 hf
    · apply ends_report_pure
  · apply (callBuiltin_looks hV).mono
    rintro Γ _ ⟨b, ty, hb, haccepts, rfl⟩ source hsource
    rw [hsource.length_eq] at haccepts
    apply Expr.Elaborates.builtin hsource hb haccepts

/-- The names that a raw block can use are those that mean a variable, with that and its type. -/
theorem mem_snapshot (env : Env) :
  (x, v, ty) ∈ ((snapshot.run env).run s).1 ↔
    ∃ symbol, s.Means x symbol ∧ SymbolInfo.meaning? symbol = some v ∧ symbol.ty = ty
  := by
  have hsnapshot : ((snapshot.run env).run s).1 =
      ((s.scopes.visible s.scope).filterMap fun entry => (s.scopes.symbol? entry.2).bind fun symbol =>
        (SymbolInfo.meaning? symbol).map (entry.1, ·, symbol.ty)).mergeSort
        fun a b => a.1 ≤ b.1 := by
    change mergeSort (filterMap _ _) _ = _
    congr 2
    funext entry
    dsimp only
    cases s.scopes.symbol? entry.2 with
    | none => rfl
    | some symbol =>
      dsimp only [bind_some, SymbolInfo.meaning?]
      cases symbol.kind <;> rfl
  simp only [hsnapshot, mem_mergeSort, mem_filterMap, Prod.exists, Scopes.mem_visible,
    State.Means, bind_eq_some_iff, map_eq_some_iff]
  grind

/-- Each name in a raw block goes with the variable that it refers to. -/
theorem rawBlock_looks {span : Span} :
  (rawBlock raw span).Looks env V (fun _ => ∅) fun Γ block => ∃ scope,
    (∀ entry ∈ scope, Refers env.plan.outside Γ entry.1 entry.2.1) ∧
      block = ⟨raw.lang, raw.payload, span, scope⟩
  := by
  intro s
  apply ends_get
  apply ends_pure
  refine ⟨.refl (Set.empty_subset V), .refl s, fun hs => ⟨_, fun entry hentry => ?_, rfl⟩⟩
  obtain ⟨symbol, hmeans, hv, -⟩ := (mem_snapshot env).mp hentry
  exact hs.refers hmeans hv

theorem imp_of_and_eq_false {a : Bool} (h : (a && b) = false → p) :
  (a = false → p) ∧ (b = false → p)
  := by
  rwa [and_eq_false_iff, or_imp] at h

mutual

/-- All expressions in a checked expression have been formed, and it elaborates what is
written. -/
theorem expr_looks : ∀ (e : Tree.Expr) {V : Set Event}, (e.readable = false → env.Broken) →
    (expr e).Forms env V (Expr.Elaborates env.plan.outside · e)
  | .literal span value, _, _ => by
    intro s
    unfold expr
    apply ends_form rfl (by simp)
    · intro events _
      rfl
    · intro _
      apply Expr.Elaborates.literal
  | .name span n, _, _ => by
    unfold expr
    apply name_looks
  | .binary span op lhs rhs, _, h => by
    have h := imp_of_and_eq_false h
    unfold expr
    apply looks_bind (expr_looks lhs h.1)
    intro lhs'
    apply looks_bind (expr_looks rhs h.2)
    intro rhs'
    apply (binary_looks (by simp [formedIn_append, Set.union_assoc])).mono
    rintro Γ _ ⟨ty, rfl⟩ hrhs hlhs
    apply Expr.Elaborates.binary hlhs hrhs
  | .unary span op operand, _, h => by
    unfold expr
    apply looks_bind (expr_looks operand h)
    intro operand'
    apply (unary_looks Set.subset_union_right).mono
    rintro Γ _ ⟨ty, rfl⟩ hoperand
    apply Expr.Elaborates.unary hoperand
  | .call span callee args, _, h => by
    unfold expr
    apply looks_bind (exprs_looks args h)
    intro args'
    apply (call_looks Set.subset_union_right).mono
    intro Γ e he
    apply he args
  | .list span items, _, h => by
    unfold expr
    apply looks_bind (exprs_looks items h)
    intro items'
    apply (list_looks Set.subset_union_right).mono
    rintro Γ _ ⟨ty, rfl⟩ hitems
    apply Expr.Elaborates.list hitems
  | .index span base i, _, h => by
    have h := imp_of_and_eq_false h
    unfold expr
    apply looks_bind (expr_looks base h.1)
    intro base'
    apply looks_bind (expr_looks i h.2)
    intro i'
    apply looks_bind indexType_looks
    intro _
    apply (item_looks (by simp [formedIn_append, Set.union_assoc])).mono
    rintro Γ _ ⟨ty, rfl⟩ _ hindex hbase
    apply Expr.Elaborates.index hbase hindex
  | .fstring span ps, _, h => by
    unfold expr
    apply looks_bind (parts_looks ps h)
    intro ps' s
    apply ends_form rfl Set.subset_union_right
    · intro events _
      rfl
    · intro _ hps
      apply Expr.Elaborates.fstring hps
  | .raw span raw, _, _ => by
    unfold expr
    apply looks_bind rawBlock_looks
    intro block s
    apply ends_form rfl (by simp)
    · intro events _
      rfl
    · rintro _ ⟨scope, hscope, rfl⟩
      apply Expr.Elaborates.raw hscope
  | .error span, _, h => by
    intro s
    unfold expr
    apply ends_form rfl (by simp)
    · intro events _
      use rfl, h rfl
    · intro _
      apply Expr.Elaborates.error

/-- Checking expressions forms them all, and declares nothing. -/
theorem exprs_looks : ∀ (es : List Tree.Expr) {V : Set Event},
    (Tree.Expr.readableAll es = false → env.Broken) →
    (exprs es).Looks env V (fun as => formedIn (Expr.nodesOf as)) fun Γ as =>
      Expr.ElaboratesAll env.plan.outside Γ es as
  | [], _, _ => by
    unfold exprs
    apply looks_pure (by simp [Expr.nodesOf])
    intro _
    apply Expr.ElaboratesAll.nil
  | e :: rest, _, h => by
    have h := imp_of_and_eq_false h
    unfold exprs
    apply looks_bind (expr_looks e h.1)
    intro first
    apply looks_bind (exprs_looks rest h.2)
    intro others
    apply looks_pure (by simp [Expr.nodesOf, formedIn_append, Set.union_assoc])
    intro Γ hothers hfirst
    apply Expr.ElaboratesAll.cons hfirst hothers

/-- So does checking the parts of an f-string. -/
theorem parts_looks : ∀ (ps : List Tree.FStringPart) {V : Set Event},
    (Tree.Expr.readableParts ps = false → env.Broken) →
    (parts ps).Looks env V (fun as => formedIn (Expr.nodesOfParts as)) fun Γ as =>
      Expr.ElaboratesParts env.plan.outside Γ ps as
  | [], _, _ => by
    unfold parts
    apply looks_pure (by simp [Expr.nodesOfParts])
    intro _
    apply Expr.ElaboratesParts.nil
  | .text t :: rest, _, h => by
    unfold parts
    apply looks_bind (parts_looks rest h)
    intro others
    apply looks_pure (by simp [Expr.nodesOfParts])
    intro Γ hothers
    apply Expr.ElaboratesParts.text hothers
  | .field e :: rest, V, h => by
    have h := imp_of_and_eq_false h
    unfold parts
    apply looks_bind (expr_looks e h.1)
    intro e'
    have hrest : (parts rest >>= fun others => pure (.field e' :: others)).Looks env
        (V ∪ formedIn e'.nodes) (fun as => formedIn (Expr.nodesOfParts as)) fun Γ ps =>
          Expr.Elaborates env.plan.outside Γ e e' →
            Expr.ElaboratesParts env.plan.outside Γ (.field e :: rest) ps := by
      apply looks_bind (parts_looks rest h.2)
      intro others
      apply looks_pure (by simp [Expr.nodesOfParts, formedIn_append, Set.union_assoc])
      intro Γ hothers he
      apply Expr.ElaboratesParts.field he hothers
    split
    · intro s
      apply ends_report fun s' => (hrest s').1
    · apply hrest

end

end Check

end Typed

end Endmark
