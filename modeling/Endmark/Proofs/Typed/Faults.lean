import Endmark.Proofs.Typed.Symbols

/-!
# Types of faults

The type of a fault stands for an expression that has been reported.  A pass that reports no
error makes no such type by itself: it finds one only where the tables that it reads hold one.
They can, since the reports of the passes before the last one are not kept.  The same goes for
each property that types without faults have, and what is formed from types that have it.
-/

namespace Endmark

open List Option

namespace Ty

/-- A join is faulty when one of the joined types is. -/
theorem isFaulty_of_join {a : Ty} (h : a.join b = some c) :
  c.isFaulty = (a.isFaulty || b.isFaulty)
  := by
  cases a with
  | error =>
    rw [join_error_left] at h
    cases h
    rfl
  | unknown =>
    rw [join_unknown_left] at h
    cases h
    rfl
  | list a =>
    cases b with
    | list b =>
      obtain ⟨u, hu, rfl⟩ := map_eq_some_iff.mp h
      apply isFaulty_of_join hu
    | error | unknown =>
      simp only [join, some.injEq] at h
      simp [← h, isFaulty]
    | _ => simp [join] at h
  | function ps r =>
    cases b with
    | function qs s =>
      obtain ⟨ts, u, _, _, rfl⟩ := join_function_eq_some.mp h
      rfl
    | error | unknown =>
      simp only [join, some.injEq] at h
      simp [← h, isFaulty]
    | _ => simp [join] at h
  | _ => cases b <;> simp [join] at h <;> simp [← h, isFaulty]

/-- The property holds of types without faults and of what is formed from types that have it, but
not of a fault. -/
structure Stable (P : Ty → Prop) : Prop where
  whole : ∀ t, t.isWhole = true → P t
  list : ∀ t, P (.list t) ↔ P t
  function : ∀ ps r, (∀ p ∈ ps, P p) → P r → P (.function ps r)
  join : ∀ {a b c}, a.join b = some c → P a → P b → P c
  error : ¬ P .error

theorem isFaulty_of_isWhole : ∀ {t : Ty}, t.isWhole → t.isFaulty = false
  | .list t, h => isFaulty_of_isWhole (t := t) h
  | .function _ _, _ | .int, _ | .float, _ | .bool, _ | .str, _ | .unknown, _ => rfl

theorem stable_isFaulty :
  Stable fun t => t.isFaulty = false
  where
  whole _ := isFaulty_of_isWhole
  list _ := .rfl
  function _ _ _ _ := rfl
  join h ha hb := by rw [isFaulty_of_join h, ha, hb]; rfl
  error := nofun

variable (hP : Stable P)

include hP

theorem Stable.foldlM {ts : List Ty} (h : ts.foldlM Ty.join a = some c) (ha : P a)
    (hts : ∀ t ∈ ts, P t) :
  P c
  := by
  induction ts generalizing a with
  | nil =>
    cases h
    apply ha
  | cons t rest ih =>
    obtain ⟨b, hb, h⟩ := bind_eq_some_iff.mp h
    apply ih h
    · apply hP.join hb ha (hts t mem_cons_self)
    · intro u hu
      apply hts u (mem_cons_of_mem _ hu)

theorem Stable.isError (h : P t) :
  t.isError = false
  := by
  cases t with
  | error => cases hP.error h
  | _ => rfl

omit hP in
theorem isBasic_of_arithmetic? (h : arithmetic? a b = some c) :
  c.isBasic
  := by
  unfold arithmetic? at h
  split at h
  · cases h
    split <;> rfl
  · cases h

omit hP in
/-- The type of an operation is basic, except that lists that are added have a joined type. -/
theorem binaryWith?_cases (h : binaryWith? op a b = some c) :
  c.isBasic ∨ a.join b = some c
  := by
  cases op with
  | add =>
    simp only [binaryWith?] at h
    split at h
    · cases h
      left
      rfl
    · right
      apply h
    · left
      apply isBasic_of_arithmetic? h
  | sub | mul =>
    left
    apply isBasic_of_arithmetic? h
  | _ =>
    simp only [binaryWith?] at h
    split_ifs at h <;> cases h <;> left <;> rfl

theorem Stable.binary? (h : binary? op a b = some c) (ha : P a) (hb : P b) :
  P c
  := by
  rw [Ty.binary?, hP.isError ha, hP.isError hb] at h
  obtain hc | hc := binaryWith?_cases h
  · apply hP.whole
    cases c <;> simp_all [isBasic, isWhole]
  · apply hP.join hc ha hb

/-- A unary operation keeps the property. -/
theorem Stable.unary? (h : unary? op a = some c) (ha : P a) :
  P c
  := by
  unfold Ty.unary? at h
  split at h
  · cases hP.error ha
  · split at h
    · cases h
      apply hP.whole _ rfl
    · cases h
  · cases h
    apply hP.whole _ rfl
  · cases h
    apply hP.whole _ rfl
  · cases h
    apply hP.whole _ rfl
  · cases h

theorem Stable.itemType? (h : Typed.Check.itemType? a = some c) (ha : P a) :
  P c
  := by
  cases a with
  | list =>
    cases h
    apply (hP.list _).mp ha
  | str | unknown =>
    cases h
    apply hP.whole _ rfl
  | error => cases hP.error ha
  | _ => cases h

theorem Stable.builtin {kind : Builtin.Kind} (h : kind.result args = .ok ty)
    (hargs : ∀ t ∈ args, P t) :
  P ty
  := by
  have hnone : args.any (·.isError) = false := by
    rw [List.any_eq_false]
    intro t ht
    simp [hP.isError (hargs t ht)]
  rw [Builtin.Kind.result, hnone] at h
  simp only [Bool.false_eq_true, if_false, Builtin.Kind.resultOf] at h
  split at h <;> split at h <;> cases h <;> apply hP.whole _ rfl

end Ty

namespace Typed

open Endmark.Tree (Program)

/-! ### Steps -/

/-- No type that can be read in the tables is faulty. -/
structure Tables.Faultless (t : Tables) : Prop where
  param : ∀ i k ty, t.param? i k = some ty → ty.isFaulty = false
  result : ∀ i, (t.function i).result.isFaulty = false
  slot : ∀ i x ty, t.slot? i x = some ty → ty.isFaulty = false
  global : ∀ x ty, t.global? x = some ty → ty.isFaulty = false

/-- All types that can be read in the tables have the property. -/
structure Tables.All (P : Ty → Prop) (t : Tables) : Prop where
  param : ∀ i k ty, t.param? i k = some ty → P ty
  result : ∀ i, P (t.function i).result
  slot : ∀ i x ty, t.slot? i x = some ty → P ty
  global : ∀ x ty, t.global? x = some ty → P ty

theorem Tables.faultless_iff {t : Tables} :
  t.Faultless ↔ t.All fun ty => ty.isFaulty = false
  := ⟨fun h => ⟨h.param, h.result, h.slot, h.global⟩, fun h => ⟨h.param, h.result, h.slot, h.global⟩⟩

/-- The types of all symbols have the property. -/
def SymbolsAll (P : Ty → Prop) (t : Scopes) : Prop :=
  ∀ n symbol, t.symbol? n = some symbol → P symbol.ty

/-- The types that are found, that names have and that have been formed have the property. -/
structure Moment.All (P : Ty → Prop) (m : Moment) : Prop where
  found : m.state.found.All P
  symbols : SymbolsAll P m.state.scopes
  formed : ∀ e, .formed e ∈ m.events → P e.ty

section

namespace Tables.All

variable {t : Tables}

theorem setParam (h : t.All P) (hty : P ty) (i k : Nat) :
  (t.setParam i k ty).All P
  := by
  constructor
  · intro j l u hu
    rw [param?_setParam] at hu
    split at hu
    · obtain ⟨_, _, rfl⟩ := map_eq_some_iff.mp hu
      apply hty
    · apply h.param j l u hu
  · simp [h.result]
  · simpa using h.slot
  · exact h.global

theorem setResult (h : t.All P) (hty : P ty) (i : Nat) :
  (t.setResult i ty).All P
  := by
  constructor
  · simpa using h.param
  · intro j
    rw [result_setResult]
    split
    · apply hty
    · apply h.result
  · simpa using h.slot
  · exact h.global

theorem setSlot (h : t.All P) (hty : P ty) (i : Nat) (name : String) :
  (t.setSlot i name ty).All P
  := by
  constructor
  · simpa using h.param
  · simp [h.result]
  · intro j x u hu
    rw [slot?_setSlot] at hu
    split at hu
    · cases hu
      apply hty
    · apply h.slot j x u hu
  · exact h.global

theorem setGlobal (h : t.All P) (hty : P ty) (name : String) :
  (t.setGlobal name ty).All P
  := by
  constructor
  · exact h.param
  · simp [h.result]
  · exact h.slot
  · intro x u hu
    rw [global?_setGlobal] at hu
    split at hu
    · cases hu
      apply hty
    · apply h.global x u hu

end Tables.All

variable (hP : Ty.Stable P)

include hP

theorem all_getD (h : ∀ ty, o = some ty → P ty) :
  P (o.getD .unknown)
  := by
  cases o with
  | none => apply hP.whole _ rfl
  | some ty => apply h ty rfl

theorem all_refined (hhint : ∀ ty, hint = some ty → P ty) (hfound : P found) :
  P (.refined hint found)
  := by
  cases hint with
  | none => apply hfound
  | some ty =>
    rw [Ty.refined, bind_some]
    cases h : ty.join found with
    | none => apply hfound
    | some c => apply hP.join h (hhint ty rfl) hfound

variable {m : Moment} {found prev : Tables}

/-- Where all types have the property before, that of an expression that is formed has it. -/
theorem Formed.all (h : Formed env m.state m.events e) (hprev : env.prev.All P)
    (hread : ¬ env.Broken) (hm : m.All P) :
  P e.ty
  := by
  have hmeans {name : String} {symbol : SymbolInfo} (h : m.state.Means name symbol) :
      P symbol.ty := by
    obtain ⟨n, _, hn⟩ := bind_eq_some_iff.mp h
    apply hm.symbols n symbol hn
  cases e with
  | literal n value =>
    rw [Expr.ty, Expr.note, show n.ty = _ from h]
    cases value <;> apply hP.whole _ rfl
  | var n v =>
    obtain ⟨name, symbol, hsymbol, hty, _⟩ := h
    rw [Expr.ty, Expr.note, hty]
    apply hmeans hsymbol
  | function n f =>
    obtain ⟨name, symbol, hsymbol, hty, _⟩ := h
    rw [Expr.ty, Expr.note, hty]
    apply hmeans hsymbol
  | binary n op lhs rhs =>
    obtain ⟨hl, hr, hty⟩ := h
    apply hP.binary? hty (hm.formed lhs hl) (hm.formed rhs hr)
  | unary n op operand =>
    obtain ⟨hx, hty⟩ := h
    apply hP.unary? hty (hm.formed operand hx)
  | call n callee args =>
    obtain ⟨target, _, _, hty, _⟩ := h
    rw [Expr.ty, Expr.note, hty]
    apply hprev.result
  | builtin n kind args =>
    obtain ⟨hargs, hty⟩ := h
    apply hP.builtin hty
    intro t ht
    obtain ⟨arg, harg, rfl⟩ := mem_map.mp ht
    apply hm.formed arg (hargs arg harg)
  | list n items =>
    obtain ⟨hitems, hty⟩ := h
    rw [Expr.ty, Expr.note, hty, hP.list]
    apply all_getD hP
    intro ty hty
    apply hP.foldlM hty (hP.whole _ rfl)
    intro t ht
    obtain ⟨item, hitem, rfl⟩ := mem_map.mp ht
    apply hm.formed item (hitems item hitem)
  | index n base i =>
    obtain ⟨hbase, _, hty⟩ := h
    apply hP.itemType? hty (hm.formed base hbase)
  | fstring n parts =>
    rw [Expr.ty, Expr.note, show n.ty = _ from h]
    apply hP.whole _ rfl
  | raw n block =>
    rw [Expr.ty, Expr.note, show n.ty = _ from h]
    apply hP.whole _ rfl
  | error n => cases hread h.2

theorem Known.all (h : Known m.events ty) (hm : m.All P) :
  P ty
  := by
  obtain ⟨e, he, rfl | hty⟩ := h
  · apply hm.formed e he
  · apply hP.itemType? hty (hm.formed e he)

theorem Tables.Takes.all {t : Tables}
    (h : t.Takes target k declared ty t') (ht : t.All P) (hty : P ty) :
  t'.All P
  := by
  cases declared with
  | none =>
    obtain ⟨joined, hjoined, rfl⟩ := h
    apply ht.setParam
    apply hP.join hjoined _ hty
    apply all_getD hP (ht.param target k)
  | some declared =>
    obtain ⟨_, rfl⟩ := h
    apply ht

omit hP in
theorem SymbolsAll.setType (ht : SymbolsAll P t) (hty : P ty) (n : Nat) :
  SymbolsAll P (t.setType n ty)
  := by
  intro k symbol h
  rw [Scopes.symbol?_setType] at h
  obtain ⟨old, hold, rfl⟩ := map_eq_some_iff.mp h
  split
  · apply hty
  · apply ht k old hold

omit hP in
theorem SymbolsAll.declare {t : Scopes} (ht : SymbolsAll P t) (hty : P ty) (scope : Nat)
    (name : String) (kind : SymbolInfo.Kind) (span : Span) (slot : String) :
  SymbolsAll P (t.declare scope name ty kind span slot)
  := by
  intro k symbol h
  rw [Scopes.symbol?_declare] at h
  split at h
  · cases h
    apply hty
  · apply ht k symbol h

omit hP in
/-- One more event, in a state with types that have the property. -/
theorem Moment.All.note {s' : State} {events : List Event}
    (hm : All P ⟨s, events⟩) (hfound : s'.found.All P)
    (hsymbols : SymbolsAll P s'.scopes)
    (hw : ∀ e, w = .formed e → P e.ty) :
  All P ⟨s', w :: events⟩
  := by
  constructor
  · apply hfound
  · apply hsymbols
  · intro e he
    obtain h | he := mem_cons.mp he
    · apply hw e h.symm
    · apply hm.formed e he

/-- A symbol that is given a value of a type with the property keeps such a type. -/
theorem Moment.All.withType {events : List Event} (hm : All P ⟨s, events⟩) (hfound : found.All P)
    (hown : s.Own name n symbol) (hty : P ty) (v : Variable) :
  All P ⟨s.withType found n symbol ty, .assigned v ty :: events⟩
  := by
  have hsymbol := hm.symbols n symbol hown.2
  apply hm.note hfound
  · apply hm.symbols.setType
    cases hjoin : symbol.ty.join ty with
    | none => apply hsymbol
    | some joined => apply hP.join hjoin hsymbol hty
  · intro _ h
    cases h

/-- Where all types that are read have the property, those that a step makes have it. -/
theorem Step.all (hprev : env.prev.All P) (hread : ¬ env.Broken)
    (h : Step env m m') (hm : m.All P) :
  m'.All P
  := by
  cases h with
  | form h =>
    apply hm.note hm.found hm.symbols
    rintro e ⟨⟩
    apply h.all hP hprev hread hm
  | warn _ => exact ⟨hm.found, hm.symbols, hm.formed⟩
  | skip _ _ =>
    apply hm.note hm.found hm.symbols
    rintro _ ⟨⟩
  | pass harg _ htakes =>
    apply hm.note
    · apply htakes.all hP hm.found (hm.formed _ harg)
    · apply hm.symbols
    · rintro _ ⟨⟩
  | returnDeclared _ _ _ =>
    apply hm.note hm.found hm.symbols
    rintro _ ⟨⟩
  | returnJoined hvalue _ hjoined =>
    apply hm.note
    · apply hm.found.setResult
      apply hP.join hjoined (hm.found.result _) (hm.formed _ hvalue)
    · apply hm.symbols
    · rintro _ ⟨⟩
  | declare hknown _ _ =>
    have hty := hknown.all hP hm
    apply hm.note
    · apply hm.found.setSlot hty
    · apply hm.symbols.declare
      apply all_refined hP (hprev.slot _ _) hty
    · rintro _ ⟨⟩
  | assignParam hknown hown _ _ _ htakes =>
    have hty := hknown.all hP hm
    apply hm.withType hP (htakes.all hP hm.found hty) hown hty
  | assignOther hknown hown _ _ =>
    apply hm.withType hP hm.found hown (hknown.all hP hm)
  | assignSlot hknown hown _ hjoined =>
    have hty := hknown.all hP hm
    apply hm.withType hP _ hown hty
    apply hm.found.setSlot
    apply hP.join hjoined _ hty
    apply all_getD hP (hm.found.slot _ _)
  | @assignGlobal _ _ _ ident _ hknown _ _ _ hjoined =>
    have hheld := hP.join hjoined (all_getD hP (hm.found.global ident.name))
      (hknown.all hP hm)
    have hfound := hm.found.setGlobal hheld ident.name
    have hseen := all_refined hP (hprev.global ident.name)
      (all_getD hP (hfound.global ident.name))
    apply hm.note
    · apply hfound
    · simp only [State.withGlobal]
      split
      · apply hm.symbols.setType hseen
      · apply hm.symbols.declare hseen
    · rintro _ ⟨⟩
  | enter => exact ⟨hm.found, hm.symbols, hm.formed⟩
  | leave _ => exact ⟨hm.found, hm.symbols, hm.formed⟩

/-! ### Functions -/

/-- The types of all expressions, slots and the result of the function have the property. -/
structure Function.All (P : Ty → Prop) (f : Function) : Prop where
  nodes : ∀ e ∈ f.nodes, P e.ty
  params : ∀ l ∈ f.params, P l.ty
  locals : ∀ l ∈ f.locals, P l.ty
  result : P f.result

/-- At the start of a function all types have the property. -/
theorem start_all (hprev : prev.All P) (hfound : found.All P) :
  Moment.All P ⟨.start plan prev found reports index f, []⟩
  := by
  constructor
  · apply hfound
  · apply startScopes_of
    · intro n symbol h
      simp [Scopes.new, Scopes.symbol?] at h
    · intro t k g _ _ ht
      apply ht.declare
      apply hP.function _ _ _ (hprev.result k)
      intro p hp
      obtain ⟨l, hl⟩ := mem_iff_getElem?.mp hp
      apply hprev.param k l p hl
    · intro _ t g _ ht
      apply ht.declare
      apply all_getD hP (hprev.global g.1)
    · intro t ht
      apply ht
    · intro t k p _ ht
      apply ht.declare
      apply all_getD hP (hprev.param index k)
  · simp

/-- Checking a function keeps what holds of all types. -/
theorem FunctionChecked.all
    (h : FunctionChecked plan prev index f found g found') (hprev : prev.All P)
    (hread : Tree.Stmt.readableAll f.body) (hfound : found.All P) :
  g.All P ∧ found'.All P
  := by
  obtain ⟨reports, s, events, hsteps, haccount, hg, rfl⟩ := h
  have hread : ¬ (Env.of plan prev index f).Broken := by simp [Env.Broken, Env.of, hread]
  have hend : Moment.All P ⟨s, events⟩ := by
    apply hsteps.keep (Step.all hP hprev hread)
    apply start_all hP hprev hfound
  constructor
  · rw [hg]
    constructor
    · intro e he
      apply hend.formed e
      apply haccount
      left
      use e, he
    · intro l hl
      obtain ⟨⟨p, k⟩, _, rfl⟩ := mem_map.mp hl
      apply all_refined hP (hprev.param index k)
      apply all_getD hP (hend.found.param index k)
    · intro l hl
      obtain ⟨l, _, rfl⟩ := mem_map.mp hl
      apply all_refined hP (hprev.slot index l.name)
      apply all_getD hP (hend.found.slot index l.name)
    · apply hend.found.result
  · apply hend.found

/-- So does checking all functions. -/
theorem Checked.all (h : Checked plan prev index fs found gs found') (hprev : prev.All P)
    (hread : ∀ f ∈ fs, Tree.Stmt.readableAll f.body) (hfound : found.All P) :
  (∀ g ∈ gs, g.All P) ∧ found'.All P
  := by
  induction h with
  | nil index found =>
    constructor
    · simp
    · apply hfound
  | cons hfirst _ ih =>
    obtain ⟨hg, hmiddle⟩ := hfirst.all hP hprev (hread _ mem_cons_self) hfound
    obtain ⟨hgs, hlast⟩ := ih (fun f hf => hread f (mem_cons_of_mem _ hf)) hmiddle
    constructor
    · intro g hg'
      obtain rfl | hg' := mem_cons.mp hg'
      · apply hg
      · apply hgs g hg'
    · apply hlast

end

/-- No expression, slot or result in the function has a faulty type. -/
structure Function.Faultless (f : Function) : Prop where
  nodes : ∀ e ∈ f.nodes, e.ty.isFaulty = false
  params : ∀ l ∈ f.params, l.ty.isFaulty = false
  locals : ∀ l ∈ f.locals, l.ty.isFaulty = false
  result : f.result.isFaulty = false

/-! ### Passes -/

/-- Every expression of the program could be read. -/
def Readable (program : Program) : Prop :=
  (∀ f ∈ functionsOf program, Tree.Stmt.readableAll f.body = true) ∧
    Tree.Stmt.readableAll (statementsOf program) = true

instance (program : Program) : Decidable (Readable program) :=
  inferInstanceAs (Decidable (_ ∧ _))

/-- No expression, slot, result or global in the module has a faulty type. -/
structure Module.Faultless (m : Module) : Prop where
  functions : ∀ f ∈ m.functions, f.Faultless
  globals : ∀ g ∈ m.globals, g.ty.isFaulty = false

section

variable {prev : Tables}

/-- Before anything is found no type is faulty. -/
theorem initial_all (hP : Ty.Stable P) (hplan : PlansProgram program plan) :
  (Tables.initial plan).All P
  := by
  constructor
  · intro i k ty h
    rw [Tables.param?_initial] at h
    obtain ⟨p, hp, rfl⟩ := map_eq_some_iff.mp h
    obtain ⟨f, hf, hp⟩ := bind_eq_some_iff.mp hp
    apply all_getD hP
    intro ty hty
    apply hP.whole
    obtain ⟨g, _, hg⟩ | hg := hplan.planned (mem_of_getElem? hf)
    · apply hg.params.declared p (mem_of_getElem? hp) ty hty
    · simp [hg.params] at hp
  · intro i
    rw [Tables.function_initial]
    cases hf : plan.functions[i]? with
    | none => apply hP.whole _ rfl
    | some f =>
      apply all_getD hP
      intro ty hty
      apply hP.whole
      obtain ⟨g, _, hg⟩ | hg := hplan.planned (mem_of_getElem? hf)
      · apply hg.ret ty hty
      · cases hg.ret.symm.trans hty
  · intro i x ty h
    rw [Tables.slot?_initial] at h
    cases h
  · intro x ty h
    rw [Tables.global?_initial] at h
    split at h
    · cases h
      apply hP.whole _ rfl
    · cases h

/-- A pass that reports no error finds only types that have the property, if it reads only such. -/
theorem pass_all (hP : Ty.Stable P) (hplan : PlansProgram program plan) (hread : Readable program)
    (h : Clean plan prev) (hprev : prev.All P) :
  (∀ f ∈ (pass plan prev).module.functions, f.All P) ∧ (pass plan prev).found.All P
  := by
  apply (pass_checked h).all hP hprev _ (initial_all hP hplan)
  intro f hf
  obtain ⟨g, hg, hgf⟩ | hstatements := hplan.planned hf
  · rw [hgf.body]
    apply hread.1 g hg
  · rw [hstatements.body]
    apply hread.2

/-- A pass that reports no error, and reads no faulty type, finds none. -/
theorem pass_faultless (hplan : PlansProgram program plan) (hread : Readable program)
    (h : Clean plan prev) (hprev : prev.Faultless) :
  (pass plan prev).module.Faultless
  := by
  obtain ⟨hfunctions, hfound⟩ :=
    pass_all Ty.stable_isFaulty hplan hread h (Tables.faultless_iff.mp hprev)
  constructor
  · intro f hf
    obtain ⟨hnodes, hparams, hlocals, hresult⟩ := hfunctions f hf
    exact ⟨hnodes, hparams, hlocals, hresult⟩
  · intro g hg
    obtain ⟨binding, _, rfl⟩ := mem_map.mp hg
    apply all_getD Ty.stable_isFaulty (hfound.global binding.1)

/-- All types that a pass has found, and read before, can be seen in the module. -/
theorem found_faultless (hplan : PlansProgram program plan) (h : Clean plan prev)
    (hsettled : (pass plan prev).found = prev) (hm : (pass plan prev).module.Faultless) :
  prev.Faultless
  := by
  have hgrows := (pass_checked h).grows.1
  rw [hsettled] at hgrows
  have hchecked {i : Nat} (hi : i < plan.functions.length) : ∃ g before reports s events,
      g.Faultless ∧ CheckedIn plan prev prev i plan.functions[i] g before reports s events := by
    obtain ⟨g, before, reports, s, events, hg, hchecked⟩ :=
      pass_function h (getElem?_eq_getElem hi)
    rw [hsettled] at hchecked
    use g, before, reports, s, events, hm.functions g (mem_of_getElem? hg)
  -- outside of the plan nothing is found
  have hplanned (i : Nat) (hi : ¬ i < plan.functions.length) : prev.function i = default := by
    apply Tables.function_eq_default
    rw [hgrows.length]
    simpa [Tables.initial] using hi
  constructor
  · intro i k ty hty
    by_cases hi : i < plan.functions.length
    · have hf := getElem?_eq_getElem hi
      obtain ⟨g, before, reports, s, events, hg, hchecked⟩ := hchecked hi
      have hk : k < plan.functions[i].params.length := by
        rw [← Tables.arity_initial hf, ← hgrows.arity i]
        apply (List.getElem?_eq_some_iff.mp hty).1
      obtain ⟨u, hu, hparam⟩ := hchecked.param hf (getElem?_eq_getElem hk)
      cases hu.symm.trans hty
      apply hg.params _ (mem_of_getElem? hparam)
    · rw [Tables.param?, hplanned i hi] at hty
      cases hty
  · intro i
    by_cases hi : i < plan.functions.length
    · obtain ⟨g, before, reports, s, events, hg, hchecked⟩ := hchecked hi
      rw [← hchecked.result]
      apply hg.result
    · rw [hplanned i hi]
      rfl
  · intro i x ty hty
    by_cases hi : i < plan.functions.length
    · obtain ⟨g, before, reports, s, events, hg, hchecked⟩ := hchecked hi
      have henv := hplan.sound prev (getElem?_eq_getElem hi)
      obtain ⟨l, hl, rfl⟩ := hchecked.exists_local henv hty
      apply hg.locals l hl
    · rw [Tables.slot?, hplanned i hi] at hty
      cases hty
  · intro x ty hty
    have hx : x ∈ plan.globals.map (·.1) := by
      apply pass_globalsIn hplan h x ty
      rw [hsettled]
      apply hty
    obtain ⟨binding, hbinding, rfl⟩ := mem_map.mp hx
    have hglobals := hm.globals
    rw [pass_globals, hsettled] at hglobals
    have hglobal := hglobals _ (mem_map_of_mem hbinding)
    rw [hty] at hglobal
    apply hglobal

/-- Do all passes but the last one, of at most so many, report no error? -/
def quiet (plan : Plan) : Nat → Tables → Bool
  | 0, _ => true
  | further + 1, tables =>
    let this := pass plan tables
    this.found = tables ||
      !Diagnostic.anyError this.reports.toList && quiet plan further this.found

/-- When the passes before the last one report no error, the last one reads only types that have
the property. -/
theorem lastRead_all (hP : Ty.Stable P) (hplan : PlansProgram program plan)
    (hread : Readable program)
    (hquiet : quiet plan further tables) (htables : tables.All P) :
  (lastRead plan further tables).All P
  := by
  induction further generalizing tables with
  | zero => apply htables
  | succ further ih =>
    rw [lastRead]
    split
    · apply htables
    · rename_i hchanged
      simp only [quiet, hchanged, decide_false, Bool.false_or, Bool.and_eq_true,
        Bool.not_eq_true'] at hquiet
      obtain ⟨hreports, hquiet⟩ := hquiet
      apply ih hquiet
      apply (pass_all hP hplan hread hreports htables).2

/-- Whether an accepted program has faulty types is decided by the tables that the last pass
reads: without any there, there are none in the module, and a settled module shows all that
there are.  They have none if no pass before the last one reports an error. -/
theorem accepted_faultless_of_read {program : Program} {m : Module} (hread : Readable program)
    (h : (infer program).module = some m) :
  ((readBy program).Faultless → m.Faultless) ∧
    ((infer program).settled = true → m.Faultless → (readBy program).Faultless) ∧
    (quiet (planOf program) (maxPasses - 1) (.initial (planOf program)) = true →
      (readBy program).Faultless)
  := by
  obtain ⟨hplan, hreports, rfl, hsettled⟩ := infer_eq_some h
  constructor
  · intro hprev
    apply pass_faultless hplan hread hreports hprev
  · constructor
    · intro hs
      apply found_faultless hplan hreports (hsettled.mp hs)
    · intro hquiet
      apply Tables.faultless_iff.mpr
      apply lastRead_all Ty.stable_isFaulty hplan hread hquiet (initial_all Ty.stable_isFaulty hplan)

end

section

open Endmark.Tree

/-- A function written without annotations, nowhere. -/
def plainFunction (name : String) (params : List String) (body : List Tree.Stmt) : Item :=
  .function ⟨.wordDef, ⟨name, .nowhere⟩, params.map fun p => ⟨⟨p, .nowhere⟩, none⟩, none, body,
    .nowhere⟩

/-- A list is passed through a function:
`def same(a): return a; end; def main(): x = same([1]); return 0; end;` -/
def passingOn : Program where
  main := ⟨none, [
    plainFunction "same" ["a"] [.ret .nowhere (some (.name .nowhere "a"))],
    plainFunction "main" [] [
      .assign .nowhere (.name ⟨"x", .nowhere⟩) none
        (.call .nowhere ⟨"same", .nowhere⟩ [.list .nowhere [.literal .nowhere (.int 1)]]),
      .ret .nowhere (some (.literal .nowhere (.int 0)))]]⟩
  libraries := []

theorem passingOn_faultless :
  Readable passingOn ∧ ∃ m, (infer passingOn).module = some m ∧ m.Faultless
  := by
  have hread : Readable passingOn := by decide +kernel
  have hquiet : quiet (planOf passingOn) (maxPasses - 1) (.initial (planOf passingOn)) = true := by
    decide +kernel
  have hsome : (infer passingOn).module.isSome = true := by decide +kernel
  obtain ⟨m, hm⟩ := Option.isSome_iff_exists.mp hsome
  obtain ⟨hfaultless, _, hread'⟩ := accepted_faultless_of_read hread hm
  exact ⟨hread, m, hm, hfaultless (hread' hquiet)⟩

/-- The type of a result is known too late, and what has been reported before that stays:
`def main(): x = g() + "a"; x = x + "b"; return 0; end; def g(): return "b"; end;` -/
def tainted : Program where
  main := ⟨none, [
    plainFunction "main" [] [
      .assign .nowhere (.name ⟨"x", .nowhere⟩) none
        (.binary .nowhere .add (.call .nowhere ⟨"g", .nowhere⟩ []) (.literal .nowhere (.str "a"))),
      .assign .nowhere (.name ⟨"x", .nowhere⟩) none
        (.binary .nowhere .add (.name .nowhere "x") (.literal .nowhere (.str "b"))),
      .ret .nowhere (some (.literal .nowhere (.int 0)))],
    plainFunction "g" [] [.ret .nowhere (some (.literal .nowhere (.str "b")))]]⟩
  libraries := []

/-- A program is accepted, without any report, in which a slot has the type of a fault. -/
theorem tainted_accepted :
  Readable tainted ∧ (infer tainted).diagnostics = [] ∧ (infer tainted).settled = true ∧
    ∃ m, (infer tainted).module = some m ∧ ¬ m.Faultless
  := by
  have hread : Readable tainted := by decide +kernel
  have hquiet : (infer tainted).diagnostics = [] := by decide +kernel
  have hsettled : (infer tainted).settled = true := by decide +kernel
  have hlocal : ∃ m, (infer tainted).module = some m ∧
      ∃ f ∈ m.functions, ∃ l ∈ f.locals, l.ty.isFaulty = true := by
    have hany : ((infer tainted).module.any fun m =>
        m.functions.any fun f => f.locals.any (·.ty.isFaulty)) = true := by
      decide +kernel
    simpa [Option.any_eq_true] using hany
  obtain ⟨m, hm, f, hf, l, hl, hfaulty⟩ := hlocal
  refine ⟨hread, hquiet, hsettled, m, hm, ?_⟩
  intro hfaultless
  cases hfaulty.symm.trans ((hfaultless.functions f hf).locals l hl)

end

end Typed

end Endmark
