import Endmark.Proofs.Typed.Consistency
import Endmark.Proofs.Typed.Evaluation

/-!
# Types and values

In a function that works on integers and truth values only, and whose variables have the types
that are recorded for its slots, all types follow from these.  So what has the type of truth
values is zero or one.  In a settled program all functions have such variables.
-/

namespace Endmark.Typed

open Stmt
open List Option Bool
open Endmark.Ir (Words truthWord)
open Endmark.Tree (Program BinaryOp UnaryOp)

/-- The name is that of no number. -/
def NoNumber (x : String) : Prop :=
  ∀ i : Nat, x ≠ toString i

/-- The type that is recorded for a slot. -/
def Function.slotType (f : Function) (x : String) : Ty :=
  (((f.params ++ f.locals).find? (·.name == x)).map (·.ty)).getD .unknown

/-! ### Types by rules -/

/-- The type of the result of an operator on words. -/
def wordType? : BinaryOp → Option Ty
  | .add | .sub | .mul | .floorDiv | .mod => some .int
  | .div | .pow => none
  | _ => some .bool

/-- The type of the result of an operator on a word of a type. -/
def signType? : UnaryOp → Ty → Option Ty
  | .not, _ => some .bool
  | _, .int => some .int
  | _, _ => none

/-- The types in the expression follow from those of the slots. -/
def Expr.Worded (Γ : String → Ty) : Expr → Prop
  | .literal n (.int _) => n.ty = .int
  | .literal n (.bool _) => n.ty = .bool
  | .var n (.slot x) => NoNumber x ∧ n.ty = Γ x ∧ n.ty.isWord = true
  | .binary n op lhs rhs => wordType? op = some n.ty ∧ lhs.Worded Γ ∧ rhs.Worded Γ
  | .unary n op operand => signType? op operand.ty = some n.ty ∧ operand.Worded Γ
  | _ => False

mutual

/-- The types in the statement follow from those of the slots. -/
def Stmt.Worded (Γ : String → Ty) : Stmt → Prop
  | .assign _ (.var (.slot x)) value => NoNumber x ∧ value.ty = Γ x ∧ value.Worded Γ
  | .expr _ e => e.Worded Γ
  | .branch _ arms otherwise => WordedArms Γ arms ∧ WordedAll Γ otherwise
  | .whileLoop _ cond body => cond.Worded Γ ∧ WordedAll Γ body
  | .forLoop _ (.slot x) (.builtin _ .range [stop]) body =>
    NoNumber x ∧ Γ x = .int ∧ stop.Worded Γ ∧ WordedAll Γ body
  | .forLoop _ (.slot x) (.builtin _ .range [start, stop]) body =>
    NoNumber x ∧ Γ x = .int ∧ start.Worded Γ ∧ stop.Worded Γ ∧ WordedAll Γ body
  | .ret _ (some value) => value.Worded Γ
  | .ret _ none | .leave _ | .next _ => True
  | _ => False

def WordedAll (Γ : String → Ty) : List Stmt → Prop
  | [] => True
  | st :: rest => st.Worded Γ ∧ WordedAll Γ rest

def WordedArms (Γ : String → Ty) : List Arm → Prop
  | [] => True
  | .mk cond body :: rest => cond.Worded Γ ∧ WordedAll Γ body ∧ WordedArms Γ rest

end

variable {a : Ty} {e : Expr} {body : List Stmt}

theorem isWord_of_wordType? (h : wordType? op = some ty) :
  ty.isWord
  := by
  cases op <;> cases h <;> rfl

theorem isWord_of_signType? {op : UnaryOp} (h : signType? op a = some ty) :
  ty.isWord
  := by
  cases op <;> cases a <;> cases h <;> rfl

/-- Words have the type of integers or that of truth values. -/
theorem Expr.Worded.isWord (h : e.Worded Γ) :
  e.ty.isWord
  := by
  unfold Worded at h
  split at h
  · simp [ty, note, h, Ty.isWord]
  · simp [ty, note, h, Ty.isWord]
  · apply h.2.2
  · apply isWord_of_wordType? h.1
  · apply isWord_of_signType? h.1
  · cases h

/-! ### Types that have been found -/

/-- The name of a slot is that of no number. -/
theorem noNumber_slotName (h : isPlain name) (count : Nat) :
  NoNumber (slotName name count)
  := by
  intro i heq
  have hdigits : ∀ c ∈ (slotName name count).toList, c.isDigit := by
    intro c hc
    rw [heq] at hc
    change c ∈ i.repr.toList at hc
    rw [Nat.toList_repr] at hc
    apply Nat.isDigit_of_mem_toDigits (by decide) (by decide) hc
  cases count with
  | zero =>
    have hall : name.toList.all Char.isDigit := all_eq_true.mpr hdigits
    simp [isPlain, hall] at h
  | succ count =>
    have hpoint := hdigits '.'
    rw [toList_slotName_succ] at hpoint
    cases hpoint (by simp)

/-- The types in the function follow from those of its slots, and slots are given values of
their types. -/
structure Function.Regular (f : Function) : Prop where
  recorded : ∀ l ∈ f.params ++ f.locals, f.slotType l.name = l.ty
  literal : ∀ n value, Expr.literal n value ∈ f.nodes → n.ty = Check.literalType value
  slot : ∀ n x, Expr.var n (.slot x) ∈ f.nodes → NoNumber x ∧ n.ty = f.slotType x
  binary : ∀ n op lhs rhs, Expr.binary n op lhs rhs ∈ f.nodes →
    Ty.binary? op lhs.ty rhs.ty = some n.ty
  unary : ∀ n op operand, Expr.unary n op operand ∈ f.nodes →
    Ty.unary? op operand.ty = some n.ty
  builtin : ∀ n kind args, Expr.builtin n kind args ∈ f.nodes →
    kind.result (args.map (·.ty)) = .ok n.ty
  assigned : ∀ span x value, Stmt.assign span (.var (.slot x)) value ∈ f.statements →
    NoNumber x ∧ (f.slotType x).fits value.ty = true
  counted : ∀ span x iter body, Stmt.forLoop span (.slot x) iter body ∈ f.statements →
    ∀ ty ∈ Check.itemType? iter.ty, NoNumber x ∧ (f.slotType x).fits ty = true

/-- The recorded type is that of the slot. -/
theorem Function.Records.slotType {f : Function} (h : f.Records x ty) :
  f.slotType x = ty
  := by
  obtain ⟨⟨l, hl, hname⟩, hall⟩ := h
  rw [Function.slotType]
  cases hfind : (f.params ++ f.locals).find? (·.name == x) with
  | none =>
    have hne := find?_eq_none.mp hfind l hl
    simp [hname] at hne
  | some l' =>
    apply hall l' (mem_of_find?_eq_some hfind)
    simpa using find?_some hfind

/-- What has been found for the slot bounds the type. -/
def Env.Found (env : Env) (t : Tables) (x : String) (ty : Ty) : Prop :=
  (∃ k p, env.function.params[k]? = some p ∧ p.name = x ∧ Covers (t.param? env.index k) ty) ∨
    Covers (t.slot? env.index x) ty

/-- What bounds a type goes on to do so. -/
theorem Step.found (h : Step env m m') (henv : env.Ready) (hm : Orderly env m.state)
    (hx : env.Found m.state.found x ty) :
  env.Found m'.state.found x ty
  := by
  obtain ⟨k, p, hp, hname, hty⟩ | hty := hx
  · left
    exact ⟨k, p, hp, hname, h.grows.param env.index k ty hty⟩
  · right
    apply h.slot_grows henv hm hty

/-- What a slot is given in a step is found for it. -/
theorem Step.found_of_assigned (h : Step env m m') (henv : env.Sound) (hm : Orderly env m.state)
    (hx : .assigned (.slot x) ty ∈ m'.events) :
  .assigned (.slot x) ty ∈ m.events ∨ env.Found m'.state.found x ty
  := by
  cases h with
  | @declare _ _ _ s =>
    obtain hx | hx := mem_cons.mp hx
    · cases hx
      right
      right
      apply covers_self
      simp [State.withSlot, Tables.slot?_setSlot, hm.length, henv.index_lt]
    · left
      apply hx
  | @assignParam _ _ name id symbol k p found s _ hown hkind hk hp htakes =>
    obtain hx | hx := mem_cons.mp hx
    · cases hx
      have hstands := hm.symbol id symbol hown.2
      simp only [Stands, hkind] at hstands
      obtain ⟨hlt, hname, _⟩ := findIdx?_eq_some_iff_getElem.mp hk
      rw [(List.getElem?_eq_some_iff.mp hp).2, beq_iff_eq] at hname
      have hplanned : (env.plan.functions.getD env.index default).params[k]? = some p := by
        rw [getD_eq_getElem?_getD, henv.function]
        apply hp
      right
      left
      use k, p, hp, hname.trans hstands.1.symm
      exact htakes.fits hplanned hm.initial (hm.initial.trans htakes.grows) fun _ hu => hu
    · left
      apply hx
  | @assignOther _ _ name id symbol s _ hown hkind hk =>
    have hstands := hm.symbol id symbol hown.2
    simp only [Stands, hkind] at hstands
    obtain ⟨p, hp, hname⟩ := mem_map.mp hstands.2
    have hne := findIdx?_eq_none_iff.mp hk p hp
    simp [hname] at hne
  | @assignSlot _ _ _ _ symbol joined s _ _ _ hjoined =>
    obtain hx | hx := mem_cons.mp hx
    · cases hx
      right
      right
      refine ⟨joined, ?_, (Ty.fits_of_join hjoined).2⟩
      simp [State.withType, Tables.slot?_setSlot, hm.length, henv.index_lt]
    · left
      apply hx
  | _ =>
    left
    simpa using hx

/-- What slots are given is found for them. -/
theorem Steps.found_of_assigned (h : Steps env m m') (henv : env.Ready)
    (horderly : Orderly env m.state) (hm : m.events = [])
    (hx : .assigned (.slot x) ty ∈ m'.events) :
  env.Found m'.state.found x ty
  := by
  induction h with
  | refl =>
    rw [hm] at hx
    cases hx
  | tail hsteps hstep ih =>
    have horderly' := keep (Step.orderly henv) hsteps horderly
    obtain hx | hfound := hstep.found_of_assigned henv.toSound horderly' hx
    · apply hstep.found henv horderly' (ih hx)
    · apply hfound

/-- What reads see bounds what has been found. -/
theorem refined_fits :
  (Ty.refined hint found).fits found
  := by
  rw [Ty.refined]
  cases hjoin : hint.bind (·.join found) with
  | none => apply found.fits_self
  | some joined =>
    obtain ⟨held, _, hjoined⟩ := bind_eq_some_iff.mp hjoin
    apply (Ty.fits_of_join hjoined).2

/-- Variables of the function have the types that are recorded. -/
def Function.Agreed (f : Function) : Prop :=
  ∀ n x, Expr.var n (.slot x) ∈ f.nodes → f.Records x n.ty

namespace CheckedIn

variable {prev : Tables} (h : CheckedIn plan prev last i f g before reports s events)
  (henv : (Env.of plan prev i f).Ready)

include h

theorem names :
  (g.params ++ g.locals).map (·.name) = slotNames (.of plan prev i f) s
  := by
  have hparams : f.params.zipIdx.map (fun p => p.1.name) = f.params.map (·.name) := by
    rw [← zipIdx_map_fst 0 f.params, List.map_map, zipIdx_map_fst]
    rfl
  rw [h.typed, map_append]
  simp only [FunctionPlan.typed, List.map_map, Function.comp_def, hparams]
  rfl

/-- What is noted of a statement of the function has been noted. -/
theorem noted (hst : st ∈ g.statements) (hw : w ∈ st.noted) :
  w ∈ events
  := by
  apply h.account
  right
  use st, hst

include henv

/-- The slots of the function are recorded with their types. -/
theorem records_self (hl : l ∈ g.params ++ g.locals) :
  g.Records l.name l.ty
  := by
  have hnodup := (h.orderly henv).nodup
  rw [← h.names] at hnodup
  constructor
  · use l, hl
  · intro l' hl' hname
    cases inj_on_of_nodup_map hnodup hl' hl hname
    rfl

/-- The name of a slot is that of no number. -/
theorem noNumber (hl : l ∈ g.params ++ g.locals) :
  NoNumber l.name
  := by
  have hmem : l.name ∈ slotNames (.of plan prev i f) s := by
    rw [← h.names]
    apply mem_map_of_mem hl
  obtain ⟨name, count, _, hname, _, _, heq⟩ := (h.orderly henv).used l.name hmem
  rw [heq]
  apply noNumber_slotName hname

/-- What has been found for a slot is recorded for it, and maybe more. -/
theorem exists_fits (hx : Env.Found (.of plan prev i f) s.found x ty) :
  ∃ l ∈ g.params ++ g.locals, l.name = x ∧ l.ty.fits ty
  := by
  rw [h.typed]
  obtain ⟨k, p, hp, rfl, u, hu, hfits⟩ | ⟨u, hu, hfits⟩ := hx
  · have hparam : (f.typed prev i g.body s).params[k]? =
        some ⟨p.name, p.name, .refined (prev.param? i k) u, p.span⟩ := by
      change f.params[k]? = some p at hp
      change s.found.param? i k = some u at hu
      simp [FunctionPlan.typed, hp, hu]
    refine ⟨_, mem_append_left _ (mem_of_getElem? hparam), rfl, ?_⟩
    apply Ty.fits_trans refined_fits hfits
  · obtain ⟨l, hl, rfl⟩ := mem_map.mp ((h.orderly henv).slot x u hu)
    change s.found.slot? i l.name = some u at hu
    refine ⟨_, mem_append_right _ (mem_map_of_mem hl), rfl, ?_⟩
    rw [hu]
    apply Ty.fits_trans refined_fits hfits

/-- The types in a function whose variables have the types that are recorded follow from those
of its slots. -/
theorem regular (hagreed : g.Agreed) :
  g.Regular
  := by
  have hformed {e : Expr} (he : e ∈ g.nodes) :
      ∃ s' events', Formed (.of plan prev i f) s' events' e := by
    obtain he | ⟨s', events', _, hformed⟩ := h.steps.formed (h.formed he)
    · cases he
    · use s', events'
  have hassigned {x : String} {ty : Ty} (hx : .assigned (.slot x) ty ∈ events) :
      NoNumber x ∧ (g.slotType x).fits ty := by
    have hfound := h.steps.found_of_assigned henv (h.start_orderly henv) rfl hx
    obtain ⟨l, hl, rfl, hfits⟩ := h.exists_fits henv hfound
    rw [(h.records_self henv hl).slotType]
    use h.noNumber henv hl, hfits
  constructor
  · intro l hl
    apply (h.records_self henv hl).slotType
  · intro n value he
    obtain ⟨_, _, hty⟩ := hformed he
    apply hty
  · intro n x he
    have hrecords := hagreed n x he
    obtain ⟨l, hl, rfl⟩ := hrecords.1
    use h.noNumber henv hl, hrecords.slotType.symm
  · intro n op lhs rhs he
    obtain ⟨_, _, _, _, hty⟩ := hformed he
    apply hty
  · intro n op operand he
    obtain ⟨_, _, _, hty⟩ := hformed he
    apply hty
  · intro n kind args he
    obtain ⟨_, _, _, hty⟩ := hformed he
    apply hty
  · intro span x value hst
    apply hassigned
    apply h.noted hst
    simp [Stmt.noted]
  · intro span x iter body hst ty hty
    apply hassigned
    apply h.noted hst
    simpa [Stmt.noted] using hty

end CheckedIn

/-- A function whose variables have the types that are recorded is regular. -/
theorem infer_regular {m : Module} (hnamed : Named program) (h : (infer program).module = some m)
    (hg : g ∈ m.functions) (hagreed : g.Agreed) :
  g.Regular
  := by
  obtain ⟨hplan, hreports, rfl, _⟩ := infer_eq_some h
  obtain ⟨i, f, before, reports, s, events, hf, hchecked⟩ := exists_checkedIn hreports hg
  apply hchecked.regular (hplan.ready hnamed _ hf) hagreed

/-- In a settled program variables have the types that are recorded. -/
theorem infer_agreed {m : Module} (hnamed : Named program) (h : (infer program).module = some m)
    (hsettled : (infer program).settled) (hg : g ∈ m.functions) :
  g.Agreed
  := by
  obtain ⟨hplan, hreports, rfl, hiff⟩ := infer_eq_some h
  obtain ⟨i, f, before, reports, s, events, hf, hchecked⟩ := exists_checkedIn hreports hg
  rw [hiff.mp hsettled] at hchecked
  have henv := hplan.ready hnamed (readBy program) hf
  intro n x hx
  apply hchecked.records_slot henv
  apply (hchecked.agrees henv).used n (.slot x) (hchecked.formed hx)

/-- No two functions of a program have the same name. -/
theorem infer_names_nodup {m : Module} (h : (infer program).module = some m) :
  (m.functions.map (·.name)).Nodup
  := by
  obtain ⟨hplan, hreports, rfl, _⟩ := infer_eq_some h
  rw [(pass_checked hreports).names]
  apply hplan.nodup

/-! ### Functions on words -/

theorem Expr.isWord_of_isWordly (h : e.isWordly) :
  e.ty.isWord
  := by
  unfold isWordly at h
  split at h <;> simp_all [ty, note]

/-- On words the operators have the types that the rules give. -/
theorem wordType?_of_binary? (ha : a.isWord) (hb : b.isWord) (hop : isWordOperator op)
    (h : Ty.binary? op a b = some c) (hc : c.isWord) :
  wordType? op = some c
  := by
  cases a <;> cases ha <;> cases b <;> cases hb <;> cases op <;> cases hop <;> cases h <;> rfl

theorem signType?_of_unary? {op : UnaryOp} (ha : a.isWord) (h : Ty.unary? op a = some c) :
  signType? op a = some c
  := by
  cases a <;> cases ha <;> cases op <;> cases h <;> rfl

/-- A slot and a value for it, both of them words, have the same type. -/
theorem eq_of_fits (ha : a.isWord) (hb : b.isWord) (h : a.fits b) :
  b = a
  := by
  cases a <;> cases ha <;> cases b <;> cases hb
  · rfl
  · cases h
  · cases h
  · rfl

/-- A range of words has integers as its items. -/
theorem range_result (htys : ∀ t ∈ tys, t.isWord) (h : Builtin.Kind.result .range tys = .ok ty) :
  ty = .list .int
  := by
  have hany : tys.any (·.isError) = false := by
    rw [List.any_eq_false]
    intro t ht
    cases t <;> cases htys _ ht <;> decide
  rw [Builtin.Kind.result, hany, if_neg Bool.false_ne_true] at h
  simp only [Builtin.Kind.resultOf] at h
  split at h
  · cases h
  · cases h
    rfl

namespace Function.Regular

variable {f : Function} (hf : f.Regular)
  (hslots : ∀ l ∈ f.params ++ f.locals, l.ty.isWord)

include hf

/-- Expressions on words have types by the rules. -/
theorem expr :
  ∀ e : Expr, e.isWordly → e.nodes ⊆ f.nodes → e.Worded f.slotType
  | .literal n (.int _), _, hn => hf.literal n _ (hn mem_cons_self)
  | .literal n (.bool _), _, hn => hf.literal n _ (hn mem_cons_self)
  | .var n (.slot x), h, hn => by
    obtain ⟨hname, htype⟩ := hf.slot n x (hn mem_cons_self)
    use hname, htype, h
  | .binary n op lhs rhs, h, hn => by
    rw [Expr.nodes, cons_subset, append_subset] at hn
    obtain ⟨hself, hl, hr⟩ := hn
    simp only [Expr.isWordly, and_eq_true] at h
    obtain ⟨⟨⟨hty, hop⟩, hlhs⟩, hrhs⟩ := h
    refine ⟨?_, expr lhs hlhs hl, expr rhs hrhs hr⟩
    apply wordType?_of_binary? _ _ hop (hf.binary n op lhs rhs hself) hty
    · apply Expr.isWord_of_isWordly hlhs
    · apply Expr.isWord_of_isWordly hrhs
  | .unary n op operand, h, hn => by
    rw [Expr.nodes, cons_subset] at hn
    obtain ⟨hself, ho⟩ := hn
    simp only [Expr.isWordly, and_eq_true] at h
    refine ⟨?_, expr operand h.2 ho⟩
    apply signType?_of_unary? _ (hf.unary n op operand hself)
    apply Expr.isWord_of_isWordly h.2

include hslots

omit hf in
/-- A slot that takes a word has the type of the word. -/
theorem eq_slotType (hfits : (f.slotType x).fits ty) (hty : ty.isWord) :
  ty = f.slotType x
  := by
  rw [slotType] at hfits ⊢
  cases hfind : (f.params ++ f.locals).find? (·.name == x) with
  | none =>
    rw [hfind] at hfits
    cases Ty.unknown_fits_iff.mp hfits
    cases hty
  | some l =>
    rw [hfind] at hfits
    apply eq_of_fits (hslots l (mem_of_find?_eq_some hfind)) hty hfits

/-- The variable of a loop over a range is an integer. -/
theorem counter {span : Span} (hself : .builtin n .range args ∈ f.nodes)
    (hst : .forLoop span (.slot x) (.builtin n .range args) body ∈ f.statements)
    (hargs : ∀ a ∈ args, a.ty.isWord) :
  NoNumber x ∧ f.slotType x = .int
  := by
  have hlist : n.ty = .list .int := by
    apply range_result _ (hf.builtin n .range args hself)
    simpa using hargs
  obtain ⟨hname, hfits⟩ := hf.counted span x _ body hst .int (by
    simp [Expr.ty, Expr.note, hlist, Check.itemType?])
  use hname, (eq_slotType hslots hfits rfl).symm

omit hf hslots

mutual

/-- Statements on words have types by the rules. -/
theorem stmt (hf : f.Regular) (hslots : ∀ l ∈ f.params ++ f.locals, l.ty.isWord) :
  ∀ st : Stmt, st.isWordly → st.nodes ⊆ f.nodes → st.inside ⊆ f.statements →
    st.Worded f.slotType
  | .assign span (.var (.slot x)) value, h, hn, hs => by
    obtain ⟨hname, hfits⟩ := hf.assigned span x value (hs mem_cons_self)
    use hname, eq_slotType hslots hfits (Expr.isWord_of_isWordly h)
    apply hf.expr value h
    simpa [Stmt.nodes, Place.nodes] using hn
  | .expr _ e, h, hn, _ => hf.expr e h hn
  | .branch _ arms otherwise, h, hn, hs => by
    rw [Stmt.nodes, append_subset] at hn
    rw [inside, cons_subset, append_subset] at hs
    rw [Stmt.isWordly, and_eq_true] at h
    constructor
    · apply armsOf hf hslots arms h.1 hn.1 hs.2.1
    · apply stmts hf hslots otherwise h.2 hn.2 hs.2.2
  | .whileLoop _ cond body, h, hn, hs => by
    rw [Stmt.nodes, append_subset] at hn
    rw [inside, cons_subset] at hs
    rw [Stmt.isWordly, and_eq_true] at h
    constructor
    · apply hf.expr cond h.1 hn.1
    · apply stmts hf hslots body h.2 hn.2 hs.2
  | .forLoop span (.slot x) (.builtin n .range [stop]) body, h, hn, hs => by
    rw [Stmt.nodes, append_subset, Expr.nodes, cons_subset] at hn
    obtain ⟨⟨hself, hstop⟩, hbody⟩ := hn
    rw [inside, cons_subset] at hs
    rw [Stmt.isWordly, and_eq_true] at h
    obtain ⟨hname, htype⟩ := hf.counter hslots hself hs.1 (by
      simpa using Expr.isWord_of_isWordly h.1)
    use hname, htype
    constructor
    · apply hf.expr stop h.1
      simpa [Expr.nodesOf] using hstop
    · apply stmts hf hslots body h.2 hbody hs.2
  | .forLoop span (.slot x) (.builtin n .range [start, stop]) body, h, hn, hs => by
    rw [Stmt.nodes, append_subset, Expr.nodes, cons_subset] at hn
    obtain ⟨⟨hself, hargs⟩, hbody⟩ := hn
    simp only [Expr.nodesOf, append_nil, append_subset] at hargs
    rw [inside, cons_subset] at hs
    simp only [Stmt.isWordly, and_eq_true] at h
    obtain ⟨⟨hstart, hstop⟩, hb⟩ := h
    obtain ⟨hname, htype⟩ := hf.counter hslots hself hs.1 (by
      simpa using ⟨Expr.isWord_of_isWordly hstart, Expr.isWord_of_isWordly hstop⟩)
    use hname, htype, hf.expr start hstart hargs.1, hf.expr stop hstop hargs.2
    apply stmts hf hslots body hb hbody hs.2
  | .ret _ (some value), h, hn, _ => hf.expr value h hn
  | .ret _ none, _, _, _ | .leave _, _, _, _ | .next _, _, _, _ => trivial

theorem stmts (hf : f.Regular) (hslots : ∀ l ∈ f.params ++ f.locals, l.ty.isWord) :
  ∀ body : List Stmt, isWordlyAll body → nodesOf body ⊆ f.nodes →
    insideOf body ⊆ f.statements → WordedAll f.slotType body
  | [], _, _, _ => trivial
  | st :: rest, h, hn, hs => by
    rw [nodesOf, append_subset] at hn
    rw [insideOf, append_subset] at hs
    rw [isWordlyAll, and_eq_true] at h
    constructor
    · apply stmt hf hslots st h.1 hn.1 hs.1
    · apply stmts hf hslots rest h.2 hn.2 hs.2

theorem armsOf (hf : f.Regular) (hslots : ∀ l ∈ f.params ++ f.locals, l.ty.isWord) :
  ∀ arms : List Arm, isWordlyArms arms → nodesOfArms arms ⊆ f.nodes →
    insideArms arms ⊆ f.statements → WordedArms f.slotType arms
  | [], _, _, _ => trivial
  | .mk cond body :: rest, h, hn, hs => by
    rw [nodesOfArms, append_subset, append_subset] at hn
    rw [insideArms, append_subset] at hs
    simp only [isWordlyArms, and_eq_true] at h
    obtain ⟨⟨hcond, hbody⟩, hrest⟩ := h
    use hf.expr cond hcond hn.1.1
    constructor
    · apply stmts hf hslots body hbody hn.1.2 hs.1
    · apply armsOf hf hslots rest hrest hn.2 hs.2

end

end Function.Regular

/-- A regular function that works on words has types by the rules. -/
theorem Function.Regular.worded {f : Function} (hf : f.Regular) (h : f.isWordly) :
  WordedAll f.slotType f.body
  := by
  rw [isWordly, and_eq_true, List.all_eq_true] at h
  apply hf.stmts h.1 f.body h.2
  · apply Subset.refl
  · apply Subset.refl

/-! ### Values -/

/-- Slots of truth values hold zero or one. -/
def Truthful (Γ : String → Ty) (σ : Words) : Prop :=
  ∀ x v, σ x = some v → Γ x = .bool → v = 0 ∨ v = 1

theorem truthWord_eq :
  truthWord b = 0 ∨ truthWord b = 1
  := by
  cases b
  · left
    rfl
  · right
    rfl

theorem truth_of_decided? {a : Int64} (h : decided? op a = some v) :
  v = 0 ∨ v = 1
  := by
  unfold decided? at h
  split at h
  · split at h <;> cases h
    left
    rfl
  · split at h <;> cases h
    right
    rfl
  · cases h

theorem truth_of_operated? {a : Int64} (hop : wordType? op = some .bool)
    (h : operated? op a b = some v) :
  v = 0 ∨ v = 1
  := by
  cases op <;> cases hop <;> cases h <;> apply truthWord_eq

theorem truth_of_signed {op : UnaryOp} {a : Int64} (hop : signType? op ty = some .bool) :
  signed op a = 0 ∨ signed op a = 1
  := by
  cases op <;> cases ty <;> cases hop <;> apply truthWord_eq

theorem Truthful.update (h : Truthful Γ σ) (hv : Γ x = .bool → v = 0 ∨ v = 1) :
  Truthful Γ (Function.update σ x (some v))
  := by
  intro y u hu hy
  by_cases hxy : y = x
  · subst hxy
    rw [Function.update_self] at hu
    cases hu
    apply hv hy
  · rw [Function.update_of_ne hxy] at hu
    apply h y u hu hy

/-- What has the type of truth values is zero or one. -/
theorem Expr.Worded.truth (h : e.Worded Γ) (hσ : Truthful Γ σ) (hv : e.value? σ = some v)
    (hty : e.ty = .bool) :
  v = 0 ∨ v = 1
  := by
  unfold Worded at h
  split at h
  · cases h.symm.trans hty
  · cases hv
    apply truthWord_eq
  · apply hσ _ v hv (h.2.1.symm.trans hty)
  · rename_i n op lhs rhs
    have hop : wordType? op = some .bool := h.1.trans (congrArg some hty)
    simp only [value?, bind, bind_eq_some_iff] at hv
    obtain ⟨a, _, hv⟩ := hv
    split at hv
    · rename_i u hu
      cases hv
      apply truth_of_decided? hu
    · obtain ⟨b, _, hv⟩ := bind_eq_some_iff.mp hv
      apply truth_of_operated? hop hv
  · rename_i n op operand
    have hop : signType? op operand.ty = some .bool := h.1.trans (congrArg some hty)
    simp only [value?, bind, bind_eq_some_iff] at hv
    obtain ⟨a, _, hv⟩ := hv
    cases hv
    apply truth_of_signed hop
  · cases h

/-- If there is an end, then it is one with the property. -/
def Ending.All (P : Words → Prop) (e : Ending) : Prop :=
  ∀ σ exit, e = some (σ, exit) → P σ

theorem Ending.All.some (h : P σ) (exit : Exit) :
  All P (some (σ, exit))
  := by
  rintro _ _ ⟨⟩
  apply h

theorem Ending.All.andThen {e : Ending} (h : e.All P) (hrest : ∀ σ, P σ → (rest σ).All P) :
  (e.andThen rest).All P
  := by
  intro σ' exit heq
  obtain ⟨⟨σ, first⟩, he, heq⟩ := bind_eq_some_iff.mp heq
  have hσ := h σ first he
  cases first with
  | falls => apply hrest σ hσ σ' exit heq
  | _ =>
    cases heq
    apply hσ

theorem Ending.All.andAgain {e : Ending} (h : e.All P) (hagain : ∀ σ, P σ → (again σ).All P) :
  (e.andAgain again).All P
  := by
  intro σ' exit heq
  obtain ⟨⟨σ, first⟩, he, heq⟩ := bind_eq_some_iff.mp heq
  have hσ := h σ first he
  cases first with
  | falls | skips => apply hagain σ hσ σ' exit heq
  | _ =>
    cases heq
    apply hσ

/-- The part of a branch that is taken has types by the rules. -/
theorem WordedArms.choose? (harms : WordedArms Γ arms)
    (hotherwise : WordedAll Γ otherwise) (h : choose? σ arms otherwise = some body) :
  WordedAll Γ body
  := by
  induction arms with
  | nil =>
    cases h
    apply hotherwise
  | cons arm rest ih =>
    obtain ⟨cond, first⟩ := arm
    obtain ⟨v, _, h⟩ := bind_eq_some_iff.mp h
    split at h
    · apply ih harms.2.2 h
    · cases h
      apply harms.2.1

/-- The variable of a loop over a range counts. -/
theorem Stmt.Worded.counter {span : Span}
    (h : (forLoop span (.slot x) (.builtin n .range args) body).Worded Γ) :
  NoNumber x ∧ Γ x = .int ∧ WordedAll Γ body
  := by
  obtain _ | ⟨_, _ | ⟨_, _ | _⟩⟩ := args
  · cases h
  · use h.1, h.2.1, h.2.2.2
  · use h.1, h.2.1, h.2.2.2.2
  · cases h

/-- Slots of truth values hold zero or one in the end. -/
theorem exec?_truthful :
  (∀ (st : Stmt) (σ : Words), st.Worded Γ → Truthful Γ σ → (st.exec? n σ).All (Truthful Γ)) ∧
    (∀ (body : List Stmt) (σ : Words), WordedAll Γ body → Truthful Γ σ →
      (execAll? n body σ).All (Truthful Γ)) ∧
    (∀ (cond : Expr) (body : List Stmt) (σ : Words), WordedAll Γ body → Truthful Γ σ →
      (while? n cond body σ).All (Truthful Γ)) ∧
    (∀ (x : String) (stop : Int64) (body : List Stmt) (i : Int64) (σ : Words), Γ x = .int →
      WordedAll Γ body → Truthful Γ σ → (count? n x stop body i σ).All (Truthful Γ))
  := by
  induction n with
  | zero =>
    refine ⟨?_, ?_, ?_, ?_⟩
    all_goals
      intros
      rintro _ _ ⟨⟩
  | succ n ih =>
    obtain ⟨ihStmt, ihAll, ihWhile, ihCount⟩ := ih
    refine ⟨?_, ?_, ?_, ?_⟩
    · intro st σ hst hσ σ' exit h
      unfold exec? at h
      split at h
      · obtain ⟨v, hv, h⟩ := bind_eq_some_iff.mp h
        cases h
        apply hσ.update
        intro hbool
        apply hst.2.2.truth hσ hv (hst.2.1.trans hbool)
      · obtain ⟨_, _, h⟩ := bind_eq_some_iff.mp h
        cases h
        apply hσ
      · obtain ⟨body, hbody, h⟩ := bind_eq_some_iff.mp h
        apply ihAll body σ (hst.1.choose? hst.2 hbody) hσ σ' exit h
      · apply ihWhile _ _ σ hst.2 hσ σ' exit h
      · obtain ⟨⟨start, stop⟩, _, h⟩ := bind_eq_some_iff.mp h
        obtain ⟨_, hx, hbody⟩ := hst.counter
        apply ihCount _ stop _ start σ hx hbody hσ σ' exit h
      · obtain ⟨_, _, h⟩ := bind_eq_some_iff.mp h
        cases h
        apply hσ
      iterate 3
        · cases h
          apply hσ
      · cases h
    · intro body σ hbody hσ
      cases body with
      | nil => apply Ending.All.some hσ
      | cons st rest =>
        apply (ihStmt st σ hbody.1 hσ).andThen
        intro σ' hσ'
        apply ihAll rest σ' hbody.2 hσ'
    · intro cond body σ hbody hσ σ' exit h
      obtain ⟨v, _, h⟩ := bind_eq_some_iff.mp h
      split at h
      · cases h
        apply hσ
      · apply (ihAll body σ hbody hσ).andAgain _ σ' exit h
        intro σ' hσ'
        apply ihWhile cond body σ' hbody hσ'
    · intro x stop body i σ hx hbody hσ
      rw [count?]
      split
      · apply Ending.All.andAgain
        · apply ihAll body _ hbody
          apply hσ.update
          intro hbool
          cases hx.symm.trans hbool
        · intro σ' hσ'
          apply ihCount x stop body (i + 1) σ' hx hbody hσ'
      · apply Ending.All.some hσ

end Endmark.Typed
