import Endmark.Typed.Plan
import Endmark.Proofs.Types.Order

/-!
# Plans without errors

The plan of a program in which nothing is wrong so far has a function for each one of the
program, with the same body and distinct parameters, and at most one more, for the statements
outside of functions.
-/

namespace Endmark

open Diagnostic
open List

/-- Is it the type of a fault, or a list of such? -/
def Ty.isFaulty : Ty → Bool
  | .error => true
  | .list item => item.isFaulty
  | _ => false

namespace Typed

open Endmark.Tree (Program)

namespace Collect

variable {α β : Type}

/-- Errors stay reported, and without one the result is in `R`. -/
def Gives (x : Collect α) (R : α → Prop) : Prop :=
  ∀ reports, (Diagnostic.anyError reports.toList = true →
      Diagnostic.anyError (x.run reports).2.toList = true) ∧
    (Diagnostic.anyError (x.run reports).2.toList = true ∨ R (x.run reports).1)

theorem gives_pure {R : α → Prop} (h : R a) :
  Gives (pure a) R
  := fun _ => ⟨id, .inr h⟩

/-- One part after the other. -/
theorem gives_bind {R : α → Prop} {T : β → Prop}
    (hx : Gives x R) (hf : ∀ a, Gives (f a) fun b => R a → T b) :
  Gives (x >>= f) T
  := by
  intro reports
  obtain ⟨hkeep, hend⟩ := hx reports
  obtain ⟨hkeep', hend'⟩ := hf (x.run reports).1 (x.run reports).2
  constructor
  · intro h
    apply hkeep' (hkeep h)
  · obtain herror | hR := hend
    · left
      apply hkeep' herror
    · apply hend'.imp_right
      intro hT
      apply hT hR

theorem Gives.mono {T : α → Prop} (hx : Gives x R) (h : ∀ a, R a → T a) :
  Gives x T
  := fun reports => ⟨(hx reports).1, (hx reports).2.imp_right (h _)⟩

theorem gives_report {span : Span} :
  Gives (report span fault) R
  := by
  have herror (reports : Array Diagnostic) :
      anyError ((report span fault).run reports).2.toList := by
    change anyError (reports.push (fault.at span)).toList
    simp [anyError, Fault.at, error, isError]
  intro reports
  use fun _ => herror reports, .inl (herror reports)

theorem exists_of_forall₂ {as : List α} (h : Forall₂ R as bs) {b : β} (hb : b ∈ bs) :
  ∃ a ∈ as, R a b
  := by
  induction h with
  | nil => cases hb
  | cons hab _ ih =>
    obtain rfl | hb := mem_cons.mp hb
    · exact ⟨_, mem_cons_self, hab⟩
    · obtain ⟨a, ha, hab⟩ := ih hb
      use a, mem_cons_of_mem _ ha

/-- Each result of a check of many is in what the check of one gives. -/
theorem gives_mapM {R : α → β → Prop} (hf : ∀ a, Gives (f a) (R a)) (as : List α) :
  Gives (as.mapM f) fun bs => Forall₂ R as bs
  := by
  induction as with
  | nil => apply gives_pure .nil
  | cons a rest ih =>
    rw [mapM_cons]
    apply gives_bind (hf a)
    intro b
    apply gives_bind ih
    intro bs
    apply gives_pure
    intro hbs hb
    apply Forall₂.cons hb hbs

end Collect

open Collect

/-! ### Functions -/

/-- If no function is reported to be there twice, all are kept, and no two of them have the
same name. -/
theorem distinct_gives (fault : String → Fault) (fs kept : List Tree.Function) :
  Gives (distinct fault kept fs) fun gs => gs = kept ++ fs ∧
    ((kept.map (·.name.name)).Nodup → (gs.map (·.name.name)).Nodup)
  := by
  induction fs generalizing kept with
  | nil =>
    apply gives_pure
    simp
  | cons f rest ih =>
    unfold distinct
    split
    · apply gives_bind (gives_report (R := fun _ => False))
      intro _
      apply (ih kept).mono
      intro _ _ h
      cases h
    · rename_i hnew
      apply (ih (kept ++ [f])).mono
      rintro gs ⟨hgs, hnodup⟩
      constructor
      · simpa using hgs
      · intro hkept
        apply hnodup
        simp only [any_eq_true, beq_iff_eq, not_exists, not_and] at hnew
        rw [map_append, nodup_append]
        use hkept, nodup_singleton _
        intro x hx y hy
        obtain ⟨g, hg, rfl⟩ := mem_map.mp hx
        rw [mem_singleton.mp hy]
        apply hnew g hg

/-- No written type has a fault in it. -/
theorem isWhole_of_ofTypeExpr : ∀ {e : Tree.TypeExpr} {ty : Ty},
    Ty.ofTypeExpr e = .ok ty → ty.isWhole
  | .named _ name, ty, h => by
    rw [Ty.ofTypeExpr] at h
    split at h
    · rename_i t ht
      cases h
      simp only [Ty.named?] at ht
      split at ht <;> cases ht <;> rfl
    · cases h
  | .list _ item, ty, h => by
    rw [Ty.ofTypeExpr] at h
    cases hitem : Ty.ofTypeExpr item with
    | error name =>
      rw [hitem] at h
      cases h
    | ok t =>
      rw [hitem] at h
      cases h
      apply isWhole_of_ofTypeExpr hitem

/-- A declared type has nothing unknown. -/
theorem declaredType_gives :
  Gives (declaredType written) fun declared => ∀ ty ∈ declared, ty.isWhole
  := by
  unfold declaredType
  split
  · apply gives_pure
    simp
  · split
    · rename_i ty hty
      apply gives_pure
      intro _ h
      cases h
      apply isWhole_of_ofTypeExpr hty
    · apply gives_bind (gives_report (R := fun _ => False))
      intro _
      apply gives_pure
      simp

/-- The planned parameters have the names of the written ones, no two of them the same, and
no declared type has a fault in it. -/
theorem planParams_gives (ps : List Tree.Param) (planned : List ParamPlan) :
  Gives (planParams planned ps) fun qs =>
    qs.map (·.name) = planned.map (·.name) ++ ps.map (·.name.name) ∧
      ((planned.map (·.name)).Nodup → (qs.map (·.name)).Nodup) ∧
      ((∀ p ∈ planned, ∀ ty ∈ p.declared, ty.isWhole) →
        ∀ q ∈ qs, ∀ ty ∈ q.declared, ty.isWhole)
  := by
  induction ps generalizing planned with
  | nil =>
    apply gives_pure
    simp
  | cons p rest ih =>
    unfold planParams
    have hrest : Gives (do
        let ty ← declaredType p.declared
        planParams (planned ++ [⟨p.name.name, p.name.span, ty⟩]) rest) fun qs =>
          qs.map (·.name) = planned.map (·.name) ++ (p :: rest).map (·.name.name) ∧
            ((planned.map (·.name) ++ [p.name.name]).Nodup → (qs.map (·.name)).Nodup) ∧
            ((∀ p ∈ planned, ∀ ty ∈ p.declared, ty.isWhole) →
              ∀ q ∈ qs, ∀ ty ∈ q.declared, ty.isWhole) := by
      apply gives_bind declaredType_gives
      intro ty
      apply (ih _).mono
      rintro qs ⟨hnames, hnodup, hfaulty⟩ hty
      simp only [map_append, append_assoc] at hnames hnodup
      use hnames, hnodup
      intro hplanned
      apply hfaulty
      intro q hq
      obtain hq | hq := mem_append.mp hq
      · apply hplanned q hq
      · cases mem_singleton.mp hq
        apply hty
    split
    · apply gives_bind (gives_report (R := fun _ => False))
      intro _
      apply hrest.mono
      intro _ _ h
      cases h
    · rename_i hnew
      apply hrest.mono
      rintro qs ⟨hnames, hnodup, hfaulty⟩
      use hnames
      constructor
      · intro hplanned
        apply hnodup
        rw [nodup_append]
        use hplanned, nodup_singleton _
        rintro a ha b hb rfl
        cases mem_singleton.mp hb
        obtain ⟨q, hq, hname⟩ := mem_map.mp ha
        apply hnew
        simp only [any_eq_true, beq_iff_eq]
        use q
      · apply hfaulty

/-- The planned parameters go with those that are written. -/
structure PlansParams (written : List Tree.Param) (planned : List ParamPlan) : Prop where
  names : planned.map (·.name) = written.map (·.name.name)
  nodup : (planned.map (·.name)).Nodup
  declared : ∀ p ∈ planned, ∀ ty ∈ p.declared, ty.isWhole = true

/-- The plan goes with the function. -/
structure Plans (g : Tree.Function) (f : FunctionPlan) : Prop where
  name : f.name = g.name.name
  notReserved : isReserved f.name = false
  body : f.body = g.body
  params : PlansParams g.params f.params
  ret : ∀ ty ∈ f.ret, ty.isWhole = true
  topLevel : f.topLevel = false

theorem reportName_gives :
  Gives (reportName name) fun _ => isReserved name.name = false
  := by
  unfold reportName
  split
  · apply gives_report
  · split
    · apply gives_report
    · rename_i h
      apply gives_pure
      apply Bool.eq_false_iff.mpr h

/-- The plan of a function keeps to its definition. -/
theorem planFunction_gives (g : Tree.Function) :
  Gives (planFunction g) (Plans g)
  := by
  apply gives_bind reportName_gives
  intro _
  have hparams : Gives (planParams [] g.params) (PlansParams g.params) := by
    apply (planParams_gives g.params []).mono
    rintro ps ⟨hnames, hnodup, hdeclared⟩
    use hnames, hnodup .nil, hdeclared (by simp)
  apply gives_bind hparams
  intro params
  have hrest : Gives (do
      let ret ← declaredType g.ret
      return ⟨g.name.name, params, ret, g.body, g.span, false⟩) fun f =>
        PlansParams g.params params → isReserved g.name.name = false → Plans g f := by
    apply gives_bind declaredType_gives
    intro ret
    apply gives_pure
    intro hret hparams hname
    exact ⟨rfl, hname, rfl, hparams, hret, rfl⟩
  split
  · apply gives_bind (gives_report (R := fun _ => False))
    intro _
    apply hrest.mono
    intro _ _ h
    cases h
  · apply hrest

/-! ### Programs -/

/-- The functions of the libraries and the main unit of a program. -/
def functionsOf (program : Program) : List Tree.Function :=
  functionsIn (program.libraries.flatMap (·.items)) ++ functionsIn program.main.items

/-- The statements of a program outside of functions. -/
def statementsOf (program : Program) : List Tree.Stmt :=
  statementsIn program.main.items

/-- The function of the plan holds the statements of the program outside of functions. -/
structure PlansStatements (program : Program) (f : FunctionPlan) : Prop where
  body : f.body = statementsOf program
  params : f.params = []
  ret : f.ret = none
  topLevel : f.topLevel = true

/-- The plan goes with the program. -/
structure PlansProgram (program : Program) (plan : Plan) : Prop where
  /-- There are the functions of the program, and at most one more after them. -/
  functions : ∃ fs last, plan.functions = fs ++ last ∧
    (∀ f ∈ fs, ∃ g ∈ functionsOf program, Plans g f) ∧
    (∀ f ∈ last, PlansStatements program f) ∧ last.length ≤ 1
  globals : plan.globals = globalsOf (statementsOf program)
  nodup : (plan.functions.map (·.name)).Nodup

theorem names_of_plans (h : Forall₂ Plans gs fs) :
  fs.map (·.name) = gs.map (·.name.name)
  := by
  induction h with
  | nil => rfl
  | cons hfirst _ ih => rw [map_cons, map_cons, ih, hfirst.name]

theorem isReserved_initName :
  isReserved initName
  := by
  decide +kernel

/-- The function for the statements outside of functions has a name of its own. -/
theorem nodup_of_reserved (h : names.Nodup) (hnames : ∀ x ∈ names, isReserved x = false)
    (hname : isReserved name ∨ name ∉ names) :
  (names ++ [name]).Nodup
  := by
  rw [nodup_append]
  use h, nodup_singleton _
  rintro x hx y hy rfl
  cases mem_singleton.mp hy
  obtain hreserved | hnot := hname
  · cases hreserved.symm.trans (hnames name hx)
  · apply hnot hx

/-- The plan of a program keeps to its definitions. -/
theorem collect_gives (program : Program) :
  Gives (collect program) (PlansProgram program)
  := by
  apply gives_bind (distinct_gives .libraryRedefined _ [])
  intro library
  apply gives_bind (distinct_gives .redefined _ [])
  intro own
  apply gives_bind (gives_mapM planFunction_gives _)
  intro functions
  apply gives_pure
  rintro hplans ⟨rfl, hown⟩ ⟨rfl, hlibrary⟩
  constructor
  · refine ⟨functions, _, rfl, ?_, ?_, ?_⟩
    · intro f hf
      obtain ⟨g, hg, hgf⟩ := exists_of_forall₂ hplans hf
      use g
      constructor
      · apply mem_append.mpr
        apply (mem_append.mp hg).imp_left
        apply mem_of_mem_filter
      · apply hgf
    · intro f hf
      split at hf
      · cases mem_singleton.mp hf
        exact ⟨rfl, rfl, rfl, rfl⟩
      · cases hf
    · split
      · apply le_refl
      · apply zero_le
  · rfl
  · have hnodup : (functions.map (·.name)).Nodup := by
      rw [names_of_plans hplans, map_append, nodup_append]
      refine ⟨?_, hown .nil, ?_⟩
      · apply Nodup.sublist (filter_sublist.map _) (hlibrary .nil)
      · intro x hx y hy
        obtain ⟨f, hf, rfl⟩ := mem_map.mp hx
        obtain ⟨g, hg, rfl⟩ := mem_map.mp hy
        have hnone := (mem_filter.mp hf).2
        simp only [Bool.not_eq_true', any_eq_false, beq_iff_eq] at hnone
        apply symm (hnone g hg)
    have hnames : ∀ x ∈ functions.map (·.name), isReserved x = false := by
      intro x hx
      obtain ⟨f, hf, rfl⟩ := mem_map.mp hx
      obtain ⟨g, _, hgf⟩ := exists_of_forall₂ hplans hf
      apply hgf.notReserved
    rw [map_append]
    split
    · apply nodup_of_reserved hnodup hnames
      split
      · left
        apply isReserved_initName
      · right
        rw [mem_map]
        rintro ⟨f, hf, hname⟩
        have hmain : functions.any (·.name == "main") := by
          rw [any_eq_true]
          use f, hf
          simpa using hname
        simp_all
    · simpa using hnodup

/-- A function of the plan is one of the program, or holds the statements outside of
functions. -/
theorem PlansProgram.planned (h : PlansProgram program plan) (hf : f ∈ plan.functions) :
  (∃ g ∈ functionsOf program, Plans g f) ∨ PlansStatements program f
  := by
  obtain ⟨fs, last, hfunctions, hfs, hlast, _⟩ := h.functions
  rw [hfunctions] at hf
  apply (mem_append.mp hf).imp (hfs f) (hlast f)

end Typed

end Endmark
