import Endmark.Proofs.Typed.Names
import Endmark.Proofs.Typed.Resolution

/-!
# Programs as they are spelled

Names are cut out of a source as letters, digits and underscores.  All that the plan of such
a program declares is named so, the function in which it starts and the one before it
included.
-/

namespace Endmark.Typed

open Collect
open List
open Endmark.Tree (Program)

/-- Is it a name as it is cut out of a source: letters, digits and underscores, and no digit
first? -/
def isIdentifier (name : String) : Bool :=
  name.toList.head?.any (fun c => c.isAlpha || c == '_') &&
    name.toList.all fun c => c.isAlphanum || c == '_'

/-- The names that the program declares are as they are cut out of a source. -/
def Spelled (program : Program) : Prop :=
  (∀ f ∈ functionsOf program, isIdentifier f.name.name = true ∧
    (∀ p ∈ f.params, isIdentifier p.name.name = true) ∧
    ∀ ident ∈ boundByAll f.body, isIdentifier ident.name = true) ∧
  ∀ ident ∈ boundByAll (statementsOf program), isIdentifier ident.name = true

instance (program : Program) : Decidable (Spelled program) :=
  inferInstanceAs (Decidable ((∀ _ ∈ _, _ ∧ _ ∧ _) ∧ _))

/-- All expressions in a program. -/
def nodesIn (program : Program) : List Tree.Expr :=
  (functionsOf program).flatMap (Tree.Stmt.nodesOf ·.body) ++
    Tree.Stmt.nodesOf (statementsOf program)

/-! ### Where a program starts -/

/-- The plan has the function in which the program starts, and the one before it. -/
structure Plan.Starts (plan : Plan) : Prop where
  entry : plan.entry = "main"
  hasEntry : plan.entry ∈ plan.functions.map (·.name)
  init : ∀ name ∈ plan.init, name = initName ∧ name ∈ plan.functions.map (·.name)
  topLevel : ∀ f ∈ plan.functions, f.topLevel = true → f.name = "main" ∨ f.name = initName

/-- A plan has the function in which the program starts. -/
theorem collect_starts :
  Gives (collect program) Plan.Starts
  := by
  apply gives_bind (distinct_gives .libraryRedefined _ [])
  intro library
  apply gives_bind (distinct_gives .redefined _ [])
  intro own
  apply gives_bind (gives_mapM planFunction_gives _)
  intro functions
  apply gives_pure
  intro hplans _ _
  have hproper : ∀ f ∈ functions, f.topLevel = false := by
    intro f hf
    obtain ⟨g, _, hgf⟩ := exists_of_forall₂ hplans hf
    apply hgf.topLevel
  cases hmain : functions.any (·.name == "main") with
  | true =>
    have hname : "main" ∈ functions.map (·.name) := by
      simpa using hmain
    constructor
    · rfl
    · rw [map_append]
      apply mem_append_left _ hname
    · cases htop : (statementsIn program.main.items).isEmpty <;> simp_all
    · intro f hf htop
      obtain hf | hf := mem_append.mp hf
      · cases (hproper f hf).symm.trans htop
      · split at hf
        · cases mem_singleton.mp hf
          split
          · right
            rfl
          · left
            rfl
        · cases hf
  | false =>
    constructor
    · rfl
    · simp
    · simp
    · intro f hf htop
      obtain hf | hf := mem_append.mp hf
      · cases (hproper f hf).symm.trans htop
      · left
        simp at hf
        rw [hf]

/-- A program that is accepted has a plan from which it starts. -/
theorem infer_starts (h : (infer program).module = some m) :
  (planOf program).Starts
  := by
  simp only [infer_eq] at h
  split at h
  · cases h
  · rename_i hplan
    apply (collect_starts #[]).2.resolve_left hplan

/-! ### Plans -/

/-- All that the plan declares is named as names are cut out of a source. -/
structure Plan.Spelled (plan : Plan) : Prop where
  function : ∀ f ∈ plan.functions, isIdentifier f.name = true
  param : ∀ f ∈ plan.functions, ∀ p ∈ f.params, isIdentifier p.name = true
  bound : ∀ f ∈ plan.functions, ∀ ident ∈ boundByAll f.body, isIdentifier ident.name = true
  global : ∀ g ∈ plan.globals, isIdentifier g.1 = true

theorem exists_of_mem_firstBindings (h : binding ∈ firstBindings idents) :
  ∃ ident ∈ idents, ident.name = binding.1
  := by
  induction idents with
  | nil => cases h
  | cons first rest ih =>
    rw [firstBindings, mem_cons] at h
    obtain rfl | h := h
    · use first, mem_cons_self
    · obtain ⟨ident, hident, hname⟩ := ih (mem_of_mem_filter h)
      use ident, mem_cons_of_mem _ hident

/-- The plan of a program that is spelled properly is, too. -/
theorem PlansProgram.spelled (h : PlansProgram program plan)
    (hstarts : plan.Starts) (hspelled : Spelled program) :
  plan.Spelled
  := by
  obtain ⟨hfunctions, hstatements⟩ := hspelled
  constructor
  · intro f hf
    obtain ⟨g, hg, hplans⟩ | htop := h.planned hf
    · rw [hplans.name]
      apply (hfunctions g hg).1
    · obtain hname | hname := hstarts.topLevel f hf htop.topLevel
      · rw [hname]
        decide
      · rw [hname]
        decide
  · intro f hf p hp
    obtain ⟨g, hg, hplans⟩ | htop := h.planned hf
    · have hmem : p.name ∈ f.params.map (·.name) := mem_map_of_mem hp
      rw [hplans.params.names] at hmem
      obtain ⟨q, hq, hname⟩ := mem_map.mp hmem
      rw [← hname]
      apply (hfunctions g hg).2.1 q hq
    · rw [htop.params] at hp
      cases hp
  · intro f hf ident hident
    obtain ⟨g, hg, hplans⟩ | htop := h.planned hf
    · rw [hplans.body] at hident
      apply (hfunctions g hg).2.2 ident hident
    · rw [htop.body] at hident
      apply hstatements ident hident
  · intro g hg
    rw [h.globals] at hg
    obtain ⟨ident, hident, hname⟩ := exists_of_mem_firstBindings (mem_mergeSort.mp hg)
    rw [← hname]
    apply hstatements ident hident

/-! ### What accepted programs name -/

/-- What is written in a function of the program is in the program. -/
theorem mem_nodesIn (hw : w ∈ written program) (he : e ∈ Tree.Stmt.nodesOf w.body) :
  e ∈ nodesIn program
  := by
  obtain hw | hw := mem_append.mp hw
  · obtain ⟨f, hf, rfl⟩ := mem_map.mp hw
    have hmem : f ∈ functionsOf program := by
      apply mem_append.mpr
      apply (mem_append.mp hf).imp_left
      apply mem_of_mem_filter
    apply mem_append_left
    apply mem_flatMap.mpr ⟨f, hmem, he⟩
  · split at hw
    · cases hw
    · obtain rfl := mem_singleton.mp hw
      apply mem_append_right _ he

section

variable (hspelled : Spelled program) (h : (infer program).module = some m)

include hspelled h

theorem spelled_planOf :
  (planOf program).Spelled
  := (infer_eq_some h).1.spelled (infer_starts h) hspelled

/-- The slots of an accepted program are named for names as they are cut out of a source. -/
theorem exists_slotName (hf : f ∈ m.functions) :
  ∀ l ∈ f.params ++ f.locals, ∃ x count, isIdentifier x ∧ l.name = slotName x count
  := by
  have hplan := spelled_planOf hspelled h
  obtain ⟨_, hreports, rfl, _⟩ := infer_eq_some h
  obtain ⟨i, p, before, reports, s, events, hp, hchecked⟩ := exists_checkedIn hreports hf
  have hmem := mem_of_getElem? hp
  rw [hchecked.typed, forall_mem_append]
  constructor
  · intro l hl
    obtain ⟨⟨q, k⟩, hq, rfl⟩ := mem_map.mp hl
    use q.name, 0, hplan.param p hmem q (fst_mem_of_mem_zipIdx hq)
    rfl
  · intro l hl
    obtain ⟨declared, hdeclared, rfl⟩ := mem_map.mp hl
    obtain ⟨x, count, ⟨ident, hident, rfl⟩, hname⟩ :=
      hchecked.steps.keep Step.slots (by simp [State.start]) declared hdeclared
    use ident.name, count, hplan.bound p hmem ident hident, hname

omit hspelled in
/-- What is demanded of its slots, of what is declared and of what is written holds of all that a
function of an accepted program names. -/
theorem function_within (hf : f ∈ m.functions) {N : Vocabulary}
    (hO : N.Covers m.outside) (hslots : ∀ l ∈ f.params ++ f.locals, N.slot l.name)
    (hnodes : ∀ e ∈ nodesIn program, N.Allows e) :
  f.Within N
  := by
  obtain ⟨i, hi, rfl⟩ := mem_iff_getElem.mp hf
  have helaborates := forall₂_iff_get.mp (infer_elaborates h)
  have hw : i < (written program).length := helaborates.1 ▸ hi
  apply (helaborates.2 i hw hi).within hO hslots
  exact fun d hd => hnodes d (mem_nodesIn (get_mem _ _) hd)

/-- What is demanded of the slots of names, of what is declared and of what is written holds of
all that an accepted program names. -/
theorem infer_within (hO : N.Covers m.outside)
    (hslot : ∀ x count, isIdentifier x → N.slot (slotName x count))
    (hnodes : ∀ e ∈ nodesIn program, N.Allows e) :
  ∀ f ∈ m.functions, f.Within N
  := by
  intro f hf
  apply function_within h hf hO _ hnodes
  intro l hl
  obtain ⟨x, count, hx, hname⟩ := exists_slotName hspelled h hf l hl
  rw [hname]
  apply hslot x count hx

end

end Endmark.Typed
