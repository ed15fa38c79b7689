import Endmark.Proofs.Typed.Symbols

/-!
# Names of slots

A name in a source holds no point and is no numeral.  So the name of a slot, which is that of
a variable or that with a point and a number after it, tells which variable it is for and the
how manieth of its slots it is: the slots of a function have different names.
-/

namespace Endmark.Typed

open State
open List
open Endmark.Tree (Program)

/-- Is it a name as they are written in a source: without a point, and no numeral? -/
def isPlain (name : String) : Bool :=
  name.toList.all (· != '.') && !name.toList.all Char.isDigit

/-- The names that the functions of the program bind are as they are written in a source. -/
def Named (program : Program) : Prop :=
  ∀ f ∈ functionsOf program, (∀ p ∈ f.params, isPlain p.name.name = true) ∧
    ∀ ident ∈ boundByAll f.body, isPlain ident.name = true

instance (program : Program) : Decidable (Named program) :=
  inferInstanceAs (Decidable (∀ _ ∈ _, _ ∧ _))

/-! ### Names and numbers -/

theorem ne_point_of_isPlain (h : isPlain name) :
  ∀ c ∈ name.toList, c ≠ '.'
  := by
  intro c hc
  have hall := (Bool.and_eq_true_iff.mp h).1
  simpa using all_eq_true.mp hall c hc

theorem toList_slotName_succ {count : Nat} :
  (slotName name (count + 1)).toList = name.toList ++ '.' :: (count + 1).repr.toList
  := by
  change (name ++ "." ++ (count + 1).repr).toList = _
  simp

/-- What comes before the first point in the name of a slot is the name of the variable. -/
theorem takeWhile_slotName (h : isPlain name) {count : Nat} :
  (slotName name count).toList.takeWhile (· != '.') = name.toList
  := by
  have hname : name.toList.takeWhile (· != '.') = name.toList := by
    rw [takeWhile_eq_self_iff]
    intro c hc
    simpa using ne_point_of_isPlain h c hc
  cases count with
  | zero => apply hname
  | succ count =>
    rw [toList_slotName_succ, takeWhile_append_of_pos]
    · simp
    · intro c hc
      simpa using ne_point_of_isPlain h c hc

/-- The name of a slot tells the variable and the number. -/
theorem slotName_inj {count : Nat} (h : isPlain name)
    (h' : isPlain name') (heq : slotName name count = slotName name' count') :
  name = name' ∧ count = count'
  := by
  have hname : name = name' := by
    apply String.toList_injective
    rw [← takeWhile_slotName h, heq, takeWhile_slotName h']
  subst hname
  use rfl
  have hlist := congrArg String.toList heq
  cases count with
  | zero =>
    cases count' with
    | zero => rfl
    | succ count' =>
      rw [toList_slotName_succ] at hlist
      simp [slotName] at hlist
  | succ count =>
    cases count' with
    | zero =>
      rw [toList_slotName_succ] at hlist
      simp [slotName] at hlist
    | succ count' =>
      rw [toList_slotName_succ, toList_slotName_succ, append_cancel_left_eq,
        cons.injEq] at hlist
      apply Nat.repr_inj.mp
      apply String.toList_injective hlist.2

/-! ### Slots of a function -/

/-- The names of the parameters and of the slots declared so far. -/
def slotNames (env : Env) (s : State) : List String :=
  env.function.params.map (·.name) ++ s.locals.map (·.name)

/-- The name belongs to a slot of a variable that has been declared. -/
def Used (s : State) (x : String) : Prop :=
  ∃ name count last, isPlain name = true ∧ s.again.lookup name = some last ∧ count ≤ last ∧
    x = slotName name count

/-- The slots of the function have different names. -/
structure Distinct (env : Env) (s : State) : Prop where
  used : ∀ x ∈ slotNames env s, Used s x
  nodup : (slotNames env s).Nodup

/-- The names that the function binds are as they are written in a source. -/
def Env.Named (env : Env) : Prop :=
  (∀ p ∈ env.function.params, isPlain p.name = true) ∧
    (env.function.topLevel = false → ∀ name, env.Binds name → isPlain name = true)

/-- A new slot has a name that none has had before. -/
theorem not_used_newSlot (hname : isPlain name) :
  ¬ Used s (s.newSlot name)
  := by
  rintro ⟨name', count, last, hname', hlast, hcount, heq⟩
  obtain ⟨rfl, htimes⟩ := slotName_inj hname hname' heq
  simp only [times, hlast] at htimes
  omega

/-- What has been used stays used when a slot is declared, and its name is used too. -/
theorem used_withSlot (hname : isPlain ident.name) (h : Used s x ∨ x = s.newSlot ident.name) :
  Used (s.withSlot env ident ty) x
  := by
  obtain ⟨name, count, last, hplain, hlast, hcount, rfl⟩ | rfl := h
  · by_cases heq : ident.name = name
    · subst heq
      use ident.name, count, last + 1, hplain
      refine ⟨?_, Nat.le_succ_of_le hcount, rfl⟩
      simp [withSlot, times, hlast]
    · use name, count, last, hplain
      refine ⟨?_, hcount, rfl⟩
      rw [withSlot, lookup_cons_ite, if_neg (Ne.symm heq), hlast]
  · use ident.name, s.times ident.name, s.times ident.name, hname
    simp [withSlot, newSlot]

/-- With each step the slots stay distinct. -/
theorem Step.distinct (h : Step env m m') (henv : env.Named) (hm : Distinct env m.state) :
  Distinct env m'.state
  := by
  cases h with
  | @declare _ ty ident s _ hbinds htop =>
    have hname := henv.2 htop ident.name hbinds
    have hnames : slotNames env (s.withSlot env ident ty) =
        slotNames env s ++ [s.newSlot ident.name] := by
      simp [slotNames, withSlot]
    constructor
    · intro x hx
      rw [hnames, mem_append, mem_singleton] at hx
      apply used_withSlot hname
      apply hx.imp_left (hm.used x)
    · rw [hnames, nodup_append]
      use hm.nodup, nodup_singleton _
      intro x hx y hy hxy
      cases mem_singleton.mp hy
      subst hxy
      apply not_used_newSlot hname (hm.used _ hx)
  | _ => exact ⟨hm.used, hm.nodup⟩

/-- Each slot that is declared is one of a name that the function binds. -/
theorem Step.slots (h : Step env m m')
    (hm : ∀ l ∈ m.state.locals, ∃ name count, env.Binds name ∧ l.name = slotName name count) :
  ∀ l ∈ m'.state.locals, ∃ name count, env.Binds name ∧ l.name = slotName name count
  := by
  cases h with
  | @declare _ _ ident s _ hbinds _ =>
    rw [withSlot, forall_mem_append]
    use hm
    rw [forall_mem_singleton]
    use ident.name, s.times ident.name, hbinds
    rfl
  | _ => apply hm

theorem lookup_map_const {ps : List ParamPlan} (hp : p ∈ ps) :
  (ps.map fun q => (q.name, 0)).lookup p.name = some 0
  := by
  induction ps with
  | nil => cases hp
  | cons q rest ih =>
    rw [map_cons, lookup_cons_ite]
    split
    · rfl
    · rename_i hne
      obtain rfl | hp := mem_cons.mp hp
      · cases hne rfl
      · apply ih hp

/-- At the start the parameters are all slots there are. -/
theorem start_distinct {prev found : Tables} {reports : Array Diagnostic}
    (hnodup : (f.params.map (·.name)).Nodup) (hnamed : ∀ p ∈ f.params, isPlain p.name) :
  Distinct (.of plan prev index f) (.start plan prev found reports index f)
  := by
  have hnames : slotNames (.of plan prev index f) (.start plan prev found reports index f) =
      f.params.map (·.name) := by
    simp [slotNames, Env.of, start]
  constructor
  · intro x hx
    rw [hnames] at hx
    obtain ⟨p, hp, rfl⟩ := mem_map.mp hx
    use p.name, 0, 0, hnamed p hp
    refine ⟨?_, le_refl 0, rfl⟩
    apply lookup_map_const hp
  · rw [hnames]
    apply hnodup

/-- The function is one of its plan, with names as they are written in a source. -/
structure Env.Ready (env : Env) : Prop extends Env.Sound env where
  named : env.Named

/-- What holds of the state all through the check of a function. -/
structure Orderly (env : Env) (s : State) : Prop extends Arranged env s, Distinct env s where
  initial : (Tables.initial env.plan).Grows s.found

theorem Step.orderly (henv : env.Ready) (h : Step env m m') (hm : Orderly env m.state) :
  Orderly env m'.state
  where
  toArranged := h.arranged henv.toSound hm.toArranged
  toDistinct := h.distinct henv.named hm.toDistinct
  initial := hm.initial.trans h.grows

/-- With each step the types of slots grow, since a slot that is declared is a new one. -/
theorem Step.slot_grows (h : Step env m m') (henv : env.Ready) (hm : Orderly env m.state)
     (hx : Covers (m.state.found.slot? env.index x) ty) :
  Covers (m'.state.found.slot? env.index x) ty
  := by
  cases h with
  | pass _ _ htakes | assignParam _ _ _ _ _ htakes =>
    simp only [withType, htakes.sameAt.slot]
    apply hx
  | returnJoined => simpa using hx
  | @declare _ ty' ident s _ hbinds htop =>
    have hne : s.newSlot ident.name ≠ x := by
      rintro rfl
      obtain ⟨u, hu, _⟩ := hx
      apply not_used_newSlot (henv.named.2 htop ident.name hbinds)
      apply hm.used
      apply mem_append_right
      apply hm.slot _ u hu
    simpa [withSlot, Tables.slot?_setSlot, hne] using hx
  | @assignSlot _ _ _ _ symbol joined s _ _ _ hjoined =>
    rw [withType, Tables.slot?_setSlot]
    split
    · rename_i hxy
      rw [hxy.2] at hjoined
      use joined, rfl, Tables.covers_join hjoined hx
    · apply hx
  | _ => apply hx

/-- The names of a program that is named are those of its plan. -/
theorem PlansProgram.ready (h : PlansProgram program plan) (hnamed : Named program) (prev : Tables)
    (hf : plan.functions[i]? = some f) :
  (Env.of plan prev i f).Ready
  := by
  refine ⟨h.sound prev hf, ?_⟩
  obtain ⟨g, hg, hplans⟩ | hstatements := h.planned (mem_of_getElem? hf)
  · obtain ⟨hparams, hbound⟩ := hnamed g hg
    constructor
    · intro p hp
      have hmem : p.name ∈ f.params.map (·.name) := mem_map_of_mem hp
      rw [hplans.params.names] at hmem
      obtain ⟨q, hq, heq⟩ := mem_map.mp hmem
      rw [← heq]
      apply hparams q hq
    · rintro _ _ ⟨ident, hident, rfl⟩
      apply hbound
      rw [← hplans.body]
      apply hident
  · constructor
    · intro p hp
      simp [Env.of, hstatements.params] at hp
    · intro htop
      cases hstatements.topLevel.symm.trans htop

namespace CheckedIn

variable {prev : Tables} {reports : Array Diagnostic}
  (h : CheckedIn plan prev last i f g before reports s events)
  (henv : (Env.of plan prev i f).Ready)

include h henv

theorem start_orderly :
  Orderly (.of plan prev i f) (.start plan prev before reports i f)
  where
  toArranged := h.start
  toDistinct := start_distinct henv.nodup henv.named.1
  initial := h.initial

theorem orderly :
  Orderly (.of plan prev i f) s
  := h.steps.keep (Step.orderly henv) (h.start_orderly henv)

end CheckedIn

end Endmark.Typed
