import Endmark.Proofs.Typed.Passes
import Endmark.Proofs.Typed.Tables

/-!
# What is found grows

In the course of a pass the types of parameters, results and globals only grow, and the
result and slots of a function change only while it is checked.
-/

namespace Endmark.Typed

open Tables
open List

/-- There is a type, and it lies above the given one. -/
def Covers (held : Option Ty) (ty : Ty) : Prop :=
  ∃ u, held = some u ∧ u.fits ty = true

theorem covers_self (h : held = some ty) :
  Covers held ty
  := ⟨ty, h, ty.fits_self⟩

/-- The types of parameters, results and globals in `t'` lie above those in `t`. -/
structure Tables.Grows (t t' : Tables) : Prop where
  length : t'.functions.length = t.functions.length
  arity : ∀ i, (t'.function i).params.length = (t.function i).params.length
  param : ∀ i k ty, Covers (t.param? i k) ty → Covers (t'.param? i k) ty
  result : ∀ i, (t'.function i).result.fits (t.function i).result = true
  global : ∀ x ty, Covers (t.global? x) ty → Covers (t'.global? x) ty

/-- The result and the slots of a function are the same in both tables. -/
structure Tables.SameAt (i : Nat) (t t' : Tables) : Prop where
  result : (t'.function i).result = (t.function i).result
  slot : ∀ x, t'.slot? i x = t.slot? i x

variable {prev : Tables}

namespace Tables

theorem Grows.refl {t : Tables} :
  t.Grows t
  := ⟨rfl, fun _ => rfl, fun _ _ _ => id, fun _ => Ty.fits_self _, fun _ _ => id⟩

variable {t : Tables}

/-- Growth in turn. -/
theorem Grows.trans (h : t.Grows t') (h' : t'.Grows t'') :
  t.Grows t''
  := by
  constructor
  · rw [h'.length, h.length]
  · intro i
    rw [h'.arity, h.arity]
  · intro i k ty hty
    apply h'.param i k ty (h.param i k ty hty)
  · intro i
    apply Ty.fits_trans (h'.result i) (h.result i)
  · intro x ty hty
    apply h'.global x ty (h.global x ty hty)

theorem SameAt.refl :
  SameAt i t t
  := ⟨rfl, fun _ => rfl⟩

theorem SameAt.trans (h : SameAt i t t') (h' : SameAt i t' t'') :
  SameAt i t t''
  := ⟨h'.result.trans h.result, fun x => (h'.slot x).trans (h.slot x)⟩

@[simp]
theorem length_setParam (t : Tables) (i k : Nat) (ty : Ty) :
  (t.setParam i k ty).functions.length = t.functions.length
  := length_modify _ _ _

@[simp]
theorem length_setResult (t : Tables) (i : Nat) (ty : Ty) :
  (t.setResult i ty).functions.length = t.functions.length
  := length_modify _ _ _

@[simp]
theorem length_setSlot :
  (t.setSlot i name ty).functions.length = t.functions.length
  := length_modify _ _ _

/-- What is joined to a type lies above what lay below that. -/
theorem covers_join (h : (held.getD .unknown).join ty = some joined) (hu : Covers held u) :
  joined.fits u
  := by
  obtain ⟨v, rfl, hfits⟩ := hu
  apply Ty.fits_trans (Ty.fits_of_join h).1 hfits

/-- A parameter grows when a type is joined to what is found of it. -/
theorem grows_setParam (h : ((t.param? i k).getD .unknown).join ty = some joined) :
  t.Grows (t.setParam i k joined)
  := by
  constructor
  · simp
  · intro j
    rw [setParam, function_modify]
    split
    · apply length_set
    · rfl
  · intro j l u hu
    rw [param?_setParam]
    split
    · rename_i hjl
      obtain ⟨rfl, rfl⟩ := hjl
      obtain ⟨v, hv, _⟩ := id hu
      use joined, by rw [hv, Option.map_some], covers_join h hu
    · apply hu
  · simp
  · exact fun _ _ => id

/-- A result grows when a type is joined to what is found of it. -/
theorem grows_setResult (h : (t.function i).result.join ty = some joined) :
  t.Grows (t.setResult i joined)
  := by
  constructor
  · simp
  · intro j
    rw [setResult, function_modify]
    split <;> rfl
  · simp
  · intro j
    rw [result_setResult]
    split
    · rename_i hj
      obtain ⟨rfl, _⟩ := hj
      apply (Ty.fits_of_join h).1
    · apply Ty.fits_self
  · exact fun _ _ => id

theorem grows_setSlot :
  t.Grows (t.setSlot i name ty)
  := by
  constructor
  · simp
  · intro j
    rw [setSlot, function_modify]
    split <;> rfl
  · simp
  · simp
  · exact fun _ _ => id

/-- A global grows when a type is joined to what is found of it. -/
theorem grows_setGlobal (h : ((t.global? name).getD .unknown).join ty = some joined) :
  t.Grows (t.setGlobal name joined)
  := by
  constructor
  · rfl
  · intro j
    rfl
  · exact fun _ _ _ => id
  · simp
  · intro x u hu
    rw [global?_setGlobal]
    split
    · rename_i hx
      subst hx
      use joined, rfl, covers_join h hu
    · apply hu

theorem Takes.grows (h : t.Takes target k declared ty t') :
  t.Grows t'
  := by
  cases declared with
  | none =>
    obtain ⟨joined, hjoined, rfl⟩ := h
    apply grows_setParam hjoined
  | some declared =>
    obtain ⟨_, rfl⟩ := h
    apply Grows.refl

theorem Takes.sameAt (h : t.Takes target k declared ty t') :
  SameAt i t t'
  := by
  cases declared with
  | none =>
    obtain ⟨joined, _, rfl⟩ := h
    exact ⟨by simp, by simp⟩
  | some declared =>
    obtain ⟨_, rfl⟩ := h
    apply SameAt.refl

end Tables

/-! ### Steps -/

/-- What is found grows with each step. -/
theorem Step.grows (h : Step env m m') :
  m.state.found.Grows m'.state.found
  := by
  cases h with
  | pass _ _ htakes | assignParam _ _ _ _ _ htakes => apply htakes.grows
  | returnJoined _ _ hjoined => apply grows_setResult hjoined
  | declare | assignSlot => apply grows_setSlot
  | assignGlobal _ _ _ _ hjoined => apply grows_setGlobal hjoined
  | _ => apply Grows.refl

theorem Steps.grows (h : Steps env m m') :
  m.state.found.Grows m'.state.found
  := by
  induction h with
  | refl => apply Grows.refl
  | tail _ h ih => apply ih.trans h.grows

/-- A step leaves the results and slots of all other functions as they are. -/
theorem Step.sameAt (h : Step env m m') (hi : i ≠ env.index) :
  SameAt i m.state.found m'.state.found
  := by
  cases h with
  | pass _ _ htakes | assignParam _ _ _ _ _ htakes => apply htakes.sameAt
  | returnJoined | declare | assignSlot | assignGlobal =>
    constructor <;>
      simp [State.withSlot, State.withType, State.withGlobal, result_setResult,
        slot?_setSlot, hi.symm]
  | _ => apply SameAt.refl

theorem Steps.sameAt (h : Steps env m m') (hi : i ≠ env.index) :
  SameAt i m.state.found m'.state.found
  := by
  induction h with
  | refl => apply SameAt.refl
  | tail _ h ih => apply ih.trans (h.sameAt hi)

/-! ### Passes -/

theorem FunctionChecked.grows (h : FunctionChecked plan prev index f found g found') :
  found.Grows found' ∧ ∀ i, i ≠ index → SameAt i found found'
  := by
  obtain ⟨reports, s, events, hsteps, _, _, rfl⟩ := h
  constructor
  · apply hsteps.grows
  · intro i hi
    apply hsteps.sameAt hi

/-- Checking functions lets the tables grow, at their own places only. -/
theorem Checked.grows (h : Checked plan prev index fs found gs found') :
  found.Grows found' ∧ ∀ i, i < index → SameAt i found found'
  := by
  induction h with
  | nil index found =>
    use .refl
    intro i _
    apply SameAt.refl
  | cons hfirst _ ih =>
    obtain ⟨hgrows, hsame⟩ := hfirst.grows
    use hgrows.trans ih.1
    intro i hi
    apply (hsame i (ne_of_lt hi)).trans
    apply ih.2 i (Nat.lt_succ_of_lt hi)

/-- Each function is checked on its own, between the tables at the start and in the end, and
its result and slots change only then. -/
theorem Checked.function (h : Checked plan prev index fs found gs found') (hf : fs[j]? = some f) :
  ∃ g before after, gs[j]? = some g ∧
    FunctionChecked plan prev (index + j) f before g after ∧
    found.Grows before ∧ after.Grows found' ∧ SameAt (index + j) found before ∧
    SameAt (index + j) after found'
  := by
  induction h generalizing j with
  | nil index found => simp at hf
  | @cons index f' rest found middle last g others hfirst hrest ih =>
    cases j with
    | zero =>
      cases hf
      use g, found, middle, rfl, hfirst, .refl, hrest.grows.1, .refl
      apply hrest.grows.2
      apply Nat.lt_succ_self
    | succ j =>
      obtain ⟨g, before, after, hg, hchecked, hbefore, hafter, hsame, hsame'⟩ := ih hf
      rw [add_right_comm] at hchecked hsame hsame'
      obtain ⟨hgrows, hkeep⟩ := hfirst.grows
      use g, before, after, hg, hchecked, hgrows.trans hbefore, hafter
      constructor
      · apply (hkeep _ _).trans hsame
        omega
      · apply hsame'

/-- There are as many checked functions as planned ones. -/
theorem Checked.length (h : Checked plan prev index fs found gs found') :
  gs.length = fs.length
  := by
  induction h with
  | nil => rfl
  | cons _ _ ih => rw [length_cons, length_cons, ih]

end Endmark.Typed
