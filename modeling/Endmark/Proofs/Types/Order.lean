import Mathlib
import Endmark.Types.Basic

/-!
# The order of types

A type `t` lies above a type `v` when `t.fits v`.  This is an order with the unknown type
below and the type of faults above all others, and a list, or a function, lies above another
just when its parts do.  The join of two types lies above both.
-/

namespace Endmark.Ty

open Option

/-! ### What lies below a type -/

@[simp]
theorem join_error_left :
  join .error b = some .error
  := by
  cases b <;> rfl

@[simp]
theorem join_unknown_left :
  join .unknown b = some b
  := by
  cases b <;> rfl

@[simp]
theorem join_unknown_right :
  join a .unknown = some a
  := by
  cases a <;> rfl

@[simp]
theorem join_list :
  join (.list a) (.list b) = (join a b).map .list
  := rfl

/-- The type of a function is joined with another by parameters and results. -/
theorem join_function_eq_some :
  join (.function ps r) (.function qs s) = some c ↔
    ∃ ts u, joinAll ps qs = some ts ∧ join r s = some u ∧ c = .function ts u
  := by
  simp only [join]
  constructor
  · intro h
    split at h
    · rename_i ts u hp hr
      use ts, u, hp, hr
      apply (some.inj h).symm
    · cases h
  · rintro ⟨ts, u, hp, hr, rfl⟩
    rw [hp, hr]

/-- Lists of types are joined item by item. -/
theorem joinAll_cons_eq_some :
  joinAll (a :: as) (b :: bs) = some cs ↔
    ∃ t ts, join a b = some t ∧ joinAll as bs = some ts ∧ cs = t :: ts
  := by
  simp only [joinAll]
  constructor
  · intro h
    split at h
    · rename_i t ts ht hts
      use t, ts, ht, hts
      apply (some.inj h).symm
    · cases h
  · rintro ⟨t, ts, ht, hts, rfl⟩
    rw [ht, hts]

/-- A type lies above another when joining the other to it leaves it as it is. -/
theorem fits_iff {t : Ty} :
  t.fits v ↔ t.join v = some t
  := by
  simp [fits]

/-- The type of faults lies above all types. -/
@[simp]
theorem error_fits :
  error.fits v
  := by
  simp [fits]

/-- The unknown type lies below all types. -/
@[simp]
theorem fits_unknown {t : Ty} :
  t.fits .unknown
  := by
  simp [fits]

/-- Only the unknown type lies below the unknown type. -/
theorem unknown_fits_iff :
  unknown.fits v ↔ v = .unknown
  := by
  simp [fits_iff]

/-- Below the type of a list are the unknown type and the types of lists of what lies below
the items. -/
theorem list_fits_iff :
  (list t).fits v ↔ v = .unknown ∨ ∃ u, v = .list u ∧ t.fits u
  := by
  rw [fits_iff]
  cases v with
  | list u => simp [fits_iff]
  | _ => simp [join]

/-- Below the type of a function are the unknown type and the types of functions whose
parameters and results lie below its own. -/
theorem function_fits_iff :
  (function ps r).fits v ↔ v = .unknown ∨
    ∃ qs s, v = .function qs s ∧ joinAll ps qs = some ps ∧ r.fits s
  := by
  rw [fits_iff]
  cases v with
  | function qs s => simp [join_function_eq_some, fits_iff]
  | _ => simp [join]

/-- Has the type no parts, and is it neither the least nor the greatest one? -/
def isBasic : Ty → Bool
  | .int | .float | .bool | .str => true
  | _ => false

/-- Below a basic type are the unknown type and itself. -/
theorem fits_iff_of_isBasic {t : Ty} (h : t.isBasic) :
  t.fits v ↔ v = .unknown ∨ v = t
  := by
  rw [fits_iff]
  cases t <;> cases v <;> simp_all [isBasic, join]

/-! ### The laws of an order -/

mutual

/-- Joined with itself a type stays as it is. -/
theorem join_self : ∀ t : Ty, t.join t = some t
  | .list t => by simp [join_self t]
  | .function ps r => by simp [join, joinAll_self ps, join_self r]
  | .int | .float | .bool | .str | .unknown | .error => by simp [join]

/-- Joined with themselves types stay as they are. -/
theorem joinAll_self : ∀ ts : List Ty, joinAll ts ts = some ts
  | [] => rfl
  | t :: ts => by simp [joinAll, join_self t, joinAll_self ts]

end

/-- Every type lies above itself. -/
@[simp]
theorem fits_self (t : Ty) :
  t.fits t
  := fits_iff.mpr (join_self t)

mutual

/-- What lies above a type lies above all that lie below that. -/
theorem fits_trans : ∀ {c b a : Ty}, c.fits b → b.fits a → c.fits a
  | .error, _, _, _, _ => error_fits
  | .unknown, _, _, hcb, hba => by
    rw [unknown_fits_iff] at hcb
    subst hcb
    apply hba
  | .list c, _, _, hcb, hba => by
    obtain rfl | ⟨b, rfl, hb⟩ := list_fits_iff.mp hcb
    · rw [unknown_fits_iff.mp hba]
      apply fits_unknown
    · obtain rfl | ⟨a, rfl, ha⟩ := list_fits_iff.mp hba
      · apply fits_unknown
      · apply list_fits_iff.mpr
        right
        use a, rfl
        apply fits_trans hb ha
  | .function ps r, _, _, hcb, hba => by
    obtain rfl | ⟨qs, s, rfl, hpq, hrs⟩ := function_fits_iff.mp hcb
    · rw [unknown_fits_iff.mp hba]
      apply fits_unknown
    · obtain rfl | ⟨os, u, rfl, hqo, hsu⟩ := function_fits_iff.mp hba
      · apply fits_unknown
      · apply function_fits_iff.mpr
        right
        use os, u, rfl, joinAll_trans hpq hqo
        apply fits_trans hrs hsu
  | .int, _, _, hcb, hba | .float, _, _, hcb, hba | .bool, _, _, hcb, hba
  | .str, _, _, hcb, hba => by
    obtain rfl | rfl := (fits_iff_of_isBasic rfl).mp hcb
    · rw [unknown_fits_iff.mp hba]
      apply fits_unknown
    · apply hba

/-- Types that lie above types one by one lie above all that lie below those. -/
theorem joinAll_trans :
    ∀ {ps qs os : List Ty}, joinAll ps qs = some ps → joinAll qs os = some qs →
      joinAll ps os = some ps
  | [], [], [], _, _ => rfl
  | [], [], _ :: _, _, h | [], _ :: _, _, h, _ | _ :: _, [], _, h, _ | _ :: _, _ :: _, [], _, h => by
    cases h
  | p :: ps, q :: qs, o :: os, hpq, hqo => by
    obtain ⟨_, _, hp, hps, h⟩ := joinAll_cons_eq_some.mp hpq
    cases h
    obtain ⟨_, _, hq, hqs, h⟩ := joinAll_cons_eq_some.mp hqo
    cases h
    apply joinAll_cons_eq_some.mpr
    use p, ps, fits_iff.mp (fits_trans (fits_iff.mpr hp) (fits_iff.mpr hq)),
      joinAll_trans hps hqs

end

mutual

/-- A join lies above what is joined. -/
theorem fits_of_join : ∀ {a b c : Ty}, a.join b = some c → c.fits a ∧ c.fits b
  | .error, _, _, h => by
    rw [join_error_left] at h
    cases h
    simp
  | .unknown, _, _, h => by
    rw [join_unknown_left] at h
    cases h
    simp
  | .list a, b, c, h => by
    cases b with
    | list b =>
      obtain ⟨u, hu, rfl⟩ := map_eq_some_iff.mp h
      obtain ⟨ha, hb⟩ := fits_of_join hu
      constructor
      · apply list_fits_iff.mpr (.inr ⟨a, rfl, ha⟩)
      · apply list_fits_iff.mpr (.inr ⟨b, rfl, hb⟩)
    | error | unknown =>
      simp only [join, some.injEq] at h
      simp [← h]
    | _ => simp [join] at h
  | .function ps r, b, c, h => by
    cases b with
    | function qs s =>
      obtain ⟨ts, u, hts, hu, rfl⟩ := join_function_eq_some.mp h
      obtain ⟨hps, hqs⟩ := joinAll_of_joinAll hts
      obtain ⟨hr, hs⟩ := fits_of_join hu
      constructor
      · apply function_fits_iff.mpr (.inr ⟨ps, r, rfl, hps, hr⟩)
      · apply function_fits_iff.mpr (.inr ⟨qs, s, rfl, hqs, hs⟩)
    | error | unknown =>
      simp only [join, some.injEq] at h
      simp [← h]
    | _ => simp [join] at h
  | .int, b, c, h | .float, b, c, h | .bool, b, c, h | .str, b, c, h => by
    cases b <;> simp [join] at h <;> simp [← h]

/-- Joins of types lie above those one by one. -/
theorem joinAll_of_joinAll :
    ∀ {as bs cs : List Ty}, joinAll as bs = some cs →
      joinAll cs as = some cs ∧ joinAll cs bs = some cs
  | [], [], _, h => by
    cases h
    exact ⟨rfl, rfl⟩
  | [], _ :: _, _, h | _ :: _, [], _, h => by cases h
  | a :: as, b :: bs, _, h => by
    obtain ⟨t, ts, ht, hts, rfl⟩ := joinAll_cons_eq_some.mp h
    obtain ⟨ha, hb⟩ := fits_of_join ht
    obtain ⟨has, hbs⟩ := joinAll_of_joinAll hts
    constructor
    · apply joinAll_cons_eq_some.mpr ⟨t, ts, fits_iff.mp ha, has, rfl⟩
    · apply joinAll_cons_eq_some.mpr ⟨t, ts, fits_iff.mp hb, hbs, rfl⟩

end

/-! ### Types without faults -/

mutual

/-- Is the type of faults no part of the type? -/
def isWhole : Ty → Bool
  | .error => false
  | .list item => item.isWhole
  | .function params result => allWhole params && result.isWhole
  | _ => true

/-- Is the type of faults no part of the types? -/
def allWhole : List Ty → Bool
  | [] => true
  | t :: ts => t.isWhole && allWhole ts

end

end Endmark.Ty
