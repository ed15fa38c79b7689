import Mathlib
import Endmark.Number.Radix

/-!
# Digits read back

The digits that a number is written with are read back as the number.
-/

namespace Endmark.Number

open Option

theorem digit?_digitChar (hd : d < radix) (hradix : radix ≤ 16) :
  digit? radix d.digitChar = some d
  := by
  have hvalue : ∀ d < 16, digit? 16 d.digitChar = some d := by decide
  have hd16 := hvalue d (by omega)
  rw [digit?, filter_eq_some_iff] at hd16 ⊢
  use hd16.1
  simpa using hd

theorem readDigitsFrom_append :
  readDigitsFrom radix acc (xs ++ ys) =
    (readDigitsFrom radix acc xs).bind (readDigitsFrom radix · ys)
  := by
  induction xs generalizing acc with
  | nil => rfl
  | cons c cs ih =>
    rw [List.cons_append, readDigitsFrom, readDigitsFrom]
    cases digit? radix c with
    | none => rfl
    | some d => apply ih

/-- The digits of a number spell it. -/
theorem readDigitsFrom_toDigits (hlow : 1 < radix) (hhigh : radix ≤ 16) :
  readDigitsFrom radix 0 (Nat.toDigits radix n) = some n
  := by
  induction n using Nat.strongRecOn with
  | ind n ih =>
    have hlast : ∀ d < radix, ∀ acc, readDigitsFrom radix acc [d.digitChar] =
        some (acc * radix + d) := by
      intro d hd acc
      simp [readDigitsFrom, digit?_digitChar hd hhigh]
    rw [Nat.toDigits_eq_if hlow]
    split
    · rename_i hn
      simpa using hlast n hn 0
    · have hdiv : n / radix < n := Nat.div_lt_self (by omega) hlow
      rw [readDigitsFrom_append, ih _ hdiv, bind_some,
        hlast _ (Nat.mod_lt n (by omega)), mul_comm, Nat.div_add_mod]

theorem readDigits_toDigits (hlow : 1 < radix) (hhigh : radix ≤ 16) (n : Nat) :
  readDigits radix (Nat.toDigits radix n) = some n
  := by
  rw [readDigits, if_neg (by simp), readDigitsFrom_toDigits hlow hhigh]

theorem exists_of_mem_toDigits (hlow : 1 < radix) (hc : c ∈ Nat.toDigits radix n) :
  ∃ d < radix, c = d.digitChar
  := by
  induction n using Nat.strongRecOn with
  | ind n ih =>
    rw [Nat.toDigits_eq_if hlow] at hc
    split at hc
    · rename_i hn
      use n, hn
      simpa using hc
    · obtain hc | hc := List.mem_append.mp hc
      · apply ih _ (Nat.div_lt_self (by omega) hlow) hc
      · use n % radix, Nat.mod_lt n (by omega)
        simpa using hc

/-- What a number is written with starts with a digit, and so without a sign. -/
theorem exists_toDigits_eq_cons (hlow : 1 < radix) (hhigh : radix ≤ 16) :
  ∃ c cs, Nat.toDigits radix n = c :: cs ∧ c ≠ '+' ∧ c ≠ '-'
  := by
  have hsign : ∀ d < 16, d.digitChar ≠ '+' ∧ d.digitChar ≠ '-' := by decide
  obtain ⟨c, cs, heq⟩ := List.exists_cons_of_ne_nil (Nat.toDigits_ne_nil (n := n) (b := radix))
  obtain ⟨d, hd, rfl⟩ := exists_of_mem_toDigits hlow (heq ▸ List.mem_cons_self)
  use d.digitChar, cs, heq
  apply hsign d (by omega)

theorem readUnsigned_toDigits (hlow : 1 < radix) (hhigh : radix ≤ 16) (hn : n < bound) :
  readUnsigned radix bound (Nat.toDigits radix n) = some n
  := by
  have hread := readDigits_toDigits hlow hhigh n
  obtain ⟨c, cs, heq, hplus, _⟩ := exists_toDigits_eq_cons hlow hhigh
  rw [heq] at hread ⊢
  unfold readUnsigned
  split
  · rename_i hcons
    cases hcons
    cases hplus rfl
  · dsimp only
    rw [hread]
    simpa using hn

theorem readUnsigned_lt (h : readUnsigned radix bound cs = some n) :
  n < bound
  := by
  simpa using (filter_eq_some_iff.mp h).2

/-- An integer that is written with an optional sign. -/
theorem readSigned_toString {n : Int} (hlo : lo ≤ n) (hhi : n ≤ hi) :
  readSigned 10 lo hi (toString n).toList = some n
  := by
  have hread (k : Nat) : readDigits 10 (Nat.toDigits 10 k) = some k :=
    readDigits_toDigits (by decide) (by decide) k
  rw [Int.toString_eq_repr, Int.repr_eq_if]
  split
  · rename_i hn
    rw [Nat.toList_repr]
    obtain ⟨c, cs, heq, hplus, hminus⟩ : ∃ c cs, Nat.toDigits 10 n.toNat = c :: cs ∧
        c ≠ '+' ∧ c ≠ '-' := exists_toDigits_eq_cons (by decide) (by decide)
    have hcs := hread n.toNat
    rw [heq] at hcs ⊢
    unfold readSigned
    split
    · rename_i hcons
      cases hcons
      cases hplus rfl
    · rename_i hcons
      cases hcons
      cases hminus rfl
    · rw [hcs]
      have hvalue : .ofNat n.toNat = n := Int.toNat_of_nonneg hn
      simp only [map_some, hvalue]
      simp [hlo, hhi]
  · have hvalue : -.ofNat (-n).toNat = n := by
      rw [Int.ofNat_eq_natCast, Int.toNat_of_nonneg (by omega), neg_neg]
    rw [String.toList_append, Nat.toList_repr]
    change Option.filter _ ((readDigits 10 (Nat.toDigits 10 (-n).toNat)).map _) = _
    rw [hread, map_some, hvalue]
    simp [hlo, hhi]

/-- A word that is written as a signed integer is read back. -/
theorem readInt64_toString :
  readInt64 10 (toString v.toInt).toList = some v
  := by
  have hlo : minInt64 ≤ v.toInt := Int64.le_toInt v
  have hhi : v.toInt ≤ maxInt64 := Int64.toInt_le v
  rw [readInt64, readSigned_toString hlo hhi, map_some, Int64.ofInt_toInt]

end Endmark.Number
