import Mathlib

/-!
# Lists of names with values, and results

The value of a name is that of its first entry.  When no name has two entries, the order of
the entries does not matter.
-/

namespace Endmark

open List Option

variable {α : Type} {entries : List (String × α)}

/-- What goes through does so step by step. -/
theorem of_bind_ok {ε : Type} {x : Except ε α} {f : α → Except ε β} (h : x >>= f = .ok b) :
  ∃ a, x = .ok a ∧ f a = .ok b
  := by
  cases x with
  | error e => cases h
  | ok a => exact ⟨a, rfl, h⟩

theorem lookup_cons_ite :
  ((y, a) :: entries).lookup x = if x = y then some a else entries.lookup x
  := by
  by_cases h : x = y
  · subst h
    simp
  · rw [lookup_cons, beq_false_of_ne h, if_neg h]

theorem mem_of_lookup_eq_some (h : entries.lookup x = some a) :
  (x, a) ∈ entries
  := by
  obtain ⟨before, after, rfl, _⟩ := lookup_eq_some_iff.mp h
  apply mem_append_right _ mem_cons_self

theorem lookup_eq_some_of_mem (hnodup : (entries.map (·.1)).Nodup) (h : (x, a) ∈ entries) :
  entries.lookup x = some a
  := by
  induction entries with
  | nil => cases h
  | cons entry rest ih =>
    obtain ⟨hy, hrest⟩ := nodup_cons.mp hnodup
    rw [lookup_cons_ite]
    obtain heq | hmem := mem_cons.mp h
    · cases heq
      rw [if_pos rfl]
    · rw [if_neg, ih hrest hmem]
      rintro rfl
      apply hy (mem_map.mpr ⟨_, hmem, rfl⟩)

theorem exists_lookup_iff :
  (∃ a, entries.lookup x = some a) ↔ x ∈ entries.map (·.1)
  := by
  constructor
  · rintro ⟨a, h⟩
    apply mem_map_of_mem (mem_of_lookup_eq_some h)
  · intro h
    obtain ⟨entry, hentry, rfl⟩ := mem_map.mp h
    rw [← isSome_iff_exists, lookup_isSome_iff]
    use entry, hentry, beq_self_eq_true _

theorem lookup_eq_none_iff_notMem :
  entries.lookup x = none ↔ x ∉ entries.map (·.1)
  := by
  rw [← exists_lookup_iff, ← isSome_iff_exists, not_isSome_iff_eq_none]

end Endmark
