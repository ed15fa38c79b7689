import Mathlib
import Endmark.Text.Blank

/-!
# Pieces between separators

The pieces of a text are its longest parts without a separator: each has a separator, or an end of
the text, on either side.
-/

namespace Endmark.Text

open List Bool

theorem pieces_ne_nil (sep : Char → Bool) (cs : List Char) :
  pieces sep cs ≠ []
  := by
  fun_cases pieces sep cs <;> simp_all

/-- A separator ends the pieces before it. -/
theorem pieces_append (hc : sep c) :
  pieces sep (cs ++ c :: rest) = pieces sep cs ++ pieces sep rest
  := by
  induction cs with
  | nil => simp [pieces, hc]
  | cons d cs ih =>
    obtain ⟨piece, others, hpieces⟩ := exists_cons_of_ne_nil (pieces_ne_nil sep cs)
    rw [cons_append, pieces, pieces, ih, hpieces]
    split <;> rfl

theorem pieces_eq_self (h : cs.all (!sep ·)) :
  pieces sep cs = [cs]
  := by
  induction cs with
  | nil => rfl
  | cons c cs ih =>
    rw [all_cons, and_eq_true, not_eq_true'] at h
    rw [pieces, ih h.2, h.1]
    rfl

/-- A part of a text that goes up to separators, or to the ends, on both sides. -/
structure IsPiece (sep : Char → Bool) (before piece after : List Char) : Prop where
  inside : piece.all (!sep ·) = true
  left : before.getLast?.all sep = true
  right : after.head?.all sep = true

theorem IsPiece.mem {after : List Char} (h : IsPiece sep before piece after) :
  piece ∈ pieces sep (before ++ piece ++ after)
  := by
  have hfront : piece ∈ pieces sep (before ++ piece) := by
    rcases before.eq_nil_or_concat with rfl | ⟨rest, c, rfl⟩
    · simp [pieces_eq_self h.inside]
    · have hc : sep c := by simpa using h.left
      rw [concat_append, pieces_append hc, pieces_eq_self h.inside]
      simp
  cases after with
  | nil => rwa [append_nil]
  | cons c rest =>
    have hc : sep c := by exact h.right
    rw [pieces_append hc]
    exact mem_append_left _ hfront

/-- Where a piece stands: behind a separator, or at the start if it is the first one. -/
theorem exists_isPiece (h : pieces sep cs = first ++ piece :: rest) :
  ∃ before after, cs = before ++ piece ++ after ∧ IsPiece sep before piece after ∧
    (first = [] ↔ before = [])
  := by
  induction cs generalizing first piece with
  | nil =>
    obtain ⟨rfl, rfl, rfl⟩ : first = [] ∧ piece = [] ∧ rest = [] := by
      cases first <;> simp_all [pieces]
    exact ⟨[], [], rfl, ⟨rfl, rfl, rfl⟩, by simp⟩
  | cons c cs ih =>
    rw [pieces] at h
    split at h
    case isTrue hc =>
      cases first with
      | nil =>
        cases h
        exact ⟨[], c :: cs, rfl, ⟨rfl, rfl, hc⟩, by simp⟩
      | cons _ first =>
        obtain ⟨before, after, rfl, hpiece, -⟩ := ih (cons.inj h).2
        refine ⟨c :: before, after, rfl, ⟨hpiece.inside, ?_, hpiece.right⟩, by simp⟩
        rw [getLast?_cons]
        cases hlast : before.getLast? with
        | none => exact hc
        | some d => simpa [hlast] using hpiece.left
    case isFalse hc =>
      obtain ⟨head, others, hpieces⟩ := exists_cons_of_ne_nil (pieces_ne_nil sep cs)
      simp only [hpieces] at h
      cases first with
      | nil =>
        cases h
        obtain ⟨before, after, rfl, hpiece, hbefore⟩ :=
          ih (show pieces sep cs = [] ++ head :: rest from hpieces)
        cases hbefore.mp rfl
        refine ⟨[], after, rfl, ⟨?_, rfl, hpiece.right⟩, by simp⟩
        simpa [hc] using hpiece.inside
      | cons _ first =>
        have hothers : pieces sep cs = (head :: first) ++ piece :: rest := by
          rw [hpieces, (cons.inj h).2]
          rfl
        obtain ⟨before, after, rfl, hpiece, hbefore⟩ := ih hothers
        obtain ⟨d, before, rfl⟩ := exists_cons_of_ne_nil (mt hbefore.mpr (by simp))
        exact ⟨c :: d :: before, after, rfl,
          ⟨hpiece.inside, by exact hpiece.left, hpiece.right⟩,
          by simp⟩

theorem mem_pieces :
  piece ∈ pieces sep cs ↔
    ∃ before after, cs = before ++ piece ++ after ∧ IsPiece sep before piece after
  := by
  constructor
  · intro h
    obtain ⟨first, rest, h⟩ := append_of_mem h
    obtain ⟨before, after, heq, hpiece, -⟩ := exists_isPiece h
    exact ⟨before, after, heq, hpiece⟩
  · rintro ⟨before, after, rfl, h⟩
    exact h.mem

end Endmark.Text
