import Endmark.Machine.Reader
import Endmark.Proofs.Text.Pieces

/-!
# Listings

Instructions are written one on a line.  A listing is read line by line, so that one line which is
refused is enough to refuse it; the least number of 64 bits makes such a line.
-/

namespace Endmark.Machine.Asm

open List
open Text (pieces_append pieces_eq_self)

/-- Instructions as they are written, each on a line. -/
def listing (is : List (Inst String)) : String :=
  "\n".intercalate (is.map Inst.render)

/-- A part of a text between separators is one of its pieces. -/
theorem mem_pieces_intercalate (hc : sep c) (hpart : part.all (!sep ·)) (h : part ∈ parts) :
  part ∈ Text.pieces sep ([c].intercalate parts)
  := by
  induction parts with
  | nil => cases h
  | cons first parts ih =>
    cases parts with
    | nil =>
      cases mem_singleton.mp h
      simp [pieces_eq_self hpart]
    | cons next parts =>
      rw [intercalate_cons_of_ne_nil (by simp), append_assoc, singleton_append,
        pieces_append hc, mem_append]
      obtain rfl | h := mem_cons.mp h
      · simp [pieces_eq_self hpart]
      · right
        exact ih h

/-- A piece that is not empty and has no return at its end is a line. -/
theorem mem_lines (h : line ∈ Text.pieces (· == '\n') cs) (hne : line ≠ [])
    (hreturn : '\r' ∉ line) :
  line ∈ Text.lines cs
  := by
  have hkept : Text.dropReturn line = line := by
    unfold Text.dropReturn
    split
    · next heq =>
        have hmem : '\r' ∈ line.reverse := by simp [heq]
        cases hreturn (mem_reverse.mp hmem)
    · rfl
  rw [← mem_reverse] at h
  unfold Text.lines
  split
  · next hnil => simp [hnil] at h
  · next last closed hpieces =>
      rw [hpieces, mem_cons] at h
      rw [mem_reverse]
      obtain rfl | h := h
      · simp [hne]
      · have hclosed : line ∈ closed.map Text.dropReturn := mem_map.mpr ⟨line, h, hkept⟩
        split
        · exact hclosed
        · exact mem_cons_of_mem _ hclosed

/-- Lines one of which is refused are refused. -/
theorem readLines_error (hline : (readLine line).isOk = false) (h : line ∈ lines) (n : Nat) :
  ∃ number fault, readLines n lines = .error (number, fault)
  := by
  induction lines generalizing n with
  | nil => cases h
  | cons first lines ih =>
    rw [readLines]
    cases hfirst : readLine first with
    | error fault => exact ⟨n, fault, rfl⟩
    | ok is =>
      obtain rfl | h := mem_cons.mp h
      · rw [hfirst] at hline
        cases hline
      · obtain ⟨number, fault, hrest⟩ := ih h (n + 1)
        refine ⟨number, fault, ?_⟩
        rw [hrest]
        rfl

theorem readLine_least (d : Reg) :
  (readLine (.movImm d .minValue : Inst String).render.toList).isOk = false
  := by
  cases d <;> decide +kernel

/-- A listing in which the least number is moved somewhere is refused, whatever else it has. -/
theorem listing_refused {is : List (Inst String)} {d : Reg}
    (h : .movImm d Int64.minValue ∈ is) :
  ∃ number fault, read (listing is) = .error (number, fault)
  := by
  refine readLines_error (readLine_least d) (mem_lines ?_ ?_ ?_) 1
  · rw [listing, String.toList_intercalate, List.map_map]
    refine mem_pieces_intercalate rfl ?_ (List.mem_map_of_mem h)
    cases d <;> decide +kernel
  · cases d <;> decide +kernel
  · cases d <;> decide +kernel

theorem leastAndReturn_refused :
  ∃ number fault, read (listing [.movImm .rax Int64.minValue, .ret]) = .error (number, fault)
  := listing_refused List.mem_cons_self

/-- Written with its bits the number is read, but not written so again. -/
theorem least_not_read_back :
  read "mov rax, 0x8000000000000000" = .ok [.movImm .rax Int64.minValue] ∧
    (read (listing [.movImm .rax Int64.minValue])).isOk = false
  := by
  decide +kernel

end Endmark.Machine.Asm
