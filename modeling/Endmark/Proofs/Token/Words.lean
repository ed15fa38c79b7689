import Endmark.Proofs.Token.Scanning
import Endmark.Proofs.Typed.Spelling

/-!
# Words of a source

A name that is cut out is made of letters, digits and underscores, and the body of an f-string is
shorter than what it is cut out of.
-/

namespace Endmark.Token

open List
open Text (byte isDigitByte isLetterByte ofBytes)
open Typed (isIdentifier)

/-! ### Names and bodies -/

/-- A name is as names are cut out of a source, and the body of an f-string is shorter than `n`
bytes. -/
structure Word.Proper (n : Nat) (w : Word) : Prop where
  name : w.kind = .ident → isIdentifier w.text = true
  body : w.kind = .fstringLiteral → (Text.bytes w.text).length < n

theorem Word.proper_of_isFree {w : Word} (h : w.kind.isFree) (n : Nat) :
  w.Proper n
  := by
  constructor
  · intro hkind
    rw [hkind] at h
    cases h
  · intro hkind
    rw [hkind] at h
    cases h

/-- Bytes that may stand in a name are a name. -/
theorem isIdentifier_ofBytes (hb : isNameStart b) (hrest : ∀ x ∈ rest, isNamePart x) :
  isIdentifier (ofBytes (b :: rest))
  := by
  have hstart : ∀ x : UInt8, isNameStart x → x < 0x80 ∧
      ((Text.char x).isAlpha || Text.char x == '_') := by
    decide +kernel
  have hpart : ∀ x : UInt8, isNamePart x → x < 0x80 ∧
      ((Text.char x).isAlphanum || Text.char x == '_') := by
    decide +kernel
  have hall : ∀ x ∈ b :: rest, isNamePart x := by
    intro x hx
    obtain rfl | hx := mem_cons.mp hx
    · rw [isNamePart, hb, Bool.true_or]
    · exact hrest x hx
  rw [Text.ofBytes_ascii fun x hx => (hpart x (hall x hx)).1, isIdentifier, String.toList_ofList,
    Bool.and_eq_true, all_eq_true]
  constructor
  · exact (hstart b hb).2
  · intro c hc
    obtain ⟨x, hx, rfl⟩ := mem_map.mp hc
    exact (hpart x (hall x hx)).2

theorem Shape.proper {kind : Kind} (h : Shape r bytes kind lead trail) :
  (Piece.word ⟨gap, bytes, kind, lead, trail⟩).Proper bytes.length
  := by
  cases h with
  | name hb ht =>
    refine ⟨fun _ => ?_, by rintro ⟨⟩⟩
    rw [Piece.word, Nat.sub_zero, take_length]
    exact isIdentifier_ofBytes hb ht
  | fixed _ hkind => exact Word.proper_of_isFree (Bool.and_eq_true_iff.mp hkind).2 _
  | character => exact Word.proper_of_isFree rfl _
  | quoted _ _ hkind =>
    rcases hkind with rfl | rfl
    · exact Word.proper_of_isFree rfl _
    · refine ⟨by rintro ⟨⟩, fun _ => ?_⟩
      apply lt_of_le_of_lt Text.length_bytes_ofBytes_le
      simp
      omega

theorem Word.Proper.mono {w : Word} (h : w.Proper n) (hn : n ≤ n') :
  w.Proper n'
  := ⟨h.name, fun hkind => lt_of_lt_of_le (h.body hkind) hn⟩

/-- All names and bodies that are cut out are proper. -/
theorem Cut.proper {raw : Bool} (h : Cut raw ahead pieces last) :
  ∀ p ∈ pieces, p.word.Proper ahead.length
  := by
  induction h with
  | finish => simp
  | token _ _ hlexeme _ ih =>
    rw [forall_mem_cons]
    exact ⟨((shape_of_lexemeAt hlexeme).proper).mono (by simp; omega),
      fun p hp => (ih p hp).mono (by simp; omega)⟩
  | raw _ _ _ ih =>
    rw [forall_mem_append]
    refine ⟨fun p hp => Word.proper_of_isFree ?_ _, fun p hp => (ih p hp).mono (by simp; omega)⟩
    simp only [rawPieces, mem_cons, not_mem_nil, or_false] at hp
    rcases hp with rfl | rfl | rfl <;> rfl

end Endmark.Token
