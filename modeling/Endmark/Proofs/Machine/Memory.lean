import Mathlib
import Endmark.Machine.State

/-!
# Words in memory

In lawful memory a byte that is stored is found again and the others stay.  From this the same
follows for words, as long as they do not overlap.
-/

namespace Endmark.Machine

open UInt64
open List

/-! ### Words and their bytes -/

theorem shiftRight_shiftLeft_or {v : UInt64} :
  (v >>> 8) <<< 8 ||| v.toUInt8.toUInt64 = v
  := by
  apply UInt64.eq_of_toBitVec_eq
  simp only [UInt64.toBitVec_or, UInt8.toBitVec_toUInt64]
  ext i hi
  by_cases h : i < 8
  · simp [h, BitVec.getLsbD_eq_getElem hi]
  · have hback : 8 + (i - 8) = i := by omega
    simp [h, hback, BitVec.getLsbD_eq_getElem hi]

theorem shiftRight_shiftRight (a : UInt64) (h : a.toNat + 8 = b.toNat) (hb : b.toNat < 64) :
  v >>> a >>> 8 = v >>> b
  := by
  rw [← UInt64.toNat_inj, UInt64.toNat_shiftRight, UInt64.toNat_shiftRight,
    UInt64.toNat_shiftRight, Nat.mod_eq_of_lt (by omega),
    Nat.mod_eq_of_lt hb, ← h]
  rfl

theorem shiftRight_eq_zero {v : UInt64} :
  v >>> 56 >>> 8 = 0
  := by
  rw [← UInt64.toNat_inj]
  have := v.toNat_lt
  simp
  omega

/-- A word is read back from its bytes. -/
theorem wordOfBytes_wordBytes :
  wordOfBytes (wordBytes v) = v
  := by
  simp only [wordBytes, wordOfBytes, foldr_cons, foldr_nil]
  rw [← shiftRight_eq_zero, shiftRight_shiftLeft_or,
    ← shiftRight_shiftRight 48 rfl (by decide), shiftRight_shiftLeft_or,
    ← shiftRight_shiftRight 40 rfl (by decide), shiftRight_shiftLeft_or,
    ← shiftRight_shiftRight 32 rfl (by decide), shiftRight_shiftLeft_or,
    ← shiftRight_shiftRight 24 rfl (by decide), shiftRight_shiftLeft_or,
    ← shiftRight_shiftRight 16 rfl (by decide), shiftRight_shiftLeft_or,
    ← shiftRight_shiftRight 8 rfl (by decide), shiftRight_shiftLeft_or,
    shiftRight_shiftLeft_or]

/-! ### Lawful memory -/

namespace Memory

/-- Any byte can be stored at the address. -/
def Writable {μ : Type} [Memory μ] (m : μ) (a : UInt64) : Prop :=
  ∀ b, ∃ m', store? m a b = some m'

/-- Memory that works byte by byte, each apart from the others. -/
class Lawful (μ : Type) [Memory μ] : Prop where
  load?_store? : ∀ {m m' : μ} {a : UInt64} {b : UInt8}, store? m a b = some m' →
    ∀ a', load? m' a' = if a' = a then some b else load? m a'
  /-- What is stored does not matter to what can be stored. -/
  writable_store? : ∀ {m m' : μ} {a : UInt64} {b : UInt8}, store? m a b = some m' →
    ∀ a', Writable m a' → Writable m' a'
  loadWord?_eq : ∀ (m : μ) (a : UInt64),
    loadWord? m a = (bytesFrom? load? m a 8).map wordOfBytes
  storeWord?_eq : ∀ (m : μ) (a v : UInt64),
    storeWord? m a v = withBytes? store? m a (wordBytes v)

variable [Memory μ]

variable {m m' : μ}

/-- The bytes that are there are loaded. -/
theorem bytesFrom?_eq_some (h : ∀ i < bytes.length, load? m (a + ofNat i) = bytes[i]?) :
  bytesFrom? load? m a bytes.length = some bytes
  := by
  induction bytes generalizing a with
  | nil => rfl
  | cons b rest ih =>
    have hfirst : load? m a = some b := by
      simpa using h 0 (by simp)
    have hrest : bytesFrom? load? m (a + 1) rest.length = some rest := by
      apply ih
      intro i hi
      have := h (i + 1) (by simpa using hi)
      rw [getElem?_cons_succ] at this
      rw [← this, add_assoc, add_comm 1]
      simp
    rw [length_cons, bytesFrom?, hfirst, hrest]
    rfl

theorem bytesFrom?_congr (h : ∀ i < n, load? m' (a + ofNat i) = load? m (a + ofNat i)) :
  bytesFrom? load? m' a n = bytesFrom? load? m a n
  := by
  induction n generalizing a with
  | zero => rfl
  | succ n ih =>
    have hfirst : load? m' a = load? m a := by
      simpa using h 0 (by omega)
    have hrest : bytesFrom? load? m' (a + 1) n = bytesFrom? load? m (a + 1) n := by
      apply ih
      intro i hi
      have := h (i + 1) (by omega)
      simpa [add_assoc, UInt64.add_comm 1] using this
    rw [bytesFrom?, bytesFrom?, hfirst, hrest]

/-- Behind an address, the distance from the next one is one less. -/
theorem toNat_sub_succ (a a' : UInt64) :
  (a' = a ∧ (a' - a).toNat = 0 ∧ (a' - (a + 1)).toNat = 2 ^ 64 - 1) ∨
    a' ≠ a ∧ (a' - a).toNat = (a' - (a + 1)).toNat + 1
  := by
  have := a.toNat_lt
  have := a'.toNat_lt
  rw [Ne, ← UInt64.toNat_inj, UInt64.toNat_sub, UInt64.toNat_sub, UInt64.toNat_add]
  simp only [toNat_one]
  omega

variable [Lawful μ]

/-- Bytes can be stored where each one can, and are then found there. -/
theorem exists_withBytes? (hlength : bytes.length < 2 ^ 64)
    (h : ∀ i < bytes.length, Writable m (a + ofNat i)) :
  ∃ m', withBytes? store? m a bytes = some m' ∧
    (∀ a', load? m' a' =
      if (a' - a).toNat < bytes.length then bytes[(a' - a).toNat]? else load? m a') ∧
    ∀ a', Writable m a' → Writable m' a'
  := by
  induction bytes generalizing m a with
  | nil => exact ⟨m, rfl, by simp, fun _ h => h⟩
  | cons b rest ih =>
    rw [length_cons] at hlength
    have hfirst := h 0 (by simp)
    rw [show a + ofNat 0 = a by simp] at hfirst
    obtain ⟨m₁, hstore⟩ := hfirst b
    obtain ⟨m', hm', hload, hwritable⟩ := ih (m := m₁) (a := a + 1) (by omega) (by
      intro i hi
      apply Lawful.writable_store? hstore
      have := h (i + 1) (by simpa using hi)
      simpa [add_assoc, UInt64.add_comm 1] using this)
    refine ⟨m', by rw [withBytes?, hstore]; exact hm', ?_, ?_⟩
    · intro a'
      rw [hload, Lawful.load?_store? hstore]
      obtain ⟨rfl, hzero, hfar⟩ | ⟨hne, hdistance⟩ := toNat_sub_succ a a'
      · rw [hzero, if_neg (by omega), if_pos rfl]
        rfl
      · simp [hdistance, if_neg hne]
    · intro a' ha'
      exact hwritable a' (Lawful.writable_store? hstore a' ha')

/-- The word has been stored at the address, and no other byte has changed. -/
structure Stored (m : μ) (a v : UInt64) (m' : μ) : Prop where
  load : loadWord? m' a = some v
  same : ∀ a', 8 ≤ (a' - a).toNat → load? m' a' = load? m a'
  writable : ∀ a', Writable m a' → Writable m' a'

/-- A word can be stored where each of its bytes can. -/
theorem exists_storeWord? (h : ∀ i < 8, Writable m (a + ofNat i)) (v : UInt64) :
  ∃ m', storeWord? m a v = some m' ∧ Stored m a v m'
  := by
  have hlength : (wordBytes v).length = 8 := rfl
  have hshort : (wordBytes v).length < 2 ^ 64 := by
    rw [hlength]
    decide
  obtain ⟨m', hm', hload, hwritable⟩ := exists_withBytes? hshort h
  refine ⟨m', by rw [Lawful.storeWord?_eq, hm'], ?_, ?_, hwritable⟩
  · have hbytes : bytesFrom? load? m' a 8 = some (wordBytes v) := by
      rw [← hlength]
      apply bytesFrom?_eq_some
      intro i hi
      have hdistance : (a + ofNat i - a).toNat = i := by
        rw [add_comm, UInt64.add_sub_cancel]
        apply toNat_ofNat_of_lt'
        rw [hlength] at hi
        exact hi.trans (by decide)
      rw [hload, hdistance, if_pos hi]
    rw [Lawful.loadWord?_eq, hbytes, Option.map_some, wordOfBytes_wordBytes]
  · intro a' ha'
    rw [hload, if_neg (by rw [hlength]; omega)]

theorem loadWord?_congr (h : ∀ i < 8, load? m' (a + ofNat i) = load? m (a + ofNat i)) :
  loadWord? m' a = loadWord? m a
  := by
  rw [Lawful.loadWord?_eq, Lawful.loadWord?_eq, bytesFrom?_congr h]

/-- Words that do not overlap with the one that is stored stay. -/
theorem Stored.loadWord? (h : Stored m a v m') (hbelow : 8 ≤ (a - a').toNat)
    (habove : 8 ≤ (a' - a).toNat) :
  loadWord? m' a' = loadWord? m a'
  := by
  apply loadWord?_congr
  intro i hi
  apply h.same
  have hi' : (ofNat i).toNat = i := toNat_ofNat_of_lt' (hi.trans (by decide))
  have := a.toNat_lt
  have := a'.toNat_lt
  rw [UInt64.toNat_sub] at hbelow habove ⊢
  rw [UInt64.toNat_add]
  omega

end Memory

/-! ### Unlimited memory -/

/-- Memory all of which can be used. -/
structure Ram where
  byte : UInt64 → UInt8

instance : Memory Ram where
  load? m a := some (m.byte a)
  store? m a b := some ⟨Function.update m.byte a b⟩

instance : Memory.Lawful Ram where
  load?_store? := by
    rintro m _ a b ⟨⟩ a'
    simp only [Memory.load?, Function.update_apply]
    split <;> rfl
  writable_store? := fun _ _ _ _ => ⟨_, rfl⟩
  loadWord?_eq := fun _ _ => rfl
  storeWord?_eq := fun _ _ _ => rfl

end Endmark.Machine
