import Mathlib

/-!
# Searches that go on until nothing is new

A search keeps what it has found and what it has still to look at.  Each round adds what is
new, and the search ends with a round that adds nothing.  When all that can be found is in a
list, one round more than the list is long is enough: the search then has found exactly what can
be reached from what it was to look at first.
-/

namespace Endmark

open List

variable {α β : Type} (fresh : List α → β → List α) (next : List α → β)

/-- What is found in at most so many rounds: `fresh` is what a round adds, and `next` is what is
to be looked at after it. -/
def saturate : Nat → List α → β → List α
  | 0, found, _ => found
  | fuel + 1, found, todo =>
    if (fresh found todo).isEmpty then found
    else saturate fuel (found ++ fresh found todo) (next (fresh found todo))

variable {fresh next}

/-- With enough rounds the search ends where nothing is new.  What every round keeps holds
there. -/
theorem exists_saturated [DecidableEq α] {all : List α} (Inv : List α → β → Prop)
    (hfresh : ∀ found todo, ∀ a ∈ fresh found todo, a ∈ all ∧ a ∉ found)
    (hstep : ∀ found todo, Inv found todo → Inv (found ++ fresh found todo) (next (fresh found todo)))
    (hfuel : (all.filter (· ∉ found)).length < fuel) (h : Inv found todo) :
  ∃ todo', Inv (saturate fresh next fuel found todo) todo' ∧
    fresh (saturate fresh next fuel found todo) todo' = []
  := by
  induction fuel generalizing found todo with
  | zero => cases hfuel
  | succ fuel ih =>
    rw [saturate]
    split
    case isTrue hempty => exact ⟨todo, h, isEmpty_iff.mp hempty⟩
    case isFalse hnew =>
      apply ih _ (hstep found todo h)
      -- something that was still to be found has been found
      obtain ⟨a, ha⟩ := exists_mem_of_ne_nil _ fun hnil => hnew (isEmpty_iff.mpr hnil)
      obtain ⟨hall, hfound⟩ := hfresh found todo a ha
      have hless : (all.filter (· ∉ found ++ fresh found todo)).length <
          (all.filter (· ∉ found)).length := by
        have hfilter : all.filter (· ∉ found ++ fresh found todo) =
            (all.filter (· ∉ found)).filter (· ∉ fresh found todo) := by
          simp [Bool.and_comm]
        rw [hfilter, length_filter_lt_length_iff_exists]
        exact ⟨a, mem_filter.mpr ⟨hall, by simpa using hfound⟩, by simpa using ha⟩
      omega

variable {all : List α} {start : α → Prop}

/-- What can be reached in a list: what is asked for at the start, and what something reached asks
for. -/
inductive Reached (all : List α) (start : α → Prop) (asks : α → α → Prop) : α → Prop
  | start {a : α} (hall : a ∈ all) (h : start a) : Reached all start asks a
  | next {a b : α} (hall : b ∈ all) (ha : Reached all start asks a) (h : asks a b) :
    Reached all start asks b

theorem Reached.mem (h : Reached all start asks a) :
  a ∈ all
  := by
  cases h <;> assumption

/-- What has been found can be reached, as can what is still due, and what is asked for has been
found or is due. -/
structure Search (all : List α) (start : α → Prop) (asks : α → α → Prop) (found : List α)
    (due : α → Prop) : Prop where
  sound : ∀ a ∈ found, Reached all start asks a
  reached : ∀ a ∈ all, due a → Reached all start asks a
  pursued : ∀ a ∈ all, (start a ∨ ∃ b ∈ found, asks b a) → a ∈ found ∨ due a

/-- One round finds what is due. -/
theorem Search.step {new : List α} (h : Search all start asks found due)
    (hnew : ∀ a, a ∈ new ↔ a ∈ all ∧ a ∉ found ∧ due a) (hdue : ∀ a, due' a ↔ ∃ b ∈ new, asks b a) :
  Search all start asks (found ++ new) due'
  := by
  have hreached : ∀ a ∈ new, Reached all start asks a := fun a ha =>
    have ⟨hall, _, ha⟩ := (hnew a).mp ha
    h.reached a hall ha
  refine ⟨forall_mem_append.mpr ⟨h.sound, hreached⟩, fun a hall ha => ?_,
    fun a hall hasked => ?_⟩
  · obtain ⟨b, hb, hasks⟩ := (hdue a).mp ha
    exact .next hall (hreached b hb) hasks
  · rw [mem_append, hnew, hdue]
    by_cases hold : a ∈ found ∨ due a
    · by_cases hfound : a ∈ found
      · exact .inl (.inl hfound)
      · exact .inl (.inr ⟨hall, hfound, hold.resolve_left hfound⟩)
    · right
      rcases hasked with hstart | ⟨b, hb, hasks⟩
      · exact absurd (h.pursued a hall (.inl hstart)) hold
      · rcases mem_append.mp hb with hb | hb
        · exact absurd (h.pursued a hall (.inr ⟨b, hb, hasks⟩)) hold
        · exact ⟨b, hb, hasks⟩

/-- A search that takes in, round by round, what is due and new ends with what can be reached from
what was due at first. -/
theorem mem_saturate [DecidableEq α] (due : β → α → Prop)
    (hfresh : ∀ found todo a, a ∈ fresh found todo ↔ a ∈ all ∧ a ∉ found ∧ due todo a)
    (hnext : ∀ found a, due (next found) a ↔ ∃ b ∈ found, asks b a) (hfuel : all.length < fuel) :
  a ∈ saturate fresh next fuel [] todo ↔ Reached all (due todo) asks a
  := by
  have hrounds := lt_of_le_of_lt (length_filter_le (· ∉ ([] : List α)) all) hfuel
  obtain ⟨rest, hsearch, hnone⟩ := exists_saturated
    (fun found rest => Search all (due todo) asks found (due rest))
    (fun found todo a ha => ((hfresh found todo a).mp ha).imp_right And.left)
    (fun found rest h => h.step (hfresh found rest) (hnext _)) hrounds
    ⟨by simp, fun a => .start, fun a _ h => .inr (by simpa using h)⟩
  have hclosed : ∀ a ∈ all, (due todo a ∨ ∃ b ∈ saturate fresh next fuel [] todo, asks b a) →
      a ∈ saturate fresh next fuel [] todo := by
    intro a hall hasked
    by_contra hmissing
    have hdue := (hsearch.pursued a hall hasked).resolve_left hmissing
    have hnew := (hfresh _ rest a).mpr ⟨hall, hmissing, hdue⟩
    rw [hnone] at hnew
    cases hnew
  refine ⟨hsearch.sound a, fun h => ?_⟩
  induction h with
  | start hall h => exact hclosed _ hall (.inl h)
  | next hall _ h ih => exact hclosed _ hall (.inr ⟨_, ih, h⟩)

end Endmark
