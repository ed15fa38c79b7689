import Endmark.Proofs.Lowering.Preservation

/-!
# Loops that count

A loop over a range that is written there compares a counter with a bound, whatever its body does
besides.  It goes through the numbers that come before the bound and ends, unless the first one that
does not is no number of 64 bits: then the counter goes on from the other end of these.
-/

namespace Endmark

open Int64
open Function
open List Option

/-! ### Progressions -/

/-- Does a number come before the bound, in the direction of the step? -/
def Precedes (step bound a : Int) : Prop :=
  if 0 < step then a < bound else bound < a

instance (step bound a : Int) : Decidable (Precedes step bound a) :=
  inferInstanceAs (Decidable (if 0 < step then a < bound else bound < a))

/-- How many of the numbers `first`, `first + step` and so on come before the bound. -/
def terms (first bound step : Int) : Nat :=
  if 0 < step then ((bound - first + step - 1) / step).toNat
  else ((first - bound - step - 1) / -step).toNat

/-- The numbers `first`, `first + step` and so on that come before the bound. -/
def progression (first bound step : Int) : List Int :=
  (List.range (terms first bound step)).map fun k : Nat => first + k * step

/-- The terms are those before the bound. -/
theorem lt_terms_iff (hstep : step ≠ 0) :
  k < terms first bound step ↔ Precedes step bound (first + k * step)
  := by
  have hdivide {a b : Int} (hb : 0 < b) : k < ((a + b - 1) / b).toNat ↔ k * b < a := by
    rw [Int.lt_toNat, Int.lt_iff_add_one_le, Int.le_ediv_iff_mul_le hb, add_mul]
    omega
  rw [terms, Precedes]
  split
  · rename_i hpos
    rw [hdivide hpos]
    omega
  · have hneg : first - bound - step - 1 = first - bound + -step - 1 := rfl
    rw [hneg, hdivide (by omega), mul_neg]
    omega

/-- The word that is reached after so many steps. -/
def after (first step : Int64) (k : Nat) : Int64 :=
  .ofInt (first.toInt + k * step.toInt)

theorem after_succ :
  after first step (k + 1) = after first step k + step
  := by
  rw [after, Nat.cast_succ, add_mul, Int.one_mul, ← add_assoc,
    ofInt_add _ step.toInt, ofInt_toInt, after]

/-- Is it a number of 64 bits? -/
def Fits (a : Int) : Prop :=
  -2 ^ 63 ≤ a ∧ a < 2 ^ 63

instance (a : Int) : Decidable (Fits a) :=
  inferInstanceAs (Decidable (_ ∧ _))

section

variable {first last step : Int64}

/-- Each term is a number of 64 bits. -/
theorem fits_of_lt_terms (hstep : step.toInt ≠ 0)
    (hk : k < terms first.toInt last.toInt step.toInt) :
  Fits (first.toInt + k * step.toInt)
  := by
  have hlt := (lt_terms_iff hstep).mp hk
  have := first.le_toInt
  have := first.toInt_lt
  have := last.le_toInt
  have := last.toInt_lt
  rw [Precedes] at hlt
  rw [Fits]
  split at hlt
  · have := mul_nonneg (Int.natCast_nonneg k) (show 0 ≤ step.toInt by omega)
    omega
  · have := mul_nonneg (Int.natCast_nonneg k) (show 0 ≤ -step.toInt by omega)
    rw [mul_neg] at this
    omega

/-- Behind the last of the numbers, the word comes before the bound again if it is not exact. -/
theorem precedes_next_iff (hstep : step.toInt ≠ 0)
    (hn : n = terms first.toInt last.toInt step.toInt) :
  Precedes step.toInt last.toInt (after first step n).toInt ↔
    n ≠ 0 ∧ ¬ Fits (first.toInt + n * step.toInt)
  := by
  have hnot : ¬ Precedes step.toInt last.toInt (first.toInt + n * step.toInt) := by
    rw [← lt_terms_iff hstep, hn]
    apply lt_irrefl
  cases n with
  | zero => simpa [after] using hnot
  | succ n =>
    have hlt : n < terms first.toInt last.toInt step.toInt := by omega
    have hlast := (lt_terms_iff hstep).mp hlt
    have hnext : first.toInt + ↑(n + 1) * step.toInt = first.toInt + n * step.toInt + step.toInt := by
      rw [Nat.cast_succ, add_mul, Int.one_mul, add_assoc]
    have := fits_of_lt_terms hstep hlt
    have := step.le_toInt
    have := step.toInt_lt
    rw [after, toInt_ofInt]
    rw [Int.bmod_def, size]
    simp only [Precedes, Fits] at *
    split_ifs at * <;> omega

end

namespace Ir

/-! ### Ways to run code -/

/-- Labels, jumps, and what moves or combines words in variables. -/
def Instr.isSimple : Instr → Bool
  | label _ | jump _ | branch _ _ _ | move (.var _) _ _ | binary (.var _) _ .i64 _ _ => true
  | _ => false

/-- A way to run code with a world besides the variables.  Simple instructions do what they mean,
and no instruction changes a variable that it does not write. -/
structure Execution (code : List Instr) (World : Type) where
  step? : State × World → Option (State × World)
  goes : ∀ {s s' : State} {i : Instr} (world : World), code[s.pc]? = some i →
    i.isSimple = true → i.effect? code s = some (.goes s') → step? (s, world) = some (s', world)
  keeps : ∀ {a b : State × World} {x : String}, step? a = some b →
    (∀ i ∈ code[a.1.pc]?, x ∉ i.writes) → b.1.words x = a.1.words x

namespace Execution

variable (R : Execution code World)

/-- Control gets from one state to the other. -/
abbrev Reaches : State × World → State × World → Prop :=
  Relation.ReflTransGen fun a b => R.step? a = some b

/-- Control gets from one state to the other and stays among the instructions with these numbers. -/
abbrev Stays (lo hi : Nat) : State × World → State × World → Prop :=
  Relation.ReflTransGen fun a b => R.step? a = some b ∧ lo ≤ a.1.pc ∧ a.1.pc < hi

/-- Whenever control comes to the instruction with the number `k` while the variable holds a value,
it goes on to `finish` and stays between the two. -/
def Completes (k finish : Nat) (x : String) (a : State × World) : Prop :=
  ∀ b v, R.Reaches a b → b.1.pc = k → b.1.words x = some v →
    ∃ c d, R.step? b = some c ∧ R.Stays (k + 1) finish c d ∧ d.1.pc = finish

/-- Control gets from one state to the other and does not pass `finish`.  When it comes to the
instruction with the number `k`, the variable holds each of the values in turn. -/
inductive Visits (k finish : Nat) (x : String) :
    State × World → List Int64 → State × World → Prop
  | stay {a} : Visits k finish x a [] a
  | pass {a b c vs} (hstep : R.step? a = some b) (hk : a.1.pc ≠ k) (hfinish : a.1.pc ≠ finish)
      (h : Visits k finish x b vs c) : Visits k finish x a vs c
  | visit {a b c v vs} (hstep : R.step? a = some b) (hk : a.1.pc = k)
      (hv : a.1.words x = some v) (h : Visits k finish x b vs c) : Visits k finish x a (v :: vs) c

/-- Control gets to `finish`, and before that it visits the values. -/
def Leaves (k finish : Nat) (x : String) (a : State × World) (items : List Int64) : Prop :=
  ∃ e, e.1.pc = finish ∧ R.Visits k finish x a items e

variable {R}

theorem Visits.trans (h : R.Visits k finish x a vs b) (h' : R.Visits k finish x b us c) :
  R.Visits k finish x a (vs ++ us) c
  := by
  induction h with
  | stay => exact h'
  | pass hstep hk hfinish _ ih => exact .pass hstep hk hfinish (ih h')
  | visit hstep hk hv _ ih => exact .visit hstep hk hv (ih h')

theorem Visits.reaches (h : R.Visits k finish x a vs b) :
  R.Reaches a b
  := by
  induction h with
  | stay => exact .refl
  | pass hstep _ _ _ ih | visit hstep _ _ _ ih => exact .head hstep ih

theorem Visits.of_stays (h : R.Stays lo hi a b) (hk : k < lo) (hfinish : hi ≤ finish) :
  R.Visits k finish x a [] b
  := by
  induction h using Relation.ReflTransGen.head_induction_on with
  | refl => exact .stay
  | head hstep _ ih => exact .pass hstep.1 (by omega) (by omega) ih

/-- There is one way to go only, so whatever is visited on the way to `finish` comes first. -/
theorem Leaves.starts (h : R.Leaves k finish x a vs) (hk : k ≠ finish)
    (h' : R.Visits k finish x a us b) :
  us <+: vs
  := by
  obtain ⟨e, he, h⟩ := h
  induction h' generalizing vs with
  | stay => exact nil_prefix
  | pass hstep hk' hfinish _ ih =>
    cases h with
    | stay => exact absurd he hfinish
    | pass hstep' _ _ h =>
      cases hstep.symm.trans hstep'
      exact ih h
    | visit _ hk'' => exact absurd hk'' hk'
  | visit hstep hk' hv _ ih =>
    cases h with
    | stay => exact absurd (hk'.symm.trans he) hk
    | pass _ hk'' => exact absurd hk' hk''
    | visit hstep' _ hv' h =>
      cases hstep.symm.trans hstep'
      cases hv.symm.trans hv'
      exact cons_prefix_cons.mpr ⟨rfl, ih h⟩

/-- Variables that are not written in a part of the code stay as they are. -/
theorem words_of_stays (h : R.Stays lo hi a b)
    (hcode : ∀ n, lo ≤ n → n < hi → ∀ i ∈ code[n]?, x ∉ i.writes) :
  b.1.words x = a.1.words x
  := by
  induction h using Relation.ReflTransGen.head_induction_on with
  | refl => rfl
  | head hstep _ ih => rw [ih, R.keeps hstep.1 (hcode _ hstep.2.1 hstep.2.2)]

end Execution

theorem Instr.effect?_keeps {i : Instr}
    (h : i.effect? code s = some (.goes s')) (hx : x ∉ i.writes) :
  s'.words x = s.words x
  := by
  obtain ⟨_, _, rfl⟩ | ⟨y, v, hdst, rfl⟩ | ⟨_, _, _, rfl⟩ := i.effect?_goes h
  · rfl
  · rw [writes, hdst] at hx
    exact update_of_ne (ne_of_not_mem_cons hx) _ _
  · rfl

/-- Code on words, which has no meaning elsewhere. -/
def Execution.words (code : List Instr) : Execution code Unit where
  step? a := match Ir.step? code a.1 with
    | some (.goes s) => some (s, a.2)
    | _ => none
  goes _ hi _ h := by simp [Ir.step?, hi, h]
  keeps := by
    intro a b x h hx
    split at h
    · rename_i s hs
      cases h
      obtain ⟨i, hi, heffect⟩ := Option.bind_eq_some_iff.mp hs
      exact Instr.effect?_keeps heffect (hx i hi)
    · cases h

theorem Instr.Uses.writes {i : Instr} (h : i.Uses V n) (hraw : ¬ V.raw) (hx : x ∈ i.writes) :
  V.var x
  := by
  obtain hx | hx := mem_append.mp hx
  · obtain ⟨p, hp, hvar⟩ := bind_eq_some_iff.mp (mem_toList.mp hx)
    have hdst := h.dst hp
    cases p with
    | var y =>
      cases hvar
      exact hdst
    | global y => cases hvar
  · cases i with
    | raw => exact absurd h.1 hraw
    | _ => cases hx

end Ir

namespace Lowering

open Ir (WordType Operand Instr Words Place Execution labelNames labelAt truthWord)
open Typed (NoNumber Stmt Expr Variable)

/-! ### The code of a loop -/

/-- A loop that counts stands in the code, from its head to the end of its body.  It compares a
counter with a bound and copies it to the variable. -/
structure CountsAt (code : List Instr) (counter bound more : String) (place : Place)
    (step : Int64) (first finish : Nat) : Prop where
  apart : [counter, bound, more].Nodup
  le : first + 5 ≤ finish
  compare : code[first + 1]? = some (.binary (.var more) (if 0 < step then .lt else .gt) .i64
    (.var counter) (.var bound))
  branch : ∃ inside leave, code[first + 2]? = some (.branch (.var more) inside leave) ∧
    labelAt code inside = some (first + 3) ∧ labelAt code leave = some (finish + 3)
  copy : ∃ ty, code[first + 4]? = some (.move place ty (.var counter))
  next : ∃ name, code[finish]? = some (.label name)
  add : code[finish + 1]? = some (.binary (.var counter) .add .i64 (.var counter) (.int step))
  again : ∃ name, code[finish + 2]? = some (.jump name) ∧ labelAt code name = some first

namespace CountsAt

variable {finish : Nat} {R : Execution code World}

/-- The head of the loop leads to the copy of the counter if that comes before the bound, and else
to the end. -/
theorem compares (h : CountsAt code counter bound more place step first finish)
    (hi : w counter = some i) (hm : w bound = some m) (world : World) :
  R.Visits (first + 4) (finish + 4) counter (⟨first + 1, w⟩, world) []
    (⟨if Precedes step.toInt m.toInt i.toInt then first + 4 else finish + 4,
      update w more (some (truthWord (Precedes step.toInt m.toInt i.toInt)))⟩, world)
  := by
  have hle := h.le
  obtain ⟨inside, leave, hbranch, hinside, hleave⟩ := h.branch
  have hvalue : Ir.BinOp.value? (if 0 < step then .lt else .gt) i m =
      some (truthWord (Precedes step.toInt m.toInt i.toInt)) := by
    simp only [Precedes, lt_iff_toInt_lt, toInt_zero]
    split <;> simp [Ir.BinOp.value?, lt_iff_toInt_lt]
  generalize hw₁ : update w more (some (truthWord (Precedes step.toInt m.toInt i.toInt))) =
    w₁
  have hmore : w₁ more = some (truthWord (Precedes step.toInt m.toInt i.toInt)) := by
    rw [← hw₁, update_self]
  have hcompare : R.step? (⟨first + 1, w⟩, world) = some (⟨first + 2, w₁⟩, world) := by
    apply R.goes world h.compare rfl
    simp [Instr.effect?, Operand.value?, hi, hm, hvalue, Ir.State.put, hw₁]
  have hlabel {name : String} {pc : Nat} (hname : labelAt code name = some pc) :
      R.step? (⟨pc, w₁⟩, world) = some (⟨pc + 1, w₁⟩, world) :=
    R.goes world (Ir.getElem?_of_labelAt hname) rfl rfl
  refine .pass hcompare (by simp) (by simp only; omega) ?_
  have hjump {name : String} {pc : Nat} (hname : labelAt code name = some pc)
      (h : (if truthWord (Precedes step.toInt m.toInt i.toInt) = 0 then leave else inside) = name) :
      R.step? (⟨first + 2, w₁⟩, world) = some (⟨pc, w₁⟩, world) := by
    apply R.goes world hbranch rfl
    simp [Instr.effect?, Operand.value?, hmore, h, Ir.State.jump?, hname]
  split
  · rename_i hlt
    refine .pass (hjump hinside (by simp [hlt, truthWord])) (by simp) (by simp only; omega) ?_
    exact .pass (hlabel hinside) (by simp) (by simp only; omega) .stay
  · rename_i hlt
    refine .pass (hjump hleave (by simp [hlt, truthWord])) (by simp) (by simp only; omega) ?_
    exact .pass (hlabel hleave) (by simp only; omega) (by simp) .stay

/-- After the body the step is added to the counter. -/
theorem repeats (h : CountsAt code counter bound more place step first finish)
    (hi : w counter = some i) :
  R.Visits (first + 4) (finish + 4) counter (⟨finish, w⟩, world) []
    (⟨first + 1, update w counter (some (i + step))⟩, world)
  := by
  have hle := h.le
  obtain ⟨next, hnext⟩ := h.next
  obtain ⟨start, hagain, hstart⟩ := h.again
  have hadd : R.step? (⟨finish + 1, w⟩, world) =
      some (⟨finish + 2, update w counter (some (i + step))⟩, world) := by
    apply R.goes world h.add rfl
    simp [Instr.effect?, Operand.value?, hi, Ir.BinOp.value?, Ir.State.put]
  have hagain (w : Words) : R.step? (⟨finish + 2, w⟩, world) = some (⟨first, w⟩, world) := by
    apply R.goes world hagain rfl
    simp [Instr.effect?, Ir.State.jump?, hstart]
  refine .pass (R.goes world hnext rfl rfl) ?_ ?_ (.pass hadd ?_ ?_ (.pass (hagain _) ?_ ?_
    (.pass (R.goes world (Ir.getElem?_of_labelAt hstart) rfl rfl) ?_ ?_ .stay)))
  all_goals
    simp only [Ir.State.next]
    omega

/-- Whenever control comes to the copy, it goes through the body, which leaves the counter and the
bound as they are. -/
def Returns (R : Execution code World) (counter bound : String) (first finish : Nat)
    (a : Ir.State × World) : Prop :=
  ∀ b v, R.Reaches a b → b.1.pc = first + 4 → b.1.words counter = some v →
    ∃ c d, R.step? b = some c ∧ R.Stays (first + 5) finish c d ∧ d.1.pc = finish ∧
      d.1.words counter = b.1.words counter ∧ d.1.words bound = b.1.words bound

variable (h : CountsAt code counter bound more place step first finish)
  (hbody : Returns R counter bound first finish a)

include h hbody

/-- One round of the loop. -/
theorem round (hreach : R.Reaches a (⟨first + 1, w⟩, world)) (hi : w counter = some i)
    (hm : w bound = some m) (hlt : Precedes step.toInt m.toInt i.toInt) :
  ∃ w' world', R.Visits (first + 4) (finish + 4) counter (⟨first + 1, w⟩, world) [i]
    (⟨first + 1, w'⟩, world') ∧ w' counter = some (i + step) ∧ w' bound = some m
  := by
  have hcompares := h.compares (R := R) hi hm world
  rw [if_pos hlt] at hcompares
  have hapart := h.apart
  simp only [nodup_cons, mem_cons, not_mem_nil, or_false, not_or] at hapart
  obtain ⟨⟨hcb, hcm⟩, hbm, -⟩ := hapart
  have hcounter (n : Option Int64) : update w more n counter = some i := by
    rw [update_of_ne hcm, hi]
  obtain ⟨c, ⟨⟨pc, w₂⟩, world'⟩, hstep, hstays, hpc, hi₂, hm₂⟩ :=
    hbody _ _ (hreach.trans hcompares.reaches) rfl (hcounter _)
  obtain rfl : pc = finish := hpc
  simp only [hcounter, update_of_ne hbm, hm] at hi₂ hm₂
  have hrest := (Execution.Visits.of_stays hstays (by omega) (by omega)).trans (h.repeats hi₂)
  refine ⟨_, world', hcompares.trans (.visit hstep rfl (hcounter _) hrest), update_self .., ?_⟩
  rw [update_of_ne (symm hcb), hm₂]

variable (hstart : R.Visits (first + 4) (finish + 4) counter a [] (⟨first + 1, w⟩, world))
  (hi : w counter = some i) (hm : w bound = some m)

include hstart hi hm

/-- As many rounds as the counter comes before the bound. -/
theorem rounds (hlt : ∀ k < n, Precedes step.toInt m.toInt (after i step k).toInt) :
  ∃ w' world', R.Visits (first + 4) (finish + 4) counter a ((range n).map (after i step))
    (⟨first + 1, w'⟩, world') ∧ w' counter = some (after i step n) ∧ w' bound = some m
  := by
  induction n with
  | zero => exact ⟨w, world, hstart, by simpa [after] using hi, hm⟩
  | succ n ih =>
    obtain ⟨w₁, world₁, hvisits, hi₁, hm₁⟩ := ih fun k hk => hlt k (by omega)
    obtain ⟨w₂, world₂, hround, hi₂, hm₂⟩ := h.round hbody hvisits.reaches hi₁ hm₁
      (hlt n (Nat.lt_succ_self n))
    refine ⟨w₂, world₂, ?_, ?_, hm₂⟩
    · rw [range_succ, map_append]
      exact hvisits.trans hround
    · rw [hi₂, after_succ]

/-- When the counter does not come before the bound any more, the loop is left. -/
theorem leaves (hlt : ∀ k < n, Precedes step.toInt m.toInt (after i step k).toInt)
    (hnot : ¬ Precedes step.toInt m.toInt (after i step n).toInt) :
  R.Leaves (first + 4) (finish + 4) counter a ((range n).map (after i step))
  := by
  obtain ⟨w', world', hvisits, hi', hm'⟩ := h.rounds hbody hstart hi hm hlt
  have hcompares := h.compares (R := R) hi' hm' world'
  rw [if_neg hnot] at hcompares
  have hall := hvisits.trans hcompares
  rw [append_nil] at hall
  exact ⟨_, rfl, hall⟩

/-- The values of the counter are exact and the loop is left behind them just when the next number
is one of 64 bits, or there is none before it. -/
theorem leaves_iff (hstep : step.toInt ≠ 0) :
  (∃ items, R.Leaves (first + 4) (finish + 4) counter a items ∧
    items.map toInt = progression i.toInt m.toInt step.toInt) ↔
  terms i.toInt m.toInt step.toInt = 0 ∨
    Fits (i.toInt + terms i.toInt m.toInt step.toInt * step.toInt)
  := by
  generalize hn : terms i.toInt m.toInt step.toInt = n
  have hexact {k : Nat} (hk : k < n) : (after i step k).toInt = i.toInt + k * step.toInt := by
    obtain ⟨hle, hlt⟩ := fits_of_lt_terms hstep (hn ▸ hk)
    exact toInt_ofInt_of_le hle hlt
  have hlt : ∀ k < n, Precedes step.toInt m.toInt (after i step k).toInt := by
    intro k hk
    rw [hexact hk]
    exact (lt_terms_iff hstep).mp (hn ▸ hk)
  have hnext := precedes_next_iff hstep hn.symm
  constructor
  · rintro ⟨items, hleaves, hitems⟩
    by_contra hnot
    rw [not_or] at hnot
    obtain ⟨_, _, hvisits, -⟩ := h.rounds hbody hstart hi hm (n := n + 1) (by
      intro k hk
      obtain hk | rfl := Nat.lt_succ_iff_lt_or_eq.mp hk
      · exact hlt k hk
      · exact hnext.mpr hnot)
    have hle := (hleaves.starts (by have := h.le; omega) hvisits).length_le
    have hlength := congrArg length hitems
    simp [progression] at hle hlength
    omega
  · intro hfits
    refine ⟨_, h.leaves hbody hstart hi hm hlt (by rw [hnext]; tauto), ?_⟩
    rw [List.map_map, progression, hn]
    exact map_congr_left fun k hk => hexact (mem_range.mp hk)

end CountsAt

open Lower (countInside countOutside kindOf)

/-- The code of a loop that counts, in front of its body. -/
def opening (t l : Nat) (place : Place) (ty : WordType) (step : Int64) (start stop : Operand) :
    List Instr :=
  [.move (.var (toString t)) .i64 start, .move (.var (toString (t + 1))) .i64 stop,
    .label (labelName l),
    .binary (.var (toString (t + 2))) (if 0 < step then .lt else .gt) .i64 (.var (toString t))
      (.var (toString (t + 1))),
    .branch (.var (toString (t + 2))) (labelName (l + 1)) (labelName (l + 3)),
    .label (labelName (l + 1)), .move place ty (.var (toString t))]

/-- The code behind the body. -/
def closing (t l : Nat) (step : Int64) : List Instr :=
  [.label (labelName (l + 2)),
    .binary (.var (toString t)) .add .i64 (.var (toString t)) (.int step), .jump (labelName l),
    .label (labelName (l + 3))]

section

variable (hgrown : b.code.toList = (countInside env v start stop step s).code.toList ++ new)
  (hwithin : (countOutside step s b).Within code)

include hgrown hwithin

/-- The code stands where it has been emitted. -/
theorem getElem?_of_counting :
  (∀ k < 7, code[s.code.size + k]? =
    (opening s.temps s.labels (placeOf v) (kindOf env v) step start stop)[k]?) ∧
  (∀ k < 4, code[b.code.size + k]? = (closing s.temps s.labels step)[k]?) ∧
  s.code.size + 7 ≤ b.code.size ∧
  ∀ n, s.code.size + 7 ≤ n → n < b.code.size → ∀ i ∈ code[n]?, i ∈ new
  := by
  obtain ⟨back, hback⟩ := hwithin
  have hopening : (countInside env v start stop step s).code.toList = s.code.toList ++
      opening s.temps s.labels (placeOf v) (kindOf env v) step start stop := by
    simp [countInside, Performs.countHead, opening, State.temp, State.label]
  have hclosing : (countOutside step s b).code.toList =
      b.code.toList ++ closing s.temps s.labels step := by
    simp [countOutside, closing]
  rw [hopening] at hgrown
  rw [hclosing, append_assoc] at hback
  have hseven : (opening s.temps s.labels (placeOf v) (kindOf env v) step start stop).length = 7 :=
    rfl
  have hsize := congrArg length hgrown
  simp only [length_append, Array.length_toList] at hsize
  refine ⟨?_, ?_, by omega, ?_⟩
  · intro k hk
    rw [← hback, hgrown, append_assoc, append_assoc, ← Array.length_toList,
      getElem?_append_right (by omega), Nat.add_sub_cancel_left, getElem?_append_left hk]
  · intro k hk
    rw [← hback, ← Array.length_toList, getElem?_append_right (by omega),
      Nat.add_sub_cancel_left, getElem?_append_left hk]
  · intro n hn hn' i hi
    rw [← hback, hgrown, append_assoc, getElem?_append_right (by simp [hseven, hn]),
      getElem?_append_left (by simp; omega)] at hi
    exact mem_of_getElem? hi

/-- A loop that has been lowered counts. -/
theorem countsAt_of_within (hlabels : (labelNames code).Nodup) :
  CountsAt code (toString s.temps) (toString (s.temps + 1)) (toString (s.temps + 2)) (placeOf v)
    step (s.code.size + 2) b.code.size
  := by
  obtain ⟨hopening, hclosing, hle, -⟩ := getElem?_of_counting hgrown hwithin
  have hlabel {name : String} {k : Nat} (h : code[k]? = some (.label name)) :
      labelAt code name = some k := Ir.labelAt_of_getElem? hlabels h
  refine ⟨?_, by omega, hopening 3 (by decide), ⟨_, _, hopening 4 (by decide),
      hlabel (hopening 5 (by decide)), hlabel (hclosing 3 (by decide))⟩,
    ⟨_, hopening 6 (by decide)⟩, ⟨_, hclosing 0 (by decide)⟩, hclosing 1 (by decide),
    ⟨_, hclosing 2 (by decide), hlabel (hopening 2 (by decide))⟩⟩
  simp

/-- The counter and the bound are set in front of the loop. -/
theorem enters_counting {R : Execution code World} (hfirst : start.value? w = some first)
    (hlast : stop.value? w = some last) (hold : OldOperand s.temps stop) :
  ∃ w', R.Visits (s.code.size + 6) (b.code.size + 4) (toString s.temps) (s.here w, world) []
    (⟨s.code.size + 3, w'⟩, world) ∧ w' (toString s.temps) = some first ∧
      w' (toString (s.temps + 1)) = some last
  := by
  obtain ⟨hopening, -, hle, -⟩ := getElem?_of_counting hgrown hwithin
  let w₁ := update w (toString s.temps) (some first)
  have hlast₁ : stop.value? w₁ = some last := by
    rw [(keeps_update (le_refl s.temps)).value? hold, hlast]
  have hstep₀ : R.step? (s.here w, world) = some (⟨s.code.size + 1, w₁⟩, world) := by
    apply R.goes world (hopening 0 (by decide)) rfl
    simp [Instr.effect?, hfirst, Ir.State.put, State.here, w₁]
  have hstep₁ : R.step? (⟨s.code.size + 1, w₁⟩, world) = some (⟨s.code.size + 2,
      update w₁ (toString (s.temps + 1)) (some last)⟩, world) := by
    apply R.goes world (hopening 1 (by decide)) rfl
    simp [Instr.effect?, hlast₁, Ir.State.put]
  refine ⟨_, .pass hstep₀ ?_ ?_ (.pass hstep₁ ?_ ?_
    (.pass (R.goes world (hopening 2 (by decide)) rfl rfl) ?_ ?_ .stay)),
    (update_of_ne (toString_ne (by omega)) _ _).trans (update_self ..),
    update_self ..⟩
  all_goals
    simp only [State.here]
    omega

end

/-! ### Loops over ranges -/

/-- Slots are no numbers, and there are no raw blocks. -/
def sourceNames : Typed.Vocabulary :=
  { blockFree with slot := NoNumber }

/-- Temporaries have at least the given number, and there is no raw text. -/
def newNames (t : Nat) : Ir.Vocabulary :=
  ⟨fun x => ∀ i < t, x ≠ toString i, fun _ => True, fun _ => True, fun _ => True, fun _ => True,
    False⟩

/-- What lowering adds has numbers of its own. -/
theorem serves_newNames :
  Serves sourceNames (newNames t) strict t env
  where
  slot _ h i _ := h i
  global _ _ := trivial
  function _ _ _ := trivial
  temp i hi j hj := toString_ne (by omega)
  label _ := trivial
  routine _ _ := trivial
  start := trivial
  item _ _ _ _ := trivial
  word := trivial
  rawStmt _ _ _ h := h.elim
  rawValue _ _ _ h := h.elim

/-- The code of statements without raw blocks writes no temporary that is there before. -/
theorem exists_new_of_stmts
    (hbody : Typed.Within sourceNames (Stmt.nodesOf body) (Stmt.insideOf body))
    (h : (Lower.stmts loop body).Gives env s ⟨⟩ s') :
  ∃ new, s'.code.toList = s.code.toList ++ new ∧
    ∀ i ∈ new, ∀ x ∈ i.writes, ∀ j < s.temps, x ≠ toString j
  := by
  let A : Aim := ⟨newNames s.temps, False, False, "", s⟩
  have hA : ¬ A.strict := by simp [A, Aim.strict]
  let p : Point A := ⟨s, fun _ => True, ∅, State.uses_refl, fun h => absurd h hA,
    fun h => absurd h hA, False.elim, False.elim⟩
  have hloop : Lower.Allows p loop := fun _ _ =>
    ⟨⟨trivial, fun h => absurd h hA, fun h => absurd h hA⟩, trivial, fun h => absurd h hA,
      fun h => absurd h hA⟩
  obtain ⟨q, hq, -⟩ := Lower.runs_stmts (A := A) serves_newNames
    (fun h => False.elim h) loop (p := p) hloop (by simp : false → _) hbody (by simp)
  rw [h] at hq
  obtain rfl : q.state = s' := hq
  obtain ⟨new, hcode, hnew⟩ := q.uses.code
  exact ⟨new, hcode, fun i hi x hx => Instr.Uses.writes (hnew i hi) id hx⟩

/-- A loop over a range has been lowered after its bounds.  Its step is written out or one, and its
body has no raw blocks. -/
structure RangeLoop (env : Env) (v : Variable) (note : Typed.Note) (args : List Expr)
    (body : List Stmt) (step : Int64) (s₀ s s' : State) (start stop : Operand) : Prop where
  step : args[2]?.elim (some 1) constant? = some step
  bounds : (Lower.boundsOf note.span args).Gives env s₀ (start, stop) s
  lowered : (Lower.forLoop v (.builtin note .range args) fun loop =>
    Lower.stmts (some loop) body).Gives env s₀ ⟨⟩ s'
  old : OldOperand s.temps stop
  place : sourceNames.variable v
  body : Typed.Within sourceNames (Stmt.nodesOf body) (Stmt.insideOf body)

namespace Lower

/-- The step is written out or one, and not zero. -/
theorem gives_stepOf (h : (stepOf arg).Gives env s step s') :
  s' = s ∧ step ≠ 0 ∧ arg.elim (some 1) constant? = some step
  := by
  cases arg with
  | none =>
    obtain ⟨rfl, rfl⟩ := gives_pure.mp h
    exact ⟨rfl, by decide, rfl⟩
  | some e =>
    rw [stepOf] at h
    split at h
    · rename_i n hn
      split at h
      · cases h
      · rename_i hne
        obtain ⟨rfl, rfl⟩ := gives_pure.mp h
        exact ⟨rfl, hne, hn⟩
    · cases h

/-- The end of a range is no later temporary, if it is computed from words in slots that are no
numbers. -/
theorem oldOperand_of_boundsOf {note : Typed.Note} {args : List Expr}
    (h : (boundsOf note.span args).Gives env s₀ (start, stop) s) (hargs : ∀ e ∈ args, e.Worded Γ) :
  OldOperand s.temps stop
  := by
  have hold {e t o t'} (he : e ∈ args) (h : (expr e).Gives env t o t') : OldOperand t'.temps o := by
    obtain ⟨_, _, hgives, hcomputes⟩ := makes_expr e (hargs e he) t
    cases hgives.symm.trans h
    exact hcomputes.old
  match args, h with
  | [e], h =>
    obtain ⟨o, t, hstop, hpure⟩ := gives_bind.mp h
    obtain ⟨⟨⟩, rfl⟩ := gives_pure.mp hpure
    apply hold (by simp) hstop
  | _ :: e :: _, h =>
    obtain ⟨start?, t, -, h⟩ := gives_bind.mp h
    obtain ⟨o, t', hstop, h⟩ := gives_bind.mp h
    cases start? with
    | none => cases h
    | some a =>
      obtain ⟨⟨⟩, rfl⟩ := gives_pure.mp h
      apply hold (by simp) hstop

end Lower

section

variable {body : List Stmt} {step : Int64}

/-- The code of the loop around that of its body. -/
theorem RangeLoop.exists_body (h : RangeLoop env v note args body step s₀ s s' start stop) :
  step ≠ 0 ∧ ∃ b new, s' = countOutside step s b ∧
    b.code.toList = (countInside env v start stop step s).code.toList ++ new ∧
    ∀ i ∈ new, ∀ x ∈ i.writes, ∀ j < s.temps + 3, x ≠ toString j
  := by
  obtain ⟨n, s₁, hstep, ⟨start', stop'⟩, s₂, hbounds, hlowered⟩ := by
    simpa only [Lower.forLoop, Lower.gives_bind] using h.lowered
  obtain ⟨rfl, hne, hn⟩ := Lower.gives_stepOf hstep
  cases hn.symm.trans h.step
  cases hbounds.symm.trans h.bounds
  obtain ⟨b, hbody, rfl⟩ := Lower.gives_countingLoop.mp hlowered
  obtain ⟨new, hcode, hnew⟩ := exists_new_of_stmts h.body hbody
  exact ⟨hne, b, new, rfl, hcode, hnew⟩

variable {R : Execution code World}

/-- A body without raw blocks leaves the counter and the bound as they are. -/
theorem RangeLoop.returns (h : RangeLoop env v note args body step s₀ s s' start stop)
    (hwithin : s'.Within code)
    (hbody : R.Completes (s.code.size + 6) (s'.code.size - 4) (toString s.temps) a) :
  CountsAt.Returns R (toString s.temps) (toString (s.temps + 1)) (s.code.size + 2)
    (s'.code.size - 4) a
  := by
  obtain ⟨-, b, new, rfl, hcode, hnew⟩ := h.exists_body
  obtain ⟨hopening, -, -, hinside⟩ := getElem?_of_counting hcode hwithin
  have hsize : (countOutside step s b).code.size - 4 = b.code.size := by
    simp [countOutside, State.emit]
  rw [hsize] at hbody ⊢
  intro x n hreach hpc hn
  obtain ⟨c, d, hstep, hstays, hd⟩ := hbody x n hreach hpc hn
  have hkeeps {j : Nat} (hj : j < s.temps + 3) :
      d.1.words (toString j) = x.1.words (toString j) := by
    rw [Execution.words_of_stays hstays]
    · apply R.keeps hstep
      rw [hpc, hopening 6 (by decide)]
      rintro _ ⟨⟩ hmem
      have hplace := h.place
      cases v with
      | slot y => exact hplace j (mem_singleton.mp hmem).symm
      | global y => cases hmem
    · exact fun n hn hn' i hi hmem => hnew i (hinside n hn hn' i hi) _ hmem j hj rfl
  exact ⟨c, d, hstep, hstays, hd, hkeeps (by omega), hkeeps (by omega)⟩

variable (h : RangeLoop env v note args body step s₀ s s' start stop) (hwithin : s'.Within code)
  (hlabels : (labelNames code).Nodup) (hfirst : start.value? w = some first)
  (hlast : stop.value? w = some last)
  (hbody : R.Completes (s.code.size + 6) (s'.code.size - 4) (toString s.temps) (s.here w, world))

include h hwithin hlabels hfirst hlast hbody

/-- Control comes to the head of the loop with the bounds. -/
theorem RangeLoop.exists_start :
  ∃ finish w', s'.code.size = finish + 4 ∧
    CountsAt code (toString s.temps) (toString (s.temps + 1)) (toString (s.temps + 2)) (placeOf v)
      step (s.code.size + 2) finish ∧
    CountsAt.Returns R (toString s.temps) (toString (s.temps + 1)) (s.code.size + 2) finish
      (s.here w, world) ∧
    R.Visits (s.code.size + 6) (finish + 4) (toString s.temps) (s.here w, world) []
      (⟨s.code.size + 3, w'⟩, world) ∧
    w' (toString s.temps) = some first ∧ w' (toString (s.temps + 1)) = some last
  := by
  have hreturns := h.returns hwithin hbody
  obtain ⟨-, b, new, rfl, hcode, -⟩ := h.exists_body
  have hsize : (countOutside step s b).code.size = b.code.size + 4 := by
    simp [countOutside, State.emit]
  rw [hsize] at hreturns
  obtain ⟨w', henters, hi, hm⟩ := enters_counting hcode hwithin hfirst hlast h.old
  exact ⟨b.code.size, w', hsize, countsAt_of_within hcode hwithin hlabels, hreturns, henters, hi, hm⟩

/-- A loop over a range with a literal step goes through the progression of integers from its start
that come before its end, and is left then, just when there is none of them or the number behind
them is one of 64 bits. -/
theorem range_goes_through_progression_iff :
  (∃ ty, code[s.code.size + 6]? = some (.move (placeOf v) ty (.var (toString s.temps)))) ∧
  ((∃ items, R.Leaves (s.code.size + 6) s'.code.size (toString s.temps) (s.here w, world) items ∧
      items.map Int64.toInt = progression first.toInt last.toInt step.toInt) ↔
    terms first.toInt last.toInt step.toInt = 0 ∨
      Fits (first.toInt + terms first.toInt last.toInt step.toInt * step.toInt))
  := by
  obtain ⟨finish, w', hsize, hcounts, hreturns, hstart, hi, hm⟩ :=
    h.exists_start hwithin hlabels hfirst hlast hbody
  rw [hsize]
  refine ⟨hcounts.copy, hcounts.leaves_iff hreturns hstart hi hm ?_⟩
  rw [← Int64.toInt_zero, ne_eq, Int64.toInt_inj]
  exact h.exists_body.1

end

/-! ### Loops without a body -/

theorem noNumber_i :
  NoNumber "i"
  := Typed.noNumber_slotName (show Typed.isPlain "i" by decide) 0

/-- The arguments of a range. -/
def rangeOf (first last : Int64) (step : Expr) : List Expr :=
  [.literal default (.int first), .literal default (.int last), step]

/-- After a loop over a range that does nothing else. -/
def idled (first last step : Int64) : State :=
  countOutside step untouched
    (countInside ⟨[], []⟩ (.slot "i") (.int first) (.int last) step untouched)

theorem rangeLoop_idled (hstep : step ≠ 0) (he : constant? e = some step) (note : Typed.Note) :
  RangeLoop ⟨[], []⟩ (.slot "i") note (rangeOf first last e) [] step untouched untouched
    (idled first last step) (.int first) (.int last)
  := by
  refine ⟨he, rfl, ?_, trivial, noNumber_i, ⟨by simp [Stmt.nodesOf], by simp [Stmt.insideOf]⟩⟩
  rw [Lower.forLoop]
  simp only [Lower.gives_bind]
  refine ⟨step, untouched, ?_, (.int first, .int last), untouched, rfl,
    Lower.gives_countingLoop.mpr ⟨_, rfl, rfl⟩⟩
  simp [rangeOf, Lower.stepOf, he, hstep, Lower.gives_pure]

theorem nodup_idled :
  (labelNames (idled first last step).code.toList).Nodup
  := by
  change [labelName 0, labelName 1, labelName 2, labelName 3].Nodup
  decide

/-- Behind the copy of the counter there is nothing to do. -/
theorem completes_idled (first last step : Int64) (a : Ir.State × Unit) :
  (Execution.words (idled first last step).code.toList).Completes 6 7 (toString 0) a
  := by
  rintro ⟨⟨_, w⟩, world⟩ v _ rfl hv
  refine ⟨_, (⟨7, update w "i" (some v)⟩, world), ?_, .refl, rfl⟩
  refine Execution.goes _ world (s := ⟨6, w⟩) (i := .move (.var "i") .i64 (.var (toString 0))) rfl
    rfl ?_
  have hcounter : w (toString 0) = some v := hv
  simp only [Instr.effect?, Operand.value?, hcounter]
  rfl

/-- From seven down to minus eight in steps of five. -/
theorem sevenDown_goes_through :
  constant? (.unary default .neg (.literal default (.int 5))) = some (-5) ∧
  ∃ items, (Execution.words (idled 7 (-8) (-5)).code.toList).Leaves 6 11 (toString 0)
    (untouched.here fun _ => none, ()) items ∧ items.map Int64.toInt = [7, 2, -3]
  := by
  have hgoes := range_goes_through_progression_iff (R := .words _)
    (rangeLoop_idled (by decide) (e := .unary default .neg (.literal default (.int 5))) rfl
      default)
    List.prefix_rfl nodup_idled rfl rfl
    (completes_idled 7 (-8) (-5) (untouched.here fun _ => none, ()))
  exact ⟨rfl, hgoes.2.mpr (.inr (by decide))⟩

/-- From one to two, the step that leads to the greatest number leads on to the least one. -/
theorem oneToTwo_goes_on :
  (Execution.words (idled 1 2 Int64.maxValue).code.toList).Leaves 6 11 (toString 0)
    (untouched.here fun _ => none, ()) [1, Int64.minValue, -1] ∧
  progression 1 2 Int64.maxValue.toInt = [1]
  := by
  obtain ⟨finish, w', hsize, hcounts, hreturns, hstart, hi, hm⟩ := (rangeLoop_idled
    (show Int64.maxValue ≠ 0 by decide) (e := .literal default (.int Int64.maxValue)) rfl
      default).exists_start (R := .words _) List.prefix_rfl nodup_idled rfl rfl
    (completes_idled 1 2 Int64.maxValue (untouched.here fun _ => none, ()))
  cases hsize
  exact ⟨hcounts.leaves hreturns hstart hi hm (n := 3) (by decide) (by decide), by decide⟩

end Lowering

end Endmark
