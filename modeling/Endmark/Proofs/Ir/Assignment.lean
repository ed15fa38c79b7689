import Endmark.Proofs.Ir.Liveness

/-!
# Written before it is read

Of a variable it may be known at some labels that it has been written whenever control is
there.  If that is told at no label that control may come to without it, and the variable is
read where it is known to be written only, then on every way through the code it is written
before it is read.
-/

namespace Endmark.Ir

open List
open Liveness (Leads successors labelsFrom)

/-- Is the instruction raw text? -/
def Instr.isRaw : Instr → Bool
  | .raw .. => true
  | _ => false

/-- The labels that control may be at next: those of a jump, and the label that stands here. -/
def Instr.places (i : Instr) : List String :=
  i.targets ++ labelNames [i]

/-- Behind the instruction the variable is known to be written.  Nothing gets past a jump. -/
def Instr.Assigned (x : String) (marks : String → Prop) (known : Prop) : Instr → Prop
  | .label name => marks name
  | i => i.isTerminator = true ∨ known ∨ x ∈ i.writes

/-- The variable is read if it is known to be written only, and labels that control may be at
next tell no more than is known. -/
structure Instr.Fits (x : String) (marks : String → Prop) (known : Prop) (i : Instr) : Prop where
  reads : x ∈ i.reads → known
  places : ∀ name ∈ i.places, marks name → known

/-- Behind the code the variable is known to be written, where it is not before. -/
def Assigned (x : String) (marks : String → Prop) (code : List Instr) : Prop :=
  code.foldl (fun known i => i.Assigned x marks known) False

/-- Each instruction fits what is known before it. -/
def Fits (x : String) (marks : String → Prop) (code : List Instr) : Prop :=
  ∀ (k : Nat) (i : Instr), code[k]? = some i → i.Fits x marks (Assigned x marks (code.take k))

section

variable {i : Instr}

theorem assigned_append_singleton :
  Assigned x marks (code ++ [i]) ↔ i.Assigned x marks (Assigned x marks code)
  := by
  rw [Assigned, foldl_append]
  rfl

/-- What an instruction other than a label or jump leaves known. -/
theorem Instr.assigned_iff (hlabel : labelNames [i] = []) (hjump : i.isTerminator = false) :
  i.Assigned x marks known ↔ known ∨ x ∈ i.writes
  := by
  cases i with
  | label name => cases hlabel
  | _ => simp [Assigned, hjump]

theorem Instr.assigned_of_isTerminator (h : i.isTerminator) :
  i.Assigned x marks known
  := by
  cases i with
  | label name => cases h
  | _ => exact .inl h

/-- One more instruction fits if it does in its place. -/
theorem fits_append_singleton (h : Fits x marks code)
    (hi : i.Fits x marks (Assigned x marks code)) :
  Fits x marks (code ++ [i])
  := by
  intro k j hj
  rcases lt_trichotomy k code.length with hk | rfl | hk
  · rw [take_append_of_le_length hk.le]
    rw [getElem?_append_left hk] at hj
    apply h k j hj
  · rw [getElem?_concat_length] at hj
    cases hj
    rw [take_left]
    apply hi
  · rw [getElem?_eq_none (by simpa using hk)] at hj
    cases hj

/-- Only what is told at the labels of the code matters. -/
theorem assigned_congr (h : ∀ i ∈ code, ∀ name ∈ i.places, marks' name = marks name) :
  Assigned x marks' code = Assigned x marks code
  := by
  induction code using reverseRecOn with
  | nil => rfl
  | append_singleton code i ih =>
    rw [forall_mem_append, forall_mem_singleton] at h
    rw [assigned_append_singleton, assigned_append_singleton, ih h.1]
    cases i with
    | label name => rw [Instr.Assigned, Instr.Assigned, h.2 name mem_cons_self]
    | _ => rfl

theorem fits_congr (h : ∀ i ∈ code, ∀ name ∈ i.places, marks' name = marks name)
    (hfits : Fits x marks code) :
  Fits x marks' code
  := by
  intro k i hi
  have htake := assigned_congr (x := x) fun j hj => h j (mem_of_mem_take (i := k) hj)
  rw [htake]
  constructor
  · apply (hfits k i hi).reads
  · intro name hname
    rw [h i (mem_of_getElem? hi) name hname]
    apply (hfits k i hi).places name hname

end

/-! ### Ways through the code -/

/-- Control comes from the first instruction to the given one, after those of the list. -/
inductive Path (body : List Instr) : List Nat → Nat → Prop
  | start : Path body [] 0
  | step {before : List Nat} {k j : Nat} (h : Path body before k) (hnext : Leads body k j) :
      Path body (before ++ [k]) j

/-- Some instruction of the list writes the variable. -/
def WrittenAt (body : List Instr) (x : String) (before : List Nat) : Prop :=
  ∃ k ∈ before, ∃ i, body[k]? = some i ∧ x ∈ i.writes

/-- The variable is known to be written when control comes to the instruction, be it by a jump
or not. -/
def Arrives (body : List Instr) (x : String) (marks : String → Prop) (k : Nat) : Prop :=
  match body[k]? with
  | some (.label name) => marks name
  | _ => Assigned x marks (body.take k)

theorem assigned_of_arrives (hfits : Fits x marks body) (h : Arrives body x marks k) :
  Assigned x marks (body.take k)
  := by
  unfold Arrives at h
  split at h
  case h_1 name hname =>
    apply (hfits k _ hname).places name
    · simp [Instr.places, labelNames]
    · apply h
  case h_2 => apply h

theorem arrives_of_assigned (hi : body[k]? = some i) (hlabel : labelNames [i] = [])
    (h : Assigned x marks (body.take k)) :
  Arrives body x marks k
  := by
  unfold Arrives
  split
  case h_1 name hname =>
    cases hi.symm.trans hname
    cases hlabel
  case h_2 => apply h

/-- What is known behind an instruction was known when control came to it, or is written by it. -/
theorem Arrives.of_succ (hi : body[k]? = some i) (hjump : i.isTerminator = false)
    (h : Assigned x marks (body.take (k + 1))) :
  Arrives body x marks k ∨ x ∈ i.writes
  := by
  rw [take_add_one, hi] at h
  have h := assigned_append_singleton.mp h
  by_cases hlabel : labelNames [i] = []
  · apply ((Instr.assigned_iff hlabel hjump).mp h).imp_left
    apply arrives_of_assigned hi hlabel
  · left
    obtain ⟨name, rfl⟩ : ∃ name, i = .label name := by
      cases i with
      | label name => exact ⟨name, rfl⟩
      | _ => exact absurd rfl hlabel
    rw [Arrives, hi]
    apply h

/-- The step of control from one instruction to the next. -/
theorem Arrives.of_leads (hfits : Fits x marks body) (hnext : Leads body k j)
    (h : Arrives body x marks j) :
  ∃ i, body[k]? = some i ∧ (Arrives body x marks k ∨ x ∈ i.writes)
  := by
  obtain ⟨i, hi, hj⟩ := hnext
  use i, hi
  rw [successors] at hj
  split at hj
  case isTrue hjump =>
    -- A jump leads to a label, and what that tells has to be known before the jump.
    left
    obtain ⟨name, hname, hlookup⟩ := mem_filterMap.mp hj
    obtain ⟨j', rfl, hlabel⟩ := Liveness.of_mem_labelsFrom (mem_of_lookup_eq_some hlookup)
    rw [zero_add] at h
    rw [Arrives, hlabel] at h
    apply arrives_of_assigned hi
    · cases i with
      | label name => cases hjump
      | _ => rfl
    · exact (hfits k i hi).places name (mem_append_left _ hname) h
  case isFalse hjump =>
    split at hj
    · obtain rfl := mem_singleton.mp hj
      apply of_succ hi (by simpa using hjump)
      apply assigned_of_arrives hfits h
    · cases hj

/-- Wherever the variable is known to be written, it has been written on the way. -/
theorem Path.written (hfits : Fits x marks body) (hpath : Path body before j)
    (h : Arrives body x marks j) :
  WrittenAt body x before
  := by
  induction hpath with
  | start => exact False.elim (assigned_of_arrives hfits h)
  | @step before k j hpath hnext ih =>
    obtain ⟨i, hi, hknown | hwrites⟩ := Arrives.of_leads hfits hnext h
    · obtain ⟨l, hl, hwritten⟩ := ih hknown
      use l, mem_append_left _ hl
    · use k, mem_append_right _ (mem_singleton_self k), i, hi

/-- On every way through the code the variable is written before it is read. -/
theorem Fits.written (hfits : Fits x marks body) (hpath : Path body before j)
    (hi : body[j]? = some i) (hx : x ∈ i.reads) :
  WrittenAt body x before
  := by
  apply hpath.written hfits
  apply arrives_of_assigned hi
  · cases i with
    | label name => cases hx
    | _ => rfl
  · apply (hfits j i hi).reads hx

end Endmark.Ir
