import Endmark.Lowering.Module
import Endmark.Proofs.Typed.Soundness

/-!
# Code that is emitted

Lowering appends code and takes new numbers for temporaries and labels.
-/

namespace Endmark.Lowering

open Function
open List
open Ir (WordType Operand Instr Words Goes labelNames labelAt)
open Typed (NoNumber)

/-! ### States -/

/-- The name of a label. -/
def labelName (i : Nat) : String :=
  s!"L{i}"

variable {i : Nat}

theorem labelName_inj (h : labelName i = labelName j) :
  i = j
  := by
  have hlist := congrArg String.toList h
  change ("L" ++ i.repr).toList = ("L" ++ j.repr).toList at hlist
  rw [String.toList_append, String.toList_append, append_cancel_left_eq] at hlist
  apply Nat.repr_inj.mp (String.toList_injective hlist)

namespace State

/-- The state with one more instruction. -/
def emit (s : State) (i : Instr) : State :=
  { s with code := s.code.push i }

/-- The state with one more temporary. -/
def temp (s : State) (ty : WordType) : State :=
  { s with temps := s.temps + 1, vars := s.vars.push ⟨toString s.temps, ty⟩ }

/-- The state with one more label. -/
def label (s : State) : State :=
  { s with labels := s.labels + 1 }

/-- Control is where the next instruction comes to stand. -/
def here (s : State) (w : Words) : Ir.State where
  pc := s.code.size
  words := w

/-- The code is the first part of a body. -/
def Within (s : State) (body : List Instr) : Prop :=
  s.code.toList <+: body

variable (s : State) (i : Instr) (ty : WordType)

@[simp] theorem emit_temps : (s.emit i).temps = s.temps := rfl
@[simp] theorem emit_labels : (s.emit i).labels = s.labels := rfl
@[simp] theorem temp_temps : (s.temp ty).temps = s.temps + 1 := rfl
@[simp] theorem temp_labels : (s.temp ty).labels = s.labels := rfl
@[simp] theorem label_temps : s.label.temps = s.temps := rfl
@[simp] theorem label_labels : s.label.labels = s.labels + 1 := rfl

@[simp]
theorem toList_emit :
  (s.emit i).code.toList = s.code.toList ++ [i]
  := Array.toList_push

/-- The last instruction stands where control was. -/
theorem getElem?_of_within {s : State} {i : Instr} (h : (s.emit i).Within body) :
  body[s.code.size]? = some i
  := by
  obtain ⟨rest, rfl⟩ := h
  simp

/-- A label that is not repeated is found where it stands. -/
theorem labelAt_of_within {s : State} (h : (s.emit (.label name)).Within body)
    (hbody : (labelNames body).Nodup) :
  labelAt body name = some s.code.size
  := by
  obtain ⟨rest, rfl⟩ := h
  rw [toList_emit, append_assoc] at hbody ⊢
  apply Ir.labelAt_eq hbody

end State

/-! ### What lowering gives -/

namespace Lower

/-- Lowering goes through, with the result and the state after it. -/
def Gives (x : Lower α) (env : Env) (s : State) (a : α) (s' : State) : Prop :=
  (x.run env).run s = (.ok a, s')

theorem gives_iff {x : Lower α} {t : State} (h : (x.run env).run s = (.ok b, t)) :
  x.Gives env s a s' ↔ a = b ∧ s' = t
  := by
  rw [Gives, h]
  constructor
  · rintro ⟨⟩
    exact ⟨rfl, rfl⟩
  · rintro ⟨rfl, rfl⟩
    rfl

theorem gives_pure :
  (pure a : Lower α).Gives env s b s' ↔ b = a ∧ s' = s
  := gives_iff rfl
/-- Lowering in turn. -/
theorem gives_bind {x : Lower α} {b : β} :
  (x >>= f).Gives env s b s' ↔ ∃ a t, x.Gives env s a t ∧ (f a).Gives env t b s'
  := by
  have hrun : ((x >>= f).run env).run s =
      ExceptT.bindCont (fun a => (f a).run env) ((x.run env).run s).1 ((x.run env).run s).2 := rfl
  rw [Gives, hrun]
  rcases hx : (x.run env).run s with ⟨a | a, t⟩
  · constructor
    · rintro ⟨⟩
    · rintro ⟨a, t, hx', _⟩
      cases hx.symm.trans hx'
  · constructor
    · intro hf
      use a, t, hx, hf
    · rintro ⟨a, t, hx', hf⟩
      cases hx.symm.trans hx'
      apply hf

theorem gives_get {t : State} :
  (get : Lower State).Gives env s t s' ↔ t = s ∧ s' = s
  := gives_iff rfl

/-- What goes through is not affected by going on after faults. -/
theorem gives_attempt? {x : Lower α} (h : x.Gives env s a s') :
  x.attempt?.Gives env s (some a) s'
  := by
  have hmap : (some <$> x).Gives env s (some a) s' := by
    rw [map_eq_pure_bind, gives_bind]
    exact ⟨a, s', h, gives_pure.mpr ⟨rfl, rfl⟩⟩
  simp only [Gives, attempt?, tryCatch, tryCatchThe, MonadExceptOf.tryCatch, ReaderT.run,
    ExceptT.run, ExceptT.tryCatch, ExceptT.mk, StateT.bind, bind] at hmap ⊢
  rw [hmap]
  rfl

theorem gives_emit {i : Instr} :
  (emit i).Gives env s u s' ↔ s' = s.emit i
  := (gives_iff rfl).trans (and_iff_right rfl)

theorem gives_temp :
  (temp ty).Gives env s x s' ↔ x = toString s.temps ∧ s' = s.temp ty
  := gives_iff rfl

theorem gives_label :
  label.Gives env s x s' ↔ x = labelName s.labels ∧ s' = s.label
  := gives_iff rfl

end Lower

/-! ### States that follow on each other -/

/-- Code has been appended and numbers have been taken; there are no new reports. -/
structure Extends (s s' : State) : Prop where
  code : s.code.toList <+: s'.code.toList
  temps : s.temps ≤ s'.temps
  strings : s'.strings = s.strings
  reports : s'.reports = s.reports

namespace Extends

theorem refl (s : State) :
  Extends s s
  := ⟨prefix_rfl, le_refl _, rfl, rfl⟩

theorem trans (h : Extends s s') (h' : Extends s' s'') :
  Extends s s''
  := by
  constructor
  · apply h.code.trans h'.code
  · apply h.temps.trans h'.temps
  · rw [h'.strings, h.strings]
  · rw [h'.reports, h.reports]

theorem emit (h : Extends s s') (i : Instr) :
  Extends s (s'.emit i)
  := by
  apply h.trans
  refine ⟨?_, le_refl _, rfl, rfl⟩
  rw [State.toList_emit]
  apply prefix_append

theorem temp (h : Extends s s') :
  Extends s (s'.temp ty)
  := h.trans ⟨prefix_rfl, Nat.le_succ _, rfl, rfl⟩

theorem label (h : Extends s s') :
  Extends s s'.label
  := h.trans ⟨prefix_rfl, le_refl _, rfl, rfl⟩

theorem within (h : Extends s s') (hbody : s'.Within body) :
  s.Within body
  := h.code.trans hbody

end Extends

theorem State.Within.of_emit {s : State} {i : Instr} (h : (s.emit i).Within body) :
  s.Within body
  := ((Extends.refl s).emit i).within h

/-! ### Words -/

/-- The name is not that of a temporary with the number `t` or a later one. -/
def Old (t : Nat) (x : String) : Prop :=
  ∀ i, t ≤ i → x ≠ toString i

theorem Old.mono (h : Old t x) (ht : t ≤ t') :
  Old t' x
  := fun i hi => h i (ht.trans hi)

theorem toString_ne (h : i ≠ j) :
  toString i ≠ toString j
  := fun heq => h (Nat.repr_inj.mp heq)

theorem old_toString (h : i < t) :
  Old t (toString i)
  := fun _ hj => toString_ne (ne_of_lt (lt_of_lt_of_le h hj))

theorem old_of_noNumber (h : NoNumber x) :
  Old t x
  := fun i _ => h i

/-- The operand is no temporary with the number `t` or a later one. -/
def OldOperand (t : Nat) : Operand → Prop
  | .var x => Old t x
  | _ => True

/-- Only temporaries with the number `t` or a later one are changed. -/
def Keeps (t : Nat) (w w' : Words) : Prop :=
  ∀ x, Old t x → w' x = w x

theorem Keeps.refl :
  Keeps t w w
  := fun _ _ => rfl

theorem Keeps.trans (h : Keeps t w w') (h' : Keeps t' w' w'') (ht : t ≤ t') :
  Keeps t w w''
  := by
  intro x hx
  rw [h' x (hx.mono ht), h x hx]

theorem Keeps.mono (h : Keeps t' w w') (ht : t ≤ t') :
  Keeps t w w'
  := fun x hx => h x (hx.mono ht)

theorem keeps_update {v : Int64} (h : t ≤ i) :
  Keeps t w (update w (toString i) (some v))
  := by
  intro x hx
  rw [update_of_ne (hx i h)]

theorem Keeps.value? (h : Keeps t w w') (ho : OldOperand t o) :
  o.value? w' = o.value? w
  := by
  cases o with
  | var x => apply h x ho
  | _ => rfl

/-- Variables hold what the slots of the source do. -/
def Follows (σ w : Words) : Prop :=
  ∀ x, NoNumber x → w x = σ x

theorem Follows.keeps (h : Follows σ w) (hw : Keeps t w w') :
  Follows σ w'
  := by
  intro x hx
  rw [hw x (old_of_noNumber hx), h x hx]

/-- A slot is written in both. -/
theorem Follows.update (h : Follows σ w) :
  Follows (update σ x (some v)) (update w x (some v))
  := by
  intro y hy
  by_cases hxy : y = x
  · subst hxy
    rw [update_self, update_self]
  · rw [update_of_ne hxy, update_of_ne hxy, h y hy]

/-- Temporaries are no slots. -/
theorem Follows.temp (h : Follows σ w) :
  Follows σ (Function.update w (toString i) (some v))
  := by
  intro y hy
  rw [update_of_ne (hy i), h y hy]

end Endmark.Lowering
