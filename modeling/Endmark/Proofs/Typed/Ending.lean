import Mathlib
import Endmark.Typed.Binding

/-!
# How checks end

A check ends with an error reported, or in one of the results and states that it is said to
end in; what has been reported stays reported.  What a check that is put together from others
ends in follows from what those end in.
-/

namespace Endmark.Typed

/-- Has an error been reported? -/
def State.Faulty (s : State) : Prop :=
  Diagnostic.anyError s.reports.toList = true

namespace Check

/-- The result of a check and the state after it. -/
def outcome (x : Check α) (env : Env) (s : State) : α × State :=
  x env s

@[simp]
theorem outcome_pure :
  (pure a : Check α).outcome env s = (a, s)
  := rfl

@[simp]
theorem outcome_bind {f : α → Check β} :
  (x >>= f).outcome env s = (f (x.outcome env s).1).outcome env (x.outcome env s).2
  := rfl

@[simp]
theorem outcome_read :
  (read : Check Env).outcome env s = (env, s)
  := rfl

@[simp]
theorem outcome_get :
  (get : Check State).outcome env s = (s, s)
  := rfl

@[simp]
theorem outcome_modify :
  (modify g : Check PUnit).outcome env s = (⟨⟩, g s)
  := rfl

/-- From the state `s` the check ends with an error reported, or with a result and a state
in `R`; an error that is reported in `s` stays. -/
def Ends (x : Check α) (env : Env) (s : State) (R : α → State → Prop) : Prop :=
  (s.Faulty → (x.outcome env s).2.Faulty) ∧
    ((x.outcome env s).2.Faulty ∨ R (x.outcome env s).1 (x.outcome env s).2)

variable {x : Check α} {f : PUnit → Check α}

/-- What a check is said to end in may be said less precisely. -/
theorem Ends.mono (h : x.Ends env s R) (hRT : ∀ a s', R a s' → T a s') :
  x.Ends env s T
  := by
  constructor
  · apply h.1
  · apply h.2.imp_right
    apply hRT

/-- A check with an error reported at its end may be said to end in anything. -/
theorem ends_of_faulty (h : (x.outcome env s).2.Faulty) :
  x.Ends env s R
  := ⟨fun _ => h, .inl h⟩

theorem ends_pure (h : R a s) :
  (pure a : Check α).Ends env s R
  := ⟨id, .inr h⟩

/-- Two checks in a row end where the second one ends from where the first one ends. -/
theorem ends_bind {f : α → Check β} {T : α → State → β → State → Prop}
    (hx : x.Ends env s R) (hf : ∀ a s', (f a).Ends env s' (T a s'))
    (hU : ∀ a s' b s'', R a s' → T a s' b s'' → U b s'') :
  (x >>= f).Ends env s U
  := by
  obtain ⟨hx, hxR⟩ := hx
  obtain ⟨hf, hfT⟩ := hf (x.outcome env s).1 (x.outcome env s).2
  constructor
  · intro hs
    apply hf (hx hs)
  · obtain hfaulty | hR := hxR
    · left
      apply hf hfaulty
    · apply hfT.imp_right
      apply hU _ _ _ _ hR

theorem ends_read {f : Env → Check α} (h : (f env).Ends env s R) :
  ((read : Check Env) >>= f).Ends env s R
  := h

theorem ends_get {f : State → Check α} (h : (f s).Ends env s R) :
  ((get : Check State) >>= f).Ends env s R
  := h

/-- A check that first changes the state, and keeps errors, ends where the rest ends from the
changed state. -/
theorem ends_modify (hg : s.Faulty → (g s).Faulty) (h : (f ⟨⟩).Ends env (g s) R) :
  ((modify g : Check PUnit) >>= f).Ends env s R
  := ⟨fun hs => h.1 (hg hs), h.2⟩

theorem ends_set (hs' : s.Faulty → s'.Faulty) (h : (f ⟨⟩).Ends env s' R) :
  ((set s' : Check PUnit) >>= f).Ends env s R
  := ends_modify (g := fun _ => s') hs' h

theorem ends_put {R : PUnit → State → Prop} (hs' : s.Faulty → s'.Faulty) (h : R ⟨⟩ s') :
  (set s' : Check PUnit).Ends env s R
  := ⟨hs', .inr h⟩

/-- A check that reports a fault and goes on ends with an error reported. -/
theorem ends_report (h : ∀ s', s'.Faulty → ((f ⟨⟩).outcome env s').2.Faulty) :
  (report span fault >>= f).Ends env s R
  := by
  apply ends_of_faulty
  apply h
  simp [State.Faulty, Diagnostic.anyError, Fault.at, Diagnostic.error, Diagnostic.isError]

/-- A check that reports a fault and then gives a result ends with an error reported. -/
theorem ends_report_pure :
  (report span fault >>= fun _ => (pure a : Check α)).Ends env s R
  := ends_report fun _ h => h

end Check

end Endmark.Typed
