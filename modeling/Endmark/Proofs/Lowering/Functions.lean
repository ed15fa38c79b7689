import Endmark.Proofs.Lowering.Statements

/-!
# Lowered functions

Lowering goes through for every statement on words, and its code does what the statement does.
So a function on words that returns a value for its arguments is lowered to one that returns
the same value.
-/

namespace Endmark.Lowering

open Performs
open Typed
open Ir (WordType Operand Instr Words Goes labelNames truthWord)

namespace Lower

variable {env : Env}

/-- Lowering goes through, and its code does what is said. -/
def Does (Γ : String → Ty) (env : Env) (loop : Option Loop) (x : Lower PUnit)
    (exec? : Nat → Words → Ending) : Prop :=
  ∀ s, ∃ s', x.Gives env s ⟨⟩ s' ∧ Performs Γ loop exec? s s'

/-! ### Simple statements -/

theorem gives_assign :
  (assign v o).Gives env s u s' ↔ s' = s.emit (.move (placeOf v) (kindOf env v) o)
  := by
  cases v <;> exact (gives_iff rfl).trans (and_iff_right rfl)

theorem does_assign (hx : Makes Γ env x f) (hname : NoNumber name) :
  Does Γ env loop (do let v ← x; assign (.slot name) v)
    fun _ σ => (f σ).bind fun v => some (Function.update σ name (some v), .falls)
  := by
  intro s
  obtain ⟨o, s₁, hgives, hcomputes⟩ := hx s
  simp only [gives_bind]
  exact ⟨_, ⟨o, s₁, hgives, rfl⟩, .assign hcomputes hname⟩

theorem does_drop (hx : Makes Γ env x f) :
  Does Γ env loop (do let _ ← x; return ⟨⟩)
    fun _ σ => (f σ).bind fun _ => some (σ, .falls)
  := by
  intro s
  obtain ⟨o, s₁, hgives, hcomputes⟩ := hx s
  refine ⟨s₁, ?_, drop hcomputes⟩
  rw [gives_bind]
  exact ⟨o, s₁, hgives, gives_pure.mpr ⟨rfl, rfl⟩⟩

theorem does_ret (hx : Makes Γ env x f) :
  Does Γ env loop (do let v ← x; emit (.ret (some v)))
    fun _ σ => (f σ).bind fun v => some (σ, .returns v)
  := by
  intro s
  obtain ⟨o, s₁, hgives, hcomputes⟩ := hx s
  simp only [gives_bind]
  exact ⟨_, ⟨o, s₁, hgives, rfl⟩, ret hcomputes⟩

/-- Leaving a loop, or starting its next round. -/
theorem does_jumpOut :
  Does Γ env loop (jumpOut loop (·.leave)) (fun _ σ => some (σ, .leaves)) ∧
    Does Γ env loop (jumpOut loop (·.next)) fun _ σ => some (σ, .skips)
  := by
  cases loop with
  | none =>
    constructor
    all_goals
      refine fun s => ⟨s, gives_pure.mpr ⟨rfl, rfl⟩, .refl s, ?_⟩
      rintro _ _ _ _ _ _ _ _ _ _ ⟨⟩ _ ⟨⟩
  | some l =>
    exact ⟨fun s => ⟨_, gives_emit.mpr rfl, jump.1⟩,
      fun s => ⟨_, gives_emit.mpr rfl, jump.2⟩⟩

/-! ### Loops -/

variable {cond : Expr} {body : Loop → Lower PUnit}

/-- The truth of a condition. -/
theorem makes_cond (hcond : cond.Worded Γ) :
  Makes Γ env (do let value ← expr cond; truth value cond.ty)
    fun σ => (cond.value? σ).bind fun v => some (truthWord (v ≠ 0))
  := by
  apply makes_truth (makes_expr cond hcond) hcond.isWord
  intro σ v hσ hv hty
  apply hcond.truth hσ hv hty

/-- A loop does what its meaning says. -/
theorem does_while (hcond : cond.Worded Γ) (hinside : WordedAll Γ inside)
    (hbody : ∀ l, Does Γ env (some l) (body l) fun n σ => execAll? n inside σ) :
  Does Γ env loop (whileLoop cond body) fun n σ => while? n cond inside σ
  := by
  intro s
  obtain ⟨o, a, hgives, hcomputes⟩ := makes_cond hcond (whileHead s)
  obtain ⟨b, hgivesB, hperforms⟩ :=
    hbody (Performs.whileLoop s.labels) (whileStart s.labels o a)
  refine ⟨whileEnd s.labels b, ?_, ?_⟩
  · obtain ⟨v, t, hv, htruth⟩ := gives_bind.mp hgives
    simp only [whileLoop, gives_bind, gives_label]
    exact ⟨_, _, ⟨rfl, rfl⟩, _, _, ⟨rfl, rfl⟩, _, _, ⟨rfl, rfl⟩, ⟨⟩, _, rfl, v, t, hv, o, a,
      htruth, ⟨⟩, _, rfl, ⟨⟩, _, rfl, ⟨⟩, b, hgivesB, ⟨⟩, _, rfl, rfl⟩
  · apply repeat_while hcomputes hperforms
    intro n σ hσ
    apply exec?_truthful.2.1 inside σ hinside hσ

theorem gives_countingLoop :
  (countingLoop v start stop step body).Gives env s u s' ↔
    ∃ b, (body (countLoop s.labels)).Gives env (countInside env v start stop step s) ⟨⟩ b ∧
      s' = countOutside step s b
  := by
  -- all states on the way but the one after the body are known
  simp only [countingLoop, gives_bind, gives_label, gives_emit, gives_temp, gives_assign,
    gives_binary, and_assoc, exists_and_left, exists_eq_left, exists_const]
  exact ⟨fun ⟨_, h⟩ => h, fun h => ⟨⟨⟩, h⟩⟩

/-- Lowering goes through, and its code computes the bounds of a loop that counts. -/
def MakesRange (Γ : String → Ty) (env : Env) (x : Lower (Operand × Operand))
    (range? : Words → Option (Int64 × Int64)) : Prop :=
  ∀ s, ∃ start stop s', x.Gives env s (start, stop) s' ∧ ComputesRange Γ range? s start stop s'

theorem makesRange_stop (hstop : Makes Γ env (expr stop) fun σ => stop.value? σ) :
  MakesRange Γ env (boundsOf span [stop]) (bounds? · [stop])
  := by
  intro s
  have hzero : Computes Γ (fun _ => some 0) s (.int 0) s :=
    .of_operand trivial fun _ _ _ _ hv => hv
  obtain ⟨o, s₁, hgives, hcomputes⟩ := hstop s
  refine ⟨.int 0, o, s₁, ?_, hzero.range hcomputes⟩
  rw [boundsOf, gives_bind]
  exact ⟨o, s₁, hgives, gives_pure.mpr ⟨rfl, rfl⟩⟩

theorem makesRange_both (hstart : Makes Γ env (expr start) fun σ => start.value? σ)
    (hstop : Makes Γ env (expr stop) fun σ => stop.value? σ) :
  MakesRange Γ env (boundsOf span [start, stop]) (bounds? · [start, stop])
  := by
  intro s
  obtain ⟨o, s₁, hgives, hcomputes⟩ := hstart s
  obtain ⟨o', s₂, hgives', hcomputes'⟩ := hstop s₁
  refine ⟨o, o', s₂, ?_, hcomputes.range hcomputes'⟩
  simp only [boundsOf, gives_bind]
  exact ⟨some o, s₁, gives_attempt? hgives, o', s₂, hgives', gives_pure.mpr ⟨rfl, rfl⟩⟩

/-- A loop over a range does what its meaning says. -/
theorem does_for (hrange : MakesRange Γ env (boundsOf note.span args) (bounds? · args))
    (hstep : args[2]? = none) (hname : NoNumber name) (hΓ : Γ name = .int)
    (hinside : WordedAll Γ inside)
    (hbody : ∀ l, Does Γ env (some l) (body l) fun n σ => execAll? n inside σ) :
  Does Γ env loop (forLoop (.slot name) (.builtin note .range args) body)
    fun n σ => (bounds? σ args).bind fun r => count? n name r.2 inside r.1 σ
  := by
  intro s₀
  obtain ⟨start, stop, s, hgives, hcomputes⟩ := hrange s₀
  obtain ⟨b, hgivesB, hperforms⟩ := hbody (countLoop s.labels)
    (countInside env (.slot name) start stop 1 s)
  refine ⟨countOutside 1 s b, ?_, count hname hΓ hperforms
    (fun n σ hσ => exec?_truthful.2.1 inside σ hinside hσ) hcomputes⟩
  rw [forLoop, hstep]
  simp only [gives_bind]
  exact ⟨1, s₀, gives_pure.mpr ⟨rfl, rfl⟩, (start, stop), s, hgives,
    gives_countingLoop.mpr ⟨b, hgivesB, rfl⟩⟩

/-! ### Branches -/

/-- Lowering goes through for the arms and for what is done otherwise, and their code, with the
label at its end, does what the branch does. -/
def DoesArms (Γ : String → Ty) (env : Env) (loop : Option Loop) (arms : List Arm)
    (otherwise : List Stmt) : Prop :=
  ∀ done s, ∃ s₁ s₂, (armsOf loop done arms).Gives env s ⟨⟩ s₁ ∧
    (stmts loop otherwise).Gives env s₁ ⟨⟩ s₂ ∧
    Performs Γ loop
      (fun n σ => (Typed.choose? σ arms otherwise).bind fun body => Typed.execAll? n body σ) s
      (s₂.emit (.label done))

theorem doesArms_nil
    (h : Does Γ env loop (stmts loop otherwise) fun n σ => execAll? n otherwise σ) :
  DoesArms Γ env loop [] otherwise
  := by
  intro done s
  obtain ⟨s', hgives, hperforms⟩ := h s
  exact ⟨s, s', gives_pure.mpr ⟨rfl, rfl⟩, hgives, hperforms.label⟩

/-- One more arm in front of the others. -/
theorem doesArms_cons (hcond : cond.Worded Γ)
    (hinside : Does Γ env loop (stmts loop inside) fun n σ => execAll? n inside σ)
    (hrest : DoesArms Γ env loop rest otherwise) :
  DoesArms Γ env loop (.mk cond inside :: rest) otherwise
  := by
  intro done s
  obtain ⟨o, a, hgives, hcomputes⟩ := makes_cond hcond s
  obtain ⟨b, hgivesB, hperformsB⟩ := hinside (armStart o a)
  obtain ⟨s₁, s₂, hgives₁, hgives₂, hperforms⟩ :=
    hrest done (armEnd done (a.labels + 1) b)
  refine ⟨s₁, s₂, ?_, hgives₂, ?_⟩
  · obtain ⟨v, t, hv, htruth⟩ := gives_bind.mp hgives
    simp only [armsOf, gives_bind, gives_label]
    exact ⟨v, t, hv, o, a, htruth, _, _, ⟨rfl, rfl⟩, _, _, ⟨rfl, rfl⟩, ⟨⟩, _, rfl, ⟨⟩, _, rfl,
      ⟨⟩, b, hgivesB, ⟨⟩, _, rfl, ⟨⟩, _, rfl, hgives₁⟩
  · apply (arm hcomputes hperformsB hperforms).congr
    intro n σ r hr
    use n
    obtain ⟨body, hbody, hr⟩ := Option.bind_eq_some_iff.mp hr
    obtain ⟨v, hv, hbody⟩ := Option.bind_eq_some_iff.mp hbody
    rw [hv, Option.bind_some]
    split at hbody
    · rename_i hzero
      rw [if_pos hzero, hbody]
      apply hr
    · rename_i hzero
      rw [if_neg hzero]
      cases hbody
      apply hr

theorem does_branch (h : DoesArms Γ env loop arms otherwise) :
  Does Γ env loop (stmt loop (.branch span arms otherwise))
    fun n σ => (choose? σ arms otherwise).bind fun body => execAll? n body σ
  := by
  intro s
  obtain ⟨s₁, s₂, hgives₁, hgives₂, hperforms⟩ := h (labelName s.labels) s.label
  refine ⟨s₂.emit (.label (labelName s.labels)), ?_, ?_, hperforms.goes⟩
  · simp only [stmt, gives_bind, gives_label]
    exact ⟨_, _, ⟨rfl, rfl⟩, ⟨⟩, s₁, hgives₁, ⟨⟩, s₂, hgives₂, rfl⟩
  · apply (Extends.refl s).label.trans hperforms.extended

/-! ### Statements -/

/-- What a statement does is known from its parts. -/
theorem Does.of_parts {x : Lower PUnit} (hx : Does Γ env loop x g) (hstmt : stmt loop st = x)
    (hexec : ∀ n σ, st.exec? (n + 1) σ = g n σ) :
  Does Γ env loop (stmt loop st) fun n σ => st.exec? n σ
  := by
  intro s
  obtain ⟨s', hgives, hperforms⟩ := hx s
  exact ⟨s', hstmt ▸ hgives, hperforms.succ (fun _ => rfl) hexec⟩

theorem does_nil :
  Does Γ env loop (stmts loop []) fun n σ => execAll? n [] σ
  := by
  intro s
  exact ⟨s, gives_pure.mpr ⟨rfl, rfl⟩, refl.succ (fun _ => rfl) fun _ _ => rfl⟩

/-- One statement after the other. -/
theorem does_cons (hst : st.Worded Γ)
    (hfirst : Does Γ env loop (stmt loop st) fun n σ => st.exec? n σ)
    (hrest : Does Γ env loop (stmts loop rest) fun n σ => execAll? n rest σ) :
  Does Γ env loop (stmts loop (st :: rest)) fun n σ => execAll? n (st :: rest) σ
  := by
  intro s
  obtain ⟨s₁, hgives₁, hperforms₁⟩ := hfirst s
  obtain ⟨s₂, hgives₂, hperforms₂⟩ := hrest s₁
  refine ⟨s₂, ?_, ?_⟩
  · rw [stmts, gives_bind]
    exact ⟨some ⟨⟩, s₁, gives_attempt? hgives₁, hgives₂⟩
  · have htruthful (n : Nat) (σ : Words) (hσ : Truthful Γ σ) :
        (st.exec? n σ).All (Truthful Γ) := exec?_truthful.1 st σ hst hσ
    exact (hperforms₁.andThen hperforms₂ htruthful).succ (fun _ => rfl) fun _ _ => rfl

mutual

/-- Statements on words are lowered, and their code does what they do. -/
theorem does_stmt :
  ∀ (st : Stmt) (loop : Option Loop), st.Worded Γ →
    Does Γ env loop (stmt loop st) fun n σ => st.exec? n σ
  | .assign _ (.var (.slot x)) value, loop, h => by
    exact (does_assign (makes_expr value h.2.2) h.1).of_parts rfl fun _ _ => rfl
  | .expr _ e, loop, h => by
    exact (does_drop (makes_expr e h)).of_parts rfl fun _ _ => rfl
  | .branch _ arms otherwise, loop, h => by
    have harms := doesArms arms otherwise loop h.1 (does_stmts otherwise loop h.2)
    exact (does_branch harms).of_parts rfl fun _ _ => rfl
  | .whileLoop _ cond body, loop, h => by
    have hbody l := does_stmts body (some l) h.2
    exact (does_while h.1 h.2 hbody).of_parts rfl fun _ _ => rfl
  | .forLoop _ (.slot x) (.builtin note .range [stop]) body, loop, h => by
    have hbody l := does_stmts body (some l) h.2.2.2
    have hrange : MakesRange Γ env (boundsOf note.span [stop]) (bounds? · [stop]) :=
      makesRange_stop (makes_expr stop h.2.2.1)
    exact (does_for hrange rfl h.1 h.2.1 h.2.2.2 hbody).of_parts rfl fun _ _ => rfl
  | .forLoop _ (.slot x) (.builtin note .range [start, stop]) body, loop, h => by
    have hbody l := does_stmts body (some l) h.2.2.2.2
    have hrange : MakesRange Γ env (boundsOf note.span [start, stop])
        (bounds? · [start, stop]) :=
      makesRange_both (makes_expr start h.2.2.1) (makes_expr stop h.2.2.2.1)
    exact (does_for hrange rfl h.1 h.2.1 h.2.2.2.2 hbody).of_parts rfl fun _ _ => rfl
  | .ret _ (some value), loop, h => by
    exact (does_ret (makes_expr value h)).of_parts rfl fun _ _ => rfl
  | .ret _ none, loop, _ => by
    have hzero : Makes Γ env (pure (.int 0)) fun _ => some 0 :=
      makes_pure (fun _ => trivial) fun _ _ _ _ hv => hv
    exact (does_ret hzero).of_parts rfl fun _ _ => rfl
  | .leave _, loop, _ => does_jumpOut.1.of_parts rfl fun _ _ => rfl
  | .next _, loop, _ => does_jumpOut.2.of_parts rfl fun _ _ => rfl

theorem does_stmts :
  ∀ (body : List Stmt) (loop : Option Loop), WordedAll Γ body →
    Does Γ env loop (stmts loop body) fun n σ => execAll? n body σ
  | [], _, _ => does_nil
  | st :: rest, loop, h => does_cons h.1 (does_stmt st loop h.1) (does_stmts rest loop h.2)

theorem doesArms :
  ∀ (arms : List Arm) (otherwise : List Stmt) (loop : Option Loop), WordedArms Γ arms →
    Does Γ env loop (stmts loop otherwise) (fun n σ => execAll? n otherwise σ) →
      DoesArms Γ env loop arms otherwise
  | [], _, _, _, ho => doesArms_nil ho
  | .mk _ inside :: rest, otherwise, loop, h, ho =>
    doesArms_cons h.1 (does_stmts inside loop h.2.1) (doesArms rest otherwise loop h.2.2 ho)

end

end Lower

end Endmark.Lowering
