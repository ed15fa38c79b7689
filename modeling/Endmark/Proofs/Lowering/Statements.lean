import Endmark.Proofs.Lowering.Expressions

/-!
# Lowered statements

The code of statements on words does what the statements do: control falls through to its
end, jumps to one of the labels of the loop around it, or returns the same value.
-/

namespace Endmark.Lowering

open State
open Function
open Option
open Ir (WordType Operand Instr Words Goes labelNames labelAt truthWord)
open Typed (Expr Stmt Arm Exit Ending NoNumber Truthful)

/-- Temporaries with a number below `t` are not changed. -/
def KeepsTemps (t : Nat) (w w' : Words) : Prop :=
  ∀ i, i < t → w' (toString i) = w (toString i)

theorem KeepsTemps.trans (h : KeepsTemps t w w') (h' : KeepsTemps t' w' w'') (ht : t ≤ t') :
  KeepsTemps t w w''
  := by
  intro i hi
  rw [h' i (lt_of_lt_of_le hi ht), h i hi]

theorem Keeps.temps (h : Keeps t w w') :
  KeepsTemps t w w'
  := fun _ hi => h _ (old_toString hi)

/-- Slots are no temporaries. -/
theorem keepsTemps_update (hx : NoNumber x) :
  KeepsTemps t w (update w x (some v))
  := fun i _ => update_of_ne (symm (hx i)) _ _

/-- Control gets from a state to a place where the variables hold what the slots do. -/
def Reaches (body : List Instr) (t : Nat) (start : Ir.State) (σ : Words) (pc : Nat) : Prop :=
  ∃ w', Goes body start ⟨pc, w'⟩ ∧ Follows σ w' ∧ KeepsTemps t start.words w'

/-- Control leaves the code that ends with the state `s'` in the given way. -/
def Arrives (body : List Instr) (loop : Option Loop) (t : Nat) (start : Ir.State) (s' : State)
    (σ : Words) : Exit → Prop
  | .falls => Reaches body t start σ s'.code.size
  | .leaves => ∀ l ∈ loop, ∀ pc ∈ labelAt body l.leave, Reaches body t start σ pc
  | .skips => ∀ l ∈ loop, ∀ pc ∈ labelAt body l.next, Reaches body t start σ pc
  | .returns v => ∃ n, Ir.run? body n start = some v

/-- The code between two states does what the statements do, in the given loop. -/
structure Performs (Γ : String → Ty) (loop : Option Loop) (exec? : Nat → Words → Ending)
    (s s' : State) : Prop where
  extended : Extends s s'
  goes : ∀ (body : List Instr) (n : Nat) (w σ σ' : Words) (exit : Exit), s'.Within body →
    (labelNames body).Nodup → Truthful Γ σ → Follows σ w → exec? n σ = some (σ', exit) →
      Arrives body loop s.temps (s.here w) s' σ' exit

/-! ### Control -/

/-- What is reached later is reached from the start. -/
theorem Reaches.after (h : Reaches body t₁ start₁ σ pc) (hgoes : Goes body start start₁)
    (hkeeps : KeepsTemps t start.words start₁.words) (ht : t ≤ t₁) :
  Reaches body t start σ pc
  := by
  obtain ⟨w', hgoes', hfollows, hkeeps'⟩ := h
  use w', hgoes.trans hgoes', hfollows, hkeeps.trans hkeeps' ht

/-- What comes before an arrival belongs to it. -/
theorem Arrives.after (h : Arrives body loop t₁ start₁ s' σ exit)
    (hgoes : Goes body start start₁) (hkeeps : KeepsTemps t start.words start₁.words)
    (ht : t ≤ t₁) :
  Arrives body loop t start s' σ exit
  := by
  cases exit with
  | falls => apply Reaches.after h hgoes hkeeps ht
  | leaves | skips =>
    intro l hl pc hpc
    apply (h l hl pc hpc).after hgoes hkeeps ht
  | returns v =>
    obtain ⟨n, hn⟩ := h
    apply hgoes.run? hn

namespace Performs

variable {value? : Words → Option Int64} {s : State}

/-- What is done may be said in another way. -/
theorem congr (h : Performs Γ loop f s s') (hfg : ∀ n σ r, g n σ = some r → ∃ m, f m σ = some r) :
  Performs Γ loop g s s'
  := by
  constructor
  · apply h.extended
  · intro body n w σ σ' exit hbody hlabels hσ hw hexec
    obtain ⟨m, hm⟩ := hfg n σ _ hexec
    apply h.goes body m w σ σ' exit hbody hlabels hσ hw hm

/-- What is done is told with one more round. -/
theorem succ (h : Performs Γ loop f s s') (hzero : ∀ σ, g 0 σ = none)
    (hsucc : ∀ n σ, g (n + 1) σ = f n σ) :
  Performs Γ loop g s s'
  := by
  apply h.congr
  intro n σ r hr
  cases n with
  | zero => cases (hzero σ).symm.trans hr
  | succ n => use n, (hsucc n σ).symm.trans hr

theorem refl {s : State} :
  Performs Γ loop (fun _ σ => some (σ, .falls)) s s
  := by
  constructor
  · apply Extends.refl
  · rintro body n w σ σ' exit hbody hlabels hσ hw ⟨⟩
    use w, .refl, hw, fun _ _ => rfl

/-- One thing is done after the other. -/
theorem andThen (hf : Performs Γ loop f s s₁) (hg : Performs Γ loop g s₁ s')
    (htruthful : ∀ n σ, Truthful Γ σ → (f n σ).All (Truthful Γ)) :
  Performs Γ loop (fun n σ => (f n σ).andThen (g n)) s s'
  := by
  constructor
  · apply hf.extended.trans hg.extended
  · intro body n w σ σ' exit hbody hlabels hσ hw hexec
    obtain ⟨⟨σ₁, first⟩, hfirst, hexec⟩ := bind_eq_some_iff.mp hexec
    have harrives := hf.goes body n w σ σ₁ first (hg.extended.within hbody) hlabels hσ hw hfirst
    cases first with
    | falls =>
      obtain ⟨w₁, hgoes, hfollows, hkeeps⟩ := harrives
      apply Arrives.after _ hgoes hkeeps hf.extended.temps
      apply hg.goes body n w₁ σ₁ σ' exit hbody hlabels (htruthful n σ hσ σ₁ _ hfirst) hfollows
        hexec
    | _ =>
      cases hexec
      apply harrives

/-- A value is computed, and something is done that depends on it. -/
theorem of_computes {h : Int64 → Nat → Words → Ending} (hf : Computes Γ value? s o s₁)
    (hs : Extends s₁ s')
    (hgoes : ∀ (body : List Instr) (n : Nat) (v : Int64) (w σ σ' : Words) (exit : Exit),
      s'.Within body → (labelNames body).Nodup → Truthful Γ σ → Follows σ w →
      value? σ = some v → o.value? w = some v → h v n σ = some (σ', exit) →
        Arrives body loop s₁.temps (s₁.here w) s' σ' exit) :
  Performs Γ loop (fun n σ => (value? σ).bind fun v => h v n σ) s s'
  := by
  constructor
  · apply hf.extended.trans hs
  · intro body n w σ σ' exit hbody hlabels hσ hw hexec
    obtain ⟨v, hv, hexec⟩ := bind_eq_some_iff.mp hexec
    obtain ⟨w₁, hgoes₁, hkeeps₁, ho⟩ := hf.goes body w σ v (hs.within hbody) hlabels hσ hw hv
    apply Arrives.after _ hgoes₁ hkeeps₁.temps hf.extended.temps
    apply hgoes body n v w₁ σ σ' exit hbody hlabels hσ (hw.keeps hkeeps₁) hv ho hexec

/-- A value is written to a slot. -/
theorem assign (hf : Computes Γ value? s o s₁) (hx : NoNumber x) :
  Performs Γ loop
    (fun _ σ => (value? σ).bind fun v => some (update σ x (some v), .falls)) s
    (s₁.emit (.move (.var x) ty o))
  := by
  apply of_computes hf ((Extends.refl s₁).emit _)
  rintro body _ v w σ _ _ hbody _ _ hw _ ho ⟨⟩
  refine ⟨update w x (some v), ?_, ?_, ?_⟩
  · apply goes_move hbody ho
  · apply hw.update
  · apply keepsTemps_update hx

/-- A value is computed and not used. -/
theorem drop (hf : Computes Γ value? s o s₁) :
  Performs Γ loop (fun _ σ => (value? σ).bind fun _ => some (σ, .falls)) s s₁
  := by
  apply of_computes hf (.refl s₁)
  rintro body _ v w σ _ _ _ _ _ hw _ _ ⟨⟩
  use w, .refl, hw, fun _ _ => rfl

/-- A value is returned. -/
theorem ret (hf : Computes Γ value? s o s₁) :
  Performs Γ loop (fun _ σ => (value? σ).bind fun v => some (σ, .returns v)) s
    (s₁.emit (.ret (some o)))
  := by
  apply of_computes hf ((Extends.refl s₁).emit _)
  rintro body _ v w σ _ _ hbody _ _ _ _ ho ⟨⟩
  use 1
  have hget : body[(s₁.here w).pc]? = some (.ret (some o)) := getElem?_of_within hbody
  rw [Ir.run?, Ir.step?, hget]
  simp [Instr.effect?, here, ho]

/-- A jump reaches the label. -/
theorem reaches_jump (hbody : (s.emit (.jump name)).Within body) (hw : Follows σ w) :
  ∀ pc ∈ labelAt body name, Reaches body s.temps (s.here w) σ pc
  := by
  intro pc hpc
  refine ⟨w, ?_, hw, fun _ _ => rfl⟩
  apply Goes.of_effect (getElem?_of_within hbody)
  rw [mem_def] at hpc
  simp [Instr.effect?, Ir.State.jump?, hpc, here]

/-- Control leaves the loop or goes to its next round. -/
theorem jump :
  Performs Γ (some l) (fun _ σ => some (σ, .leaves)) s (s.emit (.jump l.leave)) ∧
    Performs Γ (some l) (fun _ σ => some (σ, .skips)) s (s.emit (.jump l.next))
  := by
  refine ⟨⟨(Extends.refl s).emit _, ?_⟩, (Extends.refl s).emit _, ?_⟩
  all_goals
    rintro body _ w σ _ _ hbody _ _ hw ⟨⟩ _ ⟨⟩
    apply reaches_jump hbody hw

/-- Something is done, and control goes on past a label. -/
theorem label (hf : Performs Γ loop f s s₁) :
  Performs Γ loop f s (s₁.emit (.label name))
  := by
  constructor
  · apply hf.extended.emit
  · intro body n w σ σ' exit hbody hlabels hσ hw hexec
    have harrives := hf.goes body n w σ σ' exit hbody.of_emit hlabels hσ hw hexec
    cases exit with
    | falls =>
      obtain ⟨w', hgoes, hfollows, hkeeps⟩ := harrives
      use w', hgoes.trans (goes_label hbody), hfollows, hkeeps
    | _ => apply harrives

/-- The state after the condition of an arm, where its body follows. -/
def armStart (o : Operand) (s : State) : State :=
  (s.label.label.emit (.branch o (labelName s.labels) (labelName (s.labels + 1)))).emit
    (.label (labelName s.labels))

/-- The state after the body of an arm; the next one, if there is one, has the given label. -/
def armEnd (done : String) (next : Nat) (s : State) : State :=
  (s.emit (.jump done)).emit (.label (labelName next))

/-- Of a body and what comes after it one is done, as a condition says. -/
theorem arm {s₂ : State}
    (hcond : Computes Γ (fun σ => (value? σ).bind fun v => some (truthWord (v ≠ 0))) s o a)
    (hbody : Performs Γ loop f (armStart o a) b)
    (hrest : Performs Γ loop g (armEnd done (a.labels + 1) b) (s₂.emit (.label done))) :
  Performs Γ loop (fun n σ => (value? σ).bind fun v => if v = 0 then g n σ else f n σ) s
    (s₂.emit (.label done))
  := by
  have hstart : Extends a (armStart o a) := (Extends.refl a).label.label.emit _ |>.emit _
  have hend : Extends b (armEnd done (a.labels + 1) b) := (Extends.refl b).emit _ |>.emit _
  have hwhole : Performs Γ loop (fun n σ => ((value? σ).bind fun v => some (truthWord (v ≠ 0))).bind
      fun t => if t = 0 then g n σ else f n σ) s (s₂.emit (.label done)) := by
    apply of_computes hcond ((hstart.trans hbody.extended).trans (hend.trans hrest.extended))
    intro body n t w σ σ' exit hwithin hlabels hσ hw _ ho hexec
    have hwithinE := hrest.extended.within hwithin
    have hwithinB := hend.within hwithinE
    have hwithinS := hbody.extended.within hwithinB
    have hbranch := hwithinS.of_emit
    split at hexec
    · rename_i ht
      apply Arrives.after (hrest.goes body n w σ σ' exit hwithin hlabels hσ hw hexec)
      · apply goes_branch (s := a.label.label) hlabels hbranch ho _ hwithinE
        rw [if_pos ht]
      · intro i _
        rfl
      · apply (hstart.trans (hbody.extended.trans hend)).temps
    · rename_i ht
      have harrives := hbody.goes body n w σ σ' exit hwithinB hlabels hσ hw hexec
      have hgoes : Goes body (a.here w) ((armStart o a).here w) := by
        apply goes_branch (s := a.label.label) hlabels hbranch ho _ hwithinS
        rw [if_neg ht]
      cases exit with
      | falls =>
        obtain ⟨w', hgoes', hfollows, hkeeps⟩ := harrives
        use w', (hgoes.trans hgoes').trans (goes_jump hlabels hwithinE.of_emit hwithin), hfollows
        intro i hi
        apply hkeeps i (lt_of_lt_of_le hi hstart.temps)
      | _ =>
        apply harrives.after hgoes _ hstart.temps
        intro i _
        rfl
  apply hwhole.congr
  intro n σ r h
  use n
  obtain ⟨v, hv, h⟩ := bind_eq_some_iff.mp h
  by_cases hzero : v = 0
  · simpa [hv, truthWord] using h
  · simpa [hv, truthWord] using h

end Performs

/-! ### Loops -/

/-- The code between two states computes the bounds of a loop that counts. -/
structure ComputesRange (Γ : String → Ty) (range? : Words → Option (Int64 × Int64)) (s : State)
    (start stop : Operand) (s' : State) : Prop where
  extended : Extends s s'
  old : OldOperand s'.temps stop
  goes : ∀ (body : List Instr) (w σ : Words) (i m : Int64), s'.Within body →
    (labelNames body).Nodup → Truthful Γ σ → Follows σ w → range? σ = some (i, m) →
      ∃ w', Goes body (s.here w) (s'.here w') ∧ Keeps s.temps w w' ∧ start.value? w' = some i ∧
        stop.value? w' = some m

/-- One bound after the other. -/
theorem Computes.range (hf : Computes Γ f s o s') (hg : Computes Γ g s' o' s'') :
  ComputesRange Γ (fun σ => (f σ).bind fun a => (g σ).bind fun b => some (a, b)) s o o' s''
  := by
  constructor
  · apply hf.extended.trans hg.extended
  · apply hg.old
  · intro body w σ i m hbody hlabels hσ hw hr
    obtain ⟨a, ha, hr⟩ := bind_eq_some_iff.mp hr
    obtain ⟨b, hb, hr⟩ := bind_eq_some_iff.mp hr
    cases hr
    obtain ⟨w₁, hgoes₁, hkeeps₁, ho⟩ :=
      hf.goes body w σ i (hg.extended.within hbody) hlabels hσ hw ha
    obtain ⟨w₂, hgoes₂, hkeeps₂, ho'⟩ :=
      hg.goes body w₁ σ m hbody hlabels hσ (hw.keeps hkeeps₁) hb
    refine ⟨w₂, hgoes₁.trans hgoes₂, hkeeps₁.trans hkeeps₂ hf.extended.temps, ?_, ho'⟩
    rw [hkeeps₂.value? hf.old, ho]

namespace Performs

variable {cond : Expr}

/-- The state at the head of a loop, whose labels start with the number `l`. -/
def whileHead (s : State) : State :=
  s.label.label.label.emit (.label (labelName s.labels))

/-- The state after the condition of a loop, where its body follows. -/
def whileStart (l : Nat) (o : Operand) (a : State) : State :=
  (a.emit (.branch o (labelName (l + 1)) (labelName (l + 2)))).emit (.label (labelName (l + 1)))

/-- The state after a loop. -/
def whileEnd (l : Nat) (b : State) : State :=
  (b.emit (.jump (labelName l))).emit (.label (labelName (l + 2)))

/-- Where the jumps out of the body of the loop go. -/
def whileLoop (l : Nat) : Loop where
  next := labelName l
  leave := labelName (l + 2)

/-- A body is done as long as a condition holds. -/
theorem repeat_while
    (hcond : Computes Γ (fun σ => (cond.value? σ).bind fun v => some (truthWord (v ≠ 0)))
      (whileHead s) o a)
    (hbody : Performs Γ (some (whileLoop s.labels)) (fun n σ => Typed.execAll? n inside σ)
      (whileStart s.labels o a) b)
    (htruthful : ∀ n σ, Truthful Γ σ → (Typed.execAll? n inside σ).All (Truthful Γ)) :
  Performs Γ loop (fun n σ => Typed.while? n cond inside σ) s (whileEnd s.labels b)
  := by
  have hhead : Extends s (whileHead s) := (Extends.refl s).label.label.label.emit _
  have hstart : Extends a (whileStart s.labels o a) := (Extends.refl a).emit _ |>.emit _
  have hend : Extends b (whileEnd s.labels b) := (Extends.refl b).emit _ |>.emit _
  constructor
  · apply hhead.trans (hcond.extended.trans (hstart.trans (hbody.extended.trans hend)))
  · intro body n w σ σ' exit hwithin hlabels hσ hw hexec
    have hwithinB := hend.within hwithin
    have hwithinS := hbody.extended.within hwithinB
    have hwithinA := hstart.within hwithinS
    have hwithinH := hcond.extended.within hwithinA
    have hbranch := hwithinS.of_emit
    have hjump := hwithin.of_emit
    -- from the head of the loop on, by the number of rounds
    have hrounds : Arrives body loop (whileHead s).temps ((whileHead s).here w)
        (whileEnd s.labels b) σ' exit := by
      induction n generalizing w σ with
      | zero => cases hexec
      | succ n ih =>
        obtain ⟨v, hv, hexec⟩ := bind_eq_some_iff.mp hexec
        obtain ⟨w₁, hgoes₁, hkeeps₁, ho⟩ := hcond.goes body w σ (truthWord (v ≠ 0)) hwithinA
          hlabels hσ hw (by simp [hv])
        have hw₁ := hw.keeps hkeeps₁
        split at hexec
        · rename_i hzero
          cases hexec
          refine ⟨w₁, hgoes₁.trans ?_, hw₁, hkeeps₁.temps⟩
          apply goes_branch hlabels hbranch ho _ hwithin
          simp [hzero, truthWord]
        · rename_i hzero
          have hgoes : Goes body ((whileHead s).here w) ((whileStart s.labels o a).here w₁) := by
            apply hgoes₁.trans
            apply goes_branch hlabels hbranch ho _ hwithinS
            simp [hzero, truthWord]
          obtain ⟨⟨σ₁, round⟩, hround, hexec⟩ := bind_eq_some_iff.mp hexec
          have harrives := hbody.goes body n w₁ σ σ₁ round hwithinB hlabels hσ hw₁ hround
          have hσ₁ := htruthful n σ hσ σ₁ round hround
          have htemps := (hcond.extended.trans hstart).temps
          cases round with
          | falls =>
            obtain ⟨w₂, hgoes₂, hw₂, hkeeps₂⟩ := harrives
            apply (ih w₂ σ₁ hσ₁ hw₂ hexec).after
            · apply (hgoes.trans hgoes₂).trans (goes_jump hlabels hjump hwithinH)
            · apply hkeeps₁.temps.trans hkeeps₂ htemps
            · apply le_refl
          | skips =>
            obtain ⟨w₂, hgoes₂, hw₂, hkeeps₂⟩ := harrives _ rfl _
              (labelAt_of_within hwithinH hlabels)
            apply (ih w₂ σ₁ hσ₁ hw₂ hexec).after
            · apply (hgoes.trans hgoes₂).trans (goes_label hwithinH)
            · apply hkeeps₁.temps.trans hkeeps₂ htemps
            · apply le_refl
          | leaves =>
            cases hexec
            obtain ⟨w₂, hgoes₂, hw₂, hkeeps₂⟩ := harrives _ rfl _
              (labelAt_of_within hwithin hlabels)
            use w₂, (hgoes.trans hgoes₂).trans (goes_label hwithin), hw₂
            apply hkeeps₁.temps.trans hkeeps₂ htemps
          | returns u =>
            cases hexec
            obtain ⟨k, hk⟩ := harrives
            apply hgoes.run? hk
    apply hrounds.after (goes_label hwithinH) _ hhead.temps
    intro i _
    rfl

/-- The state at the head of a loop that counts. -/
def countHead (start stop : Operand) (s : State) : State :=
  let moved := (((s.temp .i64).temp .i64).emit (.move (.var (toString s.temps)) .i64 start)).emit
    (.move (.var (toString (s.temps + 1))) .i64 stop)
  moved.label.label.label.label.emit (.label (labelName s.labels))

/-- Where the jumps out of the body of the loop go. -/
def countLoop (l : Nat) : Loop where
  next := labelName (l + 2)
  leave := labelName (l + 3)

end Performs

namespace Lower

/-- The kind of the words in a slot. -/
def slotKind (env : Env) (name : String) : WordType :=
  (env.slots.lookup name).getD .i64

/-- The kind of a variable. -/
def kindOf (env : Env) : Typed.Variable → WordType
  | .slot name => slotKind env name
  | .global name => (env.globals.lookup name).getD .i64

/-- The state inside of a loop that counts by a step, where its body follows. -/
def countInside (env : Env) (v : Typed.Variable) (start stop : Operand) (step : Int64)
    (s : State) : State :=
  let op : Ir.BinOp := if 0 < step then .lt else .gt
  let more := ((Performs.countHead start stop s).temp (op.resultType .i64)).emit
    (.binary (.var (toString (s.temps + 2))) op .i64 (.var (toString s.temps))
      (.var (toString (s.temps + 1))))
  ((more.emit (.branch (.var (toString (s.temps + 2))) (labelName (s.labels + 1))
    (labelName (s.labels + 3)))).emit (.label (labelName (s.labels + 1)))).emit
      (.move (placeOf v) (kindOf env v) (.var (toString s.temps)))

/-- The state after the loop. -/
def countOutside (step : Int64) (s b : State) : State :=
  (((b.emit (.label (labelName (s.labels + 2)))).emit
    (.binary (.var (toString s.temps)) .add .i64 (.var (toString s.temps)) (.int step))).emit
      (.jump (labelName s.labels))).emit (.label (labelName (s.labels + 3)))

end Lower

namespace Performs

open Lower (countInside countOutside)

theorem extends_countHead :
  Extends s (countHead start stop s)
  := by
  apply (Extends.refl s).temp |>.temp |>.emit _ |>.emit _ |>.label.label.label.label.emit

theorem extends_countInside (env : Env) (x : String) (start stop : Operand) (s : State) :
  Extends (countHead start stop s) (countInside env (.slot x) start stop 1 s)
  := by
  apply (Extends.refl _).temp |>.emit _ |>.emit _ |>.emit _ |>.emit

theorem extends_countOutside :
  Extends b (countOutside step s b)
  := by
  apply (Extends.refl b).emit _ |>.emit _ |>.emit _ |>.emit

section

variable {e : State}

/-- At the head the counter is compared with the bound. -/
theorem goes_countHead (hlabels : (labelNames body).Nodup)
    (hbody : (countInside env (.slot x) start stop 1 s).Within body)
    (hend : (e.emit (.label (labelName (s.labels + 3)))).Within body) (hx : NoNumber x)
    (hw : Follows σ w) (hi : (Operand.var (toString s.temps)).value? w = some i)
    (hm : (Operand.var (toString (s.temps + 1))).value? w = some m) :
  ∃ w', KeepsTemps (s.temps + 2) w w' ∧
    if i < m then
      Goes body ((countHead start stop s).here w)
          ((countInside env (.slot x) start stop 1 s).here w') ∧
        Follows (update σ x (some i)) w'
    else
      Goes body ((countHead start stop s).here w)
        ((e.emit (.label (labelName (s.labels + 3)))).here w') ∧ Follows σ w'
  := by
  let w₁ := update w (toString (s.temps + 2)) (some (truthWord (i < m)))
  have hinside := hbody.of_emit
  have hbranch := hinside.of_emit
  have hcompare := goes_binary (s := (countHead start stop s).temp .bool) hbranch.of_emit hi hm rfl
  have hmore : (Operand.var (toString (s.temps + 2))).value? w₁ = some (truthWord (i < m)) :=
    update_self ..
  have hkeeps : Keeps (s.temps + 2) w w₁ := keeps_update (le_refl _)
  split
  · rename_i hlt
    have hcounter : (Operand.var (toString s.temps)).value? w₁ = some i := by
      rw [hkeeps.value? (o := .var _) (old_toString (by omega)), hi]
    refine ⟨update w₁ x (some i), ?_, ?_, ?_⟩
    · apply hkeeps.temps.trans (keepsTemps_update hx) (le_refl _)
    · apply (hcompare.trans _).trans (goes_move hbody hcounter)
      apply goes_branch hlabels hbranch hmore _ hinside
      simp [hlt, truthWord]
    · apply hw.temp.update
  · rename_i hlt
    refine ⟨w₁, hkeeps.temps, ?_, hw.temp⟩
    apply hcompare.trans
    apply goes_branch hlabels hbranch hmore _ hend
    simp [hlt, truthWord]

/-- After a round the counter is one more. -/
theorem goes_countOutside (hlabels : (labelNames body).Nodup)
    (hbody : (countOutside 1 s b).Within body) (hhead : (countHead start stop s).Within body)
    (hi : (Operand.var (toString s.temps)).value? w = some i) :
  Goes body ((b.emit (.label (labelName (s.labels + 2)))).here w)
    ((countHead start stop s).here (update w (toString s.temps) (some (i + 1))))
  := by
  have hjump := hbody.of_emit
  apply trans _ (goes_jump hlabels hjump hhead)
  apply goes_binary hjump.of_emit hi rfl rfl

end

variable (hx : NoNumber x) (hΓ : Γ x = .int)
  (hbody : Performs Γ (some (countLoop s.labels)) (fun n σ => Typed.execAll? n inside σ)
    (countInside env (.slot x) start stop 1 s) b)
  (htruthful : ∀ n σ, Truthful Γ σ → (Typed.execAll? n inside σ).All (Truthful Γ))

include hx hΓ hbody htruthful

/-- A body is done as often as a counter is below a bound. -/
theorem repeat_count
    (hwithin : (countOutside 1 s b).Within body) (hlabels : (labelNames body).Nodup)
    (hσ : Truthful Γ σ) (hw : Follows σ w)
    (hi : (Operand.var (toString s.temps)).value? w = some i)
    (hm : (Operand.var (toString (s.temps + 1))).value? w = some m)
    (hexec : Typed.count? n x m inside i σ = some (σ', exit)) :
  Arrives body loop s.temps ((countHead start stop s).here w) (countOutside 1 s b) σ' exit
  := by
  have hstart := extends_countInside env x start stop s
  have hwithinB := extends_countOutside.within hwithin
  have hwithinS := hbody.extended.within hwithinB
  have hwithinH := hstart.within hwithinS
  have hnext : (b.emit (.label (labelName (s.labels + 2)))).Within body :=
    hwithin.of_emit.of_emit.of_emit
  induction n generalizing w σ i with
  | zero => cases hexec
  | succ n ih =>
    rw [Typed.count?] at hexec
    obtain ⟨w₁, hkeeps₁, hhead⟩ := goes_countHead hlabels hwithinS hwithin hx hw hi hm
    split at hhead
    · rename_i hlt
      obtain ⟨hgoes₁, hw₁⟩ := hhead
      rw [if_pos hlt] at hexec
      obtain ⟨⟨σ₁, round⟩, hround, hexec⟩ := bind_eq_some_iff.mp hexec
      have hσ₁ : Truthful Γ (update σ x (some i)) := by
        apply hσ.update
        intro hbool
        cases hΓ.symm.trans hbool
      have harrives := hbody.goes body n w₁ _ σ₁ round hwithinB hlabels hσ₁ hw₁ hround
      have hσ₂ := htruthful n _ hσ₁ σ₁ round hround
      -- the counter and the bound are older than the temporaries of the body
      have hagain {w₂ : Words} (hw₂ : Follows σ₁ w₂)
          (hkeeps₂ : KeepsTemps (countInside env (.slot x) start stop 1 s).temps w₁ w₂)
          (hgoes₂ : Goes body ((countHead start stop s).here w)
            ((b.emit (.label (labelName (s.labels + 2)))).here w₂))
          (hexec : Typed.count? n x m inside (i + 1) σ₁ = some (σ', exit)) :
          Arrives body loop s.temps ((countHead start stop s).here w) (countOutside 1 s b) σ'
            exit := by
        have hkeeps := hkeeps₁.trans hkeeps₂ hstart.temps
        have hi₂ : (Operand.var (toString s.temps)).value? w₂ = some i := by
          rw [← hi]
          apply hkeeps s.temps (Nat.lt_add_of_pos_right two_pos)
        have hnew {k : Nat} (hk : k ≠ s.temps) (hold : k < s.temps + 2) :
            update w₂ (toString s.temps) (some (i + 1)) (toString k) =
              w (toString k) := by
          rw [update_of_ne (toString_ne hk)]
          apply hkeeps k hold
        apply (ih hσ₂ hw₂.temp (update_self ..) _ hexec).after
        · apply hgoes₂.trans (goes_countOutside hlabels hwithin hwithinH hi₂)
        · intro k hk
          apply hnew (ne_of_lt hk) (Nat.lt_add_right 2 hk)
        · apply le_refl
        · rw [← hm]
          apply hnew (Nat.succ_ne_self _) (Nat.lt_succ_self _)
      cases round with
      | falls =>
        obtain ⟨w₂, hgoes₂, hw₂, hkeeps₂⟩ := harrives
        apply hagain hw₂ hkeeps₂ ((hgoes₁.trans hgoes₂).trans (goes_label hnext)) hexec
      | skips =>
        obtain ⟨w₂, hgoes₂, hw₂, hkeeps₂⟩ := harrives _ rfl _
          (labelAt_of_within hnext hlabels)
        apply hagain hw₂ hkeeps₂ ((hgoes₁.trans hgoes₂).trans (goes_label hnext)) hexec
      | leaves =>
        cases hexec
        obtain ⟨w₂, hgoes₂, hw₂, hkeeps₂⟩ := harrives _ rfl _
          (labelAt_of_within hwithin hlabels)
        use w₂, (hgoes₁.trans hgoes₂).trans (goes_label hwithin), hw₂
        intro k hk
        apply hkeeps₁.trans hkeeps₂ hstart.temps k (Nat.lt_add_right 2 hk)
      | returns u =>
        cases hexec
        obtain ⟨k, hk⟩ := harrives
        apply hgoes₁.run? hk
    · rename_i hlt
      rw [if_neg hlt] at hexec
      cases hexec
      use w₁, hhead.1, hhead.2
      intro k hk
      apply hkeeps₁ k (lt_of_lt_of_le hk (Nat.le_add_right _ 2))

/-- A counter and its bound are set, and then a body is done as often as the one is below the
other. -/
theorem count (hrange : ComputesRange Γ range? s₀ start stop s) :
  Performs Γ loop
    (fun n σ => (range? σ).bind fun r => Typed.count? n x r.2 inside r.1 σ) s₀
    (countOutside 1 s b)
  := by
  let counter := toString s.temps
  let limit := toString (s.temps + 1)
  let s₁ := ((s.temp .i64).temp .i64).emit (.move (.var counter) .i64 start)
  let s₂ := s₁.emit (.move (.var limit) .i64 stop)
  have hhead : Extends s₂ (countHead start stop s) :=
    (Extends.refl s₂).label.label.label.label.emit _
  have hmoves : Extends s s₂ := (Extends.refl s).temp |>.temp |>.emit _ |>.emit _
  have hrest : Extends (countHead start stop s) (countOutside 1 s b) :=
    ((extends_countInside ..).trans hbody.extended).trans extends_countOutside
  constructor
  · apply hrange.extended.trans (extends_countHead.trans hrest)
  · intro body n w σ σ' exit hwithin hlabels hσ hw hexec
    obtain ⟨⟨i, m⟩, hr, hexec⟩ := bind_eq_some_iff.mp hexec
    have hwithinH := hrest.within hwithin
    have hwithin₂ := hhead.within hwithinH
    have hwithin₁ : s₁.Within body := hwithin₂.of_emit
    obtain ⟨w₁, hgoes₁, hkeeps₁, hi, hm⟩ := hrange.goes body w σ i m (hmoves.within hwithin₂) hlabels
      hσ hw hr
    let w₂ := update w₁ counter (some i)
    let w₃ := update w₂ limit (some m)
    have hkeeps₂ : Keeps s.temps w₁ w₂ := keeps_update (le_refl _)
    have hkeeps₃ : Keeps s.temps w₂ w₃ := keeps_update (Nat.le_succ _)
    have hm₂ : stop.value? w₂ = some m := by
      rw [hkeeps₂.value? hrange.old, hm]
    have hi₃ : (Operand.var counter).value? w₃ = some i := by
      apply (update_of_ne (toString_ne (ne_of_lt (Nat.lt_succ_self _))) _ _).trans
      apply update_self
    apply Arrives.after (repeat_count hx hΓ hbody htruthful hwithin hlabels hσ
      ((hw.keeps hkeeps₁).temp |>.temp) hi₃ (update_self ..) hexec)
    · apply (hgoes₁.trans (goes_move hwithin₁ hi)).trans
      apply (goes_move (s := s₁) hwithin₂ hm₂).trans (goes_label hwithinH)
    · apply (hkeeps₁.trans (hkeeps₂.trans hkeeps₃ (le_refl _)) hrange.extended.temps).temps
    · apply hrange.extended.temps

end Performs

end Endmark.Lowering
