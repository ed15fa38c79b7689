import Endmark.Proofs.Lowering.Emission

/-!
# Lowered expressions

The code of an expression on words goes through to its end, where the operand that it is
lowered to has the value of the expression.  On the way new temporaries are written only.
-/

namespace Endmark.Lowering

open Ir
open Function
open Int64
open Option
open Typed (Expr NoNumber Truthful operated? decided?)
open Endmark.Tree (BinaryOp UnaryOp)

/-! ### Operators -/

/-- What is left over has the sign of what is divided. -/
theorem tmod_neg_iff {a : Int} (h : a.tmod b ≠ 0) :
  a.tmod b < 0 ↔ a < 0
  := by
  constructor
  · intro hneg
    by_contra hge
    have := Int.tmod_nonneg b (not_lt.mp hge)
    omega
  · intro hneg
    have hneg' := Int.tmod_nonneg b (neg_nonneg_of_nonpos (le_of_lt hneg))
    rw [Int.neg_tmod] at hneg'
    omega

/-- The truncated quotient overshoots just when it is not whole and the signs differ. -/
theorem overshoots_iff :
  overshoots a b ↔
    ¬ b.toInt ∣ a.toInt ∧ (a.toInt < 0 ↔ 0 < b.toInt)
  := by
  rw [Int.dvd_iff_tmod_eq_zero]
  by_cases h : a.toInt.tmod b.toInt = 0
  · have hzero : a % b = 0 := by
      rw [← toInt_inj, toInt_mod, h]
      rfl
    simp [overshoots, hzero, h]
  · have hne : a % b ≠ 0 := by
      rwa [← toInt_inj.ne, toInt_mod]
    have hneg : a % b < 0 ↔ a.toInt < 0 := by
      rw [lt_iff_toInt_lt, toInt_mod]
      apply tmod_neg_iff h
    have hpos : 0 < b ↔ 0 < b.toInt := lt_iff_toInt_lt
    simp only [overshoots, hneg, hpos]
    simp [hne, h]

/-- Division that rounds down, from that which truncates. -/
theorem fdiv_eq (hb : b.toInt ≠ 0) :
  ofInt (a.toInt.fdiv b.toInt) = if overshoots a b then a / b - 1 else a / b
  := by
  have htdiv : ofInt (a.toInt.tdiv b.toInt) = a / b := by
    rw [ofInt_eq_iff_bmod_eq_toInt, toInt_div]
  have hsign : (if b.toInt ∣ a.toInt then 0 else if 0 ≤ a.toInt then
      if 0 ≤ b.toInt then 0 else 1 else if 0 ≤ b.toInt then b.toInt.sign else 1 + b.toInt.sign) =
      if overshoots a b then (1 : Int) else 0 := by
    simp only [overshoots_iff]
    obtain hneg | hpos := lt_or_gt_of_ne hb
    · rw [Int.sign_eq_neg_one_of_neg hneg]
      split_ifs <;> omega
    · rw [Int.sign_eq_one_of_pos hpos]
      split_ifs <;> omega
  rw [Int.fdiv_eq_tdiv, hsign, ofInt_sub, htdiv]
  split
  · rfl
  · apply Int64.sub_zero

/-- The remainder that goes with it. -/
theorem fmod_eq :
  ofInt (a.toInt.fmod b.toInt) = if overshoots a b then a % b + b else a % b
  := by
  have htmod : ofInt (a.toInt.tmod b.toInt) = a % b := by
    rw [← toInt_mod, ofInt_toInt]
  have hsign : (if b.toInt ∣ a.toInt then 0 else if 0 ≤ a.toInt then
      if 0 ≤ b.toInt then 0 else b.toInt else if 0 ≤ b.toInt then (b.toInt.natAbs : Int)
        else 2 * (b.toInt.toNat : Int)) =
      if overshoots a b then b.toInt else 0 := by
    simp only [overshoots_iff]
    split_ifs <;> omega
  rw [Int.fmod_eq_tmod, hsign, ofInt_add, htmod]
  split
  · rw [ofInt_toInt]
  · apply Int64.add_zero

/-- Comparisons of the source are those of words. -/
theorem operated?_of_comparison? (h : Lower.comparison? op = some c) (a b : Int64) :
  operated? op a b = c.value? a b
  := by
  cases op <;> cases h <;>
    simp [operated?, BinOp.value?, toInt_inj, lt_iff_toInt_lt,
      le_iff_toInt_le]

/-- Operations of the source on integers are those on words. -/
theorem operated?_of_intOperation? (h : Lower.intOperation? op = some o) (a b : Int64) :
  operated? op a b = o.value? a b
  := by
  have hzero : b.toInt = 0 ↔ b = 0 := by
    rw [← toInt_inj, toInt_zero]
  cases op <;> cases h
  · simp [operated?, BinOp.value?]
  · simp [operated?, BinOp.value?]
  · simp [operated?, BinOp.value?]
  · simp only [operated?, BinOp.value?, hzero]
    split
    · rfl
    · rw [fdiv_eq (by rwa [ne_eq, hzero])]
  · simp only [operated?, BinOp.value?, hzero]
    split
    · rfl
    · rw [fmod_eq]

/-! ### Single instructions -/

section

variable {s t : State} {body : List Instr}

/-- One instruction that goes on to the next. -/
theorem goes_emit (h : (s.emit i).Within body)
    (heffect : i.effect? body (s.here w) = some (.goes ⟨s.code.size + 1, w'⟩)) :
  Goes body (s.here w) ((s.emit i).here w')
  := by
  have hhere : (s.emit i).here w' = ⟨s.code.size + 1, w'⟩ := by
    simp [State.here, State.emit]
  rw [hhere]
  apply Goes.of_effect (State.getElem?_of_within h) heffect

variable {name : String}

theorem goes_label (h : (s.emit (.label name)).Within body) :
  Goes body (s.here w) ((s.emit (.label name)).here w)
  := goes_emit h rfl

theorem goes_move (h : (s.emit (.move (.var x) ty src)).Within body) (hv : src.value? w = some v) :
  Goes body (s.here w)
    ((s.emit (.move (.var x) ty src)).here (update w x (some v)))
  := by
  apply goes_emit h
  simp [Instr.effect?, State.here, hv, State.put]

theorem goes_binary {op : BinOp}
    (h : (s.emit (.binary (.var x) op ty lhs rhs)).Within body) (ha : lhs.value? w = some a)
    (hb : rhs.value? w = some b) (hv : op.value? a b = some v) :
  Goes body (s.here w)
    ((s.emit (.binary (.var x) op ty lhs rhs)).here (update w x (some v)))
  := by
  apply goes_emit h
  simp [Instr.effect?, State.here, ha, hb, hv, State.put]

theorem goes_unary {op : UnOp}
    (h : (s.emit (.unary (.var x) op ty src)).Within body) (ha : src.value? w = some a)
    (hv : op.value? a = some v) :
  Goes body (s.here w)
    ((s.emit (.unary (.var x) op ty src)).here (update w x (some v)))
  := by
  apply goes_emit h
  simp [Instr.effect?, State.here, ha, hv, State.put]

/-- A jump goes past the label. -/
theorem goes_jump (hbody : (labelNames body).Nodup) (h : (s.emit (.jump name)).Within body)
    (ht : (t.emit (.label name)).Within body) :
  Goes body (s.here w) ((t.emit (.label name)).here w)
  := by
  apply trans _ (goes_label ht)
  apply Goes.of_effect (State.getElem?_of_within h)
  simp [Instr.effect?, State.jump?, State.labelAt_of_within ht hbody, State.here]

/-- A branch goes past the label that is chosen. -/
theorem goes_branch {cond : Operand} (hbody : (labelNames body).Nodup)
    (h : (s.emit (.branch cond yes no)).Within body) (hv : cond.value? w = some v)
    (hname : (if v = 0 then no else yes) = name) (ht : (t.emit (.label name)).Within body) :
  Goes body (s.here w) ((t.emit (.label name)).here w)
  := by
  apply trans _ (goes_label ht)
  apply Goes.of_effect (State.getElem?_of_within h)
  simp [Instr.effect?, State.jump?, hname, State.labelAt_of_within ht hbody, State.here, hv]

end

/-! ### Code that computes a value -/

/-- The code between two states computes a value that depends on the slots, and leaves it in
an operand. -/
structure Computes (Γ : String → Ty) (value? : Words → Option Int64) (s : State) (o : Operand)
    (s' : State) : Prop where
  extended : Extends s s'
  old : OldOperand s'.temps o
  goes : ∀ (body : List Instr) (w σ : Words) (v : Int64), s'.Within body →
    (labelNames body).Nodup → Truthful Γ σ → Follows σ w → value? σ = some v →
      ∃ w', Goes body (s.here w) (s'.here w') ∧ Keeps s.temps w w' ∧ o.value? w' = some v

namespace Computes

/-- An operand that has its value without any code. -/
theorem of_operand (ho : OldOperand s.temps o)
    (hvalue : ∀ (w σ : Words) (v : Int64), Follows σ w → f σ = some v → o.value? w = some v) :
  Computes Γ f s o s
  := by
  constructor
  · apply Extends.refl
  · apply ho
  · intro body w σ v _ _ _ hw hv
    use w, .refl, .refl, hvalue w σ v hw hv

/-- One value after the other, and then an operation on both. -/
theorem binary (hf : Computes Γ f s o s') (hg : Computes Γ g s' o' s'') {op : BinOp} :
  Computes Γ (fun σ => (f σ).bind fun a => (g σ).bind (op.value? a)) s
    (.var (toString s''.temps))
    ((s''.temp ty).emit (.binary (.var (toString s''.temps)) op ty' o o'))
  := by
  constructor
  · apply (hf.extended.trans hg.extended).temp |>.emit
  · apply old_toString
    apply Nat.lt_succ_self
  · intro body w σ v hbody hlabels hσ hw hv
    obtain ⟨a, ha, hv⟩ := bind_eq_some_iff.mp hv
    obtain ⟨b, hb, hv⟩ := bind_eq_some_iff.mp hv
    have hbody'' : s''.Within body := ((Extends.refl s'').temp |>.emit _).within hbody
    have hbody' := hg.extended.within hbody''
    obtain ⟨w₁, hgoes₁, hkeeps₁, ho₁⟩ := hf.goes body w σ a hbody' hlabels hσ hw ha
    obtain ⟨w₂, hgoes₂, hkeeps₂, ho₂⟩ :=
      hg.goes body w₁ σ b hbody'' hlabels hσ (hw.keeps hkeeps₁) hb
    have ho₁' : o.value? w₂ = some a := by
      rw [hkeeps₂.value? hf.old, ho₁]
    use update w₂ (toString s''.temps) (some v)
    refine ⟨?_, ?_, ?_⟩
    · apply (hgoes₁.trans hgoes₂).trans
      apply goes_binary (s := s''.temp ty) hbody ho₁' ho₂ hv
    · apply (hkeeps₁.trans hkeeps₂ hf.extended.temps).trans (keeps_update (le_refl _))
      apply (hf.extended.trans hg.extended).temps
    · apply update_self

/-- A value, and then an operation on it. -/
theorem unary (hf : Computes Γ f s o s') {op : UnOp} :
  Computes Γ (fun σ => (f σ).bind op.value?) s (.var (toString s'.temps))
    ((s'.temp ty).emit (.unary (.var (toString s'.temps)) op ty' o))
  := by
  constructor
  · apply hf.extended.temp |>.emit
  · apply old_toString
    apply Nat.lt_succ_self
  · intro body w σ v hbody hlabels hσ hw hv
    obtain ⟨a, ha, hv⟩ := bind_eq_some_iff.mp hv
    have hbody' : s'.Within body := ((Extends.refl s').temp |>.emit _).within hbody
    obtain ⟨w₁, hgoes₁, hkeeps₁, ho₁⟩ := hf.goes body w σ a hbody' hlabels hσ hw ha
    use update w₁ (toString s'.temps) (some v)
    refine ⟨?_, ?_, ?_⟩
    · apply hgoes₁.trans
      apply goes_unary (s := s'.temp ty) hbody ho₁ hv
    · apply hkeeps₁.trans (keeps_update (le_refl _)) hf.extended.temps
    · apply update_self

/-- The value may be said in another way. -/
theorem congr (hf : Computes Γ f s o s') (h : ∀ σ v, Truthful Γ σ → g σ = some v → f σ = some v) :
  Computes Γ g s o s'
  := by
  constructor
  · apply hf.extended
  · apply hf.old
  · intro body w σ v hbody hlabels hσ hw hv
    apply hf.goes body w σ v hbody hlabels hσ hw (h σ v hσ hv)

end Computes

/-! ### Expressions -/

namespace Lower

variable {f g : Words → Option Int64} {env : Env}

theorem gives_binary {op : BinOp} :
  (binary op ty lhs rhs).Gives env s o s' ↔ o = .var (toString s.temps) ∧
    s' = (s.temp (op.resultType ty)).emit (.binary (.var (toString s.temps)) op ty lhs rhs)
  := gives_iff rfl

theorem gives_unary {op : UnOp} :
  (unary op ty src).Gives env s o s' ↔ o = .var (toString s.temps) ∧
    s' = (s.temp ty).emit (.unary (.var (toString s.temps)) op ty src)
  := gives_iff rfl

/-- Lowering goes through, and its code computes the value. -/
def Makes (Γ : String → Ty) (env : Env) (x : Lower Operand) (f : Words → Option Int64) : Prop :=
  ∀ s, ∃ o s', x.Gives env s o s' ∧ Computes Γ f s o s'

/-- The truth of a value. -/
theorem makes_truth {ty : Ty} (hx : Makes Γ env x f) (hty : ty.isWord)
    (hbool : ∀ σ v, Truthful Γ σ → f σ = some v → ty = .bool → v = 0 ∨ v = 1) :
  Makes Γ env (do let value ← x; truth value ty)
    fun σ => (f σ).bind fun a => some (truthWord (a ≠ 0))
  := by
  intro s
  obtain ⟨o, s₁, hgives, hcomputes⟩ := hx s
  simp only [gives_bind]
  cases ty <;> cases hty
  · have hzero : Computes Γ (fun _ => some 0) s₁ (.int 0) s₁ :=
      .of_operand trivial fun _ _ _ _ hv => hv
    refine ⟨_, _, ⟨o, s₁, hgives, gives_binary.mpr ⟨rfl, rfl⟩⟩, ?_⟩
    apply (hcomputes.binary hzero).congr
    simp [BinOp.value?]
  · refine ⟨o, s₁, ⟨o, s₁, hgives, gives_pure.mpr ⟨rfl, rfl⟩⟩, ?_⟩
    apply hcomputes.congr
    intro σ v hσ hv
    obtain ⟨a, ha, hv⟩ := bind_eq_some_iff.mp hv
    cases hv
    obtain rfl | rfl := hbool σ a hσ ha rfl
    · apply ha
    · apply ha

/-- The state after the first part of a short circuit: where the second operand follows. -/
def middle (op : BinaryOp) (out : String) (first : Operand) (s : State) : State :=
  let s := s.emit (.move (.var out) .bool first)
  let second := labelName s.labels
  let done := labelName (s.labels + 1)
  let branch := if op = .and then Instr.branch (.var out) second done
    else .branch (.var out) done second
  (s.label.label.emit branch).emit (.label second)

/-- Both operands are lowered around one variable. -/
theorem gives_shortCircuit (hx : x.Gives env (s.temp .bool) o s₁)
    (hy : y.Gives env (middle op (toString s.temps) o s₁) o' s₂) :
  (shortCircuit op x y).Gives env s (.var (toString s.temps))
    ((s₂.emit (.move (.var (toString s.temps)) .bool o')).emit
      (.label (labelName (s₁.labels + 1))))
  := by
  unfold shortCircuit
  simp only [gives_bind, gives_temp]
  refine ⟨_, _, ⟨rfl, rfl⟩, o, s₁, hx, ⟨⟩, _, gives_emit.mpr rfl, _, _, gives_label.mpr ⟨rfl, rfl⟩,
    _, _, gives_label.mpr ⟨rfl, rfl⟩, ?_⟩
  unfold middle at hy
  split
  all_goals
    rename_i hop
    simp only [hop] at hy
    simp only [gives_bind]
    exact ⟨⟨⟩, _, gives_emit.mpr rfl, ⟨⟩, _, gives_emit.mpr rfl, o', s₂, hy, ⟨⟩, _,
      gives_emit.mpr rfl, ⟨⟩, _, gives_emit.mpr rfl, gives_pure.mpr ⟨rfl, rfl⟩⟩

/-- The first part of a short circuit only adds to the state. -/
theorem extends_middle (op : BinaryOp) (out : String) (first : Operand) (s : State) :
  Extends s (middle op out first s)
  := by
  apply (Extends.refl s).emit _ |>.label |>.label |>.emit _ |>.emit

/-- When the first operand does not decide, control goes on to the second one, and past the
end if it does. -/
theorem goes_middle (hop : op = .and ∨ op = .or)
    {body : List Instr} (hlabels : (labelNames body).Nodup)
    (hbody : (middle op out first s).Within body)
    (hfirst : first.value? w = some (truthWord (a ≠ 0))) :
  (decided? op a = none → Goes body (s.here w) ((middle op out first s).here
    (update w out (some (truthWord (a ≠ 0)))))) ∧
  ∀ (v : Int64) (t : State), decided? op a = some v →
    (t.emit (.label (labelName (s.labels + 1)))).Within body →
      v = truthWord (a ≠ 0) ∧ Goes body (s.here w)
        ((t.emit (.label (labelName (s.labels + 1)))).here (update w out (some v)))
  := by
  let s₁ := s.emit (.move (.var out) .bool first)
  let w₁ := update w out (some (truthWord (a ≠ 0)))
  let second := labelName s.labels
  let done := labelName (s.labels + 1)
  -- the label that is chosen is that of the end if the first operand decides
  obtain ⟨yes, no, hmiddle, hchoice⟩ : ∃ yes no,
      middle op out first s = (s₁.label.label.emit (.branch (.var out) yes no)).emit (.label second) ∧
      (if truthWord (a ≠ 0) = 0 then no else yes) =
        if (decided? op a).isSome then done else second := by
    obtain rfl | rfl := hop
    · use second, done, rfl
      by_cases ha : a = 0 <;> simp [truthWord, decided?]
    · use done, second, rfl
      by_cases ha : a = 0 <;> simp [truthWord, decided?]
  rw [hmiddle] at hbody ⊢
  have hbranch : (s₁.label.label.emit (.branch (.var out) yes no)).Within body := hbody.of_emit
  have hmove : Goes body (s.here w) (s₁.here w₁) := by
    apply goes_move _ hfirst
    apply ((Extends.refl s₁).label.label.emit _).within hbranch
  have hout : (Operand.var out).value? w₁ = some (truthWord (a ≠ 0)) := update_self ..
  constructor
  · intro hnone
    rw [hnone] at hchoice
    apply hmove.trans
    apply goes_branch (s := s₁.label.label) hlabels hbranch hout hchoice hbody
  · intro v t hsome ht
    rw [hsome] at hchoice
    have hv : v = truthWord (a ≠ 0) := by
      obtain rfl | rfl := hop <;> by_cases ha : a = 0 <;> simp_all [decided?, truthWord]
    rw [hv]
    use rfl
    apply hmove.trans
    apply goes_branch (s := s₁.label.label) hlabels hbranch hout hchoice ht

/-- A short circuit takes the second operand only if the first one does not decide. -/
theorem makes_shortCircuit (hop : op = .and ∨ op = .or)
    (hx : Makes Γ env x fun σ => (f σ).bind fun a => some (truthWord (a ≠ 0)))
    (hy : Makes Γ env y fun σ => (g σ).bind fun b => some (truthWord (b ≠ 0))) :
  Makes Γ env (shortCircuit op x y) fun σ => (f σ).bind fun a =>
    match decided? op a with
    | some v => some v
    | none => (g σ).bind (operated? op a)
  := by
  intro s
  let out := toString s.temps
  obtain ⟨o, s₁, hgivesX, hcomputesX⟩ := hx (s.temp .bool)
  obtain ⟨o', s₂, hgivesY, hcomputesY⟩ := hy (middle op out o s₁)
  refine ⟨_, _, gives_shortCircuit hgivesX hgivesY, ?_⟩
  have hextends : Extends s s₁ := ((Extends.refl s).temp).trans hcomputesX.extended
  have hmiddle := extends_middle op out o s₁
  have hend := ((Extends.refl s₂).emit (.move (.var out) .bool o')).emit
    (.label (labelName (s₁.labels + 1)))
  have htemps : s.temps < s₂.temps := by
    apply lt_of_lt_of_le _ (hmiddle.trans hcomputesY.extended).temps
    apply hcomputesX.extended.temps
  constructor
  · apply ((hextends.trans hmiddle).trans hcomputesY.extended).trans hend
  · apply old_toString htemps
  · intro body w σ v hbody hlabels hσ hw hv
    obtain ⟨a, ha, hv⟩ := bind_eq_some_iff.mp hv
    have hbody₂ := hend.within hbody
    have hbodyM := hcomputesY.extended.within hbody₂
    obtain ⟨w₁, hgoes₁, hkeeps₁, ho₁⟩ := hcomputesX.goes body w σ (truthWord (a ≠ 0))
      (hmiddle.within hbodyM) hlabels hσ hw (by simp [ha])
    have hkeeps₁ : Keeps s.temps w w₁ := hkeeps₁.mono (Nat.le_succ _)
    obtain ⟨hnone, hsome⟩ := goes_middle hop hlabels hbodyM ho₁
    cases hdecided : decided? op a with
    | some u =>
      rw [hdecided] at hv
      cases hv
      obtain ⟨_, hgoes₂⟩ := hsome v _ hdecided hbody
      use update w₁ out (some v)
      refine ⟨hgoes₁.trans hgoes₂, ?_, update_self ..⟩
      apply hkeeps₁.trans (keeps_update (le_refl _)) (le_refl _)
    | none =>
      rw [hdecided] at hv
      obtain ⟨b, hb, hv⟩ := bind_eq_some_iff.mp hv
      have hkeeps₂ : Keeps s.temps w (update w₁ out (some (truthWord (a ≠ 0)))) :=
        hkeeps₁.trans (keeps_update (le_refl _)) (le_refl _)
      obtain ⟨w₃, hgoes₃, hkeeps₃, ho₃⟩ := hcomputesY.goes body _ σ (truthWord (b ≠ 0)) hbody₂
        hlabels hσ (hw.keeps hkeeps₂) (by simp [hb])
      have hv : v = truthWord (b ≠ 0) := by
        obtain rfl | rfl := hop <;> cases hv <;> rfl
      use update w₃ out (some v)
      refine ⟨?_, ?_, update_self ..⟩
      · apply ((hgoes₁.trans (hnone hdecided)).trans hgoes₃).trans
        rw [hv]
        apply trans _ (goes_label hbody)
        apply goes_move hbody.of_emit ho₃
      · apply (hkeeps₂.trans (hkeeps₃.mono _) (le_refl _)).trans
          (keeps_update (le_refl _)) (le_refl _)
        apply (hextends.trans hmiddle).temps

/-- An operand that needs no code. -/
theorem makes_pure (ho : ∀ t, OldOperand t o)
    (hvalue : ∀ (w σ : Words) (v : Int64), Follows σ w → f σ = some v → o.value? w = some v) :
  Makes Γ env (pure o) f
  := fun s => ⟨o, s, gives_pure.mpr ⟨rfl, rfl⟩, .of_operand (ho _) hvalue⟩

/-- An operation on two values. -/
theorem makes_binary (hx : Makes Γ env x f) (hy : Makes Γ env y g) (op : BinOp) (ty : WordType) :
  Makes Γ env (do let l ← x; let r ← y; binary op ty l r)
    fun σ => (f σ).bind fun a => (g σ).bind (op.value? a)
  := by
  intro s
  obtain ⟨o, s₁, hgivesX, hcomputesX⟩ := hx s
  obtain ⟨o', s₂, hgivesY, hcomputesY⟩ := hy s₁
  simp only [gives_bind]
  exact ⟨_, _, ⟨o, s₁, hgivesX, o', s₂, hgivesY, gives_binary.mpr ⟨rfl, rfl⟩⟩,
    hcomputesX.binary hcomputesY⟩

/-- An operation on one value. -/
theorem makes_unary (hx : Makes Γ env x f) {op : UnOp} :
  Makes Γ env (do let o ← x; unary op ty o) fun σ => (f σ).bind op.value?
  := by
  intro s
  obtain ⟨o, s₁, hgives, hcomputes⟩ := hx s
  simp only [gives_bind]
  exact ⟨_, _, ⟨o, s₁, hgives, gives_unary.mpr ⟨rfl, rfl⟩⟩, hcomputes.unary⟩

/-- Words are compared by one instruction. -/
theorem compare_of_isWord {a : Ty} (ha : a.isWord) (hb : b.isWord) (op : BinOp)
    (lhs rhs : Operand) :
  compare op lhs rhs a b = binary op .i64 lhs rhs
  := by
  cases a <;> cases ha <;> cases b <;> cases hb <;> simp [compare]

/-- Arithmetic on integers is done by one instruction. -/
theorem arithmetic_of_intOperation? {o : BinOp} (h : intOperation? op = some o)
    (lhs rhs : Operand) (a b : Ty) (span : Span) :
  arithmetic op .int lhs rhs a b span = binary o .i64 lhs rhs
  := by
  cases op <;> cases h <;> simp [arithmetic, floatOperation?, intOperation?]

/-- On words an operator other than a short circuit is one instruction. -/
theorem operation_of_isWord {ty a : Ty} (hop : Typed.wordType? op = some ty) (ha : a.isWord)
    (hb : b.isWord) (hshort : ¬ (op = .and ∨ op = .or)) (span : Span) :
  ∃ o : BinOp, (∀ l r, (match comparison? op with
      | some comparison => compare comparison l r a b
      | none => arithmetic op ty l r a b span) = binary o .i64 l r) ∧
    ∀ u v, operated? op u v = o.value? u v
  := by
  cases hc : comparison? op with
  | some c =>
    use c
    constructor
    · apply compare_of_isWord ha hb
    · apply operated?_of_comparison? hc
  | none =>
    obtain ⟨o, ho, hty⟩ : ∃ o, intOperation? op = some o ∧ ty = .int := by
      cases op
      case and => simp at hshort
      case or => simp at hshort
      all_goals cases hc <;> cases hop <;> exact ⟨_, rfl, rfl⟩
    use o
    constructor
    · intro l r
      rw [hty]
      apply arithmetic_of_intOperation? ho
    · apply operated?_of_intOperation? ho

theorem decided?_eq_none (hshort : ¬ (op = .and ∨ op = .or)) :
  decided? op a = none
  := by
  cases op
  case and => simp at hshort
  case or => simp at hshort
  all_goals rfl

/-- Expressions on words are lowered to code that computes their values. -/
theorem makes_expr :
  ∀ e : Expr, e.Worded Γ → Makes Γ env (expr e) fun σ => e.value? σ
  | .literal n (.int v), _ | .literal n (.bool v), _ => by
    apply makes_pure
    · intro t
      trivial
    · intro w σ u _ hu
      apply hu
  | .var n (.slot x), h => by
    apply makes_pure
    · intro t
      apply old_of_noNumber h.1
    · intro w σ u hw hu
      apply (hw x h.1).trans hu
  | .binary n op lhs rhs, h => by
    obtain ⟨hop, hl, hr⟩ := h
    have hlhs := makes_expr lhs hl
    have hrhs := makes_expr rhs hr
    rw [expr]
    split
    · rename_i hshort
      apply makes_shortCircuit hshort
      · apply makes_truth hlhs hl.isWord
        intro σ v hσ hv hty
        apply hl.truth hσ hv hty
      · apply makes_truth hrhs hr.isWord
        intro σ v hσ hv hty
        apply hr.truth hσ hv hty
    · rename_i hshort
      obtain ⟨o, hcode, hvalue⟩ := operation_of_isWord hop hl.isWord hr.isWord hshort
        (lhs.span.join rhs.span)
      have hmakes := makes_binary hlhs hrhs o .i64
      simp only [← hcode] at hmakes
      have heq : (fun σ => (Expr.binary n op lhs rhs).value? σ) =
          fun σ => (lhs.value? σ).bind fun a => (rhs.value? σ).bind (o.value? a) := by
        simp only [Expr.value?, decided?_eq_none hshort, hvalue]
        rfl
      rw [heq]
      apply hmakes
  | .unary n op operand, h => by
    obtain ⟨hop, ho⟩ := h
    have hoperand := makes_expr operand ho
    rw [expr]
    cases op with
    | plus =>
      have heq : (fun σ => (Expr.unary n .plus operand).value? σ) =
          fun σ => operand.value? σ := by
        simp [Expr.value?, Typed.signed]
      rw [heq]
      simpa [unaryValue] using hoperand
    | neg =>
      have hty : n.ty ≠ .float := by
        intro hfloat
        rw [hfloat] at hop
        cases Typed.isWord_of_signType? hop
      have heq : (fun σ => (Expr.unary n .neg operand).value? σ) =
          fun σ => (operand.value? σ).bind UnOp.neg.value? := by
        funext σ
        cases hvalue : operand.value? σ with
        | none => simp [Expr.value?, hvalue]
        | some a =>
          simp [Expr.value?, hvalue, Typed.signed, UnOp.value?]
      rw [heq]
      simpa [unaryValue, hty] using makes_unary hoperand
    | not =>
      have htruth := makes_truth hoperand ho.isWord fun σ v hσ hv hty => ho.truth hσ hv hty
      have heq : (fun σ => (Expr.unary n .not operand).value? σ) = fun σ =>
          ((operand.value? σ).bind fun a => some (truthWord (a ≠ 0))).bind
            UnOp.not.value? := by
        funext σ
        cases hvalue : operand.value? σ with
        | none => simp [Expr.value?, hvalue]
        | some a =>
          by_cases ha : a = 0 <;>
            simp [Expr.value?, hvalue, Typed.signed, UnOp.value?, truthWord]
      rw [heq]
      simpa [unaryValue] using makes_unary htruth

end Lower

end Endmark.Lowering
