import Endmark.Proofs.Lowering.Points
import Endmark.Proofs.Typed.Assignment

/-!
# What emitted code names and when

The code of a function names the variables, globals and functions that the typed function
names, and besides them temporaries, labels, string constants that are there, and routines.
What is demanded of all of these holds of every instruction of a lowered program.  Each label
has been placed once in the end, and the code reads a slot only where it is known to be
written, as the statements do.
-/

namespace Endmark.Lowering

open List Bool
open Ir (WordType Operand Instr labelNames)
open Typed (Expr Stmt Arm FStringPart Variable)
open Endmark.Tree (UnaryOp)

/-- What is demanded of an expression, apart from those in it. -/
def Asked (N : Typed.Vocabulary) (A : Aim) (known : Bool) (e : Expr) : Prop :=
  e.Uses N ∧ (A.flow → e.fits A.x known = true)

variable {known : Bool}

theorem asked {es : List Expr} (hn : ∀ d ∈ es, d.Uses N) (hs : A.flow → es.all (·.fits A.x known)) :
  ∀ d ∈ es, Asked N A known d
  := fun d hd => ⟨hn d hd, fun hA => all_eq_true.mp (hs hA) d hd⟩

namespace Lower

open Point

section

variable {p : Point A} (h : Serves N A.names A.strict A.start.temps env)

include h

/-! ### Expressions -/

theorem runs_unaryValue (hvalue : p.Holds value) :
  (unaryValue op result value ty).Supplies env p
  := by
  unfold unaryValue
  split
  · apply runs_pure hvalue
  · split
    · apply runs_bind (runs_toFloat h hvalue)
      intro o q _ ho
      apply runs_unary h ho
    · apply runs_unary h hvalue
  · apply runs_bind (runs_truth h hvalue)
    intro o q _ ho
    apply runs_unary h ho

theorem runs_item {result : Ty} (hbase : p.Holds base) (hindex : p.Holds index) :
  (item base index baseTy result).Supplies env p
  := by
  unfold item
  split
  · apply runs_routine₂ h hbase hindex (by simp [routinesUsed])
  · apply runs_bind (runs_checkedItemBefore h hbase hindex)
    intro o q _ ho
    apply runs_load h h.word ho

theorem runs_builtin {span : Span} (hargs : ∀ arg ∈ args, p.Holds arg.1) :
  (builtin kind args span).Supplies env p
  := by
  unfold builtin
  split
  · exact runs_load h h.start (hargs _ mem_cons_self)
  · exact runs_text h (hargs _ mem_cons_self)
  · exact runs_unary h (hargs _ mem_cons_self)
  · exact runs_pure (hargs _ mem_cons_self)
  · exact runs_toFloat h (hargs _ mem_cons_self)
  · exact runs_routine₂ h holds_int (hargs _ mem_cons_self) (by simp [routinesUsed])
  · exact runs_routine₂ h (hargs _ mem_cons_self)
      (hargs _ (mem_cons_of_mem _ mem_cons_self)) (by simp [routinesUsed])
  · apply runs_bind (runs_act h (hargs _ mem_cons_self) (by simp [routinesUsed]))
    exact fun _ q _ _ => runs_pure holds_int
  · apply runs_fail

theorem runs_joinWords (hline : ∀ o ∈ line, p.Holds o) (hword : p.Holds word) :
  (joinWords line word).Supplies env p
  := by
  unfold joinWords
  split
  · apply runs_pure hword
  · apply runs_bind runs_string
    intro space q hpq hspace
    apply runs_bind (runs_concat h ((hline _ rfl).mono hpq) hspace.1)
    intro o r hqr ho
    exact runs_concat h ho (hword.mono (hpq.trans hqr))

theorem runs_joinParts (hline : ∀ o ∈ line, p.Holds o) (hpart : p.Holds part) :
  (joinParts line part).Supplies env p
  := by
  unfold joinParts
  split
  · apply runs_pure hpart
  · exact runs_concat h (hline _ rfl) hpart

omit h in
theorem runs_orEmpty (hline : ∀ o ∈ line, p.Holds o) :
  (orEmpty line).Supplies env p
  := by
  cases line with
  | none => exact runs_string.imp fun _ _ _ ho => ho.1
  | some line => exact runs_pure (hline line rfl)

/-- A slot that is read is known to be written. -/
theorem holds_place (hknown : known → p.Known) (hv : Asked N A known (.var note v)) :
  p.Holds (placeOf v).operand
  := by
  refine ⟨(h.place hv.1).operand, ?_⟩
  intro hx hA
  cases v with
  | global name => cases hx
  | slot name =>
    obtain rfl : name = A.x := Option.some.inj hx
    apply hknown _ hA
    simpa [Expr.fits] using hv.2 hA

/-- Wherever what is to be known is known, the operand that it gives may be read. -/
abbrev Provides (l : Lower Operand) (A : Aim) (env : Env) (known : Bool) : Prop :=
  ∀ {p : Point A}, (known → p.Known) → l.Supplies env p

theorem provides_truth (he : (expr e).Provides A env known) :
  (do let value ← expr e; truth value e.ty).Provides A env known
  := by
  intro p hknown
  apply runs_bind (he hknown)
  intro value q _ hvalue
  apply runs_truth h hvalue

theorem provides_binary (hlhs : (expr lhs).Provides A env known)
    (hrhs : (expr rhs).Provides A env known) :
  (expr (.binary note op lhs rhs)).Provides A env known
  := by
  intro p hknown
  rw [expr]
  split
  · apply runs_shortCircuit h
    · exact fun q hq => provides_truth h hlhs fun h => hq (hknown h)
    · exact fun q hq => provides_truth h hrhs fun h => hq (hknown h)
  · apply runs_bind (hlhs hknown)
    intro l q hpq hl
    apply runs_bind (hrhs fun h => hpq.2.1 (hknown h))
    intro r q' hqq' hr
    have hl := hl.mono hqq'
    split
    · rename_i hcomparison
      apply runs_compare h (supports_of_comparison? hcomparison) _ _ hl hr
    · apply runs_arithmetic h _ _ _ _ _ hl hr

theorem provides_index (hbase : (expr base).Provides A env known)
    (hindex : (expr index).Provides A env known) :
  (expr (.index note base index)).Provides A env known
  := by
  intro p hknown
  apply runs_bind (hbase hknown)
  intro b q hpq hb
  apply runs_bind (hindex fun h => hpq.2.1 (hknown h))
  intro i r hqr hi
  exact runs_item h (hb.mono hqr) hi

omit h in
theorem runs_exprs (hes : ∀ e ∈ es, (expr e).Provides A env known) (hknown : known → p.Known) :
  (exprs es).Runs env p fun values q =>
    (∀ value ∈ values, q.Holds value.1) ∧ values.length = es.length
  := by
  induction es generalizing p with
  | nil =>
    rw [exprs]
    exact runs_pure ⟨nofun, rfl⟩
  | cons e rest ih =>
    rw [forall_mem_cons] at hes
    rw [exprs]
    apply runs_bind (hes.1 hknown)
    intro value q hpq hvalue
    apply runs_bind (ih hes.2 fun h => hpq.2.1 (hknown h))
    rintro others r hqr ⟨hothers, hlength⟩
    apply runs_pure
    rw [forall_mem_cons, length_cons, hlength]
    exact ⟨⟨hvalue.mono hqr, hothers⟩, rfl⟩

/-- The line may be read if the words may. -/
theorem runs_words (hes : ∀ e ∈ es, (expr e).Provides A env known)
    (hline : ∀ o ∈ line, p.Holds o) (hknown : known → p.Known) :
  (words line es).Runs env p fun line q => ∀ o ∈ line, q.Holds o
  := by
  induction es generalizing p line with
  | nil =>
    rw [words]
    apply runs_pure hline
  | cons e rest ih =>
    rw [forall_mem_cons] at hes
    rw [words]
    apply runs_bind (hes.1 hknown)
    intro value p1 h1 hvalue
    apply runs_bind (runs_text h hvalue)
    intro word p2 h2 hword
    have h2 := h1.trans h2
    apply runs_bind (runs_joinWords h (fun o ho => (hline o ho).mono h2) hword)
    intro joined p3 h3 hjoined
    apply ih hes.2 _ fun h => (h2.trans h3).2.1 (hknown h)
    rintro _ ⟨⟩
    apply hjoined

/-- The line may be read if the parts may. -/
theorem runs_parts (hps : ∀ e, .field e ∈ ps → (expr e).Provides A env known)
    (hline : ∀ o ∈ line, p.Holds o) (hknown : known → p.Known) :
  (parts line ps).Runs env p fun line q => ∀ o ∈ line, q.Holds o
  := by
  induction ps generalizing p line with
  | nil =>
    rw [parts]
    apply runs_pure hline
  | cons part rest ih =>
    have hrest : ∀ e, .field e ∈ rest → (expr e).Provides A env known :=
      fun e he => hps e (mem_cons_of_mem _ he)
    cases part with
    | text t =>
      rw [parts]
      apply runs_bind runs_string
      intro part p1 h1 hpart
      apply runs_bind (runs_joinParts h (fun o ho => (hline o ho).mono h1) hpart.1)
      intro joined p2 h2 hjoined
      apply ih hrest _ fun h => (h1.trans h2).2.1 (hknown h)
      rintro _ ⟨⟩
      apply hjoined
    | field e =>
      rw [parts]
      apply runs_bind (hps e mem_cons_self hknown)
      intro value p1 h1 hvalue
      apply runs_bind (runs_text h hvalue)
      intro part p2 h2 hpart
      have h2 := h1.trans h2
      apply runs_bind (runs_joinParts h (fun o ho => (hline o ho).mono h2) hpart)
      intro joined p3 h3 hjoined
      apply ih hrest _ fun h => (h2.trans h3).2.1 (hknown h)
      rintro _ ⟨⟩
      apply hjoined

theorem provides_builtin (hes : ∀ e ∈ es, (expr e).Provides A env known) :
  (expr (.builtin note kind es)).Provides A env known
  := by
  intro p hknown
  have hbuiltin (span : Span) : (do
      let values ← exprs es
      builtin kind values span).Supplies env p := by
    apply runs_bind (runs_exprs hes hknown)
    rintro values q _ ⟨hvalues, -⟩
    apply runs_builtin h hvalues
  unfold expr
  split
  · apply runs_bind (runs_words h hes (by simp) hknown)
    intro line q _ hline
    apply runs_bind (runs_orEmpty hline)
    intro o r _ ho
    apply runs_bind (runs_act h ho (by simp [routinesUsed]))
    exact fun _ _ _ _ => runs_pure holds_int
  · split
    · apply runs_fail
    · apply hbuiltin
  · apply hbuiltin

theorem provides_list (hes : ∀ e ∈ es, (expr e).Provides A env known)
    (hlength : N.length es.length) :
  (expr (.list note es)).Provides A env known
  := by
  intro p hknown
  apply runs_bind (runs_exprs hes hknown)
  rintro values q _ ⟨hvalues, hsame⟩
  apply runs_newList h
  · intro item hitem
    obtain ⟨value, hvalue, rfl⟩ := mem_map.mp hitem
    apply hvalues value hvalue
  · rw [length_map, hsame]
    apply hlength

variable (hN : A.labels → ∀ block, ¬ N.block block)

include hN

/-- The value of a raw block is only asked for where nothing is demanded of labels and slots. -/
theorem provides_raw {block : Typed.Raw} (hn : Asked N A known (.raw note block)) :
  (expr (.raw note block)).Provides A env known
  := by
  intro p _
  obtain ⟨hblock, hflow⟩ := hn
  have hA : ¬ A.strict := by
    rintro (hA | hA)
    · exact hN hA block hblock
    · exact absurd (hflow hA) nofun
  apply (runs_of_emits hA (h.rawValue hA _ block hblock)).imp
  exact fun o q _ ho => ⟨ho, fun _ hA' => absurd (.inr hA') hA⟩

/-- The value of an expression may be read. -/
theorem runs_expr (e : Expr) {p : Point A} (hknown : known → p.Known)
    (hn : ∀ d ∈ e.nodes, Asked N A known d) :
  (expr e).Supplies env p
  := by
  have hself := hn e (Expr.mem_nodes_self e)
  cases e with
  | literal _ value =>
    rw [expr]
    apply runs_literal
  | var _ v =>
    rw [expr]
    exact runs_pure (holds_place h hknown hself)
  | function | error => exact runs_fail
  | binary _ _ lhs rhs =>
    simp only [Expr.nodes, forall_mem_cons, forall_mem_append] at hn
    exact provides_binary h (fun hk => runs_expr lhs hk hn.2.1)
      (fun hk => runs_expr rhs hk hn.2.2) hknown
  | unary _ _ operand =>
    simp only [Expr.nodes, forall_mem_cons] at hn
    apply runs_bind (runs_expr operand hknown hn.2)
    intro value q _ hvalue
    apply runs_unaryValue h hvalue
  | call _ _ args =>
    simp only [Expr.nodes, forall_mem_cons] at hn
    apply runs_bind (runs_exprs (fun e he _ hk =>
      runs_expr e hk fun d hd => hn.2 d (Expr.mem_nodesOf.mpr ⟨e, he, hd⟩)) hknown)
    rintro values q _ ⟨hvalues, -⟩
    apply runs_call h (h.function _ _ hself.1)
    simpa using hvalues
  | builtin _ _ args =>
    simp only [Expr.nodes, forall_mem_cons] at hn
    exact provides_builtin h (fun e he _ hk =>
      runs_expr e hk fun d hd => hn.2 d (Expr.mem_nodesOf.mpr ⟨e, he, hd⟩)) hknown
  | list _ items =>
    simp only [Expr.nodes, forall_mem_cons] at hn
    exact provides_list h (fun e he _ hk =>
      runs_expr e hk fun d hd => hn.2 d (Expr.mem_nodesOf.mpr ⟨e, he, hd⟩)) hself.1 hknown
  | index _ base index =>
    simp only [Expr.nodes, forall_mem_cons, forall_mem_append] at hn
    exact provides_index h (fun hk => runs_expr base hk hn.2.1)
      (fun hk => runs_expr index hk hn.2.2) hknown
  | fstring _ ps =>
    simp only [Expr.nodes, forall_mem_cons] at hn
    have hfields : ∀ e, .field e ∈ ps → (expr e).Provides A env known := by
      intro e he _ hk
      have hfield : sizeOf e < sizeOf (FStringPart.field e) := by simp
      have hless := hfield.trans (sizeOf_lt_of_mem he)
      exact runs_expr e hk fun d hd => hn.2 d (Expr.mem_nodesOfParts he hd)
    apply runs_bind (runs_parts h hfields (by simp) hknown)
    intro line q _ hline
    apply runs_orEmpty hline
  | raw => exact provides_raw h hN hself hknown
  termination_by e
  decreasing_by
    all_goals
      subst_vars
      decreasing_tactic

/-! ### Loops -/

omit h hN

/-- Control may leave the body of the loop, if there is one, or go on to its next round. -/
def Allows (p : Point A) (loop : Option Loop) : Prop :=
  ∀ l ∈ loop, p.Open l.next ∧ p.Open l.leave

@[grind →]
theorem Allows.mono (h : Allows p loop) (hpq : p.Before q) (hknown : p.Known → q.Known) :
  Allows q loop
  := fun l hl => ⟨(h l hl).1.mono hpq hknown, (h l hl).2.mono hpq hknown⟩

theorem allows_some {next leave : String} {B : Prop} (hB : B → p.Known := by grind)
    (hnext : p.Tells next B := by grind) (hleave : p.Tells leave B := by grind) :
  Allows p (some ⟨next, leave⟩)
  := by
  rintro _ ⟨⟩
  exact ⟨hnext.open hB, hleave.open hB⟩

/-- The body of a loop may stand wherever its labels are open and the variable is known if `B`. -/
abbrev BodyRuns (A : Aim) (env : Env) (B : Prop) (body : Loop → Lower PUnit) : Prop :=
  ∀ (loop : Loop) (q : Point A), Allows q (some loop) → (B → q.Known) →
    (body loop).Runs env q fun _ _ => True

section

variable {body : Loop → Lower PUnit}

include h

/-- A loop that counts or goes over items: what its labels tell is known before it, and what is
assigned in each round is known in its body. -/
theorem flows_loop (hstart : K → p.Known)
    (hmore : ∀ q : Point A, (K → q.Known) → more.Supplies env q)
    (heach : ∀ q : Point A, (K → q.Known) → each.Runs env q fun _ r => E → r.Known)
    (hbody : BodyRuns A env (K ∨ E) body)
    (hstep : ∀ q : Point A, (K → q.Known) → (emit step).Runs env q fun _ _ => True) :
  (do
    let head ← label
    let inside ← label
    let next ← label
    let leave ← label
    emit (.label head)
    let holds ← more
    emit (.branch holds inside leave)
    emit (.label inside)
    each
    body ⟨next, leave⟩
    emit (.label next)
    emit step
    emit (.jump head)
    emit (.label leave)).Flows env p fun _ q =>
      (K → q.Known) ∧ (A.labels → q.pending = p.pending)
  := by
  apply flows_bind (flows_label h K)
  intro head p1 _ _
  apply flows_bind (flows_label h K)
  intro inside p2 _ _
  apply flows_bind (flows_label h K)
  intro next p3 _ _
  apply flows_bind (flows_label h K)
  intro leave p4 _ _
  apply flows_bind (flows_place (B := K))
  intro _ p5 h5 _
  apply flows_bind (hmore p5 (by grind))
  intro holds p6 h6 _
  apply flows_bind (flows_branch (B := K))
  intro _ p7 h7 _
  apply flows_bind (flows_place (B := K))
  intro _ p8 h8 _
  apply flows_bind (heach p8 (by grind))
  intro _ p9 h9 _
  have hbefore : p4.Before p9 := h5.trans (h6.trans (h7.trans (h8.trans h9)))
  have hpending : A.labels → p9.pending = insert leave (insert next p.pending) := by grind
  apply flows_bind (hbody _ p9 (allows_some (B := K)) (by grind))
  intro _ p10 _ _
  apply flows_bind (flows_place (B := K))
  intro _ p11 _ _
  apply flows_bind (hstep p11 (by grind))
  intro _ p12 _ _
  apply flows_bind (flows_goto (B := K))
  intro _ p13 _ _
  apply (flows_place (B := K)).imp
  grind

omit h in
theorem runs_advance {y : String} {step : Int64} (hy : p.Holds (.var y)) :
  (emit (.binary (.var y) .add .i64 (.var y) (.int step))).Runs env p fun _ _ => True
  := by
  apply Runs.imp (runs_emit (i := .binary (.var y) .add .i64 (.var y) (.int step))
    ⟨hy.1, rfl, hy.1, trivial⟩ (forall_mem_pair hy holds_int) ⟨rfl, rfl, rfl⟩)
  exact fun _ _ _ _ => trivial

/-- Each round of a loop that counts writes its variable first. -/
theorem runs_countingLoop (hv : N.variable v) (hstart : p.Holds start) (hstop : p.Holds stop)
    (hbody : BodyRuns A env (p.Known ∨ v = .slot A.x) body) :
  (countingLoop v start stop step body).Runs env p fun _ _ => True
  := by
  apply Runs.of_flows
  apply flows_bind (runs_temp h.temp)
  intro counter p1 _ _
  apply flows_bind (runs_temp h.temp)
  intro limit p2 _ _
  apply flows_bind runs_move
  intro _ p3 _ _
  apply flows_bind runs_move
  intro _ p4 _ _
  apply Flows.imp (flows_loop h (K := p.Known ∨ counter = A.x ∨ limit = A.x) (E := v = .slot A.x)
    (by grind) ?_ ?_ ?_ ?_)
  · grind
  · exact fun q _ => runs_binary h (by split <;> rfl) (by grind) (by grind)
  · exact fun q _ => runs_assign h hv (by grind)
  · exact fun loop q hloop _ => hbody loop q hloop (by grind)
  · exact fun q _ => runs_advance (by grind)

theorem runs_itemAt {sequence : Operand} (hsequence : p.Holds sequence)
    (hposition : p.Holds position) :
  (itemAt sequence position ty).Supplies env p
  := by
  unfold itemAt
  split
  · apply runs_routine₂ h hsequence hposition (by simp [routinesUsed])
  all_goals
    apply runs_bind (runs_itemBefore h hsequence hposition)
    intro o q _ ho
    apply runs_load h h.word ho

/-- Each round of a loop over items writes its variable first. -/
theorem runs_sequenceLoop (hv : N.variable v) (hvalue : p.Holds value)
    (hbody : BodyRuns A env (p.Known ∨ v = .slot A.x) body) :
  (sequenceLoop v value ty body).Runs env p fun _ _ => True
  := by
  apply Runs.of_flows
  apply flows_bind (runs_temp h.temp)
  intro sequence p1 _ _
  apply flows_bind runs_move
  intro _ p2 _ _
  apply flows_bind (runs_temp h.temp)
  intro position p3 _ _
  apply flows_bind (runs_temp h.temp)
  intro length p4 _ hname
  apply flows_bind (runs_move (by grind) holds_int)
  intro _ p5 _ _
  have hsequence : p5.Holds (.var sequence) := by grind
  apply flows_bind (runs_emit (i := .load (.var length) .i64 (.var sequence) 0)
    ⟨hname.2, hsequence.1, h.start⟩ (forall_mem_singleton.mpr hsequence) ⟨rfl, rfl, rfl⟩)
  rintro _ p6 _ ⟨_, hwritten⟩
  have hlength : length = A.x → p6.Known := by
    rintro rfl
    apply hwritten rfl
  let K := p.Known ∨ sequence = A.x ∨ position = A.x ∨ length = A.x
  apply Flows.imp (Q := fun _ q => (K → q.Known) ∧ (A.labels → q.pending = p6.pending))
  · simp only [← bind_assoc (itemAt _ _ _)]
    apply flows_loop h (E := v = .slot A.x) (by grind)
    · exact fun q _ => runs_binary h rfl (by grind) (by grind)
    · intro q _
      apply runs_bind (runs_itemAt h (by grind) (by grind))
      intro item r _ hitem
      apply runs_assign h hv hitem
    · exact fun loop q hloop _ => hbody loop q hloop (by grind)
    · exact fun q _ => runs_advance (by grind)
  · grind

omit h in
theorem runs_stepOf {arg : Option Expr} :
  (stepOf arg).Runs env p fun _ _ => True
  := by
  unfold stepOf
  split
  · exact runs_pure trivial
  · split
    · split
      · apply runs_fail
      · exact runs_pure trivial
    · apply runs_fail

include hN

/-- Both bounds may be read. -/
theorem runs_boundsOf {span : Span} (hknown : known → p.Known)
    (hargs : ∀ d ∈ Expr.nodesOf args, Asked N A known d) :
  (boundsOf span args).Runs env p fun bounds q => q.Holds bounds.1 ∧ q.Holds bounds.2
  := by
  match args with
  | [] => exact runs_fail
  | [stop] =>
    simp only [Expr.nodesOf, append_nil] at hargs
    apply runs_bind (runs_expr h hN stop hknown hargs)
    exact fun o q _ ho => runs_pure ⟨holds_int, ho⟩
  | start :: stop :: rest =>
    simp only [Expr.nodesOf, forall_mem_append] at hargs
    apply runs_bind (runs_attempt? (runs_expr h hN start hknown hargs.1))
    intro start? p1 h1 hstart
    apply runs_bind (runs_expr h hN stop (fun h => h1.2.1 (hknown h)) hargs.2.1)
    intro stop p2 h2 hstop
    cases start? with
    | some start => exact runs_pure ⟨.mono hstart h2, hstop⟩
    | none => exact ⟨p2, rfl, .refl, fun hA hquiet => hstart hA (h2.1.quiet hA hquiet)⟩

/-- The variable of a loop is known in its body. -/
theorem runs_forLoop (hv : N.variable v) {iter : Expr} (hknown : known → p.Known)
    (hiter : ∀ d ∈ iter.nodes, Asked N A known d)
    (hbody : BodyRuns A env (p.Known ∨ v = .slot A.x) body) :
  (forLoop v iter body).Runs env p fun _ _ => True
  := by
  unfold forLoop
  split
  · simp only [Expr.nodes, forall_mem_cons] at hiter
    apply runs_bind runs_stepOf
    intro step p1 _ _
    apply runs_bind (runs_boundsOf h hN (by grind) hiter.2)
    intro bounds p2 _ hbounds
    apply runs_countingLoop h hv hbounds.1 hbounds.2
    exact fun loop q hloop _ => hbody loop q hloop (by grind)
  · apply runs_bind (runs_expr h hN _ hknown hiter)
    intro value p1 _ hvalue
    apply runs_sequenceLoop h hv hvalue
    exact fun loop q hloop _ => hbody loop q hloop (by grind)

/-- What is known before a loop is known in each round and behind it. -/
theorem runs_whileLoop {cond : Expr} (hknown : known → p.Known)
    (hcond : ∀ d ∈ cond.nodes, Asked N A known d) (hbody : BodyRuns A env p.Known body) :
  (whileLoop cond body).Runs env p fun _ _ => True
  := by
  apply Runs.of_flows
  apply flows_bind (flows_label h p.Known)
  intro head p1 _ _
  apply flows_bind (flows_label h p.Known)
  intro inside p2 _ _
  apply flows_bind (flows_label h p.Known)
  intro leave p3 _ _
  apply flows_bind (flows_place (B := p.Known))
  intro _ p4 _ _
  apply flows_bind (runs_expr h hN cond (by grind) hcond)
  intro value p5 _ _
  apply flows_bind (runs_truth h (by grind))
  intro holds p6 _ _
  apply flows_bind (flows_branch (B := p.Known))
  intro _ p7 _ _
  apply flows_bind (flows_place (B := p.Known))
  intro _ p8 _ _
  apply flows_bind (hbody _ p8 (allows_some (B := p.Known)) (by grind))
  intro _ p9 _ _
  apply flows_bind (flows_goto (B := p.Known))
  intro _ p10 _ _
  apply (flows_place (B := p.Known)).imp
  grind

end

/-! ### Statements -/

include h hN

/-- An assigned variable is known. -/
theorem runs_assignment {value : Expr} (hknown : known → p.Known)
    (hvalue : ∀ d ∈ value.nodes, Asked N A known d)
    (htarget : ∀ d ∈ target.nodes, Asked N A known d) (hv : ∀ v, target = .var v → N.variable v) :
  (assignment target value).Runs env p fun _ q => target = .var (.slot A.x) → q.Known
  := by
  apply runs_bind (runs_expr h hN value hknown hvalue)
  intro o p1 h1 ho
  cases target with
  | var v =>
    apply Runs.imp (runs_assign h (hv v rfl) ho)
    rintro _ q _ hassigned ⟨⟩
    apply hassigned rfl
  | index base index =>
    simp only [Typed.Place.nodes, forall_mem_append] at htarget
    apply runs_bind (runs_expr h hN base (fun h => h1.2.1 (hknown h)) htarget.1)
    intro b p2 h2 hb
    apply runs_bind (runs_expr h hN index (fun h => (h1.trans h2).2.1 (hknown h)) htarget.2)
    intro i p3 h3 hi
    apply runs_bind (runs_checkedItemBefore h (hb.mono h3) hi)
    intro address p4 h4 haddress
    apply Runs.imp (runs_store h.word haddress (ho.mono (h2.trans (h3.trans h4))))
    rintro _ _ _ _ ⟨⟩

theorem runs_returned {value : Option Expr} (hknown : known → p.Known)
    (hvalue : ∀ e ∈ value, ∀ d ∈ e.nodes, Asked N A known d) :
  (returned value).Supplies env p
  := by
  cases value with
  | none => exact runs_pure holds_int
  | some e => exact runs_expr h hN e hknown (hvalue e rfl)

omit h hN in
/-- Nothing gets past a jump out of the body of a loop, if there is one. -/
theorem runs_jumpOut {loop : Option Loop} {target : Loop → String} (hknown : known → p.Known)
    (htarget : ∀ l ∈ loop, p.Open (target l)) :
  (jumpOut loop target).Runs env p fun _ q => (loop.isSome || known) → q.Known
  := by
  cases loop with
  | none => exact runs_pure hknown
  | some l =>
    obtain ⟨hlabel, htaken, hknown⟩ := htarget l rfl
    have htells : p.Tells (target l) (A.strict ∧ p.marks (target l)) :=
      ⟨hlabel, htaken, fun hA => by simp [hA]⟩
    apply Runs.of_flows
    apply (flows_goto htells fun hB => hknown hB.1 hB.2).imp
    exact fun _ _ _ h => ⟨⟨fun _ => h.1, fun _ => h.2⟩, fun _ => h.1⟩

omit h hN in
/-- Nothing gets past a `return`. -/
theorem runs_ret {o : Operand} (ho : p.Holds o) :
  (emit (.ret (some o))).Runs env p fun _ q => q.Known
  := by
  have huses : (Instr.ret (some o)).Uses A.names p.strings := by
    rintro _ ⟨⟩
    apply ho.1
  apply Runs.of_flows
  apply (flows_jump (i := .ret (some o)) rfl rfl huses (fun _ h => nomatch h)
    (forall_mem_singleton.mpr ho)).imp
  exact fun _ _ _ h => ⟨⟨fun _ => h.1, fun _ => h.2⟩, h.1⟩

omit h hN

mutual

/-- What a statement assigns is known behind its code. -/
theorem runs_stmt (h : Serves N A.names A.strict A.start.temps env)
    (hN : A.labels → ∀ block, ¬ N.block block) {loop : Option Loop} {st : Stmt} {p : Point A}
    {known : Bool}
    (hloop : Allows p loop) (hknown : known → p.Known) (hst : Typed.Within N st.nodes st.inside)
    (hs : A.flow → st.settled A.x loop.isSome known) :
  (stmt loop st).Runs env p fun _ q => st.assigns A.x loop.isSome known → q.Known
  := by
  cases st with
  | assign _ target value =>
    simp only [Stmt.settled, and_eq_true, imp_and] at hs
    obtain ⟨huses, htarget, hvalue⟩ := hst.inner
    rw [stmt]
    apply Runs.imp (runs_assignment h hN hknown ?_ ?_ ?_)
    · rintro _ q hpq htarget hassigns
      cases target with
      | index base index => exact hpq.2.1 (hknown hassigns)
      | var v =>
        obtain hk | rfl := v.assigns_eq_true.mp hassigns
        · exact hpq.2.1 (hknown hk)
        · exact htarget rfl
    · exact asked hvalue.expr hs.1
    · exact asked htarget hs.2
    · rintro v rfl
      apply huses
  | expr _ e =>
    rw [stmt]
    apply runs_bind (runs_expr h hN e hknown (asked hst.expr hs))
    exact fun _ q hpq _ => runs_pure fun hassigns => hpq.2.1 (hknown hassigns)
  | branch span arms otherwise =>
    simp only [Stmt.settled, and_eq_true, imp_and] at hs
    obtain ⟨harms, hlast⟩ := Typed.Within.split ⟨hst.expr, (forall_mem_cons.mp hst.stmt).2⟩
    rw [Stmt.assigns]
    let K := p.Known ∨ Stmt.assignsArms A.x loop.isSome known arms ∧
      Stmt.assignsAll A.x loop.isSome known otherwise
    apply Runs.of_flows
    apply flows_bind (flows_label h K)
    intro done p1 _ _
    apply flows_bind (runs_arms h hN (B := K) (by grind) (by grind) (by grind)
      (by grind) harms hs.1)
    intro _ p2 _ _
    apply flows_bind (runs_stmts h hN loop (by grind) (by grind) hlast hs.2)
    intro _ p3 _ _
    apply (flows_place (B := K)).imp
    grind
  | whileLoop _ cond body =>
    simp only [Stmt.settled, and_eq_true, imp_and] at hs
    obtain ⟨-, hcond, hbody⟩ := hst.inner
    rw [stmt]
    apply Runs.imp (runs_whileLoop h hN hknown ?_ ?_)
    · exact fun _ q hpq _ hassigns => hpq.2.1 (hknown hassigns)
    · exact asked hcond hs.1
    · intro inner q hinner hq
      apply Runs.imp (runs_stmts h hN (some inner) hinner (fun h => hq (hknown h)) hbody hs.2)
      exact fun _ _ _ _ => trivial
  | forLoop _ v iter body =>
    simp only [Stmt.settled, and_eq_true, imp_and] at hs
    obtain ⟨huses, hiter, hbody⟩ := hst.inner
    rw [stmt]
    apply Runs.imp (runs_forLoop h hN huses hknown ?_ ?_)
    · exact fun _ q hpq _ hassigns => hpq.2.1 (hknown hassigns)
    · exact asked hiter hs.1
    · intro inner q hinner _
      have hassigns : v.assigns A.x known ↔ known ∨ v = .slot A.x :=
        v.assigns_eq_true
      apply Runs.imp (runs_stmts h hN (some inner) hinner (by grind) hbody hs.2)
      exact fun _ _ _ _ => trivial
  | ret _ value =>
    rw [stmt]
    apply runs_bind (runs_returned h hN hknown ?_)
    · exact fun o q _ ho => (runs_ret ho).imp fun _ _ _ hq _ => hq
    · rintro e he
      cases value with
      | none => cases he
      | some value =>
        cases he
        exact asked hst.expr hs
  | leave =>
    rw [stmt]
    exact runs_jumpOut hknown fun l hl => (hloop l hl).2
  | next =>
    rw [stmt]
    exact runs_jumpOut hknown fun l hl => (hloop l hl).1
  | raw _ block =>
    have hblock : N.block block := hst.stmt _ (mem_singleton_self _)
    have hA : ¬ A.strict := by
      rintro (hA | hA)
      · exact hN hA block hblock
      · exact absurd (hs hA) nofun
    apply (runs_of_emits hA (h.rawStmt hA _ block hblock)).imp
    exact fun _ _ hpq _ hassigns => hpq.2.1 (hknown hassigns)

/-- Behind each body of a branch it is known what is told at its end. -/
theorem runs_arms (h : Serves N A.names A.strict A.start.temps env)
    (hN : A.labels → ∀ block, ¬ N.block block) {loop : Option Loop} {done : String}
    {arms : List Arm} {p : Point A} {known : Bool} (hdone : p.Tells done B)
    (hB : B → p.Known ∨ Stmt.assignsArms A.x loop.isSome known arms)
    (hloop : Allows p loop) (hknown : known → p.Known)
    (harms : Typed.Within N (Stmt.nodesOfArms arms) (Stmt.insideArms arms))
    (hs : A.flow → Stmt.settledArms A.x loop.isSome known arms) :
  (armsOf loop done arms).Runs env p fun _ _ => True
  := by
  match arms with
  | [] =>
    rw [armsOf]
    exact runs_pure trivial
  | .mk cond body :: rest =>
    simp only [Stmt.settledArms, and_eq_true, imp_and] at hs
    obtain ⟨⟨hcond, hbody⟩, hrest⟩ := hs
    obtain ⟨hexpr, hstmt⟩ := harms
    simp only [Stmt.nodesOfArms, forall_mem_append] at hexpr
    simp only [Stmt.insideArms, forall_mem_append] at hstmt
    rw [Stmt.assignsArms] at hB
    rw [armsOf]
    apply Runs.of_flows
    apply flows_bind (runs_expr h hN cond hknown (asked hexpr.1.1 hcond))
    intro value p1 h1 _
    apply flows_bind (runs_truth h (by grind))
    intro holds p2 h2 _
    apply flows_bind (flows_label h p.Known)
    intro inside p3 h3 _
    apply flows_bind (flows_label h p.Known)
    intro next p4 h4 _
    have hbefore : p.Before p4 := h1.trans (h2.trans (h3.trans h4))
    apply flows_bind (flows_branch (B := p.Known))
    intro _ p5 h5 _
    apply flows_bind (flows_place (B := p.Known))
    intro _ p6 h6 _
    have hbefore : p.Before p6 := hbefore.trans (h5.trans h6)
    apply flows_bind (runs_stmts h hN loop (hloop.mono hbefore (by grind)) (by grind)
      ⟨hexpr.1.2, hstmt.1⟩ hbody)
    intro _ p7 h7 _
    apply flows_bind (flows_goto (B := B))
    intro _ p8 h8 _
    apply flows_bind (flows_place (B := p.Known))
    intro _ p9 h9 _
    have hbefore : p.Before p9 := hbefore.trans (h7.trans (h8.trans h9))
    apply Flows.imp (runs_arms h hN (hdone.mono hbefore) (by grind)
      (hloop.mono hbefore (by grind)) (by grind) ⟨hexpr.2, hstmt.2⟩ hrest)
    grind

theorem runs_stmts (h : Serves N A.names A.strict A.start.temps env)
    (hN : A.labels → ∀ block, ¬ N.block block) (loop : Option Loop) {body : List Stmt}
    {p : Point A} {known : Bool}
    (hloop : Allows p loop) (hknown : known → p.Known)
    (hbody : Typed.Within N (Stmt.nodesOf body) (Stmt.insideOf body))
    (hs : A.flow → Stmt.settledAll A.x loop.isSome known body) :
  (stmts loop body).Runs env p fun _ q => Stmt.assignsAll A.x loop.isSome known body → q.Known
  := by
  cases body with
  | nil =>
    rw [stmts]
    exact runs_pure hknown
  | cons st rest =>
    simp only [Stmt.settledAll, and_eq_true, imp_and] at hs
    obtain ⟨hfirst, hrest⟩ := hbody.split
    rw [stmts]
    apply runs_bind (runs_attempt? (runs_stmt h hN hloop hknown hfirst hs.1))
    intro result q hpq hresult
    apply runs_stmts h hN loop (hloop.mono hpq.1 hpq.2.1) ?_ hrest hs.2
    cases result with
    | some _ => exact hresult
    | none => exact fun _ hA hquiet => absurd hquiet (hresult (.inr hA))

end

include h hN

theorem runs_body (hf : f.Within N) (hs : A.flow → f.settled A.x) :
  (body f).Runs env p fun _ _ => True
  := by
  apply runs_bind (runs_stmts h hN none (by simp [Allows]) (by simp) hf.body hs)
  intro _ q _ _
  apply runs_get
  split
  · exact (runs_ret holds_int).imp fun _ _ _ _ => trivial
  · exact runs_pure trivial

end

end Lower

/-! ### Functions -/

/-- How a function is lowered: its code is that of a point, which nothing is pending at. -/
theorem exists_point (h : ∀ slots, Serves N A.names A.strict 0 ⟨slots, globals⟩)
    (hN : A.labels → ∀ block, ¬ N.block block) (hstart : A.start = { untouched with reports })
    (hf : f.Within N) (hs : A.flow → f.settled A.x)
    (hlower : function globals strings reports f = .ok (g, strings', reports')) :
  strings.length ≤ strings'.length ∧ g.Uses A.names strings'.length ∧
    reports.size ≤ reports'.size ∧
    ∃ p : Point A, p.state.code.toList = g.body ∧ p.state.reports = reports' ∧
      (A.labels → p.pending = ∅)
  := by
  obtain ⟨names, labels, flow, x, _⟩ := A
  obtain rfl := hstart
  unfold function at hlower
  simp only at hlower
  split at hlower
  · cases hlower
  · rename_i s hrun
    cases hlower
    have hnames {ls : List Typed.Local} (hls : ∀ l ∈ ls, N.slot l.name) :
        ∀ v ∈ ls.map varOf, names.var v.name := by
      intro v hv
      obtain ⟨l, hl, rfl⟩ := mem_map.mp hv
      apply (h []).slot _ (hls l hl)
    let p : Point ⟨names, labels, flow, x, { untouched with reports }⟩ :=
      ⟨⟨strings, reports, (f.locals.map varOf).toArray, #[], 0, 0, 0⟩, fun _ => True, ∅,
        ⟨le_rfl, le_rfl, ⟨[], by simp [untouched]⟩, _, rfl, hnames hf.locals⟩, by simp, by simp,
        fun _ _ => ⟨by simp [labelNames], by simp [takenLabels], by simp⟩,
        fun _ _ k i hi => by simp at hi⟩
    obtain ⟨q, hq, hpq, hresult⟩ := Lower.runs_body (p := p) (h _) hN hf hs
    rw [hrun] at hq hresult
    obtain rfl : q.state = s := hq
    obtain ⟨-, hreports, ⟨code, hcode, hcodeUses⟩, vars, hvars, hvarsUses⟩ := q.uses
    refine ⟨hpq.strings, ⟨?_, hnames hf.params, ?_⟩, hreports, q, rfl, rfl, hresult.1.2.2⟩
    · rw [hcode]
      exact hcodeUses
    · rw [hvars]
      exact hvarsUses

/-- A function that is lowered keeps its name. -/
theorem name_of_function (h : function globals strings reports f = .ok (g, strings', reports')) :
  g.name = f.name
  := by
  simp only [function] at h
  split at h
  · cases h
  · cases h
    rfl

/-- Functions are lowered one after the other. -/
theorem functions_cons
    (h : functions globals strings reports (f :: rest) = .ok (gs, strings', reports')) :
  ∃ g strings₁ reports₁ others, gs = g :: others ∧
    function globals strings reports f = .ok (g, strings₁, reports₁) ∧
    functions globals strings₁ reports₁ rest = .ok (others, strings', reports')
  := by
  rw [functions] at h
  cases hfirst : function globals strings reports f with
  | error stop =>
    rw [hfirst] at h
    cases h
  | ok p =>
    obtain ⟨g, strings₁, reports₁⟩ := p
    rw [hfirst] at h
    cases hrest : functions globals strings₁ reports₁ rest with
    | error stop =>
      simp only [bind, Except.bind, hrest] at h
      cases h
    | ok q =>
      simp only [bind, Except.bind, hrest] at h
      cases h
      exact ⟨g, strings₁, reports₁, q.1, rfl, rfl, hrest⟩

/-- Each function comes from one that is lowered, and if lowering makes nothing less, then what is
there after it is no more than what is there in the end. -/
theorem functions_each (size : List String × Array Diagnostic → Nat)
    (hfs : ∀ f ∈ fs, ∀ a g b, function globals a.1 a.2 f = .ok (g, b) → size a ≤ size b)
    (h : functions globals strings reports fs = .ok (gs, b)) :
  size (strings, reports) ≤ size b ∧ gs.map (·.name) = fs.map (·.name) ∧
    ∀ g ∈ gs, ∃ f ∈ fs, ∃ strings reports c,
      function globals strings reports f = .ok (g, c) ∧ size c ≤ size b
  := by
  induction fs generalizing strings reports gs with
  | nil =>
    cases h
    exact ⟨le_rfl, rfl, fun _ hg => nomatch hg⟩
  | cons f rest ih =>
    rw [forall_mem_cons] at hfs
    obtain ⟨g, _, _, others, rfl, hfirst, hrest⟩ := functions_cons h
    obtain ⟨hsize, hnames, hothers⟩ := ih hfs.2 hrest
    refine ⟨(hfs.1 (strings, reports) g _ hfirst).trans hsize, ?_, ?_⟩
    · rw [map_cons, map_cons, name_of_function hfirst, hnames]
    · rw [forall_mem_cons]
      refine ⟨⟨f, mem_cons_self, _, _, _, hfirst, hsize⟩, fun g' hg' => ?_⟩
      obtain ⟨f', hf', hlower⟩ := hothers g' hg'
      exact ⟨f', mem_cons_of_mem _ hf', hlower⟩

theorem names_of_functions (h : functions globals strings reports fs = .ok (gs, b)) :
  gs.map (·.name) = fs.map (·.name)
  := (functions_each (fun _ => 0) (by simp) h).2.1

theorem function_uses (h : ∀ slots, Serves N V False 0 ⟨slots, globals⟩)
    (hf : f.Within N) (hlower : function globals strings reports f = .ok (g, strings', reports')) :
  strings.length ≤ strings'.length ∧ g.Uses V strings'.length
  := by
  let A : Aim := ⟨V, False, False, "", { untouched with reports }⟩
  have h' : ∀ slots, Serves N V A.strict 0 ⟨slots, globals⟩ := by
    simpa [A, Aim.strict] using h
  obtain ⟨hlength, hg, -⟩ := exists_point (A := A) h' nofun rfl hf nofun hlower
  exact ⟨hlength, hg⟩

/-- The kinds of the globals of a program. -/
def globalKinds (m : Typed.Module) : List (String × WordType) :=
  m.globals.map fun g => (g.name, .ofTy g.ty)

/-- A lowered program consists of the functions that are reached, all of them lowered without
a report. -/
structure Lowered (m : Typed.Module) (all : List Ir.Function) (ir : Ir.Module) : Prop where
  functions : functions (globalKinds m) [] #[] m.functions = .ok (all, ir.strings, #[])
  reached : ir.functions = Ir.keepReached all (ir.entry :: ir.init.toList)
  globals : ir.globals = m.globals.map fun g => ⟨g.name, .ofTy g.ty⟩
  entry : ir.entry = m.entry
  init : ir.init = m.init

/-- A module that is lowered has each of its functions lowered. -/
theorem exists_lowered (h : lower m = .ok ir) :
  ∃ all, Lowered m all ir
  := by
  unfold lower at h
  simp only [map_map] at h
  split at h
  · cases h
  · rename_i all strings reports hfunctions
    split at h
    · rename_i hempty
      rw [Array.isEmpty_iff] at hempty
      subst hempty
      cases h
      exact ⟨all, hfunctions, rfl, rfl, rfl, rfl⟩
    · cases h

theorem eq_ok_of_toOption (h : (lower m).toOption = some ir) :
  lower m = .ok ir
  := by
  cases hlower : lower m with
  | error =>
    rw [hlower] at h
    cases h
  | ok =>
    rw [hlower] at h
    cases h
    rfl

/-- All that the functions of a lowered program name is as demanded. -/
theorem lower_uses (h : ∀ slots, Serves N V False 0 ⟨slots, globalKinds m⟩)
    (hm : ∀ f ∈ m.functions, f.Within N) (hlower : lower m = .ok ir) :
  ∀ g ∈ ir.functions, g.Uses V ir.strings.length
  := by
  obtain ⟨all, hlowered⟩ := exists_lowered hlower
  intro g hg
  rw [hlowered.reached] at hg
  obtain ⟨-, -, hall⟩ := functions_each (·.1.length)
    (fun f hf _ _ _ hlower => (function_uses h (hm f hf) hlower).1) hlowered.functions
  obtain ⟨f, hf, _, _, _, hlower, hlength⟩ := hall g (mem_of_mem_filter hg)
  exact (function_uses h (hm f hf) hlower).2.mono hlength

/-! ### Labels -/

/-- Nothing is demanded of names. -/
def anyNames : Ir.Vocabulary :=
  ⟨fun _ => True, fun _ => True, fun _ => True, fun _ => True, fun _ => True, True⟩

theorem serves_anyNames (hstrict : strict) :
  Serves N anyNames strict 0 env
  where
  slot _ _ := trivial
  global _ _ := trivial
  function _ _ _ := trivial
  temp _ _ := trivial
  label _ := trivial
  routine _ _ := trivial
  start := trivial
  item _ _ _ _ := trivial
  word := trivial
  rawStmt h := absurd hstrict h
  rawValue h := absurd hstrict h

/-- A lowered function without reports has its labels placed. -/
theorem function_labelled (hN : ∀ block, ¬ N.block block) (hf : f.Within N)
    (h : function globals strings reports f = .ok (g, strings', reports')) :
  reports.size ≤ reports'.size ∧ (reports'.size ≤ reports.size → Ir.Labelled g.body)
  := by
  let A : Aim := ⟨anyNames, True, False, "", { untouched with reports }⟩
  have hA : A.strict := .inl trivial
  obtain ⟨-, -, hsize, p, hcode, rfl, hpending⟩ :=
    exists_point (A := A) (fun _ => serves_anyNames hA) (fun _ => hN) rfl hf nofun h
  refine ⟨hsize, fun hquiet => ?_⟩
  obtain ⟨hnodup, hplaced, -⟩ := p.placed trivial hquiet
  rw [← hcode]
  refine ⟨hnodup, fun i hi name hname => ?_⟩
  obtain hname | hname := hplaced name (p.places hA i hi (mem_append_left _ hname))
  · apply hname
  · rw [hpending trivial] at hname
    cases hname

/-- In the functions of a lowered program all labels are in place. -/
theorem lower_labelled (hN : ∀ block, ¬ N.block block) (hm : ∀ f ∈ m.functions, f.Within N)
    (h : lower m = .ok ir) :
  ∀ g ∈ ir.functions, Ir.Labelled g.body
  := by
  obtain ⟨all, hlowered⟩ := exists_lowered h
  intro g hg
  rw [hlowered.reached] at hg
  obtain ⟨-, -, hall⟩ := functions_each (·.2.size)
    (fun f hf _ _ _ hlower => (function_labelled hN (hm f hf) hlower).1) hlowered.functions
  obtain ⟨f, hf, _, _, _, hlower, hsize⟩ := hall g (mem_of_mem_filter hg)
  exact (function_labelled hN (hm f hf) hlower).2 (hsize.trans (Nat.zero_le _))

end Endmark.Lowering
