import Endmark.Proofs.Ir.Assignment
import Endmark.Proofs.Lowering.Vocabulary

/-!
# Points of emitted code

While a function is lowered, what its code names is as demanded.  The labels that have been
placed and those that are pending are together the labels that have been taken, and jumps lead
to these only.  For each of them it is told whether a variable has been written when control is
there: at a label that loops go back to that was known before the loop, and behind a branch it
is known behind each of its bodies.
-/

namespace Endmark.Ir

/-- No label is placed twice, and every jump leads to a label. -/
structure Labelled (code : List Instr) : Prop where
  nodup : (labelNames code).Nodup
  targets : ∀ i ∈ code, i.targets ⊆ labelNames code

end Endmark.Ir

namespace Endmark.Lowering

open Ir (WordType Operand Instr labelNames)
open Typed (Expr Stmt Arm FStringPart Variable)
open Endmark.Tree (BinaryOp UnaryOp Literal)

/-! ### Points of the code -/

/-- The first labels, so many. -/
def takenLabels (count : Nat) : List String :=
  (List.range count).map labelName

theorem takenLabels_mono (h : n ≤ m) :
  takenLabels n ⊆ takenLabels m
  := List.map_subset _ (List.range_subset.mpr h)

theorem mem_takenLabels_succ :
  name ∈ takenLabels (n + 1) ↔ name ∈ takenLabels n ∨ name = labelName n
  := by
  rw [takenLabels, List.range_succ, List.map_append, List.mem_append, List.map_singleton,
    List.mem_singleton]
  rfl

theorem labelName_notMem :
  labelName n ∉ takenLabels n
  := by
  intro hname
  obtain ⟨i, hi, heq⟩ := List.mem_map.mp hname
  obtain rfl := labelName_inj heq
  exact absurd (List.mem_range.mp hi) (lt_irrefl _)

/-- What is looked after in the code from a state on: what it names; if `labels` holds, where its
labels are; and if `flow` holds, that the variable is written before it is read. -/
structure Aim where
  names : Ir.Vocabulary
  labels : Prop
  flow : Prop
  x : String
  start : State

/-- Labels and jumps matter. -/
def Aim.strict (A : Aim) : Prop :=
  A.labels ∨ A.flow

/-- The labels that are taken have been placed, each of them once, but for those that are
pending. -/
structure State.Placed (s : State) (pending : Finset String) : Prop where
  nodup : (labelNames s.code.toList).Nodup
  placed : ∀ name ∈ takenLabels s.labels, name ∈ labelNames s.code.toList ∨ name ∈ pending
  apart : ∀ name ∈ pending, name ∉ labelNames s.code.toList

/-- Nothing has been reported since. -/
def Aim.Quiet (A : Aim) (s : State) : Prop :=
  s.reports.size ≤ A.start.reports.size

/-- Where lowering has got to: the code so far, the labels at which the variable has been
written, and the labels that are to be placed yet.  After a report these do not matter. -/
structure Point (A : Aim) where
  state : State
  marks : String → Prop
  pending : Finset String
  uses : State.Uses A.names A.start state
  places : A.strict → ∀ i ∈ state.code.toList, i.places ⊆ takenLabels state.labels
  taken : A.strict → ∀ name ∈ pending, name ∈ takenLabels state.labels
  placed : A.labels → A.Quiet state → state.Placed pending
  fits : A.flow → A.Quiet state → Ir.Fits A.x marks state.code.toList

namespace Point

variable {p : Point A}

/-- The number of string constants. -/
def strings (p : Point A) : Nat :=
  p.state.strings.length

/-- The variable has been written when control is there. -/
def Known (p : Point A) : Prop :=
  A.flow → A.Quiet p.state → Ir.Assigned A.x p.marks p.state.code.toList

/-- Lowering goes on from one point to the other: string constants and reports stay, and what is
told at labels that are taken does too. -/
structure Before (p q : Point A) : Prop where
  strings : p.strings ≤ q.strings
  quiet : A.strict → A.Quiet q.state → A.Quiet p.state
  labels : A.strict → p.state.labels ≤ q.state.labels
  marks : A.strict → ∀ name ∈ takenLabels p.state.labels, q.marks name = p.marks name

attribute [grind →] Before.strings

theorem Before.refl :
  p.Before p
  := ⟨le_rfl, fun _ => id, fun _ => le_rfl, fun _ _ _ => rfl⟩

theorem Before.trans (h : p.Before q) (h' : q.Before r) :
  p.Before r
  := ⟨h.strings.trans h'.strings, fun hA hr => h.quiet hA (h'.quiet hA hr),
    fun hA => (h.labels hA).trans (h'.labels hA), fun hA name hname =>
      (h'.marks hA name (takenLabels_mono (h.labels hA) hname)).trans (h.marks hA name hname)⟩

/-- Moreover, what was known stays so, and nothing more is pending than was. -/
@[grind =]
def Reaches (p q : Point A) : Prop :=
  p.Before q ∧ (p.Known → q.Known) ∧ (A.labels → q.pending = p.pending)

theorem Reaches.refl :
  p.Reaches p
  := ⟨.refl, id, fun _ => rfl⟩

theorem Reaches.trans (h : p.Reaches q) (h' : q.Reaches r) :
  p.Reaches r
  := ⟨h.1.trans h'.1, fun hp => h'.2.1 (h.2.1 hp), fun hA => (h'.2.2 hA).trans (h.2.2 hA)⟩

/-- The operand may be read there. -/
@[grind =]
def Holds (p : Point A) (o : Operand) : Prop :=
  o.Uses A.names p.strings ∧ (o.var? = some A.x → p.Known)

@[grind =]
theorem holds_var :
  p.Holds (.var y) ↔ A.names.var y ∧ (y = A.x → p.Known)
  := by
  rw [Holds, Operand.var?, Option.some.injEq]
  rfl

theorem holds_int :
  p.Holds (.int value)
  := ⟨trivial, nofun⟩

theorem Holds.mono (h : p.Holds o) (hpq : p.Reaches q) :
  q.Holds o
  := ⟨h.1.mono hpq.1.strings, fun hx => hpq.2.1 (h.2 hx)⟩

grind_pattern Ir.Operand.Uses.mono => o.Uses V n, o.Uses V m

theorem forall_mem_pair (h : p.Holds o) (h' : p.Holds o') :
  ∀ a ∈ [o, o'], p.Holds a
  := by
  rw [List.forall_mem_cons, List.forall_mem_singleton]
  exact ⟨h, h'⟩

/-- At the label, which is taken, it is told that the variable has been written if `B`. -/
structure Tells (p : Point A) (name : String) (B : Prop) : Prop where
  label : A.names.label name
  taken : A.strict → name ∈ takenLabels p.state.labels
  marks : A.strict → p.marks name = B

@[grind →]
theorem Tells.mono (h : p.Tells name B) (hpq : p.Before q) :
  q.Tells name B
  := ⟨h.label, fun hA => takenLabels_mono (hpq.labels hA) (h.taken hA),
    fun hA => (hpq.marks hA name (h.taken hA)).trans (h.marks hA)⟩

/-- Control may go to the label. -/
structure Open (p : Point A) (name : String) : Prop where
  label : A.names.label name
  taken : A.strict → name ∈ takenLabels p.state.labels
  known : A.strict → p.marks name → p.Known

theorem Tells.open (h : p.Tells name B) (hB : B → p.Known) :
  p.Open name
  := ⟨h.label, h.taken, fun hA hmarks => hB (h.marks hA ▸ hmarks)⟩

@[grind →]
theorem Open.mono (h : p.Open name) (hpq : p.Before q) (hknown : p.Known → q.Known) :
  q.Open name
  := ⟨h.label, fun hA => takenLabels_mono (hpq.labels hA) (h.taken hA),
    fun hA hmarks => hknown (h.known hA (hpq.marks hA name (h.taken hA) ▸ hmarks))⟩

end Point

/-! ### Runs -/

namespace Lower

open Point

variable {env : Env} {p : Point A}

/-- Lowering goes from the point to one of which the rest holds, or has reported a fault. -/
def Flows (l : Lower α) (env : Env) (p : Point A) (Q : α → Point A → Prop) : Prop :=
  ∃ q : Point A, q.state = ((l.run env).run p.state).2 ∧ p.Before q ∧
    match ((l.run env).run p.state).1 with
    | .ok a => Q a q
    | .error _ => A.strict → ¬ A.Quiet q.state

/-- Moreover, what was known stays so, and nothing more is pending than was. -/
def Runs (l : Lower α) (env : Env) (p : Point A) (Q : α → Point A → Prop) : Prop :=
  l.Flows env p fun a q => p.Reaches q ∧ Q a q

/-- The operand that it gives may be read where it ends. -/
abbrev Supplies (l : Lower Operand) (env : Env) (p : Point A) : Prop :=
  l.Runs env p fun o q => q.Holds o

variable {l : Lower α} {i : Instr}

theorem Flows.imp (h : l.Flows env p Q) (himp : ∀ a q, p.Before q → Q a q → R a q) :
  l.Flows env p R
  := by
  obtain ⟨q, hq, hpq, hresult⟩ := h
  use q, hq, hpq
  split
  · next a ha =>
      rw [ha] at hresult
      apply himp a q hpq hresult
  · next stop hstop =>
      rw [hstop] at hresult
      apply hresult

theorem Runs.imp (h : l.Runs env p Q) (himp : ∀ a q, p.Reaches q → Q a q → R a q) :
  l.Runs env p R
  := by
  apply Flows.imp h
  exact fun a q _ hq => ⟨hq.1, himp a q hq.1 hq.2⟩

theorem flows_pure (h : Q a p) :
  (pure a : Lower α).Flows env p Q
  := ⟨p, rfl, .refl, h⟩

theorem runs_pure (h : Q a p) :
  (pure a : Lower α).Runs env p Q
  := flows_pure ⟨.refl, h⟩

/-- Control flows through one part and then the other. -/
theorem flows_bind {R : β → Point A → Prop} (hl : l.Flows env p Q)
    (hf : ∀ a q, p.Before q → Q a q → (f a).Flows env q R) :
  (l >>= f).Flows env p R
  := by
  obtain ⟨q, hq, hpq, hresult⟩ := hl
  rw [Flows, run_bind]
  rcases hrun : (l.run env).run p.state with ⟨stop | a, t⟩
  · rw [hrun] at hq hresult
    use q, hq, hpq, hresult
  · rw [hrun] at hq hresult
    obtain rfl : q.state = t := hq
    obtain ⟨r, hr, hqr, hend⟩ := hf a q hpq hresult
    use r, hr, hpq.trans hqr, hend

theorem runs_bind {R : β → Point A → Prop} (hl : l.Runs env p Q)
    (hf : ∀ a q, p.Reaches q → Q a q → (f a).Runs env q R) :
  (l >>= f).Runs env p R
  := by
  apply flows_bind hl
  rintro a q _ ⟨hpq, hQ⟩
  apply Flows.imp (hf a q hpq hQ)
  rintro b r _ ⟨hqr, hR⟩
  exact ⟨hpq.trans hqr, hR⟩

theorem Runs.of_flows (h : l.Flows env p fun a q =>
      ((p.Known → q.Known) ∧ (A.labels → q.pending = p.pending)) ∧ Q a q) :
  l.Runs env p Q
  := by
  apply Flows.imp h
  exact fun a q hpq hq => ⟨⟨hpq, hq.1⟩, hq.2⟩

theorem runs_read {Q : β → Point A → Prop} (h : (f env).Runs env p Q) :
  ((read : Lower Env) >>= f).Runs env p Q
  := h

theorem runs_get {Q : β → Point A → Prop} (h : (f p.state).Runs env p Q) :
  ((get : Lower State) >>= f).Runs env p Q
  := h

/-- Where labels and jumps do not matter, it suffices that the code names what it may. -/
theorem runs_of_emits (hA : ¬ A.strict) (h : l.Emits env A.names p.strings R) :
  l.Runs env p fun a q => R q.strings a
  := by
  obtain ⟨hstrings, huses, hresult⟩ := h A.start p.state le_rfl p.uses _ _ rfl
  have hlabels : ¬ A.labels := fun h => hA (.inl h)
  have hflow : ¬ A.flow := fun h => hA (.inr h)
  let q : Point A := ⟨_, p.marks, p.pending, huses, fun h => absurd h hA, fun h => absurd h hA,
    fun h => absurd h hlabels, fun h => absurd h hflow⟩
  have hpq : p.Before q := ⟨hstrings, fun h => absurd h hA, fun h => absurd h hA,
    fun h => absurd h hA⟩
  use q, rfl, hpq
  split
  · next a ha => exact ⟨⟨hpq, fun _ h => absurd h hflow, fun _ => rfl⟩, hresult a ha⟩
  · exact fun h => absurd h hA

/-! ### Instructions -/

/-- A run that changes neither the code nor the labels nor the reports. -/
theorem runs_modifyGet (hg : g p.state = (a, s)) (huses : State.Uses A.names A.start s)
    (hstrings : p.strings ≤ s.strings.length)
    (hkept : s.reports = p.state.reports ∧ s.code = p.state.code ∧ s.labels = p.state.labels) :
  (modifyGet g : Lower α).Runs env p fun b q => b = a ∧ q.state = s
  := by
  obtain ⟨hreports, hcode, hlabels⟩ := hkept
  have hquiet : A.Quiet s ↔ A.Quiet p.state := by
    rw [Aim.Quiet, hreports]
    rfl
  let q : Point A := {
    state := s
    marks := p.marks
    pending := p.pending
    uses := huses
    places := by
      rw [hcode, hlabels]
      apply p.places
    taken := by
      rw [hlabels]
      apply p.taken
    placed := by
      intro hA h
      obtain ⟨hnodup, hplaced, hapart⟩ := p.placed hA (hquiet.mp h)
      constructor
      · rwa [hcode]
      · rwa [hcode, hlabels]
      · rwa [hcode]
    fits := by
      rw [hcode, hquiet]
      apply p.fits }
  have hpq : p.Before q := ⟨hstrings, fun _ => hquiet.mp, fun _ => hlabels.ge, fun _ _ _ => rfl⟩
  have hrun : ((modifyGet g : Lower α).run env).run p.state = (.ok a, s) := by
    change (Except.ok (g p.state).1, (g p.state).2) = _
    rw [hg]
  rw [Runs, Flows, hrun]
  refine ⟨q, rfl, hpq, ⟨hpq, ?_, fun _ => rfl⟩, rfl, rfl⟩
  intro hknown
  rw [Known, hcode, hquiet]
  apply hknown

theorem runs_fail :
  (fail span fault : Lower α).Runs env p Q
  := by
  obtain ⟨htemps, hreports, hcode, hvars⟩ := p.uses
  let s : State := { p.state with reports := p.state.reports.push (fault.at span) }
  have hsize : s.reports.size = p.state.reports.size + 1 := Array.size_push ..
  have hnoise : ¬ A.Quiet s := by
    rw [Aim.Quiet]
    omega
  use ⟨s, p.marks, p.pending, ⟨htemps, by omega, hcode, hvars⟩, p.places, p.taken,
    fun _ h => absurd h hnoise, fun _ h => absurd h hnoise⟩
  exact ⟨rfl, ⟨le_rfl, fun _ h => absurd h hnoise, fun _ => le_rfl, fun _ _ _ => rfl⟩,
    fun _ => hnoise⟩

/-- Where the first part fails there has been a report, so that it does not matter what was
pending. -/
theorem runs_attempt? (h : l.Runs env p Q) :
  l.attempt?.Runs env p fun a q => match a with
    | some a => Q a q
    | none => A.strict → ¬ A.Quiet q.state
  := by
  obtain ⟨q, hq, hpq, hresult⟩ := h
  rw [Runs, Flows, run_attempt?]
  rcases hrun : (l.run env).run p.state with ⟨stop | a, t⟩
  · rw [hrun] at hq hresult
    obtain rfl : q.state = t := hq
    have hlabels (hA : A.labels) := hresult (.inl hA)
    let r : Point A := ⟨q.state, q.marks, p.pending, q.uses, q.places, fun hA name hname =>
      takenLabels_mono (hpq.labels hA) (p.taken hA name hname),
      fun hA hquiet => absurd hquiet (hlabels hA), q.fits⟩
    have hpr : p.Before r := ⟨hpq.strings, hpq.quiet, hpq.labels, hpq.marks⟩
    cases stop with
    | reported =>
      exact ⟨r, rfl, hpr, ⟨hpr, fun _ hA hquiet => absurd hquiet (hresult (.inr hA)),
        fun _ => rfl⟩, hresult⟩
    | abandoned => exact ⟨r, rfl, hpr, hresult⟩
  · rw [hrun] at hq hresult
    exact ⟨q, hq, hpq, hresult⟩

/-- The point behind one more instruction. -/
def behind (p : Point A) (i : Instr) (rest : Finset String) (hrest : rest ⊆ p.pending)
    (huses : i.Uses A.names p.strings) (hplaces : ∀ name ∈ i.places, p.Open name)
    (hreads : A.x ∈ i.reads → p.Known)
    (hplaced : A.labels → A.Quiet p.state → (p.state.emit i).Placed rest) : Point A where
  state := p.state.emit i
  marks := p.marks
  pending := rest
  uses := p.uses.emit huses
  places hA := by
    rw [State.toList_emit, List.forall_mem_append, List.forall_mem_singleton]
    exact ⟨p.places hA, fun name hname => (hplaces name hname).taken hA⟩
  taken hA name hname := p.taken hA name (hrest hname)
  placed := hplaced
  fits hA hquiet := by
    rw [State.toList_emit]
    apply Ir.fits_append_singleton (p.fits hA hquiet)
    exact ⟨fun hx => hreads hx hA hquiet, fun name hname hmarks =>
      (hplaces name hname).known (.inr hA) hmarks hA hquiet⟩

/-- One more instruction, whose labels are open and whose operands are known. -/
theorem flows_emit {Q : PUnit → Point A → Prop} (hrest : rest ⊆ p.pending)
    (huses : i.Uses A.names p.strings) (hplaces : ∀ name ∈ i.places, p.Open name)
    (hreads : A.x ∈ i.reads → p.Known)
    (hplaced : A.labels → A.Quiet p.state → (p.state.emit i).Placed rest)
    (hQ : ∀ q : Point A, q.pending = rest → p.Before q →
      ((A.flow → A.Quiet p.state →
        i.Assigned A.x p.marks (Ir.Assigned A.x p.marks p.state.code.toList)) → q.Known) →
      Q ⟨⟩ q) :
  (emit i).Flows env p Q
  := by
  let q := behind p i rest hrest huses hplaces hreads hplaced
  have hpq : p.Before q := ⟨le_rfl, fun _ => id, fun _ => le_rfl, fun _ _ _ => rfl⟩
  use q, rfl, hpq
  apply hQ q rfl hpq
  intro h hA hquiet
  change Ir.Assigned A.x p.marks (p.state.emit i).code.toList
  rw [State.toList_emit]
  exact Ir.assigned_append_singleton.mpr (h hA hquiet)

/-- Only labels are placed. -/
theorem placed_emit (hlabel : labelNames [i] = []) (hA : A.labels) (hquiet : A.Quiet p.state) :
  (p.state.emit i).Placed p.pending
  := by
  have hnames : labelNames (p.state.emit i).code.toList = labelNames p.state.code.toList := by
    rw [State.toList_emit, Ir.labelNames_append, hlabel, List.append_nil]
  obtain ⟨hnodup, hplaced, hapart⟩ := p.placed hA hquiet
  constructor
  all_goals rwa [hnames]

theorem known_of_reads (hraw : i.rawVars = []) (hoperands : ∀ o ∈ i.operands, p.Holds o)
    (hx : A.x ∈ i.reads) :
  p.Known
  := by
  rw [Instr.reads, hraw, List.append_nil] at hx
  obtain ⟨o, ho, hvar⟩ := List.mem_filterMap.mp hx
  apply (hoperands o ho).2 hvar

/-- Neither a label nor a jump nor raw text. -/
structure Plain (i : Instr) : Prop where
  places : i.places = []
  goes : i.isTerminator = false
  text : i.rawVars = []

/-- A plain instruction leaves known what was, and what it writes. -/
theorem runs_emit (huses : i.Uses A.names p.strings) (hoperands : ∀ o ∈ i.operands, p.Holds o)
    (hi : Plain i) :
  (emit i).Runs env p fun _ q => i.dst? = some (.var A.x) → q.Known
  := by
  have hlabel : labelNames [i] = [] := (List.append_eq_nil_iff.mp hi.places).2
  apply flows_emit (refl _) huses (by simp [hi.places])
    (known_of_reads hi.text hoperands) (placed_emit hlabel)
  intro q hpending hpq hknown
  refine ⟨⟨hpq, fun hp => hknown fun hA hquiet => ?_, fun _ => hpending⟩, ?_⟩
  · exact (Instr.assigned_iff hlabel hi.goes).mpr (.inl (hp hA hquiet))
  · intro hdst
    apply hknown
    intro _ _
    apply (Instr.assigned_iff hlabel hi.goes).mpr
    right
    rw [Instr.writes, hdst]
    exact List.mem_append_left _ (List.mem_singleton_self A.x)

/-- Nothing gets past a jump. -/
theorem flows_jump (hjump : i.isTerminator) (hraw : i.rawVars = [])
    (huses : i.Uses A.names p.strings) (hplaces : ∀ name ∈ i.places, p.Open name)
    (hoperands : ∀ o ∈ i.operands, p.Holds o) :
  (emit i).Flows env p fun _ q => q.Known ∧ q.pending = p.pending
  := by
  have hlabel : labelNames [i] = [] := by
    cases i with
    | label name => cases hjump
    | _ => rfl
  apply flows_emit (refl _) huses hplaces (known_of_reads hraw hoperands)
    (placed_emit hlabel)
  intro q hpending _ hknown
  exact ⟨hknown fun _ _ => Instr.assigned_of_isTerminator hjump, hpending⟩

/-- At a label that is placed, it is known what is told there. -/
theorem flows_place (h : p.Tells name B := by grind) (hB : B → p.Known := by grind)
    (hname : A.labels → name ∈ p.pending := by grind) :
  (emit (.label name)).Flows env p fun _ q =>
    (B → q.Known) ∧ q.pending = p.pending.erase name
  := by
  have hplaces : ∀ other ∈ (Instr.label name).places, p.Open other := by
    intro other hother
    obtain rfl := List.mem_singleton.mp hother
    apply h.open hB
  apply flows_emit (i := .label name) (Finset.erase_subset name _) h.label hplaces
    (fun hx => nomatch hx)
  · intro hA hquiet
    obtain ⟨hnodup, hplaced, hapart⟩ := p.placed hA hquiet
    have hnames : labelNames (p.state.emit (.label name)).code.toList =
        labelNames p.state.code.toList ++ [name] := by
      rw [State.toList_emit, Ir.labelNames_append]
      rfl
    constructor
    · rw [hnames]
      exact List.nodup_append.mpr ⟨hnodup, List.nodup_singleton name, by grind⟩
    · change ∀ other ∈ takenLabels p.state.labels, _
      grind
    · grind
  · intro q hpending _ hknown
    refine ⟨fun hmarks => hknown fun hA _ => ?_, hpending⟩
    change p.marks name
    rw [h.marks (.inr hA)]
    apply hmarks

theorem runs_temp (htemp : ∀ i : Nat, A.start.temps ≤ i → A.names.var (toString i)) :
  (temp ty).Runs env p fun name _ => A.names.var name
  := by
  obtain ⟨htemps, hreports, hcode, hvars⟩ := p.uses
  have hname : A.names.var (toString p.state.temps) := htemp _ htemps
  apply runs_bind (runs_modifyGet (by rfl)
    (by exact ⟨htemps.trans (Nat.le_succ _), hreports, hcode, hvars⟩) (by exact le_rfl)
    (by exact ⟨rfl, rfl, rfl⟩))
  rintro name q _ ⟨rfl, hq⟩
  apply runs_bind (runs_modifyGet (by rfl) (by exact q.uses.declare hname) (by exact le_rfl)
    (by exact ⟨rfl, rfl, rfl⟩))
  exact fun _ r _ _ => runs_pure hname

/-- A text may be read, and is no variable. -/
theorem runs_string {text : String} :
  (string text).Runs env p fun o q => q.Holds o ∧ o.var? = none
  := by
  cases hindex : p.state.strings.idxOf? text with
  | some index =>
    apply Runs.imp (runs_modifyGet (by rw [hindex]) p.uses le_rfl ⟨rfl, rfl, rfl⟩)
    rintro _ q _ ⟨rfl, hq⟩
    refine ⟨⟨?_, nofun⟩, rfl⟩
    rw [List.idxOf?, List.findIdx?_eq_some_iff_getElem] at hindex
    rw [strings, hq]
    apply hindex.1
  | none =>
    have hlength : p.strings ≤ (p.state.strings ++ [text]).length := by simp [strings]
    apply Runs.imp (runs_modifyGet (by rw [hindex]) (p.uses.strings hlength) hlength
      ⟨rfl, rfl, rfl⟩)
    rintro _ q _ ⟨rfl, hq⟩
    refine ⟨⟨?_, nofun⟩, rfl⟩
    rw [strings, hq]
    simp [Operand.Uses]

/-! ### Operations -/

section

variable {value : Operand} (h : Serves N A.names A.strict A.start.temps env)

include h

/-- A label that is taken now tells what one wants it to, and is pending. -/
theorem flows_label (B : Prop) :
  label.Flows env p fun name q => (p.Known → q.Known) ∧ q.Tells name B ∧
    (A.labels → name ∉ p.pending) ∧ q.pending = insert name p.pending
  := by
  have hfresh : ∀ name ∈ takenLabels p.state.labels, name ≠ labelName p.state.labels := by
    rintro _ hname rfl
    apply labelName_notMem hname
  let marks := Function.update p.marks (labelName p.state.labels) B
  have hmarks : ∀ name ∈ takenLabels p.state.labels, marks name = p.marks name := fun name hname =>
    Function.update_of_ne (hfresh name hname) _ _
  have hcode : A.strict → ∀ i ∈ p.state.code.toList, ∀ name ∈ i.places,
      marks name = p.marks name :=
    fun hA i hi name hname => hmarks name (p.places hA i hi hname)
  have hgrow := takenLabels_mono (Nat.le_succ p.state.labels)
  have hself : labelName p.state.labels ∈ takenLabels (p.state.labels + 1) :=
    mem_takenLabels_succ.mpr (.inr rfl)
  let q : Point A := {
    state := p.state.label
    marks := marks
    pending := insert (labelName p.state.labels) p.pending
    uses := ⟨p.uses.temps, p.uses.reports, p.uses.code, p.uses.vars⟩
    places := fun hA i hi => List.Subset.trans (p.places hA i hi) hgrow
    taken := by
      intro hA name hname
      obtain rfl | hname := Finset.mem_insert.mp hname
      · apply hself
      · apply hgrow (p.taken hA name hname)
    placed := by
      intro hA hquiet
      obtain ⟨hnodup, hplaced, hapart⟩ := p.placed hA hquiet
      refine ⟨hnodup, ?_, ?_⟩
      · intro name hname
        obtain hname | rfl := mem_takenLabels_succ.mp hname
        · exact (hplaced name hname).imp_right fun h => Finset.mem_insert_of_mem h
        · exact .inr (Finset.mem_insert_self _ _)
      · intro name hname hcode
        obtain rfl | hname := Finset.mem_insert.mp hname
        · have hplaces := p.places (.inl hA) _ (Ir.mem_labelNames.mp hcode)
          exact hfresh _ (hplaces (List.mem_singleton_self _)) rfl
        · exact hapart name hname hcode
    fits := fun hA hquiet => Ir.fits_congr (hcode (.inr hA)) (p.fits hA hquiet) }
  have hpq : p.Before q := ⟨le_rfl, fun _ => id, fun _ => Nat.le_succ _, fun _ => hmarks⟩
  refine ⟨q, rfl, hpq, ?_, ⟨h.label _, fun _ => hself, fun _ => Function.update_self ..⟩, ?_, rfl⟩
  · intro hknown hA hquiet
    change Ir.Assigned A.x marks p.state.code.toList
    rw [Ir.assigned_congr (hcode (.inr hA))]
    apply hknown hA hquiet
  · exact fun hA hname => hfresh _ (p.taken (.inl hA) _ hname) rfl

theorem runs_assign {v : Variable} (hv : N.variable v) (hvalue : p.Holds value) :
  (assign v value).Runs env p fun _ q => v = .slot A.x → q.Known
  := by
  apply runs_read
  apply Runs.imp (runs_emit (i := .move _ _ _) ⟨h.place hv, hvalue.1⟩
    (List.forall_mem_singleton.mpr hvalue) ⟨rfl, rfl, rfl⟩)
  rintro _ q _ hdst rfl
  apply hdst rfl

/-- An instruction that writes a new temporary. -/
theorem runs_compute {i : String → Instr}
    (huses : ∀ y, A.names.var y → (i y).Uses A.names p.strings)
    (hoperands : ∀ y, ∀ o ∈ (i y).operands, p.Holds o)
    (hi : ∀ y, Plain (i y) ∧ (i y).dst? = some (.var y)) :
  (do
    let dst ← temp ty
    emit (i dst)
    return .var dst : Lower Operand).Supplies env p
  := by
  apply runs_bind (runs_temp h.temp)
  intro dst q hpq hname
  apply runs_bind (runs_emit ((huses dst hname).mono hpq.1.strings)
    (fun o ho => (hoperands dst o ho).mono hpq) (hi dst).1)
  intro _ r _ hwritten
  apply runs_pure
  refine holds_var.mpr ⟨hname, ?_⟩
  rintro rfl
  apply hwritten (hi _).2

theorem runs_binary (hop : op.supports ty) (hlhs : p.Holds lhs) (hrhs : p.Holds rhs) :
  (binary op ty lhs rhs).Supplies env p
  := runs_compute h (fun _ hy => ⟨hy, hop, hlhs.1, hrhs.1⟩)
    (fun _ => forall_mem_pair hlhs hrhs) fun _ => ⟨⟨rfl, rfl, rfl⟩, rfl⟩

theorem runs_unary {op : Ir.UnOp} (hvalue : p.Holds value) :
  (unary op ty value).Supplies env p
  := runs_compute h (fun _ hy => ⟨hy, hvalue.1⟩)
    (fun _ => List.forall_mem_singleton.mpr hvalue) fun _ => ⟨⟨rfl, rfl, rfl⟩, rfl⟩

theorem runs_call (hcallee : A.names.callee callee) (hargs : ∀ o ∈ args, p.Holds o) :
  (call callee args ty).Supplies env p
  := by
  apply runs_compute h
  · intro y hy
    refine ⟨?_, hcallee, fun o ho => (hargs o ho).1⟩
    rintro _ ⟨⟩
    apply hy
  · exact fun _ => hargs
  · exact fun _ => ⟨⟨rfl, rfl, rfl⟩, rfl⟩

/-- A call of a routine with one argument. -/
theorem runs_routine (hvalue : p.Holds value) (hcallee : callee ∈ routinesUsed) :
  (call callee [value] ty).Supplies env p
  := runs_call h (h.routine _ hcallee) (List.forall_mem_singleton.mpr hvalue)

/-- A call of a routine with two arguments. -/
theorem runs_routine₂ (hlhs : p.Holds lhs) (hrhs : p.Holds rhs) (hcallee : callee ∈ routinesUsed) :
  (call callee [lhs, rhs] ty).Supplies env p
  := runs_call h (h.routine _ hcallee) (forall_mem_pair hlhs hrhs)

/-- A routine is called that gives no result. -/
theorem runs_act (hvalue : p.Holds value)
    (hcallee : callee ∈ routinesUsed) :
  (emit (.call none callee [value])).Runs env p fun _ _ => True
  := by
  have hargs := List.forall_mem_singleton.mpr hvalue
  apply Runs.imp (runs_emit (i := .call none callee [value])
    ⟨nofun, h.routine _ hcallee, fun o ho => (hargs o ho).1⟩ hargs ⟨rfl, rfl, rfl⟩)
  exact fun _ _ _ _ => trivial

theorem runs_load (hoffset : A.names.offset offset) (hvalue : p.Holds value) :
  (load ty value offset).Supplies env p
  := runs_compute h (fun _ hy => ⟨hy, hvalue.1, hoffset⟩)
    (fun _ => List.forall_mem_singleton.mpr hvalue) fun _ => ⟨⟨rfl, rfl, rfl⟩, rfl⟩

omit h in
theorem runs_literal {value : Literal} :
  (literal value).Supplies env p
  := by
  cases value with
  | str text => exact runs_string.imp fun _ _ _ ho => ho.1
  | _ => exact runs_pure ⟨trivial, nofun⟩

theorem runs_toFloat {ty : Ty} (hvalue : p.Holds value) :
  (toFloat value ty).Supplies env p
  := by
  unfold toFloat
  split
  · apply runs_pure hvalue
  · exact runs_pure ⟨trivial, nofun⟩
  · apply runs_unary h hvalue

theorem runs_truth (hvalue : p.Holds value) :
  (truth value ty).Supplies env p
  := by
  have hlength : (do
      let length ← load .i64 value 0
      binary .ne .i64 length (.int 0)).Supplies env p := by
    apply runs_bind (runs_load h h.start hvalue)
    intro length q _ hlength
    exact runs_binary h rfl hlength holds_int
  unfold truth
  split
  · apply runs_pure hvalue
  · exact runs_binary h rfl hvalue ⟨trivial, nofun⟩
  · apply hlength
  · apply hlength
  · exact runs_binary h rfl hvalue holds_int

omit h in
/-- A value is written to a temporary. -/
theorem runs_move {y : String} {ty : WordType} (hy : A.names.var y := by grind)
    (hvalue : p.Holds value := by grind) :
  (emit (.move (.var y) ty value)).Runs env p fun _ q => q.Holds (.var y)
  := by
  apply Runs.imp (runs_emit (i := .move (.var y) ty value) ⟨hy, hvalue.1⟩
    (List.forall_mem_singleton.mpr hvalue) ⟨rfl, rfl, rfl⟩)
  intro _ q _ hdst
  refine holds_var.mpr ⟨hy, ?_⟩
  rintro rfl
  apply hdst rfl

omit h in
theorem flows_branch {cond : Operand} {yes no : String} (hB : B → p.Known := by grind)
    (hcond : p.Holds cond := by grind) (hyes : p.Tells yes B := by grind)
    (hno : p.Tells no B := by grind) :
  (emit (.branch cond yes no)).Flows env p fun _ q => q.Known ∧ q.pending = p.pending
  := by
  apply flows_jump (i := .branch cond yes no) rfl rfl ⟨hcond.1, hyes.label, hno.label⟩
  · simpa [Instr.places, Instr.targets, labelNames] using ⟨hyes.open hB, hno.open hB⟩
  · exact List.forall_mem_singleton.mpr hcond

omit h in
theorem flows_goto (h : p.Tells name B := by grind) (hB : B → p.Known := by grind) :
  (emit (.jump name)).Flows env p fun _ q => q.Known ∧ q.pending = p.pending
  := by
  apply flows_jump (i := .jump name) rfl rfl h.label
  · simpa [Instr.places, Instr.targets, labelNames] using h.open hB
  · rintro _ ⟨⟩

/-- Both texts are moved to the same variable. -/
theorem runs_truthText (hvalue : p.Holds value) :
  (truthText value).Supplies env p
  := by
  apply Runs.of_flows
  apply flows_bind (runs_temp h.temp)
  intro out p1 _ _
  apply flows_bind (flows_label h p.Known)
  intro yes p2 _ _
  apply flows_bind (flows_label h p.Known)
  intro no p3 _ _
  apply flows_bind (flows_label h (p.Known ∨ out = A.x))
  intro done p4 _ _
  apply flows_bind runs_string
  intro yesText p5 _ _
  apply flows_bind runs_string
  intro noText p6 _ _
  apply flows_bind (flows_branch (B := p.Known))
  intro _ p7 _ _
  apply flows_bind (flows_place (B := p.Known))
  intro _ p8 _ _
  apply flows_bind runs_move
  intro _ p9 _ _
  apply flows_bind (flows_goto (B := p.Known ∨ out = A.x))
  intro _ p10 _ _
  apply flows_bind (flows_place (B := p.Known))
  intro _ p11 _ _
  apply flows_bind runs_move
  intro _ p12 _ _
  apply flows_bind (flows_place (B := p.Known ∨ out = A.x))
  intro _ p13 _ _
  apply flows_pure
  grind

theorem runs_text {span : Span} (hvalue : p.Holds value) :
  (text value ty span).Supplies env p
  := by
  unfold text
  split
  · apply runs_pure hvalue
  · apply runs_routine h hvalue (by simp [routinesUsed])
  · apply runs_truthText h hvalue
  · apply runs_fail
  · apply runs_fail
  · apply runs_routine h hvalue (by simp [routinesUsed])

theorem runs_concat (hlhs : p.Holds lhs) (hrhs : p.Holds rhs) :
  (concat lhs rhs).Supplies env p
  := runs_routine₂ h hlhs hrhs (by simp [routinesUsed])

theorem runs_itemBefore (hlist : p.Holds list) (hposition : p.Holds position) :
  (itemBefore list position).Supplies env p
  := by
  apply runs_bind (runs_binary h rfl hposition holds_int)
  intro scaled q hpq hscaled
  exact runs_binary h rfl (hlist.mono hpq) hscaled

theorem runs_checkedItemBefore (hlist : p.Holds list) (hindex : p.Holds index) :
  (checkedItemBefore list index).Supplies env p
  := by
  apply runs_bind (runs_routine₂ h hlist hindex (by simp [routinesUsed]))
  intro position q hpq hposition
  exact runs_itemBefore h (hlist.mono hpq) hposition

omit h in
theorem runs_store {base : Operand} {ty : WordType} (hoffset : A.names.offset offset)
    (hbase : p.Holds base) (hvalue : p.Holds value) :
  (emit (.store ty base offset value)).Runs env p fun _ _ => True
  := by
  apply Runs.imp (runs_emit (i := .store ty base offset value)
    ⟨hbase.1, hoffset, hvalue.1⟩ (forall_mem_pair hbase hvalue) ⟨rfl, rfl, rfl⟩)
  exact fun _ _ _ _ => trivial

omit h in
/-- The items of a list are stored at distances that follow on each other. -/
theorem runs_storeItems {items : List (Operand × WordType)} (hlist : p.Holds list)
    (hitems : ∀ item ∈ items, p.Holds item.1)
    (hoffset : ∀ k < items.length, A.names.offset (offset + wordSize * .ofNat k)) :
  (storeItems list offset items).Runs env p fun _ _ => True
  := by
  induction items generalizing offset p with
  | nil => exact runs_pure trivial
  | cons item rest ih =>
    rw [List.forall_mem_cons] at hitems
    have hfirst := hoffset 0 (Nat.zero_lt_succ _)
    apply runs_bind (runs_store (by simpa using hfirst) hlist hitems.1)
    intro _ q hpq _
    apply ih (hlist.mono hpq) fun item hitem => (hitems.2 item hitem).mono hpq
    intro k hk
    have hnext := hoffset (k + 1) (Nat.succ_lt_succ hk)
    rwa [Int64.ofNat_add, Int64.mul_add, Int64.add_comm (wordSize * _), ← Int64.add_assoc]
      at hnext

/-- A new list may be read. -/
theorem runs_newList (hitems : ∀ item ∈ items, p.Holds item.1) (hlength : N.length items.length) :
  (newList items).Supplies env p
  := by
  apply runs_bind (runs_temp h.temp)
  intro list p1 h1 hname
  apply runs_bind (runs_emit (i := .alloc (.var list) (.int _)) ⟨hname, trivial⟩
    (List.forall_mem_singleton.mpr holds_int) ⟨rfl, rfl, rfl⟩)
  intro _ p2 h2 hwritten
  have hlist : p2.Holds (.var list) := by
    refine holds_var.mpr ⟨hname, ?_⟩
    rintro rfl
    apply hwritten rfl
  apply runs_bind (runs_store h.start hlist holds_int)
  intro _ p3 h3 _
  have hlist := hlist.mono h3
  apply runs_bind (runs_storeItems hlist (fun item hitem =>
    (hitems item hitem).mono (h1.trans (h2.trans h3))) (h.item _ hlength))
  exact fun _ p4 h4 _ => runs_pure (hlist.mono h4)

omit h in
theorem supports_of_comparison? {op : BinaryOp} {o : Ir.BinOp} (ho : comparison? op = some o)
    (ty : WordType) :
  o.supports ty
  := by
  cases op <;> cases ho <;> cases ty <;> rfl

omit h in
theorem supports_of_floatOperation? {op : BinaryOp} {o : Ir.BinOp}
    (ho : floatOperation? op result = some o) :
  o.supports .f64
  := by
  unfold floatOperation? at ho
  split at ho <;> cases ho <;> rfl

/-- An operation on two values as floating-point numbers. -/
theorem runs_floatBinary (hop : op.supports .f64) (hlhs : p.Holds lhs) (hrhs : p.Holds rhs) :
  (do
    let lhs ← toFloat lhs lhsTy
    let rhs ← toFloat rhs rhsTy
    binary op .f64 lhs rhs).Supplies env p
  := by
  apply runs_bind (runs_toFloat h hlhs)
  intro lhs q hpq hlhs
  apply runs_bind (runs_toFloat h (hrhs.mono hpq))
  intro rhs r hqr hrhs
  exact runs_binary h hop (hlhs.mono hqr) hrhs

theorem runs_compare (hop : ∀ ty, op.supports ty) (lhsTy rhsTy : Ty) (hlhs : p.Holds lhs)
    (hrhs : p.Holds rhs) :
  (compare op lhs rhs lhsTy rhsTy).Supplies env p
  := by
  unfold compare
  split
  · apply runs_bind (runs_routine₂ h hlhs hrhs (by simp [routinesUsed]))
    intro same q _ hsame
    split
    · apply runs_unary h hsame
    · apply runs_pure hsame
  · split
    · apply runs_floatBinary h (hop .f64) hlhs hrhs
    · apply runs_binary h (hop .i64) hlhs hrhs

theorem runs_arithmetic (op : BinaryOp) (result lhsTy rhsTy : Ty) (span : Span)
    (hlhs : p.Holds lhs) (hrhs : p.Holds rhs) :
  (arithmetic op result lhs rhs lhsTy rhsTy span).Supplies env p
  := by
  unfold arithmetic
  split
  · apply runs_concat h hlhs hrhs
  · apply runs_routine₂ h hlhs hrhs (by simp [routinesUsed])
  · apply runs_routine₂ h hlhs hrhs (by simp [routinesUsed])
  · split
    · rename_i hoperation
      apply runs_floatBinary h (supports_of_floatOperation? hoperation) hlhs hrhs
    · apply runs_binary h rfl hlhs hrhs
    · apply runs_fail

/-- The second operand is evaluated behind the first one only. -/
theorem runs_shortCircuit {op : BinaryOp} {lhs rhs : Lower Operand}
    (hlhs : ∀ q : Point A, (p.Known → q.Known) → lhs.Supplies env q)
    (hrhs : ∀ q : Point A, (p.Known → q.Known) → rhs.Supplies env q) :
  (shortCircuit op lhs rhs).Supplies env p
  := by
  apply Runs.of_flows
  apply flows_bind (runs_temp h.temp)
  intro out p1 _ _
  let K := p.Known ∨ out = A.x
  apply flows_bind (hlhs p1 (by grind))
  intro value p2 _ _
  apply flows_bind runs_move
  intro _ p3 _ _
  apply flows_bind (flows_label h K)
  intro second p4 _ _
  apply flows_bind (flows_label h K)
  intro done p5 _ _
  have hend : ∀ p6 : Point A, p5.Before p6 → p6.Known ∧ p6.pending = p5.pending → (do
      emit (.label second)
      emit (.move (.var out) .bool (← rhs))
      emit (.label done)
      return .var out : Lower Operand).Flows env p6 fun o q =>
        ((p.Known → q.Known) ∧ (A.labels → q.pending = p.pending)) ∧ q.Holds o := by
    intro p6 _ _
    apply flows_bind (flows_place (B := K))
    intro _ p7 _ _
    apply flows_bind (hrhs p7 (by grind))
    intro value p8 _ _
    apply flows_bind runs_move
    intro _ p9 _ _
    apply flows_bind (flows_place (B := K))
    intro _ p10 _ _
    apply flows_pure
    grind
  split
  all_goals
    apply flows_bind (flows_branch (B := K))
    exact fun _ => hend

end

end Lower

end Endmark.Lowering
