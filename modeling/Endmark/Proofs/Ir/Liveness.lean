import Endmark.Ir.Liveness
import Endmark.Proofs.Ir.Meaning
import Endmark.Proofs.Lookup

/-!
# Liveness is sound

Where the sweeps end, a variable is live before each instruction that reads it, and before
each one that does not write it and goes on to where it is live.  Its interval covers all of
these instructions, and those that write it.
-/

namespace Endmark.Ir

open List

/-! ### Reads and writes -/

theorem Instr.mem_rawVars {i : Instr} :
  x ∈ i.rawVars ↔ ∃ dst text span, i = .raw dst text span ∧ .var x ∈ placeholders text
  := by
  cases i <;> simp [rawVars, mem_filterMap]
  constructor
  · rintro ⟨p, hp, hx⟩
    cases p <;> cases hx
    exact hp
  · exact fun hx => ⟨_, hx, rfl⟩

/-- An instruction reads the variables among its operands, and raw text those that stand in its
placeholders. -/
theorem Instr.mem_reads {i : Instr} :
  x ∈ i.reads ↔ .var x ∈ i.operands ∨
    ∃ dst text span, i = .raw dst text span ∧ .var x ∈ placeholders text
  := by
  rw [reads, mem_append, mem_rawVars, mem_filterMap]
  refine or_congr_left ⟨?_, fun hx => ⟨_, hx, rfl⟩⟩
  rintro ⟨o, ho, hx⟩
  cases o <;> cases hx
  exact ho

/-- An instruction writes the variable that it is for, and raw text may write those that stand in
its placeholders. -/
theorem Instr.mem_writes {i : Instr} :
  x ∈ i.writes ↔ i.dst? = some (.var x) ∨
    ∃ dst text span, i = .raw dst text span ∧ .var x ∈ placeholders text
  := by
  rw [writes, mem_append, mem_rawVars, Option.mem_toList, Option.bind_eq_some_iff]
  refine or_congr_left ⟨?_, fun hx => ⟨_, hx, rfl⟩⟩
  rintro ⟨place, hplace, hx⟩
  cases place <;> cases hx
  exact hplace

namespace Liveness

/-! ### Sweeps -/

/-- Where one is true, so is the other. -/
def Below (a b : Array Bool) : Prop :=
  ∀ k, a.getD k false = true → b.getD k false = true

theorem liveBefore_mono (h : Below a b) (ha : liveBefore a fate) :
  liveBefore b fate
  := by
  simp only [liveBefore, liveBehind, Bool.or_eq_true, Bool.and_eq_true, any_eq_true] at ha ⊢
  apply ha.imp_right
  rintro ⟨hwritten, k, hk, hlive⟩
  use hwritten, k, hk, h k hlive

/-- Whatever is known to be live is so for a reason. -/
def Justified (fates : Array Fate) (live : Array Bool) : Prop :=
  ∀ k, live.getD k false = true → liveBefore live (fates.getD k default) = true

section

variable {fates : Array Fate} {live : Array Bool}

/-- What is known after a look at one instruction. -/
def look (fates : Array Fate) (k : Nat) (live : Array Bool) : Array Bool :=
  live.setIfInBounds k (liveBefore live (fates.getD k default))

theorem size_look {k : Nat} :
  (look fates k live).size = live.size
  := Array.size_setIfInBounds

theorem getD_look :
  (look fates k live).getD j false =
    if j = k ∧ k < live.size then liveBefore live (fates.getD k default)
    else live.getD j false
  := by
  rw [look]
  by_cases hjk : j = k
  · subst hjk
    by_cases hlt : j < live.size
    · simp [hlt]
    · simp [hlt]
  · simp [hjk, Ne.symm hjk]

theorem Justified.below_look (h : Justified fates live) :
  Below live (look fates k live)
  := by
  intro j hj
  rw [getD_look]
  split
  · rename_i hjk
    rw [← hjk.1]
    apply h j hj
  · apply hj

theorem Justified.look (h : Justified fates live) :
  Justified fates (look fates k live)
  := by
  intro j hj
  apply liveBefore_mono h.below_look
  rw [getD_look] at hj
  split at hj
  · rename_i hjk
    rw [hjk.1]
    apply hj
  · apply h j hj

theorem size_sweep :
  (sweep fates n live).size = live.size
  := by
  induction n generalizing live with
  | zero => rfl
  | succ n ih =>
    rw [sweep, ih]
    apply size_look

/-- A sweep keeps what is known. -/
theorem Justified.sweep (h : Justified fates live) :
  Below live (sweep fates n live) ∧ Justified fates (sweep fates n live)
  := by
  induction n generalizing live with
  | zero => exact ⟨fun _ hk => hk, h⟩
  | succ n ih =>
    obtain ⟨hbelow, hjustified⟩ := ih h.look
    exact ⟨fun k hk => hbelow k (h.below_look k hk), hjustified⟩

/-- A sweep finds what is live by what is known. -/
theorem Justified.sweep_finds (h : Justified fates live) (hn : n ≤ live.size) (hk : k < n)
    (hlive : liveBefore live (fates.getD k default)) :
  (Liveness.sweep fates n live).getD k false
  := by
  induction n generalizing live with
  | zero => cases hk
  | succ n ih =>
    by_cases hkn : k = n
    · subst hkn
      apply (h.look.sweep).1
      rw [getD_look, if_pos ⟨rfl, hn⟩, hlive]
    · apply ih h.look
      · rw [size_look]
        omega
      · omega
      · apply liveBefore_mono h.below_look hlive

/-! ### The end of the sweeps -/

/-- The number of places that are known. -/
def known (live : Array Bool) : Nat :=
  live.toList.count true

/-- Of two rows, one below the other, the higher one has more ones unless they are equal. -/
theorem count_lt_of_forall₂ {a b : List Bool} (h : Forall₂ (fun x y => x = true → y = true) a b) :
  a = b ∨ a.count true < b.count true
  := by
  induction h with
  | nil => exact .inl rfl
  | @cons x y a b hxy _ ih =>
    obtain rfl | hlt := ih
    · cases x <;> cases y <;> simp_all
    · cases x <;> cases y <;> simp_all
      omega

/-- Each round that changes something knows more. -/
theorem known_lt (hsize : a.size = b.size) (h : Below a b) (hne : a ≠ b) :
  known a < known b
  := by
  have hforall : Forall₂ (fun x y => x = true → y = true) a.toList b.toList := by
    rw [forall₂_iff_get]
    use hsize
    intro i ha hb hx
    have hgetD := h i
    rw [Array.getD_eq_getD_getElem?, Array.getD_eq_getD_getElem?, Array.getElem?_eq_getElem ha,
      Array.getElem?_eq_getElem hb] at hgetD
    apply hgetD hx
  apply (count_lt_of_forall₂ hforall).resolve_left
  intro heq
  apply hne (Array.toList_inj.mp heq)

theorem known_le_size (live : Array Bool) :
  known live ≤ live.size
  := count_le_length

/-- As many sweeps as there are places left come to an end. -/
theorem Justified.settle (h : Justified fates live) (hsize : live.size = fates.size)
    (hfuel : fates.size < known live + fuel) :
  Justified fates (settle fates fuel live) ∧ (settle fates fuel live).size = fates.size ∧
    Liveness.sweep fates fates.size (settle fates fuel live) = settle fates fuel live
  := by
  induction fuel generalizing live with
  | zero =>
    have := known_le_size live
    omega
  | succ fuel ih =>
    rw [settle]
    split
    · rename_i heq
      exact ⟨h, hsize, heq⟩
    · rename_i hne
      obtain ⟨hbelow, hjustified⟩ := h.sweep
      have hlt := known_lt size_sweep.symm hbelow (symm hne)
      apply ih hjustified
      · rw [size_sweep, hsize]
      · omega

theorem justified_none :
  Justified fates (.replicate n false)
  := by
  intro k hk
  rw [Array.getD_eq_getD_getElem?, Array.getElem?_replicate] at hk
  split at hk <;> cases hk

end

/-- In the end another sweep finds nothing. -/
theorem live_settled {fates : Array Fate} :
  Justified fates (live fates) ∧ (live fates).size = fates.size ∧
    sweep fates fates.size (live fates) = live fates
  := by
  apply justified_none.settle (by simp)
  omega

/-- In the end all that is live by what is known is known. -/
theorem live_closed {fates : Array Fate} (hk : k < fates.size)
    (h : liveBefore (live fates) (fates.getD k default)) :
  (live fates).getD k false
  := by
  obtain ⟨hjustified, hsize, hstable⟩ := live_settled
  rw [← hstable]
  apply hjustified.sweep_finds hsize.ge hk h

/-- What is read nowhere is live nowhere. -/
theorem exists_read_of_live {fates : Array Fate} (h : (live fates).getD k false) :
  ∃ j, (fates.getD j default).read
  := by
  by_contra! hnone
  let dead := Array.replicate fates.size false
  have hdead (j : Nat) : dead.getD j false = false := by
    rw [Array.getD_eq_getD_getElem?, Array.getElem?_replicate]
    split <;> rfl
  have hbehind (fate : Fate) : liveBehind dead fate = false := by
    rw [liveBehind, any_eq_false]
    intro j _
    rw [hdead]
    simp
  have hsweep (n : Nat) : sweep fates n dead = dead := by
    induction n with
    | zero => rfl
    | succ n ih =>
      have hlook : look fates n dead = dead := by
        rw [look, liveBefore, hbehind, eq_false_of_ne_true (hnone n), Bool.and_false]
        apply Array.setIfInBounds_replicate_self
      change sweep fates n (look fates n dead) = dead
      rw [hlook, ih]
  have hsettle : live fates = dead := by
    rw [live, settle, hsweep, if_pos rfl]
  rw [hsettle, hdead] at h
  cases h

/-! ### The instructions of a body -/

/-- Control may go on from an instruction to that with the other number. -/
def Leads (body : List Instr) (k j : Nat) : Prop :=
  ∃ i, body[k]? = some i ∧ j ∈ successors (labelsFrom 0 body) body.length k i

/-- The variable is live before the instruction. -/
def LiveAt (body : List Instr) (x : String) (k : Nat) : Prop :=
  (live (fates (flow body) x)).getD k false = true

theorem size_fates :
  (fates (flow body) x).size = body.length
  := by
  simp [fates, flow]

theorem getD_fates (hi : body[k]? = some i) :
  (fates (flow body) x).getD k default =
    ⟨i.reads.contains x, i.writes.contains x, successors (labelsFrom 0 body) body.length k i⟩
  := by
  simp [fates, flow, hi]

theorem liveBehind_iff (hi : body[k]? = some i) :
  liveBehind (live (fates (flow body) x)) ((fates (flow body) x).getD k default) ↔
    ∃ j, Leads body k j ∧ LiveAt body x j
  := by
  rw [getD_fates hi, liveBehind, any_eq_true]
  constructor
  · rintro ⟨j, hj, hlive⟩
    exact ⟨j, ⟨i, hi, hj⟩, hlive⟩
  · rintro ⟨j, ⟨i', hi', hj⟩, hlive⟩
    cases hi.symm.trans hi'
    exact ⟨j, hj, hlive⟩

theorem liveAt_of_read (hi : body[k]? = some i) (hx : x ∈ i.reads) :
  LiveAt body x k
  := by
  apply live_closed
  · rw [size_fates]
    apply (List.getElem?_eq_some_iff.mp hi).1
  · rw [getD_fates hi, contains_iff_mem.mpr hx]
    rfl

/-- What is live further on and not written is live before. -/
theorem LiveAt.before (h : LiveAt body x j) (hj : Leads body k j) (hi : body[k]? = some i)
    (hx : x ∉ i.writes) :
  LiveAt body x k
  := by
  apply live_closed
  · rw [size_fates]
    apply (List.getElem?_eq_some_iff.mp hi).1
  · rw [liveBefore, (liveBehind_iff hi).mpr ⟨j, hj, h⟩, getD_fates hi]
    simp [hx]

/-- What is live somewhere is read somewhere. -/
theorem LiveAt.exists_reads (h : LiveAt body x k) :
  ∃ i ∈ body, x ∈ i.reads
  := by
  obtain ⟨j, hj⟩ := exists_read_of_live h
  cases hi : body[j]? with
  | none =>
    have hge : (fates (flow body) x).size ≤ j := by
      rw [size_fates]
      apply getElem?_eq_none_iff.mp hi
    rw [Array.getD_eq_getD_getElem?, Array.getElem?_eq_none hge] at hj
    cases hj
  | some i =>
    rw [getD_fates hi] at hj
    exact ⟨i, mem_of_getElem? hi, contains_iff_mem.mp hj⟩

theorem LiveAt.lt_length (h : LiveAt body x k) :
  k < body.length
  := by
  by_contra hge
  rw [LiveAt, Array.getD_eq_getD_getElem?, Array.getElem?_eq_none] at h
  · cases h
  · rw [live_settled.2.1, size_fates]
    omega

/-- An instruction needs what it reads or writes and what is live before or behind it. -/
def Needs (body : List Instr) (x : String) (k : Nat) : Prop :=
  ∃ i, body[k]? = some i ∧
    (x ∈ i.reads ∨ x ∈ i.writes ∨ LiveAt body x k ∨ ∃ j, Leads body k j ∧ LiveAt body x j)

/-- The positions found are those where the variable is needed. -/
theorem mem_needs :
  k ∈ needs (fates (flow body) x) ↔ Needs body x k
  := by
  rw [needs, mem_filter, mem_range, size_fates]
  constructor
  · rintro ⟨hk, h⟩
    have hi : body[k]? = some body[k] := getElem?_eq_getElem hk
    use body[k], hi
    rw [Bool.or_eq_true, liveBehind_iff hi, getD_fates hi] at h
    simpa [LiveAt, or_assoc] using h
  · rintro ⟨i, hi, h⟩
    use (List.getElem?_eq_some_iff.mp hi).1
    rw [Bool.or_eq_true, liveBehind_iff hi, getD_fates hi]
    simpa [LiveAt, or_assoc] using h

/-- What is needed somewhere is read or written somewhere. -/
theorem Needs.mentioned (h : Needs body x k) :
  ∃ i ∈ body, x ∈ i.reads ∨ x ∈ i.writes
  := by
  obtain ⟨i, hi, hread | hwritten | hlive | ⟨j, _, hlive⟩⟩ := h
  · exact ⟨i, mem_of_getElem? hi, .inl hread⟩
  · exact ⟨i, mem_of_getElem? hi, .inr hwritten⟩
  · obtain ⟨i, hi, hread⟩ := hlive.exists_reads
    exact ⟨i, hi, .inl hread⟩
  · obtain ⟨i, hi, hread⟩ := hlive.exists_reads
    exact ⟨i, hi, .inl hread⟩

/-! ### Control -/

theorem map_labelsFrom (k : Nat) (body : List Instr) :
  (labelsFrom k body).map (·.1) = (labelNames body).reverse
  := by
  induction body generalizing k with
  | nil => rfl
  | cons i rest ih =>
    cases i
    case label name =>
      rw [labelsFrom, map_append, ih]
      exact reverse_cons.symm
    all_goals exact ih _

theorem mem_labelsFrom (h : body[j]? = some (.label name)) :
  (name, k + j) ∈ labelsFrom k body
  := by
  induction body generalizing k j with
  | nil => cases h
  | cons i rest ih =>
    cases j with
    | zero =>
      cases h
      rw [labelsFrom, mem_append]
      exact .inr (mem_singleton.mpr rfl)
    | succ j =>
      have hrest := ih (k := k + 1) h
      rw [add_right_comm] at hrest
      cases i
      case label => exact mem_append.mpr (.inl hrest)
      all_goals exact hrest

theorem of_mem_labelsFrom (h : (name, j) ∈ labelsFrom k body) :
  ∃ l, j = k + l ∧ body[l]? = some (.label name)
  := by
  induction body generalizing k with
  | nil => cases h
  | cons i rest ih =>
    have hrest (h : (name, j) ∈ labelsFrom (k + 1) rest) :
        ∃ l, j = k + l ∧ (i :: rest)[l]? = some (.label name) := by
      obtain ⟨l, rfl, hl⟩ := ih h
      exact ⟨l + 1, by omega, hl⟩
    cases i with
    | label other =>
      rw [labelsFrom, mem_append, mem_singleton] at h
      obtain h | h := h
      · apply hrest h
      · cases h
        exact ⟨0, rfl, rfl⟩
    | _ => apply hrest h

/-- Control goes from an instruction that is no jump to the next one. -/
theorem leads_succ (hi : body[k]? = some i) (hterminator : i.isTerminator = false)
    (hlt : k + 1 < body.length) :
  Leads body k (k + 1)
  := by
  refine ⟨i, hi, ?_⟩
  simp [successors, hterminator, hlt]

/-- Control goes from a jump to its targets. -/
theorem leads_target (hnodup : (labelNames body).Nodup) (hi : body[k]? = some i)
    (hterminator : i.isTerminator) (hname : name ∈ i.targets)
    (hj : labelAt body name = some j) :
  Leads body k j
  := by
  have hlookup : (labelsFrom 0 body).lookup name = some j := by
    apply lookup_eq_some_of_mem
    · rw [map_labelsFrom]
      exact nodup_reverse.mpr hnodup
    · rw [← zero_add j]
      exact mem_labelsFrom (getElem?_of_labelAt hj)
  refine ⟨i, hi, ?_⟩
  rw [successors, if_pos hterminator, mem_filterMap]
  exact ⟨name, hname, hlookup⟩

/-! ### Ways to a read -/

/-- Control may go from one instruction to the other: on to the next one, or to a label. -/
inductive Edge (body : List Instr) (k : Nat) : Nat → Prop
  | next {i : Instr} (hi : body[k]? = some i) (hgoes : i.isTerminator = false)
      (hlt : k + 1 < body.length) : Edge body k (k + 1)
  | jump {i : Instr} {name : String} {j : Nat} (hi : body[k]? = some i)
      (htarget : name ∈ i.targets) (hlabel : body[j]? = some (.label name)) : Edge body k j

/-- A way from an instruction on, along the instructions of the list, to one that reads the
variable.  None before that one writes it. -/
inductive Carries (body : List Instr) (x : String) : Nat → List Nat → Prop
  | read {k : Nat} {i : Instr} (hi : body[k]? = some i) (hx : x ∈ i.reads) : Carries body x k [k]
  | step {k j : Nat} {i : Instr} {way : List Nat} (hi : body[k]? = some i) (hx : x ∉ i.writes)
      (hedge : Edge body k j) (h : Carries body x j way) : Carries body x k (k :: way)

theorem Edge.leads (hnodup : (labelNames body).Nodup) (h : Edge body k j) :
  Leads body k j
  := by
  cases h with
  | next hi hgoes hlt => exact leads_succ hi hgoes hlt
  | @jump i name j hi htarget hlabel =>
    have hjump : i.isTerminator := by
      cases i <;> first | rfl | cases htarget
    exact leads_target hnodup hi hjump htarget (labelAt_of_getElem? hnodup hlabel)

/-- All along the way the variable is live. -/
theorem Carries.liveAt (hnodup : (labelNames body).Nodup) (h : Carries body x k way) :
  LiveAt body x k ∧ ∀ p ∈ way, LiveAt body x p
  := by
  induction h with
  | read hi hx =>
    have hlive := liveAt_of_read hi hx
    exact ⟨hlive, forall_mem_singleton.mpr hlive⟩
  | step hi hx hedge _ ih =>
    have hlive := ih.1.before (hedge.leads hnodup) hi hx
    exact ⟨hlive, forall_mem_cons.mpr ⟨hlive, ih.2⟩⟩

theorem LiveAt.needs (h : LiveAt body x k) :
  Needs body x k
  := ⟨_, getElem?_eq_getElem h.lt_length, .inr (.inr (.inl h))⟩

/-! ### Intervals -/

/-- Of a list that each item once remains. -/
theorem nodup_eraseDups (l : List String) :
  l.eraseDups.Nodup
  := by
  generalize hn : l.length = n
  induction n using Nat.strong_induction_on generalizing l with
  | _ n ih =>
    cases l with
    | nil => simp
    | cons x rest =>
      rw [eraseDups_cons, nodup_cons]
      constructor
      · simp
      · apply ih _ _ _ rfl
        have := length_filter_le (fun y => !y == x) rest
        rw [← hn, length_cons]
        omega

theorem before_trans (a b c : Interval) (h : before a b) (h' : before b c) :
  before a c
  := by
  simp only [before] at h h' ⊢
  grind

theorem before_total (a b : Interval) :
  (before a b || before b a)
  := by
  simp only [before]
  grind

end Liveness

/-- The position is in the interval. -/
def Interval.Covers (i : Interval) (p : Nat) : Prop :=
  i.start ≤ p ∧ p ≤ i.stop

open Liveness

/-- The interval of ascending positions covers each of them. -/
theorem exists_hull (hps : ps.Pairwise (· ≤ ·)) (hp : p ∈ ps) :
  ∃ i, hull? x ps = some i ∧ i.Covers p
  := by
  have hne := List.ne_nil_of_mem hp
  refine ⟨⟨x, ps.head hne, ps.getLast hne⟩, ?_, ?_, ?_⟩
  · rw [hull?, List.head?_eq_some_head hne, List.getLast?_eq_some_getLast hne]
  · apply hps.rel_head hp
  · apply hps.rel_getLast hp

theorem var_of_hull? (h : hull? x ps = some i) :
  i.var = x
  := by
  rw [hull?] at h
  split at h <;> cases h
  rfl

/-- The positions at which a variable of a function is needed. -/
def positions (f : Function) (x : String) : List Nat :=
  (if (f.params.map (·.name)).contains x then [0] else []) ++
    (needs (fates (flow f.body) x)).map (· + 1)

theorem mem_positions :
  p ∈ positions f x ↔
    (p = 0 ∧ x ∈ f.params.map (·.name)) ∨ ∃ k, p = k + 1 ∧ Needs f.body x k
  := by
  simp only [positions, List.mem_append, List.mem_map, mem_needs]
  apply or_congr
  · split
    · rename_i hx
      simpa using fun _ => List.contains_iff_mem.mp hx
    · rename_i hx
      simpa using fun _ => hx
  · simp [and_comm, eq_comm]

theorem pairwise_positions :
  (positions f x).Pairwise (· ≤ ·)
  := by
  have hneeds : ((needs (fates (flow f.body) x)).map (· + 1)).Pairwise (· ≤ ·) := by
    rw [List.pairwise_map]
    apply List.Pairwise.filter
    apply List.pairwise_lt_range.imp
    omega
  rw [positions]
  split
  · apply List.pairwise_cons.mpr ⟨fun _ _ => Nat.zero_le _, hneeds⟩
  · apply hneeds

/-- The variables that a function mentions. -/
def mentioned (f : Function) : List String :=
  (f.params.map (·.name) ++ (flow f.body).flatMap fun x => x.reads ++ x.writes).eraseDups

theorem liveIntervals_eq :
  liveIntervals f =
    ((mentioned f).filterMap fun x => hull? x (positions f x)).mergeSort before
  := rfl

theorem mem_liveIntervals :
  i ∈ liveIntervals f ↔ ∃ x ∈ mentioned f, hull? x (positions f x) = some i
  := by
  rw [liveIntervals_eq, List.mem_mergeSort, List.mem_filterMap]

/-- Each variable has one interval at most. -/
theorem nodup_liveIntervals :
  ((liveIntervals f).map (·.var)).Nodup
  := by
  rw [liveIntervals_eq, ((List.mergeSort_perm _ _).map _).nodup_iff, List.map_filterMap]
  apply List.Nodup.filterMap _ (nodup_eraseDups _)
  intro x y name hx hy
  obtain ⟨i, hi, rfl⟩ := Option.map_eq_some_iff.mp hx
  obtain ⟨j, hj, hname⟩ := Option.map_eq_some_iff.mp hy
  rw [← var_of_hull? hi, ← var_of_hull? hj, hname]

/-- Intervals are in the order of their starts. -/
theorem pairwise_liveIntervals (f : Function) :
  (liveIntervals f).Pairwise fun i j => i.start ≤ j.start
  := by
  apply (List.pairwise_mergeSort before_trans before_total _).imp
  intro i j h
  simp only [before, Bool.or_eq_true, Bool.and_eq_true, decide_eq_true_iff, beq_iff_eq] at h
  omega

theorem mem_mentioned :
  x ∈ mentioned f ↔ x ∈ f.params.map (·.name) ∨ ∃ i ∈ f.body, x ∈ i.reads ∨ x ∈ i.writes
  := by
  rw [mentioned, List.mem_eraseDups, List.mem_append, List.mem_flatMap]
  apply or_congr_right
  constructor
  · rintro ⟨_, hflow, hx⟩
    obtain ⟨⟨i, k⟩, hi, rfl⟩ := List.mem_map.mp hflow
    exact ⟨i, List.fst_mem_of_mem_zipIdx hi, List.mem_append.mp hx⟩
  · rintro ⟨i, hi, hx⟩
    obtain ⟨k, hk⟩ := List.mem_iff_getElem?.mp hi
    exact ⟨_, List.mem_map_of_mem (List.mk_mem_zipIdx_iff_getElem?.mpr hk),
      List.mem_append.mpr hx⟩

/-- The interval of a variable covers all positions at which it is needed. -/
theorem exists_interval (hp : p ∈ positions f x) :
  ∃ i ∈ liveIntervals f, i.var = x ∧ i.Covers p
  := by
  obtain ⟨i, hi, hcovers⟩ := exists_hull pairwise_positions hp
  refine ⟨i, mem_liveIntervals.mpr ⟨x, ?_, hi⟩, var_of_hull? hi, hcovers⟩
  rw [mem_mentioned]
  obtain ⟨_, hparam⟩ | ⟨k, _, hneeds⟩ := mem_positions.mp hp
  · exact .inl hparam
  · exact .inr hneeds.mentioned

/-- The interval has all that it has to cover for the variable.  The instruction with number `k`
stands at position `k + 1`, and parameters are written at position zero. -/
structure Interval.Sound (f : Function) (x : String) (i : Interval) : Prop where
  /-- It covers each way from the start of the function to a read. -/
  entry : ∀ way, Carries f.body x 0 way →
    (∀ p ∈ way, i.Covers (p + 1)) ∧ (x ∈ f.params.map (·.name) → i.Covers 0)
  /-- It covers each way from a write to a read. -/
  value : ∀ k j instr way, f.body[k]? = some instr → x ∈ instr.writes → Edge f.body k j →
    Carries f.body x j way → ∀ p ∈ k :: way, i.Covers (p + 1)
  write : ∀ k instr, f.body[k]? = some instr → x ∈ instr.writes → i.Covers (k + 1)

theorem covers_of_mem_positions (hi : i ∈ liveIntervals f) (hx : i.var = x)
    (hp : p ∈ positions f x) :
  i.Covers p
  := by
  obtain ⟨y, -, hy⟩ := mem_liveIntervals.mp hi
  obtain rfl : y = x := (var_of_hull? hy).symm.trans hx
  obtain ⟨i', hi', hcovers⟩ := exists_hull pairwise_positions hp
  rw [hy] at hi'
  cases hi'
  exact hcovers

/-- Each variable that is read or written has one interval, and it covers all ways on which a value
of the variable is carried to a read, and all writes. -/
theorem liveIntervals_sound (f : Function) (hnodup : (labelNames f.body).Nodup) (x : String) :
  (∀ i ∈ liveIntervals f, i.var = x → i.Sound f x) ∧
    ((∃ instr ∈ f.body, x ∈ instr.reads ∨ x ∈ instr.writes) →
      ∃! i, i ∈ liveIntervals f ∧ i.var = x)
  := by
  have hneeds {k : Nat} (h : Needs f.body x k) : k + 1 ∈ positions f x :=
    mem_positions.mpr (.inr ⟨k, rfl, h⟩)
  constructor
  · intro i hi hx
    have hcovers {p : Nat} (hp : p ∈ positions f x) : i.Covers p :=
      covers_of_mem_positions hi hx hp
    have hwrite (k : Nat) (instr : Instr) (hk : f.body[k]? = some instr) (hw : x ∈ instr.writes) :
        i.Covers (k + 1) := hcovers (hneeds ⟨instr, hk, .inr (.inl hw)⟩)
    refine ⟨fun way h => ⟨?_, ?_⟩, ?_, hwrite⟩
    · intro p hp
      exact hcovers (hneeds ((h.liveAt hnodup).2 p hp).needs)
    · intro hparam
      exact hcovers (mem_positions.mpr (.inl ⟨rfl, hparam⟩))
    · intro k j instr way hk hw _ h
      rw [List.forall_mem_cons]
      exact ⟨hwrite k instr hk hw, fun p hp => hcovers (hneeds ((h.liveAt hnodup).2 p hp).needs)⟩
  · rintro ⟨instr, hinstr, hmentions⟩
    obtain ⟨k, hk⟩ := List.mem_iff_getElem?.mp hinstr
    have hneed : Needs f.body x k := ⟨instr, hk, hmentions.imp_right .inl⟩
    obtain ⟨i, hi, hx, -⟩ := exists_interval (hneeds hneed)
    refine ⟨i, ⟨hi, hx⟩, ?_⟩
    rintro i' ⟨hi', hx'⟩
    exact List.inj_on_of_nodup_map nodup_liveIntervals hi' hi (hx'.trans hx.symm)

/-- Adds the numbers from one on up to its parameter.  The test stands behind the body of the
loop. -/
def addingUp : Function where
  name := "sum"
  params := [⟨"n", .i64⟩]
  result := .i64
  vars := [⟨"s", .i64⟩]
  body :=
    [.move (.var "s") .i64 (.int 0), .jump "test", .label "add",
      .binary (.var "s") .add .i64 (.var "s") (.var "n"),
      .binary (.var "n") .sub .i64 (.var "n") (.int 1), .label "test",
      .branch (.var "n") "add" "done", .label "done", .ret (some (.var "s"))]
  span := default

/-- The value of the parameter is carried round the loop. -/
theorem addingUp_sound :
  (labelNames addingUp.body).Nodup ∧ Carries addingUp.body "n" 5 [5, 6, 2, 3] ∧
    ∃ i ∈ liveIntervals addingUp, i.var = "n" ∧ i.Sound addingUp "n"
  := by
  have hnodup : (labelNames addingUp.body).Nodup := by
    decide
  have hmentioned : ∃ instr ∈ addingUp.body, "n" ∈ instr.reads ∨ "n" ∈ instr.writes :=
    ⟨_, List.mem_of_getElem? (i := 6) rfl, .inl List.mem_cons_self⟩
  obtain ⟨hsound, hunique⟩ := liveIntervals_sound addingUp hnodup "n"
  obtain ⟨i, hi, hx⟩ := (hunique hmentioned).exists
  refine ⟨hnodup, ?_, i, hi, hx, hsound i hi hx⟩
  apply Carries.step rfl (by decide) (.next rfl rfl (by decide))
  apply Carries.step rfl (by decide) (.jump (j := 2) rfl List.mem_cons_self rfl)
  apply Carries.step rfl (by decide) (.next rfl rfl (by decide))
  exact .read rfl (by decide)

end Endmark.Ir
