import Endmark.Proofs.Typed.Resolution

/-!
# Slots are assigned before they are read

Blocks bind a name where it is first assigned, and forget it where they end.  So a slot can be
named only behind an assignment to it that every way there has taken, but for the variable of
a `for` loop: it is bound outside of the loop and assigned in each round, and there may be
none.
-/

namespace Endmark

/-- Is the expression a raw block? -/
def Tree.Expr.isRaw : Tree.Expr → Bool
  | .raw _ _ => true
  | _ => false

/-- The slots that names are bound to. -/
def Blocks.slots (Γ : Blocks) : List String :=
  Γ.flatten.map (·.2)

theorem Blocks.mem_slots {Γ : Blocks} (h : Γ.slot? name = some x) :
  x ∈ Γ.slots
  := by
  obtain ⟨block, hblock, hlookup⟩ := List.exists_of_findSome?_eq_some h
  apply List.mem_map.mpr
  use (name, x), List.mem_flatten.mpr ⟨block, hblock, mem_of_lookup_eq_some hlookup⟩

theorem Blocks.slots_bind {Γ : Blocks} :
  (Γ.bind name x).slots = x :: Γ.slots
  := by
  cases Γ <;> rfl

end Endmark

namespace Endmark.Typed

/-! ### What is known of a slot -/

/-- Does the expression, apart from those in it, read nothing that may be unknown?  The slot is
read only if it is known to be assigned; a raw block may read anything. -/
def Expr.fits (x : String) (known : Bool) : Expr → Bool
  | .var _ (.slot y) => known || y != x
  | .raw _ _ => false
  | _ => true

/-- Is nothing read that may be unknown? -/
def Expr.settled (x : String) (known : Bool) (e : Expr) : Bool :=
  e.nodes.all (·.fits x known)

/-- Is nothing read that may be unknown, in what an assignment writes to? -/
def Place.settled (x : String) (known : Bool) (place : Place) : Bool :=
  place.nodes.all (·.fits x known)

/-- Is the slot known to be assigned behind an assignment to the variable? -/
def Variable.assigns (x : String) (known : Bool) : Variable → Bool
  | .slot y => known || y == x
  | .global _ => known

mutual

/-- Is the slot known to be assigned behind the statement?  Control does not come past a
`return`, nor past the jumps out of the body of a loop if it is inside of one. -/
def Stmt.assigns (x : String) (inside known : Bool) : Stmt → Bool
  | .assign _ (.var v) _ => v.assigns x known
  | .branch _ arms otherwise =>
    Stmt.assignsArms x inside known arms && Stmt.assignsAll x inside known otherwise
  | .ret _ _ => true
  | .leave _ | .next _ => inside || known
  | _ => known

/-- Is it known behind the statements? -/
def Stmt.assignsAll (x : String) (inside known : Bool) : List Stmt → Bool
  | [] => known
  | s :: rest => Stmt.assignsAll x inside (s.assigns x inside known) rest

/-- Is it known behind each body of a branch? -/
def Stmt.assignsArms (x : String) (inside known : Bool) : List Arm → Bool
  | [] => true
  | .mk _ body :: rest =>
    Stmt.assignsAll x inside known body && Stmt.assignsArms x inside known rest

end

mutual

/-- Is the slot read only where it is known to be assigned? -/
def Stmt.settled (x : String) (inside known : Bool) : Stmt → Bool
  | .assign _ target value => value.settled x known && target.settled x known
  | .expr _ e => e.settled x known
  | .branch _ arms otherwise =>
    Stmt.settledArms x inside known arms && Stmt.settledAll x inside known otherwise
  | .whileLoop _ cond body => cond.settled x known && Stmt.settledAll x true known body
  | .forLoop _ v iter body =>
    iter.settled x known && Stmt.settledAll x true (v.assigns x known) body
  | .ret _ value => value.all (·.settled x known)
  | .leave _ | .next _ => true
  | .raw _ _ => false

/-- Is it so in statements? -/
def Stmt.settledAll (x : String) (inside known : Bool) : List Stmt → Bool
  | [] => true
  | s :: rest =>
    s.settled x inside known && Stmt.settledAll x inside (s.assigns x inside known) rest

/-- Is it so in the conditions and bodies of a branch? -/
def Stmt.settledArms (x : String) (inside known : Bool) : List Arm → Bool
  | [] => true
  | .mk cond body :: rest =>
    cond.settled x known && Stmt.settledAll x inside known body &&
      Stmt.settledArms x inside known rest

end

/-- Is the slot read only where it is known to be assigned, in a function that starts without
it? -/
def Function.settled (f : Function) (x : String) : Bool :=
  Stmt.settledAll x false false f.body

section

variable {inside : Bool}

theorem Variable.assigns_eq_true (v : Variable) :
  v.assigns x known ↔ known ∨ v = .slot x
  := by
  cases v <;> simp [assigns]

theorem Variable.assigns_true (v : Variable) :
  v.assigns x true
  := by
  cases v <;> rfl

mutual

/-- What has been assigned stays so. -/
theorem Stmt.assigns_true : ∀ (st : Stmt), st.assigns x inside true
  | .assign _ (.var v) _ => v.assigns_true
  | .branch _ arms otherwise => by
    rw [assigns, assignsArms_true arms, assignsAll_true otherwise]
    rfl
  | .leave _ | .next _ => Bool.or_true inside
  | .ret _ _ | .assign _ (.index _ _) _ | .expr _ _ | .whileLoop _ _ _ | .forLoop _ _ _ _
  | .raw _ _ => rfl

theorem Stmt.assignsAll_true : ∀ (body : List Stmt), assignsAll x inside true body
  | [] => rfl
  | st :: rest => by
    rw [assignsAll, assigns_true st]
    apply assignsAll_true rest

theorem Stmt.assignsArms_true : ∀ (arms : List Arm), assignsArms x inside true arms
  | [] => rfl
  | .mk _ body :: rest => by
    rw [assignsArms, assignsAll_true body, assignsArms_true rest]
    rfl

end

end

/-! ### What is bound -/

namespace Context

variable {Γ : Context}

theorem Assigns.tail_eq (h : Γ.Assigns O top name v Γ') :
  Γ'.blocks.tail = Γ.blocks.tail
  := by
  cases h with
  | global | bound => rfl
  | new => cases Γ.blocks <;> rfl

/-- Only the slot that is assigned may be bound now. -/
theorem Assigns.mem_slots (h : Γ.Assigns O top name v Γ') (hx : x ∈ Γ'.blocks.slots) :
  v = .slot x ∨ x ∈ Γ.blocks.slots
  := by
  cases h with
  | global | bound => exact .inr hx
  | new =>
    rw [Blocks.slots_bind, List.mem_cons] at hx
    apply hx.imp_left
    rintro rfl
    rfl

end Context

mutual

/-- What is bound outside of the innermost block stays so. -/
theorem Stmt.Elaborates.tail_eq (h : Elaborates O top Γ st st' Γ') :
  Γ'.blocks.tail = Γ.blocks.tail
  := by
  cases h with
  | branch harms hlast => rw [hlast.blocks_eq, harms.blocks_eq]
  | whileLoop _ hbody => exact congrArg List.tail hbody.tail_eq
  | forLoop _ hvar hbody => exact (congrArg List.tail hbody.tail_eq).trans hvar.tail_eq
  | assign _ hvar | update _ _ hvar => exact hvar.tail_eq
  | _ => rfl

theorem Stmt.ElaboratesAll.tail_eq (h : ElaboratesAll O top Γ body body' Γ') :
  Γ'.blocks.tail = Γ.blocks.tail
  := by
  cases h with
  | nil => rfl
  | cons h hrest => exact hrest.tail_eq.trans h.tail_eq

/-- The blocks that are open behind a branch are those before it. -/
theorem Stmt.ElaboratesArms.blocks_eq (h : ElaboratesArms O top Γ arms arms' Γ') :
  Γ'.blocks = Γ.blocks
  := by
  cases h with
  | nil => rfl
  | cons _ hbody hrest => exact hrest.blocks_eq.trans hbody.tail_eq

theorem Stmt.ElaboratesLast.blocks_eq (h : ElaboratesLast O top Γ last last' Γ') :
  Γ'.blocks = Γ.blocks
  := by
  cases h with
  | none => rfl
  | some h => exact h.tail_eq

end

/-! ### Expressions -/

section

variable {known : Bool}

/-- No expression of the list is a raw block. -/
def RawFree (es : List Tree.Expr) : Prop :=
  ∀ e ∈ es, e.isRaw = false

theorem RawFree.tail (h : RawFree (e :: es)) :
  RawFree es
  := (List.forall_mem_cons.mp h).2

theorem RawFree.left (h : RawFree (es ++ es')) :
  RawFree es
  := (List.forall_mem_append.mp h).1

theorem RawFree.right (h : RawFree (es ++ es')) :
  RawFree es'
  := (List.forall_mem_append.mp h).2

theorem rawFree_name :
  RawFree (Tree.Expr.name span name).nodes
  := List.forall_mem_singleton.mpr rfl

theorem settled_binary (hlhs : lhs.settled x known) (hrhs : rhs.settled x known) :
  (Expr.binary note op lhs rhs).settled x known
  := by
  rw [Expr.settled] at hlhs hrhs
  rw [Expr.settled, Expr.nodes, List.all_cons, List.all_append, hlhs, hrhs]
  rfl

theorem Place.settled_index (hbase : base.settled x known) (hi : i.settled x known) :
  (index base i).settled x known
  := by
  rw [Expr.settled] at hbase hi
  rw [settled, nodes, List.all_append, hbase, hi]
  rfl

theorem settled_index (hbase : base.settled x known) (hi : i.settled x known) :
  (Expr.index note base i).settled x known
  := Place.settled_index hbase hi

mutual

/-- An elaborated expression reads slots that are bound. -/
theorem Expr.Elaborates.settled (hknown : x ∈ Γ.slots → known) (h : Elaborates O Γ e e')
    (hraw : RawFree e.nodes) :
  e'.settled x known
  := by
  cases h with
  | literal | function | error => rfl
  | var h =>
    cases h with
    | global => rfl
    | @slot y h =>
      change (known || y != x) && true
      by_cases hy : y = x
      · subst hy
        rw [hknown (Blocks.mem_slots h)]
        rfl
      · simp [hy]
  | binary hlhs hrhs =>
    rw [Tree.Expr.nodes] at hraw
    exact settled_binary (hlhs.settled hknown hraw.tail.left)
      (hrhs.settled hknown hraw.tail.right)
  | index hbase hindex =>
    rw [Tree.Expr.nodes] at hraw
    exact settled_index (hbase.settled hknown hraw.tail.left)
      (hindex.settled hknown hraw.tail.right)
  | unary h => exact (h.settled hknown hraw.tail :)
  | call hargs | builtin hargs | list hargs => exact hargs.settled hknown hraw.tail
  | fstring h => exact h.settled hknown hraw.tail
  | raw => cases hraw _ List.mem_cons_self

theorem Expr.ElaboratesAll.settled (hknown : x ∈ Γ.slots → known) (h : ElaboratesAll O Γ es es')
    (hraw : RawFree (Tree.Expr.nodesOf es)) :
  (nodesOf es').all (·.fits x known)
  := by
  cases h with
  | nil => rfl
  | cons h hrest =>
    rw [nodesOf, List.all_append, Bool.and_eq_true]
    rw [Tree.Expr.nodesOf] at hraw
    exact ⟨h.settled hknown hraw.left, hrest.settled hknown hraw.right⟩

theorem Expr.ElaboratesParts.settled (hknown : x ∈ Γ.slots → known)
    (h : ElaboratesParts O Γ ps ps') (hraw : RawFree (Tree.Expr.nodesOfParts ps)) :
  (nodesOfParts ps').all (·.fits x known)
  := by
  cases h with
  | nil => rfl
  | text hrest => exact (hrest.settled hknown hraw :)
  | field h hrest =>
    rw [nodesOfParts, List.all_append, Bool.and_eq_true]
    rw [Tree.Expr.nodesOfParts] at hraw
    exact ⟨h.settled hknown hraw.left, hrest.settled hknown hraw.right⟩

end

end

/-! ### Statements -/

/-- The slot that a `for` loop assigns in each round. -/
def Stmt.loopVariable? : Stmt → Option String
  | .forLoop _ (.slot x) _ _ => some x
  | _ => none

/-- The slots that `for` loops of the function assign. -/
def Function.loopVariables (f : Function) : List String :=
  f.statements.filterMap (·.loopVariable?)

theorem not_mem_inside_forLoop
    (hx : x ∉ (Stmt.forLoop span v iter body).inside.filterMap (·.loopVariable?)) :
  v ≠ .slot x ∧ x ∉ (Stmt.insideOf body).filterMap (·.loopVariable?)
  := by
  constructor
  · rintro rfl
    apply hx
    exact List.mem_filterMap.mpr ⟨_, List.mem_cons_self, rfl⟩
  · intro hmem
    apply hx
    obtain ⟨st, hst, hloop⟩ := List.mem_filterMap.mp hmem
    apply List.mem_filterMap.mpr
    use st, List.mem_cons_of_mem _ hst

/-- Behind an assignment a slot that is bound is known to be assigned. -/
theorem Context.Assigns.known {Γ : Context} {known : Bool}
    (h : Γ.Assigns O top name v Γ') (hknown : x ∈ Γ.blocks.slots → known)
    (hx : x ∈ Γ'.blocks.slots) :
  v.assigns x known
  := by
  obtain rfl | hbound := h.mem_slots hx
  · simp [Variable.assigns]
  · rw [hknown hbound]
    apply v.assigns_true

mutual

/-- An elaborated statement reads a slot that no loop assigns only where it is known to be
assigned, if what is bound before it is so; and then so is what is bound behind it. -/
theorem Stmt.Elaborates.settles (h : Elaborates O top Γ st (some st') Γ') {inside known : Bool}
    (hraw : RawFree st.nodes) (hx : x ∉ st'.inside.filterMap (·.loopVariable?))
    (hknown : x ∈ Γ.blocks.slots → known) :
  st'.settled x inside known ∧ (x ∈ Γ'.blocks.slots → st'.assigns x inside known)
  := by
  cases h with
  | branch harms hlast =>
    rw [Tree.Stmt.nodes] at hraw
    rw [Stmt.inside, List.filterMap_cons_none rfl, List.filterMap_append, List.mem_append,
      not_or] at hx
    have hbetween := harms.blocks_eq
    constructor
    · rw [settled, harms.settles inside hraw.left hx.1 hknown,
        hlast.settles hraw.right hx.2 (hbetween ▸ hknown)]
      rfl
    · intro hbound
      rw [hlast.blocks_eq, hbetween] at hbound
      rw [hknown hbound]
      apply assigns_true
  | whileLoop hcond hbody =>
    rw [Tree.Stmt.nodes] at hraw
    rw [Stmt.inside] at hx
    constructor
    · rw [settled, hcond.settled hknown hraw.left,
        (hbody.settles hraw.right hx hknown).1]
      rfl
    · intro hbound
      apply hknown
      rwa [Context.leave, hbody.tail_eq] at hbound
  | forLoop hiter hvar hbody =>
    -- The variable of the loop is another one, so that nothing new is bound behind the loop.
    rw [Tree.Stmt.nodes] at hraw
    obtain ⟨hother, hx⟩ := not_mem_inside_forLoop hx
    constructor
    · rw [settled, hiter.settled hknown hraw.left,
        (hbody.settles hraw.right hx (hvar.known hknown)).1]
      rfl
    · intro hbound
      rw [Context.leave, hbody.tail_eq] at hbound
      obtain hv | hbound := hvar.mem_slots hbound
      · exact absurd hv hother
      · apply hknown hbound
  | ret => exact ⟨rfl, fun _ => rfl⟩
  | retValue h => exact ⟨h.settled hknown hraw, fun _ => rfl⟩
  | assign hvalue hvar =>
    rw [settled, hvalue.settled hknown hraw]
    exact ⟨rfl, hvar.known hknown⟩
  | update hvalue hheld hvar =>
    rw [settled, settled_binary (hheld.settled hknown rawFree_name)
      (hvalue.settled hknown hraw)]
    exact ⟨rfl, hvar.known hknown⟩
  | store hvalue hbase hindex =>
    rw [Tree.Stmt.nodes] at hraw
    rw [settled, hvalue.settled hknown hraw.right, Place.settled_index
      (hbase.settled hknown hraw.left.left) (hindex.settled hknown hraw.left.right)]
    exact ⟨rfl, hknown⟩
  | storeUpdate hvalue hbase hindex =>
    rw [Tree.Stmt.nodes] at hraw
    have hvalue := hvalue.settled hknown hraw.right
    have hbase := hbase.settled hknown hraw.left.left
    have hindex := hindex.settled hknown hraw.left.right
    rw [settled, settled_binary (settled_index hbase hindex) hvalue,
      Place.settled_index hbase hindex]
    exact ⟨rfl, hknown⟩
  | expr h => exact ⟨h.settled hknown hraw, hknown⟩
  | leave | next => exact ⟨rfl, fun hx => by simp [assigns, hknown hx]⟩
  | raw => cases hraw _ List.mem_cons_self

/-- A slot that is no loop variable is settled in a block, and assigned if it is open behind it. -/
theorem Stmt.ElaboratesAll.settles (h : ElaboratesAll O top Γ body body' Γ')
    {inside known : Bool} (hraw : RawFree (Tree.Stmt.nodesOf body))
    (hx : x ∉ (insideOf body').filterMap (·.loopVariable?))
    (hknown : x ∈ Γ.blocks.slots → known) :
  settledAll x inside known body' ∧ (x ∈ Γ'.blocks.slots → assignsAll x inside known body')
  := by
  cases h with
  | nil => exact ⟨rfl, hknown⟩
  | @cons _ _ st' _ _ _ _ h hrest =>
    cases st' with
    | none =>
      cases h
      apply hrest.settles hraw hx hknown
    | some st' =>
      rw [Tree.Stmt.nodesOf] at hraw
      rw [Option.toList_some, List.singleton_append, insideOf, List.filterMap_append,
        List.mem_append, not_or] at hx
      obtain ⟨hsettled, hbehind⟩ := h.settles hraw.left hx.1 hknown
      obtain ⟨hothers, hend⟩ := hrest.settles hraw.right hx.2 hbehind
      refine ⟨?_, hend⟩
      rw [Option.toList_some, List.singleton_append, settledAll, hsettled, hothers]
      rfl

/-- The bodies of a branch each start with what is bound before it. -/
theorem Stmt.ElaboratesArms.settles (h : ElaboratesArms O top Γ arms arms' Γ')
    (inside : Bool) {known : Bool} (hraw : RawFree (Tree.Stmt.nodesOfArms arms))
    (hx : x ∉ (insideArms arms').filterMap (·.loopVariable?))
    (hknown : x ∈ Γ.blocks.slots → known) :
  settledArms x inside known arms'
  := by
  cases h with
  | nil => rfl
  | cons hcond hbody hrest =>
    rw [Tree.Stmt.nodesOfArms] at hraw
    rw [insideArms, List.filterMap_append, List.mem_append, not_or] at hx
    have hrest := hrest.settles inside hraw.right hx.2 (by
      rw [Context.leave, hbody.tail_eq]
      apply hknown)
    rw [settledArms, hcond.settled hknown hraw.left.left,
      (hbody.settles hraw.left.right hx.1 hknown).1, hrest]
    rfl

theorem Stmt.ElaboratesLast.settles (h : ElaboratesLast O top Γ last last' Γ')
    {inside known : Bool} (hraw : RawFree (Tree.Stmt.nodesOfOption last))
    (hx : x ∉ (insideOf last').filterMap (·.loopVariable?))
    (hknown : x ∈ Γ.blocks.slots → known) :
  settledAll x inside known last'
  := by
  cases h with
  | none => rfl
  | some h => exact (h.settles hraw hx hknown).1

end

/-! ### Functions -/

/-- A slot that is neither a parameter nor assigned by a loop is read only where it is known to
be assigned. -/
theorem Function.Elaborates.settled {f : Function} (h : f.Elaborates O w)
    (hraw : RawFree (Tree.Stmt.nodesOf w.body)) (hparam : x ∉ f.params.map (·.name))
    (hloop : x ∉ f.loopVariables) :
  f.settled x
  := by
  obtain ⟨blocks, hbody⟩ := h.body
  apply (hbody.settles hraw hloop _).1
  intro hbound
  rw [h.params] at hparam
  exact absurd (by simpa [Context.start, Blocks.slots] using hbound) hparam

end Endmark.Typed
