import Endmark.Proofs.Typed.Elaboration.Programs

/-!
# What names resolve to

The variables, functions and raw blocks of a typed program are those that are bound or declared
where it names them.  So what is demanded of all that is declared, and of what is written, holds
of all that is used.
-/

namespace Endmark.Tree

open Stmt

mutual

/-- The expression and all expressions in it. -/
def Expr.nodes : Expr → List Expr
  | .binary span op lhs rhs => .binary span op lhs rhs :: (lhs.nodes ++ rhs.nodes)
  | .unary span op operand => .unary span op operand :: operand.nodes
  | .call span callee args => .call span callee args :: Expr.nodesOf args
  | .list span items => .list span items :: Expr.nodesOf items
  | .index span base i => .index span base i :: (base.nodes ++ i.nodes)
  | .fstring span parts => .fstring span parts :: Expr.nodesOfParts parts
  | e => [e]

/-- All expressions in some. -/
def Expr.nodesOf : List Expr → List Expr
  | [] => []
  | e :: rest => e.nodes ++ Expr.nodesOf rest

/-- All expressions in the parts of an f-string. -/
def Expr.nodesOfParts : List FStringPart → List Expr
  | [] => []
  | .text _ :: rest => Expr.nodesOfParts rest
  | .field e :: rest => e.nodes ++ Expr.nodesOfParts rest

end

/-- All expressions in what an assignment writes to. -/
def Target.nodes : Target → List Expr
  | .name _ => []
  | .index base i => base.nodes ++ i.nodes

mutual

/-- All expressions in a statement.  A raw block counts as one. -/
def Stmt.nodes : Stmt → List Expr
  | .branch _ arms otherwise => Stmt.nodesOfArms arms ++ Stmt.nodesOfOption otherwise
  | .whileLoop _ cond body => cond.nodes ++ Stmt.nodesOf body
  | .forLoop _ _ iter body => iter.nodes ++ Stmt.nodesOf body
  | .ret _ (some value) => value.nodes
  | .assign _ target _ value => target.nodes ++ value.nodes
  | .expr _ e => e.nodes
  | .raw span block => [.raw span block]
  | .ret _ none | .leave _ | .next _ | .pass _ => []

/-- All expressions in statements. -/
def Stmt.nodesOf : List Stmt → List Expr
  | [] => []
  | s :: rest => s.nodes ++ Stmt.nodesOf rest

/-- All expressions in the conditions and bodies of a branch. -/
def Stmt.nodesOfArms : List Arm → List Expr
  | [] => []
  | .mk cond body :: rest => cond.nodes ++ Stmt.nodesOf body ++ Stmt.nodesOfArms rest

/-- All expressions in the last part of a branch. -/
def Stmt.nodesOfOption : Option (List Stmt) → List Expr
  | none => []
  | some body => Stmt.nodesOf body

end

end Endmark.Tree

namespace Endmark.Typed

/-! ### What is demanded -/

/-- What is demanded of slots, globals, functions with their number of arguments and raw blocks,
and of the number of items that are written out in a list. -/
structure Vocabulary where
  slot : String → Prop
  global : String → Prop
  function : String → Nat → Prop
  block : Raw → Prop
  length : Nat → Prop

/-- The variable is as demanded. -/
def Vocabulary.variable (N : Vocabulary) : Variable → Prop
  | .slot x => N.slot x
  | .global x => N.global x

/-- What the expression itself names is as demanded. -/
def Expr.Uses (N : Vocabulary) : Expr → Prop
  | .var _ v => N.variable v
  | .function _ name => ∃ n, N.function name n
  | .call _ callee args => N.function callee args.length
  | .raw _ block => N.block block
  | .list _ items => N.length items.length
  | _ => True

/-- What the statement itself names is as demanded. -/
def Stmt.Uses (N : Vocabulary) : Stmt → Prop
  | .assign _ (.var v) _ => N.variable v
  | .forLoop _ v _ _ => N.variable v
  | .raw _ block => N.block block
  | _ => True

/-- All that expressions and statements name is as demanded. -/
structure Within (N : Vocabulary) (nodes : List Expr) (statements : List Stmt) : Prop where
  expr : ∀ e ∈ nodes, e.Uses N
  stmt : ∀ st ∈ statements, st.Uses N

/-- All that a function names is as demanded. -/
structure Function.Within (N : Vocabulary) (f : Function) : Prop where
  body : Typed.Within N f.nodes f.statements
  params : ∀ p ∈ f.params, N.slot p.name
  locals : ∀ l ∈ f.locals, N.slot l.name

theorem within_nil :
  Within N [] []
  := ⟨by simp, by simp⟩

theorem Within.append (h : Within N es sts) (h' : Within N es' sts') :
  Within N (es ++ es') (sts ++ sts')
  := by
  constructor
  · intro e he
    apply (List.mem_append.mp he).elim (h.expr e) (h'.expr e)
  · intro st hst
    apply (List.mem_append.mp hst).elim (h.stmt st) (h'.stmt st)

theorem Within.split (h : Within N (es ++ es') (sts ++ sts')) :
  Within N es sts ∧ Within N es' sts'
  := by
  obtain ⟨hexpr, hstmt⟩ := h
  rw [List.forall_mem_append] at hexpr hstmt
  exact ⟨⟨hexpr.1, hstmt.1⟩, ⟨hexpr.2, hstmt.2⟩⟩

/-- A statement is as demanded if what it names, its own expressions and what is inside of it
are. -/
theorem Within.inner (h : Within N (es ++ es') (st :: sts)) :
  st.Uses N ∧ (∀ e ∈ es, e.Uses N) ∧ Within N es' sts
  := by
  obtain ⟨hst, hstmt⟩ := List.forall_mem_cons.mp h.stmt
  obtain ⟨hes, hexpr⟩ := List.forall_mem_append.mp h.expr
  exact ⟨hst, hes, hexpr, hstmt⟩

theorem Within.cons (h : Within N es sts) (hst : st.Uses N) :
  Within N es (st :: sts)
  := ⟨h.expr, List.forall_mem_cons.mpr ⟨hst, h.stmt⟩⟩

theorem Within.consExpr (h : Within N es sts) (he : e.Uses N) :
  Within N (e :: es) sts
  := ⟨List.forall_mem_cons.mpr ⟨he, h.expr⟩, h.stmt⟩

/-- What is demanded of globals and functions holds of those that are declared. -/
structure Vocabulary.Covers (N : Vocabulary) (O : Outside) : Prop where
  global : ∀ x, O.global x → N.global x
  function : ∀ f n, O.function f n → N.function f n

/-- What comes of the expression itself is as demanded, if the variables in its scope are. -/
def Vocabulary.Allows (N : Vocabulary) : Tree.Expr → Prop
  | .raw span block => ∀ scope, (∀ entry ∈ scope, N.variable entry.2.1) →
    N.block ⟨block.lang, block.payload, span, scope⟩
  | .list _ items => N.length items.length
  | _ => True

/-! ### Expressions -/

section

variable {N : Vocabulary}

theorem Refers.uses (h : Refers O Γ name v) (hO : N.Covers O)
    (hΓ : ∀ x s, Γ.slot? x = some s → N.slot s) :
  N.variable v
  := by
  cases h with
  | slot h => apply hΓ name _ h
  | global _ hglobal => apply hO.global _ hglobal

mutual

/-- What an elaborated expression names is as demanded. -/
theorem Expr.Elaborates.within (h : Elaborates O Γ e e') (hO : N.Covers O)
    (hΓ : ∀ x s, Γ.slot? x = some s → N.slot s) (hT : ∀ d ∈ e.nodes, N.Allows d) :
  Within N e'.nodes []
  := by
  cases h with
  | literal | error => exact within_nil.consExpr trivial
  | var h => exact within_nil.consExpr (h.uses hO hΓ)
  | function _ h => exact within_nil.consExpr ⟨_, hO.function _ _ h⟩
  | raw h =>
    apply within_nil.consExpr
    apply hT _ List.mem_cons_self
    exact fun entry hentry => (h entry hentry).uses hO hΓ
  | binary hlhs hrhs | index hlhs hrhs =>
    simp only [Tree.Expr.nodes, List.forall_mem_cons, List.forall_mem_append] at hT
    exact ((hlhs.within hO hΓ hT.2.1).append (hrhs.within hO hΓ hT.2.2)).consExpr trivial
  | unary h | fstring h | builtin h =>
    exact (h.within hO hΓ (List.forall_mem_cons.mp hT).2).consExpr trivial
  | call hargs _ h =>
    apply (hargs.within hO hΓ (List.forall_mem_cons.mp hT).2).consExpr
    rw [Uses, hargs.length_eq]
    apply hO.function _ _ h
  | list h =>
    have hT := List.forall_mem_cons.mp hT
    apply (h.within hO hΓ hT.2).consExpr
    rw [Uses, h.length_eq]
    apply hT.1

theorem Expr.ElaboratesAll.within (h : ElaboratesAll O Γ es es') (hO : N.Covers O)
    (hΓ : ∀ x s, Γ.slot? x = some s → N.slot s)
    (hT : ∀ d ∈ Tree.Expr.nodesOf es, N.Allows d) :
  Within N (nodesOf es') []
  := by
  cases h with
  | nil => exact within_nil
  | cons h hrest =>
    have hT := List.forall_mem_append.mp hT
    exact (h.within hO hΓ hT.1).append (hrest.within hO hΓ hT.2)

theorem Expr.ElaboratesParts.within (h : ElaboratesParts O Γ ps ps') (hO : N.Covers O)
    (hΓ : ∀ x s, Γ.slot? x = some s → N.slot s)
    (hT : ∀ d ∈ Tree.Expr.nodesOfParts ps, N.Allows d) :
  Within N (nodesOfParts ps') []
  := by
  cases h with
  | nil => exact within_nil
  | text hrest => exact hrest.within hO hΓ hT
  | field h hrest =>
    have hT := List.forall_mem_append.mp hT
    exact (h.within hO hΓ hT.1).append (hrest.within hO hΓ hT.2)

end

end

/-! ### Statements -/

namespace Context

/-- What the blocks bind has been declared for the name that it is bound to. -/
def Sound (Γ : Context) : Prop :=
  ∀ block ∈ Γ.blocks, ∀ entry ∈ block, (entry.2, entry.1) ∈ Γ.slots

variable {Γ : Context}

theorem sound_start :
  (start params).Sound
  := by
  intro block hblock entry hentry
  cases List.mem_singleton.mp hblock
  obtain ⟨x, hx, rfl⟩ := List.mem_map.mp hentry
  apply List.mem_map_of_mem (List.mem_reverse.mp hx)

theorem Sound.slot? (h : Γ.Sound) (hx : Γ.blocks.slot? name = some x) :
  (x, name) ∈ Γ.slots
  := by
  obtain ⟨block, hblock, hlookup⟩ := List.exists_of_findSome?_eq_some hx
  obtain ⟨before, after, rfl, _⟩ := List.lookup_eq_some_iff.mp hlookup
  apply h _ hblock (name, x)
  simp

theorem Sound.enter (h : Γ.Sound) :
  Γ.enter.Sound
  := by
  intro block hblock
  obtain rfl | hblock := List.mem_cons.mp hblock
  · simp
  · apply h block hblock

theorem Sound.leave (h : Γ.Sound) :
  Γ.leave.Sound
  := by
  intro block hblock
  apply h block (List.mem_of_mem_tail hblock)

/-- From one place to another slots are declared, and what is named in between is as demanded,
if the slots that are declared at the second one are and what is written allows it. -/
structure Reaches (O : Outside) (Γ : Context) (written : List Tree.Expr) (es : List Expr)
    (sts : List Stmt) (Γ' : Context) : Prop where
  sound : Γ'.Sound
  slots : Γ.slots ⊆ Γ'.slots
  within : ∀ N : Vocabulary, N.Covers O → (∀ s ∈ Γ'.slots, N.slot s.1) →
    (∀ d ∈ written, N.Allows d) → Within N es sts

variable {written : List Tree.Expr}

theorem Sound.reaches (h : Γ.Sound)
    (hwithin : ∀ N : Vocabulary, N.Covers O → (∀ x s, Γ.blocks.slot? x = some s → N.slot s) →
      (∀ d ∈ written, N.Allows d) → Within N es sts) :
  Γ.Reaches O written es sts Γ
  := by
  refine ⟨h, .refl _, ?_⟩
  intro N hO hslots
  apply hwithin N hO
  exact fun x s hs => hslots _ (h.slot? hs)

theorem Reaches.trans (h : Γ.Reaches O written es sts Γ₁) (h' : Γ₁.Reaches O written' es' sts' Γ₂) :
  Γ.Reaches O (written ++ written') (es ++ es') (sts ++ sts') Γ₂
  := by
  refine ⟨h'.sound, List.Subset.trans h.slots h'.slots, ?_⟩
  intro N hO hslots hT
  have hT := List.forall_mem_append.mp hT
  apply (h.within N hO _ hT.1).append (h'.within N hO hslots hT.2)
  exact fun s hs => hslots s (h'.slots hs)

/-- A block goes back to where it started, with its slots declared. -/
theorem Reaches.block (h : Γ.enter.Reaches O written es sts Γ₁) :
  Γ.Reaches O written es sts Γ₁.leave
  := ⟨h.sound.leave, h.slots, h.within⟩

theorem Reaches.cons (h : Γ.Reaches O written es sts Γ₁)
    (hst : ∀ N : Vocabulary, N.Covers O → (∀ s ∈ Γ₁.slots, N.slot s.1) → st.Uses N) :
  Γ.Reaches O written es (st :: sts) Γ₁
  := ⟨h.sound, h.slots, fun N hO hslots hT => (h.within N hO hslots hT).cons (hst N hO hslots)⟩

/-- What is given a value is there from then on. -/
theorem Assigns.reaches (hΓ : Γ.Sound) (h : Γ.Assigns O top name v Γ₁) :
  Γ.Reaches O [] [] [] Γ₁ ∧
    ∀ N : Vocabulary, N.Covers O → (∀ s ∈ Γ₁.slots, N.slot s.1) → N.variable v
  := by
  cases h with
  | global _ h =>
    use hΓ.reaches fun _ _ _ _ => within_nil
    exact fun N hO _ => hO.global _ h
  | bound _ h =>
    use hΓ.reaches fun _ _ _ _ => within_nil
    exact fun N _ hslots => hslots _ (hΓ.slot? h)
  | @new _ x _ h =>
    have hnew : ((x, name) : String × String) ∈ Γ.slots ++ [(x, name)] := by simp
    refine ⟨⟨?_, List.subset_append_left _ _, fun _ _ _ _ => within_nil⟩, ?_⟩
    · intro block hblock entry hentry
      have hold (hmem : ∃ block ∈ Γ.blocks, entry ∈ block) :
          (entry.2, entry.1) ∈ Γ.slots ++ [(x, name)] := by
        obtain ⟨block, hblock, hentry⟩ := hmem
        apply List.mem_append_left _ (hΓ block hblock entry hentry)
      cases hblocks : Γ.blocks with
      | nil =>
        simp only [hblocks, Blocks.bind, List.mem_singleton] at hblock
        subst hblock
        cases List.mem_singleton.mp hentry
        apply hnew
      | cons first outer =>
        simp only [hblocks, Blocks.bind, List.mem_cons] at hblock
        obtain rfl | hblock := hblock
        · obtain rfl | hentry := List.mem_cons.mp hentry
          · apply hnew
          · apply hold ⟨first, by simp [hblocks], hentry⟩
        · apply hold ⟨block, by simp [hblocks, hblock], hentry⟩
    · exact fun N _ hslots => hslots _ hnew

theorem Assigns.reaches_assign (hΓ : Γ.Sound) (h : Γ.Assigns O top name v Γ₁)
    (hvalue : ∀ N : Vocabulary, N.Covers O → (∀ x s, Γ.blocks.slot? x = some s → N.slot s) →
      (∀ d ∈ written, N.Allows d) → Within N value.nodes []) :
  Γ.Reaches O written (Stmt.assign span (.var v) value).nodes
    (Stmt.assign span (.var v) value).inside Γ₁
  := by
  obtain ⟨hassign, hv⟩ := h.reaches hΓ
  have hall := (hΓ.reaches hvalue).trans hassign
  rw [List.append_nil, List.append_nil] at hall
  exact hall.cons hv

end Context

mutual

/-- What an elaborated statement names is as demanded. -/
theorem Stmt.Elaborates.reaches (h : Elaborates O top Γ st (some st') Γ') (hΓ : Γ.Sound) :
  Γ.Reaches O st.nodes st'.nodes st'.inside Γ'
  := by
  cases h with
  | branch harms hlast =>
    have harms := harms.reaches hΓ
    exact (harms.trans (hlast.reaches harms.sound)).cons fun _ _ _ => trivial
  | whileLoop hcond hbody =>
    have hcond := hΓ.reaches fun _ hO hslots => hcond.within hO hslots
    exact (hcond.trans (hbody.reaches hΓ.enter).block).cons fun _ _ _ => trivial
  | forLoop hiter hvar hbody =>
    have hiter := hΓ.reaches fun _ hO hslots => hiter.within hO hslots
    obtain ⟨hassign, hv⟩ := hvar.reaches hΓ
    have hbody := (hbody.reaches hassign.sound.enter).block
    have hall := (hiter.trans hassign).trans hbody
    rw [List.append_nil, List.append_nil] at hall
    exact hall.cons fun N hO hslots => hv N hO fun s hs => hslots s (hbody.slots hs)
  | ret | leave | next => exact hΓ.reaches fun _ _ _ _ => within_nil.cons trivial
  | retValue h | expr h =>
    exact hΓ.reaches fun _ hO hslots hT => (h.within hO hslots hT).cons trivial
  | assign hvalue hvar =>
    exact hvar.reaches_assign hΓ fun _ hO hslots => hvalue.within hO hslots
  | update hvalue hheld hvar =>
    exact hvar.reaches_assign hΓ fun _ hO hslots hT =>
      ((hheld.within hO hslots (by simp [Tree.Expr.nodes, Vocabulary.Allows])).append
        (hvalue.within hO hslots hT)).consExpr trivial
  | store hvalue hbase hindex =>
    apply hΓ.reaches
    intro _ hO hslots hT
    simp only [Tree.Stmt.nodes, Tree.Target.nodes, List.forall_mem_append] at hT
    exact (((hbase.within hO hslots hT.1.1).append (hindex.within hO hslots hT.1.2)).append
      (hvalue.within hO hslots hT.2)).cons trivial
  | storeUpdate hvalue hbase hindex =>
    apply hΓ.reaches
    intro _ hO hslots hT
    simp only [Tree.Stmt.nodes, Tree.Target.nodes, List.forall_mem_append] at hT
    have hplace := (hbase.within hO hslots hT.1.1).append (hindex.within hO hslots hT.1.2)
    refine (hplace.append (((hplace.consExpr ?_).append
      (hvalue.within hO hslots hT.2)).consExpr ?_)).cons ?_ <;> trivial
  | raw h =>
    exact hΓ.reaches fun _ hO hslots hT => within_nil.cons (hT _ List.mem_cons_self _
      fun entry hentry => (h entry hentry).uses hO hslots)

/-- The statements of a block name what is in reach. -/
theorem Stmt.ElaboratesAll.reaches (h : ElaboratesAll O top Γ body body' Γ') (hΓ : Γ.Sound) :
  Γ.Reaches O (Tree.Stmt.nodesOf body) (nodesOf body') (insideOf body') Γ'
  := by
  cases h with
  | nil => exact hΓ.reaches fun _ _ _ _ => within_nil
  | @cons _ _ st' _ _ _ _ h hrest =>
    cases st' with
    | none =>
      cases h
      apply hrest.reaches hΓ
    | some st' =>
      have hfirst := h.reaches hΓ
      apply hfirst.trans (hrest.reaches hfirst.sound)

theorem Stmt.ElaboratesArms.reaches (h : ElaboratesArms O top Γ arms arms' Γ') (hΓ : Γ.Sound) :
  Γ.Reaches O (Tree.Stmt.nodesOfArms arms) (nodesOfArms arms') (insideArms arms') Γ'
  := by
  cases h with
  | nil => exact hΓ.reaches fun _ _ _ _ => within_nil
  | cons hcond hbody hrest =>
    have hcond := hΓ.reaches fun _ hO hslots => hcond.within hO hslots
    have hfirst := hcond.trans (hbody.reaches hΓ.enter).block
    apply hfirst.trans (hrest.reaches hfirst.sound)

theorem Stmt.ElaboratesLast.reaches (h : ElaboratesLast O top Γ last last' Γ') (hΓ : Γ.Sound) :
  Γ.Reaches O (Tree.Stmt.nodesOfOption last) (nodesOf last') (insideOf last') Γ'
  := by
  cases h with
  | none => exact hΓ.reaches fun _ _ _ _ => within_nil
  | some h => exact (h.reaches hΓ.enter).block

end

/-- What a function names is as demanded, if its slots are and what is written allows it. -/
theorem Function.Elaborates.within {f : Function} (h : f.Elaborates O w) (hO : N.Covers O)
    (hslots : ∀ l ∈ f.params ++ f.locals, N.slot l.name)
    (hT : ∀ d ∈ Tree.Stmt.nodesOf w.body, N.Allows d) :
  f.Within N
  := by
  obtain ⟨blocks, hbody⟩ := h.body
  have hreaches := hbody.reaches Context.sound_start
  have hslots' := List.forall_mem_append.mp hslots
  refine ⟨hreaches.within N hO ?_ hT, hslots'.1, hslots'.2⟩
  intro s hs
  obtain ⟨l, hl, rfl⟩ := List.mem_map.mp hs
  apply hslots l hl

end Endmark.Typed
