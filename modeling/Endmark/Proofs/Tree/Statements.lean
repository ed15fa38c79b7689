import Endmark.Proofs.Tree.Expressions

/-!
# Statements read twice

From the same words the same statements are read, up to spans, unless something is reported.  Only a
definition inside of an open construct is treated according to its line, and that one is always
reported.
-/

namespace Endmark.Tree

open Stmt
open List Option Bool
open Token (Kind)
open Typed (isIdentifier boundBy boundByAll)

/-! ### Statements that say the same -/

/-- The names say the same, and are as names are cut out of a source. -/
structure Ident.Retold (i i' : Ident) : Prop where
  same : i'.withoutSpan = i.withoutSpan
  spelled : isIdentifier i.name = true

/-- Is a function open? -/
def hasFunction (K : List Construct) : Bool :=
  K.any (· == .function)

/-- Is a loop open, with no function inside it? -/
def hasLoop (K : List Construct) : Bool :=
  (K.find? (· != .branch)).any (· != .function)

/-- The statements say the same, and are whole inside of the constructs that are open. -/
structure Stmt.Retold (K : List Construct) (s s' : Stmt) : Prop where
  same : s'.withoutSpans = s.withoutSpans
  whole : s.isWhole (hasFunction K) (hasLoop K) = true

@[inherit_doc Stmt.Retold]
structure Stmt.RetoldAll (K : List Construct) (ss ss' : List Stmt) : Prop where
  same : Stmt.withoutSpansAll ss' = Stmt.withoutSpansAll ss
  whole : Stmt.areWhole (hasFunction K) (hasLoop K) ss = true

@[inherit_doc Stmt.Retold]
structure Arm.RetoldAll (K : List Construct) (arms arms' : List Arm) : Prop where
  same : Stmt.withoutSpansArms arms' = Stmt.withoutSpansArms arms
  whole : Stmt.areArmsWhole (hasFunction K) (hasLoop K) arms = true

/-- The parts of branches say the same. -/
structure Arm.RetoldParts (K : List Construct)
    (parts parts' : List Arm × Option (List Stmt)) : Prop where
  arms : Arm.RetoldAll K parts.1 parts'.1
  otherwise : Option.Rel (Stmt.RetoldAll K) parts.2 parts'.2

/-- The parameters say the same, and are named as names are cut out of a source. -/
structure Param.RetoldAll (ps ps' : List Param) : Prop where
  same : ps'.map Param.withoutSpans = ps.map Param.withoutSpans
  spelled : ∀ p ∈ ps, isIdentifier p.name.name = true

/-- The items say the same, and are whole. -/
structure Item.Retold (i i' : Item) : Prop where
  same : i'.withoutSpans = i.withoutSpans
  whole : i.isWhole = true

@[inherit_doc Item.Retold]
structure Item.RetoldAll (items items' : List Item) : Prop where
  same : items'.map Item.withoutSpans = items.map Item.withoutSpans
  whole : ∀ i ∈ items, i.isWhole = true

/-- All that the item declares is named as names are cut out of a source. -/
def Item.Spelled : Item → Prop
  | .function f => isIdentifier f.name.name = true ∧
    (∀ p ∈ f.params, isIdentifier p.name.name = true) ∧
    ∀ i ∈ boundByAll f.body, isIdentifier i.name = true
  | .statement s => ∀ i ∈ boundBy s, isIdentifier i.name = true

theorem Item.spelled_of_isWhole {i : Item} (h : i.isWhole) :
  i.Spelled
  := by
  cases i with
  | function f =>
    rw [isWhole, and_eq_true, and_eq_true, List.all_eq_true] at h
    exact ⟨h.1.1, h.1.2, fun i => spelled_of_areWhole h.2 i⟩
  | statement s => exact fun i => Stmt.spelled_of_isWhole h i

theorem Stmt.RetoldAll.nil :
  RetoldAll K [] []
  := ⟨rfl, rfl⟩

theorem Stmt.RetoldAll.append (h : RetoldAll K ss ss') (ht : RetoldAll K ts ts') :
  RetoldAll K (ss ++ ts) (ss' ++ ts')
  := by
  constructor
  · rw [withoutSpansAll_append, withoutSpansAll_append, h.same, ht.same]
  · rw [areWhole_append, h.whole, ht.whole, Bool.and_self]

theorem Stmt.retoldAll_toList (h : Rel (Retold K) s s') :
  RetoldAll K s.toList s'.toList
  := by
  cases h with
  | none => exact .nil
  | some h =>
    exact ⟨congrArg (· :: []) h.same, and_eq_true_iff.mpr ⟨h.whole, rfl⟩⟩

theorem Arm.RetoldAll.append (h : RetoldAll K arms arms') (hrest : RetoldAll K rest rest') :
  RetoldAll K (arms ++ rest) (arms' ++ rest')
  := by
  constructor
  · rw [withoutSpansArms_append, withoutSpansArms_append, h.same, hrest.same]
  · rw [areArmsWhole_append, h.whole, hrest.whole, Bool.and_self]

namespace Reader

/-! ### Simple statements -/

theorem inFunction_eq (h : Quiet n K c) :
  c.inFunction = hasFunction K
  := by
  rw [← h.blocks, hasFunction, List.any_map]
  rfl

theorem inLoop_eq (h : Quiet n K c) :
  c.inLoop = hasLoop K
  := by
  rw [← h.blocks, hasLoop, Cursor.inLoop, find?_map]
  change _ = ((c.blocks.find? (·.kind != .branch)).map (·.kind)).any (· != .function)
  cases c.blocks.find? (·.kind != .branch) <;> rfl

section

variable {expr : Reader Expr} [Grows expr] (h : ∀ K, Follows n K K expr expr' Expr.Retold)

include h

/-- Expressions and assignments are read alike. -/
theorem follows_exprOrAssign :
  Follows n K K (exprOrAssign expr) (exprOrAssign expr') (Rel (Retold K))
  := by
  refine follows_bind (h K) (fun lhs => ?_) fun lhs lhs' hlhs => ?_
  · refine grows_bind fun kind => ?_
    split
    · infer_instance
    · cases lhs <;> infer_instance
  refine follows_peek fun kind => ?_
  cases assignmentOp? kind with
  | none =>
    refine follows_pure (.some ⟨?_, hlhs.whole⟩)
    exact congrArg (Stmt.expr .nowhere) hlhs.same
  | some op =>
    apply follows_step
    refine follows_bind (h K) (fun value => by cases lhs <;> infer_instance)
      fun value value' hvalue => ?_
    refine follows_current fun next next' hnext => ?_
    rw [hnext.kind]
    refine follows_ite ?_ ?_
    · cases lhs <;> apply follows_report_then
    cases lhs with
    | name s n =>
      obtain ⟨s', rfl⟩ := Expr.exists_name_of_same hlhs.same
      refine follows_pure (.some ⟨?_, and_eq_true_iff.mpr ⟨hlhs.whole, hvalue.whole⟩⟩)
      exact congrArg (assign .nowhere (.name ⟨n, .nowhere⟩) op) hvalue.same
    | index s base i =>
      obtain ⟨s', base', i', rfl, hbase, hi⟩ := Expr.exists_index_of_same hlhs.same
      refine follows_pure (.some ⟨?_, and_eq_true_iff.mpr ⟨hlhs.whole, hvalue.whole⟩⟩)
      exact congrArg₂ (assign .nowhere · op ·) (congrArg₂ Target.index hbase hi) hvalue.same
    | error s => cases hlhs.whole
    | _ => apply follows_report_then

/-- Returns are read alike, inside of functions. -/
theorem follows_returnStmt :
  Follows n K K (returnStmt expr) (returnStmt expr') (Retold K)
  := by
  refine follows_advance fun word word' _ => ?_
  apply follows_get
  intro c c' hsimilar
  rw [inFunction_eq hsimilar.left, inFunction_eq hsimilar.right]
  refine follows_dite (fun _ => follows_report_then _ _) fun hinside => ?_
  rw [not_eq_true, not_eq_false'] at hinside
  refine follows_peek fun kind => ?_
  have hend (value value' : Option Expr) (hvalue : Rel Expr.Retold value value') :
      Follows n K K (do return .ret (← spanFrom word.span) value)
        (do return .ret (← spanFrom word'.span) value') (Retold K) := by
    refine follows_spanFrom fun _ _ => follows_pure ?_
    cases hvalue with
    | none => exact ⟨rfl, and_eq_true_iff.mpr ⟨hinside, rfl⟩⟩
    | some hvalue =>
      exact ⟨congrArg (fun e => ret .nowhere (some e)) hvalue.same,
        and_eq_true_iff.mpr ⟨hinside, hvalue.whole⟩⟩
  apply follows_ite
  · exact follows_then (follows_map (h K) fun e e' he => .some he) hend
  · exact hend none none .none

theorem follows_simpleBody :
  Follows n K K (simpleBody expr) (simpleBody expr') (Rel (Retold K))
  := by
  refine follows_current fun t t' ht => ?_
  rw [ht.kind]
  cases t.kind with
  | wordReturn => exact follows_map (follows_returnStmt h) fun s s' hs => .some hs
  | wordBreak | wordContinue =>
    apply follows_step
    apply follows_get
    intro c c' hsimilar
    rw [inLoop_eq hsimilar.left, inLoop_eq hsimilar.right]
    refine follows_dite (fun _ => follows_report_then _ _) fun hinside => ?_
    rw [not_eq_true, not_eq_false'] at hinside
    exact follows_pure (.some ⟨rfl, hinside⟩)
  | wordPass =>
    apply follows_step
    exact follows_pure (.some ⟨rfl, rfl⟩)
  | wordAilang | wordAsm =>
    refine follows_given follows_rawBlock fun block block' hblock => ?_
    refine follows_spanFrom fun _ _ => follows_pure (.some ⟨?_, rfl⟩)
    exact congrArg (raw .nowhere) hblock
  | reserved | unknown =>
    apply follows_step
    apply follows_report_then
  | _ => exact follows_exprOrAssign h

theorem follows_simpleStmt :
  Follows n K K (simpleStmt expr) (simpleStmt expr') (Rel (Retold K))
  := by
  apply follows_reportCount
  refine follows_then (follows_simpleBody h) fun s s' hs => ?_
  apply follows_reportCount
  exact follows_eat fun _ => follows_pure hs

end

/-! ### Blocks -/

variable {x : Reader α} {R : α → α → Prop}

theorem loud_bind {f : α → Reader β} [hf : ∀ a, Grows (f a)] (h : Loud (x c).2) :
  Loud ((x >>= f) c).2
  := lt_of_lt_of_le h ((hf _).le _)

theorem loud_of_follows (h : Follows n K K x x fun _ _ => False) (hc : Quiet n K c) :
  Loud (x c).2
  := (h c c hc.self).resolve_right fun ⟨_, hfalse⟩ => hfalse

theorem loud_strayBranch (h : Quiet n K c) :
  Loud (strayBranch c).2
  := by
  refine loud_of_follows (follows_advance fun _ _ _ => ?_) h
  apply follows_report_then

theorem loud_reportNeverClosed (h : Quiet n (kind :: K) c) :
  Loud (reportNeverClosed c).2
  := by
  refine loud_of_follows (follows_get fun c c' hsimilar => ?_) h
  obtain ⟨block, blocks, hblocks, -, -⟩ := map_eq_cons_iff.mp hsimilar.left.blocks
  rw [hblocks, hsimilar.left.halted]
  apply follows_report_then

theorem loud_reportNotClosedBeforeDef (h : Quiet n (kind :: K) c) :
  Loud (reportNotClosedBeforeDef c).2
  := by
  refine loud_of_follows (follows_get fun c c' hsimilar => ?_) h
  obtain ⟨block, blocks, hblocks, -, -⟩ := map_eq_cons_iff.mp hsimilar.left.blocks
  rw [hblocks, hsimilar.left.blamed]
  apply follows_report_then

theorem follows_of_loud (h : ∀ c, Quiet n K c → Loud (x c).2) :
  Follows n K K' x y R
  := fun c _ hsimilar => .inl (h c hsimilar.left)

/-- The next token is one that is always reported, or the readers follow each other. -/
theorem follows_current_unless {p : Kind → Bool}
    (hloud : ∀ c, Quiet n K c → p c.current.kind → Loud (f c.current c).2)
    (hf : ∀ t t', Matches n t t' → p t.kind = false → Follows n K K' (f t) (g t') R) :
  Follows n K K' (current >>= f) (current >>= g) R
  := by
  intro c c' hsimilar
  cases hp : p c.current.kind with
  | true => exact .inl (hloud c hsimilar.left hp)
  | false => exact hf _ _ hsimilar.current hp c c' hsimilar

theorem follows_progress [Grows p] (h : Follows n K K p p' R) :
  Follows n K K (progress p) (progress p') R
  := by
  refine follows_tokensAhead fun before => ?_
  refine follows_then h fun a b hab => ?_
  refine follows_tokensAhead fun count => ?_
  apply follows_ite
  · exact follows_step (follows_pure hab)
  · exact follows_pure hab

theorem loud_progress {p : Reader α} (h : Loud (p c).2) :
  Loud (progress p c).2
  := by
  have hrest := loud_bind (f := fun a => do
    if (← tokensAhead) == c.ahead.length then
      modify .step
    return a) h
  exact hrest

theorem follows_bodyColon {construct : String} :
  Follows n K K (bodyColon construct) (bodyColon construct) fun _ _ => True
  := by
  exact follows_expect fun _ _ _ _ => follows_pure trivial

theorem follows_identOr :
  Follows n K K (identOr s place) (identOr s' place) Ident.Retold
  := by
  refine follows_expect fun t t' ht hkind => follows_pure ⟨?_, ht.proper.name hkind⟩
  simp [Ident.withoutSpan, ht.text]

end Reader

/-- The readers for statements read the same, and report a definition. -/
structure Reader.FollowStmts (n : Nat) (stmt stmt' : Reader (Option Stmt)) : Prop where
  follows : ∀ K, Follows n K K stmt stmt' (Option.Rel (Stmt.Retold K))
  definition : ∀ K c, Quiet n K c → c.current.kind = .wordDef ∨ c.current.kind = .wordFunc →
    Loud (stmt c).2

namespace Reader

section

variable [Grows stmt] (hstmt : FollowStmts n stmt stmt')

include hstmt

/-- The statements of a block are read alike. -/
theorem follows_blockIn :
  Follows n (kind :: K) (kind :: K) (blockIn stmt inBranch fuel) (blockIn stmt' inBranch fuel)
    (RetoldAll (kind :: K))
  := by
  induction fuel with
  | zero => exact follows_pure .nil
  | succ fuel ih =>
    refine follows_current_unless (p := fun kind => kind == .wordDef || kind == .wordFunc)
      (fun c hc hdef => ?_) fun t t' ht hdef => ?_
    · rw [or_eq_true, beq_iff_eq, beq_iff_eq] at hdef
      have hstray : Loud ((do
          let first ← progress stmt
          let rest ← blockIn stmt inBranch fuel
          return first.toList ++ rest : Reader (List Stmt)) c).2 := by
        exact loud_bind (loud_progress (hstmt.definition _ c hc hdef))
      have hopen : Loud ((do
          reportNotClosedBeforeDef
          return [] : Reader (List Stmt)) c).2 :=
        loud_bind (loud_reportNotClosedBeforeDef hc)
      obtain hkind | hkind := hdef
      · simp only [hkind]
        split
        · exact hopen
        · exact hstray
      · simp only [hkind]
        split
        · exact hopen
        · exact hstray
    · rw [ht.kind]
      cases hkind : t.kind with
      | wordEnd => exact follows_pure .nil
      | wordElif | wordElse =>
        refine follows_ite (follows_pure .nil) ?_
        exact follows_of_loud fun c hc => loud_bind (loud_strayBranch hc)
      | endOfFile => exact follows_of_loud fun c hc => loud_bind (loud_reportNeverClosed hc)
      | wordDef | wordFunc =>
        rw [hkind] at hdef
        cases hdef
      | _ =>
        refine follows_then (follows_progress (hstmt.follows _)) fun first first' hfirst => ?_
        refine follows_then ih fun rest rest' hrest => follows_pure ?_
        exact (retoldAll_toList hfirst).append hrest

theorem follows_block :
  Follows n (kind :: K) (kind :: K) (block stmt inBranch) (block stmt' inBranch)
    (RetoldAll (kind :: K))
  := by
  refine follows_tokensAhead fun count => ?_
  exact follows_blockIn hstmt

/-! ### Compound statements -/

variable {expr : Reader Expr} [Grows expr] (hexpr : ∀ K, Follows n K K expr expr' Expr.Retold)

include hexpr

omit [Grows expr] in
theorem follows_arm {construct : String} :
  Follows n (kind :: K) (kind :: K) (arm expr stmt construct) (arm expr' stmt' construct)
    fun arm arm' => Arm.RetoldAll (kind :: K) [arm] [arm']
  := by
  refine follows_then (hexpr _) fun cond cond' hcond => ?_
  refine follows_then follows_bodyColon fun _ _ _ => ?_
  refine follows_then (follows_block hstmt) fun body body' hbody =>
    follows_pure ⟨?_, ?_⟩
  · exact congrArg₂ (fun cond body => [Arm.mk cond body]) hcond.same hbody.same
  · rw [areArmsWhole, hcond.whole, hbody.whole]
    rfl

/-- The arms of a branch are read alike. -/
theorem follows_alternativesIn (harms : Arm.RetoldAll (kind :: K) arms arms')
    (hotherwise : Rel (RetoldAll (kind :: K)) otherwise otherwise') :
  Follows n (kind :: K) (kind :: K) (alternativesIn expr stmt fuel arms otherwise)
    (alternativesIn expr' stmt' fuel arms' otherwise') (Arm.RetoldParts (kind :: K))
  := by
  induction fuel generalizing arms arms' otherwise otherwise' with
  | zero => exact follows_pure ⟨harms, hotherwise⟩
  | succ fuel ih =>
    refine follows_peek fun found => ?_
    cases found with
    | wordElif =>
      refine follows_advance fun word word' _ => ?_
      cases hotherwise with
      | some _ => apply follows_report_then
      | none =>
        refine follows_then (follows_arm hstmt hexpr) fun next next' hnext => ?_
        exact ih (harms.append hnext) .none
    | wordElse =>
      refine follows_advance fun word word' _ => ?_
      cases hotherwise with
      | some _ => apply follows_report_then
      | none =>
        refine follows_then follows_bodyColon fun _ _ _ => ?_
        refine follows_then (follows_block hstmt) fun body body' hbody => ?_
        exact ih harms (.some hbody)
    | _ => exact follows_pure ⟨harms, hotherwise⟩

theorem follows_branchStmt :
  Follows n K K (branchStmt expr stmt) (branchStmt expr' stmt') (Retold K)
  := by
  refine follows_advance fun word word' _ => ?_
  apply follows_openBlock
  refine follows_then (follows_arm hstmt hexpr) fun first first' hfirst => ?_
  refine follows_tokensAhead fun count => ?_
  refine follows_then (follows_alternativesIn hstmt hexpr hfirst .none) ?_
  rintro ⟨arms, otherwise⟩ ⟨arms', otherwise'⟩ ⟨harms, hotherwise⟩
  refine follows_then follows_endBlock fun _ _ _ => ?_
  refine follows_spanFrom fun _ _ => follows_pure ?_
  cases hotherwise with
  | none =>
    exact ⟨congrArg (branch .nowhere · none) harms.same,
      and_eq_true_iff.mpr ⟨harms.whole, rfl⟩⟩
  | some hbody =>
    exact ⟨congrArg₂ (branch .nowhere · <| some ·) harms.same hbody.same,
      and_eq_true_iff.mpr ⟨harms.whole, hbody.whole⟩⟩

omit [Grows expr] in
theorem follows_whileStmt :
  Follows n K K (whileStmt expr stmt) (whileStmt expr' stmt') (Retold K)
  := by
  refine follows_advance fun word word' _ => ?_
  apply follows_openBlock
  refine follows_then (hexpr _) fun cond cond' hcond => ?_
  refine follows_then follows_bodyColon fun _ _ _ => ?_
  refine follows_then (follows_block hstmt) fun body body' hbody => ?_
  refine follows_then follows_endBlock fun _ _ _ => ?_
  refine follows_spanFrom fun _ _ => follows_pure ?_
  exact ⟨congrArg₂ (whileLoop .nowhere) hcond.same hbody.same,
    and_eq_true_iff.mpr ⟨hcond.whole, hbody.whole⟩⟩

theorem follows_forStmt :
  Follows n K K (forStmt expr stmt) (forStmt expr' stmt') (Retold K)
  := by
  refine follows_advance fun word word' _ => ?_
  apply follows_openBlock
  refine follows_then follows_identOr fun target target' htarget => ?_
  refine follows_expect fun _ _ _ _ => ?_
  refine follows_then (hexpr _) fun iter iter' hiter => ?_
  refine follows_then follows_bodyColon fun _ _ _ => ?_
  refine follows_then (follows_block hstmt) fun body body' hbody => ?_
  refine follows_then follows_endBlock fun _ _ _ => ?_
  refine follows_spanFrom fun _ _ => follows_pure ⟨?_, ?_⟩
  · simp [withoutSpans, htarget.same, hiter.same, hbody.same]
  · rw [isWhole, htarget.spelled, hiter.whole]
    exact hbody.whole

end

/-! ### Functions -/

-- The readers of definitions are long chains of steps.
set_option synthInstance.maxSize 1024

section

/-- Parameters are read alike. -/
theorem follows_paramsIn :
  Follows n K K (paramsIn fuel) (paramsIn fuel) Param.RetoldAll
  := by
  induction fuel with
  | zero => exact follows_pure ⟨rfl, fun _ hp => nomatch hp⟩
  | succ fuel ih =>
    refine follows_expect fun t t' ht hkind => ?_
    have hparam {declared declared' : Option TypeExpr}
        (hdeclared : Rel TypeExpr.Retold declared declared') {ps ps' : List Param}
        (hps : Param.RetoldAll ps ps') :
        Param.RetoldAll (⟨⟨t.text, t.span⟩, declared⟩ :: ps)
          (⟨⟨t'.text, t'.span⟩, declared'⟩ :: ps') := by
      constructor
      · rw [map_cons, hps.same, ht.text]
        cases hdeclared with
        | none => rfl
        | some htype =>
          rw [TypeExpr.Retold] at htype
          simp only [Param.withoutSpans, map_some, htype]
          rfl
      · rintro p (_ | ⟨_, hp⟩)
        · exact ht.proper.name hkind
        · exact hps.spelled p hp
    have hrest {declared declared' : Option TypeExpr}
        (hdeclared : Rel TypeExpr.Retold declared declared') :
        Follows n K K
          (do if ← eat .comma then
                return ⟨⟨t.text, t.span⟩, declared⟩ :: (← paramsIn fuel)
              else
                return [⟨⟨t.text, t.span⟩, declared⟩])
          (do if ← eat .comma then
                return ⟨⟨t'.text, t'.span⟩, declared'⟩ :: (← paramsIn fuel)
              else
                return [⟨⟨t'.text, t'.span⟩, declared'⟩])
          Param.RetoldAll := by
      refine follows_eat fun more => ?_
      apply follows_ite
      · exact follows_then ih fun ps ps' hps => follows_pure (hparam hdeclared hps)
      · exact follows_pure (hparam hdeclared ⟨rfl, fun _ hp => nomatch hp⟩)
    refine follows_eat fun colon => ?_
    apply follows_ite
    · exact follows_then follows_typeExpr fun declared declared' hdeclared => hrest hdeclared
    · exact hrest .none

theorem follows_resultType :
  Follows n K K (resultType 0) (resultType 0) (Rel TypeExpr.Retold)
  := by
  apply follows_reportCount
  refine follows_expect fun _ _ _ _ => ?_
  apply follows_reportCount
  refine follows_eat fun arrow => ?_
  exact follows_ite follows_typeExpr (follows_pure .none)

theorem follows_signature :
  Follows n K K (signature 0) (signature 0) fun head head' =>
    Param.RetoldAll head.1 head'.1 ∧ Rel TypeExpr.Retold head.2 head'.2
  := by
  unfold signature
  simp only [pure_bind]
  refine follows_expect fun _ _ _ _ => ?_
  refine follows_peek fun kind => ?_
  apply follows_ite
  · refine follows_then follows_resultType fun ret ret' hret => follows_pure ⟨?_, hret⟩
    exact ⟨rfl, by rintro _ ⟨⟩⟩
  · refine follows_tokensAhead fun count => ?_
    refine follows_then follows_paramsIn fun ps ps' hps => ?_
    exact follows_then follows_resultType fun ret ret' hret => follows_pure ⟨hps, hret⟩

variable [Grows stmt] (hstmt : FollowStmts n stmt stmt')

include hstmt

/-- Functions are read alike. -/
theorem follows_function :
  Follows n K K (function stmt) (function stmt') fun f f' =>
    Item.Retold (.function f) (.function f')
  := by
  refine follows_advance fun word word' hword => ?_
  rw [hword.kind]
  apply follows_reportCount
  refine follows_then follows_identOr fun name name' hname => ?_
  apply follows_reportCount
  refine follows_then follows_signature ?_
  rintro ⟨params, ret⟩ ⟨params', ret'⟩ ⟨hparams, hret⟩
  apply follows_reportCount
  refine follows_then follows_bodyColon fun _ _ _ => ?_
  apply follows_openBlock
  refine follows_then (follows_block hstmt) fun body body' hbody => ?_
  refine follows_then follows_endBlock fun _ _ _ => ?_
  refine follows_spanFrom fun _ _ => follows_pure ⟨?_, ?_⟩
  rotate_left
  · rw [Item.isWhole, hname.spelled, all_eq_true.mpr hparams.spelled]
    exact hbody.whole
  have hret : ret'.map TypeExpr.withoutSpans = ret.map .withoutSpans := by
    cases hret with
    | none => rfl
    | some htype => exact congrArg some htype
  simp [Item.withoutSpans, Function.withoutSpans, hname.same, hparams.same, hret, hbody.same]

end

section

variable [Grows stmt] (hself : FollowStmts n stmt stmt)

include hself

theorem loud_nestedFunction (h : Quiet n K c) :
  Loud (nestedFunction stmt c).2
  := by
  refine loud_of_follows (follows_current fun word word' _ => ?_) h
  refine follows_then (follows_function hself) fun _ _ _ => ?_
  apply follows_report_then

/-! ### All statements -/

theorem follows_compound (hstmt : FollowStmts n stmt stmt') {expr : Reader Expr} [Grows expr]
    (hexpr : ∀ K, Follows n K K expr expr' Expr.Retold) :
  Follows n K K (compound expr stmt) (compound expr' stmt') (Rel (Retold K))
  := by
  refine follows_peek fun kind => ?_
  cases kind with
  | wordIf => exact follows_map (follows_branchStmt hstmt hexpr) fun s s' hs => .some hs
  | wordWhile => exact follows_map (follows_whileStmt hstmt hexpr) fun s s' hs => .some hs
  | wordFor => exact follows_map (follows_forStmt hstmt hexpr) fun s s' hs => .some hs
  | _ => exact follows_of_loud fun c hc => loud_nestedFunction hself hc

theorem loud_compound {expr : Reader Expr} (h : Quiet n K c)
    (hdef : c.current.kind = .wordDef ∨ c.current.kind = .wordFunc) :
  Loud (compound expr stmt c).2
  := by
  have hnested := loud_nestedFunction hself h
  have hpeek {α : Type} (f : Token.Kind → Reader α) : (peek >>= f) c = f c.current.kind c := rfl
  rw [compound, hpeek]
  obtain hkind | hkind := hdef
  · rw [hkind]
    exact hnested
  · rw [hkind]
    exact hnested

end

section

variable {field : FieldReader} [∀ offset body, Grows (field offset body)]
  (hself : field.Follow n field)

include hself

/-- Statements are read alike, to any depth. -/
theorem followStmts_statement (hfield : field.Follow n field') (levels : Nat) :
  FollowStmts n (statement field levels) (statement field' levels)
  := by
  have hopens {c : Cursor} (h : c.current.kind = .wordDef ∨ c.current.kind = .wordFunc) :
      opensBlock c.current.kind := by
    obtain h | h := h
    · rw [h]
      rfl
    · rw [h]
      rfl
  induction levels generalizing field' with
  | zero =>
    have hdeep {K : List Construct} {y : Reader (Option Stmt)}
        {R : Option Stmt → Option Stmt → Prop} :
        Follows n K K (do tooDeep; return none) y R :=
      follows_tooDeep_then
    constructor
    · intro K
      refine follows_peek fun kind => ?_
      refine follows_ite hdeep ?_
      exact follows_simpleStmt (follows_deeper hfield).expr
    · intro K c hc hdef
      change Loud ((if opensBlock c.current.kind then _ else _ : Reader (Option Stmt)) c).2
      rw [if_pos (hopens hdef)]
      exact loud_of_follows hdeep hc
  | succ levels ih =>
    constructor
    · intro K
      refine follows_peek fun kind => ?_
      refine follows_ite ?_ ?_
      · exact follows_compound (ih hself) (ih hfield) (follows_deeper hfield).expr
      · exact follows_simpleStmt (follows_deeper hfield).expr
    · intro K c hc hdef
      change Loud ((if opensBlock c.current.kind then _ else _ : Reader (Option Stmt)) c).2
      rw [if_pos (hopens hdef)]
      exact loud_compound (ih hself) hc hdef

variable (hfield : field.Follow n field')

include hfield

/-- Items are read alike. -/
theorem follows_item :
  Follows n [] [] (item field) (item field')
    (Rel Item.Retold)
  := by
  refine follows_peek fun kind => ?_
  have hfunction := follows_function (K := []) (followStmts_statement hself hfield (maxNesting - 1))
  have hstatement := (followStmts_statement hself hfield maxNesting).follows []
  cases kind with
  | wordEnd =>
    refine follows_advance fun _ _ _ => ?_
    apply follows_report_then
  | wordElif | wordElse => exact follows_of_loud fun c hc => loud_bind (loud_strayBranch hc)
  | wordDef | wordFunc =>
    refine follows_then hfunction fun f f' hf => follows_pure (.some ⟨hf.same, hf.whole⟩)
  | _ =>
    refine follows_then hstatement fun s s' hs => follows_pure ?_
    cases hs with
    | none => exact .none
    | some hs => exact .some ⟨congrArg Item.statement hs.same, hs.whole⟩

/-- The items of a unit are read the same. -/
theorem follows_itemsIn :
  Follows n [] [] (itemsIn field fuel) (itemsIn field' fuel)
    Item.RetoldAll
  := by
  induction fuel with
  | zero => exact follows_pure ⟨rfl, fun _ hi => nomatch hi⟩
  | succ fuel ih =>
    refine follows_peek fun kind => ?_
    refine follows_ite (follows_pure ⟨rfl, fun _ hi => nomatch hi⟩) ?_
    refine follows_then (follows_progress (follows_item hself hfield)) fun first first' hfirst => ?_
    refine follows_then ih fun rest rest' hrest => follows_pure ⟨?_, ?_⟩
    · rw [map_append, hrest.same]
      cases hfirst with
      | none => rfl
      | some hfirst => exact congrArg (· :: _) hfirst.same
    · intro i hi
      obtain hi | hi := mem_append.mp hi
      · cases hfirst with
        | none => cases hi
        | some hfirst =>
          cases mem_singleton.mp hi
          exact hfirst.whole
      · exact hrest.whole i hi

end

end Reader

end Endmark.Tree
