import Mathlib
import Endmark.Tree.Statements

/-!
# Reports stay

No reader takes back a report, so that reading that ends without reports has had none at any time.
-/

namespace Endmark.Tree

/-- After the reader there are no fewer reports than before it. -/
class Grows {α : Type} (x : Reader α) : Prop where
  le : ∀ c, c.reports.size ≤ (x c).2.reports.size

/-- All readers for expressions one level deeper keep the reports. -/
class Deeper.Grow (d : Deeper) : Prop where
  expr : Grows d.expr
  negation : Grows d.negation
  unary : Grows d.unary

attribute [instance] Deeper.Grow.expr Deeper.Grow.negation Deeper.Grow.unary

set_option synthInstance.maxSize 2048

namespace Reader

instance (a : α) : Grows (pure a : Reader α) :=
  ⟨fun _ => Nat.le_refl _⟩

theorem grows_bind {f : α → Reader β} [hx : Grows x] (hf : ∀ a, Grows (f a)) :
  Grows (x >>= f)
  := ⟨fun c => (hx.le c).trans ((hf _).le _)⟩

instance {x : Reader α} {f : α → Reader β} [Grows x] [hf : ∀ a, Grows (f a)] : Grows (x >>= f) :=
  grows_bind hf

instance {x : Reader (Option α)} {f : Option α → Reader β} [Grows x] [hnone : Grows (f none)]
    [hsome : ∀ a, Grows (f (some a))] : Grows (x >>= f) :=
  grows_bind fun a => match a with
    | none => hnone
    | some a => hsome a

instance {x : Reader α} {f : α → β} [hx : Grows x] : Grows (f <$> x) :=
  ⟨hx.le⟩

instance {p : Prop} [Decidable p] {x y : Reader α} [hx : Grows x] [hy : Grows y] :
    Grows (if p then x else y) := by
  split
  · exact hx
  · exact hy

theorem grows_modify (h : ∀ c, (f c).reports = c.reports) :
  Grows (modify f : Reader PUnit)
  := ⟨fun c => le_of_eq (congrArg Array.size (h c).symm)⟩

/-! ### Steps of a cursor -/

instance : Grows (get : Reader Cursor) :=
  ⟨fun _ => Nat.le_refl _⟩

instance : Grows (modify Cursor.step : Reader PUnit) := by
  apply grows_modify
  intro c
  rw [Cursor.step]
  split <;> rfl

instance (p : Token → Bool) : Grows (modify (·.skipWhile p) : Reader PUnit) :=
  grows_modify fun _ => rfl

instance : Grows (modify Cursor.halt : Reader PUnit) :=
  grows_modify fun _ => rfl

theorem size_report (c : Cursor) :
  c.reports.size ≤ (c.report span fault).reports.size
  := by
  rw [Cursor.report]
  split
  · exact le_refl _
  · rw [Array.size_push]
    exact Nat.le_succ _

instance (span : Span) (fault : Fault) : Grows (report span fault) :=
  ⟨fun c => size_report c⟩

instance : Grows current := by
  unfold current
  infer_instance

instance : Grows peek := by
  unfold peek
  infer_instance

instance : Grows advance := by
  unfold advance
  infer_instance

instance : Grows lastSpan := by
  unfold lastSpan
  infer_instance

instance (start : Span) : Grows (spanFrom start) := by
  unfold spanFrom
  infer_instance

instance : Grows reportCount := by
  unfold reportCount
  infer_instance

instance : Grows tokensAhead := by
  unfold tokensAhead
  infer_instance

instance (kind : Token.Kind) : Grows (eat kind) := by
  unfold eat
  infer_instance

instance (kind : Token.Kind) (place : String) : Grows (expect kind place) := by
  unfold expect
  infer_instance

instance : Grows synchronize := by
  unfold synchronize
  infer_instance

instance : Grows recoverHead := by
  unfold recoverHead
  infer_instance

instance : Grows tooDeep := by
  unfold tooDeep
  infer_instance

instance (kind : Construct) (span : Span) : Grows (openBlock kind span) :=
  grows_modify fun _ => rfl

instance : Grows endBlock := by
  unfold endBlock
  have hclose : Grows (modify fun c => { c with blocks := c.blocks.tail } : Reader PUnit) :=
    grows_modify fun _ => rfl
  infer_instance

instance : Grows (modify fun c => { c with halted := true } : Reader PUnit) :=
  grows_modify fun _ => rfl

instance : Grows (modify fun c => { c with blamed := some c.ahead.length } : Reader PUnit) :=
  grows_modify fun _ => rfl

instance : Grows reportNeverClosed := by
  unfold reportNeverClosed
  refine grows_bind fun c => ?_
  split <;> infer_instance

instance : Grows reportNotClosedBeforeDef := by
  unfold reportNotClosedBeforeDef
  refine grows_bind fun c => ?_
  split <;> infer_instance

/-! ### Expressions -/

instance : Grows rawBlock := by
  unfold rawBlock
  dsimp only
  infer_instance

instance (fuel : Nat) : Grows (typeExprIn fuel) := by
  induction fuel with
  | zero => exact inferInstanceAs (Grows (pure none))
  | succ fuel ih =>
    unfold typeExprIn
    refine grows_bind fun token => ?_
    dsimp only
    split <;> infer_instance

instance : Grows typeExpr := by
  unfold typeExpr
  infer_instance

section

variable {expr : Reader Expr} [Grows expr]

instance (closing : Token.Kind) (fuel : Nat) : Grows (commaListIn expr closing fuel) := by
  induction fuel with
  | zero => exact inferInstanceAs (Grows (pure []))
  | succ fuel ih =>
    unfold commaListIn
    infer_instance

instance (closing : Token.Kind) : Grows (commaList expr closing) := by
  unfold commaList
  infer_instance

instance (op? : Token.Kind → Option BinaryOp) (fuel : Nat) (lhs : Expr) :
    Grows (chainIn op? expr fuel lhs) := by
  induction fuel generalizing lhs with
  | zero => exact inferInstanceAs (Grows (pure lhs))
  | succ fuel ih =>
    unfold chainIn
    refine grows_bind fun kind => ?_
    split <;> infer_instance

instance (op? : Token.Kind → Option BinaryOp) : Grows (chain op? expr) := by
  unfold chain
  infer_instance

instance (op : UnaryOp) : Grows (applied op expr) := by
  unfold applied
  infer_instance

end

section

variable {field : FieldReader} [∀ offset body, Grows (field offset body)]

instance (file : Option Nat) (base : Nat) (segments : List Segment) :
    Grows (fstringParts field file base segments) := by
  induction segments with
  | nil => exact inferInstanceAs (Grows (pure []))
  | cons segment rest ih =>
    cases segment with
    | field offset body =>
      refine grows_bind fun expr => ?_
      split <;> infer_instance
    | _ =>
      unfold fstringParts
      infer_instance

variable {deeper : Deeper} [deeper.Grow]

instance : Grows (primary field deeper) := by
  unfold primary
  refine grows_bind fun token => ?_
  dsimp only
  split
  case h_1 | h_2 =>
    refine grows_bind fun _ => ?_
    split <;> infer_instance
  case h_10 | h_11 =>
    refine grows_bind fun block => ?_
    split <;> infer_instance
  all_goals infer_instance

instance (fuel : Nat) (expr : Expr) : Grows (suffixesIn deeper fuel expr) := by
  induction fuel generalizing expr with
  | zero => exact inferInstanceAs (Grows (pure expr))
  | succ fuel ih =>
    unfold suffixesIn
    refine grows_bind fun kind => ?_
    split
    · refine grows_bind fun _ => ?_
      refine grows_bind fun args => ?_
      refine grows_bind fun _ => ?_
      refine grows_bind fun span => ?_
      split <;> infer_instance
    all_goals infer_instance

instance : Grows (operand field deeper) := by
  unfold operand
  infer_instance

instance : Grows (power field deeper) := by
  unfold power
  infer_instance

instance : Grows (unary field deeper) := by
  unfold unary
  refine grows_bind fun kind => ?_
  split <;> infer_instance

instance : Grows (arithmetic field deeper) := by
  unfold arithmetic
  infer_instance

instance : Grows (comparison field deeper) := by
  unfold comparison
  refine grows_bind fun lhs => ?_
  refine grows_bind fun kind => ?_
  split <;> infer_instance

instance : Grows (negation field deeper) := by
  unfold negation
  refine grows_bind fun kind => ?_
  split <;> infer_instance

instance : Grows (disjunction field deeper) := by
  unfold disjunction
  infer_instance

instance : Grows tooDeepExpr := by
  unfold tooDeepExpr
  infer_instance

instance (levels : Nat) : (Reader.deeper field levels).Grow := by
  induction levels with
  | zero => exact ⟨inferInstanceAs (Grows tooDeepExpr), inferInstanceAs (Grows tooDeepExpr),
      inferInstanceAs (Grows tooDeepExpr)⟩
  | succ levels ih => exact ⟨inferInstanceAs (Grows (disjunction field (Reader.deeper field levels))),
      inferInstanceAs (Grows (negation field (Reader.deeper field levels))),
      inferInstanceAs (Grows (unary field (Reader.deeper field levels)))⟩

end

theorem size_adopt (c : Cursor) :
  c.reports.size ≤ (c.adopt reports).reports.size
  := by
  rw [Cursor.adopt]
  split
  · exact le_refl _
  · rw [Array.size_append]
    exact Nat.le_add_right _ _

instance (reports : Array Diagnostic) : Grows (modify (·.adopt reports) : Reader PUnit) :=
  ⟨fun c => size_adopt c⟩

instance (field : FieldReader) (offset : Nat) (body : List UInt8) :
    Grows (fieldWith field offset body) := by
  unfold fieldWith
  refine grows_bind fun c => ?_
  dsimp only
  split
  · infer_instance
  · infer_instance
  · split
    infer_instance

instance (fuel offset : Nat) (body : List UInt8) : Grows (fieldIn fuel offset body) := by
  cases fuel with
  | zero => exact inferInstanceAs (Grows (pure none))
  | succ fuel => exact inferInstanceAs (Grows (fieldWith (fieldIn fuel) offset body))

/-! ### Statements -/

section

variable {expr : Reader Expr} [Grows expr]

instance : Grows (exprOrAssign expr) := by
  unfold exprOrAssign
  refine grows_bind fun lhs => ?_
  refine grows_bind fun kind => ?_
  dsimp only
  split
  · infer_instance
  · cases lhs <;> infer_instance

instance : Grows (returnStmt expr) := by
  unfold returnStmt
  dsimp only
  refine grows_bind fun word => ?_
  infer_instance

instance : Grows (simpleBody expr) := by
  unfold simpleBody
  refine grows_bind fun token => ?_
  dsimp only
  split <;> infer_instance

instance : Grows (simpleStmt expr) := by
  unfold simpleStmt
  infer_instance

instance : Grows strayBranch := by
  unfold strayBranch
  infer_instance

instance {α : Type} {p : Reader α} [Grows p] : Grows (progress p) := by
  unfold progress
  infer_instance

instance (construct : String) : Grows (bodyColon construct) := by
  unfold bodyColon
  infer_instance

instance (fallback : Span) (place : String) : Grows (identOr fallback place) := by
  unfold identOr
  infer_instance

variable {stmt : Reader (Option Stmt)} [Grows stmt]

instance (inBranch : Bool) (fuel : Nat) : Grows (blockIn stmt inBranch fuel) := by
  induction fuel with
  | zero => exact inferInstanceAs (Grows (pure []))
  | succ fuel ih =>
    unfold blockIn
    refine grows_bind fun token => ?_
    split <;> infer_instance

instance (inBranch : Bool) : Grows (block stmt inBranch) := by
  unfold block
  infer_instance

instance (construct : String) : Grows (arm expr stmt construct) := by
  unfold arm
  infer_instance

instance (fuel : Nat) (arms : List Arm) (otherwise : Option (List Stmt)) :
    Grows (alternativesIn expr stmt fuel arms otherwise) := by
  induction fuel generalizing arms otherwise with
  | zero => exact inferInstanceAs (Grows (pure (arms, otherwise)))
  | succ fuel ih =>
    unfold alternativesIn
    refine grows_bind fun kind => ?_
    dsimp only
    split <;> infer_instance

instance : Grows (branchStmt expr stmt) := by
  unfold branchStmt
  infer_instance

instance : Grows (whileStmt expr stmt) := by
  unfold whileStmt
  infer_instance

instance : Grows (forStmt expr stmt) := by
  unfold forStmt
  dsimp only
  refine grows_bind fun word => ?_
  infer_instance

instance (fuel : Nat) : Grows (paramsIn fuel) := by
  induction fuel with
  | zero => exact inferInstanceAs (Grows (pure []))
  | succ fuel ih =>
    unfold paramsIn
    dsimp only
    infer_instance

instance (before : Nat) : Grows (resultType before) := by
  unfold resultType
  dsimp only
  infer_instance

instance (before : Nat) : Grows (signature before) := by
  unfold signature
  dsimp only
  infer_instance

instance : Grows (function stmt) := by
  unfold function
  dsimp only
  infer_instance

instance : Grows (nestedFunction stmt) := by
  unfold nestedFunction
  infer_instance

instance : Grows (compound expr stmt) := by
  unfold compound
  refine grows_bind fun kind => ?_
  split <;> infer_instance

end

section

variable {field : FieldReader} [∀ offset body, Grows (field offset body)]

instance (levels : Nat) : Grows (statement field levels) := by
  induction levels with
  | zero =>
    unfold statement
    infer_instance
  | succ levels ih =>
    unfold statement
    infer_instance

instance : Grows (item field) := by
  unfold item
  refine grows_bind fun kind => ?_
  split <;> infer_instance

instance (fuel : Nat) : Grows (itemsIn field fuel) := by
  induction fuel with
  | zero => exact inferInstanceAs (Grows (pure []))
  | succ fuel ih =>
    unfold itemsIn
    infer_instance

end

end Reader

end Endmark.Tree
