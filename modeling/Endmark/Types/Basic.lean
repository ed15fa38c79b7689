/-!
# Types of values

Types are inferred, and written down only in optional annotations.  They form an order in
which the unknown type lies below all others, and a list of something below a list of
something greater; the type of a faulty expression absorbs everything, so that one mistake
is reported once.
-/

namespace Endmark

/-- The types. -/
inductive Ty where
  | int
  | float
  | bool
  | str
  | list (item : Ty)
  | function (params : List Ty) (result : Ty)
  /-- Nothing is known yet. -/
  | unknown
  /-- The type of what has been reported already. -/
  | error
deriving Repr, Inhabited

namespace Ty

/-! ### Equality -/

mutual

/-- Are two types the same? -/
def same : Ty → Ty → Bool
  | .int, .int | .float, .float | .bool, .bool | .str, .str | .unknown, .unknown
  | .error, .error => true
  | .list a, .list b => same a b
  | .function ps r, .function qs s => sameAll ps qs && same r s
  | _, _ => false

def sameAll : List Ty → List Ty → Bool
  | [], [] => true
  | a :: as, b :: bs => same a b && sameAll as bs
  | _, _ => false

end

mutual

/-- Types found the same are equal. -/
theorem eq_of_same : ∀ a b : Ty, same a b → a = b
  | .list a, b, h => by
    cases b <;> simp [same] at h
    rw [eq_of_same a _ h]
  | .function ps r, b, h => by
    cases b <;> simp [same] at h
    rw [eq_of_sameAll ps _ h.1, eq_of_same r _ h.2]
  | .int, b, h | .float, b, h | .bool, b, h | .str, b, h | .unknown, b, h | .error, b, h => by
    cases b <;> simp [same] at h
    rfl

/-- Lists of types found the same are equal. -/
theorem eq_of_sameAll : ∀ as bs : List Ty, sameAll as bs → as = bs
  | [], bs, h => by cases bs <;> simp [sameAll] at h ⊢
  | a :: as, bs, h => by
    cases bs <;> simp [sameAll] at h
    rw [eq_of_same a _ h.1, eq_of_sameAll as _ h.2]

end

mutual

/-- Every type is found the same as itself. -/
theorem same_self : ∀ a : Ty, same a a
  | .list a => by simp [same, same_self a]
  | .function ps r => by simp [same, sameAll_self ps, same_self r]
  | .int | .float | .bool | .str | .unknown | .error => by simp [same]

/-- Every list of types is found the same as itself. -/
theorem sameAll_self : ∀ as : List Ty, sameAll as as
  | [] => by simp [sameAll]
  | a :: as => by simp [sameAll, same_self a, sameAll_self as]

end

/-- Exactly equal types are found the same. -/
theorem same_iff {a b : Ty} :
  same a b ↔ a = b
  :=
  ⟨eq_of_same a b, fun h => h ▸ same_self a⟩

instance : DecidableEq Ty :=
  fun _ _ => decidable_of_iff _ same_iff

/-! ### Classes of types -/

/-- Is it a number, as far as is known? -/
def isNumeric : Ty → Bool
  | .int | .float | .unknown => true
  | _ => false

/-- Can integer arithmetic be done with it? -/
def isIntegral : Ty → Bool
  | .int | .unknown | .bool => true
  | _ => false

/-- Is it an integer, as far as is known? -/
def isInt : Ty → Bool
  | .int | .unknown => true
  | _ => false

/-- Has its expression been reported already? -/
def isError : Ty → Bool
  | .error => true
  | _ => false

def isFunction : Ty → Bool
  | .function _ _ => true
  | _ => false

/-- Can it be tested as a condition? -/
def isTruthy (t : Ty) : Bool :=
  !t.isFunction

mutual

/-- Is nothing of the type unknown? -/
def isConcrete : Ty → Bool
  | .unknown => false
  | .list item => item.isConcrete
  | .function params result => allConcrete params && result.isConcrete
  | _ => true

def allConcrete : List Ty → Bool
  | [] => true
  | t :: ts => t.isConcrete && allConcrete ts

end

/-! ### Showing -/

mutual

/-- How a type is shown. -/
def render : Ty → String
  | .int => "int"
  | .float => "float"
  | .bool => "bool"
  | .str => "str"
  | .list item => s!"list[{item.render}]"
  | .function params result =>
    "(" ++ ", ".intercalate (renderAll params) ++ ") -> " ++ result.render
  | .unknown => "unknown"
  | .error => "<error>"

/-- How types are shown. -/
def renderAll : List Ty → List String
  | [] => []
  | t :: ts => t.render :: renderAll ts

end

/-! ### Order -/

mutual

/-- The least type above both, if there is one. -/
def join : Ty → Ty → Option Ty
  | .error, _ | _, .error => some .error
  | .unknown, b => some b
  | a, .unknown => some a
  | .list a, .list b => (join a b).map .list
  | .function ps r, .function qs s =>
    match joinAll ps qs, join r s with
    | some params, some result => some (.function params result)
    | _, _ => none
  | a, b => if a = b then some a else none

/-- The least types above both lists, one by one. -/
def joinAll : List Ty → List Ty → Option (List Ty)
  | [], [] => some []
  | a :: as, b :: bs =>
    match join a b, joinAll as bs with
    | some t, some ts => some (t :: ts)
    | _, _ => none
  | _, _ => none

end

/-- May a value be kept where `target` is expected, without changing what is expected? -/
def fits (target value : Ty) : Bool :=
  target.join value == some target

end Ty

end Endmark
