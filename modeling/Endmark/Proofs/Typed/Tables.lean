import Endmark.Proofs.Lookup
import Endmark.Typed.Tables

/-!
# Reading tables after they are changed

Each change of the tables is seen by one kind of reading only, and there by that of what has
been changed.
-/

namespace Endmark.Typed

open List

/-- A name has the type that has been put for it. -/
theorem lookup_putType :
  (putType name ty entries).lookup x = if name = x then some ty else entries.lookup x
  := by
  simp only [eq_comm (a := name)]
  induction entries with
  | nil => rw [putType, lookup_cons_ite]
  | cons entry rest ih =>
    rw [putType]
    split
    · rename_i h
      subst h
      rw [lookup_cons_ite, lookup_cons_ite]
      split <;> rfl
    · grind

namespace Tables

variable (t : Tables) (i j k l : Nat) (ty : Ty) (name x : String)

/-- A change of one function is seen there only, if it is there at all. -/
theorem function_modify {globals : List (String × Ty)} :
  (mk (t.functions.modify i f) globals).function j =
    if i = j ∧ i < t.functions.length then f (t.function j) else t.function j
  := by
  simp only [function]
  by_cases hij : i = j
  · subst hij
    by_cases hlt : i < t.functions.length
    · simp [hlt]
    · simp [hlt]
  · simp [hij]

/-- There is nothing where there is no function. -/
theorem function_eq_default {t : Tables} {i : Nat} (h : ¬ i < t.functions.length) :
  t.function i = default
  := by
  simp [function, getElem?_eq_none (Nat.le_of_not_lt h)]

/-! ### Parameters -/

/-- Only the one parameter changes. -/
theorem param?_setParam :
  (t.setParam i k ty).param? j l =
    if i = j ∧ k = l then (t.param? j l).map fun _ => ty else t.param? j l
  := by
  rw [setParam, param?, function_modify, param?]
  by_cases hij : i = j
  · subst hij
    by_cases hlt : i < t.functions.length
    · by_cases hkl : k = l
      · subst hkl
        by_cases hk : k < (t.function i).params.length <;> simp [hlt, hk]
      · simp [hlt, hkl]
    · rw [function_eq_default hlt]
      simp [hlt, show (default : FunctionTypes).params = [] from rfl]
  · simp [hij]

@[simp]
theorem param?_setResult :
  (t.setResult i ty).param? j l = t.param? j l
  := by
  rw [setResult, param?, function_modify]
  split <;> rfl

@[simp]
theorem param?_setSlot :
  (t.setSlot i name ty).param? j l = t.param? j l
  := by
  rw [setSlot, param?, function_modify]
  split <;> rfl

@[simp]
theorem param?_setGlobal :
  (t.setGlobal name ty).param? j l = t.param? j l
  := rfl

/-! ### Results -/

theorem result_setResult :
  ((t.setResult i ty).function j).result =
    if i = j ∧ i < t.functions.length then ty else (t.function j).result
  := by
  rw [setResult, function_modify]
  split <;> rfl

@[simp]
theorem result_setParam :
  ((t.setParam i k ty).function j).result = (t.function j).result
  := by
  rw [setParam, function_modify]
  split <;> rfl

@[simp]
theorem result_setSlot :
  ((t.setSlot i name ty).function j).result = (t.function j).result
  := by
  rw [setSlot, function_modify]
  split <;> rfl

@[simp]
theorem result_setGlobal :
  ((t.setGlobal name ty).function j).result = (t.function j).result
  := rfl

/-! ### Slots -/

theorem slot?_setSlot :
  (t.setSlot i name ty).slot? j x =
    if (i = j ∧ i < t.functions.length) ∧ name = x then some ty else t.slot? j x
  := by
  rw [setSlot, slot?, function_modify, slot?]
  by_cases h : i = j ∧ i < t.functions.length
  · rw [if_pos h, lookup_putType]
    simp [and_iff_right h]
  · rw [if_neg h, if_neg fun hx => h hx.1]

@[simp]
theorem slot?_setParam :
  (t.setParam i k ty).slot? j x = t.slot? j x
  := by
  rw [setParam, slot?, function_modify]
  split <;> rfl

@[simp]
theorem slot?_setResult :
  (t.setResult i ty).slot? j x = t.slot? j x
  := by
  rw [setResult, slot?, function_modify]
  split <;> rfl

@[simp]
theorem slot?_setGlobal :
  (t.setGlobal name ty).slot? j x = t.slot? j x
  := rfl

/-! ### Globals -/

theorem global?_setGlobal :
  (t.setGlobal name ty).global? x = if name = x then some ty else t.global? x
  := lookup_putType

@[simp]
theorem global?_setParam :
  (t.setParam i k ty).global? x = t.global? x
  := rfl

@[simp]
theorem global?_setResult :
  (t.setResult i ty).global? x = t.global? x
  := rfl

@[simp]
theorem global?_setSlot :
  (t.setSlot i name ty).global? x = t.global? x
  := rfl

/-! ### The tables before anything is found -/

theorem function_initial {i : Nat} :
  (initial plan).function i = (plan.functions[i]?.map fun f =>
    ⟨f.params.map (·.declared.getD .unknown), f.ret.getD .unknown, []⟩).getD default
  := by
  simp [function, initial]

theorem slot?_initial {plan : Plan} {i : Nat} {x : String} :
  (initial plan).slot? i x = none
  := by
  rw [slot?, function_initial]
  cases plan.functions[i]? <;> rfl

/-- The parameters have the types that are declared for them. -/
theorem param?_initial {i k : Nat} :
  (initial plan).param? i k =
    (plan.functions[i]?.bind (·.params[k]?)).map (·.declared.getD .unknown)
  := by
  rw [param?, function_initial]
  cases plan.functions[i]? with
  | none => rfl
  | some f => simp

theorem param?_initial_of {i k : Nat} (hf : plan.functions[i]? = some f)
    (hp : f.params[k]? = some p) :
  (initial plan).param? i k = some (p.declared.getD .unknown)
  := by
  rw [param?_initial, hf, Option.bind_some, hp]
  rfl

theorem arity_initial {i : Nat} (hf : plan.functions[i]? = some f) :
  ((initial plan).function i).params.length = f.params.length
  := by
  rw [function_initial, hf]
  apply length_map

theorem result_initial {i : Nat} (hf : plan.functions[i]? = some f) :
  ((initial plan).function i).result = f.ret.getD .unknown
  := by
  rw [function_initial, hf]
  rfl

/-- The globals of the plan are there, and nothing is known of them. -/
theorem global?_initial {x : String} :
  (initial plan).global? x = if x ∈ plan.globals.map (·.1) then some .unknown else none
  := by
  simp only [global?, initial]
  induction plan.globals with
  | nil => rfl
  | cons g rest ih =>
    rw [map_cons, lookup_cons_ite, ih, map_cons]
    by_cases hx : x = g.1
    · simp [hx]
    · simp only [hx, mem_cons, if_false, false_or]

end Tables

end Endmark.Typed
