import Endmark.Ir.Reach
import Endmark.Proofs.Saturation
import Endmark.Proofs.Text.Pieces

/-!
# Functions that are kept

The functions that are kept from some roots are those that can be reached from them along calls
and along the words of raw text.
-/

namespace Endmark.Ir

open List Bool

/-- The characters of words are the letters and digits, the underscore and the point. -/
theorem isWordChar_iff :
  isWordChar c ↔ 'A' ≤ c ∧ c ≤ 'Z' ∨ 'a' ≤ c ∧ c ≤ 'z' ∨ '0' ≤ c ∧ c ≤ '9' ∨ c = '_' ∨ c = '.'
  := by
  simp [isWordChar, Text.isAlphanumeric, Char.isAlphanum, Char.isAlpha, Char.isUpper, Char.isLower,
    Char.isDigit, Char.le_def]
  tauto

/-- Has the text the word, as long as it can be on both sides? -/
def HasWord (text word : String) : Prop :=
  ∃ before after, text.toList = before ++ word.toList ++ after ∧
    Text.IsPiece (!isWordChar ·) before word.toList after

/-- An instruction names the function that it calls, and a raw one the words of its text. -/
def Instr.Names : Instr → String → Prop
  | .call _ callee _, name => callee = name
  | .raw _ text _, name => HasWord text name
  | _, _ => False

/-- A function asks for those that its instructions name. -/
def Function.Asks (f g : Function) : Prop :=
  ∃ i ∈ f.body, i.Names g.name

theorem mem_rawWords :
  word ∈ rawWords text ↔ HasWord text word
  := by
  rw [rawWords, HasWord, ← Text.mem_pieces, mem_map]
  constructor
  · rintro ⟨piece, hpiece, rfl⟩
    rwa [String.toList_ofList]
  · exact fun h => ⟨_, h, String.ofList_toList⟩

theorem mem_mentions {i : Instr} :
  name ∈ i.mentions ↔ i.Names name
  := by
  cases i <;> simp [Instr.mentions, Instr.Names, mem_rawWords, eq_comm]

/-- When no two functions have one name, the name of a function means it. -/
theorem functionNamed?_name (hnodup : (functions.map (·.name)).Nodup) (hf : f ∈ functions) :
  functionNamed? functions f.name = some f
  := by
  have hsome : (functionNamed? functions f.name).isSome := by
    rw [functionNamed?, find?_isSome]
    exact ⟨f, mem_reverse.mpr hf, beq_self_eq_true _⟩
  obtain ⟨g, hg⟩ := Option.isSome_iff_exists.mp hsome
  have hmem : g ∈ functions := mem_reverse.mp (mem_of_find?_eq_some hg)
  have hname : g.name = f.name := by simpa using find?_some hg
  rw [hg, inj_on_of_nodup_map hnodup hmem hf hname]

/-- The names that a round adds. -/
def freshNames (functions : List Function) (needed pending : List String) : List String :=
  (pending.filter fun name =>
    !needed.contains name && (functionNamed? functions name).isSome).eraseDups

theorem mem_freshNames :
  name ∈ freshNames functions needed pending ↔
    name ∈ functions.map (·.name) ∧ name ∉ needed ∧ name ∈ pending
  := by
  simp only [freshNames, mem_eraseDups, mem_filter, and_eq_true, functionNamed?,
    not_eq_true', contains_eq_mem, decide_eq_false_iff_not, find?_isSome,
    mem_reverse, mem_map, beq_iff_eq]
  tauto

theorem reachFrom_eq {fuel : Nat} {pending : List String} :
  reachFrom functions fuel needed pending =
    saturate (freshNames functions) (·.flatMap (mentionedBy functions)) fuel needed pending
  := by
  induction fuel generalizing needed pending with
  | zero => rfl
  | succ fuel ih =>
    rw [reachFrom]
    simp only [ih]
    rfl

theorem mem_reachable :
  name ∈ reachable functions roots ↔
    Reached (functions.map (·.name)) (· ∈ roots) (fun f g => g ∈ mentionedBy functions f) name
  := by
  have hfuel : (functions.map (·.name)).length < functions.length + 1 := by simp
  have hnext (found : List String) (name : String) :
      name ∈ found.flatMap (mentionedBy functions) ↔ ∃ f ∈ found, name ∈ mentionedBy functions f :=
    mem_flatMap
  rw [reachable, reachFrom_eq]
  exact mem_saturate (fun pending name => name ∈ pending) (fun _ _ _ => mem_freshNames) hnext hfuel

/-- A function is kept when it can be reached from the roots. -/
theorem mem_keepReached (hnodup : (functions.map (·.name)).Nodup) :
  f ∈ keepReached functions roots ↔ Reached functions (·.name ∈ roots) Function.Asks f
  := by
  rw [keepReached, mem_filter, contains_iff_mem, mem_reachable]
  constructor
  · rintro ⟨hf, h⟩
    generalize hname : f.name = name at h
    induction h generalizing f with
    | start _ h => exact .start hf (hname ▸ h)
    | @next other _ _ _ hmentioned ih =>
      unfold mentionedBy at hmentioned
      split at hmentioned
      case h_1 g hg =>
        obtain ⟨i, hi, hmention⟩ := mem_flatMap.mp hmentioned
        have hother : g.name = other := by simpa using find?_some hg
        exact .next hf (ih (mem_reverse.mp (mem_of_find?_eq_some hg)) hother)
          ⟨i, hi, mem_mentions.mp (hname ▸ hmention)⟩
      case h_2 => cases hmentioned
  · intro h
    refine ⟨h.mem, ?_⟩
    induction h with
    | start hf h => exact .start (mem_map_of_mem hf) h
    | next hg hf h ih =>
      obtain ⟨i, hi, hnames⟩ := h
      refine .next (mem_map_of_mem hg) ih ?_
      rw [mentionedBy, functionNamed?_name hnodup hf.mem]
      exact mem_flatMap.mpr ⟨i, hi, mem_mentions.mpr hnames⟩

open Classical in
/-- Of functions with names of their own, those that can be reached from the roots are kept, in
their order.  Doing so once more changes nothing, and what a kept function calls is kept. -/
theorem keepReached_eq_filter (hnodup : (functions.map (·.name)).Nodup) (roots : List String) :
  keepReached functions roots =
      functions.filter (fun f => Reached functions (·.name ∈ roots) Function.Asks f) ∧
    keepReached (keepReached functions roots) roots = keepReached functions roots ∧
    ∀ f ∈ keepReached functions roots, ∀ g ∈ functions, ∀ dst args,
      .call dst g.name args ∈ f.body → g ∈ keepReached functions roots
  := by
  have hclosed {f g : Function} (hf : f ∈ keepReached functions roots) (hg : g ∈ functions)
      (h : f.Asks g) : g ∈ keepReached functions roots :=
    (mem_keepReached hnodup).mpr (.next hg ((mem_keepReached hnodup).mp hf) h)
  have hkept : ((keepReached functions roots).map (·.name)).Nodup :=
    hnodup.sublist (List.filter_sublist.map _)
  refine ⟨List.filter_congr fun f hf => ?_, List.filter_eq_self.mpr fun f hf => ?_,
    fun f hf g hg dst args hcall => hclosed hf hg ⟨_, hcall, rfl⟩⟩
  · rw [Bool.eq_iff_iff, decide_eq_true_iff, ← mem_keepReached hnodup, keepReached, List.mem_filter]
    exact (and_iff_right hf).symm
  · -- what leads from the roots to a kept function is kept as well
    refine (List.mem_filter.mp ((mem_keepReached hkept).mpr ?_)).2
    have hreached := (mem_keepReached hnodup).mp hf
    induction hreached with
    | start hg hroot => exact .start hf hroot
    | next hg hreached hasks ih =>
      exact .next hf (ih ((mem_keepReached hnodup).mpr hreached)) hasks

/-- A function that calls another one and has a text. -/
def handingOn (name callee text : String) : Function where
  name := name
  params := []
  result := .i64
  vars := []
  body := [.call none callee [], .raw none text .nowhere, .ret none]
  span := .nowhere

/-- Of these functions `f` and `g` name each other, and nothing names `idle`. -/
def inCircles : List Function :=
  [handingOn "f" "g" "", handingOn "idle" "f" "", handingOn "g" "print" "call f.idle;f"]

theorem inCircles_keepReached :
  (inCircles.map (·.name)).Nodup ∧
    (keepReached inCircles ["f", "nowhere"]).map (·.name) = ["f", "g"] ∧
    keepReached (keepReached inCircles ["f", "nowhere"]) ["f", "nowhere"] =
      keepReached inCircles ["f", "nowhere"]
  := by
  have hnodup : (inCircles.map (·.name)).Nodup := by decide
  exact ⟨hnodup, by decide +kernel, (keepReached_eq_filter hnodup _).2.1⟩

end Endmark.Ir
