import Endmark.Proofs.Code.Preservation
import Endmark.Proofs.Ir.Spelling

/-!
# Placeholders in raw text

The placeholders that are looked up when raw text gets its code are just those that count as reads
and writes of the instruction.  So each variable of the function that is named there, even if it is
named nowhere else, has a place, and a placeholder is undefined only if it names no variable.
-/

namespace Endmark

open List

namespace Ir

/-- Going from left to right, an opening brace and the first closing one behind it enclose the
group; what stands between two groups has no opening brace, but a group may have some. -/
inductive Meets : List Char → List Char → Prop
  | here {before group rest : List Char} (hbefore : '\x7b' ∉ before) (hgroup : '\x7d' ∉ group) :
      Meets (before ++ '\x7b' :: (group ++ '\x7d' :: rest)) group
  | behind {before passed rest group : List Char} (hbefore : '\x7b' ∉ before)
      (hpassed : '\x7d' ∉ passed) (h : Meets rest group) :
      Meets (before ++ '\x7b' :: (passed ++ '\x7d' :: rest)) group

/-- What stands before the first `sep` has none. -/
theorem notMem_of_cut? {after : List Char} (h : Text.cut? sep cs = some (before, after)) :
  sep ∉ before
  := by
  unfold Text.cut? at h
  split at h <;> cases h
  intro hmem
  simpa using mem_takeWhile_imp hmem

/-- The first pair of braces is a group. -/
theorem rawPieces_group (hbefore : '\x7b' ∉ before) (hgroup : '\x7d' ∉ group) :
  rawPieces (before ++ '\x7b' :: (group ++ '\x7d' :: rest)) =
    .text before :: .group group :: rawPieces rest
  := by
  have hne {c : Char} {cs : List Char} (h : c ∉ cs) : ∀ d ∈ cs, d ≠ c := by
    grind
  rw [rawPieces]
  split
  · rename_i hopened
    cases (cut?_append (hne hbefore)).symm.trans hopened
  · rename_i hopened
    cases (cut?_append (hne hbefore)).symm.trans hopened
    split
    · rename_i hclosed
      cases (cut?_append (hne hgroup)).symm.trans hclosed
    · rename_i hclosed
      cases (cut?_append (hne hgroup)).symm.trans hclosed
      rfl

/-- The groups that are found are those that reading from the left meets. -/
theorem group_mem_rawPieces :
  .group group ∈ rawPieces cs ↔ Meets cs group
  := by
  constructor
  · intro h
    fun_induction rawPieces cs with
    | case1 => simp at h
    | case2 => simp at h
    | case3 cs before after hopened passed rest hclosed ih =>
      have hbefore := notMem_of_cut? hopened
      have hpassed := notMem_of_cut? hclosed
      rw [Text.eq_of_cut? hopened, Text.eq_of_cut? hclosed]
      simp only [mem_cons, reduceCtorEq, false_or, RawPiece.group.injEq] at h
      obtain rfl | h := h
      · exact .here hbefore hpassed
      · exact .behind hbefore hpassed (ih h)
  · intro h
    induction h with
    | here hbefore hgroup => simp [rawPieces_group hbefore hgroup]
    | behind hbefore hpassed _ ih => simp [rawPieces_group hbefore hpassed, ih]

/-- A variable stands in a group as its name behind a percent sign, between blanks. -/
theorem ofGroup?_eq_var :
  Placeholder.ofGroup? group = some (.var x) ↔ Text.trim group = '%' :: x.toList
  := by
  rw [Placeholder.ofGroup?]
  constructor
  · intro h
    split at h <;> cases h
    rename_i hgroup
    rw [hgroup, String.toList_ofList]
  · intro h
    simp [h]

/-- The placeholders of a text are those of the groups in it. -/
theorem mem_placeholders :
  p ∈ placeholders text ↔ ∃ group, Meets text.toList group ∧ Placeholder.ofGroup? group = some p
  := by
  simp only [placeholders, mem_filterMap, ← group_mem_rawPieces]
  constructor
  · rintro ⟨piece, hpiece, hp⟩
    cases piece with
    | text _ => cases hp
    | unclosed _ => cases hp
    | group group => exact ⟨group, hpiece, hp⟩
  · rintro ⟨group, hgroup, hp⟩
    exact ⟨.group group, hgroup, hp⟩

/-- Is it a parameter or a variable of the function? -/
def Function.Declares (f : Function) (x : String) : Prop :=
  x ∈ f.params.map (·.name) ∨ x ∈ f.vars.map (·.name)

theorem Function.type?_eq_none {f : Function} :
  f.type? x = none ↔ ¬f.Declares x
  := by
  simp [type?, Declares]

end Ir

namespace Code.Frame

variable {span : Span}

/-- What is reported of raw text: the groups that stand for nothing, and what follows an opening
brace that is not closed. -/
theorem raw_undefined_iff {frame : Frame} :
  (∃ groups, frame.raw block text = .error (.undefinedPlaceholders groups) ∧ name ∈ groups) ↔
    ∃ piece ∈ Ir.rawPieces text.toList, frame.pieceText piece = .error name
  := by
  obtain ⟨undefined, filled, hname, hfilled⟩ : ∃ (undefined : List String) (filled : String),
      (name ∈ undefined ↔
        ∃ piece ∈ Ir.rawPieces text.toList, frame.pieceText piece = .error name) ∧
      frame.fillIn text =
        if undefined.isEmpty then .ok filled else .error (.undefinedPlaceholders undefined) := by
    refine ⟨_, _, ?_, rfl⟩
    simp only [mem_filterMap, mem_map, exists_exists_and_eq_and]
    apply exists_congr
    intro piece
    apply and_congr_right
    intro _
    cases frame.pieceText piece <;> simp
  -- What is wrong with the text once it is filled in is another fault.
  have hraw (groups : List String) : frame.raw block text = .error (.undefinedPlaceholders groups) ↔
      frame.fillIn text = .error (.undefinedPlaceholders groups) := by
    rw [raw]
    cases frame.fillIn text with
    | error fault =>
      constructor <;> rintro ⟨⟩ <;> rfl
    | ok filled =>
      change ((Machine.readAsm filled).mapError Fault.rawText >>= fun insts =>
        .ok (renameLabels block insts)) = _ ↔ _
      cases Machine.readAsm filled <;> constructor <;> rintro ⟨⟩
  simp only [hraw, ← hname, hfilled]
  split
  · rename_i hempty
    simp [isEmpty_iff.mp hempty]
  · simp

/-- A placeholder for a variable that raw text of a function has is among those that count as reads,
so that the variable has a place.  It is reported as undefined if and only if the function has no
such variable; an opening brace at the end of the text that is not closed is reported as well. -/
theorem placeholder_undefined_iff (hraw : .raw dst text span ∈ f.body)
    (hgroup : Ir.Meets text.toList group) (hx : Ir.Placeholder.ofGroup? group = some (.var x))
    (m : Ir.Module) (block : Nat) :
  Ir.Placeholder.var x ∈ Ir.placeholders text ∧
    (∃ loc, (ofFunction m f).allocation.location? x = some loc) ∧
    ((ofFunction m f).groupText? group = none ↔ ¬f.Declares x) ∧
    ((∃ groups, (ofFunction m f).raw block text = .error (.undefinedPlaceholders groups) ∧
        String.ofList (Text.trim group) ∈ groups) ↔
      ¬f.Declares x ∨
        ∃ rest, .unclosed rest ∈ Ir.rawPieces text.toList ∧ Text.trim rest = Text.trim group)
  := by
  have hmem : Ir.Placeholder.var x ∈ Ir.placeholders text :=
    Ir.mem_placeholders.mpr ⟨group, hgroup, hx⟩
  have hreads : x ∈ (Ir.Instr.raw dst text span).reads :=
    mem_append_right _ (mem_filterMap.mpr ⟨_, hmem, rfl⟩)
  obtain ⟨k, hk⟩ := mem_iff_getElem?.mp hraw
  obtain ⟨loc, hloc⟩ : ∃ loc, (ofFunction m f).allocation.location? x = some loc :=
    exists_location (served_ofFunction m f) ⟨_, hk, .inl hreads⟩
  have htext : (ofFunction m f).groupText? group = none ↔ ¬f.Declares x := by
    rw [← Ir.Function.type?_eq_none, groupText?, hx]
    have hfunction : (ofFunction m f).function = f := rfl
    simp only [variableText?, hloc, hfunction]
    cases f.type? x <;> cases loc <;> simp
  refine ⟨hmem, ⟨loc, hloc⟩, htext, ?_⟩
  rw [raw_undefined_iff, ← htext]
  constructor
  · rintro ⟨piece, hpiece, herror⟩
    cases piece with
    | text cs => cases herror
    | unclosed rest =>
      right
      use rest, hpiece
      exact String.ofList_injective (Except.error.inj herror)
    | group other =>
      left
      have hother : (ofFunction m f).groupText? other = none ∧ Text.trim other = Text.trim group := by
        rw [pieceText] at herror
        split at herror
        · cases herror
        · exact ⟨‹_›, String.ofList_injective (Except.error.inj herror)⟩
      rw [← hother.1, groupText?, groupText?, Ir.Placeholder.ofGroup?, Ir.Placeholder.ofGroup?,
        hother.2]
  · rintro (hnone | ⟨rest, hrest, htrim⟩)
    · use .group group, Ir.group_mem_rawPieces.mpr hgroup
      rw [pieceText, hnone]
    · use .unclosed rest, hrest
      rw [pieceText, htrim]

/-- Its raw text names a variable that is named nowhere else, and one that it does not have. -/
def patched : Ir.Function where
  name := "patched"
  params := []
  result := .i64
  vars := [⟨"x", .i64⟩]
  body := [.raw none "mov \x7b %x \x7d, \x7b%y\x7d" default, .ret none]
  span := default

theorem patched_undefined :
  (∃ loc, (ofFunction default patched).allocation.location? "x" = some loc) ∧
    ∃ groups, (ofFunction default patched).raw 0 "mov \x7b %x \x7d, \x7b%y\x7d" =
      .error (.undefinedPlaceholders groups) ∧ "%y" ∈ groups
  := by
  have hraw : .raw none "mov \x7b %x \x7d, \x7b%y\x7d" default ∈ patched.body := mem_cons_self
  have htext : "mov \x7b %x \x7d, \x7b%y\x7d".toList = "mov ".toList ++ '\x7b' :: (" %x ".toList ++
      '\x7d' :: (", ".toList ++ '\x7b' :: ("%y".toList ++ '\x7d' :: []))) := rfl
  have hx : Ir.Meets "mov \x7b %x \x7d, \x7b%y\x7d".toList " %x ".toList :=
    htext ▸ .here (by decide) (by decide)
  have hy : Ir.Meets "mov \x7b %x \x7d, \x7b%y\x7d".toList "%y".toList :=
    htext ▸ .behind (by decide) (by decide) (.here (by decide) (by decide))
  have hundeclared : ¬patched.Declares "y" := by
    simp [Ir.Function.Declares, patched]
  exact ⟨(placeholder_undefined_iff hraw hx rfl default 0).2.1,
    (placeholder_undefined_iff hraw hy rfl default 0).2.2.2.mpr (.inl hundeclared)⟩

end Code.Frame

end Endmark
