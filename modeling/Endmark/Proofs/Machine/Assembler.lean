import Endmark.Machine.Assembler
import Endmark.Proofs.Machine.Encoding
import Endmark.Proofs.Number.Bytes

/-!
# What assembled code consists of

Assembled code is a row of pieces, one for each instruction.  A label has the offset at which
its piece starts.  A field for a label of the unit holds the distance from the end of the
instruction to the label, and the field for any other symbol is left to be linked.

Jumps that stay short reach their targets, because widening stops only where it changes
nothing, and it gets there before its rounds are used up.
-/

namespace Endmark.Machine

open Number
open Inst
open List Option

/-- The name that a label defines. -/
def Inst.label? {σ : Type} : Inst σ → Option σ
  | .label name => some name
  | _ => none

namespace Assembler

/-! ### Labels -/

/-- The names that instructions define. -/
def defined (insts : List (Inst String)) : List String :=
  insts.filterMap (·.label?)

theorem mem_defined :
  name ∈ defined insts ↔ .label name ∈ insts
  := by
  rw [defined, mem_filterMap]
  constructor
  · rintro ⟨i, hi, hlabel⟩
    cases i <;> cases hlabel
    exact hi
  · intro h
    exact ⟨_, h, rfl⟩

theorem duplicate?_some (h : duplicate? seen names = some name) :
  2 ≤ (seen ++ names).count name
  := by
  induction names generalizing seen with
  | nil => cases h
  | cons first rest ih =>
    rw [duplicate?] at h
    split at h
    case isTrue hseen =>
      cases h
      have hcount : 0 < seen.count name := count_pos_iff.mpr (contains_iff_mem.mp hseen)
      rw [count_append, count_cons_self]
      omega
    case isFalse =>
      rw [perm_middle.count_eq]
      exact ih h

theorem duplicate?_none (h : duplicate? seen names = none) (hseen : seen.Nodup) :
  (seen ++ names).Nodup
  := by
  induction names generalizing seen with
  | nil => rwa [append_nil]
  | cons first rest ih =>
    rw [duplicate?] at h
    split at h
    case isTrue => cases h
    case isFalse hfirst =>
      rw [perm_middle.nodup_iff]
      apply ih h
      rw [nodup_cons]
      exact ⟨fun hmem => hfirst (contains_iff_mem.mpr hmem), hseen⟩

theorem map_labelsFrom (start : Nat) (items : List Item) :
  (labelsFrom start items).map (·.1) = defined (items.map (·.1))
  := by
  induction items generalizing start with
  | nil => rfl
  | cons item rest ih =>
    obtain ⟨i, short⟩ := item
    cases i
    case label name =>
      rw [labelsFrom, map_cons, ih]
      rfl
    all_goals exact ih _

/-! ### Widening -/

theorem map_widenFrom {labels : List (String × Nat)} {start : Nat} {items : List Item} :
  (widenFrom labels start items).map (·.1) = items.map (·.1)
  := by
  induction items generalizing start with
  | nil => rfl
  | cons item rest ih => rw [widenFrom, map_cons, map_cons, ih]

theorem map_relax {items : List Item} :
  (relax fuel items).map (·.1) = items.map (·.1)
  := by
  induction fuel generalizing items with
  | zero => rfl
  | succ fuel ih =>
    rw [relax]
    split
    · rfl
    · rw [ih, widen, map_widenFrom]

theorem mem_widenFrom {start : Nat} (h : (i, true) ∈ widenFrom labels start items) :
  (i, true) ∈ items
  := by
  induction items generalizing start with
  | nil => exact h
  | cons item rest ih =>
    rw [widenFrom, mem_cons] at h
    rcases h with h | h
    · obtain ⟨j, short⟩ := item
      simp only [Prod.mk.injEq, Bool.true_eq, Bool.and_eq_true] at h
      rw [h.1, h.2.1]
      apply mem_cons_self
    · apply mem_cons_of_mem _ (ih h)

/-- What is short after relaxing was short before. -/
theorem mem_relax (h : (i, true) ∈ relax fuel items) :
  (i, true) ∈ items
  := by
  induction fuel generalizing items with
  | zero => exact h
  | succ fuel ih =>
    rw [relax] at h
    split at h
    · exact h
    · exact mem_widenFrom (ih h)

/-- The number of items in their short form. -/
def shorts (items : List Item) : Nat :=
  items.countP (·.2)

/-- Widening changes no form. -/
def Settled (items : List Item) : Prop :=
  (widen items).map (·.2) = items.map (·.2)

/-- A round that changes something makes at least one item long. -/
theorem shorts_widenFrom (labels : List (String × Nat)) (start : Nat) (items : List Item) :
  shorts (widenFrom labels start items) ≤ shorts items ∧
    (shorts items ≤ shorts (widenFrom labels start items) →
      (widenFrom labels start items).map (·.2) = items.map (·.2))
  := by
  induction items generalizing start with
  | nil => exact ⟨le_rfl, fun _ => rfl⟩
  | cons item rest ih =>
    obtain ⟨i, short⟩ := item
    obtain ⟨hle, heq⟩ := ih (start + size (i, short))
    simp only [shorts] at hle heq
    simp only [shorts, widenFrom]
    cases short
    · simpa using ⟨hle, heq⟩
    · cases reaches labels (start + size (i, true)) i
      · constructor
        · simp
          omega
        · simp
          omega
      · simpa using ⟨hle, heq⟩

/-- With fuel for each short jump, relaxation settles. -/
theorem settled_relax (h : shorts items ≤ fuel) :
  Settled (relax fuel items)
  := by
  induction fuel generalizing items with
  | zero =>
    obtain ⟨-, heq⟩ := shorts_widenFrom (labelsFrom 0 items) 0 items
    apply heq
    omega
  | succ fuel ih =>
    rw [relax]
    obtain ⟨hle, heq⟩ := shorts_widenFrom (labelsFrom 0 items) 0 items
    split
    case isTrue hsame => exact hsame
    case isFalse hdiffer =>
      apply ih
      have hlt : ¬ shorts items ≤ shorts (widen items) := fun hge => hdiffer (heq hge)
      omega

/-! ### Pieces -/

/-- An instruction in the code: the form it is in, where it starts, and its bytes. -/
structure Piece where
  inst : Inst String
  short : Bool
  start : Nat
  bytes : List UInt8

/-- Where the instruction ends. -/
def Piece.finish (p : Piece) : Nat :=
  p.start + p.bytes.length

/-- The first piece has the given start, and every other one starts where the one before it
ends. -/
def Consecutive : Nat → List Piece → Prop
  | _, [] => True
  | start, p :: rest => p.start = start ∧ Consecutive p.finish rest

/-- The labels among the pieces, with their offsets. -/
def places (pieces : List Piece) : List (String × Nat) :=
  pieces.filterMap fun p => p.inst.label?.map (·, p.start)

/-- Does the piece refer to a symbol that is none of the labels? -/
def Piece.leaves (labels : List (String × Nat)) (p : Piece) : Bool :=
  p.inst.reference?.any fun name => (labels.lookup name).isNone

/-- The bytes are those of the encoding, but for its field, which has the given value. -/
def Piece.Holds (p : Piece) (value : Int) : Prop :=
  ∃ fixup before after, p.inst.encode p.short =
      .ok ⟨before ++ List.replicate (p.inst.fieldSize p.short) 0 ++ after, some fixup⟩ ∧
    fixup.offset = before.length ∧
    p.bytes = before ++ Number.littleEndianInt (p.inst.fieldSize p.short) value ++ after

/-- The bytes are those of the encoding, and the relocation is for the field of zeros in
them. -/
structure Piece.Relocates (p : Piece) (r : Relocation) : Prop where
  symbol : p.inst.reference? = some r.symbol
  encoded : ∃ fixup, p.inst.encode p.short = .ok ⟨p.bytes, some fixup⟩ ∧
    r.offset = p.start + fixup.offset
  zeros : ∃ before after,
    p.bytes = before ++ List.replicate (p.inst.fieldSize p.short) 0 ++ after ∧
      r.offset = p.start + before.length
  addend : r.addend = (r.offset : Int) - p.finish

/-- What one piece can be: an encoding that refers to nothing, one whose field holds the distance
to a label, and one whose field is left to be linked. -/
inductive Piece.Emitted (labels : List (String × Nat)) (p : Piece) : List Relocation → Prop
  | plain (href : p.inst.reference? = none)
      (hencode : p.inst.encode p.short = .ok ⟨p.bytes, none⟩) : Emitted labels p []
  | inside (name : String) (there : Nat) (href : p.inst.reference? = some name)
      (hlabel : labels.lookup name = some there) (hholds : p.Holds ((there : Int) - p.finish)) :
      Emitted labels p []
  | outside (r : Relocation) (hlabel : labels.lookup r.symbol = none)
      (hrelocates : p.Relocates r) : Emitted labels p [r]

/-- The pieces are what is emitted for the items, with the given labels. -/
structure Listing (labels : List (String × Nat)) (start : Nat) (items : List Item)
    (pieces : List Piece) (code : List UInt8) (relocations : List Relocation) : Prop where
  forms : pieces.map (fun p => (p.inst, p.short)) = items
  consecutive : Consecutive start pieces
  code : code = pieces.flatMap (·.bytes)
  sizes : ∀ p ∈ pieces, size (p.inst, p.short) = p.bytes.length
  offsets : labelsFrom start items = places pieces
  plain : ∀ p ∈ pieces, p.inst.reference? = none → p.inst.encode p.short = .ok ⟨p.bytes, none⟩
  inside : ∀ p ∈ pieces, ∀ name there, p.inst.reference? = some name →
    labels.lookup name = some there → p.Holds ((there : Int) - p.finish)
  outside : List.Forall₂ Piece.Relocates (pieces.filter (·.leaves labels)) relocations

theorem listing_nil {start : Nat} :
  Listing labels start [] [] [] []
  := {
    forms := rfl
    consecutive := trivial
    code := rfl
    sizes := fun _ hp => nomatch hp
    offsets := rfl
    plain := fun _ hp => nomatch hp
    inside := fun _ hp => nomatch hp
    outside := .nil
  }

/-- One more piece in front of a listing. -/
theorem Listing.cons {code : List UInt8} (hp : p.Emitted labels rs)
    (hsize : size (p.inst, p.short) = p.bytes.length)
    (h : Listing labels p.finish items pieces code relocations) :
  Listing labels p.start ((p.inst, p.short) :: items) (p :: pieces) (p.bytes ++ code)
    (rs ++ relocations)
  := by
  exact {
    forms := by rw [map_cons, h.forms]
    consecutive := ⟨rfl, h.consecutive⟩
    code := by rw [h.code, flatMap_cons]
    sizes := by
      rw [forall_mem_cons]
      exact ⟨hsize, h.sizes⟩
    offsets := by
      have hrest := h.offsets
      rw [Piece.finish, ← hsize] at hrest
      rw [labelsFrom, hrest, places, places, filterMap_cons]
      cases p.inst <;> rfl
    plain := by
      rw [forall_mem_cons]
      refine ⟨fun href => ?_, h.plain⟩
      cases hp with
      | plain _ hencode => exact hencode
      | inside name there href' => cases href.symm.trans href'
      | outside r _ hr => cases href.symm.trans hr.symbol
    inside := by
      rw [forall_mem_cons]
      refine ⟨fun name there href hlabel => ?_, h.inside⟩
      cases hp with
      | plain href' => cases href.symm.trans href'
      | inside name' there' href' hlabel' hholds =>
        cases href.symm.trans href'
        cases hlabel.symm.trans hlabel'
        exact hholds
      | outside r hlabel' hr =>
        cases href.symm.trans hr.symbol
        cases hlabel.symm.trans hlabel'
    outside := by
      rw [filter_cons]
      cases hp with
      | plain href =>
        rw [Piece.leaves, href]
        exact h.outside
      | inside name there href hlabel =>
        simp only [Piece.leaves, href, any_some, hlabel]
        exact h.outside
      | outside r hlabel hr =>
        simp only [Piece.leaves, hr.symbol, any_some, hlabel]
        exact .cons hr h.outside
  }

theorem patch_field (before : List UInt8) {after field : List UInt8}
    (h : zeros.length = field.length) :
  patch (before ++ zeros ++ after) before.length field = before ++ field ++ after
  := by
  rw [patch, ← h, ← length_append, drop_left, append_assoc before zeros after,
    take_left]

/-- The bytes of one instruction with its field, if they are known, and what is left to be linked
of it. -/
def fill (labels : List (String × Nat)) (start : Nat) (e : Encoded String) :
    List UInt8 × List Relocation :=
  match e.fixup with
  | none => (e.bytes, [])
  | some fixup =>
    match labels.lookup fixup.target with
    | some there =>
      (patch e.bytes fixup.offset (Number.littleEndianInt fixup.size
        ((there : Int) + fixup.addend - (start + fixup.offset : Nat))), [])
    | none => (e.bytes, [⟨start + fixup.offset, fixup.target, fixup.addend⟩])

theorem emitFrom_eq {start : Nat} :
  emitFrom labels start (item :: rest) = (do
    let e ← item.1.encode item.2
    let (code, relocations) ← emitFrom labels (start + e.bytes.length) rest
    return ((fill labels start e).1 ++ code, (fill labels start e).2 ++ relocations))
  := by
  rw [emitFrom]
  congr 1
  funext e
  obtain ⟨bytes, fixup⟩ := e
  cases fixup with
  | none => rfl
  | some fixup =>
    simp only [fill]
    cases labels.lookup fixup.target <;> rfl

section

variable (labels : List (String × Nat)) (start : Nat) {i : Inst String}

/-- A known field has the distance from the end of the instruction, because the addend is the
distance from there back to the field. -/
theorem fill_inside (hencode : i.encode short = .ok e)
    (hfixup : e.fixup = some fixup) (hlabel : labels.lookup fixup.target = some there) :
  ∃ before after, e.bytes = before ++ replicate (i.fieldSize short) 0 ++ after ∧
    fixup.offset = before.length ∧ (fill labels start e).1 =
      before ++ littleEndianInt (i.fieldSize short)
        ((there : Int) - (start + e.bytes.length : Nat)) ++ after
  := by
  obtain ⟨-, hfields⟩ := encode_refers hencode
  obtain ⟨hwidth, before, after, hbytes, hoffset, haddend⟩ := hfields _ hfixup
  use before, after
  rw [← hwidth]
  use hbytes, hoffset
  have hvalue : (there : Int) + fixup.addend - (start + fixup.offset : Nat) =
      (there : Int) - (start + e.bytes.length : Nat) := by
    rw [hbytes]
    simp
    omega
  simp only [fill, hfixup, hlabel, hvalue]
  rw [hoffset, hbytes]
  apply patch_field
  simp

theorem length_fill (hencode : i.encode short = .ok e) :
  (fill labels start e).1.length = e.bytes.length
  := by
  cases hfixup : e.fixup with
  | none => simp only [fill, hfixup]
  | some fixup =>
    cases hlabel : labels.lookup fixup.target with
    | none => simp only [fill, hfixup, hlabel]
    | some there =>
      obtain ⟨before, after, hbytes, -, hfill⟩ :=
        fill_inside labels start hencode hfixup hlabel
      rw [hfill, hbytes]
      simp

/-- A filled encoding is a piece. -/
theorem emitted_fill (hencode : i.encode short = .ok e) :
  (Piece.mk i short start (fill labels start e).1).Emitted labels (fill labels start e).2
  := by
  obtain ⟨href, hfields⟩ := encode_refers hencode
  obtain ⟨bytes, fixup⟩ := e
  cases fixup with
  | none => exact .plain href.symm hencode
  | some fixup =>
    cases hlabel : labels.lookup fixup.target with
    | some there =>
      have hrest : (fill labels start ⟨bytes, some fixup⟩).2 = [] := by
        simp [fill, hlabel]
      rw [hrest]
      obtain ⟨before, after, rfl, hoffset, hfill⟩ := fill_inside labels start hencode rfl hlabel
      refine .inside _ there href.symm hlabel ⟨fixup, before, after, hencode, hoffset, ?_⟩
      rw [Piece.finish, length_fill labels start hencode]
      exact hfill
    | none =>
      obtain ⟨hwidth, before, after, hbytes, hoffset, haddend⟩ := hfields _ rfl
      simp only [fill, hlabel]
      apply Piece.Emitted.outside _ hlabel
      refine ⟨href.symm, ⟨fixup, hencode, rfl⟩, ⟨before, after, ?_, by rw [hoffset]⟩, ?_⟩
      · rw [← hwidth]
        exact hbytes
      · simp only at hbytes
        rw [Piece.finish, haddend, hbytes, hoffset]
        simp

end

/-- The emitted code is a listing of pieces. -/
theorem exists_listing {start : Nat} (h : emitFrom labels start items = .ok (code, relocations)) :
  ∃ pieces, Listing labels start items pieces code relocations
  := by
  induction items generalizing start code relocations with
  | nil =>
    cases h
    exact ⟨[], listing_nil⟩
  | cons item rest ih =>
    obtain ⟨i, short⟩ := item
    rw [emitFrom_eq] at h
    obtain ⟨e, hencode, h⟩ := of_bind_ok h
    obtain ⟨result, hrest, h⟩ := of_bind_ok h
    cases h
    rw [← length_fill labels start hencode] at hrest
    obtain ⟨pieces, hpieces⟩ := ih hrest
    refine ⟨_, hpieces.cons (p := ⟨i, short, start, _⟩) (emitted_fill labels start hencode) ?_⟩
    rw [size, show i.encode short = _ from hencode, length_fill labels start hencode]

/-! ### Distances -/

/-- Where a piece is in the code. -/
theorem Consecutive.split {start : Nat} (h : Consecutive start pieces) (hp : p ∈ pieces) :
  ∃ before after, pieces.flatMap (·.bytes) = before ++ p.bytes ++ after ∧
    p.start = start + before.length
  := by
  induction pieces generalizing start with
  | nil => cases hp
  | cons first rest ih =>
    obtain ⟨rfl, hrest⟩ := h
    rw [mem_cons] at hp
    rcases hp with rfl | hp
    · exact ⟨[], _, rfl, rfl⟩
    · obtain ⟨before, after, hcode, hstart⟩ := ih hrest hp
      use first.bytes ++ before, after
      constructor
      · rw [flatMap_cons, hcode]
        simp
      · rw [hstart, Piece.finish, length_append, add_assoc]

theorem Consecutive.finish_le (h : Consecutive 0 pieces) (hp : p ∈ pieces) :
  p.finish ≤ (pieces.flatMap (·.bytes)).length
  := by
  obtain ⟨before, after, hcode, hstart⟩ := h.split hp
  rw [Piece.finish, hcode, length_append, length_append]
  omega

theorem mem_places :
  (name, there) ∈ places pieces ↔ ∃ p ∈ pieces, p.inst = .label name ∧ p.start = there
  := by
  rw [places, mem_filterMap]
  constructor
  · rintro ⟨p, hp, hlabel⟩
    refine ⟨p, hp, ?_⟩
    cases hinst : p.inst <;> simp [hinst, label?] at hlabel
    rw [hlabel.1]
    exact ⟨rfl, hlabel.2⟩
  · rintro ⟨p, hp, hinst, rfl⟩
    exact ⟨p, hp, by rw [hinst]; rfl⟩

/-- Where no form changes, short jumps reach their targets. -/
theorem reaches_of_unchanged {start : Nat} (hpieces : Consecutive start pieces)
    (hsizes : ∀ p ∈ pieces, size (p.inst, p.short) = p.bytes.length)
    (h : (widenFrom labels start (pieces.map fun p => (p.inst, p.short))).map (·.2) =
      pieces.map (·.short)) :
  ∀ p ∈ pieces, p.short → reaches labels p.finish p.inst
  := by
  induction pieces generalizing start with
  | nil => exact fun _ hp => nomatch hp
  | cons first rest ih =>
    obtain ⟨rfl, hrest⟩ := hpieces
    rw [forall_mem_cons] at hsizes ⊢
    rw [map_cons, widenFrom, map_cons, map_cons, cons.injEq] at h
    rw [hsizes.1] at h
    constructor
    · intro hshort
      rw [Piece.finish]
      simpa [hshort] using h.1
    · exact ih hrest hsizes.2 h.2

/-! ### Units -/

theorem mem_start (h : (i, true) ∈ start names insts) :
  i.isJump ∧ ∃ name, i.target? = some name ∧ name ∈ names
  := by
  rw [start, List.mem_map] at h
  obtain ⟨j, -, hj⟩ := h
  simp only [Prod.mk.injEq, Bool.and_eq_true, Option.any_eq_true] at hj
  obtain ⟨rfl, hjump, name, htarget, hname⟩ := hj
  exact ⟨hjump, name, htarget, contains_iff_mem.mp hname⟩

/-- The items whose bytes are the code of a unit. -/
def items (insts : List (Inst String)) : List Item :=
  relax insts.length (start (defined insts) insts)

theorem map_items (insts : List (Inst String)) :
  (items insts).map (·.1) = insts
  := by
  rw [items, map_relax, start, List.map_map]
  apply List.map_id

theorem settled_items (insts : List (Inst String)) :
  Settled (items insts)
  := by
  apply settled_relax
  calc shorts (start (defined insts) insts)
      ≤ (start (defined insts) insts).length := countP_le_length
    _ = insts.length := length_map _

/-- Only an instruction without an encoding stops the emission. -/
theorem emitFrom_error {start : Nat} {items : List Item}
    (h : emitFrom labels start items = .error fault) :
  ∃ i ∈ items.map (·.1), i.encode false = .error fault
  := by
  induction items generalizing start with
  | nil => cases h
  | cons item rest ih =>
    obtain ⟨i, short⟩ := item
    rw [emitFrom_eq] at h
    cases hencode : i.encode short with
    | error fault' =>
      rw [hencode] at h
      cases h
      exact ⟨i, mem_cons_self, encode_error hencode⟩
    | ok e =>
      simp only [hencode, bind, Except.bind] at h
      cases hrest : emitFrom labels (start + e.bytes.length) rest with
      | error fault' =>
        rw [hrest] at h
        cases h
        obtain ⟨j, hj, hfault⟩ := ih hrest
        exact ⟨j, mem_cons_of_mem _ hj, hfault⟩
      | ok result =>
        rw [hrest] at h
        cases h

end Assembler

open Assembler

/-- What the error says of the instructions. -/
def AsmError.Explains (insts : List (Inst String)) : AsmError → Prop
  | .line _ _ => False
  | .memory fault => ∃ i ∈ insts, i.encode false = .error fault
  | .duplicateLabel name => 2 ≤ (defined insts).count name
  | .undefinedLabel name =>
    isUnitLabel name = true ∧ name ∉ defined insts ∧ ∃ i ∈ insts, i.target? = some name

/-- The three ways in which assembling fails, in their order. -/
theorem assemble_eq :
  assemble insts =
    match duplicate? [] (defined insts) with
    | some name => .error (.duplicateLabel name)
    | none =>
      match (insts.filterMap (·.target?)).find?
        fun t => isUnitLabel t && !(defined insts).contains t with
      | some t => .error (.undefinedLabel t)
      | none =>
        match emitFrom (labelsFrom 0 (items insts)) 0 (items insts) with
        | .ok (code, relocations) => .ok ⟨code, relocations, labelsFrom 0 (items insts)⟩
        | .error fault => .error (.memory fault)
  := by
  unfold assemble
  generalize hnames : filterMap _ insts = names
  have hdefined : names = defined insts := by
    rw [← hnames]
    congr 1
    funext i
    cases i <;> rfl
  subst hdefined
  rfl

/-- How assembling goes: there is a fault, or the items are emitted. -/
theorem assemble_cases :
  (∃ err, assemble insts = .error err ∧ err.Explains insts) ∨
    (defined insts).Nodup ∧ ∃ code relocations,
      emitFrom (labelsFrom 0 (items insts)) 0 (items insts) = .ok (code, relocations) ∧
      assemble insts = .ok ⟨code, relocations, labelsFrom 0 (items insts)⟩
  := by
  cases hduplicate : duplicate? [] (defined insts) with
  | some name =>
    left
    use .duplicateLabel name
    simp only [assemble_eq, hduplicate]
    exact ⟨trivial, duplicate?_some hduplicate⟩
  | none =>
    have hnodup := duplicate?_none hduplicate nodup_nil
    cases hmissing : (insts.filterMap (·.target?)).find?
        fun t => isUnitLabel t && !(defined insts).contains t with
    | some name =>
      left
      use .undefinedLabel name
      have hfound := find?_some hmissing
      have hmem := mem_of_find?_eq_some hmissing
      rw [mem_filterMap] at hmem
      simp only [Bool.and_eq_true, Bool.not_eq_true', ← Bool.not_eq_true,
        contains_iff_mem] at hfound
      simp only [assemble_eq, hduplicate, hmissing]
      exact ⟨trivial, hfound.1, hfound.2, hmem⟩
    | none =>
      cases hemit : emitFrom (labelsFrom 0 (items insts)) 0 (items insts) with
      | error fault =>
        left
        use .memory fault
        have hfault := emitFrom_error hemit
        rw [map_items] at hfault
        simp only [assemble_eq, hduplicate, hmissing, hemit]
        exact ⟨trivial, hfault⟩
      | ok result =>
        right
        use hnodup, result.1, result.2
        simp only [assemble_eq, hduplicate, hmissing, hemit]
        exact ⟨trivial, trivial⟩

/-- What is emitted when assembling goes through. -/
theorem exists_listing_of_assemble (h : assemble insts = .ok a) :
  (defined insts).Nodup ∧
    emitFrom (labelsFrom 0 (items insts)) 0 (items insts) = .ok (a.code, a.relocations) ∧
    a.labels = labelsFrom 0 (items insts) ∧
    ∃ pieces, Listing (labelsFrom 0 (items insts)) 0 (items insts) pieces a.code a.relocations
  := by
  rcases assemble_cases with ⟨err, herr, -⟩ | ⟨hnodup, code, relocations, hemit, hok⟩
  · cases h.symm.trans herr
  · cases h.symm.trans hok
    exact ⟨hnodup, hemit, rfl, exists_listing hemit⟩

/-- A name without a point is no label of a unit. -/
theorem isUnitLabel_eq_false (h : '.' ∉ name.toList) :
  isUnitLabel name = false
  := by
  rw [isUnitLabel]
  cases hlist : name.toList with
  | nil => rfl
  | cons c rest =>
    rw [hlist, mem_cons, not_or] at h
    simpa using fun heq => h.1 heq.symm

/-- Apart from the field of the encoding, the bytes are those of the encoding, and the field leads
from the end of the instruction to the offset. -/
def Assembler.Piece.LeadsTo (p : Piece) (there : Nat) : Prop :=
  ∃ fixup before field after, p.inst.encode p.short =
      .ok ⟨before ++ List.replicate field.length 0 ++ after, some fixup⟩ ∧
    before.length = fixup.offset ∧
    p.bytes = before ++ field ++ after ∧
    field.length = p.inst.fieldSize p.short ∧
    (p.finish : Int) + Decoding.signed field = there

/-- The bytes are those of the encoding, and the relocation is for its field, four zeros in them:
what is put there leads from the end of the instruction to the symbol. -/
structure Assembler.Piece.LeftTo (code : List UInt8) (p : Piece) (r : Relocation) : Prop where
  symbol : p.inst.reference? = some r.symbol
  encoded : ∃ fixup, p.inst.encode p.short = .ok ⟨p.bytes, some fixup⟩ ∧
    r.offset = p.start + fixup.offset
  after_start : p.start ≤ r.offset
  before_finish : r.offset + 4 ≤ p.finish
  zeros : (code.drop r.offset).take 4 = [0, 0, 0, 0]
  addend : ∀ target : Int, target + r.addend - r.offset = target - p.finish

/-- The pieces are the instructions as they are in the code. -/
structure Assembled.Consists (a : Assembled) (insts : List (Inst String))
    (pieces : List Piece) : Prop where
  insts : pieces.map (·.inst) = insts
  consecutive : Consecutive 0 pieces
  code : a.code = pieces.flatMap (·.bytes)
  /-- A label has the offset at which it is. -/
  labels : ∀ name there, a.labels.lookup name = some there ↔
    ∃ p ∈ pieces, p.inst = .label name ∧ p.start = there
  /-- What refers to nothing is encoded as it is. -/
  plain : ∀ p ∈ pieces, p.inst.reference? = none → p.inst.encode p.short = .ok ⟨p.bytes, none⟩
  /-- What refers to a label leads to it. -/
  inside : ∀ p ∈ pieces, ∀ name there, p.inst.reference? = some name →
    a.labels.lookup name = some there → p.LeadsTo there
  /-- What refers to another symbol is left to be linked, in order. -/
  outside : List.Forall₂ (Piece.LeftTo a.code) (pieces.filter (·.leaves a.labels)) a.relocations

section

variable {code : List UInt8}
  (h : Listing (labelsFrom 0 (items insts)) 0 (items insts) pieces code relocations)

include h

theorem Assembler.Listing.mem_items (hp : p ∈ pieces) :
  (p.inst, p.short) ∈ items insts
  := by
  rw [← h.forms]
  exact mem_map_of_mem hp

theorem Assembler.Listing.reaches (hp : p ∈ pieces) (hshort : p.short) :
  reaches (labelsFrom 0 (items insts)) p.finish p.inst
  := by
  apply reaches_of_unchanged h.consecutive h.sizes _ p hp hshort
  have hsettled := settled_items insts
  rw [Settled, widen] at hsettled
  rw [h.forms, hsettled, ← h.forms, List.map_map]
  rfl

theorem Assembler.Listing.lookup_labels (hnodup : (defined insts).Nodup) (name : String) :
  (labelsFrom 0 (items insts)).lookup name = some there ↔
    ∃ p ∈ pieces, p.inst = .label name ∧ p.start = there
  := by
  rw [← mem_places, ← h.offsets]
  constructor
  · exact mem_of_lookup_eq_some
  · apply lookup_eq_some_of_mem
    rw [map_labelsFrom, map_items]
    exact hnodup

/-- Only jumps to labels of the unit are short. -/
theorem Assembler.Listing.fieldSize_of_leaves (hp : p ∈ pieces)
    (hleaves : p.leaves (labelsFrom 0 (items insts))) :
  p.inst.fieldSize p.short = 4
  := by
  rw [fieldSize, if_neg]
  intro hnear
  rw [Bool.and_eq_true] at hnear
  have hmem := h.mem_items hp
  rw [hnear.2] at hmem
  obtain ⟨-, name, htarget, hname⟩ := mem_start (mem_relax hmem)
  rw [Piece.leaves, reference?_of_isJump hnear.1, htarget, any_some,
    isNone_iff_eq_none, lookup_eq_none_iff_notMem, map_labelsFrom, map_items] at hleaves
  exact hleaves hname

/-- What no label settles is left to be linked. -/
theorem Assembler.Listing.leftTo (hp : p ∈ pieces)
    (hleaves : p.leaves (labelsFrom 0 (items insts))) (hr : p.Relocates r) :
  p.LeftTo code r
  := by
  obtain ⟨before, after, hbytes, hoffset⟩ := hr.zeros
  obtain ⟨front, back, hcode, hstart⟩ := h.consecutive.split hp
  rw [h.fieldSize_of_leaves hp hleaves] at hbytes
  exact {
    symbol := hr.symbol
    encoded := hr.encoded
    after_start := by omega
    before_finish := by
      rw [Piece.finish, hbytes]
      simp only [length_append, length_replicate]
      omega
    zeros := by
      have hfront : r.offset = (front ++ before).length := by
        rw [length_append]
        omega
      rw [h.code, hcode, hbytes, hfront, append_assoc, append_assoc, append_assoc,
        ← append_assoc, drop_left]
      rfl
    addend := by
      rw [hr.addend]
      omega
  }

theorem Assembler.Listing.leftTo_outside :
  Forall₂ (Piece.LeftTo code) (pieces.filter (·.leaves (labelsFrom 0 (items insts))))
    relocations
  := by
  have hleaves : ∀ p ∈ pieces.filter (·.leaves (labelsFrom 0 (items insts))),
      p ∈ pieces ∧ p.leaves (labelsFrom 0 (items insts)) := fun p hp =>
    mem_filter.mp hp
  apply ((forall₂_and_left _ _).mpr ⟨hleaves, h.outside⟩).imp
  rintro p r ⟨⟨hp, hleaves⟩, hr⟩
  exact h.leftTo hp hleaves hr

variable (hnodup : (defined insts).Nodup) (hlength : code.length < 2 ^ 31)

include hnodup hlength

/-- A distance fits in its field. -/
theorem Assembler.Listing.fits (hp : p ∈ pieces) (href : p.inst.reference? = some name)
    (hlabel : (labelsFrom 0 (items insts)).lookup name = some there) :
  fitsSigned (8 * p.inst.fieldSize p.short) ((there : Int) - p.finish)
  := by
  rw [fieldSize]
  split
  case isTrue hnear =>
    rw [Bool.and_eq_true] at hnear
    have hreaches := h.reaches hp hnear.2
    rw [reference?_of_isJump hnear.1] at href
    simpa [Assembler.reaches, href, hlabel] using hreaches
  case isFalse =>
    obtain ⟨q, hq, -, rfl⟩ := (h.lookup_labels hnodup name).mp hlabel
    have hpfinish := h.consecutive.finish_le hp
    have hqfinish := h.consecutive.finish_le hq
    rw [← h.code] at hpfinish hqfinish
    rw [Piece.finish] at hqfinish
    rw [fitsSigned_iff]
    omega

theorem Assembler.Listing.leadsTo (hp : p ∈ pieces) (href : p.inst.reference? = some name)
    (hlabel : (labelsFrom 0 (items insts)).lookup name = some there) :
  p.LeadsTo there
  := by
  obtain ⟨fixup, before, after, hencode, hoffset, hbytes⟩ := h.inside p hp name there href hlabel
  have hsize : 0 < p.inst.fieldSize p.short := by
    rw [fieldSize]
    split <;> decide
  refine ⟨fixup, before, _, after, ?_, hoffset.symm, hbytes, length_littleEndianInt, ?_⟩
  · rw [length_littleEndianInt, hencode]
  · rw [signed_littleEndianInt hsize (h.fits hnodup hlength hp href hlabel)]
    omega

/-- Assembled code consists of the pieces of its listing. -/
theorem Assembler.Listing.consists :
  (Assembled.mk code relocations (labelsFrom 0 (items insts))).Consists insts pieces
  := by
  exact {
    insts := by
      rw [← map_items insts, ← h.forms, List.map_map]
      rfl
    consecutive := h.consecutive
    code := h.code
    labels := fun name _ => h.lookup_labels hnodup name
    plain := h.plain
    inside := fun p hp name there => h.leadsTo hnodup hlength hp
    outside := h.leftTo_outside
  }

end

/-- Assembled code consists of its instructions, with all distances within the unit known and all
others left to be linked.  Assembling fails only where a label is defined twice, a jump or call
has an undefined target that has to be in the unit, or an instruction has no encoding. -/
theorem assemble_consists (insts : List (Inst String)) :
  (∀ a, assemble insts = .ok a → a.code.length < 2 ^ 31 → ∃ pieces, a.Consists insts pieces) ∧
    ∀ err, assemble insts = .error err → err.Explains insts
  := by
  constructor
  · rintro ⟨code, relocations, labels⟩ h hlength
    obtain ⟨hnodup, -, rfl, pieces, hpieces⟩ := exists_listing_of_assemble h
    exact ⟨pieces, hpieces.consists hnodup hlength⟩
  · intro err h
    rcases assemble_cases with ⟨_, herr, hexplains⟩ | ⟨-, _, _, -, hok⟩
    · cases h.symm.trans herr
      exact hexplains
    · cases h.symm.trans hok

/-! ### Fields -/

theorem Assembler.Consecutive.pairwise {start : Nat} (h : Consecutive start pieces) :
  pieces.Pairwise fun p q => p.finish ≤ q.start
  := by
  induction pieces generalizing start with
  | nil => exact .nil
  | cons first rest ih =>
    refine .cons (fun q hq => ?_) (ih h.2)
    obtain ⟨before, -, -, hstart⟩ := h.2.split hq
    omega

section

variable (h : List.Forall₂ (Piece.LeftTo code) pieces relocations)

include h

theorem Assembler.exists_leftTo (hr : r ∈ relocations) :
  ∃ p ∈ pieces, p.LeftTo code r
  := by
  induction h with
  | nil => cases hr
  | cons hfirst _ ih =>
    rcases mem_cons.mp hr with rfl | hr
    · exact ⟨_, mem_cons_self, hfirst⟩
    · obtain ⟨p, hp, hleft⟩ := ih hr
      exact ⟨p, mem_cons_of_mem _ hp, hleft⟩

theorem Assembler.pairwise_of_leftTo (hpieces : pieces.Pairwise fun p q => p.finish ≤ q.start) :
  relocations.Pairwise fun r s => r.offset + 4 ≤ s.offset
  := by
  induction h with
  | nil => exact .nil
  | cons hfirst hrest ih =>
    rw [pairwise_cons] at hpieces ⊢
    refine ⟨fun s hs => ?_, ih hpieces.2⟩
    obtain ⟨q, hq, hleft⟩ := exists_leftTo hrest hs
    have hbefore := hpieces.1 q hq
    have hend := hfirst.before_finish
    have hstart := hleft.after_start
    omega

end

/-- The fields that are left to be linked are in the code, one behind the other, and their addends
count from the end of an instruction. -/
theorem fields_of_assemble (h : assemble insts = .ok a) :
  a.relocations.Pairwise (fun r s => r.offset + 4 ≤ s.offset) ∧
    ∀ r ∈ a.relocations, r.offset + 4 ≤ a.code.length ∧
      ∃ stop ≤ a.code.length, r.addend = (r.offset : Int) - stop
  := by
  obtain ⟨-, -, -, pieces, hpieces⟩ := exists_listing_of_assemble h
  have hleft := hpieces.leftTo_outside
  refine ⟨pairwise_of_leftTo hleft (hpieces.consecutive.pairwise.sublist filter_sublist),
    fun r hr => ?_⟩
  obtain ⟨p, hp, hr⟩ := exists_leftTo hleft hr
  have hfinish := hpieces.consecutive.finish_le (mem_of_mem_filter hp)
  rw [← hpieces.code] at hfinish
  refine ⟨hr.before_finish.trans hfinish, p.finish, hfinish, ?_⟩
  have haddend := hr.addend 0
  omega

/-- Code is not empty when one of its instructions has bytes and refers to nothing. -/
theorem length_pos_of_assemble (h : assemble insts = .ok a) (hi : i ∈ insts)
    (href : i.reference? = none) (hbytes : ∀ short e, i.encode short = .ok e → 0 < e.bytes.length) :
  0 < a.code.length
  := by
  obtain ⟨-, -, -, pieces, hpieces⟩ := exists_listing_of_assemble h
  rw [← map_items insts, ← hpieces.forms, List.map_map, List.mem_map] at hi
  obtain ⟨p, hp, rfl⟩ := hi
  have hpositive : 0 < p.bytes.length := hbytes _ _ (hpieces.plain p hp href)
  have hfinish : p.start + p.bytes.length ≤ a.code.length := by
    rw [hpieces.code]
    exact hpieces.consecutive.finish_le hp
  exact hpositive.trans_le (Nat.le_of_add_left_le hfinish)

/-- Counts a number in memory down and goes on elsewhere. -/
def countingDown : List (Inst String) :=
  [.label "count", .aluStoreImm .sub (.rip "left") 1, .jcc .ne "count", .call "report",
    .jmp ".end", .nop, .label ".end", .ret]

theorem countingDown_consists :
  (∃ a, assemble countingDown = .ok a ∧ a.code.length < 2 ^ 31 ∧
    a.relocations = [⟨3, "left", -5⟩, ⟨11, "report", -4⟩] ∧
    ∃ pieces, a.Consists countingDown pieces) ∧
  assemble (.jmp ".start" :: countingDown) = .error (.undefinedLabel ".start") ∧
    (AsmError.undefinedLabel ".start").Explains (.jmp ".start" :: countingDown)
  := by
  have hok : assemble countingDown = .ok
      ⟨[0x48, 0x83, 0x2d, 0, 0, 0, 0, 1, 0x75, 0xf6, 0xe8, 0, 0, 0, 0, 0xeb, 1, 0x90, 0xc3],
        [⟨3, "left", -5⟩, ⟨11, "report", -4⟩], [("count", 0), (".end", 18)]⟩ := by
    decide +kernel
  have herror : assemble (.jmp ".start" :: countingDown) = .error (.undefinedLabel ".start") := by
    decide +kernel
  constructor
  · exact ⟨_, hok, by decide, rfl, (assemble_consists countingDown).1 _ hok (by decide)⟩
  · exact ⟨herror, (assemble_consists _).2 _ herror⟩

end Endmark.Machine
