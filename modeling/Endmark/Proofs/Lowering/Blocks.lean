import Endmark.Proofs.Ir.Regular
import Endmark.Proofs.Lowering.Scoping

/-!
# What is lowered can be written

Temporaries, labels and the names of a raw block with its number behind them can be written,
and what a block of the intermediate language is read as could be written before.
-/

namespace Endmark.Ir

/-- What can be written. -/
def written : Vocabulary where
  var x := isName x = true
  global x := isName x = true ∧ Read.globalOperand x = .global x
  callee f := isName f = true
  label x := isWord x = true ∧ x ≠ "var"
  offset _ := True
  raw := True

theorem Operand.isWritten_of_uses {o : Operand} (h : o.Uses written n) (hn : n ≤ Number.wordCount) :
  o.isWritten
  := by
  cases o with
  | var x => apply h
  | global x =>
    obtain ⟨hname, hoperand⟩ := h
    simp [isWritten, hname, hoperand]
  | str index => exact decide_eq_true (lt_of_lt_of_le h hn)
  | _ => rfl

theorem Place.isWritten_of_uses {p : Place} (h : p.Uses written) :
  p.isWritten
  := by
  cases p with
  | var x => apply h
  | global x => apply h.1

/-- Instructions that name what can be written can be written, and do not start a
declaration. -/
theorem Instr.isWritten_of_uses {i : Instr} (h : i.Uses written n) (hn : n ≤ Number.wordCount) :
  i.isWritten ∧ i ≠ .label "var"
  := by
  have ho {o : Operand} (ho : o.Uses written n) : o.isWritten :=
    Operand.isWritten_of_uses ho hn
  have hp {p : Place} (hp : p.Uses written) : p.isWritten :=
    Place.isWritten_of_uses hp
  cases i with
  | label name => exact ⟨h.1, fun heq => h.2 (by cases heq; rfl)⟩
  | move | unary | alloc => simp [isWritten, hp h.1, ho h.2]
  | binary => simp [isWritten, hp h.1, h.2.1, ho h.2.2.1, ho h.2.2.2]
  | call dst callee args =>
    have hargs : args.all (·.isWritten) :=
      List.all_eq_true.mpr fun o hmem => ho (h.2.2 o hmem)
    have hcallee : isName callee := h.2.1
    cases dst with
    | none => simp only [isWritten, hcallee, hargs]; simp
    | some dst => simp only [isWritten, Option.all_some, hp (h.1 dst rfl), hcallee, hargs]; simp
  | branch =>
    obtain ⟨hcond, hyes, hno⟩ := h
    simp [isWritten, ho hcond, hyes.1, hno.1]
  | jump => simp [isWritten, h.1]
  | load => simp [isWritten, hp h.1, ho h.2.1]
  | store => simp [isWritten, ho h.1, ho h.2.2]
  | free => simp [isWritten, ho h]
  | ret value =>
    cases value with
    | none => simp [isWritten]
    | some o => simp [isWritten, ho (h o rfl)]
  | raw dst =>
    cases dst with
    | none => simp [isWritten]
    | some dst => simp [isWritten, hp (h.2 dst rfl)]

/-! ### Names with numbers -/

theorem toList_toString :
  (toString n).toList = Nat.toDigits 10 n
  := by
  simp

theorem isNameChar_of_mem_toDigits (h : c ∈ Nat.toDigits 10 n) :
  isNameChar c
  := isNameChar_of_isDigit (Nat.isDigit_of_mem_toDigits (by decide) (by decide) h)

/-- Temporaries are names. -/
theorem isName_toString (n : Nat) :
  isName (toString n)
  := by
  simp only [isName, toList_toString, Bool.and_eq_true, List.all_eq_true]
  refine ⟨?_, fun c hc => isNameChar_of_mem_toDigits hc⟩
  simp

/-- A word that has a character other than those of words with a meaning is a word. -/
theorem written_label (hx : x.toList = c :: cs) (hc : startsWord c) (hcs : ∀ d ∈ cs, isNameChar d)
    (hnan : x ≠ "NaN") (hinf : x ≠ "inf") (hvar : x ≠ "var") :
  written.label x
  := by
  refine ⟨?_, hvar⟩
  simp only [isWord, hx, List.head?_cons, Option.any_some, hc, List.all_cons,
    isNameChar_of_startsWord hc, true_and, Bool.and_eq_true, List.all_eq_true, bne_iff_ne]
  exact ⟨⟨hcs, hnan⟩, hinf⟩

end Endmark.Ir

namespace Endmark.Lowering

open Ir (WordType Operand Place Instr isName isWord isNameChar startsWord written)

/-- Labels are words. -/
theorem written_labelName (i : Nat) :
  written.label (labelName i)
  := by
  have hlist : (labelName i).toList = 'L' :: Nat.toDigits 10 i := by
    simp [labelName]
  have hne {x : String} (hx : x.toList.head? ≠ some 'L') : labelName i ≠ x := by
    rintro rfl
    rw [hlist] at hx
    apply hx rfl
  apply Ir.written_label hlist (by decide)
  · exact fun d hd => Ir.isNameChar_of_mem_toDigits hd
  all_goals
    apply hne
    decide

theorem toList_ownName :
  (ownName number name).toList = name.toList ++ '.' :: 'a' :: Nat.toDigits 10 number
  := by
  simp [ownName]

/-- A name with the number of a block behind it is a name. -/
theorem isName_ownName (h : isName name) :
  isName (ownName number name)
  := by
  simp only [isName, Bool.and_eq_true, List.all_eq_true] at h ⊢
  rw [toList_ownName]
  constructor
  · simp
  · intro c hc
    simp only [List.mem_append, List.mem_cons] at hc
    obtain hc | rfl | rfl | hc := hc
    · apply h.2 c hc
    · decide
    · decide
    · apply Ir.isNameChar_of_mem_toDigits hc

/-- A label with the number of a block behind it is one that can be written. -/
theorem written_ownName (h : isWord name) :
  written.label (ownName number name)
  := by
  have hne {x : String} (hx : '.' ∉ x.toList) : ownName number name ≠ x := by
    rintro rfl
    apply hx
    rw [toList_ownName]
    simp
  simp only [isWord, Bool.and_eq_true, List.all_eq_true, Option.any_eq_true] at h
  obtain ⟨⟨⟨⟨c, hc, hstart⟩, hall⟩, _⟩, _⟩ := h
  obtain ⟨cs, hlist⟩ := List.head?_eq_some_iff.mp hc
  have hown : (ownName number name).toList =
      c :: (cs ++ '.' :: 'a' :: Nat.toDigits 10 number) := by
    rw [toList_ownName, hlist]
    rfl
  apply Ir.written_label hown hstart
  · intro d hd
    simp only [List.mem_append, List.mem_cons] at hd
    obtain hd | rfl | rfl | hd := hd
    · apply hall d
      rw [hlist]
      apply List.mem_cons_of_mem _ hd
    · decide
    · decide
    · apply Ir.isNameChar_of_mem_toDigits hd
  all_goals
    apply hne
    decide

/-! ### Resolving the names of a block -/

/-- What the block can name can be written. -/
structure BlockEnv.Written (env : BlockEnv) : Prop where
  scope : ∀ entry ∈ env.raw.scope, (placeOf entry.2.1).Uses written
  globals : ∀ g ∈ env.globals, written.global g.1

/-- The names of the variables of the block can be written. -/
def BlockState.Written (s : BlockState) : Prop :=
  ∀ p ∈ s.own, isName p.1 = true

theorem BlockEnv.Written.binding {env : BlockEnv} (h : env.Written)
    (hv : env.raw.binding? name = some v) :
  (placeOf v).Uses written
  := by
  obtain ⟨⟨v, ty⟩, hlookup, rfl⟩ := Option.map_eq_some_iff.mp hv
  obtain ⟨before, after, hscope, _⟩ := List.lookup_eq_some_iff.mp hlookup
  apply h.scope (name, v, ty)
  rw [hscope]
  simp

namespace Resolve

variable {R : α → Prop} {T : β → Prop}

/-- Faults stay noted, and without one the result satisfies `R`. -/
def Gives (x : Resolve α) (env : BlockEnv) (R : α → Prop) : Prop :=
  ∀ s : BlockState, s.Written → ((x.run env).run s).2.Written ∧
    (((x.run env).run s).2.faults = #[] → s.faults = #[] ∧ R ((x.run env).run s).1)

theorem gives_pure (h : R a) :
  (pure a : Resolve α).Gives env R
  := fun _ hs => ⟨hs, fun hfaults => ⟨hfaults, h⟩⟩

theorem gives_bind {x : Resolve α} (hx : x.Gives env R)
    (hf : ∀ a, (f a).Gives env fun b => R a → T b) :
  (x >>= f).Gives env T
  := by
  intro s hs
  obtain ⟨ht, hxR⟩ := hx s hs
  obtain ⟨hs', hfT⟩ := hf ((x.run env).run s).1 ((x.run env).run s).2 ht
  use hs'
  intro hfaults
  obtain ⟨hmiddle, hT⟩ := hfT hfaults
  obtain ⟨hstart, hR⟩ := hxR hmiddle
  use hstart, hT hR

theorem gives_read (h : (f env).Gives env T) :
  ((read : Resolve BlockEnv) >>= f).Gives env T
  := h

theorem gives_get (h : ∀ s, (f s).Gives env T) :
  ((get : Resolve BlockState) >>= f).Gives env T
  := fun s hs => h s s hs

theorem gives_fault :
  (fault f).Gives env fun _ => False
  := by
  intro s hs
  use hs
  intro hfaults
  cases (Array.push_ne_empty hfaults)

/-- After a fault anything may be said of the result. -/
theorem gives_fault_then (hg : (g ⟨⟩).Gives env fun _ => True) :
  (fault f >>= g).Gives env T
  := by
  apply gives_bind gives_fault
  intro _ s hs
  obtain ⟨hs', hrest⟩ := hg s hs
  exact ⟨hs', fun hfaults => ⟨(hrest hfaults).1, False.elim⟩⟩

theorem gives_label (h : isWord name) :
  (label name).Gives env written.label
  := by
  apply gives_read
  split
  · apply gives_pure (written_ownName h)
  · exact gives_fault_then (gives_pure trivial)

theorem gives_global (henv : env.Written) :
  (global name).Gives env fun _ => written.global name
  := by
  apply gives_read
  split
  · intro s hs
    obtain ⟨hs', hfaults⟩ := gives_fault s hs
    exact ⟨hs', fun h => (hfaults h).2.elim⟩
  · rename_i hknown
    apply gives_pure
    cases hlookup : env.globals.lookup name with
    | none =>
      rw [hlookup] at hknown
      cases hknown rfl
    | some ty =>
      obtain ⟨before, after, hglobals, _⟩ := List.lookup_eq_some_iff.mp hlookup
      apply henv.globals (name, ty)
      rw [hglobals]
      simp

/-- An operand of a block that goes through names what can be written. -/
theorem gives_operand (henv : env.Written) (h : o.isWritten) :
  (operand o).Gives env (Operand.Uses written env.strings)
  := by
  apply gives_read
  split
  · split
    · rename_i v hv
      apply gives_pure ((henv.binding hv).operand)
    · apply gives_get
      intro s
      split
      · apply gives_pure
        apply isName_ownName h
      · exact gives_fault_then (gives_pure trivial)
  · apply gives_bind (gives_global henv)
    intro _
    exact gives_pure id
  · split
    · exact gives_fault_then (gives_pure trivial)
    · rename_i hindex
      exact gives_pure (Nat.lt_of_not_le hindex)
  · rename_i hvar hglobal hstr
    apply gives_pure
    cases o with
    | var name => cases hvar name rfl
    | global name => cases hglobal name rfl
    | str index => cases hstr index rfl
    | _ => trivial

theorem gives_operands (henv : env.Written) (h : ∀ o ∈ os, o.isWritten) :
  (operands os).Gives env fun os' => ∀ o ∈ os', o.Uses written env.strings
  := by
  induction os with
  | nil => exact gives_pure (by simp)
  | cons o rest ih =>
    rw [List.forall_mem_cons] at h
    apply gives_bind (gives_operand henv h.1)
    intro first
    apply gives_bind (ih h.2)
    intro others
    apply gives_pure
    intro hothers hfirst
    exact List.forall_mem_cons.mpr ⟨hfirst, hothers⟩

theorem mem_insertOwn (h : p ∈ insertOwn name ty own) :
  p.1 = name ∨ p ∈ own
  := by
  induction own with
  | nil =>
    left
    rw [List.mem_singleton.mp h]
  | cons entry rest ih =>
    rw [insertOwn] at h
    grind

/-- A place of a block that goes through names what can be written. -/
theorem gives_place (henv : env.Written) (h : p.isWritten) :
  (place p ty).Gives env (Place.Uses written)
  := by
  apply gives_read
  split
  · split
    · rename_i v hv
      apply gives_pure (henv.binding hv)
    · intro s hs
      constructor
      · intro q hq
        obtain hq | hq := mem_insertOwn hq
        · rw [hq]
          apply h
        · apply hs q hq
      · intro hfaults
        exact ⟨hfaults, isName_ownName h⟩
  · apply gives_bind (gives_global henv)
    intro _
    exact gives_pure id

theorem gives_place? (henv : env.Written) (h : p?.all (·.isWritten)) :
  (place? p?).Gives env fun p? => ∀ p ∈ p?, p.Uses written
  := by
  cases p? with
  | none => exact gives_pure (by simp)
  | some p =>
    apply gives_bind (gives_place henv h)
    intro p'
    apply gives_pure
    rintro hp _ ⟨⟩
    apply hp

/-- What puts something made of one operand into a place can be written if these can. -/
theorem gives_into {make : Place → Operand → Instr} (henv : env.Written) (ho : o.isWritten)
    (hp : p.isWritten) (h : ∀ {p o}, p.Uses written → o.Uses written env.strings →
      (make p o).Uses written env.strings) :
  (do
    let o ← operand o
    let p ← place p ty
    return make p o : Resolve Instr).Gives env (Instr.Uses written env.strings)
  := by
  apply gives_bind (gives_operand henv ho)
  intro o
  apply gives_bind (gives_place henv hp)
  intro p
  exact gives_pure h

/-- An instruction that could be written before its names are resolved can be written
afterwards. -/
theorem gives_instr (henv : env.Written) (h : i.isWritten) :
  (instr i).Gives env (Instr.Uses written env.strings)
  := by
  cases i with
  | label name => exact gives_read (gives_pure (written_ownName h))
  | move dst ty src =>
    simp only [Instr.isWritten, Bool.and_eq_true] at h
    exact gives_into henv h.2 h.1 And.intro
  | binary dst op ty lhs rhs =>
    simp only [Instr.isWritten, Bool.and_eq_true] at h
    obtain ⟨⟨⟨hdst, hop⟩, hlhs⟩, hrhs⟩ := h
    apply gives_bind (gives_operand henv hlhs)
    intro lhs
    apply gives_bind (gives_operand henv hrhs)
    intro rhs
    apply gives_bind (gives_place henv hdst)
    intro dst
    exact gives_pure fun hdst hrhs hlhs => ⟨hdst, hop, hlhs, hrhs⟩
  | unary dst op ty src =>
    simp only [Instr.isWritten, Bool.and_eq_true] at h
    exact gives_into henv h.2 h.1 And.intro
  | call dst callee args =>
    simp only [Instr.isWritten, Bool.and_eq_true, List.all_eq_true] at h
    obtain ⟨⟨hdst, hcallee⟩, hargs⟩ := h
    apply gives_bind (gives_operands henv hargs)
    intro args
    apply gives_bind (gives_place? henv hdst)
    intro dst
    exact gives_pure fun hdst hargs => ⟨hdst, hcallee, hargs⟩
  | branch cond ifTrue ifFalse =>
    simp only [Instr.isWritten, Bool.and_eq_true] at h
    obtain ⟨⟨hcond, hyes⟩, hno⟩ := h
    apply gives_bind (gives_operand henv hcond)
    intro cond
    apply gives_bind (gives_label hyes)
    intro yes
    apply gives_bind (gives_label hno)
    intro no
    exact gives_pure fun hno hyes hcond => ⟨hcond, hyes, hno⟩
  | jump target =>
    apply gives_bind (gives_label h)
    intro target
    exact gives_pure id
  | load dst ty base offset =>
    simp only [Instr.isWritten, Bool.and_eq_true] at h
    exact gives_into henv h.2 h.1 fun hdst hbase => ⟨hdst, hbase, trivial⟩
  | store ty base offset value =>
    simp only [Instr.isWritten, Bool.and_eq_true] at h
    apply gives_bind (gives_operand henv h.1)
    intro base
    apply gives_bind (gives_operand henv h.2)
    intro value
    exact gives_pure fun hvalue hbase => ⟨hbase, trivial, hvalue⟩
  | alloc dst size =>
    simp only [Instr.isWritten, Bool.and_eq_true] at h
    exact gives_into henv h.2 h.1 And.intro
  | free block =>
    apply gives_bind (gives_operand henv h)
    intro block
    exact gives_pure id
  | ret value =>
    cases value with
    | none =>
      apply gives_pure
      rintro _ ⟨⟩
    | some value =>
      apply gives_bind (gives_operand henv h)
      intro value
      apply gives_pure
      rintro hvalue _ ⟨⟩
      apply hvalue
  | raw dst text span =>
    apply gives_bind (gives_place? henv h)
    intro dst
    exact gives_read (gives_pure fun hdst => ⟨trivial, hdst⟩)

/-- The instructions of a block that goes through name what can be written. -/
theorem gives_instrs (henv : env.Written) (h : ∀ i ∈ is, i.isWritten) :
  (instrs is).Gives env fun is' => ∀ i ∈ is', i.Uses written env.strings
  := by
  induction is with
  | nil => exact gives_pure (by simp)
  | cons i rest ih =>
    rw [List.forall_mem_cons] at h
    apply gives_bind (gives_instr henv h.1)
    intro first
    apply gives_bind (ih h.2)
    intro others
    apply gives_pure
    intro hothers hfirst
    exact List.forall_mem_cons.mpr ⟨hfirst, hothers⟩

end Resolve

/-! ### Appending blocks -/

namespace Lower

variable {env : Env}

theorem emits_emitAll (h : ∀ i ∈ is, i.Uses V n) :
  (emitAll is).Emits env V n fun _ _ => True
  := by
  induction is with
  | nil => exact emits_pure fun _ _ => trivial
  | cons i rest ih =>
    rw [List.forall_mem_cons] at h
    apply emits_emit_then h.1
    apply ih h.2

theorem emits_declareOwn (h : ∀ p ∈ own, isName p.1) :
  (declareOwn number own).Emits env written n fun _ _ => True
  := by
  induction own with
  | nil => exact emits_pure fun _ _ => trivial
  | cons p rest ih =>
    rw [List.forall_mem_cons] at h
    apply emits_bind (emits_declare (isName_ownName h.1))
    intro _ _ hm _
    apply (ih h.2).weaken hm

theorem emits_reportAll :
  (reportAll span faults).Emits env V n fun _ _ => True
  := by
  induction faults with
  | nil => exact emits_pure fun _ _ => trivial
  | cons f rest ih =>
    apply emits_bind emits_report
    intro _ _ hm _
    apply ih.weaken hm

theorem emits_blockInstrs :
  (blockInstrs raw).Emits env V n fun _ is => ∀ i ∈ is, i.isWritten
  := by
  unfold blockInstrs
  split
  · rename_i hread
    exact emits_pure fun _ _ => Ir.isWritten_of_readInstructions hread
  · apply emits_fail
  · apply emits_throw

/-- The code of a block names what can be written. -/
theorem emits_block (hscope : ∀ entry ∈ raw.scope, (placeOf entry.2.1).Uses written)
    (hglobals : ∀ g ∈ env.globals, written.global g.1) :
  (block raw).Emits env written n fun m is => ∀ i ∈ is, i.Uses written m
  := by
  apply emits_bind emits_blockInstrs
  intro m₀ is hm₀ his
  apply emits_bind (R := fun _ _ => True)
  · apply emits_modifyGet
    exact fun _ _ _ hs => ⟨le_refl _, ⟨hs.temps, hs.reports, hs.code, hs.vars⟩, trivial⟩
  intro m₁ number hm₁ _
  apply emits_read
  apply emits_get
  intro s hs
  have henv : BlockEnv.Written
      { number, raw, labels := labelsOf is, globals := env.globals,
        strings := s.strings.length } := ⟨hscope, hglobals⟩
  obtain ⟨hown, hfound⟩ := Resolve.gives_instrs henv his ⟨[], #[]⟩ fun _ h => nomatch h
  dsimp only
  split
  rename_i resolved found hrun
  rw [hrun] at hown hfound
  split
  · rename_i hempty
    obtain ⟨_, hresolved⟩ := hfound (Array.isEmpty_iff.mp hempty)
    apply emits_bind (emits_declareOwn hown)
    intro m₂ _ hm₂ _
    apply emits_bind (emits_emitAll fun i hi => (hresolved i hi).mono hm₂)
    intro m₃ _ hm₃ _
    exact emits_pure fun _ hm i hi => (hresolved i hi).mono (hm₂.trans (hm₃.trans hm))
  · apply emits_bind emits_reportAll
    intro _ _ _ _
    apply emits_throw

variable {raw : Typed.Raw} (hscope : ∀ entry ∈ raw.scope, (placeOf entry.2.1).Uses written)
  (hglobals : ∀ g ∈ env.globals, written.global g.1)

include hscope hglobals

theorem emits_rawStmt :
  (rawStmt raw).Emits env written n fun _ _ => True
  := by
  unfold rawStmt
  split
  · apply emits_emit
    exact ⟨trivial, fun _ h => nomatch h⟩
  · apply emits_bind (emits_block hscope hglobals)
    intro _ _ _ _
    exact emits_pure fun _ _ => trivial

/-- The code of a raw value names what can be written. -/
theorem emits_rawValue :
  (rawValue raw).Emits env written n (Operand.Uses written)
  := by
  unfold rawValue
  split
  · apply emits_bind (emits_temp Ir.isName_toString .i64)
    intro m dst _ hdst
    apply emits_emit_then
    · refine ⟨trivial, ?_⟩
      rintro _ ⟨⟩
      apply hdst
    exact emits_pure fun _ _ => hdst
  · apply emits_bind (emits_block hscope hglobals)
    intro m is _ his
    split
    · rename_i place hplace
      obtain ⟨i, hi, hdst⟩ := List.mem_filterMap.mp (List.mem_of_getLast? hplace)
      exact emits_pure fun _ _ => ((his i hi).dst hdst).operand
    · apply emits_fail

end Lower

end Endmark.Lowering
