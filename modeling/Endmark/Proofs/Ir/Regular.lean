import Endmark.Proofs.Ir.Written

/-!
# What is read can be written

The lexemes of a text are regular, and so a module that is read from a text can be written.
-/

namespace Endmark.Ir

open Instr
open List Option

/-! ### Lexemes -/

theorem isNameChar_of_startsWord (h : startsWord c) :
  isNameChar c
  := by
  simp only [startsWord, isNameChar, Text.isAlphanumeric, Char.isAlphanum] at h ⊢
  grind

theorem isRegular_wordLexeme (hc : startsWord c) (hcs : ∀ d ∈ cs, isNameChar d) :
  (wordLexeme (c :: cs)).isRegular
  := by
  unfold wordLexeme
  split
  · rfl
  · rfl
  · rename_i hnan hinf
    simp only [Lexeme.isRegular, isWord, String.toList_ofList, head?_cons, any_some, hc,
      all_cons, isNameChar_of_startsWord hc, true_and, Bool.and_eq_true, List.all_eq_true,
      bne_iff_ne]
    exact ⟨⟨hcs, hnan⟩, hinf⟩

theorem isRegular_of_radixInt? (h : radixInt? radix negative digits = some l) :
  l.isRegular
  := by
  unfold radixInt? at h
  dsimp only at h
  split at h
  · cases h
  · obtain ⟨_, hl⟩ := ite_none_right_eq_some.mp h
    cases hl
    rfl

theorem isRegular_of_number? (h : number? cs = some l) :
  l.isRegular
  := by
  unfold number? at h
  dsimp only at h
  split at h
  iterate 6 apply isRegular_of_radixInt? h
  unfold decimal? at h
  split at h
  · cases h
    rfl
  · obtain ⟨_, _, rfl⟩ := map_eq_some_iff.mp h
    rfl

/-- A lexeme of a text is regular. -/
theorem isRegular_of_lexemeAt {line : Nat} (h : lexemeAt line c cs = .ok (l, rest)) :
  l.isRegular
  := by
  have hname : ∀ d ∈ cs.takeWhile isNameChar, isNameChar d :=
    fun d hd => mem_takeWhile_imp hd
  unfold lexemeAt at h
  split at h
  · cases h
    rfl
  split at h
  · simp only at h
    split at h
    · cases h
    · rename_i hne
      have hregular : isName (.ofList (cs.takeWhile isNameChar)) := by
        simp only [isName, String.toList_ofList, Bool.and_eq_true, List.all_eq_true]
        refine ⟨?_, hname⟩
        simpa using hne
      cases h
      split <;> apply hregular
  split at h
  · obtain ⟨_, _, heq⟩ := of_map_ok h
    cases heq
    rfl
  split at h
  · cases h
    rfl
  split at h
  · simp only at h
    split at h
    · rename_i hnumber
      cases h
      apply isRegular_of_number? hnumber
    · cases h
  split at h
  · rename_i hstart
    cases h
    apply isRegular_wordLexeme hstart hname
  split at h
  · rename_i hmark
    cases h
    apply hmark
  · cases h

/-- The lexemes of a text are regular. -/
theorem isRegular_of_lexemesFrom {line : Nat} (h : lexemesFrom line cs = .ok ls) :
  ∀ p ∈ ls, p.1.isRegular
  := by
  fun_induction lexemesFrom line cs generalizing ls with
  | case1 =>
    cases h
    simp [Lexeme.isRegular]
  | case2 line c cs hblank ih => apply ih h
  | case3 line c cs _ _ ih => apply ih h
  | case4 => cases h
  | case5 line c cs _ _ l rest hread ih =>
    obtain ⟨others, hothers, rfl⟩ := of_map_ok h
    intro p hp
    obtain rfl | hp := mem_cons.mp hp
    · apply isRegular_of_lexemeAt hread
    · apply ih hothers p hp

/-! ### Readers -/

/-- The lexemes that are still to be read are regular. -/
def Reader.Regular (r : Reader) : Prop :=
  ∀ p ∈ r.rest, p.1.isRegular = true

/-- The lexeme that comes next. -/
def Reader.next (r : Reader) : Lexeme :=
  match r.rest with
  | (l, _) :: _ => l
  | [] => .newline

theorem Reader.Regular.next (h : Regular r) :
  r.next.isRegular
  := by
  unfold Reader.next
  split
  · rename_i heq
    apply h (_, _)
    rw [heq]
    apply mem_cons_self
  · rfl

namespace Read

variable {α : Type}

/-- What a reader has come to is a result that satisfies `R`, with regular lexemes left, or a fault
that is reported. -/
def Fair (R : α → Prop) : Except ReadError (α × Reader) → Prop
  | .ok (a, r) => r.Regular ∧ R a
  | .error e => e ≠ .abandoned

/-- From regular lexemes, of which `l` comes next, the reader gets a result that satisfies `R`,
if it gets one, and regular lexemes are left. -/
def YieldsAt (l : Lexeme) (x : Read α) (R : α → Prop) : Prop :=
  ∀ r, r.Regular → r.next = l → Fair R (x.run r)

/-- From regular lexemes the reader gets a result that satisfies `R`, if it gets one, and
regular lexemes are left. -/
def Yields (x : Read α) (R : α → Prop) : Prop :=
  ∀ l, l.isRegular = true → x.YieldsAt l R

variable {R : α → Prop}

theorem yieldsAt_pure (ha : R a) :
  (pure a : Read α).YieldsAt l R
  := by
  intro r hr _
  exact ⟨hr, ha⟩

theorem yields_pure (ha : R a) :
  (pure a : Read α).Yields R
  := fun _ _ => yieldsAt_pure ha

variable {f : α → Read β} {g : PUnit → Read β}

theorem YieldsAt.bind (hx : x.YieldsAt l R) (hf : ∀ a, R a → (f a).Yields T) :
  (x >>= f).YieldsAt l T
  := by
  intro r hr hnext
  have hfair := hx r hr hnext
  rw [StateT.run_bind]
  cases hrun : x.run r with
  | error e =>
    rw [hrun] at hfair
    exact hfair
  | ok p =>
    rw [hrun] at hfair
    obtain ⟨hr', ha⟩ := hfair
    exact hf p.1 ha _ hr'.next p.2 hr' rfl

theorem Yields.bind (hx : x.Yields R) (hf : ∀ a, R a → (f a).Yields T) :
  (x >>= f).Yields T
  := fun l hl => (hx l hl).bind hf

/-- A step without a result only has to leave regular lexemes. -/
theorem YieldsAt.seq (hy : y.YieldsAt l fun _ => True) (hg : (g ⟨⟩).Yields T) :
  (y >>= g).YieldsAt l T
  := hy.bind fun _ _ => hg

theorem Yields.seq (hy : y.Yields fun _ => True) (hg : (g ⟨⟩).Yields T) :
  (y >>= g).Yields T
  := hy.bind fun _ _ => hg

theorem yieldsAt_fail :
  (fail fault : Read α).YieldsAt l R
  := fun _ _ _ => ReadError.noConfusion

theorem yields_fail (fault : Fault) :
  (fail fault : Read α).Yields R
  := fun _ _ => yieldsAt_fail

theorem yieldsAt_peek {f : Lexeme → Read β} (h : (f l).YieldsAt l T) :
  (peek >>= f).YieldsAt l T
  := by
  rintro ⟨rest, lastLine⟩ hr rfl
  have hfair := h ⟨rest, lastLine⟩ hr rfl
  cases rest <;> exact hfair

theorem yields_peek {f : Lexeme → Read β} (h : ∀ l, l.isRegular → (f l).YieldsAt l T) :
  (peek >>= f).Yields T
  := fun l hl => yieldsAt_peek (h l hl)

theorem yields_skip :
  skip.Yields fun _ => True
  := by
  intro l _ r hr _
  refine ⟨?_, trivial⟩
  intro p hp
  apply hr p (mem_of_mem_tail hp)

theorem yields_accept {f : Lexeme → Option α} (h : ∀ l a, l.isRegular → f l = some a → R a) :
  (accept f fault).Yields R
  := by
  apply yields_peek
  intro l hl
  cases hf : f l with
  | none => apply yieldsAt_fail
  | some a =>
    apply (yields_skip l hl).seq
    apply yields_pure (h l a hl hf)

theorem yields_get {f : Reader → Read β} (h : ∀ r, (f r).Yields T) :
  ((get : Read Reader) >>= f).Yields T
  := fun l hl r => h r l hl r

theorem yields_skipNewlines :
  skipNewlines.Yields fun _ => True
  := by
  intro l _ r hr _
  refine ⟨?_, trivial⟩
  intro p hp
  apply hr p ((dropWhile_sublist _).mem hp)

theorem yields_atEnd :
  atEnd.Yields fun _ => True
  := yields_get fun _ => yields_pure trivial

theorem yields_mark (c : Char) :
  (mark c).Yields fun _ => True
  := yields_accept fun _ _ _ _ => trivial

theorem yields_mark? (c : Char) :
  (mark? c).Yields fun _ => True
  := by
  apply yields_peek
  intro l hl
  split
  · apply (yields_skip l hl).seq
    apply yields_pure trivial
  · apply yieldsAt_pure trivial

theorem yields_lineEnd :
  lineEnd.Yields fun _ => True
  := by
  apply yields_peek
  intro l hl
  split
  · apply yields_skip _ hl
  · apply yieldsAt_pure trivial
  · apply yieldsAt_fail

theorem yields_word :
  word.Yields fun w => isWord w
  := by
  apply yields_accept
  rintro (_ | _) w hl ⟨⟩
  apply hl

theorem yields_globalName :
  globalName.Yields fun name => isName name
  := by
  apply yields_accept
  rintro (_ | _) w hl ⟨⟩
  apply hl

theorem yields_varName :
  varName.Yields fun name => isName name
  := by
  apply yields_accept
  rintro (_ | _) w hl ⟨⟩
  apply hl

theorem yields_int :
  int.Yields fun _ => True
  := yields_accept fun _ _ _ _ => trivial

theorem yields_wordType :
  wordType.Yields fun _ => True
  := by
  apply yields_word.bind
  intro w _
  split
  · apply yields_pure trivial
  · apply yields_fail

/-- What the name of a global stands for can be told from others. -/
theorem isWritten_globalOperand (h : isName name) :
  (globalOperand name).isWritten
  := by
  cases heq : globalOperand name with
  | str index =>
    have hindex : index < Number.wordCount := by
      unfold globalOperand at heq
      split at heq
      · cases heq
      · split at heq
        · rename_i hread
          cases heq
          apply Number.readUnsigned_lt hread
        · cases heq
    exact decide_eq_true hindex
  | global name' =>
    have hname : name' = name := by
      unfold globalOperand at heq
      split at heq
      · cases heq
        rfl
      · split at heq
        · cases heq
        · cases heq
          rfl
    subst hname
    rw [Operand.isWritten, h, heq, beq_self_eq_true]
    rfl
  | var | int | float | bool =>
    unfold globalOperand at heq
    split at heq
    · cases heq
    · split at heq <;> cases heq

theorem yields_operand :
  operand.Yields fun o => o.isWritten
  := by
  apply yields_accept
  intro l o hl ho
  obtain ⟨name, rfl, rfl⟩ | ⟨name, rfl, rfl⟩ | ⟨v, rfl⟩ | ⟨v, rfl⟩ | ⟨v, rfl⟩ :=
    operandOf?_cases ho
  · apply hl
  · apply isWritten_globalOperand hl
  all_goals rfl

theorem yields_place :
  place.Yields fun p => p.isWritten
  := by
  apply yields_accept
  intro l p hl hp
  split at hp <;> cases hp <;> apply hl

theorem yields_var :
  var.Yields fun v => isName v.name
  := by
  apply yields_varName.bind
  intro name hname
  apply (yields_mark ':').seq
  apply yields_wordType.bind
  intro ty _
  exact yields_pure hname

/-- The items of a list are as each of them is. -/
theorem yields_items {item : Read α} (hitem : item.Yields R) :
  (items item fuel).Yields fun as => ∀ a ∈ as, R a
  := by
  induction fuel with
  | zero => exact yields_pure (by simp)
  | succ fuel ih =>
    apply hitem.bind
    intro a ha
    apply (yields_mark? ')').bind
    intro closed _
    split
    · exact yields_pure (by simpa using ha)
    · apply (yields_mark ',').seq
      apply ih.bind
      intro as has
      exact yields_pure (by simpa using ⟨ha, has⟩)

theorem yields_list (hitem : item.Yields R) :
  (list item).Yields fun as => ∀ a ∈ as, R a
  := by
  apply (yields_mark? ')').bind
  intro closed _
  split
  · exact yields_pure (by simp)
  · apply yields_get
    intro r
    apply yields_items hitem

/-! ### Instructions -/

/-- An instruction that can be written and is no label. -/
def IsAction (i : Instr) : Prop :=
  i.isWritten = true ∧ ∀ name, i ≠ .label name

theorem yields_call (hdst : dst.all (·.isWritten)) :
  (call dst).Yields IsAction
  := by
  apply yields_globalName.bind
  intro callee hcallee
  apply (yields_mark '(').seq
  apply (yields_list yields_operand).bind
  intro args hargs
  apply yields_pure
  constructor
  · simpa [isWritten, hdst, hcallee] using hargs
  · simp

theorem yields_raw (hdst : dst.all (·.isWritten)) :
  (raw dst).Yields IsAction
  := by
  unfold raw
  apply Yields.bind (R := fun _ => True) (yields_accept fun _ _ _ _ => trivial)
  intro text _
  apply yields_pure
  exact ⟨hdst, by simp⟩

/-- A typed action that is read is written properly. -/
theorem yields_typed (hdst : dst.isWritten) {w name : String} :
  (typed dst w name ty).Yields IsAction
  := by
  unfold typed
  split
  · apply yields_operand.bind
    intro src hsrc
    apply yields_pure
    exact ⟨by simp [isWritten, hdst, hsrc], by simp⟩
  split
  · apply yields_operand.bind
    intro base hbase
    apply (yields_mark ',').seq
    apply yields_int.bind
    intro offset _
    apply yields_pure
    exact ⟨by simp [isWritten, hdst, hbase], by simp⟩
  split
  · apply yields_operand.bind
    intro src hsrc
    apply yields_pure
    exact ⟨by simp [isWritten, hdst, hsrc], by simp⟩
  split
  · apply yields_fail
  split
  · rename_i hsupports
    apply yields_operand.bind
    intro lhs hlhs
    apply (yields_mark ',').seq
    apply yields_operand.bind
    intro rhs hrhs
    apply yields_pure
    exact ⟨by simp [isWritten, hdst, hsupports, hlhs, hrhs], by simp⟩
  · apply yields_fail

theorem yields_assignment {dst : Place} (hdst : dst.isWritten) :
  (assignment dst).Yields IsAction
  := by
  have hsome : (some dst).all (·.isWritten) := hdst
  apply yields_word.bind
  intro w _
  split
  · apply yields_call hsome
  · apply yields_raw hsome
  · apply yields_operand.bind
    intro size hsize
    apply yields_pure
    exact ⟨by simp [isWritten, hdst, hsize], by simp⟩
  split
  · apply yields_typed hdst
  · apply yields_fail

/-- A statement that is read is written properly. -/
theorem yields_statement :
  (statement w).Yields IsAction
  := by
  unfold statement
  split
  · apply yields_skip.seq
    apply yields_word.bind
    intro target htarget
    apply yields_pure
    exact ⟨htarget, by simp⟩
  · apply yields_skip.seq
    apply yields_operand.bind
    intro cond hcond
    apply (yields_mark ',').seq
    apply yields_word.bind
    intro ifTrue hTrue
    apply (yields_mark ',').seq
    apply yields_word.bind
    intro ifFalse hFalse
    apply yields_pure
    exact ⟨by simp [isWritten, hcond, hTrue, hFalse], by simp⟩
  · apply yields_skip.seq
    apply yields_peek
    intro l hl
    split
    · apply yieldsAt_pure
      exact ⟨rfl, by simp⟩
    · apply yieldsAt_pure
      exact ⟨rfl, by simp⟩
    · apply (yields_operand l hl).bind
      intro value hvalue
      apply yields_pure
      exact ⟨hvalue, by simp⟩
  · apply yields_skip.seq
    apply yields_operand.bind
    intro block hblock
    apply yields_pure
    exact ⟨hblock, by simp⟩
  · apply yields_skip.seq
    apply yields_call rfl
  · apply yields_skip.seq
    apply yields_raw rfl
  split
  · apply yields_fail
  split
  · apply yields_fail
  · apply yields_skip.seq
    apply yields_operand.bind
    intro base hbase
    apply (yields_mark ',').seq
    apply yields_int.bind
    intro offset _
    apply (yields_mark ',').seq
    apply yields_operand.bind
    intro value hvalue
    apply yields_pure
    exact ⟨by simp [isWritten, hbase, hvalue], by simp⟩

/-- A label has the name that comes next. -/
theorem yieldsAt_instruction (hl : l.isRegular) :
  instruction.YieldsAt l fun i => i.isWritten ∧ ∀ name, i = .label name → l = .word name
  := by
  have haction {i : Instr} (hi : IsAction i) :
      (lineEnd >>= fun _ => (pure i : Read Instr)).Yields
        fun i => i.isWritten ∧ ∀ name, i = .label name → l = .word name := by
    apply yields_lineEnd.seq
    apply yields_pure
    exact ⟨hi.1, fun name heq => absurd heq (hi.2 name)⟩
  have hassign : (do
      let dst ← place
      mark '='
      let i ← assignment dst
      lineEnd
      return i : Read Instr).Yields
        fun i => i.isWritten ∧ ∀ name, i = .label name → l = .word name := by
    apply yields_place.bind
    intro dst hdst
    apply (yields_mark '=').seq
    apply (yields_assignment hdst).bind
    intro i hi
    apply haction hi
  have hcolon : beforeColon.Yields fun _ => True := by
    apply yields_get
    intro r
    split <;> apply yields_pure trivial
  apply yieldsAt_peek
  split
  · apply hassign _ hl
  · apply hassign _ hl
  · apply (hcolon _ hl).bind
    intro colon _
    split
    · apply yields_skip.seq
      apply yields_skip.seq
      apply yields_pure
      exact ⟨hl, by simp⟩
    · apply yields_statement.bind
      intro i hi
      apply haction hi
  · apply yieldsAt_fail

theorem yields_instruction :
  instruction.Yields fun i => i.isWritten
  := by
  intro l hl r hr hnext
  have hfair := yieldsAt_instruction hl r hr hnext
  cases hrun : instruction.run r <;> rw [hrun] at hfair
  · exact hfair
  · exact ⟨hfair.1, hfair.2.1⟩

/-- The instructions that are read are written properly. -/
theorem yields_instructions (fuel : Nat) :
  (instructions fuel).Yields fun is => ∀ i ∈ is, i.isWritten
  := by
  induction fuel with
  | zero => exact yields_pure (by simp)
  | succ fuel ih =>
    apply yields_skipNewlines.seq
    apply yields_atEnd.bind
    intro ended _
    split
    · exact yields_pure (by simp)
    · apply yields_peek
      intro l hl
      split
      · apply yieldsAt_fail
      · apply (yields_instruction l hl).bind
        intro i hi
        apply ih.bind
        intro is his
        exact yields_pure (by simpa using ⟨hi, his⟩)

/-! ### Functions and modules -/

/-- The variables and instructions of a body can be written. -/
def IsBody (p : List Var × List Instr) : Prop :=
  (∀ v ∈ p.1, isName v.name = true) ∧ ∀ i ∈ p.2, i.isWritten = true ∧ i ≠ .label "var"

/-- A body that is read can be written. -/
theorem yields_body (function : String) (fuel : Nat) :
  (body function fuel).Yields IsBody
  := by
  induction fuel with
  | zero => apply yields_fail
  | succ fuel ih =>
    apply yields_skipNewlines.seq
    apply yields_atEnd.bind
    intro ended _
    split
    · apply yields_fail
    · apply (yields_mark? '\x7d').bind
      intro closed _
      split
      · exact yields_pure ⟨by simp, by simp⟩
      · apply yields_peek
        intro l hl
        split
        · apply (yields_skip l hl).seq
          apply yields_var.bind
          intro v hv
          apply yields_lineEnd.seq
          apply ih.bind
          intro p hp
          exact yields_pure ⟨by simpa using ⟨hv, hp.1⟩, hp.2⟩
        · rename_i hne
          apply (yieldsAt_instruction hl).bind
          rintro i ⟨hi, hlabel⟩
          apply ih.bind
          intro p hp
          refine yields_pure ⟨hp.1, ?_⟩
          intro j hj
          obtain rfl | hj := mem_cons.mp hj
          · exact ⟨hi, fun heq => hne (hlabel "var" heq)⟩
          · apply hp.2 j hj

/-- A function that is read can be written. -/
theorem yields_function :
  function.Yields fun f => f.isWritten
  := by
  have harrow : (accept (fun l => if l = .arrow then some PUnit.unit else none)
      fun _ => .expectedArrow).Yields fun _ => True := yields_accept fun _ _ _ _ => trivial
  apply yields_globalName.bind
  intro name hname
  apply (yields_mark '(').seq
  apply (yields_list yields_var).bind
  intro params hparams
  apply harrow.seq
  apply yields_wordType.bind
  intro result _
  apply (yields_mark '\x7b').seq
  apply yields_get
  intro r
  apply (yields_body name _).bind
  intro p hp
  apply yields_pure
  simp only [Function.isWritten, hname, true_and, Bool.and_eq_true, List.all_eq_true,
    bne_iff_ne]
  exact ⟨⟨hparams, hp.1⟩, hp.2⟩

/-- A string constant is the next one, whose number fits in a word. -/
theorem yields_stringConstant {next : Nat} :
  (stringConstant next).Yields fun _ => next < Number.wordCount
  := by
  apply yields_operand.bind
  intro o ho
  split
  · rename_i index
    split
    · apply yields_fail
    · rename_i heq
      have hindex : index < Number.wordCount := of_decide_eq_true ho
      rw [not_not.mp heq] at hindex
      apply (yields_mark '=').seq
      apply yields_peek
      intro l hl
      apply (yields_skip l hl).seq
      split
      · exact yields_pure hindex
      · apply yields_fail
  · apply yields_fail

/-- A part that is read leaves the module written properly. -/
theorem yields_part (h : m.isWritten) :
  (part m).Yields fun m' => m'.isWritten
  := by
  simp only [Module.isWritten, Bool.and_eq_true, List.all_eq_true] at h ⊢
  obtain ⟨⟨⟨⟨hentry, hinit⟩, hglobals⟩, hlength⟩, hfunctions⟩ := h
  apply yields_word.bind
  intro w _
  split
  · apply yields_globalName.bind
    intro name hname
    apply yields_lineEnd.seq
    exact yields_pure ⟨⟨⟨⟨hname, hinit⟩, hglobals⟩, hlength⟩, hfunctions⟩
  · apply yields_globalName.bind
    intro name hname
    apply yields_lineEnd.seq
    exact yields_pure ⟨⟨⟨⟨hentry, hname⟩, hglobals⟩, hlength⟩, hfunctions⟩
  · apply yields_globalName.bind
    intro name hname
    apply (yields_mark ':').seq
    apply yields_wordType.bind
    intro ty _
    apply yields_lineEnd.seq
    refine yields_pure ⟨⟨⟨⟨hentry, hinit⟩, ?_⟩, hlength⟩, hfunctions⟩
    intro g hg
    obtain hg | hg := mem_append.mp hg
    · apply hglobals g hg
    · cases mem_singleton.mp hg
      apply hname
  · apply yields_stringConstant.bind
    intro s hs
    apply yields_lineEnd.seq
    refine yields_pure ⟨⟨⟨⟨hentry, hinit⟩, hglobals⟩, ?_⟩, hfunctions⟩
    simpa using hs
  · apply yields_function.bind
    intro f hf
    refine yields_pure ⟨⟨⟨⟨hentry, hinit⟩, hglobals⟩, hlength⟩, ?_⟩
    intro g hg
    obtain hg | hg := mem_append.mp hg
    · apply hfunctions g hg
    · cases mem_singleton.mp hg
      apply hf
  · apply yields_fail

theorem yields_parts (h : m.isWritten) (fuel : Nat) :
  (parts fuel m).Yields fun m' => m'.isWritten
  := by
  induction fuel generalizing m with
  | zero => exact yields_pure h
  | succ fuel ih =>
    apply yields_skipNewlines.seq
    apply yields_atEnd.bind
    intro ended _
    split
    · exact yields_pure h
    · apply (yields_part h).bind
      intro m' hm'
      apply ih hm'

/-- What a reader yields for any number of lexemes holds of what it reads from a text, and only
lexemes are given up on. -/
theorem whole_cases {read : Nat → Read α} (hread : ∀ fuel, (read fuel).Yields R) (text : String) :
  match whole read text with
  | .ok a => R a
  | .error e => e = .abandoned → lexemes text = .error e
  := by
  unfold whole
  cases hls : lexemes text with
  | error e => exact fun _ => rfl
  | ok ls =>
    have hregular : Reader.Regular ⟨ls, (ls.getLast?.map (·.2)).getD 1⟩ :=
      isRegular_of_lexemesFrom hls
    have hfair := hread (ls.length + 1) _ hregular.next _ hregular rfl
    cases hrun : (read (ls.length + 1)).run ⟨ls, (ls.getLast?.map (·.2)).getD 1⟩ with
    | error e =>
      simp only [bind, Except.bind, hrun]
      rw [hrun] at hfair
      exact fun he => absurd he hfair
    | ok p =>
      simp only [bind, Except.bind, hrun]
      rw [hrun] at hfair
      exact hfair.2

theorem of_whole {read : Nat → Read α} (hread : ∀ fuel, (read fuel).Yields R) {a : α}
    (h : whole read text = .ok a) :
  R a
  := by
  have hcases := whole_cases hread text
  rwa [h] at hcases

end Read

theorem Module.isWritten_of_read (h : read text = .ok m) :
  m.isWritten
  := by
  have hstart : isWritten ⟨[], [], [], "main", none⟩ := by decide
  exact Read.of_whole (Read.yields_parts hstart) h

theorem isWritten_of_readInstructions (h : readInstructions text = .ok is) :
  ∀ i ∈ is, i.isWritten
  := Read.of_whole Read.yields_instructions h

end Endmark.Ir
