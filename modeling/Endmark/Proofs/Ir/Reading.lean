import Endmark.Proofs.Ir.Written

/-!
# Reading what is written

A module that is written is read back as the same module without places in a source.
-/

namespace Endmark.Ir

open Number
open Instr
open StateT
open List Bool

theorem Operand.lexeme_ne (o : Operand) (c : Char) :
  o.lexeme ≠ .mark c ∧ o.lexeme ≠ .newline
  := by
  cases o with
  | bool b => cases b <;> simp [lexeme]
  | _ => simp [lexeme]

variable {m : Module}

namespace Read

/-- The reader takes the lexemes, whatever follows them, and gives a result. -/
def Takes (x : Read α) (ls : List Lexeme) (a : α) : Prop :=
  ∀ (taken rest : List (Lexeme × Nat)) (lastLine : Nat), taken.map (·.1) = ls →
    x.run ⟨taken ++ rest, lastLine⟩ = .ok (a, ⟨rest, lastLine⟩)

theorem takes_pure (a : α) :
  (pure a : Read α).Takes [] a
  := by
  intro taken rest lastLine h
  cases map_eq_nil_iff.mp h
  rfl

variable {ls : List Lexeme} {x : Read α} {f : α → Read β} {l : Lexeme} {i : Instr}

theorem Takes.bind (hx : x.Takes ls a) (hf : (f a).Takes ls' b) :
  (x >>= f).Takes (ls ++ ls') b
  := by
  intro taken rest lastLine h
  obtain ⟨first, second, rfl, hfirst, hsecond⟩ := map_eq_append_iff.mp h
  rw [run_bind, append_assoc, hx first _ lastLine hfirst]
  apply hf second rest lastLine hsecond

/-- One lexeme is taken first. -/
theorem Takes.next (hx : x.Takes [l] a) (hf : (f a).Takes ls b) :
  (x >>= f).Takes (l :: ls) b
  := hx.bind hf

/-- After the last lexeme a result is given. -/
theorem Takes.last (hx : x.Takes ls a) (hf : f a = pure b) :
  (x >>= f).Takes ls b
  := by
  have hb : (f a).Takes [] b := by
    rw [hf]
    apply takes_pure
  simpa using hx.bind hb

theorem takes_accept {f : Lexeme → Option α} (h : f l = some a) :
  (accept f fault).Takes [l] a
  := by
  intro taken rest lastLine htaken
  obtain ⟨⟨l', line⟩, rest', rfl, rfl, hrest⟩ := map_eq_cons_iff.mp htaken
  cases map_eq_nil_iff.mp hrest
  have hpeek (g : Lexeme → Read α) (ls : List (Lexeme × Nat)) :
      (peek >>= g).run ⟨(l', line) :: ls, lastLine⟩ = (g l').run ⟨(l', line) :: ls, lastLine⟩ := rfl
  rw [accept, singleton_append, hpeek, h]
  rfl

/-- Looking at the next lexeme takes nothing. -/
theorem takes_peek {f : Lexeme → Read β} (h : (f l).Takes (l :: ls) b) :
  (peek >>= f).Takes (l :: ls) b
  := by
  intro taken rest lastLine htaken
  have hrun := h taken rest lastLine htaken
  obtain ⟨⟨l', line⟩, rest', rfl, rfl, _⟩ := map_eq_cons_iff.mp htaken
  apply hrun

theorem takes_skip {l : Lexeme} :
  skip.Takes [l] ⟨⟩
  := by
  intro taken rest lastLine htaken
  obtain ⟨⟨l', line⟩, rest', rfl, rfl, hrest⟩ := map_eq_cons_iff.mp htaken
  cases map_eq_nil_iff.mp hrest
  rfl

theorem takes_mark (c : Char) :
  (mark c).Takes [.mark c] ⟨⟩
  := takes_accept (if_pos rfl)

theorem takes_mark? (c : Char) :
  (mark? c).Takes [.mark c] true
  := by
  apply takes_peek
  rw [if_pos rfl]
  exact takes_skip.last rfl

/-- A mark that does not come next is not taken. -/
theorem takes_mark?_ne {f : Bool → Read β} (hl : l ≠ .mark c) (h : (f false).Takes (l :: ls) b) :
  (mark? c >>= f).Takes (l :: ls) b
  := by
  rw [mark?, bind_assoc]
  apply takes_peek
  rw [if_neg hl]
  apply h

theorem takes_lineEnd :
  lineEnd.Takes [.newline] ⟨⟩
  := takes_peek takes_skip

theorem takes_word :
  word.Takes [.word w] w
  := takes_accept rfl

theorem takes_globalName :
  globalName.Takes [.global name] name
  := takes_accept rfl

theorem takes_varName (name : String) :
  varName.Takes [.var name] name
  := takes_accept rfl

theorem takes_int :
  int.Takes [.int v] v
  := takes_accept rfl

theorem takes_wordType :
  wordType.Takes [.word ty.name] ty
  := by
  apply takes_word.last
  cases ty <;> rfl

/-- String constants are told from globals by their numbers. -/
theorem globalOperand_string (h : index < wordCount) :
  globalOperand s!"str.{index}" = .str index
  := by
  have hlist : (s!"str.{index}").toList = "str.".toList ++ Nat.toDigits 10 index := by
    simp
  have hstrip : Text.strip? "str.".toList (s!"str.{index}").toList =
      some (Nat.toDigits 10 index) := by
    rw [hlist, Text.strip?, if_pos (by simp), drop_left]
  have hread : readUnsigned 10 wordCount (Nat.toDigits 10 index) = some index :=
    readUnsigned_toDigits (by decide) (by decide) h
  rw [globalOperand, hstrip]
  simp [hread]

theorem operandOf?_lexeme (h : o.isWritten) :
  operandOf? o.lexeme = some o
  := by
  cases o with
  | global name =>
    have hname := (and_eq_true_iff.mp h).2
    rw [beq_iff_eq] at hname
    exact congrArg some hname
  | str index =>
    exact congrArg some (globalOperand_string (of_decide_eq_true h))
  | bool b => cases b <;> rfl
  | _ => rfl

theorem takes_operand (h : o.isWritten) :
  operand.Takes [o.lexeme] o
  := takes_accept (operandOf?_lexeme h)

theorem takes_place :
  place.Takes [p.lexeme] p
  := by
  cases p <;> exact takes_accept rfl

theorem takes_var {v : Var} :
  var.Takes (lexemesIn v.row) v
  := by
  apply (takes_varName v.name).next
  apply (takes_mark ':').next
  exact takes_wordType.last rfl

/-! ### Lists -/

theorem lexemesIn_separated {row : List Piece} {rest : List (List Piece)} :
  lexemesIn (separated (row :: row' :: rest)) =
    lexemesIn row ++ .mark ',' :: lexemesIn (separated (row' :: rest))
  := by
  rw [separated, lexemesIn_append]
  · rfl
  · simp

/-- Items up to the closing parenthesis are taken with fuel for each of them. -/
theorem takes_items {row : α → List Piece} (hne : as ≠ [])
    (hitem : ∀ a ∈ as, item.Takes (lexemesIn (row a)) a) (hfuel : as.length ≤ fuel) :
  (items item fuel).Takes (lexemesIn (separated (as.map row)) ++ [.mark ')']) as
  := by
  induction as generalizing fuel with
  | nil => cases hne rfl
  | cons a rest ih =>
    obtain ⟨fuel, rfl⟩ : ∃ k, fuel = k + 1 := Nat.exists_eq_add_one.mpr (by simp at hfuel; omega)
    have ha := hitem a mem_cons_self
    cases rest with
    | nil =>
      apply ha.bind
      exact (takes_mark? ')').last rfl
    | cons b rest =>
      have hlength : (b :: rest).length ≤ fuel := by simpa using hfuel
      have hrest := ih (by simp) (fun c hc => hitem c (mem_cons_of_mem a hc)) hlength
      rw [map_cons, map_cons, lexemesIn_separated, append_assoc]
      apply ha.bind
      apply takes_mark?_ne (by simp)
      apply (takes_mark ',').next
      exact hrest.last rfl

/-- With the state at hand there are as many lexemes left as are taken, or more. -/
theorem takes_get {f : Reader → Read β}
    (h : ∀ r : Reader, ls.length ≤ r.rest.length → (f r).Takes ls b) :
  ((get : Read Reader) >>= f).Takes ls b
  := by
  intro taken rest lastLine htaken
  apply h ⟨taken ++ rest, lastLine⟩ _ taken rest lastLine htaken
  rw [← htaken, length_map, length_append]
  apply Nat.le_add_right

/-- There is fuel for each item of a list. -/
theorem length_le_lexemesIn {row : α → List Piece} {as : List α}
    (hrow : ∀ a ∈ as, lexemesIn (row a) ≠ []) :
  as.length ≤ (lexemesIn (separated (as.map row))).length
  := by
  induction as with
  | nil => simp
  | cons a rest ih =>
    have ha := length_pos_iff.mpr (hrow a mem_cons_self)
    cases rest with
    | nil => simpa [separated, Nat.succ_le_iff] using ha
    | cons b rest =>
      have hrest := ih fun c hc => hrow c (mem_cons_of_mem a hc)
      rw [map_cons, map_cons, lexemesIn_separated]
      simp only [length_cons, length_append, map_cons] at hrest ⊢
      omega

/-- A list is taken after its opening parenthesis. -/
theorem takes_list {item : Read α} (row : α → List Piece)
    (hitem : ∀ a ∈ as, item.Takes (lexemesIn (row a)) a)
    (hrow : ∀ a ∈ as, ∃ l ls, lexemesIn (row a) = l :: ls ∧ l ≠ .mark ')') :
  (list item).Takes (lexemesIn (separated (as.map row)) ++ [.mark ')']) as
  := by
  cases has : as with
  | nil => exact (takes_mark? ')').last rfl
  | cons a rest =>
    obtain ⟨l, ls, hl, hmark⟩ := hrow a (by simp [has])
    obtain ⟨ls', hls'⟩ : ∃ ls', lexemesIn (separated (as.map row)) ++ [.mark ')'] = l :: ls' := by
      cases rest with
      | nil => simp [has, separated, hl]
      | cons b rest => simp [has, lexemesIn_separated, hl]
    rw [← has, hls']
    apply takes_mark?_ne hmark
    rw [← hls']
    apply takes_get
    intro r hr
    apply takes_items (by simp [has]) hitem
    have hnil : ∀ a ∈ as, lexemesIn (row a) ≠ [] := by
      intro a ha
      obtain ⟨l, ls, hl, _⟩ := hrow a ha
      simp [hl]
    have hlength := length_le_lexemesIn hnil
    rw [length_append] at hr
    omega

/-! ### Instructions -/

theorem splitLast?_append {after : List Char} (h : ∀ c ∈ after, c ≠ '.') :
  splitLast? (before ++ '.' :: after) = some (before, after)
  := by
  have hcut : Text.cut? '.' (after.reverse ++ '.' :: before.reverse) =
      some (after.reverse, before.reverse) := by
    apply cut?_append
    simpa using h
  rw [splitLast?, reverse_append, reverse_cons, append_assoc, singleton_append,
    hcut]
  simp

theorem typedName?_typedName :
  typedName? (typedName name ty) = some (name, ty)
  := by
  have hlist : (typedName name ty).toList = name.toList ++ '.' :: ty.name.toList := by
    simp [typedName]
  have hpoint : ∀ c ∈ ty.name.toList, c ≠ '.' := by
    cases ty <;> simp [WordType.name]
  have hname : WordType.ofName? ty.name = some ty := by
    cases ty <;> rfl
  rw [typedName?, hlist, splitLast?_append hpoint]
  simp [hname]

/-- A name without a point is none with a kind of word. -/
theorem typedName_ne (hw : typedName? w = none) :
  typedName name ty ≠ w
  := by
  rintro rfl
  rw [typedName?_typedName] at hw
  cases hw

theorem takes_call {dst : Option Place} (hargs : ∀ o ∈ args, o.isWritten) :
  (call dst).Takes (.global callee :: .mark '(' ::
    (lexemesIn (separated (args.map fun o => [.lexeme o.lexeme])) ++ [.mark ')']))
    (.call dst callee args)
  := by
  apply takes_globalName.next
  apply (takes_mark '(').next
  have hlist := takes_list (fun o : Operand => [.lexeme o.lexeme])
    (fun o ho => takes_operand (hargs o ho))
    (fun o _ => ⟨o.lexeme, [], rfl, (o.lexeme_ne ')').1⟩)
  exact hlist.last rfl

theorem takes_raw {dst : Option Place} {text : String} :
  (raw dst).Takes [.str text] (.raw dst text .nowhere)
  := by
  unfold raw
  exact Takes.last (takes_accept rfl) rfl

/-- The name of an instruction with a kind of word decides what is read. -/
theorem takes_assignment (h : (typed dst (typedName name ty) name ty).Takes ls i) :
  (assignment dst).Takes (.word (typedName name ty) :: ls) i
  := by
  apply takes_word.next
  split
  iterate 3
    · rename_i heq
      cases typedName_ne (by decide) heq
  simp only [typedName?_typedName]
  apply h

theorem takes_binary (hop : op.supports ty) (hlhs : lhs.isWritten) (hrhs : rhs.isWritten) :
  (typed dst (typedName op.name ty) op.name ty).Takes [lhs.lexeme, .mark ',', rhs.lexeme]
    (.binary dst op ty lhs rhs)
  := by
  have hname : op.name ≠ "mov" ∧ op.name ≠ "load" ∧ UnOp.ofName? op.name = none ∧
      BinOp.ofName? op.name = some op := by
    cases op <;> decide
  simp only [typed, hname, hop]
  apply (takes_operand hlhs).next
  apply (takes_mark ',').next
  exact (takes_operand hrhs).last rfl

theorem takes_unary (hsrc : src.isWritten) :
  (typed dst (typedName op.name ty) op.name ty).Takes [src.lexeme] (.unary dst op ty src)
  := by
  have hname : op.name ≠ "mov" ∧ op.name ≠ "load" ∧ UnOp.ofName? op.name = some op := by
    cases op <;> decide
  simp only [typed, hname]
  exact (takes_operand hsrc).last rfl

/-- An instruction with a destination is taken up to the end of its line. -/
theorem takes_instruction_dst (h : (assignment dst).Takes ls i) :
  instruction.Takes (dst.lexeme :: .mark '=' :: (ls ++ [.newline])) i
  := by
  have hrest : (do
      let dst ← place
      mark '='
      let i ← assignment dst
      lineEnd
      return i : Read Instr).Takes (dst.lexeme :: .mark '=' :: (ls ++ [.newline])) i := by
    apply takes_place.next
    apply (takes_mark '=').next
    apply h.bind
    exact takes_lineEnd.last rfl
  cases dst <;> exact takes_peek hrest

/-- The colon behind the next lexeme is seen. -/
theorem takes_beforeColon {f : Bool → Read β} (h : (f (l' == .mark ':')).Takes (l :: l' :: ls) b) :
  (beforeColon >>= f).Takes (l :: l' :: ls) b
  := by
  intro taken rest lastLine htaken
  have hrun := h taken rest lastLine htaken
  obtain ⟨⟨l₁, line⟩, more, rfl, rfl, hmore⟩ := map_eq_cons_iff.mp htaken
  obtain ⟨⟨l₂, line'⟩, others, rfl, rfl, _⟩ := map_eq_cons_iff.mp hmore
  have hcolon : beforeColon.run ⟨(l₁, line) :: (l₂, line') :: others ++ rest, lastLine⟩ =
      .ok (l₂ == .mark ':', ⟨(l₁, line) :: (l₂, line') :: others ++ rest, lastLine⟩) := by
    simp only [beforeColon, run_bind, run_get, pure_bind]
    split
    · rename_i heq
      cases heq
      rfl
    · rename_i hne
      have hfalse : (l₂ == .mark ':') = false := by
        rw [beq_eq_false_iff_ne]
        rintro rfl
        apply hne _ _ _ rfl
      rw [hfalse]
      rfl
  rw [run_bind, hcolon]
  apply hrun

/-- A label is taken with its colon. -/
theorem takes_label {name : String} :
  instruction.Takes [.word name, .mark ':'] (.label name)
  := by
  apply takes_peek
  apply takes_beforeColon
  rw [beq_self_eq_true]
  apply takes_skip.next
  exact takes_skip.last rfl

/-- An instruction without a destination is taken up to the end of its line. -/
theorem takes_instruction_word (hl : l ≠ .mark ':')
    (h : (statement w).Takes (.word w :: l :: ls) i) :
  instruction.Takes (.word w :: l :: ls ++ [.newline]) i
  := by
  have hcolon : (l == .mark ':') = false := by simpa using hl
  apply takes_peek
  apply takes_beforeColon
  rw [hcolon]
  exact h.bind (takes_lineEnd.last rfl)

/-- A store is read back. -/
theorem takes_store (hbase : base.isWritten) (hvalue : value.isWritten) :
  (statement (typedName "store" ty)).Takes [.word (typedName "store" ty), base.lexeme, .mark ',',
    .int offset, .mark ',', value.lexeme] (.store ty base offset value)
  := by
  unfold statement
  split
  iterate 6
    · rename_i heq
      cases typedName_ne (by decide) heq
  simp only [typedName?_typedName]
  apply takes_skip.next
  apply (takes_operand hbase).next
  apply (takes_mark ',').next
  apply takes_int.next
  apply (takes_mark ',').next
  exact (takes_operand hvalue).last rfl

/-- A value that is returned is no end of a line. -/
theorem takes_ret {value : Operand} (h : value.isWritten) :
  (statement "ret").Takes [.word "ret", value.lexeme] (.ret (some value))
  := by
  apply takes_skip.next
  apply takes_peek
  split
  · rename_i heq
    cases (value.lexeme_ne ':').2 heq
  · rename_i heq
    cases (value.lexeme_ne _).1 heq
  · exact (takes_operand h).last rfl

/-- Without a value the line ends. -/
theorem takes_return :
  instruction.Takes [.word "ret", .newline] (.ret none)
  := by
  apply takes_peek
  apply takes_beforeColon
  change ((skip >>= _) >>= _).Takes _ _
  rw [bind_assoc]
  apply takes_skip.next
  rw [bind_assoc]
  apply takes_peek
  rw [pure_bind]
  exact takes_lineEnd.last rfl

/-- An instruction other than a label is taken with the end of its line. -/
theorem takes_instruction (h : i.isWritten) (hlabel : ∀ name, i ≠ .label name) :
  instruction.Takes (lexemesIn i.row ++ [.newline]) i.withoutSpan
  := by
  cases i
  all_goals simp only [isWritten, and_eq_true] at h
  case label name => cases hlabel name rfl
  case move =>
    apply takes_instruction_dst
    apply takes_assignment
    exact (takes_operand h.2).last rfl
  case binary =>
    apply takes_instruction_dst
    apply takes_assignment
    exact takes_binary h.1.1.2 h.1.2 h.2
  case unary =>
    apply takes_instruction_dst
    apply takes_assignment
    exact takes_unary h.2
  case call dst callee args =>
    have hargs := all_eq_true.mp h.2
    have hrow : lexemesIn (Instr.call dst callee args).row =
        lexemesIn (dstRow dst) ++ .word "call" :: .global callee :: .mark '(' ::
          (lexemesIn (separated (args.map fun o => [.lexeme o.lexeme])) ++ [.mark ')']) := by
      simp only [row, lexemesIn_append, append_assoc]
      rfl
    rw [hrow]
    cases dst with
    | none =>
      apply takes_instruction_word (by simp)
      exact takes_skip.next (takes_call hargs)
    | some dst =>
      apply takes_instruction_dst
      exact takes_word.next (takes_call hargs)
  case branch cond ifTrue ifFalse =>
    apply takes_instruction_word (cond.lexeme_ne ':').1
    apply takes_skip.next
    apply (takes_operand h.1.1).next
    apply (takes_mark ',').next
    apply takes_word.next
    apply (takes_mark ',').next
    exact takes_word.last rfl
  case jump target =>
    apply takes_instruction_word (by simp)
    apply takes_skip.next
    exact takes_word.last rfl
  case load offset =>
    apply takes_instruction_dst
    apply takes_assignment
    apply (takes_operand h.2).next
    apply (takes_mark ',').next
    exact takes_int.last rfl
  case store base _ _ =>
    apply takes_instruction_word (base.lexeme_ne ':').1
    exact takes_store h.1 h.2
  case alloc =>
    apply takes_instruction_dst
    apply takes_word.next
    exact (takes_operand h.2).last rfl
  case free block =>
    apply takes_instruction_word (block.lexeme_ne ':').1
    apply takes_skip.next
    exact (takes_operand h).last rfl
  case ret value =>
    cases value with
    | none => exact takes_return
    | some value =>
      apply takes_instruction_word (value.lexeme_ne ':').1
      exact takes_ret h
  case raw dst text span =>
    cases dst with
    | none =>
      apply takes_instruction_word (by simp)
      exact takes_skip.next takes_raw
    | some dst =>
      apply takes_instruction_dst
      exact takes_word.next takes_raw

/-! ### Functions -/

/-- The ends of lines before something else are passed over. -/
theorem run_skipNewlines (more : List (Lexeme × Nat)) (lastLine : Nat)
    (hends : ends.map (·.1) = replicate k .newline) (hmore : ∀ p ∈ more.head?, p.1 ≠ .newline) :
  skipNewlines.run ⟨ends ++ more, lastLine⟩ = .ok (⟨⟩, ⟨more, lastLine⟩)
  := by
  have hall : ∀ p ∈ ends, (p.1 == .newline) := by
    intro p hp
    have hmem : p.1 ∈ ends.map (·.1) := mem_map_of_mem hp
    rw [hends] at hmem
    simpa using eq_of_mem_replicate hmem
  have hdrop : (ends ++ more).dropWhile (·.1 == .newline) = more := by
    rw [dropWhile_append_of_pos hall]
    cases more with
    | nil => rfl
    | cons p rest =>
      have hp : (p.1 == .newline) = false := by simpa using hmore p rfl
      simp [hp]
  change Except.ok ((⟨⟩ : PUnit), Reader.mk ((ends ++ more).dropWhile _) lastLine) = _
  rw [hdrop]

theorem takes_skipNewlines {f : PUnit → Read β} {k : Nat} (hl : l ≠ .newline)
    (h : (f ⟨⟩).Takes (l :: ls) b) :
  (skipNewlines >>= f).Takes (replicate k .newline ++ l :: ls) b
  := by
  intro taken rest lastLine htaken
  obtain ⟨ends, more, rfl, hends, hmore⟩ := map_eq_append_iff.mp htaken
  have hhead : ∀ p ∈ (more ++ rest).head?, p.1 ≠ .newline := by
    obtain ⟨p, others, rfl, rfl, _⟩ := map_eq_cons_iff.mp hmore
    rintro _ ⟨⟩
    apply hl
  rw [run_bind, append_assoc, run_skipNewlines _ lastLine hends hhead]
  apply h more rest lastLine hmore

theorem takes_atEnd {f : Bool → Read β} (h : (f false).Takes (l :: ls) b) :
  (atEnd >>= f).Takes (l :: ls) b
  := by
  intro taken rest lastLine htaken
  have hrun := h taken rest lastLine htaken
  obtain ⟨⟨l', line⟩, others, rfl, rfl, _⟩ := map_eq_cons_iff.mp htaken
  apply hrun

/-- The lexemes of a variable start with the word for it. -/
theorem lexemesIn_varLine {v : Var} :
  lexemesIn v.line = .word "var" :: (lexemesIn v.row ++ [.newline])
  := rfl

theorem lexemesIn_line :
  lexemesIn i.line = lexemesIn i.row ++ [.newline]
  := by
  cases i with
  | label name => rfl
  | _ => exact lexemesIn_append

/-- The first lexeme of an instruction ends neither a line nor a body, and declares no
variable. -/
theorem exists_lexemesIn_row (h : i ≠ .label "var") :
  ∃ l ls, lexemesIn i.row = l :: ls ∧ l ≠ .newline ∧ l ≠ .mark '\x7d' ∧ l ≠ .word "var"
  := by
  have hplace (p : Place) : p.lexeme ≠ .newline ∧ p.lexeme ≠ .mark '\x7d' ∧
      p.lexeme ≠ .word "var" := by
    cases p <;> simp [Place.lexeme]
  cases i with
  | label name => exact ⟨_, _, rfl, by simp, by simp, by simpa using h⟩
  | move dst | binary dst | unary dst | load dst | alloc dst => exact ⟨_, _, rfl, hplace dst⟩
  | call dst | raw dst =>
    cases dst with
    | none => exact ⟨_, _, rfl, by simp, by simp, by simp⟩
    | some dst => exact ⟨_, _, rfl, hplace dst⟩
  | store ty =>
    have hne : typedName "store" ty ≠ "var" := typedName_ne (by decide)
    exact ⟨_, _, rfl, by simp, by simp, by simpa using hne⟩
  | ret value => cases value <;> exact ⟨_, _, rfl, by simp, by simp, by simp⟩
  | branch | jump | free => exact ⟨_, _, rfl, by simp, by simp, by simp⟩

/-- The first lexeme of a body after the ends of lines decides what is read there. -/
theorem takes_body_step {function : String} {result : List Var × List Instr} {k fuel : Nat}
    (hnewline : l ≠ .newline) (hbrace : l ≠ .mark '\x7d') (h : ((do
      if (← peek) = .word "var" then
        skip
        let v ← var
        lineEnd
        let (vars, instrs) ← body function fuel
        return (v :: vars, instrs)
      else
        let i ← instruction
        let (vars, instrs) ← body function fuel
        return (vars, i :: instrs)) : Read (List Var × List Instr)).Takes (l :: ls) result) :
  (body function (fuel + 1)).Takes (replicate k .newline ++ l :: ls) result
  := by
  apply takes_skipNewlines hnewline
  apply takes_atEnd
  apply takes_mark?_ne hbrace
  apply h

/-- The instructions of a body are read back. -/
theorem takes_body_instrs (function : String) {instrs : List Instr}
    (hinstrs : ∀ i ∈ instrs, i.isWritten ∧ i ≠ .label "var") (k : Nat)
    (hfuel : instrs.length < fuel) :
  (body function fuel).Takes (replicate k .newline ++
    (lexemesIn (instrs.flatMap line) ++ [.mark '\x7d'])) ([], instrs.map withoutSpan)
  := by
  induction instrs generalizing k fuel with
  | nil =>
    obtain ⟨fuel, rfl⟩ := Nat.exists_eq_add_one.mpr hfuel
    apply takes_skipNewlines (by simp)
    apply takes_atEnd
    exact (takes_mark? '\x7d').last rfl
  | cons i rest ih =>
    obtain ⟨fuel, rfl⟩ : ∃ n, fuel = n + 1 := Nat.exists_eq_add_one.mpr (by omega)
    obtain ⟨hwritten, hne⟩ := hinstrs i mem_cons_self
    have hrest (k : Nat) := ih (fun j hj => hinstrs j (mem_cons_of_mem i hj)) k
      (Nat.lt_of_succ_lt_succ hfuel)
    obtain ⟨l, ls, hl, hnewline, hbrace, hvar⟩ := exists_lexemesIn_row hne
    rw [flatMap_cons, lexemesIn_append, lexemesIn_line, hl, append_assoc,
      append_assoc, cons_append]
    apply takes_body_step hnewline hbrace
    apply takes_peek
    rw [if_neg hvar, ← cons_append, ← hl]
    by_cases hlabel : ∃ name, i = .label name
    · obtain ⟨name, rfl⟩ := hlabel
      apply takes_label.bind
      exact (hrest 1).last rfl
    · have hi := takes_instruction hwritten fun name heq => hlabel ⟨name, heq⟩
      rw [← append_assoc (lexemesIn i.row)]
      apply hi.bind
      exact (hrest 0).last rfl

/-- The variables and the instructions of a body are read back. -/
theorem takes_body (function : String) {instrs : List Instr}
    (hinstrs : ∀ i ∈ instrs, i.isWritten ∧ i ≠ .label "var") (k fuel : Nat)
    (hfuel : vars.length + instrs.length < fuel) :
  (body function fuel).Takes (replicate k .newline ++
    (lexemesIn (vars.flatMap Var.line) ++ (lexemesIn (instrs.flatMap line) ++
      [.mark '\x7d']))) (vars, instrs.map withoutSpan)
  := by
  induction vars generalizing k fuel with
  | nil => exact takes_body_instrs function hinstrs k (by simpa using hfuel)
  | cons v rest ih =>
    obtain ⟨fuel, rfl⟩ : ∃ n, fuel = n + 1 := Nat.exists_eq_add_one.mpr (by omega)
    have hrest := ih 0 fuel (by simp only [length_cons] at hfuel; omega)
    rw [flatMap_cons, lexemesIn_append, append_assoc]
    apply takes_body_step (by simp) (by simp)
    apply takes_peek
    rw [if_pos rfl]
    apply takes_skip.next
    apply takes_var.bind
    apply takes_lineEnd.next
    exact hrest.last rfl

/-- Each line has a lexeme. -/
theorem length_le_lexemesIn_flatMap (row : α → List Piece) (hrow : ∀ a, lexemesIn (row a) ≠ [])
    (as : List α) :
  as.length ≤ (lexemesIn (as.flatMap row)).length
  := by
  induction as with
  | nil => simp
  | cons a rest ih =>
    have ha := length_pos_iff.mpr (hrow a)
    rw [flatMap_cons, lexemesIn_append, length_append, length_cons]
    omega

theorem lexemesIn_function (f : Function) :
  lexemesIn f.row = .word "func" :: .global f.name :: .mark '(' ::
    (lexemesIn (separated (f.params.map Var.row)) ++ [.mark ')'] ++
      .arrow :: .word f.result.name :: .mark '\x7b' :: (replicate 1 .newline ++
        (lexemesIn (f.vars.flatMap Var.line) ++ (lexemesIn (f.body.flatMap line) ++
          [.mark '\x7d']))))
  := by
  simp only [Function.row, lexemesIn_append, append_assoc]
  rfl

/-- A function is read back from its lexemes. -/
theorem takes_function {f : Function} (h : f.isWritten)
    (hls : lexemesIn f.row = .word "func" :: ls) :
  function.Takes ls f.withoutSpans
  := by
  simp only [Function.isWritten, and_eq_true, all_eq_true, bne_iff_ne] at h
  rw [lexemesIn_function] at hls
  cases hls
  have harrow : (accept (fun l => if l = .arrow then some PUnit.unit else none)
      fun _ => .expectedArrow).Takes [.arrow] ⟨⟩ := takes_accept (if_pos rfl)
  apply takes_globalName.next
  apply (takes_mark '(').next
  apply (takes_list Var.row (fun v _ => takes_var) fun v _ => ⟨_, _, rfl, by simp⟩).bind
  apply harrow.next
  apply takes_wordType.next
  apply (takes_mark '\x7b').next
  apply takes_get
  intro r hr
  have hvars := length_le_lexemesIn_flatMap Var.line (by simp [lexemesIn_varLine]) f.vars
  have hbody := length_le_lexemesIn_flatMap line (by simp [lexemesIn_line]) f.body
  have hfuel : f.vars.length + f.body.length < r.rest.length + 1 := by
    simp only [length_append] at hr
    omega
  exact (takes_body f.name h.2 1 _ hfuel).last rfl

/-! ### Modules -/

theorem takes_entry : (part m).Takes (lexemesIn (startRow "entry" name)) { m with entry := name }
  := by
  apply takes_word.next
  apply takes_globalName.next
  exact takes_lineEnd.last rfl

theorem takes_init : (part m).Takes (lexemesIn (startRow "init" name)) { m with init := some name }
  := by
  apply takes_word.next
  apply takes_globalName.next
  exact takes_lineEnd.last rfl

theorem takes_global :
  (part m).Takes (lexemesIn g.globalLine) { m with globals := m.globals ++ [g] }
  := by
  apply takes_word.next
  apply takes_globalName.next
  apply (takes_mark ':').next
  apply takes_wordType.next
  exact takes_lineEnd.last rfl

/-- A text of the module is read back. -/
theorem takes_string (m : Module) (s : String) (h : m.strings.length < wordCount) :
  (part m).Takes (lexemesIn (stringLine s m.strings.length)) { m with strings := m.strings ++ [s] }
  := by
  have hoperand : operand.Takes [.global s!"str.{m.strings.length}"] (.str m.strings.length) :=
    takes_accept (congrArg some (globalOperand_string h))
  apply takes_word.next
  have hstring : (stringConstant m.strings.length).Takes
      [.global s!"str.{m.strings.length}", .mark '=', .str s] s := by
    apply hoperand.next
    simp only [ne_eq, not_true_eq_false]
    apply (takes_mark '=').next
    apply takes_peek
    exact takes_skip.last rfl
  apply hstring.bind
  exact takes_lineEnd.last rfl

theorem takes_func (m : Module) {f : Function} (h : f.isWritten) :
  (part m).Takes (lexemesIn f.row) { m with functions := m.functions ++ [f.withoutSpans] }
  := by
  have hrow := lexemesIn_function f
  rw [hrow]
  apply takes_word.next
  exact (takes_function h hrow).last rfl

/-- The parts of a module are read from the lexemes that are left, with fuel for each. -/
def Completes (m : Module) (ls : List Lexeme) (m' : Module) : Prop :=
  ∀ (taken : List (Lexeme × Nat)) (lastLine fuel : Nat), taken.map (·.1) = ls → ls.length < fuel →
    (parts fuel m).run ⟨taken, lastLine⟩ = .ok (m', ⟨[], lastLine⟩)

theorem completes_nil {m : Module} {k : Nat} :
  Completes m (replicate k .newline) m
  := by
  intro taken lastLine fuel htaken hfuel
  obtain ⟨fuel, rfl⟩ : ∃ n, fuel = n + 1 := Nat.exists_eq_add_one.mpr (by omega)
  have hskip := run_skipNewlines [] lastLine htaken (by simp)
  rw [append_nil] at hskip
  rw [parts, run_bind, hskip]
  rfl

/-- One part after the other is read. -/
theorem Completes.part (k : Nat) (h : Completes m₁ rest m') (hl : l ≠ .newline)
    (hpart : (part m).Takes (l :: ls) m₁) :
  Completes m (replicate k .newline ++ (l :: ls ++ rest)) m'
  := by
  intro taken lastLine fuel htaken hfuel
  obtain ⟨fuel, rfl⟩ : ∃ n, fuel = n + 1 := Nat.exists_eq_add_one.mpr (by omega)
  obtain ⟨ends, more, rfl, hends, hmore⟩ := map_eq_append_iff.mp htaken
  obtain ⟨first, others, rfl, hfirst, hothers⟩ := map_eq_append_iff.mp hmore
  obtain ⟨p, tail, rfl, rfl, hrest⟩ := map_eq_cons_iff.mp hfirst
  have hskip := run_skipNewlines (p :: tail ++ others) lastLine hends (by simpa using hl)
  rw [parts, run_bind, hskip]
  have hrun := hpart (p :: tail) others lastLine hfirst
  change (part m >>= parts fuel).run ⟨p :: tail ++ others, lastLine⟩ = _
  rw [run_bind, hrun]
  apply h others lastLine fuel hothers
  simp only [length_append, length_cons] at hfuel
  omega

/-- Functions are read one after the other. -/
theorem completes_functions (m : Module) {fs : List Function} (hfs : ∀ f ∈ fs, f.isWritten)
    (k : Nat) :
  Completes m (replicate k .newline ++ (lexemesIn (fs.flatMap Function.block) ++ [.newline]))
    { m with functions := m.functions ++ fs.map .withoutSpans }
  := by
  induction fs generalizing m k with
  | nil =>
    have hend : replicate k Lexeme.newline ++ [.newline] =
        replicate (k + 1) .newline := replicate_succ'.symm
    simpa [lexemesIn, hend] using completes_nil
  | cons f rest ih =>
    have hf := takes_func m (hfs f mem_cons_self)
    have hrest := ih { m with functions := m.functions ++ [f.withoutSpans] }
      (fun g hg => hfs g (mem_cons_of_mem f hg)) 1
    have hblock : lexemesIn f.block = .newline :: (lexemesIn f.row ++ [.newline]) :=
      lexemesIn_append
    rw [lexemesIn_function] at hf hblock
    have hpart := hrest.part (k + 1) (by simp) hf
    rw [flatMap_cons, lexemesIn_append, hblock]
    simpa [replicate_succ'] using hpart

/-- String constants are numbered from zero on. -/
theorem completes_strings (hlength : m.strings.length + ss.length ≤ wordCount)
    (h : Completes { m with strings := m.strings ++ ss } rest m') :
  Completes m
    (lexemesIn ((ss.zipIdx m.strings.length).flatMap fun (s, i) => stringLine s i) ++ rest) m'
  := by
  induction ss generalizing m with
  | nil =>
    rw [append_nil] at h
    exact h
  | cons s others ih =>
    simp only [length_cons] at hlength
    have hs := takes_string m s (by omega)
    have hothers := ih (m := { m with strings := m.strings ++ [s] })
      (by simp only [length_append, length_cons, length_nil]; omega)
      (by simpa using h)
    rw [length_append] at hothers
    exact hothers.part 0 (by simp) hs

theorem completes_globals (h : Completes { m with globals := m.globals ++ gs } rest m') :
  Completes m (lexemesIn (gs.flatMap Var.globalLine) ++ rest) m'
  := by
  induction gs generalizing m with
  | nil =>
    rw [append_nil] at h
    exact h
  | cons g others ih =>
    have hothers := ih (m := { m with globals := m.globals ++ [g] }) (by simpa using h)
    rw [flatMap_cons, lexemesIn_append]
    exact hothers.part 0 (by simp) takes_global

theorem completes_init (hm : m.init = none) (h : Completes { m with init } rest m') :
  Completes m (lexemesIn (init.elim [] (startRow "init")) ++ rest) m'
  := by
  cases init with
  | none =>
    rw [← hm] at h
    exact h
  | some name => exact h.part 0 (by simp) takes_init

/-- A module is read from its row. -/
theorem completes_row (h : m.isWritten) :
  Completes ⟨[], [], [], "main", none⟩ (lexemesIn m.row ++ [.newline]) m.withoutSpans
  := by
  simp only [Module.isWritten, and_eq_true, all_eq_true] at h
  obtain ⟨⟨_, hlength⟩, hfunctions⟩ := h
  have hrow : lexemesIn m.row ++ [.newline] = lexemesIn (startRow "entry" m.entry) ++
      (lexemesIn (m.init.elim [] (startRow "init")) ++
        (lexemesIn (m.globals.flatMap Var.globalLine) ++
          (lexemesIn (m.strings.zipIdx.flatMap fun (s, i) => stringLine s i) ++
            (lexemesIn (m.functions.flatMap Function.block) ++ [.newline])))) := by
    simp [Module.row]
  rw [hrow]
  refine .part 0 ?_ (by simp) takes_entry
  apply completes_init rfl
  apply completes_globals
  apply completes_strings (by simpa using hlength)
  exact completes_functions ⟨[], m.globals, m.strings, m.entry, m.init⟩ hfunctions 0

end Read

/-- A module that can be written, and has no floating-point numbers, is read back as the same
module without places in a source. -/
theorem Module.read_render (h : m.isWritten) (hfloat : m.isFloatless) :
  read m.render = .ok m.withoutSpans
  := by
  obtain ⟨ls, hread, hls⟩ := exists_lexemesFrom_spell (isRow_row h hfloat) 1
  have hlexemes : lexemes m.render = .ok ls := by
    rw [lexemes, toList_render, hread]
  have hrun := Read.completes_row h ls ((ls.getLast?.map (·.2)).getD 1) (ls.length + 1) hls
    (by rw [← hls, length_map]; omega)
  rw [read, Read.whole, hlexemes]
  change Except.bind (run _ _) _ = _
  rw [hrun]
  rfl

end Endmark.Ir
