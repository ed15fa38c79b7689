import Endmark.Proofs.Tree.Erasure
import Endmark.Proofs.Tree.Similar
import Endmark.Proofs.Tree.Whole

/-!
# Expressions read twice

From the same words the same expression is read, up to spans, unless something is reported.  The
fields of f-strings are cut into tokens again, which say the same wherever the field is.
-/

namespace Endmark.Tree

open Token
open Tree.Expr
open List Option Bool

/-! ### Trees that say the same -/

/-- The blocks say the same. -/
def RawBlock.Retold (b b' : RawBlock) : Prop :=
  b'.withoutSpan = b.withoutSpan

/-- The types say the same. -/
def TypeExpr.Retold (t t' : TypeExpr) : Prop :=
  t'.withoutSpans = t.withoutSpans

/-- The expressions say the same, and are whole. -/
structure Expr.Retold (e e' : Expr) : Prop where
  same : e'.withoutSpans = e.withoutSpans
  whole : e.isWhole = true

variable {e' e : Expr}

theorem Expr.exists_name_of_same (h : e'.withoutSpans = (name s n).withoutSpans) :
  ∃ s', e' = .name s' n
  := by
  cases e' with
  | name s' n' =>
    cases h
    exact ⟨s', rfl⟩
  | _ => cases h

theorem Expr.exists_index_of_same (h : e'.withoutSpans = (index s base i).withoutSpans) :
  ∃ s' base' i', e' = .index s' base' i' ∧ base'.withoutSpans = base.withoutSpans ∧
    i'.withoutSpans = i.withoutSpans
  := by
  cases e' with
  | index s' base' i' =>
    simp only [withoutSpans, index.injEq] at h
    exact ⟨s', base', i', rfl, h.2.1, h.2.2⟩
  | _ => cases h

theorem Expr.Retold.withSpan (h : e.Retold e') :
  (e.withSpan s).Retold (e'.withSpan s')
  := by
  constructor
  · rw [withoutSpans_withSpan, withoutSpans_withSpan, h.same]
  · have hwhole := h.whole
    cases e <;> exact hwhole

@[inherit_doc Expr.Retold]
structure Expr.RetoldAll (es es' : List Expr) : Prop where
  same : Expr.withoutSpansAll es' = Expr.withoutSpansAll es
  whole : Expr.areWhole es = true

theorem Expr.RetoldAll.nil :
  RetoldAll [] []
  := ⟨rfl, rfl⟩

theorem Expr.RetoldAll.cons (h : e.Retold e') (hes : RetoldAll es es') :
  RetoldAll (e :: es) (e' :: es')
  := ⟨congrArg₂ List.cons h.same hes.same, and_eq_true_iff.mpr ⟨h.whole, hes.whole⟩⟩

@[inherit_doc Expr.Retold]
structure Expr.RetoldParts (parts parts' : List FStringPart) : Prop where
  same : Expr.withoutSpansParts parts' = Expr.withoutSpansParts parts
  whole : Expr.arePartsWhole parts = true

/-- The readers for fields whose bodies are shorter than `n` bytes read the same, wherever these
are. -/
def FieldReader.Follow (n : Nat) (field field' : FieldReader) : Prop :=
  ∀ (K : List Construct) (m offset offset' : Nat) (body : List UInt8), body.length < n →
    Follows m K K (field offset body) (field' offset' body) (Option.Rel Expr.Retold)

/-- The readers for expressions one level deeper read the same. -/
structure Deeper.Follow (n : Nat) (deeper deeper' : Deeper) : Prop where
  expr : ∀ K, Follows n K K deeper.expr deeper'.expr Expr.Retold
  negation : ∀ K, Follows n K K deeper.negation deeper'.negation Expr.Retold
  unary : ∀ K, Follows n K K deeper.unary deeper'.unary Expr.Retold

namespace Reader

/-! ### Raw blocks and types -/

theorem follows_rawBlock :
  Follows n K K rawBlock rawBlock (Given RawBlock.Retold)
  := by
  unfold rawBlock
  simp only [pure_bind]
  refine follows_advance fun word word' hword => ?_
  rw [hword.kind]
  refine follows_expect fun opening opening' _ _ => ?_
  refine follows_peek fun kind => ?_
  apply follows_ite
  · refine follows_advance fun text text' htext => ?_
    refine follows_expect fun _ _ _ _ => follows_pure ⟨_, _, rfl, rfl, ?_⟩
    simp [RawBlock.Retold, RawBlock.withoutSpan, htext.text]
  · exact follows_expect fun _ _ _ _ => follows_pure ⟨_, _, rfl, rfl, rfl⟩

theorem follows_typeExprIn {fuel : Nat} :
  Follows n K K (typeExprIn fuel) (typeExprIn fuel) (Rel TypeExpr.Retold)
  := by
  induction fuel with
  | zero => exact follows_pure .none
  | succ fuel ih =>
    refine follows_current fun t t' ht => ?_
    rw [ht.kind, ht.text]
    cases t.kind with
    | ident =>
      apply follows_step
      have hname (s s' : Span) : (TypeExpr.named s t.text).Retold (.named s' t.text) := rfl
      apply follows_ite
      · refine follows_eat fun isList => ?_
        refine follows_ite ?_ (follows_pure (.some (hname _ _)))
        refine follows_option ih (follows_pure .none) fun item item' hitem => ?_
        refine follows_expect fun _ _ _ _ => follows_pure (.some ?_)
        exact congrArg (TypeExpr.list .nowhere) hitem
      · exact follows_pure (.some (hname _ _))
    | noneLiteral => exact follows_step (follows_pure (.some rfl))
    | _ => apply follows_report_then

theorem follows_typeExpr :
  Follows n K K typeExpr typeExpr (Rel TypeExpr.Retold)
  := by
  refine follows_tokensAhead fun count => ?_
  apply follows_typeExprIn

/-! ### Operands -/

theorem retold_joined (hlhs : lhs.Retold lhs') (hrhs : rhs.Retold rhs') :
  (joined op lhs rhs).Retold (joined op lhs' rhs')
  := ⟨congrArg₂ (binary .nowhere op) hlhs.same hrhs.same,
    and_eq_true_iff.mpr ⟨hlhs.whole, hrhs.whole⟩⟩

section

variable [Grows expr] (h : Follows n K K expr expr' Expr.Retold)

include h

theorem follows_commaListIn :
  Follows n K K (commaListIn expr closing fuel) (commaListIn expr' closing fuel) RetoldAll
  := by
  induction fuel with
  | zero => exact follows_pure .nil
  | succ fuel ih =>
    refine follows_then h fun item item' hitem => ?_
    refine follows_eat fun more => ?_
    refine follows_peek fun kind => ?_
    apply follows_ite
    · exact follows_pure (.cons hitem .nil)
    · exact follows_then ih fun rest rest' hrest => follows_pure (.cons hitem hrest)

theorem follows_commaList (closing : Kind) :
  Follows n K K (commaList expr closing) (commaList expr' closing) RetoldAll
  := by
  refine follows_peek fun kind => ?_
  apply follows_ite
  · exact follows_pure .nil
  · refine follows_tokensAhead fun count => ?_
    apply follows_commaListIn h

theorem follows_chainIn {fuel : Nat} (hlhs : lhs.Retold lhs') :
  Follows n K K (chainIn op? expr fuel lhs) (chainIn op? expr' fuel lhs') Retold
  := by
  induction fuel generalizing lhs lhs' with
  | zero => exact follows_pure hlhs
  | succ fuel ih =>
    refine follows_peek fun kind => ?_
    cases op? kind with
    | none => exact follows_pure hlhs
    | some op =>
      apply follows_step
      exact follows_then h fun rhs rhs' hrhs => ih (retold_joined hlhs hrhs)

theorem follows_chain (op? : Kind → Option BinaryOp) :
  Follows n K K (chain op? expr) (chain op? expr') Retold
  := by
  refine follows_then h fun lhs lhs' hlhs => ?_
  refine follows_tokensAhead fun count => ?_
  exact follows_chainIn h hlhs

omit [Grows expr] in
theorem follows_applied {op : UnaryOp} :
  Follows n K K (applied op expr) (applied op expr') Retold
  := by
  refine follows_advance fun t t' _ => ?_
  refine follows_then h fun e e' he => follows_pure ?_
  exact ⟨congrArg (Expr.unary .nowhere op) he.same, he.whole⟩

end

/-- The body of a field is a part of that of its f-string. -/
theorem infix_of_mem_segmentsFrom {raw : List UInt8}
    (h : .field offset body ∈ segmentsFrom fuel start raw rest) :
  body <:+: rest
  := by
  have hflush {raw : List UInt8} {segments : List Segment}
      (hmem : .field offset body ∈ Segment.flush raw segments) :
      .field offset body ∈ segments := by
    rw [Segment.flush] at hmem
    split at hmem
    · exact hmem
    · exact (mem_cons.mp hmem).resolve_left fun heq => nomatch heq
  induction fuel generalizing start raw rest with
  | zero => cases hflush h
  | succ fuel ih =>
    cases rest with
    | nil => cases hflush h
    | cons b rest =>
      have hdrop {k start' : Nat} {raw' : List UInt8}
          (hmem : .field offset body ∈ segmentsFrom fuel start' raw' (rest.drop k)) :
          body <:+: b :: rest :=
        ((ih hmem).trans (drop_suffix k rest).isInfix).trans (suffix_cons b rest).isInfix
      rw [segmentsFrom] at h
      split at h
      · split at h
        · exact hdrop h
        · have h := hflush h
          split at h
          · obtain heq | h := mem_cons.mp h
            · cases heq
              exact ( take_prefix _ rest).isInfix.trans (suffix_cons b rest).isInfix
            · exact hdrop h
          · cases (mem_singleton.mp h)
      · split at h
        · split at h
          · exact hdrop h
          · obtain heq | h := mem_cons.mp h
            · cases heq
            · exact hdrop (k := 0) h
        · split at h
          · exact hdrop h
          · exact hdrop (k := 0) h

section

variable {field : FieldReader} [∀ offset body, Grows (field offset body)]
  (hfield : field.Follow n field')

include hfield

theorem follows_fstringParts {base' : Nat} {segments : List Segment}
    (hsegments : ∀ offset body, .field offset body ∈ segments → body.length < n) :
  Follows n K K (fstringParts field file base segments) (fstringParts field' file' base' segments)
    RetoldParts
  := by
  induction segments with
  | nil => exact follows_pure ⟨rfl, rfl⟩
  | cons segment rest ih =>
    have ih := ih fun offset body hmem => hsegments offset body (mem_cons_of_mem _ hmem)
    cases segment with
    | text raw =>
      refine follows_then ih fun parts parts' hparts => follows_pure ?_
      exact ⟨congrArg (cons _) hparts.same, hparts.whole⟩
    | field offset body =>
      have hbody := hsegments offset body mem_cons_self
      refine follows_option (hfield K n _ _ body hbody) ih fun e e' he => ?_
      refine follows_then ih fun parts parts' hparts => follows_pure ?_
      exact ⟨congrArg₂ cons (congrArg FStringPart.field he.same) hparts.same,
        and_eq_true_iff.mpr ⟨he.whole, hparts.whole⟩⟩
    | stray offset =>
      apply follows_report_then
    | unclosed offset =>
      apply follows_report_then

variable {deeper : Deeper} [deeper.Grow] (hdeeper : deeper.Follow n deeper')

include hdeeper

/-- Primary expressions are read alike. -/
theorem follows_primary :
  Follows n K K (primary field deeper) (primary field' deeper') Retold
  := by
  unfold primary
  dsimp only
  refine follows_current fun t t' ht => ?_
  rw [ht.kind, ht.text]
  cases hkind : t.kind with
  | intLiteral =>
    apply follows_step
    cases Number.literal? t.text with
    | some value => exact follows_pure ⟨rfl, rfl⟩
    | none => apply follows_report_then
  | floatLiteral =>
    apply follows_step
    cases Number.Binary64.read (t.text.toList.filter (· != '_')) with
    | some value => exact follows_pure ⟨rfl, rfl⟩
    | none => apply follows_report_then
  | stringLiteral =>
    apply follows_step
    exact follows_pure ⟨rfl, rfl⟩
  | fstringLiteral =>
    apply follows_step
    have hsegments : ∀ offset body, .field offset body ∈ segments (Text.bytes t.text) →
        body.length < n := fun offset body hmem =>
      lt_of_le_of_lt (infix_of_mem_segmentsFrom hmem).length_le (ht.proper.body hkind)
    refine follows_then (follows_fstringParts hfield hsegments)
      fun parts parts' hparts => follows_pure ⟨?_, hparts.whole⟩
    exact congrArg (fstring .nowhere) hparts.same
  | boolLiteral =>
    apply follows_step
    exact follows_pure ⟨rfl, rfl⟩
  | noneLiteral =>
    apply follows_step
    exact follows_pure ⟨rfl, rfl⟩
  | ident =>
    apply follows_step
    exact follows_pure ⟨rfl, ht.proper.name hkind⟩
  | leftParen =>
    apply follows_step
    refine follows_then (hdeeper.expr K) fun inner inner' hinner => ?_
    refine follows_current fun next next' hnext => ?_
    rw [hnext.kind]
    refine follows_ite (follows_report_then _ _) ?_
    refine follows_expect fun _ _ _ _ => ?_
    exact follows_spanFrom fun s s' => follows_pure hinner.withSpan
  | leftBracket =>
    apply follows_step
    refine follows_then (follows_commaList (hdeeper.expr K) _) fun items items' hitems => ?_
    refine follows_expect fun _ _ _ _ => ?_
    refine follows_spanFrom fun s s' => follows_pure ?_
    exact ⟨congrArg (list .nowhere) hitems.same, hitems.whole⟩
  | wordAilang | wordAsm =>
    refine follows_given follows_rawBlock fun block block' hblock => ?_
    refine follows_spanFrom fun s s' => follows_pure ?_
    exact ⟨congrArg (raw .nowhere) hblock, rfl⟩
  | _ => apply follows_report_then

omit hfield [∀ offset body, Grows (field offset body)] in
/-- Suffixes are read alike. -/
theorem follows_suffixesIn {fuel : Nat} (he : e.Retold e') :
  Follows n K K (suffixesIn deeper fuel e) (suffixesIn deeper' fuel e') Retold
  := by
  induction fuel generalizing e e' with
  | zero => exact follows_pure he
  | succ fuel ih =>
    refine follows_peek fun kind => ?_
    cases kind with
    | leftParen =>
      apply follows_step
      have hargs := follows_commaList (hdeeper.expr K) .rightParen
      cases e with
      | name s name =>
        obtain ⟨s', rfl⟩ := exists_name_of_same he.same
        refine follows_then hargs fun args args' hargs => ?_
        refine follows_expect fun _ _ _ _ => ?_
        refine follows_spanFrom fun _ _ => ih ?_
        exact ⟨congrArg (call .nowhere ⟨name, .nowhere⟩) hargs.same,
          and_eq_true_iff.mpr ⟨he.whole, hargs.whole⟩⟩
      | error s => cases he.whole
      | _ =>
        refine follows_then hargs fun args args' hargs => ?_
        refine follows_expect fun _ _ _ _ => ?_
        refine follows_spanFrom fun _ _ => ?_
        apply follows_report_then
    | leftBracket =>
      apply follows_step
      refine follows_then (hdeeper.expr K) fun i i' hi => ?_
      refine follows_expect fun _ _ _ _ => ?_
      refine follows_spanFrom fun s s' => ih ?_
      exact ⟨congrArg₂ (index .nowhere) he.same hi.same,
        and_eq_true_iff.mpr ⟨he.whole, hi.whole⟩⟩
    | dot =>
      refine follows_advance fun _ _ _ => ?_
      apply follows_report_then
    | _ => exact follows_pure he

theorem follows_operand :
  Follows n K K (operand field deeper) (operand field' deeper') Retold
  := by
  refine follows_then (follows_primary hfield hdeeper) fun e e' he => ?_
  refine follows_tokensAhead fun count => ?_
  exact follows_suffixesIn hdeeper he

/-! ### Operators -/

theorem follows_power :
  Follows n K K (power field deeper) (power field' deeper') Retold
  := by
  refine follows_then (follows_operand hfield hdeeper) fun base base' hbase => ?_
  refine follows_eat fun found => ?_
  refine follows_ite ?_ (follows_pure hbase)
  exact follows_then (hdeeper.unary K) fun e e' he => follows_pure (retold_joined hbase he)

theorem follows_unary :
  Follows n K K (unary field deeper) (unary field' deeper') Retold
  := by
  refine follows_peek fun kind => ?_
  cases kind with
  | minus => exact follows_applied (hdeeper.unary K)
  | plus => exact follows_applied (hdeeper.unary K)
  | _ => exact follows_power hfield hdeeper

theorem follows_arithmetic :
  Follows n K K (arithmetic field deeper) (arithmetic field' deeper') Retold
  := by
  apply follows_chain
  apply follows_chain
  exact follows_unary hfield hdeeper

/-- Comparisons are read alike. -/
theorem follows_comparison :
  Follows n K K (comparison field deeper) (comparison field' deeper') Retold
  := by
  refine follows_bind (follows_arithmetic hfield hdeeper) (fun lhs => ?_) fun lhs lhs' hlhs => ?_
  · refine grows_bind fun kind => ?_
    split <;> infer_instance
  refine follows_peek fun kind => ?_
  cases comparisonOp? kind with
  | none => exact follows_pure hlhs
  | some op =>
    apply follows_step
    refine follows_then (follows_arithmetic hfield hdeeper) fun rhs rhs' hrhs => ?_
    refine follows_current fun next next' hnext => ?_
    rw [hnext.kind]
    refine follows_ite (follows_report_then _ _) ?_
    exact follows_pure (retold_joined hlhs hrhs)

theorem follows_negation :
  Follows n K K (negation field deeper) (negation field' deeper') Retold
  := by
  refine follows_peek fun kind => ?_
  cases kind with
  | wordNot => exact follows_applied (hdeeper.negation K)
  | _ => exact follows_comparison hfield hdeeper

theorem follows_disjunction :
  Follows n K K (disjunction field deeper) (disjunction field' deeper') Retold
  := by
  apply follows_chain
  apply follows_chain
  exact follows_negation hfield hdeeper

omit hdeeper [deeper.Grow] in
/-- Expressions are read the same with any number of levels of nesting left. -/
theorem follows_deeper {levels : Nat} :
  (Reader.deeper field levels).Follow n (Reader.deeper field' levels)
  := by
  induction levels with
  | zero =>
    have hdeep (K : List Construct) : Follows n K K tooDeepExpr tooDeepExpr Retold :=
      follows_tooDeep_then
    exact ⟨hdeep, hdeep, hdeep⟩
  | succ levels ih =>
    exact ⟨fun K => follows_disjunction hfield ih, fun K => follows_negation hfield ih,
      fun K => follows_unary hfield ih⟩

/-! ### Fields of f-strings -/

omit hdeeper [deeper.Grow] in
theorem follows_fieldExpr :
  Follows n K K (fieldExpr field) (fieldExpr field') Retold
  := by
  refine follows_then ((follows_deeper hfield).expr K) fun e e' he => ?_
  refine follows_current fun next next' hnext => ?_
  rw [hnext.kind]
  exact follows_ite (follows_report_then _ _) (follows_pure he)

end

theorem mapM_id_eq_ok {items : List Token.Item} :
  items.mapM id = .ok ts ↔ items = ts.map .ok
  := by
  induction items generalizing ts with
  | nil => cases ts <;> simp [pure, Except.pure]
  | cons item items ih =>
    cases item with
    | error e => cases ts <;> simp [bind, Except.bind]
    | ok t =>
      cases hrest : items.mapM id with
      | error e => cases ts <;> simp [bind, Except.bind, ← ih, hrest]
      | ok rest => cases ts <;> simp [bind, Except.bind, pure, Except.pure, ← ih, hrest]

theorem map_word_filter {ts : List Token} :
  (ts.filter (·.kind != .endOfFile)).map word =
    (ts.map word).filter (·.kind != .endOfFile)
  := by
  rw [List.filter_map]
  rfl

/-- The tokens of a field say the same wherever it is, or one is missing wherever it is. -/
theorem fieldTokens_itemsAt :
  (∀ file offset, ∃ e, fieldTokens (itemsAt file offset body) = .error e) ∨
    ∃ words : List Word, (∀ w ∈ words, w.Proper body.length) ∧ ∀ file offset, ∃ ts,
      fieldTokens (itemsAt file offset body) = .ok ts ∧ ts.map word = words
  := by
  simp only [fieldTokens]
  by_cases hcut : ∃ pieces last, Cut false body pieces last
  · obtain ⟨pieces, last, hcut⟩ := hcut
    refine .inr ⟨(pieces.map Piece.word).filter (·.kind != .endOfFile), fun w hw => ?_,
      fun file offset => ⟨_, by
        rw [itemsAt, hcut.scan_eq (Nat.lt_succ_self _) rfl, mapM_id_eq_ok.mpr rfl]
        rfl, ?_⟩⟩
    · obtain ⟨p, hp, rfl⟩ := mem_map.mp (mem_of_mem_filter hw)
      exact hcut.proper p hp
    · rw [map_word_filter, map_append, map_word_placed, filter_append]
      exact append_nil _
  · refine .inl fun file offset => ?_
    cases hitems : (itemsAt file offset body).mapM id with
    | error e => exact ⟨e, rfl⟩
    | ok ts =>
      have hquiet : errorsIn (itemsAt file offset body) = [] := by
        rw [mapM_id_eq_ok.mp hitems, errorsIn_ok]
      exact absurd (exists_cut (Nat.lt_succ_self _) hquiet) hcut

/-- Cursors before the same words are alike. -/
theorem similar_start (hwords : ts'.map word = ts.map word) (hproper : ∀ t ∈ ts, t.word.Proper n)
    (hfinish : finish.kind = .endOfFile) (hfinish' : finish'.word = finish.word) :
  Similar n [] (.start ts finish) (.start ts' finish')
  := by
  have hkind : finish'.kind = .endOfFile := (congrArg Word.kind hfinish').trans hfinish
  refine ⟨⟨rfl, rfl, rfl, rfl, hfinish, hproper⟩, ⟨rfl, rfl, rfl, rfl, hkind, ?_⟩, hwords, hfinish'⟩
  intro t' ht'
  have hmem : t'.word ∈ ts'.map word := mem_map_of_mem ht'
  rw [hwords] at hmem
  obtain ⟨t, ht, hword⟩ := mem_map.mp hmem
  rw [← hword]
  exact hproper t ht

theorem follows_adopt {R : α → α → Prop} [hgrows : ∀ a, Grows (f a)]
    (h : 0 < reports.size ∨ reports = #[] ∧ reports' = #[] ∧ Follows n K K' (f ()) (g ()) R) :
  Follows n K K' (modify (·.adopt reports) >>= f) (modify (·.adopt reports') >>= g) R
  := by
  intro c c' hsimilar
  rcases h with hloud | ⟨rfl, rfl, hf⟩
  · left
    have hadopted : Loud (c.adopt reports) := by
      rw [Loud, Cursor.adopt, hsimilar.left.halted]
      simp only [false_eq_true, if_false, Array.size_append]
      omega
    exact lt_of_lt_of_le hadopted ((hgrows _).le _)
  · have hsame {c : Cursor} (hc : Quiet n K c) : c.adopt #[] = c := by
      rw [Cursor.adopt, if_neg (by simp [hc.halted]), Array.append_empty]
    have hrest := hf c c' hsimilar
    change Loud (f () (c.adopt #[])).2 ∨ Similar n K' (f () (c.adopt #[])).2 (g () (c'.adopt #[])).2 ∧
      R (f () (c.adopt #[])).1 (g () (c'.adopt #[])).1
    rwa [hsame hsimilar.left, hsame hsimilar.right]

/-- The fields of f-strings are read alike. -/
theorem follows_fieldWith [∀ offset body, Grows (field offset body)]
    (hfield : field.Follow body.length field') :
  Follows n K K (fieldWith field offset body) (fieldWith field' offset' body)
    (Rel Retold)
  := by
  apply follows_get
  intro c c' _
  dsimp only
  obtain hfault | ⟨words, hproper, htokens⟩ := fieldTokens_itemsAt
  · obtain ⟨e, he⟩ := hfault c.finish.span.file offset
    rw [he]
    apply follows_report_then
  · obtain ⟨ts, hts, rfl⟩ := htokens c.finish.span.file offset
    obtain ⟨ts', hts', hwords⟩ := htokens c'.finish.span.file offset'
    rw [hts, hts']
    rcases ts with - | ⟨t, ts⟩
    · apply follows_report_then
    · obtain ⟨t', ts', rfl, -, -⟩ := map_eq_cons_iff.mp hwords
      have hstart : Similar body.length []
          (.start (t :: ts) (.atEnd c.finish.span.file (offset + body.length)))
          (.start (t' :: ts') (.atEnd c'.finish.span.file (offset' + body.length))) := by
        refine similar_start hwords ?_ rfl rfl
        exact fun t ht => hproper _ (mem_map_of_mem ht)
      have hinner := follows_fieldExpr hfield _ _ hstart
      simp only [StateT.run]
      generalize fieldExpr field (.start (t :: ts) _) = inner at hinner ⊢
      generalize fieldExpr field' (.start (t' :: ts') _) = inner' at hinner ⊢
      apply follows_adopt
      rcases hinner with hloud | ⟨hsimilar, he⟩
      · exact .inl hloud
      · refine .inr ⟨hsimilar.left.reports, hsimilar.right.reports, follows_pure ?_⟩
        rw [hsimilar.left.reports, hsimilar.right.reports]
        exact .some he

/-- The fields of f-strings are read the same. -/
theorem follow_fieldIn (hfuel : n ≤ fuel) (hfuel' : n ≤ fuel') :
  (fieldIn fuel).Follow n (fieldIn fuel')
  := by
  induction fuel generalizing n fuel' with
  | zero =>
    intro K m offset offset' body hbody
    omega
  | succ fuel ih =>
    intro K m offset offset' body hbody
    obtain ⟨fuel', rfl⟩ := Nat.exists_eq_succ_of_ne_zero (show fuel' ≠ 0 by omega)
    exact follows_fieldWith (ih (by omega) (by omega))

end Reader

end Endmark.Tree
