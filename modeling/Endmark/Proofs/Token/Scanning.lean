import Endmark.Proofs.Text.Utf8
import Endmark.Proofs.Token.Layout

/-!
# Sources with other layout

A source without faults is cut into tokens with layout between them.  When the layout is replaced by
other layout, the tokens say the same.
-/

namespace Endmark

open List

/-- What a token says, wherever it is. -/
structure Token.Word where
  kind : Token.Kind
  text : String
deriving DecidableEq, Repr

@[inherit_doc Token.Word]
def Token.word (t : Token) : Token.Word :=
  ⟨t.kind, t.text⟩

namespace Token

open Text (byte isDigitByte isLetterByte isContinuation ofBytes)

/-! ### Widths -/

variable {kind : Kind}

/-- There are so many bytes ahead, each of them an ASCII character. -/
structure Plain (width : Nat) (ahead : List UInt8) : Prop where
  le : width ≤ ahead.length
  ascii : ∀ x ∈ ahead.take width, x < 0x80

theorem plain_zero :
  Plain 0 ahead
  := ⟨Nat.zero_le _, by simp⟩

theorem plain_one (hb : b < 0x80) {rest : List UInt8} :
  Plain 1 (b :: rest)
  := ⟨by simp, by simpa using hb⟩

theorem Plain.add (h : Plain n ahead) (h' : Plain width (ahead.drop n)) :
  Plain (n + width) ahead
  := by
  have hle := h.le
  have hle' := h'.le
  rw [length_drop] at hle'
  refine ⟨by omega, fun x hx => ?_⟩
  rw [take_add, mem_append] at hx
  exact hx.elim (h.ascii x) (h'.ascii x)

theorem plain_run (hp : ∀ x, p x → x < 0x80) (ahead : List UInt8) :
  Plain (runWidth p ahead) ahead
  := by
  refine ⟨(takeWhile_sublist p).length_le, fun x hx => hp x ?_⟩
  rw [runWidth, ← prefix_iff_eq_take.mp ( takeWhile_prefix p)] at hx
  exact mem_takeWhile_imp hx

/-- The bytes of a width that is not zero, and what follows them. -/
theorem Plain.split (h : Plain width (b :: rest)) (hpos : 0 < width) :
  ∃ t r, rest = t ++ r ∧ width = t.length + 1 ∧ ∀ x ∈ b :: t, x < 0x80
  := by
  obtain ⟨n, rfl⟩ := Nat.exists_eq_succ_of_ne_zero (ne_zero_of_lt hpos)
  have hle := Nat.le_of_succ_le_succ h.le
  exact ⟨rest.take n, rest.drop n, (take_append_drop n rest).symm,
    by rw [length_take, min_eq_left hle], h.ascii⟩

theorem plain_digits :
  Plain (digitsWidth ahead) ahead
  := plain_run (by decide +kernel) ahead

theorem plain_fraction :
  Plain (fractionWidth ahead) ahead
  := by
  rw [fractionWidth_eq]
  split
  case isTrue hstarts =>
    rcases ahead with - | ⟨point, - | ⟨digit, rest⟩⟩
    · cases hstarts
    · cases hstarts
    · rw [startsFraction, Bool.and_eq_true, beq_iff_eq] at hstarts
      rw [hstarts.1, add_comm]
      exact (plain_one (by decide)).add plain_digits
  case isFalse => exact plain_zero

theorem plain_signed :
  Plain (signedWidth ahead) ahead
  := by
  have hsign : Plain (runWidth isSign (ahead.take 1)) ahead := by
    have hrun := plain_run (p := isSign) (by decide +kernel) (ahead.take 1)
    refine ⟨hrun.le.trans (length_take_le' 1 ahead), fun x hx => hrun.ascii x ?_⟩
    have hle := hrun.le
    rw [length_take] at hle
    rwa [take_take, min_eq_left (by omega)]
  exact hsign.add plain_digits

theorem plain_exponent :
  Plain (exponentWidth [] ahead) ahead
  := by
  rcases ahead with - | ⟨mark, rest⟩
  · exact plain_zero
  · rw [exponentWidth_cons]
    split
    case isTrue hstarts =>
      have hmark : ∀ b, isExponentMark b → b < 0x80 := by decide +kernel
      rw [Bool.and_eq_true] at hstarts
      exact (plain_one (hmark mark hstarts.1)).add plain_signed
    case isFalse => exact plain_zero

/-- A number that starts with a digit has at least that digit. -/
theorem plain_number (hb : isDigitByte b) :
  Plain (numberWidth [] (b :: rest)).2 (b :: rest) ∧ 0 < (numberWidth [] (b :: rest)).2
  := by
  rw [numberWidth_eq]
  split
  case isTrue hradix =>
    rcases rest with - | ⟨mark, rest⟩
    · cases hradix
    · have hmark : ∀ b, isRadixMark b → b < 0x80 := by decide +kernel
      rw [startsRadix, Bool.and_eq_true, beq_iff_eq] at hradix
      have htwo : Plain 2 (b :: mark :: rest) :=
        (plain_one (hradix.1 ▸ by decide)).add (plain_one (hmark mark hradix.2))
      exact ⟨htwo.add (plain_run (by decide +kernel) _), by simp only; omega⟩
  case isFalse =>
    have hpos := digitsWidth_pos hb rest
    exact ⟨(plain_digits.add plain_fraction).add plain_exponent, by
      simp only [numberWidth.decimal]
      omega⟩

/-! ### Lexemes -/

/-- The kinds of tokens that are cut out one by one. -/
def Kind.isOrdinary : Kind → Bool
  | .endOfFile | .rawOpen | .rawText | .rawClose => false
  | _ => true

/-- Does the kind say all that has to be known of a text? -/
def Kind.isFree (kind : Kind) : Bool :=
  kind != .ident && kind != .fstringLiteral

@[inherit_doc Kind.isFree]
def Kind.isFixed (kind : Kind) : Bool :=
  kind.isOrdinary && kind.isFree

/-- How the bytes of a token are made up, in front of others: a name; a word or symbol; a character
that means nothing; or a text in quotes. -/
inductive Shape (r : List UInt8) : List UInt8 → Kind → Nat → Nat → Prop
  | name {b : UInt8} {t : List UInt8} (hb : isNameStart b = true)
      (ht : ∀ x ∈ t, isNamePart x = true) : Shape r (b :: t) .ident 0 0
  | fixed {b : UInt8} {t : List UInt8} {kind : Kind} (hascii : ∀ x ∈ b :: t, x < 0x80)
      (hkind : kind.isFixed = true) : Shape r (b :: t) kind 0 0
  | character {b : UInt8} {t : List UInt8} (hr : ∀ x ∈ r.head?, isContinuation x = false) :
      Shape r (b :: t) .unknown 0 0
  | quoted {kind : Kind} {opening text : List UInt8} {quote : UInt8}
      (hopening : ∀ x ∈ opening, x < 0x80) (hquote : quote < 0x80)
      (hkind : kind = .stringLiteral ∨ kind = .fstringLiteral) :
      Shape r (opening ++ text ++ [quote]) kind opening.length 1

theorem isFixed_keyword {text : String} (h : keyword? text = some kind) :
  kind.isFixed
  := by
  unfold keyword? at h
  split at h <;> cases h <;> rfl

theorem fixed_double (h : double? b c = some kind) :
  (∀ x ∈ [b, c], x < 0x80) ∧ kind.isFixed
  := by
  have hsecond : ∀ c ∈ [byte '>', byte '*', byte '/', byte '='], ∀ b, ∀ kind ∈ double? b c,
      (∀ x ∈ [b, c], x < 0x80) ∧ kind.isFixed := by
    decide +kernel
  by_cases hc : c ∈ [byte '>', byte '*', byte '/', byte '=']
  · exact hsecond c hc b kind h
  · simp only [mem_cons, not_or] at hc
    simp [double?, hc] at h

/-- All the tokens that are symbols, and the characters that are none. -/
theorem symbolAt_shape (h : symbolAt b rest = .token kind width lead trail) :
  ∃ t r, rest = t ++ r ∧ width = t.length + 1 ∧ Shape r (b :: t) kind lead trail
  := by
  have hsingle : ∀ b, ∀ kind ∈ single? b, (∀ x ∈ [b], x < 0x80) ∧ kind.isFixed := by
    decide +kernel
  have hoperator : ∀ b, ∀ kind ∈ operator? b, (∀ x ∈ [b], x < 0x80) ∧ kind.isFixed := by
    decide +kernel
  rw [symbolAt] at h
  split at h <;> cases h
  case h_1 hkind =>
    obtain ⟨hascii, hkind⟩ := hsingle b _ hkind
    exact ⟨[], rest, rfl, rfl, .fixed hascii hkind⟩
  case h_2 hkind =>
    obtain ⟨c, hc, hdouble⟩ := Option.bind_eq_some_iff.mp hkind
    obtain ⟨rest, rfl⟩ := head?_eq_some_iff.mp hc
    obtain ⟨hascii, hkind⟩ := fixed_double hdouble
    exact ⟨[c], rest, rfl, rfl, .fixed hascii hkind⟩
  case h_3 hkind =>
    obtain ⟨hascii, hkind⟩ := hoperator b _ hkind
    exact ⟨[], rest, rfl, rfl, .fixed hascii hkind⟩
  case h_4 =>
    refine ⟨rest.takeWhile isContinuation, rest.dropWhile isContinuation,
      takeWhile_append_dropWhile.symm, add_comm _ _, .character fun x hx => ?_⟩
    have hstop := head?_dropWhile_not isContinuation rest
    rw [hx] at hstop
    exact hstop

/-- A name has the shape of one. -/
theorem name_shape (hb : isNameStart b) (h : lexemeAt.name b rest = .token kind width lead trail) :
  ∃ t r, rest = t ++ r ∧ width = t.length + 1 ∧ Shape r (b :: t) kind lead trail
  := by
  have hpart : ∀ x ∈ rest.takeWhile isNamePart, isNamePart x := fun x hx =>
    mem_takeWhile_imp hx
  cases h
  refine ⟨rest.takeWhile isNamePart, rest.dropWhile isNamePart,
    takeWhile_append_dropWhile.symm, add_comm _ _, ?_⟩
  cases hkeyword : keyword? (ofBytes ((b :: rest).take (1 + runWidth isNamePart rest))) with
  | none => exact .name hb hpart
  | some kind =>
    have hascii : ∀ x, isNamePart x → x < 0x80 := by decide +kernel
    refine .fixed (fun x hx => hascii x ?_) (isFixed_keyword hkeyword)
    rcases mem_cons.mp hx with rfl | hx
    · rw [isNamePart, hb, Bool.true_or]
    · exact hpart x hx

/-- A token has at least one byte, and the shape of its bytes goes with its kind. -/
theorem lexemeAt_shape (h : lexemeAt [] b rest = .token kind width lead trail) :
  ∃ t r, rest = t ++ r ∧ width = t.length + 1 ∧ Shape r (b :: t) kind lead trail
  := by
  have hquotes : ∀ q, isQuote q → q < 0x80 := by decide +kernel
  rw [lexemeAt_eq] at h
  split at h
  case isTrue hquote =>
    obtain ⟨⟨text, r, rfl, rfl, -⟩, rfl, rfl, rfl⟩ := quoted_eq_token.mp h
    have hb := hquotes b hquote
    refine ⟨text ++ [b], r, by simp, by simp; omega, ?_⟩
    exact @.quoted r _ [b] text b (by simpa using hb) hb (.inl rfl)
  case isFalse =>
    split at h
    case isTrue hdigit =>
      cases h
      obtain ⟨hplain, hpos⟩ := plain_number hdigit
      obtain ⟨t, r, hrest, hwidth, hascii⟩ := hplain.split hpos
      refine ⟨t, r, hrest, hwidth, .fixed hascii ?_⟩
      rw [numberWidth_eq]
      split
      · rfl
      · simp only [numberWidth.decimal]
        split <;> rfl
    case isFalse =>
      split at h
      case isTrue hname =>
        split at h
        case isTrue hstarts =>
          rcases rest with - | ⟨q, body⟩
          · simp [startsFString] at hstarts
          · have hletter : ∀ b, (b == byte 'f' || b == byte 'F') → b < 0x80 := by decide +kernel
            rw [startsFString, Bool.and_eq_true] at hstarts
            have hq := hquotes q hstarts.2
            rw [headD_cons] at h
            obtain ⟨⟨text, r, rfl, rfl, -⟩, rfl, rfl, rfl⟩ := quoted_eq_token.mp h
            refine ⟨q :: text ++ [q], r, by simp, by simp; omega, ?_⟩
            exact @.quoted r _ [b, q] text q (by simpa using ⟨hletter b hstarts.1, hq⟩) hq
              (.inr rfl)
        case isFalse => exact name_shape hname h
      case isFalse => exact symbolAt_shape h

theorem shape_of_lexemeAt (h : lexemeAt [] b (t ++ r) = .token kind (t.length + 1) lead trail) :
  Shape r (b :: t) kind lead trail
  := by
  obtain ⟨t', r', hrest, hwidth, hshape⟩ := lexemeAt_shape h
  obtain ⟨rfl, rfl⟩ := append_inj hrest (Nat.succ.inj hwidth)
  exact hshape

/-! ### Scanning -/

/-- The bytes between two offsets. -/
def between (source : List UInt8) (start stop : Nat) : List UInt8 :=
  (source.take stop).drop start

theorem between_append {before after : List UInt8} :
  between (before ++ (bytes ++ after)) before.length (before.length + bytes.length) = bytes
  := by
  rw [between, ← append_assoc, ← length_append, take_left, drop_left]

/-- Does no layout stand before a token of the kind, since it is part of a raw block? -/
def Kind.isInsideRaw : Kind → Bool
  | .rawText | .rawClose => true
  | _ => false

/-- The last bytes are those of the tokens of a source from an offset on, where the layout before
each of them is the same as in the source, or some other layout. -/
inductive Relaid (source : List UInt8) : Nat → List Token → List UInt8 → Prop
  | nil (offset : Nat) : Relaid source offset [] []
  | cons {offset : Nat} {t : Token} {ts : List Token} {gap rest : List UInt8}
      (hgap : gap = between source offset t.span.start ∨
        t.kind.isInsideRaw = false ∧ gap ≠ [] ∧ Layout gap)
      (h : Relaid source t.span.stop ts rest) :
      Relaid source offset (t :: ts) (gap ++ between source t.span.start t.span.stop ++ rest)

/-- A token as a part of a source: the layout before it, and its bytes, some of which are not part
of its text. -/
structure Piece where
  gap : List UInt8
  bytes : List UInt8
  kind : Kind
  lead : Nat
  trail : Nat

/-- What the token says. -/
def Piece.word (p : Piece) : Word :=
  ⟨p.kind, ofBytes ((p.bytes.take (p.bytes.length - p.trail)).drop p.lead)⟩

/-- The token at an offset. -/
def Piece.token (p : Piece) (file : Option Nat) (offset : Nat) (opensLine : Bool) : Token where
  kind := p.kind
  span := ⟨file, offset, offset + p.bytes.length⟩
  textStart := offset + p.lead
  textStop := offset + p.bytes.length - p.trail
  text := p.word.text
  opensLine := opensLine

/-- The pieces of a raw block. -/
def rawPieces (gap payload : List UInt8) : List Piece :=
  [⟨gap, [byte '\x7b'], .rawOpen, 0, 0⟩, ⟨[], payload, .rawText, 0, 0⟩,
    ⟨[], [byte '\x7d'], .rawClose, 0, 0⟩]

@[simp]
theorem tokensIn_ok :
  tokensIn (ts.map .ok) = ts
  := by
  rw [tokensIn, filterMap_map]
  exact filterMap_some

@[simp]
theorem errorsIn_ok {ts : List Token} :
  errorsIn (ts.map .ok) = []
  := by
  simp [errorsIn]

/-- What is ahead is cut into pieces, with layout behind the last of them. -/
inductive Cut : Bool → List UInt8 → List Piece → List UInt8 → Prop
  | finish {raw : Bool} {gap : List UInt8} (hgap : layoutWidth false gap = gap.length) :
      Cut raw gap [] gap
  | token {raw : Bool} {gap t r last : List UInt8} {b : UInt8} {kind : Kind} {lead trail : Nat}
      {pieces : List Piece} (hgap : layoutWidth false (gap ++ b :: (t ++ r)) = gap.length)
      (hraw : (raw && b == byte '\x7b') = false)
      (hlexeme : lexemeAt [] b (t ++ r) = .token kind (t.length + 1) lead trail)
      (h : Cut (kind == .wordAilang || kind == .wordAsm) r pieces last) :
      Cut raw (gap ++ b :: (t ++ r)) (⟨gap, b :: t, kind, lead, trail⟩ :: pieces) last
  | raw {gap payload r last : List UInt8} {pieces : List Piece}
      (hgap : layoutWidth false (gap ++ byte '\x7b' :: (payload ++ byte '\x7d' :: r)) = gap.length)
      (hpayload : Balanced 0 payload) (h : Cut false r pieces last) :
      Cut true (gap ++ byte '\x7b' :: (payload ++ byte '\x7d' :: r))
        (rawPieces gap payload ++ pieces) last

/-- Does nothing stand on the line behind layout, where `opensLine` tells the same before it? -/
def opensAfter (opensLine : Bool) (gap : List UInt8) : Bool :=
  gap.getLast?.elim opensLine (· == byte '\n')

/-- The tokens of pieces from an offset on. -/
def placed (file : Option Nat) : Nat → Bool → List Piece → List Token
  | _, _, [] => []
  | offset, opensLine, p :: ps =>
    p.token file (offset + p.gap.length) (opensAfter opensLine p.gap) ::
      placed file (offset + p.gap.length + p.bytes.length) false ps

variable {raw : Bool}

/-- Without faults, a source is cut into pieces. -/
theorem exists_cut (hfuel : site.ahead.length < fuel)
    (h : errorsIn (scan [] stop fuel raw site) = []) :
  ∃ pieces last, Cut raw site.ahead pieces last
  := by
  induction fuel generalizing raw site with
  | zero => cases hfuel
  | succ fuel ih =>
    obtain ⟨gap, here, hahead, hgap⟩ : ∃ gap here, site.ahead = gap ++ here ∧
        layoutWidth false (gap ++ here) = gap.length :=
      ⟨site.ahead.take (layoutWidth false site.ahead), site.ahead.drop (layoutWidth false site.ahead),
        (take_append_drop _ _).symm, by
        rw [take_append_drop, length_take, min_eq_left (layoutWidth_le _ _)]⟩
    have hhere : site.skipLayout.ahead = here := by
      simp [Site.skipLayout, hahead, hgap]
    rw [scan] at h
    simp only [hhere] at h
    rw [hahead] at hfuel ⊢
    cases here with
    | nil =>
      rw [append_nil] at hgap ⊢
      exact ⟨[], gap, .finish hgap⟩
    | cons b rest =>
      simp only at h
      split at h
      case isTrue hraw =>
        rw [Bool.and_eq_true, beq_iff_eq] at hraw
        obtain ⟨rfl, rfl⟩ := hraw
        cases hpayload : payloadWidth? 0 rest with
        | none =>
          rw [hpayload] at h
          cases h
        | some n =>
          obtain ⟨payload, r, rfl, rfl, hbalanced⟩ := payloadWidth?_eq_some.mp hpayload
          simp only [hpayload, errorsIn, filterMap_append, append_eq_nil_iff] at h
          have hafter : (site.skipLayout.items (rawBlock payload.length)).2.ahead = r := by
            simp [rawBlock, Site.items, Site.after, Lexeme.plain, Lexeme.width, hhere]
          obtain ⟨pieces, last, hcut⟩ := ih (by rw [hafter]; simp at hfuel; omega) h.2
          rw [hafter] at hcut
          exact ⟨_, last, .raw hgap hbalanced hcut⟩
      case isFalse hraw =>
        cases hlexeme : lexemeAt [] b rest with
        | fault fault width =>
          rw [hlexeme] at h
          cases h
        | token kind width lead trail =>
          obtain ⟨t, r, rfl, rfl, -⟩ := lexemeAt_shape hlexeme
          rw [hlexeme] at h
          have hafter :
              (site.skipLayout.after (.token kind (t.length + 1) lead trail)).ahead = r := by
            simp [Site.after, Lexeme.width, hhere]
          obtain ⟨pieces, last, hcut⟩ := ih (by rw [hafter]; simp at hfuel; omega) h
          rw [hafter] at hcut
          exact ⟨_, last, .token hgap (by simpa using hraw) hlexeme hcut⟩

theorem skipLayout_eq (h : layoutWidth false (gap ++ here) = gap.length) (file : Option Nat)
    (offset : Nat) (opensLine : Bool) :
  Site.skipLayout ⟨file, offset, opensLine, gap ++ here⟩ =
    ⟨file, offset + gap.length, opensAfter opensLine gap, here⟩
  := by
  simp only [Site.skipLayout, h, take_left, drop_left, opensAfter]
  cases gap.getLast? <;> rfl

theorem item_eq (file : Option Nat) (offset : Nat) (opensLine : Bool) (p : Piece) (r : List UInt8) :
  Site.item ⟨file, offset, opensLine, p.bytes ++ r⟩ (.token p.kind p.bytes.length p.lead p.trail) =
    .ok (p.token file offset opensLine)
  := by
  rw [Site.item, take_append_of_le_length (Nat.sub_le _ _)]
  rfl

theorem after_eq (file : Option Nat) (offset : Nat) (opensLine : Bool) (p : Piece) (r : List UInt8) :
  Site.after ⟨file, offset, opensLine, p.bytes ++ r⟩
    (.token p.kind p.bytes.length p.lead p.trail) = ⟨file, offset + p.bytes.length, false, r⟩
  := by
  rw [Site.after, Lexeme.width, drop_left]

/-- The tokens of what is cut into pieces. -/
theorem Cut.scan_eq (h : Cut raw ahead pieces last) (hfuel : ahead.length < fuel)
    (hstop : stop = offset + ahead.length) {opensLine : Bool} :
  scan [] stop fuel raw ⟨file, offset, opensLine, ahead⟩ =
    (placed file offset opensLine pieces ++ [atEnd file stop]).map .ok
  := by
  induction h generalizing fuel offset opensLine with
  | @finish raw gap hgap =>
    obtain ⟨fuel, rfl⟩ := Nat.exists_eq_succ_of_ne_zero (ne_zero_of_lt hfuel)
    have hskip := @skipLayout_eq gap [] (by rwa [append_nil]) file offset opensLine
    rw [append_nil] at hskip
    rw [scan, hskip]
    rfl
  | @token raw gap t r last b kind lead trail pieces hgap hraw hlexeme hcut ih =>
    obtain ⟨fuel, rfl⟩ := Nat.exists_eq_succ_of_ne_zero (ne_zero_of_lt hfuel)
    let p : Piece := ⟨gap, b :: t, kind, lead, trail⟩
    simp only [length_append, length_cons] at hfuel hstop
    rw [scan, skipLayout_eq hgap]
    simp only [hraw, hlexeme]
    have hitem := item_eq file (offset + gap.length) (opensAfter opensLine gap) p r
    have hafter := after_eq file (offset + gap.length) (opensAfter opensLine gap) p r
    rw [cons_append, length_cons] at hitem hafter
    rw [hitem, hafter, Lexeme.opensRaw, ih (by omega) (by omega)]
    rfl
  | @raw gap payload r last pieces hgap hpayload hcut ih =>
    obtain ⟨fuel, rfl⟩ := Nat.exists_eq_succ_of_ne_zero (ne_zero_of_lt hfuel)
    simp only [length_append, length_cons] at hfuel hstop
    rw [scan, skipLayout_eq hgap]
    simp only [payloadWidth?_eq_some.mpr ⟨payload, r, rfl, rfl, hpayload⟩]
    have hitems : Site.items ⟨file, offset + gap.length, opensAfter opensLine gap,
        byte '\x7b' :: (payload ++ byte '\x7d' :: r)⟩ (rawBlock payload.length) =
        ((placed file offset opensLine (rawPieces gap payload)).map .ok,
          ⟨file, offset + gap.length + 1 + payload.length + 1, false, r⟩) := by
      simp [rawBlock, rawPieces, placed, Site.items, Site.item, Site.after, Lexeme.plain,
        Lexeme.width, Piece.token, Piece.word, opensAfter]
    rw [hitems, ih (by omega) (by omega)]
    rfl

/-- Layout that is kept or replaced is skipped, and leaves what is ahead alike. -/
theorem relaid_gap (h : layoutWidth false (gap ++ b :: rest) = gap.length)
    (hgap : gap' = gap ∨ gap' ≠ [] ∧ Layout gap') :
  layoutWidth false (gap' ++ b :: rest') = gap'.length ∧
    (Alike rest rest' → Alike (gap ++ b :: rest) (gap' ++ b :: rest'))
  := by
  obtain ⟨hwidth, hb⟩ := layoutWidth_append h
  rcases hgap with rfl | ⟨hne, hlayout⟩
  · exact ⟨hwidth, fun halike => (Alike.cons b halike).append gap'⟩
  · constructor
    · rw [hlayout.layoutWidth_append, layoutWidth_of_not_isLayoutByte hb, add_zero]
    · intro _
      obtain ⟨first, rest, rfl⟩ := exists_cons_of_ne_nil hne
      exact .layout hlayout.isLayoutByte_head _ _

theorem Relaid.of_token {after : List UInt8} {opensLine : Bool} {p : Piece}
    (h : Relaid source offset (p.token file (offset + p.gap.length) opensLine :: ts) ahead')
    (before : List UInt8) (hsource : source = before ++ (p.gap ++ (p.bytes ++ after)))
    (hoffset : offset = before.length) :
  ∃ gap' rest', ahead' = gap' ++ (p.bytes ++ rest') ∧
    (gap' = p.gap ∨ p.kind.isInsideRaw = false ∧ gap' ≠ [] ∧ Layout gap') ∧
    Relaid source (offset + p.gap.length + p.bytes.length) ts rest'
  := by
  obtain - | @⟨_, _, _, gap', rest', hgap, hrest⟩ := h
  have hbetween : between source offset (offset + p.gap.length) = p.gap := by
    rw [hsource, hoffset, between_append]
  have hbytes : between source (offset + p.gap.length)
      (offset + p.gap.length + p.bytes.length) = p.bytes := by
    rw [hsource, hoffset, ← append_assoc, ← length_append, between_append]
  refine ⟨gap', rest', ?_, ?_, hrest⟩
  · rw [← append_assoc]
    exact congrArg (gap' ++ · ++ rest') hbytes
  · rw [← hbetween]
    exact hgap

/-- Pieces with other layout between them are pieces again, which say the same. -/
theorem Cut.relaid (h : Cut raw ahead pieces last) {offset : Nat} {opensLine : Bool}
    (hsource : source = before ++ ahead) (hoffset : offset = before.length)
    (hrelaid : Relaid source offset
      (placed file offset opensLine pieces ++ [atEnd file source.length]) ahead') :
  Alike ahead ahead' ∧ ∃ pieces' last', Cut raw ahead' pieces' last' ∧
    pieces'.map Piece.word = pieces.map Piece.word
  := by
  induction h generalizing before offset opensLine ahead' with
  | @finish raw gap hgap =>
    obtain - | @⟨_, _, _, gap', _, hgap', - | -⟩ := hrelaid
    have hend (start : Nat) : between source start source.length = source.drop start := by
      rw [between, take_length]
    simp only [atEnd, hend, drop_length, append_nil] at hgap' ⊢
    rw [hsource, hoffset, drop_left] at hgap'
    rcases hgap' with rfl | ⟨-, hne, hlayout⟩
    · exact ⟨.same _, [], gap', .finish hgap, rfl⟩
    · have hwidth := hlayout.layoutWidth_append []
      rw [append_nil] at hwidth
      obtain ⟨first, rest, rfl⟩ := exists_cons_of_ne_nil hne
      exact ⟨.layout hlayout.isLayoutByte_head _ _, [], _, .finish hwidth, rfl⟩
  | @token raw gap t r last b kind lead trail pieces hgap hraw hlexeme hcut ih =>
    obtain ⟨gap', rest', rfl, hgap', hrest⟩ := hrelaid.of_token before hsource hoffset
    obtain ⟨halike, pieces', last', hcut', hwords⟩ := @ih (before ++ (gap ++ b :: t)) _ _ _
      (by simp [hsource]) (by simp [hoffset, add_assoc]) hrest
    obtain ⟨hskip, hahead⟩ := relaid_gap hgap (hgap'.imp_right .right)
    exact ⟨hahead (halike.append t), ⟨gap', b :: t, kind, lead, trail⟩ :: pieces', last',
      .token hskip hraw (lexemeAt_alike halike hlexeme rfl) hcut', congrArg (_ :: ·) hwords⟩
  | @raw gap payload r last pieces hgap hpayload hcut ih =>
    obtain ⟨gap', rest₁, rfl, hgap', hrest₁⟩ := hrelaid.of_token before hsource hoffset
    -- inside of the block nothing is replaced
    obtain ⟨gap₂, rest₂, rfl, hgap₂, hrest₂⟩ := hrest₁.of_token (before ++ (gap ++ [byte '\x7b']))
      (by simp [hsource]; rfl) (by simp [hoffset, add_assoc])
    obtain ⟨gap₃, rest₃, rfl, hgap₃, hrest₃⟩ := hrest₂.of_token
      (before ++ (gap ++ byte '\x7b' :: payload)) (by simp [hsource]; rfl) (by simp; omega)
    obtain rfl : gap₂ = [] := hgap₂.resolve_right fun hreplaced => nomatch hreplaced.1
    obtain rfl : gap₃ = [] := hgap₃.resolve_right fun hreplaced => nomatch hreplaced.1
    obtain ⟨halike, pieces', last', hcut', hwords⟩ :=
      @ih (before ++ (gap ++ byte '\x7b' :: (payload ++ [byte '\x7d']))) _
        (offset + gap.length + 1 + payload.length + 1) _ (by simp [hsource])
        (by simp; omega) hrest₃
    obtain ⟨hskip, hahead⟩ := relaid_gap hgap (hgap'.imp_right .right)
    refine ⟨hahead ((Alike.cons _ halike).append payload), rawPieces gap' payload ++ pieces', last',
      .raw hskip hpayload hcut', ?_⟩
    rw [map_append, hwords]
    rfl

theorem itemsOf_eq {file : Option Nat} {source : List UInt8} :
  itemsOf file source = scan [] source.length (source.length + 1) false ⟨file, 0, true, source⟩
  := by
  simp [itemsOf, itemsBetween]

/-- A source without faults is cut into pieces. -/
theorem exists_cut_of_lex (h : (lex file source).2 = []) :
  ∃ pieces last, Cut false source pieces last
  := by
  rw [lex, map_eq_nil_iff, itemsOf_eq] at h
  exact exists_cut (Nat.lt_succ_self _) h

/-- The tokens of a source are those of its pieces. -/
theorem Cut.lex_eq (h : Cut false source pieces last) :
  lex file source = (placed file 0 true pieces ++ [atEnd file source.length], [])
  := by
  rw [lex, itemsOf_eq, h.scan_eq (Nat.lt_succ_self _) (zero_add _).symm, tokensIn_ok,
    errorsIn_ok, map_nil]

theorem map_word_placed (file : Option Nat) (offset : Nat) (opensLine : Bool)
    (pieces : List Piece) :
  (placed file offset opensLine pieces).map word = pieces.map Piece.word
  := by
  induction pieces generalizing offset opensLine with
  | nil => rfl
  | cons p pieces ih => exact congrArg (p.word :: ·) (ih _ _)

/-- A source that can be cut into tokens says the same with other layout between them. -/
theorem lex_relaid
    (hquiet : (lex file source).2 = []) (h : Relaid source 0 (lex file source).1 source') :
  (lex file source').2 = [] ∧ (lex file source').1.map word = (lex file source).1.map word
  := by
  obtain ⟨pieces, last, hcut⟩ := exists_cut_of_lex hquiet
  rw [hcut.lex_eq] at h ⊢
  obtain ⟨-, pieces', last', hcut', hwords⟩ := hcut.relaid (nil_append source).symm rfl h
  rw [hcut'.lex_eq, map_append, map_append, map_word_placed, map_word_placed, hwords]
  exact ⟨rfl, rfl⟩

end Token

end Endmark
