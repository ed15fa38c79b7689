import Endmark.Proofs.Token.Words
import Endmark.Proofs.Tree.Reports

/-!
# The same words read twice

Two cursors with the same words ahead are compared step by step.  A reader follows another one if it
reports something, or both read the same.
-/

namespace Endmark.Tree

open Cursor
open List
open Token (Kind Word)

/-! ### Cursors with the same words -/

/-- Nothing has been reported so far, and constructs of the given kinds are open. -/
structure Quiet (n : Nat) (blocks : List Construct) (c : Cursor) : Prop where
  reports : c.reports = #[]
  halted : c.halted = false
  blamed : c.blamed = none
  blocks : c.blocks.map (·.kind) = blocks
  finish : c.finish.kind = .endOfFile
  proper : ∀ t ∈ c.ahead, t.word.Proper n

/-- Nothing has been reported so far, and both cursors have the same words ahead. -/
structure Similar (n : Nat) (blocks : List Construct) (c c' : Cursor) : Prop where
  left : Quiet n blocks c
  right : Quiet n blocks c'
  words : c'.ahead.map Token.word = c.ahead.map Token.word
  finish : c'.finish.word = c.finish.word

/-- The tokens say the same. -/
structure Matches (n : Nat) (t t' : Token) : Prop where
  kind : t'.kind = t.kind
  text : t'.text = t.text
  proper : t.word.Proper n

/-- Something has been reported. -/
def Loud (c : Cursor) : Prop :=
  0 < c.reports.size

section

variable {c : Cursor}

theorem Quiet.self (h : Quiet n K c) :
  Similar n K c c
  := ⟨h, h, rfl, rfl⟩

theorem matches_of_word {t t' : Token} (h : t'.word = t.word) (hproper : t.word.Proper n) :
  Matches n t t'
  := ⟨congrArg Word.kind h, congrArg Word.text h, hproper⟩

/-- Similar readers are at the same word. -/
theorem Similar.current (h : Similar n K c c') :
  Matches n c.current c'.current
  := by
  have hwords := h.words
  cases hahead : c.ahead with
  | nil =>
    rw [hahead, map_nil, map_eq_nil_iff] at hwords
    rw [Cursor.current, Cursor.current, hahead, hwords]
    apply matches_of_word h.finish
    apply Word.proper_of_isFree
    change c.finish.kind.isFree
    rw [h.left.finish]
    rfl
  | cons t rest =>
    rw [hahead, map_cons, map_eq_cons_iff] at hwords
    obtain ⟨t', rest', hahead', hword, -⟩ := hwords
    rw [Cursor.current, Cursor.current, hahead, hahead']
    exact matches_of_word hword (h.left.proper t (hahead ▸ mem_cons_self))

theorem Similar.length (h : Similar n K c c') :
  c'.ahead.length = c.ahead.length
  := by
  rw [← length_map Token.word, h.words, length_map]

theorem Cursor.step_eq :
  c.step = { c with ahead := c.ahead.tail, last := (c.ahead.head?.map (·.span)).or c.last }
  := by
  obtain ⟨ahead, finish, last, reports, blocks, halted, blamed⟩ := c
  cases ahead <;> rfl

theorem Quiet.step (h : Quiet n K c) :
  Quiet n K c.step
  := by
  rw [step_eq]
  exact ⟨h.reports, h.halted, h.blamed, h.blocks, h.finish,
    fun t ht => h.proper t (mem_of_mem_tail ht)⟩

theorem Similar.step (h : Similar n K c c') :
  Similar n K c.step c'.step
  := by
  refine ⟨h.left.step, h.right.step, ?_, ?_⟩
  · simp [step_eq, h.words]
  · simp [step_eq, h.finish]

theorem Quiet.report (h : Quiet n K c) {span : Span} :
  Loud (c.report span fault)
  := by
  rw [Loud, Cursor.report, h.halted]
  simp

end

/-! ### Readers -/

/-- The first reader reports something, or both read the same, and afterwards have the same words
ahead. -/
def Follows {α : Type} (n : Nat) (K K' : List Construct) (x y : Reader α) (R : α → α → Prop) :
    Prop :=
  ∀ c c', Similar n K c c' →
    Loud (x c).2 ∨ Similar n K' (x c).2 (y c').2 ∧ R (x c).1 (y c').1

/-- Both are given, and related. -/
def Given {α : Type} (R : α → α → Prop) (x y : Option α) : Prop :=
  ∃ a b, x = some a ∧ y = some b ∧ R a b

namespace Reader

section

variable {R : α → α → Prop} {S : β → β → Prop}

theorem follows_pure (h : R a b) :
  Follows n K K (pure a) (pure b) R
  := fun _ _ hsimilar => .inr ⟨hsimilar, h⟩

theorem follows_bind (hx : Follows n K K' x y R) (hgrows : ∀ a, Grows (f a))
    (hf : ∀ a b, R a b → Follows n K' K'' (f a) (g b) S) :
  Follows n K K'' (x >>= f) (y >>= g) S
  := by
  intro c c' hsimilar
  rcases hx c c' hsimilar with hloud | ⟨hsimilar, hR⟩
  · exact .inl (lt_of_lt_of_le hloud ((hgrows _).le _))
  · exact hf _ _ hR _ _ hsimilar

/-- The form of `follows_bind` for readers of which it is known that they keep the reports. -/
theorem follows_then [hgrows : ∀ a, Grows (f a)] (hx : Follows n K K' x y R)
    (hf : ∀ a b, R a b → Follows n K' K'' (f a) (g b) S) :
  Follows n K K'' (x >>= f) (y >>= g) S
  := follows_bind hx hgrows hf

theorem follows_option {x y : Reader (Option α)} {f g : Option α → Reader β} [hnone : Grows (f none)]
    [hsome : ∀ a, Grows (f (some a))] (hx : Follows n K K' x y (Option.Rel R))
    (hfnone : Follows n K' K'' (f none) (g none) S)
    (hfsome : ∀ a b, R a b → Follows n K' K'' (f (some a)) (g (some b)) S) :
  Follows n K K'' (x >>= f) (y >>= g) S
  := by
  apply follows_bind hx
  · rintro (_ | a)
    · exact hnone
    · exact hsome a
  · rintro _ _ (hR | _)
    · exact hfsome _ _ hR
    · exact hfnone

theorem follows_given {x y : Reader (Option α)} {f g : Option α → Reader β} [hnone : Grows (f none)]
    [hsome : ∀ a, Grows (f (some a))] (hx : Follows n K K' x y (Given R))
    (hf : ∀ a b, R a b → Follows n K' K'' (f (some a)) (g (some b)) S) :
  Follows n K K'' (x >>= f) (y >>= g) S
  := by
  apply follows_bind hx
  · rintro (_ | a)
    · exact hnone
    · exact hsome a
  · rintro _ _ ⟨a, b, rfl, rfl, hR⟩
    exact hf a b hR

theorem follows_map {f g : α → β} (hx : Follows n K K' x y R) (hf : ∀ a b, R a b → S (f a) (g b)) :
  Follows n K K' (f <$> x) (g <$> y) S
  := by
  intro c c' hsimilar
  exact (hx c c' hsimilar).imp_right fun ⟨hsimilar, hR⟩ => ⟨hsimilar, hf _ _ hR⟩

theorem follows_dite [Decidable p] (h : p → Follows n K K' x y R)
    (h' : ¬p → Follows n K K' x' y' R) :
  Follows n K K' (if p then x else x') (if p then y else y') R
  := by
  split
  case isTrue hp => exact h hp
  case isFalse hp => exact h' hp

theorem follows_ite [Decidable p] (h : Follows n K K' x y R) (h' : Follows n K K' x' y' R) :
  Follows n K K' (if p then x else x') (if p then y else y') R
  := follows_dite (fun _ => h) fun _ => h'

theorem follows_report {span : Span} {y : Reader PUnit} {R : PUnit → PUnit → Prop} :
  Follows n K K' (report span fault) y R
  := fun _ _ hsimilar => .inl hsimilar.left.report

/-- After a report, anything may be read. -/
theorem follows_report_then (span : Span) (fault : Fault) {f : PUnit → Reader α}
    [hf : ∀ a, Grows (f a)] :
  Follows n K K' (report span fault >>= f) y R
  := by
  intro c c' hsimilar
  left
  exact lt_of_lt_of_le hsimilar.left.report ((hf _).le _)

end

/-! ### Steps of a cursor -/

section

variable {R : α → α → Prop}

theorem follows_get (h : ∀ c c', Similar n K c c' → Follows n K K' (f c) (g c') R) :
  Follows n K K' (get >>= f) (get >>= g) R
  := fun c c' hsimilar => h c c' hsimilar c c' hsimilar

theorem follows_current (h : ∀ t t', Matches n t t' → Follows n K K' (f t) (g t') R) :
  Follows n K K' (current >>= f) (current >>= g) R
  := fun _ _ hsimilar => h _ _ hsimilar.current _ _ hsimilar

theorem follows_advance (h : ∀ t t', Matches n t t' → Follows n K K' (f t) (g t') R) :
  Follows n K K' (advance >>= f) (advance >>= g) R
  := fun _ _ hsimilar => h _ _ hsimilar.current _ _ hsimilar.step

theorem follows_peek (h : ∀ kind, Follows n K K' (f kind) (g kind) R) :
  Follows n K K' (peek >>= f) (peek >>= g) R
  := by
  intro c c' hsimilar
  have hpeek : (peek >>= g) c' = g c.current.kind c' :=
    congrArg (g · c') hsimilar.current.kind
  rw [hpeek]
  exact h c.current.kind c c' hsimilar
theorem follows_tokensAhead (h : ∀ count, Follows n K K' (f count) (g count) R) :
  Follows n K K' (tokensAhead >>= f) (tokensAhead >>= g) R
  := by
  refine follows_get fun c c' hsimilar => ?_
  rw [hsimilar.length]
  exact h c.ahead.length

theorem follows_reportCount (h : Follows n K K' (f 0) (g 0) R) :
  Follows n K K' (reportCount >>= f) (reportCount >>= g) R
  := by
  refine follows_get fun c c' hsimilar => ?_
  rw [hsimilar.left.reports, hsimilar.right.reports]
  exact h

theorem follows_spanFrom (h : ∀ s s', Follows n K K' (f s) (g s') R) :
  Follows n K K' (spanFrom s >>= f) (spanFrom s' >>= g) R
  := fun _ _ hsimilar => h _ _ _ _ hsimilar

theorem follows_step (h : Follows n K K' (f ⟨⟩) (g ⟨⟩) R) :
  Follows n K K' (modify step >>= f) (modify step >>= g) R
  := fun _ _ hsimilar => h _ _ hsimilar.step

theorem follows_openBlock (h : Follows n (kind :: K) K' (f ⟨⟩) (g ⟨⟩) R) :
  Follows n K K' (openBlock kind s >>= f) (openBlock kind s' >>= g) R
  := by
  intro c c' ⟨hleft, hright, hwords, hfinish⟩
  refine h _ _ ⟨?_, ?_, hwords, hfinish⟩
  · exact { hleft with blocks := congrArg (kind :: ·) hleft.blocks }
  · exact { hright with blocks := congrArg (kind :: ·) hright.blocks }

theorem eat_bind {f : Bool → Reader α} :
  (eat kind >>= f) c = if c.current.kind == kind then f true c.step else f false c
  := by
  change ((if c.current.kind == kind then _ else _ : Reader Bool) >>= f) c = _
  split <;> rfl

theorem follows_eat (h : ∀ found, Follows n K K' (f found) (g found) R) :
  Follows n K K' (eat kind >>= f) (eat kind >>= g) R
  := by
  intro c c' hsimilar
  rw [eat_bind, eat_bind, hsimilar.current.kind]
  split
  · exact h true _ _ hsimilar.step
  · exact h false _ _ hsimilar

end

theorem follows_expect {R : α → α → Prop} [hnone : Grows (f none)] [hsome : ∀ t, Grows (f (some t))]
    (hf : ∀ t t', Matches n t t' → t.kind = kind →
      Follows n K K' (f (some t)) (g (some t')) R) :
  Follows n K K' (expect kind place >>= f) (expect kind place >>= g) R
  := by
  have hexpect : Follows n K K (expect kind place) (expect kind place)
      (Given fun t t' => Matches n t t' ∧ t.kind = kind) := by
    refine follows_current fun t t' ht => ?_
    rw [ht.kind]
    refine follows_dite (fun hkind => ?_) fun _ => follows_report_then _ _
    exact follows_step (follows_pure ⟨t, t', rfl, rfl, ht, beq_iff_eq.mp hkind⟩)
  exact follows_given hexpect fun t t' ⟨ht, hkind⟩ => hf t t' ht hkind

/-- The end of a block closes it in both. -/
theorem follows_endBlock :
  Follows n (kind :: K) K endBlock endBlock fun _ _ => True
  := by
  have hclose : Follows n (kind :: K) K
      (modify fun c => { c with blocks := c.blocks.tail })
      (modify fun c => { c with blocks := c.blocks.tail }) fun _ _ => True := by
    intro c c' ⟨hleft, hright, hwords, hfinish⟩
    refine .inr ⟨⟨?_, ?_, hwords, hfinish⟩, trivial⟩
    · exact { hleft with blocks := map_tail.trans (congrArg tail hleft.blocks) }
    · exact { hright with blocks := map_tail.trans (congrArg tail hright.blocks) }
  refine follows_then hclose fun _ _ _ => ?_
  apply follows_get
  intro c c' hsimilar
  rw [hsimilar.left.halted, hsimilar.right.halted, hsimilar.current.kind]
  apply follows_ite
  · apply follows_step
    refine follows_eat fun closed => ?_
    cases closed with
    | false => apply follows_report
    | true => exact follows_pure trivial
  · exact follows_pure trivial

theorem follows_tooDeep_then {f : PUnit → Reader α} [hf : ∀ a, Grows (f a)] :
  Follows n K K' (tooDeep >>= f) y R
  := by
  intro c c' hsimilar
  have hloud : Loud (tooDeep c).2 := hsimilar.left.report
  exact .inl (lt_of_lt_of_le hloud ((hf _).le _))

end Reader

end Endmark.Tree
