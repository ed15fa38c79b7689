import Endmark.Proofs.Ir.Regular

/-!
# Texts that reading gives up on

Reading a text in the intermediate language ends with a result or with a fault at a line, unless
it comes to a string with a unicode escape whose closing brace stands right after the mark.
-/

namespace Endmark.Ir

open List

/-- A unicode escape without an opening brace. -/
def brokenEscape : List Char :=
  ['\\', 'u', '\x7d']

theorem of_map_error {α β ε : Type} {f : α → β} {x : Except ε α} {e : ε} (h : x.map f = .error e) :
  x = .error e
  := by
  cases x with
  | error _ => exact congrArg Except.error (Except.error.inj h)
  | ok a => cases h

/-- Only a broken escape makes reading be given up. -/
theorem infix_of_stringBody (h : stringBody line cs = .error .abandoned) :
  brokenEscape <:+: cs
  := by
  fun_induction stringBody line cs with
  | case1 | case2 | case3 | case4 | case5 | case7 | case9 => cases h
  | case6 cs after hcut =>
    rw [Text.eq_of_cut? hcut]
    exact ⟨[], after, rfl⟩
  | case8 cs group after _ hcut c _ ih =>
    rw [Text.eq_of_cut? hcut]
    exact (ih (of_map_error h)).trans ⟨'\\' :: 'u' :: (group ++ ['\x7d']), [], by simp⟩
  | case10 c cs _ e _ ih => exact (ih (of_map_error h)).trans ⟨['\\', c], [], by simp⟩
  | case11 c cs _ _ _ _ _ ih => exact (ih (of_map_error h)).trans ⟨[c], [], by simp⟩

/-- Only a string is given up on. -/
theorem infix_of_lexemeAt (h : lexemeAt line c cs = .error .abandoned) :
  c = '"' ∧ brokenEscape <:+: cs
  := by
  unfold lexemeAt at h
  split at h
  · cases h
  split at h
  · simp only at h
    split at h <;> cases h
  split at h
  · next hquote => exact ⟨eq_of_beq hquote, infix_of_stringBody (of_map_error h)⟩
  split at h
  · cases h
  split at h
  · simp only at h
    split at h <;> cases h
  split at h
  · cases h
  split at h <;> cases h

/-- What is given up on has a broken escape behind a quote. -/
theorem exists_of_lexemesFrom (h : lexemesFrom line cs = .error .abandoned) :
  ∃ before after, cs = before ++ '"' :: after ∧ brokenEscape <:+: after
  := by
  -- Further to the right it has one if something that ends the text has one.
  have hback {rest : List Char} {c : Char} {cs : List Char} (hrest : rest <:+ cs)
      (h : ∃ before after, rest = before ++ '"' :: after ∧ brokenEscape <:+: after) :
      ∃ before after, c :: cs = before ++ '"' :: after ∧ brokenEscape <:+: after := by
    obtain ⟨first, rfl⟩ := hrest
    obtain ⟨before, after, rfl, hafter⟩ := h
    exact ⟨c :: first ++ before, after, by simp, hafter⟩
  fun_induction lexemesFrom line cs with
  | case1 => cases h
  | case2 line c cs _ ih => exact hback suffix_rfl (ih h)
  | case3 line c cs _ _ ih => exact hback (dropWhile_suffix _) (ih h)
  | case4 line c cs _ _ e hread =>
    cases h
    obtain ⟨rfl, hcs⟩ := infix_of_lexemeAt hread
    exact ⟨[], cs, rfl, hcs⟩
  | case5 line c cs _ _ l rest hread ih =>
    exact hback (suffix_of_lexemeAt hread) (ih (of_map_error h))

/-- There is always a lexeme to look at, the last one. -/
theorem getLast?_of_lexemesFrom (h : lexemesFrom line cs = .ok ls) :
  ∃ last, ls.getLast? = some (.newline, last)
  := by
  fun_induction lexemesFrom line cs generalizing ls with
  | case1 line =>
    cases h
    exact ⟨line, rfl⟩
  | case2 _ _ _ _ ih | case3 _ _ _ _ _ ih => exact ih h
  | case4 => cases h
  | case5 line c cs _ _ l rest _ ih =>
    obtain ⟨others, hothers, rfl⟩ := of_map_ok h
    obtain ⟨last, hlast⟩ := ih hothers
    exact ⟨last, by simp [getLast?_cons, hlast]⟩

theorem stringBody_brokenEscape {after : List Char} :
  stringBody line (brokenEscape ++ after) = .error .abandoned
  := by
  have hcut : Text.cut? '\x7d' ('\x7d' :: after) = some ([], after) := by simp [Text.cut?]
  simp only [brokenEscape, cons_append, stringBody]
  split <;> simp_all

theorem whole_brokenEscape {read : Nat → Read α} {after : List Char}
    (h : text.toList = '"' :: (brokenEscape ++ after)) :
  Read.whole read text = .error .abandoned
  := by
  have hread : lexemeAt 1 '"' (brokenEscape ++ after) = .error .abandoned := by
    rw [lexemeAt, stringBody_brokenEscape]
    rfl
  have hlexemes : lexemes text = .error .abandoned := by
    rw [lexemes, h, lexemesFrom, if_neg (by decide), if_neg (by decide)]
    split <;> simp_all
  rw [Read.whole, hlexemes]
  rfl

/-- Reading ends with a result or with a fault that is reported, unless there is a broken escape
behind a quote.  A text that starts with both is given up on. -/
theorem abandoned_only_at_brokenEscape (text : String) :
  (∀ ls, lexemes text = .ok ls → ∃ last, ls.getLast? = some (.newline, last)) ∧
    (Module.read text = .error .abandoned ∨ readInstructions text = .error .abandoned →
      ∃ before after, text.toList = before ++ '"' :: after ∧ brokenEscape <:+: after) ∧
    ∀ after, text.toList = '"' :: (brokenEscape ++ after) →
      Module.read text = .error .abandoned ∧ readInstructions text = .error .abandoned
  := by
  refine ⟨fun ls => getLast?_of_lexemesFrom, ?_, ?_⟩
  · have hstart : Module.isWritten ⟨[], [], [], "main", none⟩ := by decide
    have hmodule := Read.whole_cases (Read.yields_parts hstart) text
    have hinstrs := Read.whole_cases Read.yields_instructions text
    rintro (h | h)
    · rw [Module.read] at h
      rw [h] at hmodule
      exact exists_of_lexemesFrom (hmodule rfl)
    · rw [readInstructions] at h
      rw [h] at hinstrs
      exact exists_of_lexemesFrom (hinstrs rfl)
  · intro after h
    exact ⟨whole_brokenEscape h, whole_brokenEscape h⟩

theorem abandoned_at_brokenEscape :
  Module.read "\"\\u\x7d\"" = .error .abandoned ∧ readInstructions "\"\\u\x7d\"" = .error .abandoned
  := (abandoned_only_at_brokenEscape "\"\\u\x7d\"").2.2 ['"'] (by decide)

end Endmark.Ir
