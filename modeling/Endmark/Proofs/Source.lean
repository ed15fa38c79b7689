import Endmark.Source.Files
import Endmark.Proofs.Text.Utf8

/-!
# Positions in a source

The line and the column of an offset are found in a table of where lines start.  They are what
counting line feeds and characters gives, and no two offsets between characters share them.
-/

namespace Endmark.SourceFile

open List
open Text (bytes bytes_ofList eq_of_mem_utf8EncodeChar)

/-! ### Bytes of characters -/

@[simp] theorem bytes_append :
  bytes (s ++ t) = bytes s ++ bytes t
  := by
  simp [bytes]

theorem count_bytes :
  (bytes (.ofList cs)).count lineFeed = cs.count '\n'
  := by
  rw [bytes_ofList]
  induction cs with
  | nil => rfl
  | cons c cs ih =>
    rw [flatMap_cons, count_append, count_cons, add_comm]
    congr 1
    by_cases hc : c = '\n'
    · subst hc
      rfl
    · rw [if_neg (by simpa using hc)]
      exact count_eq_zero_of_not_mem fun h => hc (eq_of_mem_utf8EncodeChar (by decide) h)

theorem rdropWhile_bytes :
  (bytes (.ofList cs)).rdropWhile (· == carriageReturn) =
    bytes (.ofList (cs.rdropWhile (· == '\r')))
  := by
  induction cs using reverseRecOn with
  | nil => rfl
  | append_singleton cs c ih =>
    rw [rdropWhile_concat, String.ofList_append]
    by_cases hc : c = '\r'
    · subst hc
      rw [if_pos BEq.rfl, ← ih]
      exact rdropWhile_concat_pos _ _ _ rfl
    · rw [if_neg (by simpa using hc), String.ofList_append, bytes_append, bytes_ofList [c],
        flatMap_singleton]
      refine rdropWhile_eq_self_iff.mpr fun hne hlast => hc ?_
      rw [getLast_append_of_ne_nil _ (by simp), beq_iff_eq] at hlast
      exact eq_of_mem_utf8EncodeChar (by decide) (hlast ▸ getLast_mem (by simp))

/-! ### The table -/

theorem startsFrom_append {source : List UInt8} :
  startsFrom n (source ++ rest) = startsFrom n source ++ startsFrom (n + source.length) rest
  := by
  simp [startsFrom, zipIdx_append]

/-- The starts are behind what comes before, grow, and are as many as the line feeds. -/
theorem startsFrom_spec (n : Nat) (source : List UInt8) :
  (∀ x ∈ startsFrom n source, n < x) ∧ (startsFrom n source).Pairwise (· < ·) ∧
    (startsFrom n source).length = source.count lineFeed
  := by
  induction source generalizing n with
  | nil => simp [startsFrom]
  | cons b source ih =>
    have hcons : startsFrom n (b :: source) =
        (if b = lineFeed then [n + 1] else []) ++ startsFrom (n + 1) source := by
      simp only [startsFrom]
      split <;> simp_all
    rw [hcons]
    split <;> simp_all [Nat.lt_of_succ_lt]

variable {line tail : List Char}

theorem startsFrom_line (h : '\n' ∉ line) :
  startsFrom n (bytes (.ofList line)) = []
  := by
  have hlength := (startsFrom_spec n (bytes (.ofList line))).2.2
  rwa [count_bytes, count_eq_zero_of_not_mem h, length_eq_zero_iff] at hlength

/-- The search finds the last number up to `x`, which is at `k`. -/
theorem search_eq (hsorted : starts.toList.Pairwise (· < ·)) (hle : ∃ a ≤ x, starts[k]? = some a)
    (hlt : ∀ j a, k < j → starts[j]? = some a → x < a) (hlow : low ≤ k + 1) (hhigh : k < high)
    (hsize : high ≤ starts.size) :
  (match search starts x low high with
    | .ok i => i
    | .error i => i - 1) = k
  := by
  -- The number in the middle is greater than `x` if and only if it stands behind `k`.
  have hmiddle {i : Nat} (hi : i < high) : (i < k → starts[i]?.getD 0 < x) ∧
      (k < i → x < starts[i]?.getD 0) := by
    have hsorted := pairwise_iff_getElem.mp hsorted
    constructor
    · grind
    · grind
  fun_induction search starts x low high with
  | case1 low high h middle start heq =>
    grind
  | case2 low high h middle start hne hstart ih | case3 low high h middle start hne hstart ih =>
    apply ih <;> grind
  | case4 => grind

section

variable (hwhole : whole = [] ∨ ∃ first, whole = first ++ ['\n']) (hline : '\n' ∉ line)
  (htail : '\n' ∉ tail)

include hwhole hline htail

/-- In the table, the start of the line behind `whole` comes after those of the lines in it. -/
theorem exists_starts :
  ∃ before : List Nat, before.length = whole.count '\n' ∧
    0 :: startsFrom 0 (bytes (.ofList (whole ++ line ++ tail ++ rest))) =
      before ++ (bytes (.ofList whole)).length ::
        startsFrom (bytes (.ofList (whole ++ line ++ tail))).length (bytes (.ofList rest))
  := by
  simp only [String.ofList_append, bytes_append, startsFrom_append, startsFrom_line hline,
    startsFrom_line htail,
    zero_add]
  obtain rfl | ⟨first, rfl⟩ := hwhole
  · exact ⟨[], rfl, rfl⟩
  · refine ⟨0 :: startsFrom 0 (bytes (.ofList first)), ?_, ?_⟩
    · simp [(startsFrom_spec 0 _).2.2, count_bytes]
    · have hfeed : bytes (.ofList ['\n']) = [lineFeed] := by
        rfl
      simp [startsFrom, zipIdx_append, hfeed]

/-- What the table tells about an offset behind `line`. -/
theorem ofSource_line (hrest : rest = [] ∨ ∃ next, rest = '\n' :: next) (name : String) :
  let f := ofSource name (bytes (.ofList (whole ++ line ++ tail ++ rest)))
  let offset := (bytes (.ofList (whole ++ line))).length
  f.lineAt offset = whole.count '\n' + 1 ∧ f.columnAt offset = line.length + 1 ∧
    f.lineTextAt offset = bytes (.ofList ((line ++ tail).rdropWhile (· == '\r')))
  := by
  intro f offset
  obtain ⟨before, hbefore, hstarts⟩ := exists_starts hwhole hline htail
  have hsorted : f.lineStarts.toList.Pairwise (· < ·) :=
    pairwise_cons.mpr ⟨(startsFrom_spec 0 _).1, (startsFrom_spec 0 _).2.1⟩
  have hf : f.lineStarts.toList = _ := hstarts
  have hsource : f.source = bytes (.ofList whole) ++ (bytes (.ofList line) ++
      (bytes (.ofList tail) ++ bytes (.ofList rest))) := by
    simp [f, ofSource]
  have hindex : f.lineIndex offset = before.length := by
    apply search_eq hsorted
    · exact ⟨(bytes (.ofList whole)).length, by simp [offset],
        by simp [← Array.getElem?_toList, hf]⟩
    · intro j x hj hx
      rw [← Array.getElem?_toList, hf, getElem?_append_right hj.le] at hx
      obtain ⟨j, rfl⟩ := Nat.exists_eq_add_of_lt hj
      have := (startsFrom_spec _ _).1 x (mem_of_getElem? (i := j) (by simpa [add_assoc] using hx))
      simp only [String.ofList_append, bytes_append, length_append, offset] at this ⊢
      omega
    · omega
    · simp [← Array.length_toList, hf]
    · rfl
  have hstart : f.lineStart offset = (bytes (.ofList whole)).length := by
    simp [lineStart, hindex, ← Array.getElem?_toList, hf]
  have hstop : (f.lineStarts[f.lineIndex offset + 1]?.map (· - 1)).getD f.source.length =
      (bytes (.ofList (whole ++ line ++ tail))).length := by
    rw [hindex, ← Array.getElem?_toList, hf]
    obtain rfl | ⟨next, rfl⟩ := hrest
    · rw [bytes_ofList []]
      simp [f, ofSource, startsFrom]
    · have hfeed : String.utf8EncodeChar '\n' = [lineFeed] := rfl
      rw [bytes_ofList (_ :: _), flatMap_cons, hfeed]
      simp [startsFrom]
  refine ⟨?_, ?_, ?_⟩
  · rw [lineAt, hindex, hbefore]
  · rw [columnAt, hstart, hsource, Text.slice]
    simp [offset, take_length_add_append, Text.ofBytes_bytes]
  · simp only [lineTextAt, hstop, hstart, ← rdropWhile_bytes]
    rw [hsource]
    simp [rdropWhile, take_length_add_append]

end

/-- An offset between two characters is in the line and the column that counting gives. -/
theorem ofSource_between (name : String) : let f := ofSource name (bytes (.ofList (cs ++ ds)))
  let offset := (bytes (.ofList cs)).length
  f.lineAt offset = cs.count '\n' + 1 ∧
    f.columnAt offset = (cs.rtakeWhile (· != '\n')).length + 1 ∧
    f.lineTextAt offset = bytes (.ofList
      ((cs.rtakeWhile (· != '\n') ++ ds.takeWhile (· != '\n')).rdropWhile (· == '\r')))
  := by
  have hhead (cs : List Char) : cs.dropWhile (· != '\n') = [] ∨
      ∃ next, cs.dropWhile (· != '\n') = '\n' :: next := by
    have hhead := head?_dropWhile_not (· != '\n') cs
    cases hdrop : cs.dropWhile (· != '\n') <;> simp_all
  have hwhole : cs.rdropWhile (· != '\n') = [] ∨
      ∃ first, cs.rdropWhile (· != '\n') = first ++ ['\n'] := by
    obtain h | ⟨next, h⟩ := hhead cs.reverse <;> simp [rdropWhile, h]
  have hline : '\n' ∉ cs.rtakeWhile (· != '\n') := fun h => by simpa using mem_rtakeWhile_imp h
  have htail : '\n' ∉ ds.takeWhile (· != '\n') := fun h => by simpa using mem_takeWhile_imp h
  have hcount : cs.count '\n' = (cs.rdropWhile (· != '\n')).count '\n' := by
    conv_lhs => rw [← rdropWhile_append_rtakeWhile (p := (· != '\n')) (l := cs)]
    rw [count_append, count_eq_zero_of_not_mem hline, add_zero]
  have hfile := ofSource_line hwhole hline htail (hhead ds) name
  rwa [append_assoc _ (ds.takeWhile _), takeWhile_append_dropWhile, rdropWhile_append_rtakeWhile,
    ← hcount] at hfile

/-- Going on changes the line or the column. -/
theorem eq_nil_of_counts (hline : (cs ++ more).count '\n' = cs.count '\n')
    (hcolumn : ((cs ++ more).rtakeWhile (· != '\n')).length = (cs.rtakeWhile (· != '\n')).length) :
  more = []
  := by
  have hall : ∀ c ∈ more.reverse, (c != '\n') = true := by grind
  rw [rtakeWhile, reverse_append, takeWhile_append_of_pos hall] at hcolumn
  simpa [rtakeWhile] using hcolumn

end SourceFile

open SourceFile in
/-- Each offset between two characters of a text has the line and the column that counting gives,
and no other one has both. -/
theorem Files.locate?_add (fs : Files) (name : String) (cs ds : List Char) (stop : Nat) :
  let span (cs : List Char) : Span := ⟨some fs.size, (Text.bytes (.ofList cs)).length, stop⟩
  let fs := fs.add name (Text.bytes (.ofList (cs ++ ds)))
  fs.locate? (span cs) =
      some ⟨name, cs.count '\n' + 1, (cs.rtakeWhile (· != '\n')).length + 1⟩ ∧
    fs.line? (span cs) = some (Text.bytes (.ofList
      ((cs.rtakeWhile (· != '\n') ++ ds.takeWhile (· != '\n')).rdropWhile (· == '\r')))) ∧
    ∀ cs' ds', cs' ++ ds' = cs ++ ds → fs.locate? (span cs') = fs.locate? (span cs) → cs' = cs
  := by
  intro span fs'
  have hfile (cs' : List Char) : fs'.file? (span cs') =
      some (.ofSource name (Text.bytes (.ofList (cs ++ ds)))) := by
    simp [fs', span, file?, add, size]
  have hlocate {cs' ds' : List Char} (h : cs' ++ ds' = cs ++ ds) : fs'.locate? (span cs') =
      some ⟨name, cs'.count '\n' + 1, (cs'.rtakeWhile (· != '\n')).length + 1⟩ := by
    obtain ⟨hline, hcolumn, -⟩ := h ▸ ofSource_between name
    simp only [locate?, hfile, Option.map_some, span, hline, hcolumn]
    rfl
  refine ⟨hlocate rfl, ?_, ?_⟩
  · simp only [line?, hfile, Option.map_some, span, (ofSource_between name).2.2]
  · intro cs' ds' h heq
    rw [hlocate h, hlocate rfl, Option.some_inj, Location.mk.injEq, Nat.add_right_cancel_iff,
      Nat.add_right_cancel_iff] at heq
    obtain ⟨more, rfl, -⟩ | ⟨more, rfl, -⟩ := List.append_eq_append_iff.mp h
    · rw [eq_nil_of_counts heq.2.1.symm heq.2.2.symm, List.append_nil]
    · rw [eq_nil_of_counts heq.2.1 heq.2.2, List.append_nil]

end Endmark
