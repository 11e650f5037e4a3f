import Brainfuck.Program.Parse
import Mathlib.Data.List.Basic
import Mathlib.Data.List.Nodup

/-!
# Places and excerpts

Three parts of the library count lines on their own: a place is counted character by character, a
text is broken into lines to be shown, and an excerpt picks lines by their numbers.  Here they are
compared with one another, by way of splitting a text at its newlines.

A place that is reached from the beginning of a text leads to the character behind: the line with its
number has that character in its column.  To say which character it is, and not only which letter it
is, the lines in front are counted out, each with the newline that ended it.

* `Text.lines_eq_splitOn`: the lines of a text.
* `Position.behind`, `Position.exists_line_behind`: the place behind the beginning of a text.
* `splitOn_excerpt`: the lines of an excerpt.
* `filter_shownLines`: exactly one of them is marked.
-/

namespace Brainfuck

/-! ## Lines -/

namespace Text

theorem breakLines_eq_splitOn (text : List Char) :
    (breakLines text).1 :: (breakLines text).2 = text.splitOn '\n' := by
  induction text with
  | nil => rfl
  | cons c text ih =>
    rw [List.splitOn_cons_eq_if_modifyHead, ← ih, breakLines]
    by_cases hc : c = '\n'
    · simp only [if_pos hc, beq_iff_eq.mpr hc, if_true]
    · simp only [if_neg hc, beq_false_of_ne hc, Bool.false_eq_true, if_false, List.modifyHead_cons]

/-- Breaking a text into lines is splitting it at its newlines. -/
theorem lines_eq_splitOn (source : String) :
    lines source = (source.toList.splitOn '\n').map String.ofList := by
  rw [← breakLines_eq_splitOn]
  rfl

/-- A line has no newline. -/
theorem newline_notMem_of_mem_splitOn {text line : List Char} (h : line ∈ text.splitOn '\n') :
    '\n' ∉ line := by
  induction text generalizing line with
  | nil =>
    rw [List.splitOn_nil, List.mem_singleton] at h
    rw [h]
    exact List.not_mem_nil
  | cons c text ih =>
    rw [List.splitOn_cons_eq_if_modifyHead] at h
    obtain ⟨first, rest, hsplit⟩ := List.exists_cons_of_ne_nil (List.splitOn_ne_nil '\n' text)
    rw [hsplit] at h ih
    split at h
    case isTrue =>
      rcases List.mem_cons.mp h with rfl | h
      · exact List.not_mem_nil
      · exact ih h
    case isFalse hc =>
      rw [List.modifyHead_cons] at h
      rcases List.mem_cons.mp h with rfl | h
      · rw [List.mem_cons, not_or]
        exact ⟨fun heq => hc (beq_iff_eq.mpr heq.symm), ih List.mem_cons_self⟩
      · exact ih (List.mem_cons_of_mem _ h)

end Text

/-! ## Places -/

/-- The place behind the beginning of a text. -/
def Position.behind (before : List Char) : Position := before.foldl Position.after .start

/-- How many characters there are in front of a column of a line, both counted from zero: those of all
lines before, a newline behind each of them, and the columns before. -/
def offsetOf (lines : List (List Char)) (line column : Nat) : Nat :=
  (lines.take line).flatten.length + line + column

/-- From a place, over a beginning of a text, one comes to the character behind it. -/
theorem Position.exists_line (l k : Nat) {c : Char} (hc : c ≠ '\n') (before after : List Char) :
    ∃ i j text, before.foldl Position.after ⟨l, k⟩ = ⟨l + i, j + if i = 0 then k else 1⟩ ∧
      ((before ++ c :: after).splitOn '\n')[i]? = some text ∧ text[j]? = some c ∧
      offsetOf ((before ++ c :: after).splitOn '\n') i j = before.length := by
  induction before generalizing l k with
  | nil =>
    obtain ⟨first, rest, hsplit⟩ := List.exists_cons_of_ne_nil (List.splitOn_ne_nil '\n' after)
    refine ⟨0, 0, c :: first, ?_, ?_, rfl, rfl⟩
    · rw [List.foldl_nil, if_pos rfl, Nat.add_zero, Nat.zero_add]
    · rw [List.nil_append, List.splitOn_cons_eq_if_modifyHead, hsplit,
        if_neg (by rwa [beq_iff_eq]), List.modifyHead_cons]
      rfl
  | cons x before ih =>
    obtain ⟨first, rest, hsplit⟩ :=
      List.exists_cons_of_ne_nil (List.splitOn_ne_nil '\n' (before ++ c :: after))
    rw [List.foldl_cons, Position.after, List.cons_append, List.splitOn_cons_eq_if_modifyHead]
    by_cases hx : x = '\n'
    · -- The next line begins, and with it the count of columns.
      rw [if_pos hx, if_pos (beq_iff_eq.mpr hx)]
      obtain ⟨i, j, text, hplace, hline, hchar, hoffset⟩ := ih (l + 1) 1
      refine ⟨i + 1, j, text, ?_, ?_, hchar, ?_⟩
      · rw [hplace, ite_self, if_neg (Nat.succ_ne_zero i), Nat.add_assoc l, Nat.add_comm 1]
      · rwa [List.getElem?_cons_succ]
      · simp only [offsetOf, List.take_succ_cons, List.flatten_cons, List.nil_append,
          List.length_cons] at hoffset ⊢
        omega
    · rw [if_neg hx, if_neg (by rwa [beq_iff_eq]), hsplit, List.modifyHead_cons]
      obtain ⟨i, j, text, hplace, hline, hchar, hoffset⟩ := ih l (k + 1)
      rw [hsplit] at hline hoffset
      rw [hplace]
      cases i with
      | zero =>
        obtain rfl := Option.some.inj hline
        refine ⟨0, j + 1, x :: first, ?_, rfl, hchar, ?_⟩
        · rw [if_pos rfl, if_pos rfl, Nat.add_assoc, Nat.add_comm 1]
        · simp only [offsetOf, List.take_zero, List.flatten_nil, List.length_nil, List.length_cons]
            at hoffset ⊢
          omega
      | succ i =>
        refine ⟨i + 1, j, text, ?_, hline, hchar, ?_⟩
        · rw [if_neg (Nat.succ_ne_zero i), if_neg (Nat.succ_ne_zero i)]
        · simp only [offsetOf, List.take_succ_cons, List.flatten_cons, List.length_append,
            List.length_cons] at hoffset ⊢
          omega

/-- The place behind the beginning of a text is that of the next character. -/
theorem Position.exists_line_behind {c : Char} (hc : c ≠ '\n') (before after : List Char) :
    ∃ i j text, Position.behind before = ⟨i + 1, j + 1⟩ ∧
      ((before ++ c :: after).splitOn '\n')[i]? = some text ∧ text[j]? = some c ∧
      offsetOf ((before ++ c :: after).splitOn '\n') i j = before.length := by
  obtain ⟨i, j, text, hplace, hrest⟩ := Position.exists_line 1 1 hc before after
  refine ⟨i, j, text, ?_, hrest⟩
  rw [behind, start, hplace, ite_self, Nat.add_comm 1]

/-! ## Excerpts -/

/-- A line as it is shown: with a mark or without, its number in four columns, and its text. -/
def shownLine (marked : Bool) (number : Nat) (text : List Char) : List Char :=
  (if marked then '>' else ' ') :: ' ' :: Text.padLeft ' ' 4 (toString number).toList ++
    " | ".toList ++ text

/-- The lines that are shown around a line: up to two on either side, in order. -/
def shownLines (lines : List (List Char)) (line : Nat) : List (List Char) :=
  let first := max 1 (line - 2)
  let last := min lines.length (line + 2)
  (List.range' first (last + 1 - first)).map fun number =>
    shownLine (number = line) number (lines.getD (number - 1) [])

theorem toList_excerptLine (line number : Nat) (text : List Char) :
    (excerptLine line number (.ofList text)).toList = shownLine (number = line) number text := by
  have hmark : (if (number : Int) = line then '>' else ' ') =
      if decide (number = line) then '>' else ' ' := by
    simp only [Int.natCast_inj, decide_eq_true_eq]
  rw [excerptLine, hmark, shownLine]
  simp

theorem newline_notMem_shownLine (marked : Bool) (number : Nat) {text : List Char}
    (h : '\n' ∉ text) : '\n' ∉ shownLine marked number text := by
  have hdigits : '\n' ∉ Nat.toDigits 10 number := by
    intro hmem
    have hdigit := Nat.isDigit_of_mem_toDigits (by decide) (Nat.le_refl 10) hmem
    exact absurd hdigit (by decide)
  have hmark : (if marked then '>' else ' ') ≠ '\n' := by cases marked <;> decide
  simp [shownLine, Text.padLeft, hdigits, h, hmark.symm]

/-- The numbered entries of a list whose numbers are within bounds. -/
theorem filterMap_zipIdx {α β : Type} (d : α) (f : Nat → α → β) (low high k : Nat) (l : List α) :
    (l.zipIdx k).filterMap
        (fun x => if low ≤ x.2 ∧ x.2 ≤ high then some (f x.2 x.1) else none) =
      (List.range' (max k low) (min (k + l.length) (high + 1) - max k low)).map
        fun number => f number (l.getD (number - k) d) := by
  induction l generalizing k with
  | nil =>
    have hnone : min k (high + 1) - max k low = 0 := by omega
    rw [List.length_nil, Nat.add_zero, hnone]
    rfl
  | cons a l ih =>
    have hrest : ∀ first count, k < first →
        (List.range' first count).map (fun number => f number ((a :: l).getD (number - k) d)) =
          (List.range' first count).map fun number => f number (l.getD (number - (k + 1)) d) := by
      intro first count hfirst
      refine List.map_congr_left fun number hnumber => ?_
      have hsucc : number - k = number - (k + 1) + 1 := by
        have := (List.mem_range'_1.mp hnumber).1
        omega
      rw [hsucc, List.getD_cons_succ]
    have hlength : min (k + (a :: l).length) (high + 1) = min (k + 1 + l.length) (high + 1) := by
      rw [List.length_cons, Nat.add_assoc k 1, Nat.add_comm 1]
    rw [List.zipIdx_cons, List.filterMap_cons, ih, hlength]
    by_cases hlow : low ≤ k
    · by_cases hhigh : k ≤ high
      · -- The first entry is one of those asked for.
        have hcount : min (k + 1 + l.length) (high + 1) - max k low =
            min (k + 1 + l.length) (high + 1) - max (k + 1) low + 1 := by omega
        have hfirst : max (k + 1) low = max k low + 1 := by omega
        have hk : max k low = k := by omega
        simp only [if_pos (And.intro hlow hhigh)]
        rw [hcount, List.range'_succ, List.map_cons, ← hfirst, hrest _ _ (by omega), hk,
          Nat.sub_self, List.getD_cons_zero]
      · -- The entries asked for are over.
        have hnone : min (k + 1 + l.length) (high + 1) - max k low = 0 := by omega
        have hnone' : min (k + 1 + l.length) (high + 1) - max (k + 1) low = 0 := by omega
        simp only [if_neg fun h : low ≤ k ∧ k ≤ high => hhigh h.2]
        rw [hnone, hnone']
        rfl
    · have hfirst : max (k + 1) low = max k low := by omega
      simp only [if_neg fun h : low ≤ k ∧ k ≤ high => hlow h.1]
      rw [hfirst, hrest _ _ (by omega)]

theorem excerpt_eq_unlines (source : String) {line : Nat} (hpos : 1 ≤ line) :
    excerpt (Text.lines source) line excerptMargin =
      Text.unlines ((shownLines (source.toList.splitOn '\n') line).map String.ofList) := by
  have hfocus : max 1 (line : Int) = line := by omega
  have hshown (x : List Char × Nat) :
      (if (line : Int) - 2 ≤ x.2 ∧ (x.2 : Int) ≤ line + 2 then
          some (excerptLine line x.2 (.ofList x.1)) else none) =
        if line - 2 ≤ x.2 ∧ x.2 ≤ line + 2 then
          some (String.ofList (shownLine (x.2 = line) x.2 x.1)) else none := by
    have hiff : (line : Int) - 2 ≤ x.2 ∧ (x.2 : Int) ≤ line + 2 ↔
        line - 2 ≤ x.2 ∧ x.2 ≤ line + 2 := by omega
    rw [← toList_excerptLine, String.ofList_toList]
    exact if_congr hiff rfl rfl
  have hcount (n : Nat) : min (1 + n) (line + 2 + 1) = min n (line + 2) + 1 := by omega
  simp only [excerpt, excerptMargin, hfocus, Text.lines_eq_splitOn, List.zipIdx_map,
    List.filterMap_map, Function.comp_def, Prod.map_fst, Prod.map_snd, id_eq, hshown]
  rw [filterMap_zipIdx [] (fun number text => String.ofList (shownLine (number = line) number text)),
    hcount, shownLines, List.map_map]
  rfl

theorem newline_notMem_of_mem_shownLines {text : List Char} {line : Nat} {shown : List Char}
    (h : shown ∈ shownLines (text.splitOn '\n') line) : '\n' ∉ shown := by
  obtain ⟨number, -, rfl⟩ := List.mem_map.mp h
  refine newline_notMem_shownLine _ _ ?_
  rw [List.getD_eq_getElem?_getD]
  cases hline : (text.splitOn '\n')[number - 1]? with
  | none => exact List.not_mem_nil
  | some l => exact Text.newline_notMem_of_mem_splitOn (List.mem_of_getElem? hline)

section Shown

variable {lines : List (List Char)} {line : Nat}

/-- The line itself is one of those that are shown. -/
theorem mem_range_shownLines (hpos : 1 ≤ line) (hle : line ≤ lines.length) :
    line ∈ List.range' (max 1 (line - 2)) (min lines.length (line + 2) + 1 - max 1 (line - 2)) := by
  rw [List.mem_range'_1]
  omega

/-- Exactly one line is marked. -/
theorem filter_shownLines (hpos : 1 ≤ line) (hle : line ≤ lines.length) :
    (shownLines lines line).filter (fun shown => shown.head? = some '>') =
      [shownLine true line (lines.getD (line - 1) [])] := by
  have hmark (number : Nat) (text : List Char) :
      ((shownLine (number = line) number text).head? = some '>') ↔ number = line := by
    by_cases h : number = line <;> simp [shownLine, h]
  have hone := List.count_eq_one_of_mem (List.nodup_range' 1) (mem_range_shownLines hpos hle)
  rw [shownLines, List.filter_map]
  simp only [Function.comp_def, hmark]
  simp only [← beq_eq_decide]
  rw [List.filter_beq, hone, List.replicate_one, List.map_singleton, beq_self_eq_true]

end Shown

/-- The lines of an excerpt are those around the line. -/
theorem splitOn_excerpt (source : String) {line : Nat} (hpos : 1 ≤ line)
    (hle : line ≤ (source.toList.splitOn '\n').length) :
    (excerpt (Text.lines source) line excerptMargin).toList.splitOn '\n' =
      shownLines (source.toList.splitOn '\n') line := by
  have hne : shownLines (source.toList.splitOn '\n') line ≠ [] :=
    List.ne_nil_of_mem (List.mem_map_of_mem (mem_range_shownLines hpos hle))
  have hlist : ((shownLines (source.toList.splitOn '\n') line).map String.ofList).map String.toList =
      shownLines (source.toList.splitOn '\n') line := by
    rw [List.map_map]
    exact List.map_id'' (fun _ => String.toList_ofList) _
  rw [excerpt_eq_unlines source hpos, Text.unlines, String.toList_intercalate, hlist]
  exact List.splitOn_intercalate '\n' (fun _ => newline_notMem_of_mem_shownLines) hne

end Brainfuck
