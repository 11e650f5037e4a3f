import Brainfuck.Proofs.Excerpts
import Brainfuck.Proofs.Folding
import Mathlib.Order.Bounds.Defs

/-!
# Which texts are read, and what is said about the others

The reader accepts exactly the texts with balanced brackets.  About any other text it says where it
goes wrong, and it is right about that: the place is that of the first bracket that closes more than
was opened, or else of the last one that is never closed.

What the reader keeps of the brackets is a stack of places.  In terms of the text these are the
brackets that are left open, with balanced texts between them, and this is the invariant
(`LeavesOpen`).  A bracket is closed if the search for its partner finds one, as in the running of a
text (`loopEnd?`); that search fails exactly if nothing behind the bracket closes more than it opens
(`partner?_eq_none_iff`), and of the brackets left open the innermost is the last one for which it
does.

* `Unopened`, `Unclosed`: brackets without partner.
* `LeavesOpen`: the brackets that a text leaves open.
* `Reading.ofText_cases`: what the reader makes of a text.
* `SourceError.PointsAt`: diagnostics that lead to a character.
* `Program.parse_points_at_bracket`: the reader accepts balanced texts and points at what is wrong in
  others.
-/

namespace Brainfuck

/-! ## Brackets without partner -/

/-- There is a closing bracket at the offset, and up to it more brackets are closed than opened. -/
def Unopened (text : List Char) (offset : Nat) : Prop :=
  text[offset]? = some ']' ∧
    (text.take (offset + 1)).count '[' < (text.take (offset + 1)).count ']'

/-- There is an opening bracket at the offset, and none that closes it. -/
def Unclosed (text : List Char) (offset : Nat) : Prop :=
  text[offset]? = some '[' ∧ loopEnd? text offset = none

theorem forall_prefix_cons {α : Type} {P : List α → Prop} {a : α} {l : List α} :
    (∀ before, before <+: a :: l → P before) ↔ P [] ∧ ∀ before, before <+: l → P (a :: before) := by
  constructor
  · intro h
    exact ⟨h [] List.nil_prefix, fun before hbefore =>
      h _ (List.cons_prefix_cons.mpr ⟨rfl, hbefore⟩)⟩
  · rintro ⟨hnil, hcons⟩ before hbefore
    rcases List.prefix_cons_iff.mp hbefore with rfl | ⟨rest, rfl, hrest⟩
    · exact hnil
    · exact hcons rest hrest

/-- No partner is found where nothing closes more than is open. -/
theorem partner?_eq_none_iff {opening closing : Char} (hne : opening ≠ closing) {depth : Nat}
    {text : List Char} : partner? opening closing depth text = none ↔
      ∀ before, before <+: text → before.count closing ≤ depth + before.count opening := by
  induction text generalizing depth with
  | nil =>
    simp only [partner?, List.prefix_nil, forall_eq, List.count_nil, Nat.zero_le]
  | cons c text ih =>
    rw [forall_prefix_cons, partner?.eq_def]
    by_cases hclosing : c = closing
    · subst hclosing
      simp only [if_true, List.count_cons_self, List.count_cons_of_ne hne.symm]
      cases depth with
      | zero =>
        constructor
        · intro h
          cases h
        · rintro ⟨-, h⟩
          have := h [] List.nil_prefix
          simp at this
      | succ depth =>
        rw [Option.map_eq_none_iff, ih]
        constructor
        · intro h
          refine ⟨by simp, fun before hbefore => ?_⟩
          have := h before hbefore
          omega
        · rintro ⟨-, h⟩ before hbefore
          have := h before hbefore
          omega
    · by_cases hopening : c = opening
      · subst hopening
        simp only [if_neg hclosing, if_true, Option.map_eq_none_iff, ih, List.count_cons_self,
          List.count_cons_of_ne hclosing]
        constructor
        · intro h
          refine ⟨by simp, fun before hbefore => ?_⟩
          have := h before hbefore
          omega
        · rintro ⟨-, h⟩ before hbefore
          have := h before hbefore
          omega
      · simp only [if_neg hclosing, if_neg hopening, Option.map_eq_none_iff, ih,
          List.count_cons_of_ne hclosing, List.count_cons_of_ne hopening, List.count_nil,
          Nat.zero_le, true_and]

/-! ## Balanced texts -/

namespace Balanced

variable {text text' : List Char}

theorem never (h : Balanced text) {before : List Char} (hbefore : before <+: text) :
    before.count ']' ≤ before.count '[' :=
  h.1 before ((List.mem_inits _ _).mpr hbefore)

theorem of_never (hnever : ∀ before, before <+: text → before.count ']' ≤ before.count '[')
    (hall : text.count '[' = text.count ']') : Balanced text :=
  ⟨fun before hbefore => hnever before ((List.mem_inits _ _).mp hbefore), hall⟩

theorem nil : Balanced [] := by decide

theorem append (h : Balanced text) (h' : Balanced text') : Balanced (text ++ text') := by
  have hall := h.2
  have hall' := h'.2
  refine of_never (fun before hbefore => ?_) ?_
  · rcases List.prefix_or_prefix_of_prefix hbefore (List.prefix_append text text') with hin | hout
    · exact h.never hin
    · obtain ⟨rest, rfl⟩ := hout
      have := h'.never ((List.prefix_append_right_inj text).mp hbefore)
      rw [List.count_append, List.count_append]
      omega
  · rw [List.count_append, List.count_append, hall, hall']

/-- A character that is no bracket. -/
theorem single {c : Char} (hopen : c ≠ '[') (hclose : c ≠ ']') : Balanced [c] := by
  refine of_never (forall_prefix_cons.mpr ⟨Nat.le_refl 0, fun before hbefore => ?_⟩) ?_
  · rw [List.prefix_nil.mp hbefore, List.count_cons_of_ne hclose]
    exact Nat.zero_le _
  · rw [List.count_cons_of_ne hopen, List.count_cons_of_ne hclose]
    rfl

/-- A balanced text in brackets. -/
theorem bracketed (h : Balanced text) : Balanced ('[' :: text ++ [']']) := by
  have hall := h.2
  refine of_never (forall_prefix_cons.mpr ⟨Nat.le_refl 0, fun before hbefore => ?_⟩) ?_
  · rw [List.count_cons_self, List.count_cons_of_ne (by decide)]
    rcases List.prefix_concat_iff.mp hbefore with rfl | hin
    · rw [List.count_append, List.count_append, hall]
      exact Nat.le_refl _
    · exact Nat.le_succ_of_le (h.never hin)
  · rw [List.count_append, List.count_append, List.count_cons_self,
      List.count_cons_of_ne (by decide), hall]
    rfl

end Balanced

/-! ## Brackets that are left open -/

/-- The places of the brackets that a text leaves open, the innermost first. -/
inductive LeavesOpen : List Char → List Position → Prop where
  | nothing {text : List Char} (h : Balanced text) : LeavesOpen text []
  | loop {text inner : List Char} {places : List Position} (h : LeavesOpen text places)
      (inside : Balanced inner) : LeavesOpen (text ++ '[' :: inner) (.behind text :: places)

namespace LeavesOpen

variable {text inner : List Char} {places : List Position} {place : Position}

theorem balanced (h : LeavesOpen text []) : Balanced text := by
  cases h with
  | nothing h => exact h

/-- A balanced text behind it changes nothing. -/
theorem append (h : LeavesOpen text places) (h' : Balanced inner) :
    LeavesOpen (text ++ inner) places := by
  cases h with
  | nothing h => exact .nothing (h.append h')
  | loop h inside =>
    rw [List.append_assoc]
    exact .loop h (inside.append h')

theorem openLoop (h : LeavesOpen text places) :
    LeavesOpen (text ++ ['[']) (.behind text :: places) := .loop h .nil

/-- A closing bracket goes with the innermost that is open. -/
theorem closeLoop (h : LeavesOpen text (place :: places)) : LeavesOpen (text ++ [']']) places := by
  cases h with
  | loop h inside =>
    rw [List.append_assoc]
    exact h.append inside.bracketed

/-- At no point are more brackets closed than opened. -/
theorem never (h : LeavesOpen text places) {before : List Char} (hbefore : before <+: text) :
    before.count ']' ≤ before.count '[' := by
  induction h generalizing before with
  | nothing h => exact h.never hbefore
  | @loop text inner places h inside ih =>
    rcases List.prefix_or_prefix_of_prefix hbefore (List.prefix_append text ('[' :: inner)) with
      hin | hout
    · exact ih hin
    · obtain ⟨rest, rfl⟩ := hout
      have hfirst := ih List.prefix_rfl
      have hrest := (List.prefix_append_right_inj text).mp hbefore
      rw [List.count_append, List.count_append]
      rcases List.prefix_cons_iff.mp hrest with rfl | ⟨rest, rfl, hinside⟩
      · exact hfirst
      · have := inside.never hinside
        rw [List.count_cons_self, List.count_cons_of_ne (by decide)]
        omega

theorem not_unopened (h : LeavesOpen text places) (offset : Nat) : ¬ Unopened text offset := by
  rintro ⟨-, hlt⟩
  exact absurd (h.never (List.take_prefix (offset + 1) text)) (Nat.not_le_of_lt hlt)

/-- A bracket that is left open makes a text unbalanced. -/
theorem not_balanced (h : LeavesOpen text (place :: places)) : ¬ Balanced text := by
  cases h with
  | @loop text inner places h inside =>
    rintro ⟨-, hall⟩
    have hfirst := h.never List.prefix_rfl
    have hinside := inside.2
    rw [List.count_append, List.count_append, List.count_cons_self,
      List.count_cons_of_ne (by decide)] at hall
    omega

/-- The innermost bracket that is left open is the last one that nothing closes. -/
theorem isGreatest_unclosed (h : LeavesOpen text (place :: places)) :
    ∃ offset, IsGreatest {k | Unclosed text k} offset ∧ place = .behind (text.take offset) := by
  cases h with
  | @loop text inner places h inside =>
    refine ⟨text.length, ⟨⟨?_, ?_⟩, ?_⟩, by rw [List.take_left]⟩
    · rw [List.getElem?_append_right (Nat.le_refl _), Nat.sub_self]
      rfl
    · have hnone : partner? '[' ']' 0 inner = none :=
        (partner?_eq_none_iff (by decide)).mpr fun before hbefore => by
          rw [Nat.zero_add]
          exact inside.never hbefore
      have hdrop : (text ++ '[' :: inner).drop (text.length + 1) = inner := by simp
      rw [loopEnd?, hdrop, hnone]
      rfl
    · -- A bracket further on is one of the balanced text, so something behind it closes more than
      -- it opens.
      rintro k ⟨hk, hnone⟩
      by_contra hlt
      obtain ⟨i, rfl⟩ : ∃ i, k = text.length + 1 + i := ⟨k - text.length - 1, by omega⟩
      have hi : inner[i]? = some '[' := by
        rw [List.getElem?_append_right (by omega)] at hk
        rwa [show text.length + 1 + i - text.length = i + 1 by omega,
          List.getElem?_cons_succ] at hk
      have hsplit : inner = inner.take i ++ '[' :: inner.drop (i + 1) := by
        obtain ⟨hlt, heq⟩ := List.getElem?_eq_some_iff.mp hi
        rw [← heq, List.getElem_cons_drop, List.take_append_drop]
      have hdrop : (text ++ '[' :: inner).drop (text.length + 1 + i + 1) = inner.drop (i + 1) := by
        rw [show text.length + 1 + i + 1 = text.length + (1 + (i + 1)) by omega, ← List.drop_drop,
          List.drop_left, ← List.drop_drop]
        rfl
      rw [loopEnd?, hdrop, Option.map_eq_none_iff, partner?_eq_none_iff (by decide)] at hnone
      have hbehind := hnone _ List.prefix_rfl
      have hfront := inside.never (List.take_prefix i inner)
      have hall := inside.2
      rw [hsplit, List.count_append, List.count_append, List.count_cons_self,
        List.count_cons_of_ne (by decide)] at hall
      omega

end LeavesOpen

/-! ## The reader -/

/-- What the reader makes of a text, up to its end. -/
def Reading.ofText (text : List Char) : Except BracketError Reading :=
  (Token.scanFrom .start text).foldlM Reading.step .start

theorem Program.parse_eq (source : String) :
    Program.parse source = (Reading.ofText source.toList >>= Reading.finish) := rfl

namespace Reading

variable {text : List Char} {r : Reading} {c : Char}

theorem ofText_comment (text : List Char) (hc : Command.ofChar? c = none) :
    ofText (text ++ [c]) = ofText text := by
  rw [ofText, Token.scanFrom_append, Token.scanFrom, hc, Token.scanFrom, List.append_nil]
  rfl

/-- One more command is one more step. -/
theorem ofText_command (text : List Char) (k : Command) :
    ofText (text ++ [k.char]) = (ofText text >>= fun r => r.step ⟨k, .behind text⟩) := by
  rw [ofText, Token.scanFrom_append, Token.scanFrom, Command.ofChar?_char, Token.scanFrom,
    List.foldlM_append, ofText]
  congr 1
  funext r
  rw [List.foldlM_cons]
  exact bind_pure _

end Reading

/-- An error in the beginning of a text is the first one in the text. -/
theorem Unopened.isLeast_append {text : List Char} {k : Nat} (h : IsLeast {k | Unopened text k} k)
    (more : List Char) : IsLeast {k | Unopened (text ++ more) k} k := by
  have hiff {j : Nat} (hj : j < text.length) : Unopened (text ++ more) j ↔ Unopened text j := by
    rw [Unopened, Unopened, List.getElem?_append_left hj, List.take_append_of_le_length hj]
  have hk : k < text.length := (List.getElem?_eq_some_iff.mp h.1.1).1
  refine ⟨(hiff hk).mpr h.1, fun j hj => ?_⟩
  by_contra hlt
  exact hlt (h.2 ((hiff (by omega)).mp hj))

/-- Behind a balanced text, a closing bracket is the first one too many. -/
theorem Balanced.isLeast_unopened {text : List Char} (h : Balanced text) :
    IsLeast {k | Unopened (text ++ [']']) k} text.length := by
  refine ⟨⟨by simp, ?_⟩, fun j hj => ?_⟩
  · have hall := h.2
    rw [List.take_of_length_le (by simp), List.count_append, List.count_append, hall]
    simp
  · by_contra hlt
    have htake : (text ++ [']']).take (j + 1) = text.take (j + 1) :=
      List.take_append_of_le_length (by omega)
    refine (LeavesOpen.nothing h).not_unopened j ⟨?_, ?_⟩
    · rw [← hj.1, List.getElem?_append_left (by omega)]
    · rw [← htake]
      exact hj.2

/-- The reader keeps track of the brackets that are left open, up to the first one that closes more
than was opened. -/
theorem Reading.ofText_cases (text : List Char) :
    (∃ r, ofText text = .ok r ∧ LeavesOpen text (r.loops.map OpenLoop.bracket)) ∨
      ∃ k, ofText text = .error (.unexpectedEnd (.behind (text.take k))) ∧
        IsLeast {k | Unopened text k} k := by
  induction text using List.reverseRecOn with
  | nil => exact Or.inl ⟨_, rfl, .nothing .nil⟩
  | append_singleton text c ih =>
    rcases ih with ⟨r, hread, hopen⟩ | ⟨k, hread, hleast⟩
    · cases hc : Command.ofChar? c with
      | none =>
        refine Or.inl ⟨r, (ofText_comment text hc).trans hread, hopen.append ?_⟩
        exact .single (by rintro rfl; cases hc) (by rintro rfl; cases hc)
      | some k =>
        obtain rfl := Command.char_of_ofChar? hc
        have hstep : ofText (text ++ [k.char]) = r.step ⟨k, .behind text⟩ := by
          rw [ofText_command, hread]
          rfl
        cases k with
        | loopStart => exact Or.inl ⟨_, hstep, hopen.openLoop⟩
        | loopEnd =>
          cases hloops : r.loops with
          | nil =>
            rw [hloops] at hopen
            refine Or.inr ⟨text.length, ?_, hopen.balanced.isLeast_unopened⟩
            rw [hstep, List.take_left]
            simp only [step, hloops]
          | cons outer loops =>
            rw [hloops] at hopen
            refine Or.inl ⟨⟨loops, .loop r.done.reverse :: outer.before⟩, ?_, hopen.closeLoop⟩
            rw [hstep]
            simp only [step, hloops]
        | right | left | plus | minus | output | input =>
          exact Or.inl ⟨_, hstep, hopen.append (.single (by decide) (by decide))⟩
    · -- What comes behind an error is not read.
      refine Or.inr ⟨k, ?_, Unopened.isLeast_append hleast [c]⟩
      have hk : k < text.length := (List.getElem?_eq_some_iff.mp hleast.1.1).1
      rw [List.take_append_of_le_length (Nat.le_of_lt hk)]
      cases hc : Command.ofChar? c with
      | none => exact (ofText_comment text hc).trans hread
      | some k =>
        obtain rfl := Command.char_of_ofChar? hc
        rw [ofText_command, hread]
        rfl

/-- A text that is read to its end is balanced. -/
theorem Program.balanced_of_parse {source : String} {p : Program} (h : Program.parse source = .ok p) :
    Balanced source.toList := by
  rw [Program.parse_eq] at h
  rcases Reading.ofText_cases source.toList with ⟨r, hread, hopen⟩ | ⟨offset, hread, -⟩
  · rw [hread] at h
    change r.finish = .ok p at h
    cases hloops : r.loops with
    | nil =>
      rw [hloops] at hopen
      exact hopen.balanced
    | cons innermost loops =>
      rw [Reading.finish, hloops] at h
      cases h
  · rw [hread] at h
    cases h

/-! ## Diagnostics -/

/-- A diagnostic about a text says something about the character at an offset: its line and column,
both counted from one, are those of that character, and it shows the lines around, with a mark at
that one line only. -/
structure SourceError.PointsAt (d : SourceError) (what source : String) (offset line column : Nat) :
    Prop where
  place : d.line = line ∧ d.column = column
  line_mem : 1 ≤ line ∧ line ≤ (source.toList.splitOn '\n').length
  column_pos : 1 ≤ column
  offset_eq : offsetOf (source.toList.splitOn '\n') (line - 1) (column - 1) = offset
  character : ∃ text, (source.toList.splitOn '\n')[line - 1]? = some text ∧
    text[column - 1]? = source.toList[offset]?
  shown : d.excerpt.toList.splitOn '\n' = shownLines (source.toList.splitOn '\n') line
  marked : (d.excerpt.toList.splitOn '\n').filter (fun shown => shown.head? = some '>') =
    [shownLine true line ((source.toList.splitOn '\n').getD (line - 1) [])]
  message : d.message = "ParseError: " ++ what ++ " at " ++ toString line ++ ":" ++
    toString column ++ "\n" ++ d.excerpt ++ Topic.parse.hintBlock what

/-- A diagnostic leads to the character behind the place of the error. -/
theorem BracketError.pointsAt_diagnose (e : BracketError) (source : String) {offset : Nat} {c : Char}
    (hc : c ≠ '\n') (hat : source.toList[offset]? = some c)
    (hplace : e.position = .behind (source.toList.take offset)) :
    ∃ line column, (e.diagnose source).PointsAt e.message source offset line column := by
  obtain ⟨hlt, hget⟩ := List.getElem?_eq_some_iff.mp hat
  have hsplit : source.toList.take offset ++ c :: source.toList.drop (offset + 1) =
      source.toList := by
    rw [← hget, List.getElem_cons_drop, List.take_append_drop]
  obtain ⟨i, j, text, hbehind, hline, hchar, hoffset⟩ := Position.exists_line_behind hc
    (source.toList.take offset) (source.toList.drop (offset + 1))
  rw [hsplit] at hline hoffset
  rw [List.length_take_of_le (Nat.le_of_lt hlt)] at hoffset
  have hle : i + 1 ≤ (source.toList.splitOn '\n').length := (List.getElem?_eq_some_iff.mp hline).1
  have hdiagnose : e.diagnose source = .at e.message source (i + 1 : Nat) (j + 1 : Nat) := by
    rw [diagnose, hplace, hbehind]
  have hshown : (e.diagnose source).excerpt.toList.splitOn '\n' =
      shownLines (source.toList.splitOn '\n') (i + 1) := by
    rw [hdiagnose]
    exact splitOn_excerpt source (Nat.le_add_left 1 i) hle
  refine ⟨i + 1, j + 1, ⟨?_, ?_⟩, ⟨Nat.le_add_left 1 i, hle⟩, Nat.le_add_left 1 j, hoffset,
    ⟨text, hline, hchar.trans hat.symm⟩, hshown, ?_, ?_⟩
  · rw [hdiagnose]
    rfl
  · rw [hdiagnose]
    rfl
  · rw [hshown]
    exact filter_shownLines (Nat.le_add_left 1 i) hle
  · rw [hdiagnose]
    rfl

/-- **What the reader accepts.**  A text is read if and only if its brackets are balanced.  About
any other text there is a diagnostic, and it points at a bracket: at the first one that closes more
than was opened if there is one, and else at the last one that nothing closes. -/
theorem Program.parse_points_at_bracket (source : String) :
    ((∃ p, Program.parse source = .ok p) ↔ Balanced source.toList) ∧
      (¬ Balanced source.toList → ∃ e offset line column, Program.parse source = .error e ∧
        (e.diagnose source).PointsAt e.message source offset line column ∧
        ((e.message = "unexpected loop end" ∧ IsLeast {k | Unopened source.toList k} offset) ∨
          (e.message = "expected loop end for start" ∧ (∀ k, ¬ Unopened source.toList k) ∧
            IsGreatest {k | Unclosed source.toList k} offset))) := by
  rw [Program.parse_eq]
  rcases Reading.ofText_cases source.toList with ⟨r, hread, hopen⟩ | ⟨offset, hread, hleast⟩
  · rw [hread]
    cases hloops : r.loops with
    | nil =>
      rw [hloops] at hopen
      have hfinish : (Except.ok r >>= Reading.finish) = .ok r.done.reverse := by
        simp only [bind, Except.bind, Reading.finish, hloops]
      exact ⟨⟨fun _ => hopen.balanced, fun _ => ⟨_, hfinish⟩⟩, fun h => absurd hopen.balanced h⟩
    | cons innermost loops =>
      have hnever := hopen.not_unopened
      rw [hloops, List.map_cons] at hopen
      have hfinish : (Except.ok r >>= Reading.finish) = .error (.missingEnd innermost.bracket) := by
        simp only [bind, Except.bind, Reading.finish, hloops]
      obtain ⟨offset, hgreatest, hplace⟩ := hopen.isGreatest_unclosed
      obtain ⟨line, column, hpoints⟩ := BracketError.pointsAt_diagnose
        (.missingEnd innermost.bracket) source (by decide) hgreatest.1.1 hplace
      rw [hfinish]
      refine ⟨⟨?_, fun h => absurd h hopen.not_balanced⟩, fun _ => ⟨_, offset, line, column, rfl,
        hpoints, Or.inr ⟨rfl, hnever, hgreatest⟩⟩⟩
      rintro ⟨p, hp⟩
      cases hp
  · have hnot : ¬ Balanced source.toList := fun h =>
      (LeavesOpen.nothing h).not_unopened offset hleast.1
    obtain ⟨line, column, hpoints⟩ := BracketError.pointsAt_diagnose
      (.unexpectedEnd (.behind (source.toList.take offset))) source (by decide) hleast.1.1 rfl
    rw [hread]
    refine ⟨⟨?_, fun h => absurd h hnot⟩, fun _ => ⟨_, offset, line, column, rfl, hpoints,
      Or.inl ⟨rfl, hleast⟩⟩⟩
    rintro ⟨p, hp⟩
    cases hp

/-- A text with both kinds of mistakes, over several lines. -/
theorem Program.parse_points_at_bracket_both :
    ¬ Balanced "[+\n+]\n]\n[[".toList ∧ ∃ e offset line column,
      Program.parse "[+\n+]\n]\n[[" = .error e ∧
        (e.diagnose "[+\n+]\n]\n[[").PointsAt e.message "[+\n+]\n]\n[[" offset line column ∧
        ((e.message = "unexpected loop end" ∧
            IsLeast {k | Unopened "[+\n+]\n]\n[[".toList k} offset) ∨
          (e.message = "expected loop end for start" ∧
            (∀ k, ¬ Unopened "[+\n+]\n]\n[[".toList k) ∧
            IsGreatest {k | Unclosed "[+\n+]\n]\n[[".toList k} offset)) :=
  ⟨by decide, (Program.parse_points_at_bracket _).2 (by decide)⟩

end Brainfuck
