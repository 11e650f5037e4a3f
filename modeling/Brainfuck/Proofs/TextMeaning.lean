import Brainfuck.Proofs.Realization
import Brainfuck.Token
import Mathlib.Data.List.Infix

/-!
# Texts, run character by character

A text is run without being read into a tree first.  A cursor goes over the characters; at a bracket
it looks for the partner in the text itself, counting the brackets in between.  Every character that
is no command is passed.  The tape has no right end and begins with zeros.

A text with balanced brackets is a sequence of characters and of texts in brackets, down to any
depth.  This is what `Spells` says, which relates a text to the tree that has one node for each
command, nothing folded.  The cursor then does what that tree means: both have the same loops, and
the brackets of a loop are partners because what is between them is balanced.

* `Balanced`: the texts whose brackets match.
* `Cursor.step`: running a text.
* `Spells`, `exists_spells`: the tree of a balanced text, one node for each command.
* `Spells.performs`: running a text does what that tree means, also inside another text.
* `Spells.ends_iff`, `Spells.forever_iff`: whole texts.
-/

namespace Brainfuck

/-! ## Running a text -/

/-- No beginning of the text closes more brackets than it opens, and the text closes all of them. -/
def Balanced (text : List Char) : Prop :=
  (∀ before ∈ text.inits, before.count ']' ≤ before.count '[') ∧ text.count '[' = text.count ']'

instance (text : List Char) : Decidable (Balanced text) := inferInstanceAs (Decidable (_ ∧ _))

/-- How many characters there are in front of the bracket that closes a number of open ones and one
more. -/
def partner? (opening closing : Char) (depth : Nat) : List Char → Option Nat
  | [] => none
  | c :: text =>
    if c = closing then
      match depth with
      | 0 => some 0
      | depth + 1 => (partner? opening closing depth text).map (· + 1)
    else if c = opening then (partner? opening closing (depth + 1) text).map (· + 1)
    else (partner? opening closing depth text).map (· + 1)

/-- The position of the bracket that closes the one at a position. -/
def loopEnd? (text : List Char) (position : Nat) : Option Nat :=
  (partner? '[' ']' 0 (text.drop (position + 1))).map (position + 1 + ·)

/-- The position of the bracket that opens the one at a position. -/
def loopStart? (text : List Char) (position : Nat) : Option Nat :=
  (partner? ']' '[' 0 (text.take position).reverse).map (position - 1 - ·)

/-- A position in a text, and what the text works on. -/
structure Cursor where
  position : Nat
  config : Config

namespace Cursor

/-- Goes on behind a position, if there is one. -/
def jump (x : Cursor) : Option Nat → Advance Cursor Ending
  | some position => .next ⟨position + 1, x.config⟩
  | none => .stuck

/-- Does what a character says. -/
def obey (text : List Char) (x : Cursor) : Char → Advance Cursor Ending
  | '>' => .next ⟨x.position + 1, x.config.goTo (x.config.index + 1)⟩
  | '<' =>
    if x.config.index = 0 then .final (.fault x.config)
    else .next ⟨x.position + 1, x.config.goTo (x.config.index - 1)⟩
  | '+' => .next ⟨x.position + 1, x.config.store (x.config.cell + 1)⟩
  | '-' => .next ⟨x.position + 1, x.config.store (x.config.cell - 1)⟩
  | '.' => .next ⟨x.position + 1, x.config.write⟩
  | ',' => .next ⟨x.position + 1, x.config.read⟩
  | '[' =>
    if x.config.cell = 0 then x.jump (loopEnd? text x.position)
    else .next ⟨x.position + 1, x.config⟩
  | ']' =>
    if x.config.cell = 0 then .next ⟨x.position + 1, x.config⟩
    else x.jump (loopStart? text x.position)
  | _ => .next ⟨x.position + 1, x.config⟩

/-- Does what the next character says; behind the last one the text has ended. -/
def step (text : List Char) (x : Cursor) : Advance Cursor Ending :=
  match text[x.position]? with
  | none => .final (.done x.config)
  | some c => x.obey text c

/-- Where a text begins: at its first character, on zero cells. -/
def start (input : List UInt8) : Cursor := ⟨0, ⟨fun _ => 0, 0, input, #[]⟩⟩

variable {text : List Char} {x : Cursor}

theorem step_of_char {c : Char} (h : text[x.position]? = some c) : x.step text = x.obey text c := by
  rw [step, h]

theorem step_of_end (h : text.length ≤ x.position) : x.step text = .final (.done x.config) := by
  rw [step, List.getElem?_eq_none h]

/-- A comment is passed. -/
theorem obey_of_comment {c : Char} (h : Command.ofChar? c = none) :
    x.obey text c = .next ⟨x.position + 1, x.config⟩ := by
  have hne : ∀ k : Command, c = k.char → False := by
    rintro k rfl
    rw [Command.ofChar?_char] at h
    cases h
  rw [obey]
  · exact hne .right
  · exact hne .left
  · exact hne .plus
  · exact hne .minus
  · exact hne .output
  · exact hne .input
  · exact hne .loopStart
  · exact hne .loopEnd

end Cursor

/-! ## Partners -/

/-- A text that a search for a partner passes without finding one. -/
def Passed (opening closing : Char) (text : List Char) : Prop :=
  ∀ depth rest, partner? opening closing depth (text ++ rest) =
    (partner? opening closing depth rest).map (· + text.length)

namespace Passed

variable {opening closing : Char} {text text' : List Char}

theorem nil : Passed opening closing [] := by
  intro depth rest
  simp

theorem append (h : Passed opening closing text) (h' : Passed opening closing text') :
    Passed opening closing (text ++ text') := by
  intro depth rest
  rw [List.append_assoc, h, h', Option.map_map]
  congr 1
  funext n
  simp only [Function.comp_apply, List.length_append]
  omega

/-- A character that is neither of the two brackets. -/
theorem single {c : Char} (hopening : c ≠ opening) (hclosing : c ≠ closing) :
    Passed opening closing [c] := by
  intro depth rest
  rw [List.singleton_append, partner?.eq_def]
  simp only [if_neg hclosing, if_neg hopening]
  rfl

/-- A text in brackets: the second bracket is the partner of the first. -/
theorem bracketed (hne : opening ≠ closing) (h : Passed opening closing text) :
    Passed opening closing (opening :: text ++ [closing]) := by
  intro depth rest
  have hopen : ∀ rest, partner? opening closing depth (opening :: rest) =
      (partner? opening closing (depth + 1) rest).map (· + 1) := by
    intro rest
    rw [partner?.eq_def]
    simp only [if_neg hne, if_true]
  have hclose : partner? opening closing (depth + 1) (closing :: rest) =
      (partner? opening closing depth rest).map (· + 1) := by
    rw [partner?.eq_def]
    simp only [if_true]
  rw [List.append_assoc, List.cons_append, List.singleton_append, hopen, h, hclose,
    Option.map_map, Option.map_map]
  congr 1
  funext n
  simp only [Function.comp_apply, List.length_append, List.length_cons, List.length_nil]
  omega

/-- What is found behind a text that is passed. -/
theorem partner_eq (h : Passed opening closing text) (rest : List Char) :
    partner? opening closing 0 (text ++ closing :: rest) = some text.length := by
  rw [h, partner?.eq_def]
  simp only [if_true, Option.map_some, Nat.zero_add]

/-- The bracket that closes a segment is found from the one that opens it. -/
theorem loopEnd?_eq (h : Passed '[' ']' text) (before after : List Char) :
    loopEnd? (before ++ '[' :: (text ++ ']' :: after)) before.length =
      some (before.length + 1 + text.length) := by
  have hdrop : (before ++ '[' :: (text ++ ']' :: after)).drop (before.length + 1) =
      text ++ ']' :: after := by
    simp
  rw [loopEnd?, hdrop, h.partner_eq]
  rfl

/-- The bracket that opens a segment is found from the one that closes it. -/
theorem loopStart?_eq (h : Passed ']' '[' text.reverse) (before after : List Char) :
    loopStart? (before ++ '[' :: (text ++ ']' :: after)) (before.length + 1 + text.length) =
      some before.length := by
  have htake : ((before ++ '[' :: (text ++ ']' :: after)).take
      (before.length + 1 + text.length)).reverse = text.reverse ++ '[' :: before.reverse := by
    rw [Nat.add_assoc, List.take_length_add_append, Nat.add_comm 1, List.take_succ_cons,
      List.take_left, List.reverse_append, List.reverse_cons, List.append_assoc]
    rfl
  rw [loopStart?, htake, h.partner_eq, List.length_reverse, Option.map_some]
  congr 1
  omega

end Passed

/-! ## Trees with one node for each command -/

/-- The node for a command that is no bracket. -/
def Command.literal? : Command → Option Node
  | .right => some (.moveRight 1)
  | .left => some (.moveLeft 1)
  | .plus => some (.increment 1)
  | .minus => some (.decrement 1)
  | .output => some .output
  | .input => some .input
  | .loopStart | .loopEnd => none

/-- A text says a tree, with one node for each command and one for each pair of brackets. -/
inductive Spells : List Char → List Node → Prop where
  | nil : Spells [] []
  | comment {c : Char} {text : List Char} {p : List Node} (none : Command.ofChar? c = none)
      (rest : Spells text p) : Spells (c :: text) p
  | command {k : Command} {n : Node} {text : List Char} {p : List Node}
      (some : k.literal? = some n) (rest : Spells text p) : Spells (k.char :: text) (n :: p)
  | loop {inner text : List Char} {body p : List Node} (inside : Spells inner body)
      (rest : Spells text p) : Spells ('[' :: inner ++ ']' :: text) (.loop body :: p)

/-- Nothing that a text with a tree opens or closes concerns a search from outside, in either
direction. -/
theorem Spells.passed {text : List Char} {p : List Node} (h : Spells text p) :
    Passed '[' ']' text ∧ Passed ']' '[' text.reverse := by
  have hcons : ∀ {c : Char} {text : List Char}, c ≠ '[' → c ≠ ']' →
      Passed '[' ']' text ∧ Passed ']' '[' text.reverse →
      Passed '[' ']' (c :: text) ∧ Passed ']' '[' (c :: text).reverse := by
    intro c text hopen hclose ih
    rw [List.reverse_cons]
    exact ⟨(Passed.single hopen hclose).append ih.1, ih.2.append (.single hclose hopen)⟩
  induction h with
  | nil => exact ⟨.nil, .nil⟩
  | comment none _ ih => exact hcons (by rintro rfl; cases none) (by rintro rfl; cases none) ih
  | @command k n text p some _ ih =>
    have hbracket : k.char ≠ '[' ∧ k.char ≠ ']' := by
      cases k with
      | loopStart | loopEnd => cases some
      | right | left | plus | minus | output | input => decide
    exact hcons hbracket.1 hbracket.2 ih
  | @loop inner text body p _ _ ih ih' =>
    have hsplit : '[' :: inner ++ ']' :: text = ('[' :: inner ++ [']']) ++ text := by simp
    have hreverse : ('[' :: inner ++ ']' :: text).reverse =
        text.reverse ++ (']' :: inner.reverse ++ ['[']) := by simp
    rw [hreverse, hsplit]
    exact ⟨(ih.1.bracketed (by decide)).append ih'.1, ih'.2.append (ih.2.bracketed (by decide))⟩

/-! ## Balanced texts -/

/-- A text that closes a number of brackets more than it opens, and at no point more than that. -/
structure Closes (depth : Nat) (text : List Char) : Prop where
  never : ∀ before, before <+: text → before.count ']' ≤ depth + before.count '['
  all : depth + text.count '[' = text.count ']'

theorem closes_zero_iff {text : List Char} : Closes 0 text ↔ Balanced text := by
  simp only [Balanced, List.mem_inits]
  constructor
  · rintro ⟨never, all⟩
    simp only [Nat.zero_add] at never all
    exact ⟨never, all⟩
  · rintro ⟨never, all⟩
    constructor
    · simpa only [Nat.zero_add] using never
    · simpa only [Nat.zero_add] using all

namespace Closes

variable {depth : Nat} {text : List Char}

theorem of_open (h : Closes depth ('[' :: text)) : Closes (depth + 1) text := by
  constructor
  · intro before hbefore
    have := h.never ('[' :: before) (List.cons_prefix_cons.mpr ⟨rfl, hbefore⟩)
    simp at this
    omega
  · have := h.all
    simp at this
    omega

theorem of_close (h : Closes depth (']' :: text)) : ∃ d, depth = d + 1 ∧ Closes d text := by
  have hfirst := h.never [']'] (List.cons_prefix_cons.mpr ⟨rfl, List.nil_prefix⟩)
  simp at hfirst
  refine ⟨depth - 1, by omega, ?_, ?_⟩
  · intro before hbefore
    have := h.never (']' :: before) (List.cons_prefix_cons.mpr ⟨rfl, hbefore⟩)
    simp at this
    omega
  · have := h.all
    simp at this
    omega

theorem of_other {c : Char} (h : Closes depth (c :: text)) (hopen : c ≠ '[') (hclose : c ≠ ']') :
    Closes depth text := by
  constructor
  · intro before hbefore
    have := h.never (c :: before) (List.cons_prefix_cons.mpr ⟨rfl, hbefore⟩)
    rwa [List.count_cons_of_ne hclose, List.count_cons_of_ne hopen] at this
  · have := h.all
    rwa [List.count_cons_of_ne hclose, List.count_cons_of_ne hopen] at this

end Closes

/-- A text begins with one that has a tree, up to the first bracket that is closed in it and not
opened. -/
def Begins (depth : Nat) (text : List Char) : Prop :=
  ∃ inner body, Spells inner body ∧
    ((depth = 0 ∧ text = inner) ∨
      ∃ d rest, depth = d + 1 ∧ text = inner ++ ']' :: rest ∧ Closes d rest)

/-- What may stand in front of every text with a tree may stand in front of the beginning. -/
theorem Begins.append {depth : Nat} {front text : List Char} (h : Begins depth text)
    (hfront : ∀ {inner body}, Spells inner body → ∃ body', Spells (front ++ inner) body') :
    Begins depth (front ++ text) := by
  obtain ⟨inner, body, hinner, hcase⟩ := h
  obtain ⟨body', hbody'⟩ := hfront hinner
  refine ⟨front ++ inner, body', hbody', ?_⟩
  rcases hcase with ⟨hdepth, rfl⟩ | ⟨d, rest, hdepth, rfl, hrest⟩
  · exact Or.inl ⟨hdepth, rfl⟩
  · exact Or.inr ⟨d, rest, hdepth, (List.append_assoc ..).symm, hrest⟩

theorem Closes.begins {depth : Nat} {text : List Char} (h : Closes depth text) :
    Begins depth text := by
  -- A loop takes two beginnings in turn, so the induction is on the length and not on the text.
  generalize hlength : text.length = length
  induction length using Nat.strongRecOn generalizing depth text with
  | ind length ih =>
    subst hlength
    cases text with
    | nil => exact ⟨[], [], .nil, Or.inl ⟨by simpa using h.all, rfl⟩⟩
    | cons c text =>
      have hother : c ≠ '[' → c ≠ ']' → Begins depth text := fun hopen hclose =>
        ih _ (Nat.lt_succ_self _) (h.of_other hopen hclose) rfl
      cases hk : Command.ofChar? c with
      | none =>
        have hbegins : Begins depth text :=
          hother (by rintro rfl; cases hk) (by rintro rfl; cases hk)
        show Begins depth ([c] ++ text)
        exact hbegins.append fun hinner => ⟨_, .comment hk hinner⟩
      | some k =>
        obtain rfl := Command.char_of_ofChar? hk
        cases k with
        | loopEnd =>
          obtain ⟨d, rfl, hd⟩ := h.of_close
          exact ⟨[], [], .nil, Or.inr ⟨d, text, rfl, rfl, hd⟩⟩
        | loopStart =>
          obtain ⟨inner, body, hinner, hcase⟩ := ih _ (Nat.lt_succ_self _) h.of_open rfl
          obtain ⟨hdepth, -⟩ | ⟨d, rest, hdepth, rfl, hrest⟩ := hcase
          · exact absurd hdepth (Nat.succ_ne_zero depth)
          · obtain rfl : depth = d := by omega
            have hbegins : Begins depth rest := by
              refine ih _ ?_ hrest rfl
              simp only [List.length_cons, List.length_append]
              omega
            have hfront : ∀ {after p}, Spells after p →
                ∃ p', Spells (('[' :: inner ++ [']']) ++ after) p' := by
              intro after p hafter
              rw [List.append_assoc]
              exact ⟨_, .loop hinner hafter⟩
            have := hbegins.append hfront
            rwa [List.append_assoc] at this
        | right | left | plus | minus | output | input =>
          show Begins depth ([_] ++ text)
          exact (hother (by decide) (by decide)).append fun hinner => ⟨_, .command rfl hinner⟩

/-- A balanced text has a tree. -/
theorem exists_spells {text : List Char} (h : Balanced text) : ∃ p, Spells text p := by
  obtain ⟨inner, body, hinner, ⟨-, rfl⟩ | ⟨d, _, hd, -⟩⟩ := (closes_zero_iff.mpr h).begins
  · exact ⟨body, hinner⟩
  · exact absurd hd.symm (Nat.succ_ne_zero d)

/-! ## Running a text does what its tree means -/

/-- Running a segment of a text does what a behaviour says, whatever stands around it. -/
def Performs (segment : List Char) (R : Behaviour) : Prop :=
  ∀ (before after : List Char) (c : Config),
    Realizes (Cursor.step (before ++ (segment ++ after))) (fun d e => e = .fault d) R c
      ⟨before.length, c⟩ fun d y => y = ⟨before.length + segment.length, d⟩

namespace Performs

variable {segment segment' : List Char} {R S : Behaviour}

/-- One segment after another. -/
theorem append (h : Performs segment R) (h' : Performs segment' S) :
    Performs (segment ++ segment') (Behaviour.andThen R S) := by
  intro before after c
  rw [List.append_assoc]
  refine (h before (segment' ++ after) c).andThen fun d y _ hy => ?_
  subst hy
  have hrest := h' (before ++ segment) after d
  simp only [List.append_assoc, List.length_append, Nat.add_assoc] at hrest ⊢
  exact hrest

/-- Nothing is done by no text. -/
theorem nil : Performs [] fun c e => e = .done c :=
  fun _ _ _ => .of_done (fun _ => Iff.rfl) (.zero _) rfl

theorem getElem?_before (before after : List Char) (c : Char) :
    (before ++ ([c] ++ after))[before.length]? = some c := by
  simp

/-- A character that has one thing to do. -/
theorem of_next {c : Char} {f : Config → Config}
    (h : ∀ (text : List Char) (x : Cursor), x.obey text c = .next ⟨x.position + 1, f x.config⟩) :
    Performs [c] fun d e => e = .done (f d) := by
  intro before after d
  refine .of_done (fun _ => Iff.rfl) (.one ?_) rfl
  rw [Cursor.step_of_char (getElem?_before before after c), h]
  rfl

/-- A comment changes nothing. -/
theorem comment {c : Char} (h : Command.ofChar? c = none) : Performs [c] fun d e => e = .done d :=
  of_next fun _ _ => Cursor.obey_of_comment h

/-- A step to the left faults at the left end. -/
theorem left : Performs ['<'] (Node.Means 1 (.moveLeft 1)) := by
  intro before after c
  have hstep := Cursor.step_of_char (x := ⟨before.length, c⟩) (getElem?_before before after '<')
  by_cases hzero : c.index = 0
  · have hfault : c.moveLeft 1 = .fault c := if_pos (by omega)
    have hfinal : Cursor.step (before ++ (['<'] ++ after)) ⟨before.length, c⟩ =
        .final (.fault c) := hstep.trans (if_pos hzero)
    refine .of_fault (r := .fault c) (fun e => ?_) ⟨0, _, .zero _, hfinal⟩ rfl
    rw [← hfault]
    rfl
  · have hdone : c.moveLeft 1 = .done (c.goTo (c.index - 1)) := if_neg (by omega)
    refine .of_done (fun e => ?_) (.one (hstep.trans (if_neg hzero))) rfl
    rw [← hdone]
    rfl

/-- A command that is no bracket does what its node means. -/
theorem command {k : Command} {n : Node} (h : k.literal? = some n) :
    Performs [k.char] (n.Means 1) := by
  cases k with
  | loopStart | loopEnd => cases h
  | left =>
    obtain rfl := Option.some.inj h
    exact left
  | right | plus | minus | output | input =>
    obtain rfl := Option.some.inj h
    exact of_next fun _ _ => rfl

/-- A segment in brackets: the bracket at its end leads back to the one in front of it, and that one
leads over it. -/
theorem bracketed (h : Performs segment R) (hforward : Passed '[' ']' segment)
    (hbackward : Passed ']' '[' segment.reverse) :
    Performs ('[' :: segment ++ [']']) (Behaviour.repeated R) := by
  intro before after c
  have hend := hforward.loopEnd?_eq before after
  have hstart := hbackward.loopStart?_eq before after
  generalize htext : before ++ '[' :: (segment ++ ']' :: after) = text at hend hstart
  have hfirst : text[before.length]? = some '[' := by simp [← htext]
  have hlast : text[before.length + 1 + segment.length]? = some ']' := by
    rw [← htext, List.getElem?_append_right (by omega), Nat.add_assoc, Nat.add_sub_cancel_left,
      Nat.add_comm 1, List.getElem?_cons_succ, List.getElem?_append_right (Nat.le_refl _),
      Nat.sub_self]
    rfl
  have hbehind : before.length + ('[' :: segment ++ [']']).length =
      before.length + 1 + segment.length + 1 := by
    simp only [List.length_append, List.length_cons, List.length_nil]
    omega
  -- The cell is tested at both brackets.
  let head (d : Config) (x : Cursor) : Prop :=
    x = ⟨before.length, d⟩ ∨ x = ⟨before.length + 1 + segment.length, d⟩
  have hbody : ∀ d, Realizes (Cursor.step text) (fun d e => e = .fault d) R d
      ⟨before.length + 1, d⟩ fun d y => ∃ k w, Runs (Cursor.step text) k y w ∧ head d w := by
    intro d
    have hinner := h (before ++ ['[']) (']' :: after) d
    rw [List.append_assoc, List.singleton_append, htext, List.length_append] at hinner
    exact hinner.mono fun d y _ hy => ⟨0, y, .zero y, Or.inr hy⟩
  rw [hbehind, List.append_assoc, List.cons_append, List.singleton_append, htext]
  refine .repeated head ?_ ?_ (Or.inl rfl)
  · rintro d x (rfl | rfl) hzero
    · refine ⟨1, _, .one ?_, rfl⟩
      rw [Cursor.step_of_char hfirst, Cursor.obey, if_pos hzero, hend]
      rfl
    · refine ⟨1, _, .one ?_, rfl⟩
      rw [Cursor.step_of_char hlast, Cursor.obey, if_pos hzero]
  · rintro d x (rfl | rfl) hnonzero
    · refine ⟨0, _, .one ?_, hbody d⟩
      rw [Cursor.step_of_char hfirst, Cursor.obey, if_neg hnonzero]
    · refine ⟨0, _, .one ?_, hbody d⟩
      rw [Cursor.step_of_char hlast, Cursor.obey, if_neg hnonzero, hstart]
      rfl

end Performs

/-- Running a text does what its tree means. -/
theorem Spells.performs {text : List Char} {p : List Node} (h : Spells text p) :
    Performs text (Program.Means 1 p) := by
  induction h with
  | nil => exact .nil
  | comment none _ ih =>
    intro before after c
    exact ((Performs.comment none).append ih before after c).congr fun _ =>
      (Behaviour.andThen_done (f := id)).symm
  | command some _ ih => exact (Performs.command some).append ih
  | loop inside _ ih ih' =>
    have hall := (ih.bracketed inside.passed.1 inside.passed.2).append ih'
    rwa [List.append_assoc] at hall

namespace Spells

variable {text : List Char} {p : List Node} {input : List UInt8}

/-- A whole text, from its beginning. -/
theorem realizes (h : Spells text p) (input : List UInt8) :
    Realizes (Cursor.step text) (fun d e => e = .fault d) (Program.Means 1 p)
      (Cursor.start input).config (.start input) fun d y => y = ⟨text.length, d⟩ := by
  have hreal := h.performs [] [] (Cursor.start input).config
  rwa [List.nil_append, List.append_nil, List.length_nil, Nat.zero_add] at hreal

theorem ends_of_means (h : Spells text p) {e : Ending}
    (he : Program.Means 1 p (Cursor.start input).config e) :
    Ends (Cursor.step text) (.start input) e := by
  cases e with
  | done d =>
    obtain ⟨n, y, hy, rfl⟩ := (h.realizes input).done he
    exact ⟨n, _, hy, Cursor.step_of_end (Nat.le_refl _)⟩
  | fault d =>
    obtain ⟨_, hr, rfl⟩ := (h.realizes input).fault he
    exact hr

/-- A text ends as its tree does. -/
theorem ends_iff (h : Spells text p) {e : Ending} :
    Ends (Cursor.step text) (.start input) e ↔
      Program.Means 1 p (Cursor.start input).config e := by
  refine ⟨fun hends => ?_, h.ends_of_means⟩
  by_cases hnone : ∀ e, ¬ Program.Means 1 p (Cursor.start input).config e
  · exact absurd ((h.realizes input).forever hnone) hends.not_forever
  · obtain ⟨e', he'⟩ := not_forall_not.mp hnone
    rwa [hends.unique (h.ends_of_means he')]

/-- A text runs forever exactly if its tree has no ending. -/
theorem forever_iff (h : Spells text p) :
    Forever (Cursor.step text) (.start input) ↔
      ∀ e, ¬ Program.Means 1 p (Cursor.start input).config e :=
  ⟨fun hforever _ he => (h.ends_of_means he).not_forever hforever, (h.realizes input).forever⟩

end Spells

end Brainfuck
