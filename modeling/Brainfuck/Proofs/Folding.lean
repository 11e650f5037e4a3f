import Brainfuck.Proofs.Flattening
import Brainfuck.Proofs.Parsing
import Brainfuck.Proofs.TextMeaning

/-!
# Reading a text keeps what it does

The reader folds a run of equal commands into one node, so its tree is not the one that has a node
for each command.  Both do the same, with one exception: of a run of moves to the left that leaves
the tape, the folded node leaves the place where the run began and the commands leave the first cell.
Apart from that place the meanings are equal, and this is an equality that sequences and loops
respect.

What has been read of a sequence is folded further by what comes next, so the invariant of the reader
is about what has been read followed by what is still to be read.

* `Program.Does`: the meaning of a tree apart from the place of a fault.
* `Spells.reads`: reading a text with a tree, in the middle of any other.
* `Program.exists_flatten`: a tree that is not too large has flat code.
* `Program.ends_iff_yields`: balanced texts do what their flat code does.
-/

namespace Brainfuck

open Behaviour

/-! ## Apart from the place of a fault -/

/-- The ending apart from the place of a fault. -/
def Ending.placeless : Ending → Ending
  | .done c => .done c
  | .fault c => .fault (c.goTo 0)

@[simp] theorem Ending.placeless_eq_done {e : Ending} {d : Config} :
    e.placeless = .done d ↔ e = .done d := by
  cases e <;> simp [placeless]

namespace Behaviour

/-- A behaviour apart from the places of its faults. -/
def placeless (R : Behaviour) : Behaviour := fun c e => ∃ e', R c e' ∧ e'.placeless = e

variable {R : Behaviour} {c d : Config}

theorem placeless_done : placeless R c (.done d) ↔ R c (.done d) := by
  simp [placeless]

theorem placeless_fault : placeless R c (.fault d) ↔ ∃ d', R c (.fault d') ∧ d'.goTo 0 = d := by
  constructor
  · rintro ⟨_ | d', h, he⟩
    · cases he
    · exact ⟨d', h, Ending.fault.inj he⟩
  · rintro ⟨d', h, rfl⟩
    exact ⟨_, h, rfl⟩

theorem placeless_andThen (R S : Behaviour) :
    placeless (andThen R S) = andThen (placeless R) (placeless S) := by
  funext c e
  apply propext
  constructor
  · rintro ⟨_, h, rfl⟩
    cases h with
    | fault first => exact .fault (placeless_fault.mpr ⟨_, first, rfl⟩)
    | pass first second => exact .pass (placeless_done.mpr first) ⟨_, second, rfl⟩
  · intro h
    cases h with
    | fault first =>
      obtain ⟨d', hfirst, rfl⟩ := placeless_fault.mp first
      exact ⟨_, .fault hfirst, rfl⟩
    | pass first second =>
      obtain ⟨e', hsecond, rfl⟩ := second
      exact ⟨e', .pass (placeless_done.mp first) hsecond, rfl⟩

theorem placeless_repeated (R : Behaviour) :
    placeless (repeated R) = repeated (placeless R) := by
  funext c e
  apply propext
  constructor
  · rintro ⟨_, h, rfl⟩
    induction h with
    | stop zero => exact .stop zero
    | fault nonzero pass => exact .fault nonzero (placeless_fault.mpr ⟨_, pass, rfl⟩)
    | pass nonzero pass _ ih => exact .pass nonzero (placeless_done.mpr pass) ih
  · intro h
    induction h with
    | stop zero => exact ⟨_, .stop zero, rfl⟩
    | fault nonzero pass =>
      obtain ⟨d', hpass, rfl⟩ := placeless_fault.mp pass
      exact ⟨_, .fault nonzero hpass, rfl⟩
    | pass nonzero pass _ ih =>
      obtain ⟨e', hrest, rfl⟩ := ih
      exact ⟨e', .pass nonzero (placeless_done.mp pass) hrest, rfl⟩

end Behaviour

/-- What a tree does, apart from the place of a fault. -/
def Program.Does (p : List Node) : Behaviour := placeless (Program.Means 1 p)

namespace Program.Does

/-- Having no ending does not depend on places. -/
theorem none_iff {p : List Node} {c : Config} :
    (∀ e, ¬ Does p c e) ↔ ∀ e, ¬ Program.Means 1 p c e := by
  constructor
  · intro h e he
    exact h e.placeless ⟨e, he, rfl⟩
  · rintro h _ ⟨e, he, rfl⟩
    exact h e he

theorem append (p q : List Node) : Does (p ++ q) = andThen (Does p) (Does q) := by
  rw [Does, Program.means_append, placeless_andThen]
  rfl

/-- A loop does what its body does, over and over. -/
theorem cons_loop (body p : List Node) :
    Does (.loop body :: p) = andThen (repeated (Does body)) (Does p) := by
  rw [Does, Program.Means, placeless_andThen, Node.Means, placeless_repeated]
  rfl

end Program.Does

/-! ## Folding -/

/-- Goes on from an ending; a fault stays. -/
def Ending.goOn (f : Config → Ending) : Ending → Ending
  | .done c => f c
  | .fault c => .fault c

/-- One function after another. -/
theorem Behaviour.andThen_eq (f g : Config → Ending) :
    andThen (fun c e => e = f c) (fun c e => e = g c) = fun c e => e = (f c).goOn g := by
  funext c e
  apply propext
  constructor
  · intro h
    cases h with
    | fault first => rw [← first, Ending.goOn]
    | pass first second => rw [← first, Ending.goOn, second]
  · rintro rfl
    cases hf : f c with
    | done d => exact .pass hf.symm rfl
    | fault d => exact .fault hf.symm

/-- Two nodes in a row do what one does. -/
def Node.Joins (m n k : Node) : Prop := Program.Does [m, n] = Program.Does [k]

/-- Nodes that always end in one way are joined by comparing the endings. -/
theorem Node.Joins.of_eq {m n k : Node} {f g h : Config → Ending}
    (hm : m.Means 1 = fun c e => e = f c) (hn : n.Means 1 = fun c e => e = g c)
    (hk : k.Means 1 = fun c e => e = h c)
    (heq : ∀ c, ((f c).goOn g).placeless = (h c).placeless) : m.Joins n k := by
  have hskip : ∀ e : Ending, e.goOn .done = e := fun e => by cases e <;> rfl
  have hpair : Program.Means 1 [m, n] = fun c e => e = (f c).goOn g := by
    simp only [Program.Means, hm, hn, andThen_eq, hskip]
  have hsingle : Program.Means 1 [k] = fun c e => e = h c := by
    simp only [Program.Means, hk, andThen_eq, hskip]
  rw [Joins, Program.Does, Program.Does, hpair, hsingle]
  funext c e
  simp only [placeless, exists_eq_left, heq]

/-- A run of changes counts on as a byte, also where its count begins again. -/
theorem ofInt_succ_emod (k : Int) : UInt8.ofInt ((k + 1) % 256) = .ofInt k + .ofInt 1 := by
  rw [ofInt_emod, UInt8.ofInt_add]

namespace Node

theorem joins_moveRight {k : Int} (h : 1 ≤ k) :
    Joins (.moveRight k) (.moveRight 1) (.moveRight (k + 1)) := by
  refine .of_eq rfl rfl rfl fun c => ?_
  have htoNat : (k + 1).toNat = k.toNat + 1 := by omega
  rw [htoNat]
  rfl

/-- A run leaves the tape if one move by its length does. -/
theorem joins_moveLeft {k : Int} (h : 1 ≤ k) :
    Joins (.moveLeft k) (.moveLeft 1) (.moveLeft (k + 1)) := by
  refine .of_eq rfl rfl rfl fun c => ?_
  have htoNat : (k + 1).toNat = k.toNat + 1 := by omega
  rw [htoNat]
  by_cases hall : c.index < k.toNat
  · have hfirst : c.moveLeft k.toNat = .fault c := if_pos hall
    have hjoined : c.moveLeft (k.toNat + 1) = .fault c := if_pos (by omega)
    rw [hfirst, hjoined]
    rfl
  · have hfirst : c.moveLeft k.toNat = .done (c.goTo (c.index - k.toNat)) := if_neg hall
    rw [hfirst, Ending.goOn, Config.moveLeft, Config.moveLeft, Config.goTo_index]
    by_cases hone : c.index < k.toNat + 1
    -- Only here do the two faults leave different places: the commands have come to the first cell.
    · rw [if_pos (by omega), if_pos hone]
      rfl
    · rw [if_neg (by omega), if_neg hone, ← Nat.sub_sub]
      rfl

theorem joins_increment (k : Int) :
    Joins (.increment k) (.increment 1) (.increment ((k + 1) % 256)) := by
  refine .of_eq rfl rfl rfl fun c => ?_
  rw [ofInt_succ_emod]
  simp only [Ending.goOn, Config.cell_store, Config.store_store, UInt8.mul_one, UInt8.add_assoc]

theorem joins_decrement (k : Int) :
    Joins (.decrement k) (.decrement 1) (.decrement ((k + 1) % 256)) := by
  refine .of_eq rfl rfl rfl fun c => ?_
  rw [ofInt_succ_emod]
  simp only [Ending.goOn, Config.cell_store, Config.store_store, UInt8.mul_one,
    UInt8.sub_eq_add_neg, UInt8.neg_add, UInt8.add_assoc]

end Node

/-- A node at the end may be joined to the one in front of it. -/
theorem Program.does_of_joins {m n k : Node} (h : m.Joins n k) (done : List Node) :
    Does (k :: done).reverse = Does ((m :: done).reverse ++ [n]) := by
  rw [List.reverse_cons, List.reverse_cons, List.append_assoc, List.singleton_append, Does.append,
    Does.append, h]

/-! ## The size of flat code -/

/-- How much room an amount takes. -/
def amountExtent (amount : Int) : Nat := max 1 amount.natAbs

mutual

/-- A bound for the length of a node's code and for the amounts in it. -/
def Node.extent : Node → Nat
  | .moveRight n | .moveLeft n | .scanRight n | .scanLeft n | .carryRight n | .carryLeft n =>
    amountExtent n
  | .loop body | .scaled body => Program.extent body + 2
  | .increment _ | .decrement _ | .output | .input | .clear | .foreign _ => 1
  | .derived _ base => base.extent

/-- A bound for the length of a program's code and for the amounts in it. -/
def Program.extent : List Node → Nat
  | [] => 0
  | n :: p => n.extent + Program.extent p

end

namespace Program

theorem extent_append (p q : List Node) : extent (p ++ q) = extent p + extent q := by
  induction p with
  | nil => rw [List.nil_append, extent, Nat.zero_add]
  | cons n p ih => rw [List.cons_append, extent, extent, ih, Nat.add_assoc]

theorem extent_reverse (p : List Node) : extent p.reverse = extent p := by
  induction p with
  | nil => rfl
  | cons n p ih =>
    rw [List.reverse_cons, extent_append, ih, extent, extent, extent, Nat.add_zero, Nat.add_comm]

end Program

/-! ## Reading -/

/-- Reading a text of a length, which has a tree, leads from nodes to other nodes, both latest
first. -/
structure Folds (done : List Node) (length : Nat) (p : List Node) (done' : List Node) : Prop where
  movesOn : AllMoveOn done'
  does : Program.Does done'.reverse = Program.Does (done.reverse ++ p)
  extent : Program.extent done' ≤ Program.extent done + length

namespace Folds

variable {done done' done'' p q : List Node} {m n : Nat}

theorem trans (h : Folds done m p done') (h' : Folds done' n q done'') :
    Folds done (m + n) (p ++ q) done'' where
  movesOn := h'.movesOn
  does := by
    rw [h'.does, Program.Does.append, h.does, ← Program.Does.append, List.append_assoc]
  extent := by
    have := h.extent
    have := h'.extent
    omega

/-- What is passed only takes room. -/
theorem skip (h : AllMoveOn done) (n : Nat) : Folds done n [] done where
  movesOn := h
  does := by rw [List.append_nil]
  extent := Nat.le_add_right _ _

/-- A node of its own. -/
theorem push {k : Node} (h : AllMoveOn done) (hk : k.every Node.movesOn = true)
    (hextent : k.extent ≤ n) : Folds done n [k] (k :: done) where
  movesOn := h.cons hk
  does := by rw [List.reverse_cons]
  extent := by
    rw [Program.extent]
    omega

/-- A node that the one in front of it is joined to. -/
theorem join {a b k : Node} (h : AllMoveOn (k :: done)) (hjoins : a.Joins b k)
    (hextent : k.extent ≤ a.extent + 1) : Folds (a :: done) 1 [b] (k :: done) where
  movesOn := h
  does := Program.does_of_joins hjoins done
  extent := by
    rw [Program.extent, Program.extent]
    omega

theorem right (h : AllMoveOn done) : Folds done 1 [.moveRight 1] (foldRight done) := by
  have hall := h.foldRight
  rw [foldRight.eq_def] at hall ⊢
  split at hall
  case h_1 k rest =>
    have hk : 1 ≤ k := of_decide_eq_true h.head
    refine join hall (Node.joins_moveRight hk) ?_
    simp only [Node.extent, amountExtent]
    omega
  case h_2 => exact push h rfl (Nat.le_refl 1)

theorem left (h : AllMoveOn done) : Folds done 1 [.moveLeft 1] (foldLeft done) := by
  have hall := h.foldLeft
  rw [foldLeft.eq_def] at hall ⊢
  split at hall
  case h_1 k rest =>
    have hk : 1 ≤ k := of_decide_eq_true h.head
    refine join hall (Node.joins_moveLeft hk) ?_
    simp only [Node.extent, amountExtent]
    omega
  case h_2 => exact push h rfl (Nat.le_refl 1)

theorem plus (h : AllMoveOn done) : Folds done 1 [.increment 1] (foldPlus done) := by
  have hall := h.foldPlus
  rw [foldPlus.eq_def] at hall ⊢
  split at hall
  case h_1 k rest => exact join hall (Node.joins_increment k) (Nat.le_succ 1)
  case h_2 => exact push h rfl (Nat.le_refl 1)

theorem minus (h : AllMoveOn done) : Folds done 1 [.decrement 1] (foldMinus done) := by
  have hall := h.foldMinus
  rw [foldMinus.eq_def] at hall ⊢
  split at hall
  case h_1 k rest => exact join hall (Node.joins_decrement k) (Nat.le_succ 1)
  case h_2 => exact push h rfl (Nat.le_refl 1)

/-- A loop whose body has been read from nothing. -/
theorem loop {body inner : List Node} (h : AllMoveOn done) (hbody : Folds [] m body inner) :
    Folds done (m + 2) [.loop body] (.loop inner.reverse :: done) where
  movesOn := by
    refine h.cons ?_
    rw [Node.every, Program.every_iff.mpr hbody.movesOn.reverse]
    rfl
  does := by
    rw [List.reverse_cons, Program.Does.append, Program.Does.append, Program.Does.cons_loop,
      Program.Does.cons_loop, hbody.does]
    rfl
  extent := by
    have := hbody.extent
    simp only [Program.extent, Node.extent, Program.extent_reverse] at this ⊢
    omega

end Folds

/-- Reading a command that is no bracket. -/
theorem Reading.exists_step {k : Command} {n : Node} (h : k.literal? = some n) (r : Reading)
    (hr : AllMoveOn r.done) (position : Position) :
    ∃ done, r.step ⟨k, position⟩ = .ok ⟨r.loops, done⟩ ∧ Folds r.done 1 [n] done := by
  cases k with
  | right => cases h; exact ⟨_, rfl, .right hr⟩
  | left => cases h; exact ⟨_, rfl, .left hr⟩
  | plus => cases h; exact ⟨_, rfl, .plus hr⟩
  | minus => cases h; exact ⟨_, rfl, .minus hr⟩
  | output | input => cases h; exact ⟨_, rfl, .push hr rfl (Nat.le_refl 1)⟩
  | loopStart | loopEnd => cases h

/-- Tokens of a text and of the one behind it. -/
theorem Token.scanFrom_append (position : Position) (text text' : List Char) :
    scanFrom position (text ++ text') =
      scanFrom position text ++ scanFrom (text.foldl Position.after position) text' := by
  induction text generalizing position with
  | nil => rfl
  | cons c text ih =>
    rw [List.cons_append, scanFrom, scanFrom, List.foldl_cons, ih]
    cases Command.ofChar? c <;> rfl

/-- Reading a text with a tree adds the tree, folded, to what has been read. -/
theorem Spells.reads {text : List Char} {p : List Node} (h : Spells text p) (position : Position)
    (r : Reading) (hr : AllMoveOn r.done) :
    ∃ done, (Token.scanFrom position text).foldlM Reading.step r = .ok ⟨r.loops, done⟩ ∧
      Folds r.done text.length p done := by
  induction h generalizing position r with
  | nil => exact ⟨r.done, rfl, .skip hr 0⟩
  | @comment c text p none _ ih =>
    obtain ⟨done, hdone, hfolds⟩ := ih (position.after c) r hr
    rw [Token.scanFrom, none, List.length_cons, Nat.add_comm]
    exact ⟨done, hdone, (Folds.skip hr 1).trans hfolds⟩
  | @command k n text p some _ ih =>
    obtain ⟨done, hstep, hfirst⟩ := Reading.exists_step some r hr position
    obtain ⟨done', hdone, hfolds⟩ := ih (position.after k.char) ⟨r.loops, done⟩ hfirst.movesOn
    refine ⟨done', ?_, ?_⟩
    · rw [Token.scanFrom, Command.ofChar?_char, List.foldlM_cons, hstep]
      exact hdone
    · rw [List.length_cons, Nat.add_comm]
      exact hfirst.trans hfolds
  | @loop inner text body p _ _ ih ih' =>
    -- The body is read from nothing, with what stands in front of the loop put aside.
    obtain ⟨done, hdone, hbody⟩ := ih (position.after '[') ⟨⟨r.done, position⟩ :: r.loops, []⟩ .nil
    have hloop := Folds.loop hr hbody
    let close := inner.foldl Position.after (position.after '[')
    obtain ⟨done', hdone', hfolds⟩ := ih' (close.after ']')
      ⟨r.loops, .loop done.reverse :: r.done⟩ hloop.movesOn
    refine ⟨done', ?_, ?_⟩
    · have hscan : Token.scanFrom position ('[' :: inner ++ ']' :: text) =
          ⟨.loopStart, position⟩ :: (Token.scanFrom (position.after '[') inner ++
            ⟨.loopEnd, close⟩ :: Token.scanFrom (close.after ']') text) := by
        show _ :: Token.scanFrom (position.after '[') (inner ++ ']' :: text) = _
        rw [Token.scanFrom_append]
        rfl
      rw [hscan, List.foldlM_cons]
      show List.foldlM Reading.step ⟨⟨r.done, position⟩ :: r.loops, []⟩ _ = _
      rw [List.foldlM_append, hdone]
      exact hdone'
    · have hlength : ('[' :: inner ++ ']' :: text).length = inner.length + 2 + text.length := by
        simp only [List.length_append, List.length_cons]
        omega
      rw [hlength]
      exact hloop.trans hfolds

/-- A balanced text is read, and its tree does what the tree does that has a node for each
command. -/
theorem Program.exists_parse {source : String} {p : List Node} (h : Spells source.toList p) :
    ∃ q, Program.parse source = .ok q ∧ Program.every Node.movesOn q = true ∧
      Program.Does q = Program.Does p ∧ Program.extent q ≤ source.length := by
  obtain ⟨done, hdone, hfolds⟩ := h.reads Position.start Reading.start .nil
  refine ⟨done.reverse, ?_, Program.every_iff.mpr hfolds.movesOn.reverse, hfolds.does, ?_⟩
  · rw [Program.parse, Program.ofTokens, Token.scan, hdone]
    rfl
  · have hextent := hfolds.extent
    rw [Program.extent_reverse, ← String.length_toList]
    rwa [Reading.start, Program.extent, Nat.zero_add] at hextent

/-! ## Code that fits -/

theorem Instr.fits_of_natAbs_lt {i : Instr} (h : i.argument.natAbs < 2 ^ 63) : i.fits = true := by
  rw [fits_iff]
  omega

/-- An argument that is a natural number only has to be small. -/
theorem Instr.fits_of_lt {i : Instr} {a : Nat} (harg : i.argument = a) (h : a < 2 ^ 63) :
    i.fits = true := by
  refine fits_of_natAbs_lt ?_
  rwa [harg, Int.natAbs_natCast]

/-- The arguments of instructions are at most so great. -/
def AllWithin (bound : Nat) (block : List Instr) : Prop := ∀ i ∈ block, i.argument.natAbs ≤ bound

namespace AllWithin

variable {bound : Nat} {block block' : List Instr} {i : Instr}

theorem single (h : i.argument.natAbs ≤ bound) : AllWithin bound [i] :=
  fun _ hj => List.mem_singleton.mp hj ▸ h

theorem append (h : AllWithin bound block) (h' : AllWithin bound block') :
    AllWithin bound (block ++ block') :=
  List.forall_mem_append.mpr ⟨h, h'⟩

end AllWithin

mutual

/-- A node has code that is no longer than its extent, and the arguments in it are no greater than its
end or than a byte. -/
theorem Node.exists_code {bound : Nat} (hbyte : 255 ≤ bound) (address depth : Nat)
    (slot : Option Nat) :
    (n : Node) → n.every Node.movesOn = true → address + n.extent ≤ bound →
      ∃ block, n.code address depth slot = .ok block ∧ block.length ≤ n.extent ∧
        AllWithin bound block
  | .loop body, hok, hle => by
    rw [Node.every, Bool.and_eq_true] at hok
    rw [Node.extent] at hle ⊢
    obtain ⟨inner, hinner, hlength, hwithin⟩ :=
      Program.exists_code hbyte (address + 1) depth none body hok.2 (by omega)
    have hstart : (Instr.loopStart (address + inner.length + 2)).argument.natAbs ≤ bound := by
      rw [Instr.argument, Int.natAbs_natCast]
      omega
    have hend : (Instr.loopEnd address).argument.natAbs ≤ bound := by
      rw [Instr.argument, Int.natAbs_natCast]
      omega
    refine ⟨.loopStart (address + inner.length + 2) :: inner ++ [.loopEnd address], ?_, ?_, ?_⟩
    · rw [Node.code, hinner]
      rfl
    · simp only [List.length_append, List.length_cons, List.length_nil]
      omega
    · exact (AllWithin.single hstart).append (hwithin.append (.single hend))
  | .scaled body, hok, hle => by
    rw [Node.every, Bool.and_eq_true] at hok
    rw [Node.extent] at hle ⊢
    obtain ⟨inner, hinner, hlength, hwithin⟩ :=
      Program.exists_code hbyte (address + 1) (depth + 1) (some depth) body hok.2 (by omega)
    have hscale : (Instr.scale (address + inner.length + 1) depth).argument.natAbs ≤ bound := by
      rw [Instr.argument, Int.natAbs_natCast]
      omega
    refine ⟨.scale (address + inner.length + 1) depth :: inner ++ [.unscale], ?_, ?_, ?_⟩
    · rw [Node.code, hinner]
      rfl
    · simp only [List.length_append, List.length_cons, List.length_nil]
      omega
    · exact (AllWithin.single hscale).append (hwithin.append (.single (Nat.zero_le _)))
  | .moveRight n, _, hle | .moveLeft n, _, hle | .scanRight n, _, hle | .scanLeft n, _, hle
  | .carryRight n, _, hle | .carryLeft n, _, hle => by
    rw [Node.extent, amountExtent] at hle
    refine ⟨_, rfl, Nat.le_max_left _ _, .single ?_⟩
    rw [Instr.argument]
    omega
  | .increment n, _, _ | .decrement n, _, _ => by
    refine ⟨_, rfl, Nat.le_refl 1, .single ?_⟩
    rw [Instr.argument, Int.natAbs_natCast]
    exact Nat.le_trans (Nat.le_of_lt_succ (UInt8.toNat_lt _)) hbyte
  | .output, _, _ | .input, _, _ | .clear, _, _ =>
    ⟨_, rfl, Nat.le_refl 1, .single (Nat.zero_le _)⟩
  | .foreign _, hok, _ | .derived _ _, hok, _ => by cases hok

/-- A sequence has code that is no longer than its extent, and the arguments in it are no greater than
its end or than a byte. -/
theorem Program.exists_code {bound : Nat} (hbyte : 255 ≤ bound) (address depth : Nat)
    (slot : Option Nat) :
    (p : List Node) → Program.every Node.movesOn p = true → address + Program.extent p ≤ bound →
      ∃ block, Program.code address depth slot p = .ok block ∧
        block.length ≤ Program.extent p ∧ AllWithin bound block
  | [], _, _ => ⟨[], rfl, Nat.le_refl 0, fun i hi => by cases hi⟩
  | n :: p, hok, hle => by
    rw [Program.every, Bool.and_eq_true] at hok
    rw [Program.extent] at hle ⊢
    obtain ⟨first, hfirst, hlength, hwithin⟩ :=
      Node.exists_code hbyte address depth slot n hok.1 (by omega)
    obtain ⟨rest, hrest, hlength', hwithin'⟩ :=
      Program.exists_code hbyte (address + first.length) depth slot p hok.2 (by omega)
    refine ⟨first ++ rest, ?_, ?_, hwithin.append hwithin'⟩
    · rw [Program.code, hfirst]
      show (Program.code (address + first.length) depth slot p >>= fun rest =>
        pure (first ++ rest)) = _
      rw [hrest]
      rfl
    · rw [List.length_append]
      omega

end

/-- A tree that is not too large has flat code. -/
theorem Program.exists_flatten {q : Program} (hok : Program.every Node.movesOn q = true)
    (hextent : Program.extent q < 2 ^ 63) : ∃ p, q.flatten = .ok p := by
  obtain ⟨block, hblock, -, hwithin⟩ :=
    Program.exists_code (show 255 ≤ 2 ^ 63 - 1 by decide) 0 0 none q hok (by omega)
  refine ⟨⟨block.toArray, Program.scaleDepth q⟩, ?_⟩
  rw [Program.flatten, hblock]
  refine if_pos (List.all_eq_true.mpr fun i hi => Instr.fits_of_natAbs_lt ?_)
  have := hwithin i hi
  omega

/-- A tree that is small enough keeps to words. -/
theorem Program.keepsToWords_of_extent_le {q : Program} {p : FlatCode} (hp : q.flatten = .ok p)
    (hok : Program.every Node.movesOn q = true) (hextent : Program.extent q ≤ 2 ^ 62) (tape : Tape)
    (index : Nat) (input : List UInt8) : p.KeepsToWords tape index input := by
  have hdistances := Program.hasSoundDistances_of_flatten hp
    (Program.every_mono Node.hasSoundDistance_of_movesOn q hok)
  refine FlatCode.keepsToWords_of_argument_le hdistances (fun i hi => ?_) tape index input
  obtain ⟨block, hblock, -, hwithin⟩ :=
    Program.exists_code (show 255 ≤ 2 ^ 62 by decide) 0 0 none q hok (by omega)
  obtain ⟨block', hblock', rfl⟩ := Program.code_of_flatten hp
  obtain rfl := Except.ok.inj (hblock.symm.trans hblock')
  have := hwithin i (List.mem_toArray.mp hi)
  omega

/-! ## Texts and their flat code -/

/-- A text begins on the cells of the initial tape. -/
theorem Cursor.config_start (input : List UInt8) :
    (Cursor.start input).config = .start .initial 0 input := by
  have hcells : (Tape.initial.get : Nat → UInt8) = fun _ => 0 := funext Tape.get_initial
  rw [Config.start, hcells]
  rfl

/-- The executions of flat code that keep to words do what the tree does. -/
theorem Program.does_iff_yields {q : Program} {p : FlatCode} (hp : q.flatten = .ok p)
    (hok : Program.every Node.hasSoundDistance q = true) {tape : Tape} {index : Nat}
    {input : List UInt8} (hwords : p.KeepsToWords tape index input) {e : Ending} :
    Program.Does q (.start tape index input) e ↔
      ∃ r, p.Yields tape index input r ∧ r.ending?.map Ending.placeless = some e := by
  constructor
  · rintro ⟨e', he', rfl⟩
    obtain ⟨r, hr, hending⟩ := Program.exists_yields_of_means hp hok hwords he'
    exact ⟨r, hr, congrArg (Option.map Ending.placeless) hending⟩
  · rintro ⟨r, hr, hshows⟩
    obtain ⟨e', hending, he'⟩ := Program.means_of_yields hp hok hwords hr
    rw [hending, Option.map_some, Option.some.injEq] at hshows
    exact ⟨e', he', hshows⟩

/-- **Reading keeps what a text does.**  A text with balanced brackets is read, and a text of less
than `2 ^ 63` characters has flat code.  The execution of that code keeps to words if the text has at
most `2 ^ 62` characters.  If it does, it stops exactly if the text, run character by character, does:
with the same exit status, output, input left and cells, and at the same index unless there is a
fault; it never stops exactly if the text runs forever; and it does not go astray. -/
theorem Program.ends_iff_yields {source : String} (h : Balanced source.toList) :
    ∃ q, Program.parse source = .ok q ∧ (source.length < 2 ^ 63 → ∃ p, q.flatten = .ok p) ∧
      ∀ p, q.flatten = .ok p → ∀ input : List UInt8,
        (source.length ≤ 2 ^ 62 → p.KeepsToWords .initial 0 input) ∧
        (p.KeepsToWords .initial 0 input →
          (∀ e, (∃ e', Ends (Cursor.step source.toList) (.start input) e' ∧ e'.placeless = e) ↔
            ∃ r, p.Yields .initial 0 input r ∧ r.ending?.map Ending.placeless = some e) ∧
          (Forever (Cursor.step source.toList) (.start input) ↔
            p.NeverStops .initial 0 input) ∧
          ∀ o, p.ComesTo .unlimited .initial 0 input o → ∃ r, o = .finished r) := by
  obtain ⟨literal, hspells⟩ := exists_spells h
  obtain ⟨q, hparse, hok, hdoes, hextent⟩ := Program.exists_parse hspells
  have hscans := Program.every_mono Node.hasSoundDistance_of_movesOn q hok
  refine ⟨q, hparse, fun hlength => Program.exists_flatten hok (Nat.lt_of_le_of_lt hextent hlength),
    fun p hp input => ⟨fun hlength => ?_, fun hwords => ⟨fun e => ?_, ?_, fun o ho => ?_⟩⟩⟩
  · exact Program.keepsToWords_of_extent_le hp hok (Nat.le_trans hextent hlength) .initial 0 input
  -- Both are compared with the tree that has a node for each command.
  · refine Iff.trans ?_ (Program.does_iff_yields hp hscans hwords)
    rw [hdoes]
    simp only [hspells.ends_iff, Cursor.config_start]
    rfl
  · refine Iff.trans ?_ (Program.neverStops_iff hp hscans hwords).symm
    rw [hspells.forever_iff, Cursor.config_start, ← Program.Does.none_iff, ← Program.Does.none_iff,
      hdoes]
  · obtain ⟨r, hr, -⟩ :=
      hwords.exists_result (Program.hasSoundDistances_of_flatten hp hscans) ho
    exact ⟨r, hr⟩

/-- A run of three moves to the left that leaves the tape, behind a loop and across a comment. -/
theorem Program.ends_iff_yields_leaving :
    Balanced "++[->+++<] < two\n<<.".toList ∧
      ∃ p, Program.flatten [.increment 2,
          .loop [.decrement 1, .moveRight 1, .increment 3, .moveLeft 1], .moveLeft 3, .output] =
            .ok p ∧
        (∀ e, (∃ e', Ends (Cursor.step "++[->+++<] < two\n<<.".toList) (.start []) e' ∧
            e'.placeless = e) ↔
          ∃ r, p.Yields .initial 0 [] r ∧ r.ending?.map Ending.placeless = some e) ∧
        (Forever (Cursor.step "++[->+++<] < two\n<<.".toList) (.start []) ↔
          p.NeverStops .initial 0 []) := by
  have hbalanced : Balanced "++[->+++<] < two\n<<.".toList := by decide
  obtain ⟨q, hparse, hflatten, hall⟩ := Program.ends_iff_yields hbalanced
  obtain ⟨p, hp⟩ := hflatten (by decide)
  have hq : Program.parse "++[->+++<] < two\n<<." = .ok [.increment 2,
      .loop [.decrement 1, .moveRight 1, .increment 3, .moveLeft 1], .moveLeft 3, .output] := rfl
  obtain rfl := Except.ok.inj (hparse.symm.trans hq)
  obtain ⟨hwords, hsame⟩ := hall p hp []
  obtain ⟨hends, hforever, -⟩ := hsame (hwords (by decide))
  exact ⟨hbalanced, p, hp, hends, hforever⟩

end Brainfuck
