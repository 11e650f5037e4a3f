import Brainfuck.Node
import Mathlib.Algebra.Group.Int.Defs
import Mathlib.Algebra.Group.Nat.Defs
import Mathlib.Logic.Function.Basic

/-!
# The meaning of trees

What a tree does, by recursion over the tree.  There are no addresses, no scale registers and no
growth here: the tape has no right end, and the scale of a sequence is handed down to the nodes that
stand directly in it.

A behaviour relates the configuration at the start to the ending.  It is a relation and no function
because a tree need not end; not ending is having no ending at all.  Three combinators carry the
control flow, `Behaviour.andThen` for sequences, `Behaviour.repeated` for loops and
`Behaviour.unlessZero` for scaled bodies, so what is to be said about all trees is said once about
each of them.

A scan is a loop around a move.  Only what a scan to the left leaves when it faults is its own: it
leaves the place where it began and not the place that it got to.

* `Config`, `Ending`: what a program works on, and how it ends.
* `Node.Means`, `Program.Means`: the meaning of a node and of a sequence with a given scale.
* `Program.means_deterministic`: there is at most one ending.
* `Program.every`: a test that every node of a tree passes.
-/

namespace Brainfuck

/-! ## Configurations -/

/-- What a program works on. -/
structure Config where
  /-- The cells of a tape without right end. -/
  cells : Nat → UInt8
  index : Nat
  /-- The input that has not been read. -/
  unread : List UInt8
  /-- The output so far. -/
  written : Array UInt8

/-- How a program ends. -/
inductive Ending where
  | done (c : Config)
  /-- The pointer would have left the tape; this is what was there at that moment. -/
  | fault (c : Config)

namespace Config

/-- The current cell. -/
def cell (c : Config) : UInt8 := c.cells c.index

/-- Writes the current cell. -/
def store (c : Config) (v : UInt8) : Config :=
  { c with cells := Function.update c.cells c.index v }

/-- Writing what is there changes nothing. -/
theorem store_cell {c : Config} {v : UInt8} (h : c.cell = v) : c.store v = c := by
  rw [store, ← h, cell, Function.update_eq_self]

@[simp] theorem cell_store (c : Config) (v : UInt8) : (c.store v).cell = v :=
  Function.update_self ..

@[simp] theorem store_store (c : Config) (v w : UInt8) : (c.store v).store w = c.store w := by
  rw [store, store, Function.update_idem]
  rfl

/-- What was in a cell does not matter once it is written. -/
theorem store_congr {c d : Config} (v : UInt8) (hindex : c.index = d.index)
    (hunread : c.unread = d.unread) (hwritten : c.written = d.written)
    (hcells : ∀ j, j ≠ c.index → c.cells j = d.cells j) : c.store v = d.store v := by
  obtain ⟨cells, index, unread, written⟩ := c
  obtain ⟨cells', index', unread', written'⟩ := d
  obtain rfl : index = index' := hindex
  obtain rfl : unread = unread' := hunread
  obtain rfl : written = written' := hwritten
  simp only [store, Config.mk.injEq, and_true]
  funext j
  rw [Function.update_apply, Function.update_apply]
  by_cases hj : j = index
  · rw [if_pos hj, if_pos hj]
  · rw [if_neg hj, if_neg hj]
    exact hcells j hj

/-- Goes to an index. -/
def goTo (c : Config) (index : Nat) : Config := { c with index := index }

@[simp] theorem goTo_index (c : Config) (index : Nat) : (c.goTo index).index = index := rfl

/-- Writes the current cell to the output. -/
def write (c : Config) : Config := { c with written := c.written.push c.cell }

/-- Reads a byte into the current cell, zero at the end of the input. -/
def read (c : Config) : Config :=
  { c.store (c.unread.headD 0) with unread := c.unread.tail }

/-- Adds the current cell to another one, then clears it. -/
def carryTo (c : Config) (target : Nat) : Config :=
  let sum := c.cells target + c.cell
  { c with cells := Function.update (Function.update c.cells target sum) c.index 0 }

/-- Moves to the left. -/
def moveLeft (c : Config) (amount : Nat) : Ending :=
  if c.index < amount then .fault c else .done (c.goTo (c.index - amount))

/-- Carries the current cell to the left; a zero cell stays where it is. -/
def carryLeft (c : Config) (distance : Nat) : Ending :=
  if c.cell = 0 then .done c
  else if c.index < distance then .fault c
  else .done (c.carryTo (c.index - distance))

end Config

/-! ## Behaviours -/

/-- Which endings a configuration can lead to. -/
abbrev Behaviour := Config → Ending → Prop

namespace Behaviour

/-- One behaviour after another; a fault ends both. -/
inductive andThen (R S : Behaviour) : Config → Ending → Prop where
  | fault {c d : Config} (first : R c (.fault d)) : andThen R S c (.fault d)
  | pass {c d : Config} {e : Ending} (first : R c (.done d)) (second : S d e) : andThen R S c e

/-- A behaviour over and over, as long as the current cell is not zero; the cell is tested before
each pass. -/
inductive repeated (R : Behaviour) : Config → Ending → Prop where
  | stop {c : Config} (zero : c.cell = 0) : repeated R c (.done c)
  | fault {c d : Config} (nonzero : c.cell ≠ 0) (pass : R c (.fault d)) : repeated R c (.fault d)
  | pass {c d : Config} {e : Ending} (nonzero : c.cell ≠ 0) (pass : R c (.done d))
      (rest : repeated R d e) : repeated R c e

/-- A behaviour that is chosen by the current cell, or nothing if that is zero. -/
def unlessZero (R : UInt8 → Behaviour) : Behaviour := fun c e =>
  if c.cell = 0 then e = .done c else R c.cell c e

theorem unlessZero_of_zero {R : UInt8 → Behaviour} {c : Config} (h : c.cell = 0) (e : Ending) :
    unlessZero R c e ↔ e = .done c := by
  rw [unlessZero, if_pos h]

theorem unlessZero_of_ne_zero {R : UInt8 → Behaviour} {c : Config} (h : c.cell ≠ 0) (e : Ending) :
    unlessZero R c e ↔ R c.cell c e := by
  rw [unlessZero, if_neg h]

/-- A behaviour of which a fault leaves nothing behind. -/
def orNothing (R : Behaviour) : Behaviour := fun c e =>
  (∃ d, R c (.done d) ∧ e = .done d) ∨ ∃ d, R c (.fault d) ∧ e = .fault c

/-- What comes after something that always ends normally. -/
theorem andThen_done {f : Config → Config} {S : Behaviour} {c : Config} {e : Ending} :
    andThen (fun c e => e = .done (f c)) S c e ↔ S (f c) e := by
  constructor
  · intro h
    cases h with
    | fault first => cases first
    | pass first second =>
      obtain rfl := Ending.done.inj first
      exact second
  · intro h
    exact .pass rfl h

theorem andThen_assoc (R S T : Behaviour) :
    andThen (andThen R S) T = andThen R (andThen S T) := by
  funext c e
  apply propext
  constructor
  · intro h
    cases h with
    | fault first =>
      cases first with
      | fault first => exact .fault first
      | pass first second => exact .pass first (.fault second)
    | pass first third =>
      cases first with
      | pass first second => exact .pass first (.pass second third)
  · intro h
    cases h with
    | fault first => exact .fault (.fault first)
    | pass first rest =>
      cases rest with
      | fault second => exact .fault (.pass first second)
      | pass second third => exact .pass (.pass first second) third

/-- There is at most one ending. -/
def Deterministic (R : Behaviour) : Prop :=
  ∀ ⦃c : Config⦄ ⦃e e' : Ending⦄, R c e → R c e' → e = e'

theorem Deterministic.andThen {R S : Behaviour} (hR : Deterministic R) (hS : Deterministic S) :
    Deterministic (andThen R S) := by
  intro c e e' h h'
  cases h with
  | fault first =>
    cases h' with
    | fault first' => exact hR first first'
    | pass first' second' => exact absurd (hR first first') (by simp)
  | pass first second =>
    cases h' with
    | fault first' => exact absurd (hR first first') (by simp)
    | pass first' second' =>
      obtain rfl := Ending.done.inj (hR first first')
      exact hS second second'

theorem Deterministic.repeated {R : Behaviour} (hR : Deterministic R) :
    Deterministic (repeated R) := by
  intro c e e' h
  induction h generalizing e' with
  | stop zero =>
    intro h'
    cases h' with
    | stop _ => rfl
    | fault nonzero _ => exact absurd zero nonzero
    | pass nonzero _ _ => exact absurd zero nonzero
  | fault nonzero pass =>
    intro h'
    cases h' with
    | stop zero => exact absurd zero nonzero
    | fault _ pass' => exact hR pass pass'
    | pass _ pass' _ => exact absurd (hR pass pass') (by simp)
  | pass nonzero pass _ ih =>
    intro h'
    cases h' with
    | stop zero => exact absurd zero nonzero
    | fault _ pass' => exact absurd (hR pass pass') (by simp)
    | pass _ pass' rest' =>
      obtain rfl := Ending.done.inj (hR pass pass')
      exact ih rest'

theorem Deterministic.unlessZero {R : UInt8 → Behaviour} (hR : ∀ value, Deterministic (R value)) :
    Deterministic (unlessZero R) := by
  intro c e e' h h'
  by_cases hzero : c.cell = 0
  · rw [unlessZero_of_zero hzero] at h h'
    exact h.trans h'.symm
  · rw [unlessZero_of_ne_zero hzero] at h h'
    exact hR c.cell h h'

theorem Deterministic.orNothing {R : Behaviour} (hR : Deterministic R) :
    Deterministic (orNothing R) := by
  rintro c e e' (⟨d, h, rfl⟩ | ⟨d, h, rfl⟩) (⟨d', h', rfl⟩ | ⟨d', h', rfl⟩)
  · rw [Ending.done.inj (hR h h')]
  · exact absurd (hR h h') (by simp)
  · exact absurd (hR h h') (by simp)
  · rfl

end Behaviour

open Behaviour

/-! ## Trees -/

/-- A byte depends on its integer modulo 256. -/
theorem ofInt_emod (n : Int) : UInt8.ofInt (n % 256) = .ofInt n := by
  simp [UInt8.ofInt]

/-- What a scan does, given what one of its steps does. -/
def scanning (step : Config → Ending) : Behaviour :=
  orNothing (repeated fun c e => e = step c)

mutual

/-- The meaning of a node in a sequence with the given scale.  A change of the cell is multiplied by
the scale; the body of a loop has scale one; a scaled body has the current cell for its scale, is
left out if that is zero, and the cell that the pointer is on afterwards is cleared. -/
def Node.Means (scale : UInt8) : Node → Config → Ending → Prop
  | .moveRight n => fun c e => e = .done (c.goTo (c.index + n.toNat))
  | .moveLeft n => fun c e => e = c.moveLeft n.toNat
  | .increment n => fun c e => e = .done (c.store (c.cell + .ofInt n * scale))
  | .decrement n => fun c e => e = .done (c.store (c.cell - .ofInt n * scale))
  | .output => fun c e => e = .done c.write
  | .input => fun c e => e = .done c.read
  | .loop body => repeated (Program.Means 1 body)
  | .scanRight n => scanning fun c => .done (c.goTo (c.index + n.toNat))
  | .scanLeft n => scanning fun c => c.moveLeft n.toNat
  | .clear => fun c e => e = .done (c.store 0)
  | .scaled body =>
    andThen (unlessZero fun value => Program.Means value body) (fun c e => e = .done (c.store 0))
  | .carryRight n => fun c e => e = .done (c.carryTo (c.index + n.toNat))
  | .carryLeft n => fun c e => e = c.carryLeft n.toNat
  | .foreign _ => fun _ _ => False
  | .derived _ base => base.Means scale

/-- The meaning of a sequence with the given scale. -/
def Program.Means (scale : UInt8) : List Node → Config → Ending → Prop
  | [] => fun c e => e = .done c
  | n :: p => andThen (n.Means scale) (Program.Means scale p)

end

/-- One sequence after another. -/
theorem Program.means_append (scale : UInt8) (p q : List Node) :
    Program.Means scale (p ++ q) = andThen (Program.Means scale p) (Program.Means scale q) := by
  induction p with
  | nil =>
    funext c e
    exact propext (andThen_done (f := id)).symm
  | cons n p ih => rw [List.cons_append, Program.Means, Program.Means, ih, andThen_assoc]

mutual

theorem Node.means_deterministic (scale : UInt8) : (n : Node) → Deterministic (n.Means scale)
  | .loop body => (Program.means_deterministic 1 body).repeated
  | .scaled body =>
    .andThen (.unlessZero fun value => Program.means_deterministic value body)
      fun _ _ _ h h' => h.trans h'.symm
  | .scanRight _ | .scanLeft _ =>
    Deterministic.orNothing (Deterministic.repeated fun _ _ _ h h' => h.trans h'.symm)
  | .foreign _ => fun _ _ _ h => h.elim
  | .derived _ base => Node.means_deterministic scale base
  | .moveRight _ | .moveLeft _ | .increment _ | .decrement _ | .output | .input | .clear
  | .carryRight _ | .carryLeft _ => fun _ _ _ h h' => h.trans h'.symm

/-- A sequence has at most one ending. -/
theorem Program.means_deterministic (scale : UInt8) :
    (p : List Node) → Deterministic (Program.Means scale p)
  | [] => fun _ _ _ h h' => h.trans h'.symm
  | n :: p => (Node.means_deterministic scale n).andThen (Program.means_deterministic scale p)

end

/-! ## Tests on every node -/

mutual

/-- Whether a node and all nodes in it pass a test. -/
def Node.every (ok : Node → Bool) : Node → Bool
  | .loop body => ok (.loop body) && Program.every ok body
  | .scaled body => ok (.scaled body) && Program.every ok body
  | .derived name base => ok (.derived name base) && base.every ok
  | n => ok n

/-- Whether all nodes of a tree pass a test. -/
def Program.every (ok : Node → Bool) : List Node → Bool
  | [] => true
  | n :: p => n.every ok && Program.every ok p

end

/-- A tree passes a test if each of its nodes does. -/
theorem Program.every_iff {ok : Node → Bool} {p : List Node} :
    Program.every ok p = true ↔ ∀ n ∈ p, n.every ok = true := by
  induction p with
  | nil => simp [Program.every]
  | cons n p ih => rw [Program.every, Bool.and_eq_true, List.forall_mem_cons, ih]

mutual

theorem Node.every_mono {ok ok' : Node → Bool} (himp : ∀ n, ok n = true → ok' n = true) :
    (n : Node) → n.every ok = true → n.every ok' = true
  | .loop body, h | .scaled body, h => by
    rw [Node.every, Bool.and_eq_true] at h ⊢
    exact ⟨himp _ h.1, Program.every_mono himp body h.2⟩
  | .derived _ base, h => by
    rw [Node.every, Bool.and_eq_true] at h ⊢
    exact ⟨himp _ h.1, Node.every_mono himp base h.2⟩
  | .moveRight _, h | .moveLeft _, h | .increment _, h | .decrement _, h | .output, h | .input, h
  | .scanRight _, h | .scanLeft _, h | .clear, h | .carryRight _, h | .carryLeft _, h
  | .foreign _, h => himp _ h

/-- Nodes that pass a test pass every weaker one. -/
theorem Program.every_mono {ok ok' : Node → Bool} (himp : ∀ n, ok n = true → ok' n = true) :
    (p : List Node) → Program.every ok p = true → Program.every ok' p = true
  | [], _ => rfl
  | n :: p, h => by
    rw [Program.every, Bool.and_eq_true] at h ⊢
    exact ⟨Node.every_mono himp n h.1, Program.every_mono himp p h.2⟩

end

/-- A node of the very class of an instruction is that instruction. -/
theorem Node.plain_of_isInstruction {n : Node} (h : n.isInstruction = true) : n.plain = n := by
  cases n with
  | derived _ _ => cases h
  | _ => rfl

theorem Node.isInstruction_of_every {n : Node} (h : n.every Node.isInstruction = true) :
    n.isInstruction = true := by
  cases n with
  | loop _ | scaled _ => rfl
  | derived _ _ => cases h
  | _ => exact h

/-- A tree of instructions is looked up as it is. -/
theorem Program.map_plain {p : List Node} (h : Program.every Node.isInstruction p = true) :
    p.map Node.plain = p :=
  (List.map_congr_left fun n hn =>
    Node.plain_of_isInstruction (Node.isInstruction_of_every (Program.every_iff.mp h n hn))).trans
    (List.map_id p)

/-- Whether a node goes no negative distance, and makes steps if it is a scan. -/
def Node.hasSoundDistance : Node → Bool
  | .moveRight n | .moveLeft n | .carryRight n | .carryLeft n => 0 ≤ n
  | .scanRight n | .scanLeft n => 1 ≤ n
  | _ => true

/-- Whether a node is an instruction whose amount is not negative, and not zero if it is the step of
a scan. -/
def Node.hasSoundAmount : Node → Bool
  | .moveRight n | .moveLeft n | .increment n | .decrement n | .carryRight n | .carryLeft n => 0 ≤ n
  | .scanRight n | .scanLeft n => 1 ≤ n
  | .foreign _ | .derived _ _ => false
  | .output | .input | .loop _ | .clear | .scaled _ => true

/-- Whether a node is an instruction whose amount is a word that is not negative as a signed number,
and not zero if it is the step of a scan. -/
def Node.hasWordAmount : Node → Bool
  | .moveRight n | .moveLeft n | .increment n | .decrement n | .carryRight n | .carryLeft n =>
    0 ≤ n && n < 2 ^ 63
  | .scanRight n | .scanLeft n => 1 ≤ n && n < 2 ^ 63
  | .foreign _ | .derived _ _ => false
  | .output | .input | .loop _ | .clear | .scaled _ => true

theorem Node.isInstruction_of_hasWordAmount (n : Node) (h : n.hasWordAmount = true) :
    n.isInstruction = true := by
  cases n with
  | foreign _ | derived _ _ => exact h
  | _ => rfl

theorem Node.hasSoundDistance_of_hasWordAmount (n : Node) (h : n.hasWordAmount = true) :
    n.hasSoundDistance = true := by
  cases n with
  | moveRight _ | moveLeft _ | scanRight _ | scanLeft _ | carryRight _ | carryLeft _ =>
    exact (Bool.and_eq_true_iff.mp h).1
  | _ => rfl

theorem Node.hasSoundDistance_of_hasSoundAmount (n : Node) (h : n.hasSoundAmount = true) :
    n.hasSoundDistance = true := by
  cases n with
  | moveRight _ | moveLeft _ | scanRight _ | scanLeft _ | carryRight _ | carryLeft _ => exact h
  | _ => rfl

end Brainfuck
