import Brainfuck.Tape

/-!
# Heads

A head is a place on a tape.  These are the operations on it that a compiled program calls: each
one runs to its end by itself, and grows the tape in place when it has to.  An operation to the left
that would leave the tape gives nothing, and then nothing has changed.

* `Head.moveRight`, `Head.scanRight`, `Head.carryRight`: to the right, growing the tape.
* `Head.scanLeft?`, `Head.carryLeft?`: to the left.
-/

namespace Brainfuck

/-- A place on a tape. -/
structure Head where
  tape : Tape
  index : Nat
deriving DecidableEq, Repr

namespace Head

/-- The cell at the head. -/
def cell (h : Head) : UInt8 := h.tape.get h.index

/-- Moves to the right. -/
def moveRight (h : Head) (amount : Nat) : Head :=
  ⟨h.tape.cover (h.index + amount), h.index + amount⟩

/-- Moves to the first zero cell on the right; a cell past the end is zero once it is there. -/
def scanRight (h : Head) (step : Nat) : Head :=
  let target := h.tape.scanRight step h.index
  ⟨h.tape.cover target, target⟩

/-- Moves to the first zero cell on the left. -/
def scanLeft? (h : Head) (step : Nat) : Option Head :=
  (h.tape.scanLeft? step h.index).map fun target => ⟨h.tape, target⟩

/-- Adds the cell to the one at an index, then clears it. -/
def carryTo (h : Head) (target : Nat) : Head :=
  ⟨(h.tape.set target (h.tape.get target + h.cell)).set h.index 0, h.index⟩

/-- Carries the cell to the right. -/
def carryRight (h : Head) (distance : Nat) : Head :=
  carryTo ⟨h.tape.cover (h.index + distance), h.index⟩ (h.index + distance)

/-- Carries the cell to the left; a zero cell stays where it is. -/
def carryLeft? (h : Head) (distance : Nat) : Option Head :=
  if h.cell = 0 then some h
  else if h.index < distance then none
  else some (h.carryTo (h.index - distance))

end Head

end Brainfuck
