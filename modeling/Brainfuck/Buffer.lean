import Brainfuck.Head

/-!
# Tapes in memory

A compiled program keeps its tape in a block of memory, and its length and its index in words of 64
bits.  These are the routines that it calls to work on them.  Where `Head` says what is to happen,
they say how: they count in words, which wrap around, they ask for memory that holds anything at all,
and they look for a cell or for a length by going on until it is found.

A routine gives nothing if it reads or writes outside of its block, or if it never returns.  That no
more memory can be had is not among the things that happen here.

* `firstWord`: what a loop over words ends with, if it ends.
* `Buffer`, `Buffer.ofBytes?`: a block with its length and an index.
* `Buffer.growTo`, `Buffer.moveRight`, `Buffer.scanRight`, `Buffer.scanLeft`, `Buffer.carryRight`,
  `Buffer.carryLeft`: the routines.
* `Call`, `Buffer.perform`, `Buffer.performAll`: calls of them, one after another.
-/

namespace Brainfuck

/-! ## Loops -/

/-- The first of a word, the next one, the one after that and so on that passes a test, if it is among
the first so many. -/
def firstWithin (next : UInt64 → UInt64) (test : UInt64 → Bool) : Nat → UInt64 → Option UInt64
  | 0, _ => none
  | k + 1, w => if test w then some w else firstWithin next test k (next w)

/-- The first of a word, the next one, the one after that and so on that passes a test.  Words come
again after as many as there are, so a word that has not come by then never comes. -/
def firstWord (next : UInt64 → UInt64) (test : UInt64 → Bool) (w : UInt64) : Option UInt64 :=
  firstWithin next test UInt64.size w

/-! ## Blocks -/

/-- A block of cells, as many as a word says, and an index. -/
structure Buffer where
  count : UInt64
  cells : Vector UInt8 count.toNat
  index : UInt64

namespace Buffer

/-- The tape that is in a block. -/
def tape (b : Buffer) : Tape := ⟨b.cells.toArray⟩

/-- The place on a tape that a block and its index are. -/
def head (b : Buffer) : Head := ⟨b.tape, b.index.toNat⟩

/-- The block with the given cells, if there are as many of them as its length says. -/
def ofBytes? (count : UInt64) (bytes : Array UInt8) (index : UInt64) : Option Buffer :=
  if h : bytes.size = count.toNat then some ⟨count, ⟨bytes, h⟩, index⟩ else none

/-- The block of a tape that is not too long for one. -/
def ofHead (h : Head) : Buffer where
  count := .ofNat h.tape.size
  cells := Vector.ofFn fun i => h.tape.get i
  index := .ofNat h.index

/-! ## Memory -/

/-- A block of another size in place of a block.  What it holds beyond the old cells is whatever was
there in memory. -/
def resized {n : Nat} (cells : Vector UInt8 n) (size : Nat) (fresh : Nat → UInt8) :
    Vector UInt8 size :=
  Vector.ofFn fun i => (cells[i.val]?).getD (fresh i)

/-- Clears a stretch of a block. -/
def cleared? {n : Nat} (cells : Vector UInt8 n) (start length : Nat) : Option (Vector UInt8 n) :=
  if start + length ≤ n then
    some (cells.mapIdx fun i v => if start ≤ i ∧ i < start + length then 0 else v)
  else none

/-- The first of a word, its double, the double of that and so on that is not less than another. -/
def roundUp (n p : UInt64) : Option UInt64 := firstWord (· <<< 1) (n ≤ ·) p

/-- Makes a block long enough for an index, with zero cells behind those that it has. -/
def growTo (fresh : Nat → UInt8) (b : Buffer) (index : UInt64) : Option Buffer :=
  if index < b.count then some b
  else do
    let count ← roundUp (index + 1) 1
    let cells ← cleared? (resized b.cells count.toNat fresh) b.count.toNat (count - b.count).toNat
    return ⟨count, cells, b.index⟩

/-! ## Routines -/

/-- Moves to the right. -/
def moveRight (fresh : Nat → UInt8) (b : Buffer) (amount : UInt64) : Option Buffer :=
  growTo fresh { b with index := b.index + amount } (b.index + amount)

/-- Whether there is no cell at an index that is not zero. -/
def isBlank (b : Buffer) (i : UInt64) : Bool := (b.cells[i.toNat]?).all (· == 0)

/-- Moves from a cell to the first zero cell on the right.  Cells that have just been added need not
be looked at. -/
def seekRight (fresh : Nat → UInt8) (b : Buffer) (amount start : UInt64) : Option Buffer := do
  let current ← firstWord (· + amount) (fun i => b.isBlank i || b.count ≤ i + amount) start
  let cell ← b.cells[current.toNat]?
  if cell = 0 then return { b with index := current }
  else
    let grown ← growTo fresh b (current + amount)
    return { grown with index := current + amount }

/-- Moves to the first zero cell on the right. -/
def scanRight (fresh : Nat → UInt8) (b : Buffer) (amount : UInt64) : Option Buffer :=
  seekRight fresh b amount b.index

/-- Moves from a cell to the first zero cell on the left; says whether there was none. -/
def seekLeft (b : Buffer) (amount start : UInt64) : Option (Bool × Buffer) := do
  let current ← firstWord (· - amount) (fun i => b.isBlank i || i < amount) start
  let cell ← b.cells[current.toNat]?
  if cell = 0 then return (false, { b with index := current }) else return (true, b)

/-- Moves to the first zero cell on the left; says whether there was none. -/
def scanLeft (b : Buffer) (amount : UInt64) : Option (Bool × Buffer) :=
  seekLeft b amount b.index

/-- Adds the cell to another one, then clears it. -/
def carryTo (b : Buffer) (target : UInt64) : Option Buffer := do
  let there ← b.cells[target.toNat]?
  let here ← b.cells[b.index.toNat]?
  return { b with
    cells := (b.cells.setIfInBounds target.toNat (there + here)).setIfInBounds b.index.toNat 0 }

/-- Carries the cell to the right. -/
def carryRight (fresh : Nat → UInt8) (b : Buffer) (amount : UInt64) : Option Buffer := do
  let grown ← growTo fresh b (b.index + amount)
  grown.carryTo (b.index + amount)

/-- Carries the cell to the left; says whether that would leave the tape. -/
def carryLeft (b : Buffer) (amount : UInt64) : Option (Bool × Buffer) := do
  let here ← b.cells[b.index.toNat]?
  if here = 0 then return (false, b)
  else if b.index < amount then return (true, b)
  else
    let carried ← b.carryTo (b.index - amount)
    return (false, carried)

/-- Writes a cell. -/
def storeAt (b : Buffer) (cell : UInt64) (v : UInt8) : Option Buffer :=
  if cell < b.count then some { b with cells := b.cells.setIfInBounds cell.toNat v } else none

/-- Writes the cell at the index. -/
def store (b : Buffer) (v : UInt8) : Option Buffer := b.storeAt b.index v

end Buffer

/-! ## Calls -/

/-- The routines that move the index or carry a cell. -/
inductive Routine where
  | moveRight
  | scanRight
  | scanLeft
  | carryRight
  | carryLeft
deriving DecidableEq, Repr

namespace Routine

/-- Whether a routine says if it failed. -/
def answers : Routine → Bool
  | scanLeft | carryLeft => true
  | moveRight | scanRight | carryRight => false

/-- Whether a routine looks for a zero cell. -/
def scans : Routine → Bool
  | scanRight | scanLeft => true
  | moveRight | carryRight | carryLeft => false

end Routine

/-- A call of a routine, and what will be in the memory that it is given. -/
structure Call where
  routine : Routine
  amount : UInt64
  fresh : Nat → UInt8

namespace Buffer

/-- Carries out a call; with the answer of a routine that has one. -/
def perform (b : Buffer) (c : Call) : Option (Option Bool × Buffer) :=
  match c.routine with
  | .moveRight => (b.moveRight c.fresh c.amount).map (none, ·)
  | .scanRight => (b.scanRight c.fresh c.amount).map (none, ·)
  | .scanLeft => (b.scanLeft c.amount).map fun (failed, after) => (some failed, after)
  | .carryRight => (b.carryRight c.fresh c.amount).map (none, ·)
  | .carryLeft => (b.carryLeft c.amount).map fun (failed, after) => (some failed, after)

/-- Carries out calls one after another. -/
def performAll (b : Buffer) : List Call → Option Buffer
  | [] => some b
  | c :: calls => (b.perform c).bind fun (_, after) => after.performAll calls

end Buffer

end Brainfuck
