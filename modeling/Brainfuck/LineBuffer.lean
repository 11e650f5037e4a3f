import Brainfuck.Buffer

/-!
# Lines in memory

A compiled program keeps the line that it is reading in a block of memory, and three words beside it:
the length of the line, the capacity of the block and the position of the next byte.  A byte is read
from the block at the position, and the system is asked for another line when the position has
reached the length.  A line ends with its newline byte or with the input.  At the end of the input
there is no line; the length is set to zero then, so that the system is asked again each time.

The system is given the block and its capacity and may put the line into another block.  What it
leaves behind the line in a block, and what it does to a block when there is no line, is its own
affair.  So it is an argument here, and `Fetch.plain` is only the simplest system of this kind.

A routine gives nothing if it reads or writes outside of a block.

* `Fetched`, `Fetch`: what the system leaves when it has been asked for a line.
* `LineBuffer`, `LineBuffer.next`: the block and its words, and how the next byte is read.
* `Memory`, `Request`, `Memory.serve`: all that the routines of a compiled program work on, and the
  calls of them.
-/

namespace Brainfuck

/-! ## Lines from the system -/

/-- What the system leaves when it has been asked for a line. -/
structure Fetched where
  /-- The length of the line; not positive if there is none. -/
  count : Int64
  /-- The block that the line is in, if there is a block. -/
  block : Option (Array UInt8)
  capacity : UInt64
  /-- What is left of the input. -/
  rest : List UInt8

/-- A system, as a function of the block that it is given, its capacity and the input. -/
abbrev Fetch := Option (Array UInt8) → UInt64 → List UInt8 → Fetched

/-- The first line, with its newline, and what comes after it. -/
def firstLine : List UInt8 → List UInt8 × List UInt8
  | [] => ([], [])
  | b :: bs =>
    if b = 10 then ([b], bs)
    else
      let (line, rest) := firstLine bs
      (b :: line, rest)

/-- Writes the line and a zero byte to the beginning of the block, which is made longer if it is too
short. -/
def Fetch.plain : Fetch := fun block capacity input =>
  match firstLine input with
  | ([], rest) => ⟨-1, block, capacity, rest⟩
  | (line, rest) =>
    let content := line ++ 0 :: (block.getD #[]).toList.drop (line.length + 1)
    ⟨.ofNat line.length, some content.toArray, .ofNat content.length, rest⟩

/-! ## Lines byte by byte -/

/-- A line in memory, and the input that has not been fetched. -/
structure LineBuffer where
  length : UInt64
  capacity : UInt64
  position : UInt64
  /-- There is no block before the first line. -/
  block : Option (Array UInt8)
  rest : List UInt8

namespace LineBuffer

/-- Nothing has been fetched. -/
def start (input : List UInt8) : LineBuffer := ⟨0, 0, 0, none, input⟩

/-- Hands out the byte at the position. -/
def take (l : LineBuffer) : Option (UInt8 × LineBuffer) := do
  let block ← l.block
  let b ← block[l.position.toNat]?
  return (b, { l with position := l.position + 1 })

/-- Hands out the next byte, zero at the end of the input. -/
def next (fetch : Fetch) (l : LineBuffer) : Option (UInt8 × LineBuffer) :=
  if l.length ≤ l.position then
    let fetched := fetch l.block l.capacity l.rest
    if fetched.count ≤ 0 then some (0, ⟨0, fetched.capacity, 0, fetched.block, fetched.rest⟩)
    else take ⟨fetched.count.toUInt64, fetched.capacity, 0, fetched.block, fetched.rest⟩
  else l.take

end LineBuffer

/-! ## Requests -/

/-- The memory of a compiled program: its tape and its input. -/
structure Memory where
  tape : Buffer
  lines : LineBuffer

/-- The calls of routines: one that works on the tape, or reading a byte into a cell. -/
inductive Request where
  | call (c : Call)
  | input (cell : UInt64) (fetch : Fetch)

namespace Memory

/-- The memory before the first request. -/
def start (tape : Buffer) (input : List UInt8) : Memory := ⟨tape, .start input⟩

/-- Reads a byte into a cell. -/
def input (m : Memory) (cell : UInt64) (fetch : Fetch) : Option Memory := do
  let (b, lines) ← m.lines.next fetch
  let tape ← m.tape.storeAt cell b
  return ⟨tape, lines⟩

/-- Carries out a request; with the answer of a routine that has one. -/
def serve (m : Memory) : Request → Option (Option Bool × Memory)
  | .call c => (m.tape.perform c).map fun (answer, tape) => (answer, { m with tape := tape })
  | .input cell fetch => (m.input cell fetch).map (none, ·)

/-- Carries out requests one after another. -/
def serveAll (m : Memory) : List Request → Option Memory
  | [] => some m
  | q :: requests => (m.serve q).bind fun (_, after) => after.serveAll requests

end Memory

end Brainfuck
