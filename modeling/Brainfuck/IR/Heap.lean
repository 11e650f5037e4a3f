/-!
# Blocks of memory

Memory is asked for in blocks.  A block that has been asked for is there until it is freed, and nothing
can be read from it or written to it afterwards.  Blocks have numbers, and no number is used twice, so
an address that is kept for too long is not taken for one in a newer block.

A block can be given another size.  That may move it to another place, so it counts as another block
then.

* `Heap`, `Heap.block?`: blocks, and what is in them.
* `Heap.alloc`, `Heap.free`, `Heap.resize`: asking for a block, giving it back, changing its size.
* `Heap.exchange`: one block for another, where there may be none.
-/

namespace Brainfuck.IR

/-- The blocks that have been asked for, by number; nothing in place of one that has been freed. -/
structure Heap where
  blocks : Array (Option (Array UInt8))

namespace Heap

/-- Nothing has been asked for. -/
def empty : Heap := ⟨#[]⟩

/-- What is in a block. -/
def block? (h : Heap) (k : Nat) : Option (Array UInt8) := (h.blocks[k]?).join

/-- The number of the next block that is asked for. -/
def next (h : Heap) : Nat := h.blocks.size

/-- Asks for a block. -/
def alloc (h : Heap) (bytes : Array UInt8) : Heap := ⟨h.blocks.push (some bytes)⟩

/-- Gives a block back. -/
def free (h : Heap) (k : Nat) : Heap := ⟨h.blocks.setIfInBounds k none⟩

/-- Changes what is in a block. -/
def write (h : Heap) (k : Nat) (bytes : Array UInt8) : Heap :=
  ⟨h.blocks.setIfInBounds k (some bytes)⟩

/-- Changes what is in a block, also in size: the number of the block then, and the heap. -/
def resize (h : Heap) (k : Nat) (bytes : Array UInt8) : Nat × Heap :=
  if (h.block? k).map Array.size = some bytes.size then (k, h.write k bytes)
  else (h.next, (h.free k).alloc bytes)

/-- Puts a block in place of another one: its number, if there is one, and the heap. -/
def exchange (h : Heap) : Option Nat → Option (Array UInt8) → Option Nat × Heap
  | none, none => (none, h)
  | none, some bytes => (some h.next, h.alloc bytes)
  | some k, none => (none, h.free k)
  | some k, some bytes =>
    let (k, h) := h.resize k bytes
    (some k, h)

/-- The byte at an offset. -/
def byte? (h : Heap) (k : Nat) : Int → Option UInt8
  | .ofNat i => (h.block? k).bind (·[i]?)
  | .negSucc _ => none

/-- Writes the byte at an offset. -/
def setByte? (h : Heap) (k : Nat) (offset : Int) (v : UInt8) : Option Heap := do
  let bytes ← h.block? k
  match offset with
  | .ofNat i => if i < bytes.size then some (h.write k (bytes.setIfInBounds i v)) else none
  | .negSucc _ => none

end Heap

end Brainfuck.IR
