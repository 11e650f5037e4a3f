import Std.Data.HashMap
import Brainfuck.Fault
import Brainfuck.IR.Heap
import Brainfuck.IR.Module
import Brainfuck.LineBuffer

/-!
# Running a module

A process runs the blocks of `main`.  Values are numbers of a fixed width and addresses; an address
points to a stack slot, to a byte of a block of memory, to a stream or to the text about a fault.

The tape is a block of memory.  Its address, its length and the index live in stack slots, and so does
the address of the line that is being read.  The functions of the runtime are the routines on tapes
and lines in memory.  Some get the addresses of the slots: these find the tape and its length there,
and they leave the new ones there if the tape has been given another size.  Others get the tape
itself and have no say in its size.

A process runs on a system, which knows what is in memory that has just been asked for and brings the
lines of the input.

An operation on values that it is not made for has no meaning here, and the process is stuck.  It is
stuck as well if it reads a slot that nothing has been put into, or if it reads, writes or frees a
block that is not there.  A program need not end, so the number of blocks is bounded by an argument.

* `Value`, `System`, `Process`: values, what a process runs on, and its state.
* `Process.call`: calls of functions.
* `Process.execute`: one operation.
* `Module.run`: a module on an input, up to its exit.
-/

namespace Brainfuck.IR

/-- A value at run time. -/
inductive Value where
  | bit (b : Bool)
  | byte (v : UInt8)
  | int (v : UInt32)
  | word (v : UInt64)
  /-- The address of a stack slot. -/
  | slot (name : Name)
  /-- The address of a byte of a block of memory. -/
  | address (block : Nat) (offset : Int)
  | null
  | stream (s : Stream)
  /-- The address of the text about a fault. -/
  | errorText
deriving DecidableEq, Repr

/-- The address of a block; the null pointer if there is none. -/
def Value.pointer : Option Nat → Value
  | some k => .address k 0
  | none => .null

/-- What a process runs on. -/
structure System where
  /-- What is in a block that has just been asked for, by its number. -/
  fresh : Nat → Nat → UInt8
  fetch : Fetch

/-- New memory is zero, and lines are fetched in the simplest way. -/
def System.plain : System := ⟨fun _ _ => 0, .plain⟩

/-- The state of a process. -/
structure Process where
  system : System
  registers : Std.HashMap Name Value
  /-- The contents of the stack slots. -/
  slots : Std.HashMap Name Value
  heap : Heap
  /-- The words that are kept beside the line that is being read. -/
  lineLength : UInt64
  lineCapacity : UInt64
  linePosition : UInt64
  /-- The input that has not been fetched. -/
  rest : List UInt8
  stdout : Array UInt8
  stderr : String

/-- How a process has ended. -/
structure Exit where
  status : Nat
  stdout : Array UInt8
  stderr : String

namespace Process

/-- The process before its first block. -/
def start (system : System) (input : List UInt8) : Process :=
  ⟨system, ∅, ∅, .empty, 0, 0, 0, input, #[], ""⟩

/-- The value of an operand of a type. -/
def eval (s : Process) (ty : Ty) : Operand → Option Value
  | .reg name => s.registers[name]?
  | .int n =>
    match ty with
    | .i8 => some (.byte (.ofInt n))
    | .i32 => some (.int (.ofInt n))
    | .i64 => some (.word (.ofInt n))
    | _ => none
  | .null => some .null
  | .stream k => some (.stream k)

/-- The values of the arguments of a call. -/
def arguments (s : Process) (f : Callee) (xs : List Operand) : Option (List Value) :=
  (f.parameters.zip xs).mapM fun (ty, x) => s.eval ty x

/-- What stands at an address. -/
def fetch (s : Process) : Value → Option Value
  | .slot name => s.slots[name]?
  | .address k offset => (s.heap.byte? k offset).map .byte
  -- the variable of a stream holds the stream
  | .stream k => some (.stream k)
  | _ => none

/-- Writes to an address. -/
def put (s : Process) (v : Value) : Value → Option Process
  | .slot name => some { s with slots := s.slots.insert name v }
  | .address k offset =>
    match v with
    | .byte b => (s.heap.setByte? k offset b).map fun heap => { s with heap := heap }
    | _ => none
  | _ => none

/-! ## Calls -/

/-- The word in a slot. -/
def wordAt (s : Process) (name : Name) : Option UInt64 :=
  match s.slots[name]? with
  | some (.word v) => some v
  | _ => none

/-- Puts a word into a slot. -/
def setWord (s : Process) (name : Name) (v : UInt64) : Process :=
  { s with slots := s.slots.insert name (.word v) }

/-- The block that an address is the beginning of, by its number, and what is in it. -/
def blockAt (s : Process) : Value → Option (Nat × Array UInt8)
  | .address k (.ofNat 0) => (s.heap.block? k).map (k, ·)
  | _ => none

/-- Calls a routine that is told where the address and the length of the tape stand: the index that it
gives, and the process after it. -/
def callOnSlots (s : Process) (r : Routine) (cells length : Name) (index amount : UInt64) :
    Option (UInt64 × Process) := do
  let (k, bytes) ← s.blockAt (← s.slots[cells]?)
  let tape ← Buffer.ofBytes? (← s.wordAt length) bytes index
  let (_, after) ← tape.perform ⟨r, amount, s.system.fresh s.heap.next⟩
  let (k, heap) := s.heap.resize k after.cells.toArray
  let slots := (s.slots.insert cells (.address k 0)).insert length (.word after.count)
  return (after.index, { s with heap := heap, slots := slots })

/-- Calls a routine that is given the tape: its answer, the index that it gives, and the process after
it. -/
def callOnBlock (s : Process) (r : Routine) (cells : Value) (index amount : UInt64) :
    Option (Option Bool × UInt64 × Process) := do
  let (k, bytes) ← s.blockAt cells
  let tape ← Buffer.ofBytes? (.ofNat bytes.size) bytes index
  let (answer, after) ← tape.perform ⟨r, amount, s.system.fresh s.heap.next⟩
  return (answer, after.index, { s with heap := s.heap.write k after.cells.toArray })

/-- The number of the block that a slot holds the address of; there is none if it holds the null
pointer. -/
def pointerAt (s : Process) (name : Name) : Option (Option Nat) :=
  match s.slots[name]? with
  | some .null => some none
  | some v => (s.blockAt v).map fun (k, _) => some k
  | none => none

/-- The line that is being read, if it is in a block. -/
def lines (s : Process) (block : Option Nat) : LineBuffer :=
  ⟨s.lineLength, s.lineCapacity, s.linePosition, block.bind s.heap.block?, s.rest⟩

/-- Reads a byte into a cell of a tape, with the address of the line in a slot. -/
def readInto (s : Process) (cells : Value) (cell : UInt64) (line : Name) : Option Process := do
  let (k, bytes) ← s.blockAt cells
  let tape ← Buffer.ofBytes? (.ofNat bytes.size) bytes cell
  let old ← s.pointerAt line
  let after ← (Memory.mk tape (s.lines old)).input cell s.system.fetch
  let (new, heap) := s.heap.exchange old after.lines.block
  return { s with
    heap := heap.write k after.tape.cells.toArray
    slots := s.slots.insert line (.pointer new)
    lineLength := after.lines.length
    lineCapacity := after.lines.capacity
    linePosition := after.lines.position
    rest := after.lines.rest }

/-- Calls a function: the value that it returns, if it returns one, and the process after it. -/
def call (s : Process) : Callee → List Value → Option (Option Value × Process)
  | .calloc, [.word count, .word size] =>
    some (some (.address s.heap.next 0),
      { s with heap := s.heap.alloc (.replicate (count.toNat * size.toNat) 0) })
  | .free, [.null] => some (none, s)
  | .free, [pointer] => do
    let (k, _) ← s.blockAt pointer
    return (none, { s with heap := s.heap.free k })
  | .fputs, [.errorText, .stream .stderr] =>
    some (some (.int 1), { s with stderr := s.stderr ++ faultMessage })
  | .putchar, [.int v] => some (some (.int v), { s with stdout := s.stdout.push v.toUInt8 })
  | .fflush, [.stream _] => some (some (.int 0), s)
  | .moveRight, [.slot cells, .slot length, .slot index, .word n] => do
    let (i, s) ← s.callOnSlots .moveRight cells length (← s.wordAt index) n
    return (none, s.setWord index i)
  | .moveRightUntilZero, [.slot cells, .slot length, .slot index, .word n] => do
    let (i, s) ← s.callOnSlots .scanRight cells length (← s.wordAt index) n
    return (none, s.setWord index i)
  | .moveLeftUntilZero, [cells, .slot index, .word n] => do
    let (answer, i, s) ← s.callOnBlock .scanLeft cells (← s.wordAt index) n
    return (answer.map .bit, s.setWord index i)
  | .input, [cells, .word i, .slot line] => do
    return (none, ← s.readInto cells i line)
  | .moveValueRight, [.slot cells, .slot length, .word i, .word n] => do
    let (_, s) ← s.callOnSlots .carryRight cells length i n
    return (none, s)
  | .moveValueLeft, [cells, .word i, .word n] => do
    let (answer, _, s) ← s.callOnBlock .carryLeft cells i n
    return (answer.map .bit, s)
  | _, _ => none

/-! ## Operations -/

/-- Arithmetic on two values of one width. -/
def arith : Arith → Value → Value → Option Value
  | .add, .byte a, .byte b => some (.byte (a + b))
  | .sub, .byte a, .byte b => some (.byte (a - b))
  | .mul, .byte a, .byte b => some (.byte (a * b))
  | .sub, .word a, .word b => some (.word (a - b))
  | _, _, _ => none

/-- A comparison of two values of one width. -/
def compare : Relation → Value → Value → Option Bool
  | .ne, .byte a, .byte b => some (a != b)
  | .slt, .word a, .word b => some (a.toInt64 < b.toInt64)
  | _, _, _ => none

/-- What happens after an operation. -/
inductive Next where
  /-- The next line is run, in a process with the value of this one. -/
  | line (s : Process)
  /-- A block is entered. -/
  | block (label : Name) (s : Process)
  /-- The function returns a status. -/
  | exit (status : Nat) (s : Process)

/-- Gives a line its value. -/
def define (s : Process) (name : Name) (v : Value) : Next :=
  .line { s with registers := s.registers.insert name v }

/-- Runs a line of a block that was entered from another one. -/
def execute (s : Process) (from? : Option Name) (l : Line) : Option Next := do
  match l.op with
  | .alloca _ => return define { s with slots := s.slots.erase l.name } l.name (.slot l.name)
  | .load ty address => return s.define l.name (← s.fetch (← s.eval (.ptr ty) address))
  | .store ty value address =>
    return .line (← s.put (← s.eval ty value) (← s.eval (.ptr ty) address))
  | .byteAt base index =>
    match ← s.eval (.ptr .i8) base, ← s.eval .i64 index with
    | .address k offset, .word n => return s.define l.name (.address k (offset + n.toInt64.toInt))
    | _, _ => none
  | .errorText => return s.define l.name .errorText
  | .arith f ty left right =>
    return s.define l.name (← arith f (← s.eval ty left) (← s.eval ty right))
  | .compare r ty left right =>
    return s.define l.name (.bit (← compare r (← s.eval ty left) (← s.eval ty right)))
  | .zext value =>
    match ← s.eval .i8 value with
    | .byte v => return s.define l.name (.int v.toUInt32)
    | _ => none
  | .call f xs =>
    match ← s.call f (← s.arguments f xs) with
    | (some v, s) => return s.define l.name v
    | (none, s) => return .line s
  | .phi incoming =>
    let (n, _) ← incoming.find? fun e => some e.2 = from?
    return s.define l.name (.int (.ofInt n))
  | .br target => return .block target s
  | .branch condition yes no =>
    match ← s.eval .i1 condition with
    | .bit b => return .block (if b then yes else no) s
    | _ => none
  | .ret value =>
    match ← s.eval .i32 value with
    | .int v => return .exit v.toNat s
    | _ => none

/-- Runs lines up to the end of their block. -/
def runLines (from? : Option Name) : List Line → Process → Option Next
  | [], _ => none
  | l :: ls, s =>
    match s.execute from? l with
    | some (.line s) => runLines from? ls s
    | next => next

/-- Runs blocks, at most a given number of them, from one that was entered from another. -/
def runBlocks (blocks : Std.HashMap Name (List Line)) :
    (fuel : Nat) → (from? : Option Name) → (label : Name) → Process → Option Exit
  | 0, _, _, _ => none
  | fuel + 1, from?, label, s =>
    match blocks[label]? with
    | none => none
    | some lines =>
      match runLines from? lines s with
      | some (.block next s) => runBlocks blocks fuel (some label) next s
      | some (.exit status s) => some ⟨status, s.stdout, s.stderr⟩
      | _ => none

end Process

/-- Runs a module on a system and an input, through at most a given number of blocks. -/
def Module.run (m : Module) (system : System) (fuel : Nat) (input : List UInt8) : Option Exit :=
  let blocks := m.blocks.foldl (fun t b => t.insert b.label b.lines.toList) ∅
  Process.runBlocks blocks fuel none ⟨.entry, 0⟩ (.start system input)

end Brainfuck.IR
