import Brainfuck.Fault
import Brainfuck.IR.Function
import Brainfuck.Node

/-!
# Lowering a tree to blocks

A program becomes the blocks of one function.  Its shape is fixed: `entry` sets up the state, the
lowered sequence follows, `error` is entered by every fault and reports it, and `return` is where
both ways meet, frees what was allocated and returns zero or one.

Blocks exist before they are filled.  `error` is created right after `entry`, so that faults have a
place to go to, and the blocks of a loop are all created when the loop is met; only then is its body
lowered into them.  A new block is put in front of the one that stands last, which is `error` for as
long as the sequence is being lowered, and `return` is put behind it in the end.  Names are taken when
a line or a block is created, so the order of creation also fixes the numbers in the names.

A scale belongs to one sequence.  A scaled body is lowered with the value that its multiplier has
been loaded into, the body of a loop with none.

* `Builder`, `Build`: blocks under construction, and constructions that may meet what is no
  instruction.
* `Node.lower`, `Program.lower`: the lowering of a node and of a sequence.
* `Program.mainBlocks`: the blocks of the whole function.
-/

namespace Brainfuck

namespace IR

/-! ## Construction -/

/-- Blocks under construction. -/
structure Builder where
  names : NameTable
  /-- The blocks in order of creation. -/
  blocks : Array Block
  /-- How the blocks stand in the function, by their indices. -/
  order : List Nat
  /-- The index of the block that is being filled. -/
  current : Nat

/-- Nothing has been built. -/
def Builder.empty : Builder := ⟨.start, #[], [], 0⟩

/-- The blocks as they stand in the function. -/
def Builder.function (b : Builder) : Array Block := (b.order.filterMap (b.blocks[·]?)).toArray

/-- A construction; it fails at a node that is no instruction. -/
abbrev Build := StateT Builder (Except Node)

/-- A block that has been created: its label and its index. -/
structure BlockRef where
  label : Name
  index : Nat

namespace Build

/-- Takes a fresh name. -/
def fresh (s : Stem) : Build Name := fun b =>
  let (name, names) := b.names.take s
  .ok (name, { b with names := names })

/-- Creates an empty block and puts it behind so many of the others. -/
def insertBlock (position : Builder → Nat) (s : Stem) : Build BlockRef := do
  let label ← fresh s
  fun b => .ok (⟨label, b.blocks.size⟩, { b with
    blocks := b.blocks.push ⟨label, #[]⟩
    order := b.order.insertIdx (position b) b.blocks.size })

/-- Creates an empty block behind the others. -/
def appendBlock (s : Stem) : Build BlockRef := insertBlock (fun b => b.order.length) s

/-- Creates an empty block in front of the one that stands last. -/
def newBlock (s : Stem) : Build BlockRef := insertBlock (fun b => b.order.length - 1) s

/-- Goes on filling a block. -/
def enter (r : BlockRef) : Build Unit := fun b =>
  .ok ((), { b with current := r.index })

/-- Adds a line to the block that is being filled. -/
def append (line : Line) : Build Unit := fun b =>
  let blocks := b.blocks.modify b.current fun block => { block with lines := block.lines.push line }
  .ok ((), { b with blocks := blocks })

/-- Adds an operation under a fresh name; the value is what it computes. -/
def emit (s : Stem) (op : Op) : Build Operand := do
  let name ← fresh s
  append ⟨name, op⟩
  return .reg name

/-- Adds an operation whose value is not used. -/
def emitUnused (op : Op) : Build Unit := do
  let _ ← emit .unused op

/-- The label of the block that is being filled. -/
def currentLabel : Build Name := fun b =>
  .ok (((b.blocks[b.current]?).map Block.label).getD ⟨.entry, 0⟩, b)

end Build

/-! ## The state of a run -/

/-- The slot that holds the tape. -/
def cellsSlot : Operand := .reg ⟨.cells, 0⟩

/-- The slot that holds the length of the tape. -/
def lengthSlot : Operand := .reg ⟨.cellsLength, 0⟩

/-- The slot that holds the index of the current cell. -/
def indexSlot : Operand := .reg ⟨.currentCell, 0⟩

/-- The slot that holds the input buffer. -/
def inputSlot : Operand := .reg ⟨.inputBuffer, 0⟩

/-- The label of the block that reports a fault. -/
def errorLabel : Name := ⟨.error, 0⟩

namespace Build

/-- Loads the tape. -/
def loadCells : Build Operand := emit .load (.load (.ptr .i8) cellsSlot)

/-- Loads the index of the current cell. -/
def loadIndex : Build Operand := emit .load (.load .i64 indexSlot)

/-- The address of the current cell. -/
def cellAddress : Build Operand := do
  let cells ← loadCells
  let index ← loadIndex
  emit .currentCellPtr (.byteAt cells index)

/-- Goes to the error block if a condition holds, and on in a new block otherwise. -/
def failIf (condition : Operand) (s : Stem) : Build Unit := do
  let rest ← newBlock s
  emitUnused (.branch condition errorLabel rest.label)
  enter rest

/-- Changes the current cell by an amount, multiplied by a scale if there is one. -/
def changeCell (f : Arith) (s : Stem) (amount : Int) (scale : Option Operand) : Build Unit := do
  let address ← cellAddress
  let old ← emit .load (.load .i8 address)
  let amount ←
    match scale with
    | some factor => emit .multipliedAmount (.arith .mul .i8 (.int (amount % 256)) factor)
    | none => pure (.int (amount % 256))
  let new ← emit s (.arith f .i8 old amount)
  emitUnused (.store .i8 new address)

/-- Clears the current cell. -/
def clearCell : Build Unit := do
  let address ← cellAddress
  emitUnused (.store .i8 (.int 0) address)

end Build

end IR

open IR IR.Build

/-! ## Nodes -/

mutual

/-- Lowers a node of a sequence with the given scale. -/
def Node.lower (scale : Option Operand) : Node → Build Unit
  | .moveRight n => emitUnused (.call .moveRight [cellsSlot, lengthSlot, indexSlot, .int n])
  | .moveLeft n => do
    let index ← loadIndex
    let target ← emit .decrementedCurrentCell (.arith .sub .i64 index (.int n))
    let failed ← emit .returnWithError (.compare .slt .i64 target (.int 0))
    failIf failed .moveLeft
    emitUnused (.store .i64 target indexSlot)
  | .increment n => changeCell .add .incrementedCurrentCell n scale
  | .decrement n => changeCell .sub .decrementedCurrentCell n scale
  | .output => do
    let address ← cellAddress
    let value ← emit .load (.load .i8 address)
    let wide ← emit .extendedCurrentCellValue (.zext value)
    emitUnused (.call .putchar [wide])
    let stdout ← emit .stdout (.load (.ptr .i8) (.stream .stdout))
    emitUnused (.call .fflush [stdout])
  | .input => do
    let cells ← loadCells
    let index ← loadIndex
    emitUnused (.call .input [cells, index, inputSlot])
  | .loop body => do
    let head ← newBlock .loop
    let inside ← newBlock .thenBlock
    let behind ← newBlock .merge
    emitUnused (.br head.label)
    enter head
    let address ← cellAddress
    let value ← emit .load (.load .i8 address)
    let again ← emit .continueLoop (.compare .ne .i8 value (.int 0))
    emitUnused (.branch again inside.label behind.label)
    enter inside
    Program.lower none body
    emitUnused (.br head.label)
    enter behind
  | .scanRight n =>
    emitUnused (.call .moveRightUntilZero [cellsSlot, lengthSlot, indexSlot, .int n])
  | .scanLeft n => do
    let cells ← loadCells
    let failed ← emit .returnWithError (.call .moveLeftUntilZero [cells, indexSlot, .int n])
    failIf failed .continueBlock
  | .clear => clearCell
  | .scaled body => do
    let address ← cellAddress
    let multiplier ← emit .multiplier (.load .i8 address)
    let inside ← newBlock .multiply
    let behind ← newBlock .multiplyDone
    let nonzero ← emit .hasMultiplier (.compare .ne .i8 multiplier (.int 0))
    emitUnused (.branch nonzero inside.label behind.label)
    enter inside
    Program.lower (some multiplier) body
    emitUnused (.br behind.label)
    enter behind
    clearCell
  | .carryRight n => do
    let index ← loadIndex
    emitUnused (.call .moveValueRight [cellsSlot, lengthSlot, index, .int n])
  | .carryLeft n => do
    let cells ← loadCells
    let index ← loadIndex
    let failed ← emit .returnWithError (.call .moveValueLeft [cells, index, .int n])
    failIf failed .continueBlock
  -- only the very classes of the instructions are known here
  | .foreign v => throw (.foreign v)
  | .derived name base => throw (.derived name base)

/-- Lowers a sequence with the given scale. -/
def Program.lower (scale : Option Operand) : List Node → Build Unit
  | [] => pure ()
  | n :: p => do
    n.lower scale
    Program.lower scale p

end

/-! ## The whole function -/

namespace IR.Build

/-- Sets up the state of a run: an empty tape of 256 cells and no input. -/
def prologue : Build Unit := do
  let _ ← emit .cells (.alloca (.ptr .i8))
  let _ ← emit .cellsLength (.alloca .i64)
  let _ ← emit .currentCell (.alloca .i64)
  let _ ← emit .inputBuffer (.alloca (.ptr .i8))
  let tape ← emit .initialCells (.call .calloc [.int 256, .int 1])
  emitUnused (.store (.ptr .i8) tape cellsSlot)
  emitUnused (.store .i64 (.int 256) lengthSlot)
  emitUnused (.store .i64 (.int 0) indexSlot)
  emitUnused (.store (.ptr .i8) .null inputSlot)

/-- Fills the block that reports a fault. -/
def reportFault (returnLabel : Name) : Build Unit := do
  let text ← emit .errorString .errorText
  let stderr ← emit .stderr (.load (.ptr .i8) (.stream .stderr))
  emitUnused (.call .fputs [text, stderr])
  emitUnused (.br returnLabel)

/-- Fills the block in which the normal way, coming from the given block, and the fault meet. -/
def epilogue (last : Name) : Build Unit := do
  let status ← emit .returnValue (.phi [(0, last), (faultStatus, errorLabel)])
  let cells ← emit .cells (.load (.ptr .i8) cellsSlot)
  emitUnused (.call .free [cells])
  let buffer ← emit .inputBuffer (.load (.ptr .i8) inputSlot)
  emitUnused (.call .free [buffer])
  emitUnused (.ret status)

/-- Builds the function of a program. -/
def function (p : Program) : Build Unit := do
  let entry ← appendBlock .entry
  let error ← appendBlock .error
  enter entry
  prologue
  Program.lower none p
  let back ← appendBlock .returnBlock
  emitUnused (.br back.label)
  let last ← currentLabel
  enter error
  reportFault back.label
  enter back
  epilogue last

end IR.Build

/-- The blocks of the function that runs a program. -/
def Program.mainBlocks (p : Program) : Except Node (Array Block) := do
  let (_, b) ← (IR.Build.function p).run .empty
  return b.function

end Brainfuck
