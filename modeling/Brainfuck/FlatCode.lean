import Brainfuck.Node

/-!
# Flat code

A tree runs as a list of instructions with absolute addresses.  A loop is bracketed by an
instruction that skips it when the cell is zero and one that goes back, a scaled body by one that
loads a scale register and one that clears the cell.

Registers are numbered by nesting: the region of a scaled body with `d` scaled bodies around it has
slot `d`.  A change of the cell that stands directly in a scaled body names the slot of that body.
A loop starts afresh: the changes in its body are not scaled, yet a scaled body inside the loop
still counts the ones outside.

The list of a sequence is computed for the address at which it will stand, so no address is filled
in later.

* `Instr`: the instructions, with the numeric view `Instr.opcode`, `Instr.argument`, `Instr.slot?`.
* `Program.code`: the instructions of a sequence at a given address.
* `FlatCode`, `Program.flatten`: the whole program, refused if an argument needs more than 64 bits.
-/

namespace Brainfuck

/-- An instruction of flat code. -/
inductive Instr where
  | right (amount : Int)
  | left (amount : Int)
  /-- Adds an amount, multiplied by a scale register if a slot is given. -/
  | add (amount : UInt8) (slot : Option Nat)
  /-- Subtracts an amount, multiplied by a scale register if a slot is given. -/
  | sub (amount : UInt8) (slot : Option Nat)
  | output
  | input
  /-- Goes on behind the loop if the cell is zero. -/
  | loopStart (behind : Nat)
  /-- Goes back to the start of the loop. -/
  | loopEnd (start : Nat)
  | scanRight (step : Int)
  | scanLeft (step : Int)
  | clear
  /-- Loads the cell into a scale register, or goes on at the end of the region if it is zero. -/
  | scale (stop : Nat) (slot : Nat)
  /-- Ends a region: clears the cell. -/
  | unscale
  | carryRight (distance : Int)
  | carryLeft (distance : Int)
deriving DecidableEq, Repr

namespace Instr

/-- The number of an instruction's kind. -/
def opcode : Instr → Nat
  | right _ => 0
  | left _ => 1
  | add _ _ => 2
  | sub _ _ => 3
  | output => 4
  | input => 5
  | loopStart _ => 6
  | loopEnd _ => 7
  | scanRight _ => 8
  | scanLeft _ => 9
  | clear => 10
  | scale _ _ => 11
  | unscale => 12
  | carryRight _ => 13
  | carryLeft _ => 14

/-- The argument of an instruction, zero if it takes none. -/
def argument : Instr → Int
  | right n | left n | scanRight n | scanLeft n | carryRight n | carryLeft n => n
  | add n _ | sub n _ => n.toNat
  | loopStart a | loopEnd a | scale a _ => a
  | output | input | clear | unscale => 0

/-- The scale register that an instruction reads or loads. -/
def slot? : Instr → Option Nat
  | add _ s | sub _ s => s
  | scale _ s => some s
  | _ => none

/-- Whether the argument is a signed number of 64 bits. -/
def fits (i : Instr) : Bool :=
  Int64.minValue.toInt ≤ i.argument && i.argument ≤ Int64.maxValue.toInt

end Instr

/-! ## The code of a tree -/

mutual

/-- The code of a node that stands at an address, with a number of scaled bodies around it and the
slot of the body that it stands in directly. -/
def Node.code (address depth : Nat) (slot : Option Nat) : Node → Except Node (List Instr)
  | .moveRight n => .ok [.right n]
  | .moveLeft n => .ok [.left n]
  | .increment n => .ok [.add (.ofInt n) slot]
  | .decrement n => .ok [.sub (.ofInt n) slot]
  | .output => .ok [.output]
  | .input => .ok [.input]
  | .loop body => do
    let inner ← Program.code (address + 1) depth none body
    return .loopStart (address + inner.length + 2) :: inner ++ [.loopEnd address]
  | .scanRight n => .ok [.scanRight n]
  | .scanLeft n => .ok [.scanLeft n]
  | .clear => .ok [.clear]
  | .scaled body => do
    let inner ← Program.code (address + 1) (depth + 1) (some depth) body
    return .scale (address + inner.length + 1) depth :: inner ++ [.unscale]
  | .carryRight n => .ok [.carryRight n]
  | .carryLeft n => .ok [.carryLeft n]
  | .foreign v => .error (.foreign v)
  | .derived name base =>
    if base.isInstance then base.code address depth slot else .error (.derived name base)

/-- The code of a sequence that stands at an address. -/
def Program.code (address depth : Nat) (slot : Option Nat) :
    List Node → Except Node (List Instr)
  | [] => .ok []
  | n :: p => do
    let first ← n.code address depth slot
    let rest ← Program.code (address + first.length) depth slot p
    return first ++ rest

end

mutual

/-- The greatest number of scaled bodies around one another in a node. -/
def Node.scaleDepth : Node → Nat
  | .loop body => Program.scaleDepth body
  | .scaled body => Program.scaleDepth body + 1
  | .derived _ base => base.scaleDepth
  | _ => 0

/-- The greatest number of scaled bodies around one another in a program. -/
def Program.scaleDepth : List Node → Nat
  | [] => 0
  | n :: p => max n.scaleDepth (Program.scaleDepth p)

end

/-- A program ready to run. -/
structure FlatCode where
  code : Array Instr
  /-- The number of scale registers in use. -/
  slots : Nat

/-- Why a tree has no flat code. -/
inductive FlattenError where
  /-- A node is no instance of an instruction. -/
  | foreign (node : Node)
  /-- An argument is outside the signed numbers of 64 bits. -/
  | wideArgument
deriving DecidableEq, Repr

/-- The flat code of a program.  What is no instruction is found before a wide argument. -/
def Program.flatten (p : Program) : Except FlattenError FlatCode :=
  match Program.code 0 0 none p with
  | .error n => .error (.foreign n)
  | .ok code =>
    if code.all Instr.fits then .ok ⟨code.toArray, Program.scaleDepth p⟩ else .error .wideArgument

end Brainfuck
