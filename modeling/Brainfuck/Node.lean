/-!
# Instruction trees

A program is a list of nodes.  The first seven kinds are what program text can say: moves, changes
of the current cell, output, input and loops.  The next six are the idioms that a loop can be
replaced by: scans, clearing, a scaled body, and carrying a value to another cell.

Two choices are worth knowing.  Direction lives in the constructor and amounts are unbounded
integers, so a tree may hold any amount, negative ones included; what a pass makes of such an
amount is stated at that pass.  And a tree may hold values that are not instructions, since trees are
also built by hand: values of another kind altogether (`Node.foreign`), and values of a class of their
own that is derived from that of an instruction (`Node.derived`).  The latter are instances of the
instruction too, and it is up to a pass whether that is enough: some ask what a value is an instance
of, others ask for the very class.  Either way a pass refuses what it does not take, by name.

* `Node`, `Program`: the trees, with decidable equality.
* `Node.isInstruction`, `Node.isInstance`: whether a node is of the class of an instruction, and whether
  it is an instance of one.
* `Node.plain`: the instruction that a node is an instance of.
* `Program.size`: the number of nodes, nested bodies included.
* `Node.kind`: the word by which listings and log lines call a node.
-/

namespace Brainfuck

/-- A value that is no instruction. -/
inductive Foreign where
  | text (s : String)
  | number (n : Int)
  | truth (b : Bool)
  | nothing
deriving DecidableEq, Repr

/-- One instruction of a tree. -/
inductive Node where
  /-- Move the pointer to the right. -/
  | moveRight (amount : Int)
  /-- Move the pointer to the left; leaving the tape is a fault. -/
  | moveLeft (amount : Int)
  /-- Add to the current cell, modulo 256. -/
  | increment (amount : Int)
  /-- Subtract from the current cell, modulo 256. -/
  | decrement (amount : Int)
  /-- Write the current cell. -/
  | output
  /-- Read a byte into the current cell. -/
  | input
  /-- Run the body as long as the current cell is not zero. -/
  | loop (body : List Node)
  /-- Move right in steps to the first zero cell. -/
  | scanRight (step : Int)
  /-- Move left in steps to the first zero cell. -/
  | scanLeft (step : Int)
  /-- Set the current cell to zero. -/
  | clear
  /-- Run the body with its own changes multiplied by the current cell, then clear. -/
  | scaled (body : List Node)
  /-- Add the current cell to one on the right, then clear it. -/
  | carryRight (distance : Int)
  /-- Add the current cell to one on the left, then clear it. -/
  | carryLeft (distance : Int)
  /-- A value that is no instruction. -/
  | foreign (value : Foreign)
  /-- A value whose class has a name of its own and is derived from that of another node. -/
  | derived (name : String) (base : Node)
deriving Inhabited, Repr

/-- A program is a sequence of instructions. -/
abbrev Program := List Node

/-! ## Equality

Trees nest through lists, so the test is a pair of functions, one on nodes and one on bodies. -/

mutual

/-- Whether two nodes are equal. -/
def Node.same : Node → Node → Bool
  | .moveRight m, .moveRight n => m == n
  | .moveLeft m, .moveLeft n => m == n
  | .increment m, .increment n => m == n
  | .decrement m, .decrement n => m == n
  | .output, .output => true
  | .input, .input => true
  | .loop p, .loop q => Node.sameBody p q
  | .scanRight m, .scanRight n => m == n
  | .scanLeft m, .scanLeft n => m == n
  | .clear, .clear => true
  | .scaled p, .scaled q => Node.sameBody p q
  | .carryRight m, .carryRight n => m == n
  | .carryLeft m, .carryLeft n => m == n
  | .foreign v, .foreign w => v == w
  | .derived s a, .derived t b => s == t && a.same b
  | _, _ => false

/-- Whether two bodies are equal. -/
def Node.sameBody : List Node → List Node → Bool
  | [], [] => true
  | a :: p, b :: q => a.same b && Node.sameBody p q
  | _, _ => false

end

mutual

theorem Node.same_iff : (a b : Node) → (a.same b = true ↔ a = b)
  | .moveRight _, b => by cases b <;> simp [Node.same]
  | .moveLeft _, b => by cases b <;> simp [Node.same]
  | .increment _, b => by cases b <;> simp [Node.same]
  | .decrement _, b => by cases b <;> simp [Node.same]
  | .output, b => by cases b <;> simp [Node.same]
  | .input, b => by cases b <;> simp [Node.same]
  | .loop p, b => by cases b <;> simp [Node.same, Node.sameBody_iff p]
  | .scanRight _, b => by cases b <;> simp [Node.same]
  | .scanLeft _, b => by cases b <;> simp [Node.same]
  | .clear, b => by cases b <;> simp [Node.same]
  | .scaled p, b => by cases b <;> simp [Node.same, Node.sameBody_iff p]
  | .carryRight _, b => by cases b <;> simp [Node.same]
  | .carryLeft _, b => by cases b <;> simp [Node.same]
  | .foreign _, b => by cases b <;> simp [Node.same]
  | .derived _ a, b => by cases b <;> simp [Node.same, Node.same_iff a]

theorem Node.sameBody_iff : (p q : List Node) → (Node.sameBody p q = true ↔ p = q)
  | [], q => by cases q <;> simp [Node.sameBody]
  | a :: p, q => by cases q <;> simp [Node.sameBody, Node.same_iff a, Node.sameBody_iff p]

end

instance : DecidableEq Node := fun a b => decidable_of_iff _ (Node.same_iff a b)

/-! ## Classes -/

namespace Node

/-- Whether a node is of the class of an instruction. -/
def isInstruction : Node → Bool
  | .foreign _ | .derived _ _ => false
  | _ => true

/-- Whether a node is an instance of an instruction. -/
def isInstance : Node → Bool
  | .foreign _ => false
  | .derived _ base => base.isInstance
  | _ => true

/-- The instruction that a node is an instance of. -/
def plain : Node → Node
  | .derived _ base => base.plain
  | n => n

/-- Whether a node has a body. -/
def hasBody : Node → Bool
  | .loop _ | .scaled _ => true
  | .derived _ base => base.hasBody
  | _ => false

end Node

/-! ## Size and names -/

mutual

/-- The number of nodes of a node, itself included. -/
def Node.size : Node → Nat
  | .loop body => 1 + Program.size body
  | .scaled body => 1 + Program.size body
  | .derived _ base => base.size
  | _ => 1

/-- The number of nodes of a program, nested bodies included. -/
def Program.size : List Node → Nat
  | [] => 0
  | n :: p => n.size + Program.size p

end

/-- The word for a value that is no instruction. -/
def Foreign.kind : Foreign → String
  | .text _ => "str"
  | .number _ => "int"
  | .truth _ => "bool"
  | .nothing => "NoneType"

/-- The word for a node. -/
def Node.kind : Node → String
  | .moveRight _ => "MoveRight"
  | .moveLeft _ => "MoveLeft"
  | .increment _ => "Increment"
  | .decrement _ => "Decrement"
  | .output => "Output"
  | .input => "Input"
  | .loop _ => "Loop"
  | .scanRight _ => "MoveRightUntilZero"
  | .scanLeft _ => "MoveLeftUntilZero"
  | .clear => "SetToZero"
  | .scaled _ => "WithMultiplier"
  | .carryRight _ => "MoveValueRight"
  | .carryLeft _ => "MoveValueLeft"
  | .foreign v => v.kind
  | .derived name _ => name

end Brainfuck
