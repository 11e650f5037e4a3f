import Brainfuck.Program.Linear

/-!
# Loop idioms

Some loops have a closed form.  A loop around a single move is a scan; a loop around a single
increment or decrement by one clears the cell.  A linear loop that takes exactly one from its own
cell runs as often as the cell says, so its other changes are made once, multiplied by the cell:
that is a clear if there are none, carrying the value if there is one by exactly one, and a scaled
body otherwise.

Bodies come before the loops around them, so a loop is looked at with its body in final form.  A
body of one node is matched against the table of single nodes only, any other body only as a
linear one.  The tables are about instructions, and a node is looked up as the instruction that it is
an instance of.

* `singleIdiom?`, `linearIdiom?`: the two tables.
* `Program.optimize`: replaces every loop that has an idiom; refuses what is no instance of an
  instruction.
* `Program.unrollings`: the linear loops that were replaced, inner ones first.
-/

namespace Brainfuck

/-- The idiom of a loop around one node. -/
def singleIdiom? : Node → Option Node
  | .moveRight n => some (.scanRight n)
  | .moveLeft n => some (.scanLeft n)
  | .increment n => if n = 1 then some .clear else none
  | .decrement n => if n = 1 then some .clear else none
  | _ => none

/-- The idiom of a loop that takes one from its own cell and makes the given other changes. -/
def multiplyIdiom (others : DeltaMap) : Node :=
  match others.entries with
  | [] => .clear
  | [(offset, 1)] => if 0 < offset then .carryRight offset else .carryLeft (-offset)
  | _ => .scaled others.emit

/-- The idiom of a linear loop that takes one from its own cell. -/
def linearIdiom? (body : List Node) : Option Node :=
  match deltas? body with
  | some m =>
    if m.get 0 = 255 then
      some (multiplyIdiom (m.filter fun offset delta => offset != 0 && delta != 0))
    else none
  | none => none

/-- The idiom of a loop whose body is in final form. -/
def loopIdiom? : List Node → Option Node
  | [n] => singleIdiom? n
  | body => linearIdiom? body

/-- A loop in final form, given its body in final form. -/
def closeLoop (body : List Node) : Node :=
  (loopIdiom? (body.map Node.plain)).getD (.loop body)

mutual

/-- A node with every loop in final form.  A node of a derived class stays what it is, unless it has a
body. -/
def Node.optimize : Node → Except Node Node
  | .loop body => do return closeLoop (← Program.optimize body)
  | .scaled body => do return .scaled (← Program.optimize body)
  | .foreign v => .error (.foreign v)
  | .derived name base =>
    if base.hasBody then base.optimize
    else if base.isInstance then .ok (.derived name base)
    else .error (.derived name base)
  | n => .ok n

/-- A program with every loop in final form. -/
def Program.optimize : List Node → Except Node (List Node)
  | [] => .ok []
  | n :: p => do
    let n ← n.optimize
    let p ← Program.optimize p
    return n :: p

end

/-! ## Which linear loops were replaced -/

/-- A linear loop that was replaced: the length of its body and what stands for it. -/
structure Unrolling where
  length : Nat
  idiom : Node

/-- The replacement of a loop with the given final body, unless the body is a single node. -/
def unrolling? : List Node → Option Unrolling
  | [_] => none
  | body => (linearIdiom? (body.map Node.plain)).map (⟨body.length, ·⟩)

mutual

/-- The linear loops replaced in a node, inner ones first. -/
def Node.unrollings : Node → List Unrolling
  | .loop body =>
    Program.unrollings body ++
      match Program.optimize body with
      | .ok body => (unrolling? body).toList
      | .error _ => []
  | .scaled body => Program.unrollings body
  | .derived _ base => base.unrollings
  | _ => []

/-- The linear loops replaced in a program, in order and inner ones first. -/
def Program.unrollings : List Node → List Unrolling
  | [] => []
  | n :: p => n.unrollings ++ Program.unrollings p

end

end Brainfuck
