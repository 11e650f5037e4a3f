import Brainfuck.DeltaMap
import Brainfuck.Node

/-!
# Linear code

A sequence is linear when it has only moves and changes of the cell.  One that ends where it
started changes the cells around the pointer by fixed amounts, its delta map.  In the other
direction a delta map can be written out as a linear sequence: visit the offsets from left to
right, change each cell, and go back.

Changes are kept modulo 256, and a change is written by whichever of an increment and a decrement
has the smaller amount.

* `deltas?`: the delta map of a linear sequence that returns.
* `DeltaMap.emit`: a linear sequence with a given delta map.
-/

namespace Brainfuck

/-- Follows a sequence from an offset; none if it is not linear. -/
def walk? (here : Int) (m : DeltaMap) : List Node → Option (Int × DeltaMap)
  | [] => some (here, m)
  | .moveRight n :: p => walk? (here + n) m p
  | .moveLeft n :: p => walk? (here - n) m p
  | .increment n :: p => walk? here (m.adjust here fun d => (d + n) % 256) p
  | .decrement n :: p => walk? here (m.adjust here fun d => (d - n) % 256) p
  | _ => none

/-- The delta map of a sequence; none if it is not linear or does not return. -/
def deltas? (body : List Node) : Option DeltaMap :=
  match walk? 0 .empty body with
  | some (here, m) => if here = 0 then some m else none
  | none => none

/-- A move over a signed distance. -/
def moveBy (distance : Int) : Node :=
  if 0 < distance then .moveRight distance else .moveLeft (-distance)

/-- A change by an amount modulo 256, written the shorter way. -/
def changeBy (delta : Int) : Node :=
  if delta ≤ 256 - delta then .increment delta else .decrement (256 - delta)

namespace DeltaMap

/-- Visits entries in order, starting at an offset, and goes back to offset zero. -/
def emitFrom (here : Int) : List (Int × Int) → List Node
  | [] => if here = 0 then [] else [moveBy (-here)]
  | (offset, delta) :: rest =>
    if offset = here then changeBy delta :: emitFrom offset rest
    else moveBy (offset - here) :: changeBy delta :: emitFrom offset rest

/-- A linear sequence that makes the changes of a map from left to right and returns. -/
def emit (m : DeltaMap) : List Node :=
  emitFrom 0 m.entries

end DeltaMap

end Brainfuck
