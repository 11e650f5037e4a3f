import Brainfuck.Node
import Brainfuck.Text.Lines

/-!
# Listings

A listing prints a tree with one node on a line and two blanks for each level of nesting.  A node
with an amount shows it in parentheses, and a body stands between a line that opens a parenthesis
and a line that closes it.  An empty body takes no line of its own, and a negative indentation
counts as none.

* `Program.listing`: the lines.
* `Program.render`: the text.
-/

namespace Brainfuck

/-- The number that a node shows in parentheses. -/
def Node.amount? : Node → Option Int
  | .moveRight n | .moveLeft n | .increment n | .decrement n | .scanRight n | .scanLeft n
  | .carryRight n | .carryLeft n => some n
  | .derived _ base => base.amount?
  | _ => none

/-- The blanks in front of a line. -/
def indentation (level : Int) : String :=
  String.ofList (List.replicate (2 * level.toNat) ' ')

mutual

/-- The lines of a node, by a word for its class. -/
def Node.listing (level : Int) (word : String) : Node → List String
  | .loop body | .scaled body =>
    (indentation level ++ word ++ "(") :: Program.listing (level + 1) body ++
      [indentation level ++ ")"]
  | .derived _ base => base.listing level word
  | n =>
    match n.amount? with
    | some amount => [indentation level ++ word ++ "(" ++ toString amount ++ ")"]
    | none => [indentation level ++ word]

/-- The lines of a program. -/
def Program.listing (level : Int) : List Node → List String
  | [] => []
  | n :: p => n.listing level n.kind ++ Program.listing level p

end

/-- The listing of a program as one text. -/
def Program.render (level : Int) (p : Program) : String :=
  Text.unlines (Program.listing level p)

end Brainfuck
