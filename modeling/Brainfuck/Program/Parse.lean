import Brainfuck.Diagnostic
import Brainfuck.Node
import Brainfuck.Token

/-!
# From text to trees

The tokens are read one after the other.  What has been read so far of the innermost unfinished
sequence is kept latest first, so that a move or a change of the cell meets its predecessor: of two
equal commands in a row the second is added to the node of the first.  A comment makes no token and
so does not end a run, while a bracket starts another sequence and does.

Moves count without bound.  Changes of the cell count modulo 256, and a run whose length is a
multiple of 256 leaves a node with amount zero.

* `Reading`: the state of the reader, a stack of unfinished loops.
* `BracketError`: a bracket without its partner.
* `Program.parse`: the tree of a text.
-/

namespace Brainfuck

/-- Adds one more move to the right to the nodes read so far, latest first. -/
def foldRight : List Node → List Node
  | .moveRight n :: done => .moveRight (n + 1) :: done
  | done => .moveRight 1 :: done

/-- Adds one more move to the left. -/
def foldLeft : List Node → List Node
  | .moveLeft n :: done => .moveLeft (n + 1) :: done
  | done => .moveLeft 1 :: done

/-- Adds one more increment. -/
def foldPlus : List Node → List Node
  | .increment n :: done => .increment ((n + 1) % 256) :: done
  | done => .increment 1 :: done

/-- Adds one more decrement. -/
def foldMinus : List Node → List Node
  | .decrement n :: done => .decrement ((n + 1) % 256) :: done
  | done => .decrement 1 :: done

/-- A loop whose end has not been read: the nodes in front of it, latest first, and the place of
its bracket. -/
structure OpenLoop where
  before : List Node
  bracket : Position

/-- A bracket without its partner. -/
inductive BracketError where
  /-- A closing bracket with no open loop. -/
  | unexpectedEnd (position : Position)
  /-- A loop that is still open at the end of the text. -/
  | missingEnd (position : Position)
deriving DecidableEq, Repr

namespace BracketError

/-- What is wrong. -/
def message : BracketError → String
  | unexpectedEnd _ => "unexpected loop end"
  | missingEnd _ => "expected loop end for start"

/-- Where it is wrong. -/
def position : BracketError → Position
  | unexpectedEnd p => p
  | missingEnd p => p

/-- The diagnostic about the text. -/
def diagnose (e : BracketError) (source : String) : SourceError :=
  SourceError.at e.message source e.position.line e.position.column

end BracketError

/-- The state of the reader: unfinished loops, innermost first, and the nodes read so far of the
innermost sequence, latest first. -/
structure Reading where
  loops : List OpenLoop
  done : List Node

namespace Reading

/-- Nothing has been read. -/
def start : Reading := ⟨[], []⟩

/-- Reads one token. -/
def step (r : Reading) (t : Token) : Except BracketError Reading :=
  match t.command with
  | .right => .ok { r with done := foldRight r.done }
  | .left => .ok { r with done := foldLeft r.done }
  | .plus => .ok { r with done := foldPlus r.done }
  | .minus => .ok { r with done := foldMinus r.done }
  | .output => .ok { r with done := .output :: r.done }
  | .input => .ok { r with done := .input :: r.done }
  | .loopStart => .ok ⟨⟨r.done, t.position⟩ :: r.loops, []⟩
  | .loopEnd =>
    match r.loops with
    | [] => .error (.unexpectedEnd t.position)
    | outer :: loops => .ok ⟨loops, .loop r.done.reverse :: outer.before⟩

/-- The program, if no loop is open. -/
def finish (r : Reading) : Except BracketError Program :=
  match r.loops with
  | [] => .ok r.done.reverse
  | innermost :: _ => .error (.missingEnd innermost.bracket)

end Reading

namespace Program

/-- The program of a list of tokens. -/
def ofTokens (tokens : List Token) : Except BracketError Program := do
  (← tokens.foldlM Reading.step Reading.start).finish

/-- The program that a text says. -/
def parse (source : String) : Except BracketError Program :=
  ofTokens (Token.scan source)

end Program

end Brainfuck
