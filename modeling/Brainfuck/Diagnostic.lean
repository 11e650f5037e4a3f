import Brainfuck.Text.Blank
import Brainfuck.Text.Lines
import Brainfuck.Text.Occurrence

/-!
# Diagnostics

A diagnostic about program text shows the lines around a place, numbered, with a mark at the line
itself, and may end in a hint.  A diagnostic about linking shows the command that failed and what
it said.  Hints are found by phrases in the message, whatever its letter case.

* `excerpt`: the numbered lines around a line.
* `Topic.hint?`: the hint that a message calls for.
* `SourceError.at`: a diagnostic about a place in a text.
* `LinkError.of`: a diagnostic about a command that failed.
-/

namespace Brainfuck

/-! ## Excerpts -/

/-- A line of an excerpt: a mark if it is the focus, its number in four columns, its text. -/
def excerptLine (focus : Int) (number : Nat) (text : String) : String :=
  let mark := if (number : Int) = focus then '>' else ' '
  String.ofList (mark :: ' ' :: Text.padLeft ' ' 4 (toString number).toList) ++ " | " ++ text

/-- The lines at most `context` away from a line, or from the first line if that is later. -/
def excerpt (lines : List String) (line context : Int) : String :=
  let focus := max 1 line
  Text.unlines <| (lines.zipIdx 1).filterMap fun (text, number) =>
    if focus - context ≤ number ∧ number ≤ focus + context then
      some (excerptLine focus number text)
    else none

/-- How many lines a diagnostic shows on either side. -/
def excerptMargin : Int := 2

/-! ## Hints -/

/-- Whether a message has a phrase, given in small letters.  Lowering the letters A to Z is enough:
the two other characters whose small form has a letter a to z cannot complete one of the phrases
that are looked for. -/
def mentions (phrase message : String) : Bool :=
  Text.occursIn phrase.toList (message.toList.map Char.toLower)

/-- What a message is about. -/
inductive Topic where
  | parse
  | link
deriving DecidableEq, Repr

namespace Topic

/-- The topic of a name, if it is one that has hints. -/
def ofName? : String → Option Topic
  | "parse" => some parse
  | "link" => some link
  | _ => none

/-- The hint that a message calls for. -/
def hint? (message : String) : Topic → Option String
  | parse =>
    if mentions "unexpected loop end" message then
      some "This \"]\" has no matching \"[\" before it."
    else if mentions "expected loop end" message then
      some "Add a closing \"]\" for this \"[\" (brackets must nest)."
    else none
  | link =>
    if mentions "not found" message || mentions "no such file" message then
      some "Install a C compiler or point --cc / $BFC_CC at one."
    else none

/-- The line with the hint, in front of it a line end; nothing if there is no hint. -/
def hintBlock (topic : Topic) (message : String) : String :=
  match topic.hint? message with
  | some hint => "\nHint: " ++ hint
  | none => ""

end Topic

/-! ## Errors -/

/-- An error at a place in a text. -/
structure SourceError where
  message : String
  line : Int
  column : Int
  excerpt : String
deriving DecidableEq, Repr

/-- The diagnostic about a place in a text. -/
def SourceError.at (message source : String) (line column : Int) : SourceError :=
  let shown := Brainfuck.excerpt (Text.lines source) line excerptMargin
  { message := "ParseError: " ++ message ++ " at " ++ toString line ++ ":" ++ toString column ++
      "\n" ++ shown ++ Topic.parse.hintBlock message
    line := line
    column := column
    excerpt := shown }

/-- A link command that failed. -/
structure LinkError where
  message : String
  command : List String
  stderr : String
deriving DecidableEq, Repr

/-- The diagnostic about a command that failed; what it said is left out when it is blank. -/
def LinkError.of (message : String) (command : List String) (stderr : String) : LinkError :=
  let detail := if Text.isBlankText stderr then "" else "\n" ++ Text.trimEnd stderr
  { message := "LinkError: " ++ message ++ ": " ++ " ".intercalate command ++ detail ++
      Topic.link.hintBlock message
    command := command
    stderr := stderr }

end Brainfuck
