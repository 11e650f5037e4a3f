/-!
# Commands and tokens

Program text has eight command characters; every other character is a comment.  A token is a
command with the place where it stands.  Lines and columns count from one, a column is one
character, and only the newline character starts a new line, so a comment moves the column and a
carriage return is a comment like any other.

* `Command`, `Command.char`, `Command.ofChar?`: the commands and their characters.
* `Token.scan`: the tokens of a text, in order.
-/

namespace Brainfuck

/-- The eight commands. -/
inductive Command where
  | right
  | left
  | plus
  | minus
  | output
  | input
  | loopStart
  | loopEnd
deriving DecidableEq, Repr

namespace Command

/-- The character that a command is written with. -/
def char : Command → Char
  | right => '>'
  | left => '<'
  | plus => '+'
  | minus => '-'
  | output => '.'
  | input => ','
  | loopStart => '['
  | loopEnd => ']'

/-- The command that a character stands for; none for a comment. -/
def ofChar? : Char → Option Command
  | '>' => some right
  | '<' => some left
  | '+' => some plus
  | '-' => some minus
  | '.' => some output
  | ',' => some input
  | '[' => some loopStart
  | ']' => some loopEnd
  | _ => none

/-- A command is read from its own character. -/
@[simp] theorem ofChar?_char (k : Command) : ofChar? k.char = some k := by
  cases k <;> rfl

/-- Only a command's own character is read as the command. -/
theorem char_of_ofChar? {c : Char} {k : Command} (h : ofChar? c = some k) : k.char = c := by
  unfold ofChar? at h
  split at h <;> cases h <;> rfl

end Command

/-- A place in a text, both parts counted from one. -/
structure Position where
  line : Nat
  column : Nat
deriving DecidableEq, Repr

namespace Position

/-- The place of a text's first character. -/
def start : Position := ⟨1, 1⟩

/-- The place after a character that stands here. -/
def after (p : Position) (c : Char) : Position :=
  if c = '\n' then ⟨p.line + 1, 1⟩ else ⟨p.line, p.column + 1⟩

end Position

/-- A command and the place where it stands. -/
structure Token where
  command : Command
  position : Position
deriving DecidableEq, Repr

namespace Token

/-- The tokens of a text whose first character stands at the given place. -/
def scanFrom (p : Position) : List Char → List Token
  | [] => []
  | c :: cs =>
    match Command.ofChar? c with
    | some k => ⟨k, p⟩ :: scanFrom (p.after c) cs
    | none => scanFrom (p.after c) cs

/-- The tokens of a text. -/
def scan (source : String) : List Token :=
  scanFrom Position.start source.toList

end Token

end Brainfuck
