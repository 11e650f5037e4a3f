/-!
# Lines of a text

Only the newline character ends a line, so a text with `n` newlines has `n + 1` lines, and the
empty text has one empty line.  Text from a file has its line ends unified first.

* `lines`: the lines of a text.
* `unifyLineEnds`: every carriage return, with the newline after it if there is one, becomes one
  newline.
* `padLeft`: blanks in front up to a width.
-/

namespace Brainfuck.Text

/-- The first line of a text and the lines after it. -/
def breakLines : List Char → List Char × List (List Char)
  | [] => ([], [])
  | c :: cs =>
    let (line, rest) := breakLines cs
    if c = '\n' then ([], line :: rest) else (c :: line, rest)

/-- The lines of a text, at least one. -/
def lines (text : String) : List String :=
  let (line, rest) := breakLines text.toList
  (line :: rest).map String.ofList

/-- A text whose lines are the given ones. -/
def unlines (ls : List String) : String :=
  "\n".intercalate ls

/-- Turns `\r\n` and a lone `\r` into `\n`. -/
def unifyLineEnds : List Char → List Char
  | '\r' :: '\n' :: cs => '\n' :: unifyLineEnds cs
  | '\r' :: cs => '\n' :: unifyLineEnds cs
  | c :: cs => c :: unifyLineEnds cs
  | [] => []

/-- Puts fill characters in front of a text up to a width. -/
def padLeft (fill : Char) (width : Nat) (cs : List Char) : List Char :=
  List.replicate (width - cs.length) fill ++ cs

end Brainfuck.Text
