import Brainfuck.Text.Lines
import Brainfuck.Text.Visible

/-!
# Quoted texts

Messages quote a text so that it can be read back: between apostrophes, or between double quotes
when the text holds an apostrophe and no double quote.  Inside, the mark itself and the backslash
get a backslash in front, tab and line ends have their letters, and a character that does not show
itself is written by its code point in two, four or eight hexadecimal digits.

* `mark`: the quotation mark that a text takes.
* `quote`: the quoted text.
-/

namespace Brainfuck.Text

/-- The quotation mark of a text. -/
def mark (cs : List Char) : Char :=
  if cs.contains '\x27' && !cs.contains '\x22' then '\x22' else '\x27'

/-- A code point in at least the given number of hexadecimal digits. -/
def hexadecimal (width n : Nat) : List Char :=
  padLeft '0' width (Nat.toDigits 16 n)

/-- How a character is written between two of the given marks. -/
def escape (mark : Char) (c : Char) : List Char :=
  if c == mark || c == '\x5c' then ['\x5c', c]
  else if c == '\t' then ['\x5c', 't']
  else if c == '\n' then ['\x5c', 'n']
  else if c == '\r' then ['\x5c', 'r']
  else if isVisible c then [c]
  else if c.toNat < 0x100 then '\x5c' :: 'x' :: hexadecimal 2 c.toNat
  else if c.toNat < 0x10000 then '\x5c' :: 'u' :: hexadecimal 4 c.toNat
  else '\x5c' :: 'U' :: hexadecimal 8 c.toNat

/-- The text between quotation marks. -/
def quote (text : String) : String :=
  let cs := text.toList
  let m := mark cs
  String.ofList (m :: cs.flatMap (escape m) ++ [m])

end Brainfuck.Text
