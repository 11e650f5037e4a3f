/-!
# Blanks

The blank characters are those that Unicode counts as white space or as a separator of paragraphs,
sections or records: the six control characters from tab on, the four information separators
U+001C to U+001F, and the spaces.  A zero-width space is not blank.

* `isBlank`: the class.
* `trimEnd`: a text without the blanks at its end.
* `isBlankText`: whether there is nothing but blanks.
-/

namespace Brainfuck.Text

/-- Whether a character is blank. -/
def isBlank (c : Char) : Bool :=
  let n := c.toNat
  (0x09 ≤ n && n ≤ 0x0d) || (0x1c ≤ n && n ≤ 0x20) || n == 0x85 || n == 0xa0 || n == 0x1680 ||
    (0x2000 ≤ n && n ≤ 0x200a) || n == 0x2028 || n == 0x2029 || n == 0x202f || n == 0x205f ||
    n == 0x3000

/-- The text without the blanks at its end. -/
def trimEnd (text : String) : String :=
  String.ofList (text.toList.reverse.dropWhile isBlank).reverse

/-- Whether a text has no other characters than blanks. -/
def isBlankText (text : String) : Bool :=
  text.toList.all isBlank

end Brainfuck.Text
