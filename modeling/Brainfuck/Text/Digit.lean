import Brainfuck.Text.Blank

/-!
# Decimal digits

Every script with decimal digits has ten of them in a row, from zero to nine, so the class is given
by the code points of the zeros (Unicode 14).

A number is written with such digits, of any script.  There may be a sign in front, single low lines
between digits, and blanks around; the information separators U+001C to U+001F are no blanks here.  A
number of too many digits is not read at all.

* `digit?`, `isDigit`: the class.
* `readInt?`: the number that a text says.
-/

namespace Brainfuck.Text

/-- The code points of the digits for zero. -/
def zeroDigits : List Nat :=
  [0x30, 0x660, 0x6f0, 0x7c0, 0x966, 0x9e6, 0xa66, 0xae6, 0xb66, 0xbe6, 0xc66, 0xce6, 0xd66, 0xde6,
    0xe50, 0xed0, 0xf20, 0x1040, 0x1090, 0x17e0, 0x1810, 0x1946, 0x19d0, 0x1a80, 0x1a90, 0x1b50,
    0x1bb0, 0x1c40, 0x1c50, 0xa620, 0xa8d0, 0xa900, 0xa9d0, 0xa9f0, 0xaa50, 0xabf0, 0xff10, 0x104a0,
    0x10d30, 0x11066, 0x110f0, 0x11136, 0x111d0, 0x112f0, 0x11450, 0x114d0, 0x11650, 0x116c0,
    0x11730, 0x118e0, 0x11950, 0x11c50, 0x11d50, 0x11da0, 0x16a60, 0x16ac0, 0x16b50, 0x1d7ce,
    0x1d7d8, 0x1d7e2, 0x1d7ec, 0x1d7f6, 0x1e140, 0x1e2f0, 0x1e950, 0x1fbf0]

/-- The value of a decimal digit. -/
def digit? (c : Char) : Option Nat :=
  (zeroDigits.find? fun first => first ≤ c.toNat && c.toNat < first + 10).map (c.toNat - ·)

/-- Whether a character is a decimal digit. -/
def isDigit (c : Char) : Bool := (digit? c).isSome

/-- Reads digits behind a digit, `n` being the number so far. -/
def readDigits? (n : Nat) : List Char → Option Nat
  | [] => some n
  | '_' :: c :: cs =>
    match digit? c with
    | some d => readDigits? (10 * n + d) cs
    | none => none
  | c :: cs =>
    match digit? c with
    | some d => readDigits? (10 * n + d) cs
    | none => none

/-- The greatest number of digits that is read. -/
def maxDigits : Nat := 4300

/-- The number that digits say; there has to be one, and there may not be too many. -/
def readNat? : List Char → Option Nat
  | [] => none
  | c :: cs =>
    if maxDigits < (c :: cs).countP isDigit then none
    else
      match digit? c with
      | some d => readDigits? d cs
      | none => none

/-- Whether a character may stand around a number. -/
def isMargin (c : Char) : Bool :=
  isBlank c && !(0x1c ≤ c.toNat && c.toNat ≤ 0x1f)

/-- The number that a text says. -/
def readInt? (text : String) : Option Int :=
  match ((text.toList.dropWhile isMargin).reverse.dropWhile isMargin).reverse with
  | '-' :: cs => (readNat? cs).map fun n => -n
  | '+' :: cs => (readNat? cs).map Int.ofNat
  | cs => (readNat? cs).map Int.ofNat

end Brainfuck.Text
