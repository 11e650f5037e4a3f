/-!
# Occurrences of a phrase

* `occursIn`: whether one text stands somewhere in another.
-/

namespace Brainfuck.Text

/-- Whether the first text stands somewhere in the second. -/
def occursIn (phrase : List Char) : List Char → Bool
  | [] => phrase.isEmpty
  | c :: cs => phrase.isPrefixOf (c :: cs) || occursIn phrase cs

end Brainfuck.Text
