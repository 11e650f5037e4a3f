/-!
# Values of options

An option that takes a value normally has one.  The separator is no value, though: an option that is
given a separator in the place of its value has been given, and has none.  It then overrides what was
said before, and whoever needs the value has to do without.

* `Given`: the value of an option, or nothing.
-/

namespace Brainfuck

/-- What an option was given. -/
inductive Given (α : Type) where
  | value (a : α)
  /-- A separator stood in the place of the value. -/
  | nothing
deriving DecidableEq, Repr

/-- How it is shown: a missing value as an empty list. -/
def Given.show (f : α → String) : Given α → String
  | value a => f a
  | nothing => "[]"

/-- The value, if there is one. -/
def Given.value? : Given α → Option α
  | value a => some a
  | nothing => none

end Brainfuck
