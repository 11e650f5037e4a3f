/-!
# The fault

The one way in which a running program fails: it moves to the left of its first cell.  Executions
and compiled programs report it in the same words and with the same exit status.
-/

namespace Brainfuck

/-- The text that is written about a fault. -/
def faultMessage : String := "Error: Cannot move pointer to negative cell!\n"

/-- The exit status after a fault. -/
def faultStatus : Nat := 1

end Brainfuck
