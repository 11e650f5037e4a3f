/-!
# Names

Values and blocks of a function share one space of names.  Every name is made from a stem, the word
that says what it is for; the first name with a stem is the stem itself, and later ones get a
number behind a dot.  No stem has a dot, so a name can be kept as its stem and its number.

An instruction whose value nobody uses takes a name all the same, with the empty stem.  The empty
text is no name, so the numbers of this stem start at one; and one is taken by the function itself.

* `Stem`, `Name`, `Name.text`: names and how they are written.
* `NameTable.take`: a fresh name with a given stem.
-/

namespace Brainfuck.IR

/-- What a name is for. -/
inductive Stem where
  -- the state of a run, and what `main` allocates for it
  | cells
  | cellsLength
  | currentCell
  | inputBuffer
  | initialCells
  -- values
  | load
  | currentCellPtr
  | incrementedCurrentCell
  | decrementedCurrentCell
  | multiplier
  | multipliedAmount
  | extendedCurrentCellValue
  | stdout
  | stderr
  | errorString
  | returnValue
  -- conditions
  | returnWithError
  | continueLoop
  | hasMultiplier
  -- blocks
  | entry
  | error
  | moveLeft
  | loop
  | thenBlock
  | merge
  | continueBlock
  | multiply
  | multiplyDone
  | returnBlock
  /-- A value that is not used. -/
  | unused
deriving DecidableEq, Hashable, Repr

/-- The word of a stem. -/
def Stem.text : Stem → String
  | cells => "cells"
  | cellsLength => "cellsLength"
  | currentCell => "currentCell"
  | inputBuffer => "inputBuffer"
  | initialCells => "initialCells"
  | load => "load"
  | currentCellPtr => "currentCellPtr"
  | incrementedCurrentCell => "incrementedCurrentCell"
  | decrementedCurrentCell => "decrementedCurrentCell"
  | multiplier => "multiplier"
  | multipliedAmount => "multipliedAmount"
  | extendedCurrentCellValue => "extendedCurrentCellValue"
  | stdout => "stdout"
  | stderr => "stderr"
  | errorString => "errorString"
  | returnValue => "returnValue"
  | returnWithError => "returnWithError"
  | continueLoop => "continueLoop"
  | hasMultiplier => "hasMultiplier"
  | entry => "entry"
  | error => "error"
  | moveLeft => "moveLeft"
  | loop => "loop"
  | thenBlock => "then"
  | merge => "merge"
  | continueBlock => "continue"
  | multiply => "multiply"
  | multiplyDone => "multiplyDone"
  | returnBlock => "return"
  | unused => ""

/-- A stem and how many names with it came before. -/
structure Name where
  stem : Stem
  copy : Nat
deriving DecidableEq, Hashable, Repr

/-- How a name is written. -/
def Name.text (n : Name) : String :=
  if n.copy = 0 then n.stem.text else n.stem.text ++ "." ++ toString n.copy

/-- How many names have been taken with each stem. -/
structure NameTable where
  counts : List (Stem × Nat)

namespace NameTable

/-- The table of a function before its first block. -/
def start : NameTable := ⟨[(.unused, 2)]⟩

/-- The number of names with a stem. -/
def count (t : NameTable) (s : Stem) : Nat :=
  (t.counts.lookup s).getD 0

/-- Counts one more name with a stem. -/
def bump (s : Stem) : List (Stem × Nat) → List (Stem × Nat)
  | [] => [(s, 1)]
  | (r, n) :: rest => if r = s then (r, n + 1) :: rest else (r, n) :: bump s rest

/-- Takes the next name with a stem. -/
def take (t : NameTable) (s : Stem) : Name × NameTable :=
  (⟨s, t.count s⟩, ⟨bump s t.counts⟩)

end NameTable

end Brainfuck.IR
