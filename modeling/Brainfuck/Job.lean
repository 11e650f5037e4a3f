import Brainfuck.Error
import Brainfuck.Log

/-!
# Jobs

A job works on files, writes log lines, and may fail.  What it did before it failed stays
done: the files it has written and the lines it has logged are there whether it fails or not.

* `Workspace`, `Job`: the state of a job, and jobs.
* `Job.log`, `Job.readFile`, `Job.writeFile`, `Job.resolve`: what a job does.
-/

namespace Brainfuck

/-- What a job works on. -/
structure Workspace where
  files : FileSystem
  log : List LogLine

/-- A piece of work that may fail. -/
abbrev Job := ExceptT Error (StateM Workspace)

namespace Job

/-- Writes a line to the log. -/
def log (level : Level) (component : Component) (message : String) : Job Unit :=
  modify fun w => { w with log := w.log ++ [⟨level, component, message⟩] }

/-- Writes a line about details to the log. -/
def debug (component : Component) (message : String) : Job Unit := log .debug component message

/-- Takes a result or fails with its cause. -/
def ofExcept (f : ε → Error) : Except ε α → Job α
  | .ok a => pure a
  | .error e => throw (f e)

/-- Takes a value or fails. -/
def ofOption (e : Error) : Option α → Job α
  | some a => pure a
  | none => throw e

/-- The bytes of a file. -/
def readFile (p : Path) : Job (List UInt8) := do
  ofExcept .ofAccess ((← get).files.read p)

/-- Writes a file. -/
def writeFile (p : Path) (bytes : List UInt8) : Job Unit := do
  let w ← get
  let files ← ofExcept .ofAccess (w.files.write p bytes)
  set { w with files := files }

/-- The absolute form of a path. -/
def resolve (p : Path) : Job Path := do
  ofOption .nullByte ((← get).files.resolve? p)

end Job

end Brainfuck
