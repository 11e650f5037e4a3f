import Brainfuck.Fault
import Brainfuck.Machine

/-!
# Executions

An execution drives a machine through its stops: it writes and reads bytes, grows the tape, and
counts steps.  It runs the machine in batches, and with a step limit no batch may be longer than
what is left of the limit.

A program need not end, so the number of turns is bounded by an argument; running out of turns is
an answer of its own and says nothing about the program.  An execution that ends at all does so
within some number of turns, and more turns do not change how it ends.

An execution whose machine is to read or write where there is no cell has no result.  It ends all the
same, and the index is what is known about it.

* `Limits`: the length of a batch and the step limit.
* `Execution`, `FlatCode.start`: the state of an execution and how it begins.
* `Execution.turn`: one batch and the reaction to its stop.
* `Execution.run`: turns until the end.
* `Execution.trace`: what each batch reported.
-/

namespace Brainfuck

/-- How far an execution may go. -/
structure Limits where
  /-- The number of steps after which the execution is given up, if there is one. -/
  maxSteps : Option Int
  /-- The number of steps in a batch. -/
  batch : Nat
deriving DecidableEq, Repr

namespace Limits

/-- No step limit, in batches of a million. -/
def unlimited : Limits := ⟨none, 1000000⟩

/-- The steps that a batch may take after a number of steps; none if that is negative. -/
def budget (limits : Limits) (steps : Nat) : Int :=
  match limits.maxSteps with
  | none => limits.batch
  | some limit => min limits.batch (limit - steps)

/-- The step limit, if a number of steps has reached it. -/
def reached? (limits : Limits) (steps : Nat) : Option Int :=
  limits.maxSteps.filter (· ≤ steps)

end Limits

/-- What a finished execution leaves. -/
structure Result where
  output : Array UInt8
  /-- The input that was not read. -/
  unread : List UInt8
  tape : Tape
  index : Int
  steps : Nat
  /-- The address of the instruction that faulted. -/
  faultAt : Option Nat
deriving DecidableEq

namespace Result

/-- Whether the execution ended in a fault. -/
def faulted (r : Result) : Bool := r.faultAt.isSome

/-- The exit status. -/
def status (r : Result) : Nat := if r.faulted then faultStatus else 0

/-- The text about the fault, if there was one. -/
def errorText? (r : Result) : Option String := if r.faulted then some faultMessage else none

end Result

/-- How an execution ends. -/
inductive Outcome where
  | finished (r : Result)
  /-- The step limit was reached before the end. -/
  | overLimit (limit : Int) (steps : Nat)
  /-- There is no cell at an index, on a tape of a certain size. -/
  | astray (index : Int) (size steps : Nat)
deriving DecidableEq

/-- The steps that were made. -/
def Outcome.steps : Outcome → Nat
  | finished r => r.steps
  | overLimit _ steps | astray _ _ steps => steps

/-- The state of an execution between two batches. -/
structure Execution where
  machine : Machine
  /-- The input that has not been read. -/
  unread : List UInt8
  /-- The output so far. -/
  written : Array UInt8
  /-- The steps so far. -/
  steps : Nat

/-- The execution of a program from its first instruction, on a tape that is grown if it does not
cover the index. -/
def FlatCode.start (p : FlatCode) (tape : Tape) (index : Int) (input : List UInt8) : Execution where
  machine :=
    { pc := 0
      pointer := index
      tape := if index < tape.size then tape else tape.grow index.toNat
      scales := Array.replicate (max 1 p.slots) 0 }
  unread := input
  written := #[]
  steps := 0

/-- What follows a batch. -/
inductive Turn where
  | ended (o : Outcome)
  | next (e : Execution)

namespace Execution

/-- What remains at the end of an execution. -/
def result (m : Machine) (unread : List UInt8) (written : Array UInt8) (steps : Nat)
    (faultAt : Option Nat) : Result where
  output := written
  unread := unread
  tape := m.tape
  index := m.pointer
  steps := steps
  faultAt := faultAt

/-- How an execution ends that finds no cell at an index. -/
def lost (m : Machine) (steps : Nat) (index : Int) : Outcome := .astray index m.tape.size steps

/-- Reacts to the end of a batch. -/
def react (limits : Limits) (unread : List UInt8) (written : Array UInt8) (steps : Nat)
    (m : Machine) : Stop → Turn
  | .done => .ended (.finished (result m unread written steps none))
  | .fault => .ended (.finished (result m unread written steps (some m.pc)))
  | .output =>
    match m.tape.place? m.pointer with
    | some here => .next ⟨m, unread, written.push (m.tape.get here), steps⟩
    | none => .ended (lost m steps m.pointer)
  | .input =>
    match m.tape.place? m.pointer with
    | some here => .next ⟨m.put here (unread.headD 0), unread.tail, written, steps⟩
    | none => .ended (lost m steps m.pointer)
  | .grow needed => .next ⟨{ m with tape := m.tape.grow needed }, unread, written, steps⟩
  | .budget =>
    match limits.reached? steps with
    | some limit => .ended (.overLimit limit steps)
    | none => .next ⟨m, unread, written, steps⟩
  | .astray index => .ended (lost m steps index)

/-- The batch that comes next. -/
def batch (p : FlatCode) (limits : Limits) (e : Execution) : Report :=
  e.machine.runFor p.code 0 (limits.budget e.steps).toNat

/-- One batch and the reaction to its end. -/
def turn (p : FlatCode) (limits : Limits) : Execution → Turn
  | ⟨m, unread, written, steps⟩ =>
    let report := m.runFor p.code 0 (limits.budget steps).toNat
    react limits unread written (steps + report.steps) report.machine report.stop

/-- Runs to the end, in at most the given number of turns. -/
def run (p : FlatCode) (limits : Limits) : (turns : Nat) → Execution → Option Outcome
  | 0, _ => none
  | turns + 1, e =>
    match e.turn p limits with
    | .ended o => some o
    | .next e => run p limits turns e

end Execution

/-! ## Traces -/

/-- What is recorded of a batch: its report, and the cell under the pointer if there is one. -/
structure TraceEntry where
  pc : Nat
  pointer : Int
  stop : Stop
  steps : Nat
  cell : Option UInt8
deriving DecidableEq, Repr

/-- The record of a batch. -/
def Report.traceEntry (r : Report) : TraceEntry where
  pc := r.machine.pc
  pointer := r.machine.pointer
  stop := r.stop
  steps := r.steps
  cell := r.machine.tape.read? r.machine.pointer

/-- The records of the batches up to the end, in at most the given number of turns, behind those
made already. -/
def Execution.trace (p : FlatCode) (limits : Limits) (seen : Array TraceEntry) :
    (turns : Nat) → Execution → Array TraceEntry
  | 0, _ => seen
  | turns + 1, e =>
    let seen := seen.push (e.batch p limits).traceEntry
    match e.turn p limits with
    | .ended _ => seen
    | .next e => Execution.trace p limits seen turns e

end Brainfuck
