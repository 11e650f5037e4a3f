import Brainfuck.FlatCode
import Brainfuck.Tape

/-!
# The machine

A machine runs flat code on a tape.  It works by itself until it needs something from outside:
a byte to be written or read, more tape, or a decision about a fault.  It then stops with its
registers in a state from which it can go on.

What makes stopping safe is the order of things inside an instruction.  An instruction that needs
more tape asks for it before it has written anything, and keeps its address, so after the tape has
grown it is simply run again.  A scan to the right that reaches the end keeps what it has scanned:
it stops with the pointer on the first cell that is missing, and finds that cell zero when it is run
again.

Every start of an instruction is one step, also when it asks for more tape.  A batch is a run of at
most a given number of steps.

The pointer is a signed word, and sums of it are not checked: one that is too great comes out
negative, is taken for an index all the same, and names a cell counted from the end or none at all.
A machine that is to read or write where there is no cell cannot go on.

* `Machine`, `Effect`, `Machine.exec`: the registers, and what one instruction does to them.
* `Scan`, `Tape.seekRight`, `Tape.seekLeft`: scans with indices in registers.
* `Stop`, `Report`, `Machine.runFor`: a batch and why it ended.
-/

namespace Brainfuck

/-- The registers of a machine. -/
structure Machine where
  /-- The address of the next instruction. -/
  pc : Nat
  /-- The index of the current cell. -/
  pointer : Int
  tape : Tape
  /-- The scale registers. -/
  scales : Array UInt8

/-- What an instruction does: the registers after it, and what is needed from outside. -/
inductive Effect where
  | next (m : Machine)
  /-- The current cell is to be written. -/
  | output (m : Machine)
  /-- The current cell is to be read. -/
  | input (m : Machine)
  /-- The tape has to cover an index before the instruction can run. -/
  | grow (needed : Nat) (m : Machine)
  /-- The pointer would have left the tape. -/
  | fault (m : Machine)
  /-- There is no cell at an index. -/
  | astray (index : Int) (m : Machine)

/-! ## Scans -/

/-- How a scan ends. -/
inductive Scan where
  /-- On a zero cell. -/
  | found (index : Int)
  /-- With a step past the end of the tape. -/
  | past (index : Int)
  /-- With a step that would go to the left of the first cell. -/
  | before
  /-- Where there is no cell. -/
  | astray (index : Int)
  /-- Not at all: the cell is not zero, and there is no step to another. -/
  | endless
deriving DecidableEq, Repr

namespace Tape

/-- The distance that a scan with a step still has to the end of the tape that it goes to. -/
def ahead (t : Tape) (step i : Int) : Nat :=
  (if 0 < t.wrap step then t.size - i else t.size + i).toNat

/-- An index that is reached by a step, and named by a cell again, is nearer to the end. -/
theorem ahead_lt {t : Tape} {step i : Int} {here there : Nat} (hi : t.place? i = some here)
    (hnext : t.place? (t.wrap (i + step)) = some there) (hne : t.wrap (i + step) ≠ i) :
    t.ahead step (t.wrap (i + step)) < t.ahead step i := by
  have hi := place?_eq_some hi
  have hnext := place?_eq_some hnext
  unfold ahead
  rcases t.wrap_cases step with ⟨hsize, hlow, hhigh, j, hj⟩ | ⟨hsize, hstep⟩
  · rcases t.wrap_cases (i + step) with ⟨-, hlow', hhigh', k, hk⟩ | ⟨hsize', -⟩
    · split <;> omega
    · omega
  · rcases t.wrap_cases (i + step) with ⟨hsize', -⟩ | ⟨-, hsum⟩
    · omega
    · split <;> omega

/-- A scan to the right from an index. -/
def seekRight (t : Tape) (step i : Int) : Scan :=
  match _hi : t.place? i with
  | none => .astray i
  | some here =>
    if t.get here = 0 then .found i
    else if t.size ≤ t.wrap (i + step) then .past (t.wrap (i + step))
    else
      match _hnext : t.place? (t.wrap (i + step)) with
      | none => .astray (t.wrap (i + step))
      | some _ =>
        if t.wrap (i + step) = i then .endless else t.seekRight step (t.wrap (i + step))
termination_by t.ahead step i
decreasing_by exact ahead_lt _hi _hnext ‹_›

/-- A scan to the left from an index. -/
def seekLeft (t : Tape) (step i : Int) : Scan :=
  match _hi : t.place? i with
  | none => .astray i
  | some here =>
    if t.get here = 0 then .found i
    else if i < step then .before
    else
      match _hnext : t.place? (t.wrap (i - step)) with
      | none => .astray (t.wrap (i - step))
      | some _ =>
        if t.wrap (i - step) = i then .endless else t.seekLeft step (t.wrap (i - step))
termination_by t.ahead (-step) i
decreasing_by
  rw [Int.sub_eq_add_neg] at *
  exact ahead_lt _hi _hnext ‹_›

end Tape

/-! ## Instructions -/

namespace Machine

/-- Goes on to the next instruction. -/
def advance (m : Machine) : Machine := { m with pc := m.pc + 1 }

/-- Writes a cell. -/
def put (m : Machine) (place : Nat) (v : UInt8) : Machine :=
  { m with tape := m.tape.set place v }

/-- The factor by which a change is multiplied. -/
def factor (m : Machine) : Option Nat → UInt8
  | none => 1
  | some slot => m.scales.getD slot 0

/-- Adds a cell to another one and clears it. -/
def carry (m : Machine) (source target : Nat) : Machine :=
  let t := m.tape
  { m with tape := (t.set target (t.get target + t.get source)).set source 0 }

/-- Does something with the cell at an index, if there is one. -/
@[inline] def touch (m : Machine) (index : Int) (act : Nat → Effect) : Effect :=
  match m.tape.place? index with
  | some place => act place
  | none => .astray index m

/-- What the end of a scan comes to.  A scan that has no end is started over and over. -/
def land (m : Machine) : Scan → Effect
  | .found index => .next { m with pc := m.pc + 1, pointer := index }
  | .past index => .grow index.toNat { m with pointer := index }
  | .before => .fault m
  | .astray index => .astray index m
  | .endless => .next m

/-- Runs one instruction. -/
def exec (i : Instr) (m : Machine) : Effect :=
  match i with
  | .right n =>
    let target := m.tape.wrap (m.pointer + n)
    if target < m.tape.size then .next { m with pc := m.pc + 1, pointer := target }
    else .grow target.toNat m
  | .left n =>
    if m.pointer < n then .fault m
    else
      let target := m.tape.wrap (m.pointer - n)
      .next { m with pc := m.pc + 1, pointer := target }
  | .add n slot =>
    m.touch m.pointer fun here => .next (m.put here (m.tape.get here + n * m.factor slot)).advance
  | .sub n slot =>
    m.touch m.pointer fun here => .next (m.put here (m.tape.get here - n * m.factor slot)).advance
  | .output => .output m.advance
  | .input => .input m.advance
  | .loopStart behind =>
    m.touch m.pointer fun here =>
      .next (if m.tape.get here = 0 then { m with pc := behind } else m.advance)
  | .loopEnd start => .next { m with pc := start }
  | .scanRight n => m.land (m.tape.seekRight n m.pointer)
  | .scanLeft n => m.land (m.tape.seekLeft n m.pointer)
  | .clear => m.touch m.pointer fun here => .next (m.put here 0).advance
  | .scale stop slot =>
    m.touch m.pointer fun here =>
      let v := m.tape.get here
      if v = 0 then .next { m with pc := stop }
      else .next { m with pc := m.pc + 1, scales := m.scales.setIfInBounds slot v }
  | .unscale => m.touch m.pointer fun here => .next (m.put here 0).advance
  | .carryRight n =>
    let target := m.tape.wrap (m.pointer + n)
    if target < m.tape.size then
      m.touch target fun there => m.touch m.pointer fun here => .next (m.carry here there).advance
    else .grow target.toNat m
  | .carryLeft n =>
    m.touch m.pointer fun here =>
      if m.tape.get here = 0 then .next m.advance
      else if m.pointer < n then .fault m
      else
        m.touch (m.tape.wrap (m.pointer - n)) fun there => .next (m.carry here there).advance

end Machine

/-! ## Batches -/

/-- Why a batch ended. -/
inductive Stop where
  /-- The program is at its end. -/
  | done
  | output
  | input
  | grow (needed : Nat)
  | fault
  /-- The steps are used up. -/
  | budget
  /-- There is no cell at an index. -/
  | astray (index : Int)
deriving DecidableEq, Repr

namespace Stop

/-- The number of a reason.  Going astray has none of its own, since no batch returns with it. -/
def number : Stop → Nat
  | done => 0
  | output => 1
  | input => 2
  | grow _ => 3
  | fault => 4
  | budget => 5
  | astray _ => 6

/-- The index that the tape has to cover, zero if it is not about that. -/
def needed : Stop → Nat
  | grow index => index
  | _ => 0

end Stop

/-- The end of a batch. -/
structure Report where
  machine : Machine
  stop : Stop
  /-- The steps that were made. -/
  steps : Nat

namespace Machine

/-- Runs at most `budget` more steps of a batch in which `steps` have been made.  Being at the end
of the program is noticed before the lack of steps. -/
def runFor (code : Array Instr) (steps : Nat) : (budget : Nat) → Machine → Report
  | 0, m => if m.pc < code.size then ⟨m, .budget, steps⟩ else ⟨m, .done, steps⟩
  | budget + 1, m =>
    match code[m.pc]? with
    | none => ⟨m, .done, steps⟩
    | some i =>
      match m.exec i with
      | .next m => runFor code (steps + 1) budget m
      | .output m => ⟨m, .output, steps + 1⟩
      | .input m => ⟨m, .input, steps + 1⟩
      | .grow needed m => ⟨m, .grow needed, steps + 1⟩
      | .fault m => ⟨m, .fault, steps + 1⟩
      | .astray index m => ⟨m, .astray index, steps + 1⟩

end Machine

end Brainfuck
