import Brainfuck.Execution
import Brainfuck.Proofs.Realization

/-!
# Executions step by step

An execution runs in batches and reacts to their stops.  Without a step limit the batches do not
matter: what counts is the sequence of single instructions, each with the reaction to it.  This
module makes that sequence a system of steps and shows that the executions of any batch length are
its runs, with the same outcomes down to the count of steps.

What an instruction does to the registers is left open in the first part, since executions are also
compared with ones whose registers have room for any index.

* `Execution.meet`: what the caller does about an instruction.
* `Execution.stepBy`, `Execution.single`: one instruction and the reaction to it.
* `Execution.Batch`: what a batch comes to, whatever the limits.
* `FlatCode.ComesTo`, `FlatCode.Yields`, `FlatCode.NeverStops`: how an execution ends.
* `FlatCode.comesTo_iff_ends`, `FlatCode.neverStops_iff_forever`: the same in steps.
-/

namespace Brainfuck

open Execution

/-! ## Single steps -/

/-- What the caller does about the effect of an instruction, with the steps made so far. -/
def Execution.meet (x : Execution) (steps : Nat) : Effect → Advance Execution Outcome
  | .next m => .next ⟨m, x.unread, x.written, steps⟩
  | .output m =>
    match m.tape.place? m.pointer with
    | some here => .next ⟨m, x.unread, x.written.push (m.tape.get here), steps⟩
    | none => .final (lost m steps m.pointer)
  | .input m =>
    match m.tape.place? m.pointer with
    | some here => .next ⟨m.put here (x.unread.headD 0), x.unread.tail, x.written, steps⟩
    | none => .final (lost m steps m.pointer)
  | .grow needed m => .next ⟨{ m with tape := m.tape.grow needed }, x.unread, x.written, steps⟩
  | .fault m => .final (.finished (result m x.unread x.written steps (some m.pc)))
  | .astray index m => .final (lost m steps index)

/-- Runs one instruction, as a given function says, and reacts to its effect. -/
def Execution.stepBy (exec : Instr → Machine → Effect) (p : FlatCode) (x : Execution) :
    Advance Execution Outcome :=
  match p.code[x.machine.pc]? with
  | none => .final (.finished (result x.machine x.unread x.written x.steps none))
  | some i => x.meet (x.steps + 1) (exec i x.machine)

/-- Runs one instruction and reacts to its effect. -/
abbrev Execution.single (p : FlatCode) : Execution → Advance Execution Outcome :=
  stepBy Machine.exec p

section Steps

variable {exec : Instr → Machine → Effect} {p : FlatCode}

/-- At the end of the code the execution is finished. -/
theorem Execution.stepBy_of_end {x : Execution} (h : p.code[x.machine.pc]? = none) :
    x.stepBy exec p = .final (.finished (result x.machine x.unread x.written x.steps none)) := by
  rw [stepBy, h]

/-- Some instruction is there and the execution is not finished. -/
theorem Execution.stepBy_of_fetch {x : Execution} {i : Instr} (h : p.code[x.machine.pc]? = some i) :
    x.stepBy exec p = x.meet (x.steps + 1) (exec i x.machine) := by
  rw [stepBy, h]

/-- The caller goes on or makes an end. -/
theorem Execution.meet_cases (x : Execution) (steps : Nat) (effect : Effect) :
    (∃ y, x.meet steps effect = .next y ∧ y.steps = steps) ∨
    ∃ o, x.meet steps effect = .final o ∧ o.steps = steps := by
  cases effect with
  | next m | grow needed m => exact Or.inl ⟨_, rfl, rfl⟩
  | fault m | astray index m => exact Or.inr ⟨_, rfl, rfl⟩
  | output m | input m =>
    rw [meet]
    cases m.tape.place? m.pointer with
    | some here => exact Or.inl ⟨_, rfl, rfl⟩
    | none => exact Or.inr ⟨_, rfl, rfl⟩

/-- The only result that the caller makes of an effect is that of a fault. -/
theorem Execution.faulted_of_meet {x : Execution} {steps : Nat} {effect : Effect} {r : Result}
    (h : x.meet steps effect = .final (.finished r)) : r.faulted = true := by
  cases effect with
  | fault m =>
    obtain rfl := Outcome.finished.inj (Advance.final.inj h)
    rfl
  | next m | grow needed m | astray index m => cases h
  | output m | input m =>
    rw [meet] at h
    split at h <;> cases h

/-- What one step can come to, and how it counts: reaching the end of the code is no step, a fault
is one. -/
theorem Execution.stepBy_cases (exec : Instr → Machine → Effect) (p : FlatCode) (x : Execution) :
    (∃ y, x.stepBy exec p = .next y ∧ y.steps = x.steps + 1) ∨
    ∃ o, x.stepBy exec p = .final o ∧ (p.code.size ≤ x.machine.pc ∧ o.steps = x.steps ∨
      x.machine.pc < p.code.size ∧ o.steps = x.steps + 1) := by
  cases hfetch : p.code[x.machine.pc]? with
  | none =>
    exact Or.inr ⟨_, stepBy_of_end hfetch, Or.inl ⟨Array.getElem?_eq_none_iff.mp hfetch, rfl⟩⟩
  | some i =>
    obtain ⟨hpc, -⟩ := Array.getElem?_eq_some_iff.mp hfetch
    rw [stepBy_of_fetch hfetch]
    rcases x.meet_cases (x.steps + 1) (exec i x.machine) with ⟨y, hy, hsteps⟩ | ⟨o, ho, hsteps⟩
    · exact Or.inl ⟨y, hy, hsteps⟩
    · exact Or.inr ⟨o, ho, Or.inr ⟨hpc, hsteps⟩⟩

/-- An execution is never stuck. -/
theorem Execution.stepBy_ne_stuck (x : Execution) : x.stepBy exec p ≠ .stuck := by
  rcases stepBy_cases exec p x with ⟨y, hy, -⟩ | ⟨o, ho, -⟩
  · simp [hy]
  · simp [ho]

/-- Steps are counted one by one. -/
theorem Execution.steps_of_runs {n : Nat} {x y : Execution} (h : Runs (stepBy exec p) n x y) :
    y.steps = x.steps + n := by
  induction h with
  | zero _ => rfl
  | @succ n x y z first _ ih =>
    rcases stepBy_cases exec p x with ⟨y', hy', hsteps⟩ | ⟨o, ho, _⟩
    · obtain rfl := Advance.next.inj (first.symm.trans hy')
      omega
    · exact absurd (first.symm.trans ho) (by simp)

/-- An execution that is not at the end of the code has a step to make, be it the one that faults. -/
theorem Execution.steps_lt_of_ends {x : Execution} {o : Outcome} (h : Ends (stepBy exec p) x o)
    (hgoing : x.machine.pc < p.code.size) : x.steps < o.steps := by
  obtain ⟨n, y, hruns, hfinal⟩ := h
  have hcount := steps_of_runs hruns
  rcases stepBy_cases exec p y with ⟨y', hy', _⟩ | ⟨o', ho', hsteps⟩
  · exact absurd (hfinal.symm.trans hy') (by simp)
  · obtain rfl := Advance.final.inj (hfinal.symm.trans ho')
    cases n with
    | zero =>
      cases hruns
      omega
    | succ n => omega

/-- An execution that does not end runs forever. -/
theorem Execution.forever_iff_not_ends {x : Execution} :
    Forever (stepBy exec p) x ↔ ∀ o, ¬ Ends (stepBy exec p) x o := by
  constructor
  · intro h o ho
    exact ho.not_forever h
  · intro h n
    induction n with
    | zero => exact ⟨x, .zero x⟩
    | succ n ih =>
      obtain ⟨y, hy⟩ := ih
      cases hstep : y.stepBy exec p with
      | next z => exact ⟨z, hy.trans (.one hstep)⟩
      | final o => exact absurd ⟨n, y, hy, hstep⟩ (h o)
      | stuck => exact absurd hstep y.stepBy_ne_stuck

end Steps

/-! ## Batches -/

variable {p : FlatCode}

/-- What a batch with room for some steps, and the reaction to its stop, come to: the end of the
execution; the room is used up before the end of the code; or a stop that the caller has dealt
with.  The limits matter only when the room is used up. -/
inductive Execution.Batch (p : FlatCode) (limits : Limits) (budget : Nat) (x : Execution) :
    Turn → Prop where
  | finished {o : Outcome} (ends : Ends (single p) x o) (within : o.steps ≤ x.steps + budget) :
      Batch p limits budget x (.ended o)
  | interrupted {y : Execution} (runs : Runs (single p) budget x y)
      (going : y.machine.pc < p.code.size) :
      Batch p limits budget x (react limits y.unread y.written y.steps y.machine .budget)
  | stopped {n : Nat} {y : Execution} (runs : Runs (single p) (n + 1) x y)
      (within : n + 1 ≤ budget) : Batch p limits budget x (.next y)

/-- One more step in front of a batch. -/
theorem Execution.Batch.step {limits : Limits} {budget : Nat} {x y : Execution} {t : Turn}
    (h : Batch p limits budget y t) (hstep : x.single p = .next y)
    (hsteps : y.steps = x.steps + 1) : Batch p limits (budget + 1) x t := by
  cases h with
  | finished ends within => exact .finished (ends.of_runs (.one hstep)) (by omega)
  | interrupted runs going => exact .interrupted (.succ hstep runs) going
  | stopped runs within => exact .stopped (.succ hstep runs) (by omega)

/-- A batch is a run of single steps, and so is the reaction to its stop. -/
theorem Execution.batch_runFor (limits : Limits) (budget : Nat) (m : Machine)
    (unread : List UInt8) (written : Array UInt8) (before made : Nat) :
    Batch p limits budget ⟨m, unread, written, before + made⟩
      (react limits unread written (before + (m.runFor p.code made budget).steps)
        (m.runFor p.code made budget).machine (m.runFor p.code made budget).stop) := by
  induction budget generalizing m made with
  | zero =>
    rw [Machine.runFor]
    split
    case isTrue hpc => exact .interrupted (.zero _) hpc
    case isFalse hpc =>
      have hnone : p.code[m.pc]? = none := Array.getElem?_eq_none (Nat.le_of_not_lt hpc)
      exact .finished ⟨0, _, .zero _, stepBy_of_end hnone⟩ (Nat.le_refl _)
  | succ budget ih =>
    rw [Machine.runFor]
    cases hfetch : p.code[m.pc]? with
    | none => exact .finished ⟨0, _, .zero _, stepBy_of_end hfetch⟩ (Nat.le_add_right _ _)
    | some i =>
      have hsingle : stepBy Machine.exec p ⟨m, unread, written, before + made⟩ = _ :=
        stepBy_of_fetch hfetch
      have hroom : 0 + 1 ≤ budget + 1 := Nat.succ_le_succ (Nat.zero_le budget)
      have hwithin := Nat.add_le_add_left hroom (before + made)
      dsimp only at hsingle ⊢
      cases hexec : m.exec i with
      | next m' =>
        rw [hexec] at hsingle
        exact (ih m' (made + 1)).step hsingle rfl
      | output m' =>
        rw [hexec, meet] at hsingle
        dsimp only [react]
        cases hplace : m'.tape.place? m'.pointer with
        | some here =>
          rw [hplace] at hsingle
          exact .stopped (.one hsingle) hroom
        | none =>
          rw [hplace] at hsingle
          exact .finished ⟨0, _, .zero _, hsingle⟩ hwithin
      | input m' =>
        rw [hexec, meet] at hsingle
        dsimp only [react]
        cases hplace : m'.tape.place? m'.pointer with
        | some here =>
          rw [hplace] at hsingle
          exact .stopped (.one hsingle) hroom
        | none =>
          rw [hplace] at hsingle
          exact .finished ⟨0, _, .zero _, hsingle⟩ hwithin
      | grow needed m' =>
        rw [hexec] at hsingle
        exact .stopped (.one hsingle) hroom
      | fault m' | astray index m' =>
        rw [hexec] at hsingle
        exact .finished ⟨0, _, .zero _, hsingle⟩ hwithin

/-- A turn is a batch with the room that the limits leave. -/
theorem Execution.batch_turn (limits : Limits) (x : Execution) :
    Batch p limits (limits.budget x.steps).toNat x (x.turn p limits) := by
  obtain ⟨m, unread, written, steps⟩ := x
  exact batch_runFor limits (limits.budget steps).toNat m unread written steps 0

/-- What a turn leaves, if it does not end the execution, has been reached by single steps. -/
theorem Execution.exists_runs_of_turn {limits : Limits} {x y : Execution}
    (h : x.turn p limits = .next y) : ∃ n, Runs (single p) n x y := by
  have hturn := batch_turn (p := p) limits x
  rw [h] at hturn
  generalize ht : Turn.next y = t at hturn
  cases hturn with
  | finished => cases ht
  | interrupted runs _ =>
    rw [react] at ht
    split at ht
    · cases ht
    · obtain rfl := Turn.next.inj ht
      exact ⟨_, runs⟩
  | stopped runs _ =>
    obtain rfl := Turn.next.inj ht
    exact ⟨_, runs⟩

/-- One turn without limit: the end, or a run of single steps that is not empty. -/
theorem Execution.turn_cases {batch : Nat} (hbatch : 0 < batch) (x : Execution) :
    (∃ o, x.turn p ⟨none, batch⟩ = .ended o ∧ Ends (single p) x o) ∨
    ∃ n y, x.turn p ⟨none, batch⟩ = .next y ∧ Runs (single p) (n + 1) x y := by
  have hturn := batch_turn (p := p) ⟨none, batch⟩ x
  generalize x.turn p ⟨none, batch⟩ = t at hturn ⊢
  cases hturn with
  | finished ends _ => exact Or.inl ⟨_, rfl, ends⟩
  | interrupted runs _ =>
    obtain ⟨k, rfl⟩ : ∃ k, batch = k + 1 := ⟨batch - 1, by omega⟩
    exact Or.inr ⟨k, _, rfl, runs⟩
  | stopped runs _ => exact Or.inr ⟨_, _, rfl, runs⟩

/-- Without limit the batches are invisible. -/
theorem Execution.run_eq_some_iff {batch : Nat} (hbatch : 0 < batch) {x : Execution}
    {o : Outcome} :
    (∃ turns, Execution.run p ⟨none, batch⟩ turns x = some o) ↔ Ends (single p) x o := by
  constructor
  · rintro ⟨turns, hrun⟩
    induction turns generalizing x with
    | zero => exact absurd hrun (by simp [Execution.run])
    | succ turns ih =>
      rw [Execution.run] at hrun
      rcases turn_cases hbatch x with ⟨o', ho', hends⟩ | ⟨n, y, hy, hruns⟩
      · rw [ho'] at hrun
        exact Option.some.inj hrun ▸ hends
      · rw [hy] at hrun
        exact (ih hrun).of_runs hruns
  · rintro ⟨n, z, hz, ho⟩
    -- every turn makes a step, so `n` steps take `n + 1` turns at most
    induction n using Nat.strongRecOn generalizing x with
    | ind n ih =>
      rcases turn_cases hbatch x with ⟨o', ho', hends⟩ | ⟨m, y, hy, hruns⟩
      · obtain rfl := hends.unique ⟨n, z, hz, ho⟩
        exact ⟨1, by rw [Execution.run, ho']⟩
      · have hlt : m + 1 ≤ n := Runs.length_le hz ho hruns
        obtain ⟨k, rfl⟩ : ∃ k, n = m + 1 + k := ⟨n - (m + 1), by omega⟩
        obtain ⟨turns, hturns⟩ := ih k (by omega) (hruns.split hz)
        exact ⟨turns + 1, by rw [Execution.run, hy]; exact hturns⟩

/-! ## Whole executions -/

namespace FlatCode

/-- The execution of a program under given limits ends in a certain way. -/
def ComesTo (p : FlatCode) (limits : Limits) (tape : Tape) (index : Int) (input : List UInt8)
    (o : Outcome) : Prop :=
  ∃ turns, Execution.run p limits turns (p.start tape index input) = some o

/-- The execution of a program without limit finishes with a result. -/
def Yields (p : FlatCode) (tape : Tape) (index : Int) (input : List UInt8) (r : Result) : Prop :=
  p.ComesTo .unlimited tape index input (.finished r)

/-- The execution of a program without limit does not finish, however many turns it is given. -/
def NeverStops (p : FlatCode) (tape : Tape) (index : Int) (input : List UInt8) : Prop :=
  ∀ turns, Execution.run p .unlimited turns (p.start tape index input) = none

variable {tape : Tape} {index : Int} {input : List UInt8}

/-- A batch of an execution without limit has room for a step. -/
theorem unlimited_batch_pos : 0 < Limits.unlimited.batch := by decide

theorem comesTo_iff_ends {o : Outcome} :
    p.ComesTo .unlimited tape index input o ↔ Ends (single p) (p.start tape index input) o :=
  run_eq_some_iff unlimited_batch_pos

theorem yields_iff_ends {r : Result} :
    p.Yields tape index input r ↔ Ends (single p) (p.start tape index input) (.finished r) :=
  comesTo_iff_ends

theorem neverStops_iff_forever :
    p.NeverStops tape index input ↔ Forever (single p) (p.start tape index input) := by
  rw [forever_iff_not_ends]
  constructor
  · intro h o ho
    obtain ⟨turns, hrun⟩ := comesTo_iff_ends.mpr ho
    exact absurd ((h turns).symm.trans hrun) (by simp)
  · intro h turns
    cases hrun : Execution.run p .unlimited turns (p.start tape index input) with
    | none => rfl
    | some o => exact absurd (comesTo_iff_ends.mp ⟨turns, hrun⟩) (h o)

end FlatCode

end Brainfuck
