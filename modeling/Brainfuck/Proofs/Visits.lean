import Brainfuck.Proofs.Growth

/-!
# Where an execution has been

How often an instruction is carried out is a question about the executions that a run goes through.
This module lists them.  A step that makes the tape grow is on the list like any other, but it carries
out nothing: the instruction is carried out by the step after it, at the same address.

* `Execution.visited`, `Execution.visited_add`: the executions from which steps are made.
* `Execution.carriesOut`: whether a step carries out the instruction at an address.
* `Execution.Course`: a run, and how often it carries out each instruction.
-/

namespace Brainfuck

variable {p : FlatCode} {x y z : Execution}

namespace Execution

/-- The executions from which the next steps are made, so many at most. -/
def visited (p : FlatCode) : Nat → Execution → List Execution
  | 0, _ => []
  | n + 1, x =>
    x :: match x.single p with
      | .next y => visited p n y
      | _ => []

theorem visited_succ (h : x.single p = .next y) (n : Nat) :
    x.visited p (n + 1) = x :: y.visited p n := by
  rw [visited, h]

/-- The steps after a run go on where it has ended. -/
theorem visited_add {m : Nat} (h : Runs (single p) m x y) (n : Nat) :
    x.visited p (m + n) = x.visited p m ++ y.visited p n := by
  induction h with
  | zero x => rw [Nat.zero_add, visited, List.nil_append]
  | @succ m x y z first _ ih =>
    rw [Nat.add_right_comm m 1 n, visited_succ first, visited_succ first, ih, List.cons_append]

/-- Whether the next step carries out the instruction at an address. -/
def carriesOut (p : FlatCode) (address : Nat) (x : Execution) : Bool :=
  x.machine.pc == address && x.growths Machine.exec p == 0

/-- An execution that is ready carries out its instruction in one step, or in two of which the first
makes the tape grow. -/
theorem Ready.exists_runs_of_smooth (hready : x.Ready p) (h : x.smooth p = .next y) :
    ∃ n, Runs (single p) n x y ∧ (x.growths Machine.exec p = 0 ∧ x.visited p n = [x] ∨
      x.growths Machine.exec p = 1 ∧ ∃ z, x.visited p n = [x, z] ∧ z.machine.pc = x.machine.pc ∧
        z.growths Machine.exec p = 0) := by
  rcases hready.smooth_cases with ⟨hgrowths, hsmooth⟩ | ⟨hgrowths, z, hz, hpc, hstill, hsmooth⟩
  · have hstep : x.single p = .next y := hsmooth.symm.trans h
    exact ⟨1, .one hstep, Or.inl ⟨hgrowths, visited_succ hstep 0⟩⟩
  · have hstep : z.single p = .next y := hsmooth.symm.trans h
    refine ⟨2, .succ hz (.one hstep), Or.inr ⟨hgrowths, z, ?_, hpc, hstill⟩⟩
    rw [visited_succ hz, visited_succ hstep, visited]

/-! ## Courses -/

/-- Some steps lead from one execution to another, and the instruction at each address is carried out
a number of times on the way. -/
def Course (p : FlatCode) (times : Nat → Nat) (x y : Execution) : Prop :=
  ∃ n, Runs (single p) n x y ∧ ∀ a, (x.visited p n).countP (carriesOut p a) = times a

namespace Course

variable {times times' : Nat → Nat}

theorem refl (p : FlatCode) (x : Execution) : Course p (fun _ => 0) x x :=
  ⟨0, .zero x, fun _ => rfl⟩

theorem trans (h : Course p times x y) (h' : Course p times' y z) :
    Course p (fun a => times a + times' a) x z := by
  obtain ⟨n, hn, htimes⟩ := h
  obtain ⟨n', hn', htimes'⟩ := h'
  refine ⟨n + n', hn.trans hn', fun a => ?_⟩
  rw [visited_add hn, List.countP_append, htimes, htimes']

theorem congr (h : Course p times x y) (htimes : ∀ a, times a = times' a) :
    Course p times' x y := by
  rwa [funext htimes] at h

/-- Carrying out one instruction. -/
theorem of_smooth (hready : x.Ready p) (h : x.smooth p = .next y) :
    Course p (fun a => if x.machine.pc = a then 1 else 0) x y := by
  obtain ⟨n, hn, ⟨hgrowths, hvisited⟩ | ⟨hgrowths, z, hvisited, hpc, hstill⟩⟩ :=
    hready.exists_runs_of_smooth h
  · refine ⟨n, hn, fun a => ?_⟩
    rw [hvisited, List.countP_singleton, carriesOut, hgrowths]
    simp
  · refine ⟨n, hn, fun a => ?_⟩
    rw [hvisited, List.countP_cons, List.countP_singleton, carriesOut, carriesOut, hgrowths, hstill,
      hpc]
    simp

end Course

end Execution

end Brainfuck
