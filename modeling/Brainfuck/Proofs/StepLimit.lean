import Brainfuck.Proofs.Words
import Mathlib.Logic.Relation

/-!
# The step limit

A step limit is looked at between batches only, and a batch is never longer than what is left of the
limit.  So the limit is exact: an execution is given up after as many steps as the limit says, or it
would have ended by then and does so with the outcome that it has without a limit.  Where the batches
begin and end does not matter for either.

An execution that is at the end of its code when the last step is used up has ended.  A limit that is
negative allows no more than the limit zero.

The outcome without a limit is a result if the execution keeps to words.  Otherwise it may go astray,
and a limit does not keep it from that.

The proof follows the turns.  Each turn that does not end the execution makes a step
(`Execution.limited_turn`), and the steps never exceed the limit, so the turns come to an end.

* `FlatCode.ComesTo`: how an execution ends under given limits.
* `Execution.exists_limited_run`: what the turns under a limit come to.
* `FlatCode.step_limit_exact`: limits and batches of whole executions.
-/

namespace Brainfuck

open Execution

variable {p : FlatCode} {batch : Nat} {limit : Int} {x : Execution}

/-! ## Turns under a limit -/

/-- What an execution comes to under a limit: it ends within the limit, or it is given up there and
would have ended later, if at all. -/
inductive Execution.UnderLimit (p : FlatCode) (limit : Int) (x : Execution) : Outcome → Prop where
  | finished {o : Outcome} (ends : Ends (single p) x o) (within : (o.steps : Int) ≤ max limit 0) :
      UnderLimit p limit x o
  | givenUp (later : ∀ o, Ends (single p) x o → max limit 0 < (o.steps : Int)) :
      UnderLimit p limit x (.overLimit limit (max limit 0).toNat)

/-- Steps in front do not matter for how an execution ends. -/
theorem Execution.UnderLimit.of_runs {n : Nat} {y : Execution} {o : Outcome}
    (h : UnderLimit p limit y o) (hruns : Runs (single p) n x y) : UnderLimit p limit x o := by
  cases h with
  | finished ends within => exact .finished (ends.of_runs hruns) within
  | givenUp later =>
    refine .givenUp fun o ho => later o ?_
    obtain ⟨k, z, hz, hfinal⟩ := ho
    have hle : n ≤ k := Runs.length_le hz hfinal hruns
    obtain ⟨k, rfl⟩ : ∃ j, k = n + j := ⟨k - n, by omega⟩
    exact ⟨k, z, hruns.split hz, hfinal⟩

/-- The reaction when the room of a batch is used up: the limit has been reached or it has not. -/
theorem Execution.react_budget (y : Execution) :
    react ⟨some limit, batch⟩ y.unread y.written y.steps y.machine .budget =
      if limit ≤ y.steps then .ended (.overLimit limit y.steps) else .next y := by
  by_cases hlimit : limit ≤ y.steps
  · have hreached : Limits.reached? ⟨some limit, batch⟩ y.steps = some limit :=
      Option.filter_some_pos (decide_eq_true hlimit)
    rw [react, hreached, if_pos hlimit]
  · have hreached : Limits.reached? ⟨some limit, batch⟩ y.steps = none :=
      Option.filter_some_neg (by simpa using hlimit)
    rw [react, hreached, if_neg hlimit]

/-- One turn under a limit that has not been exceeded: the end, or a run that is not empty and does
not exceed the limit either. -/
theorem Execution.limited_turn (hbatch : 0 < batch) (hx : (x.steps : Int) ≤ max limit 0) :
    (∃ o, x.turn p ⟨some limit, batch⟩ = .ended o ∧ UnderLimit p limit x o) ∨
    ∃ n y, x.turn p ⟨some limit, batch⟩ = .next y ∧ Runs (single p) (n + 1) x y ∧
      (y.steps : Int) ≤ max limit 0 := by
  have hbudget : (Limits.budget ⟨some limit, batch⟩ x.steps).toNat =
      (min (batch : Int) (limit - x.steps)).toNat := rfl
  have hturn := batch_turn (p := p) ⟨some limit, batch⟩ x
  generalize x.turn p ⟨some limit, batch⟩ = t at hturn ⊢
  generalize (Limits.budget ⟨some limit, batch⟩ x.steps).toNat = budget at hturn hbudget
  cases hturn with
  | finished ends within => exact Or.inl ⟨_, rfl, .finished ends (by omega)⟩
  | @interrupted y runs going =>
    have hsteps := steps_of_runs runs
    rw [react_budget]
    by_cases hlimit : limit ≤ y.steps
    · -- all that the limit allows has been used, and there is an instruction left
      have hexact : y.steps = (max limit 0).toNat := by omega
      rw [if_pos hlimit, hexact]
      refine Or.inl ⟨_, rfl, .of_runs (.givenUp fun o ho => ?_) runs⟩
      have := steps_lt_of_ends ho going
      omega
    · rw [if_neg hlimit]
      obtain ⟨n, rfl⟩ : ∃ n, budget = n + 1 := ⟨budget - 1, by omega⟩
      exact Or.inr ⟨n, y, rfl, runs, by omega⟩
  | stopped runs within =>
    have hsteps := steps_of_runs runs
    exact Or.inr ⟨_, _, rfl, runs, by omega⟩

/-- Between the turns under a limit the limit has not been exceeded. -/
theorem Execution.steps_le_of_turns (hbatch : 0 < batch) (hx : (x.steps : Int) ≤ max limit 0)
    {y : Execution}
    (h : Relation.ReflTransGen (fun x y => x.turn p ⟨some limit, batch⟩ = .next y) x y) :
    (y.steps : Int) ≤ max limit 0 := by
  induction h with
  | refl => exact hx
  | tail _ hturn ih =>
    rcases limited_turn (p := p) hbatch ih with ⟨o, ho, -⟩ | ⟨n, z, hz, -, hle⟩
    · exact absurd (hturn.symm.trans ho) (by simp)
    · obtain rfl := Turn.next.inj (hturn.symm.trans hz)
      exact hle

/-- The turns under a limit come to an end: each of them uses up a step of the limit. -/
theorem Execution.exists_limited_run (hbatch : 0 < batch) (hx : (x.steps : Int) ≤ max limit 0) :
    ∃ turns o, Execution.run p ⟨some limit, batch⟩ turns x = some o ∧ UnderLimit p limit x o := by
  generalize hleft : (max limit 0).toNat - x.steps = left
  induction left using Nat.strongRecOn generalizing x with
  | ind left ih =>
    rcases limited_turn (p := p) hbatch hx with ⟨o, ho, hunder⟩ | ⟨n, y, hy, hruns, hle⟩
    · exact ⟨1, o, by rw [Execution.run, ho], hunder⟩
    · have hsteps := steps_of_runs hruns
      obtain ⟨turns, o, hrun, hunder⟩ := ih _ (by omega) hle rfl
      exact ⟨turns + 1, o, by rw [Execution.run, hy]; exact hrun, hunder.of_runs hruns⟩

/-! ## Whole executions -/

/-- More turns do not change how an execution ends. -/
theorem Execution.run_add {limits : Limits} {turns : Nat} {o : Outcome}
    (h : Execution.run p limits turns x = some o) (more : Nat) :
    Execution.run p limits (turns + more) x = some o := by
  induction turns generalizing x with
  | zero => cases h
  | succ turns ih =>
    rw [Nat.succ_add]
    rw [Execution.run] at h ⊢
    cases hturn : x.turn p limits with
    | ended o' => rwa [hturn] at h
    | next y =>
      rw [hturn] at h
      exact ih h

variable {tape : Tape} {index : Int} {input : List UInt8}

/-- An execution ends in one way only. -/
theorem FlatCode.ComesTo.unique {limits : Limits} {o o' : Outcome}
    (h : p.ComesTo limits tape index input o) (h' : p.ComesTo limits tape index input o') :
    o = o' := by
  obtain ⟨turns, hrun⟩ := h
  obtain ⟨turns', hrun'⟩ := h'
  have hmore := run_add hrun turns'
  rw [Nat.add_comm, run_add hrun' turns] at hmore
  exact (Option.some.inj hmore).symm

/-- **Batches do not show, and the step limit is exact.**  Under a limit every execution ends.  It has
the outcome that it has without a limit if that takes no more steps than the limit, or none if the limit
is negative; otherwise, also if the execution never stops without a limit, it is given up after exactly
that many steps.  No batch on the way is given more steps than its length or, by a negative limit, fewer
than the limit.  Without a limit an execution comes to the same in batches of any length, and if it keeps
to words it does not go astray: what it comes to is a result. -/
theorem FlatCode.step_limit_exact (p : FlatCode) {batch : Nat} (hbatch : 0 < batch) (tape : Tape)
    (index : Nat) (input : List UInt8) :
    (∀ limit : Int,
      (∃ o, p.ComesTo ⟨some limit, batch⟩ tape index input o) ∧
      (∀ o, p.ComesTo ⟨some limit, batch⟩ tape index input o ↔
        (p.ComesTo .unlimited tape index input o ∧ (o.steps : Int) ≤ max limit 0) ∨
        ((∀ o', p.ComesTo .unlimited tape index input o' → max limit 0 < (o'.steps : Int)) ∧
          o = .overLimit limit (max limit 0).toNat)) ∧
      ∀ x, Relation.ReflTransGen (fun x y => x.turn p ⟨some limit, batch⟩ = .next y)
          (p.start tape index input) x →
        min limit 0 ≤ Limits.budget ⟨some limit, batch⟩ x.steps ∧
          Limits.budget ⟨some limit, batch⟩ x.steps ≤ batch) ∧
    (∀ o, p.ComesTo ⟨none, batch⟩ tape index input o ↔ p.ComesTo .unlimited tape index input o) ∧
    (p.HasSoundDistances → p.KeepsToWords tape index input →
      ∀ o, p.ComesTo .unlimited tape index input o → ∃ r, o = .finished r ∧ 0 ≤ r.index) := by
  simp only [comesTo_iff_ends]
  refine ⟨fun limit => ?_, fun o => run_eq_some_iff hbatch, fun hp hwords o ho =>
    hwords.exists_result hp (comesTo_iff_ends.mpr ho)⟩
  have hstart : ((p.start tape index input).steps : Int) ≤ max limit 0 := Int.le_max_right _ _
  obtain ⟨turns, o, hrun, hunder⟩ := exists_limited_run hbatch hstart
  have hcomes : p.ComesTo ⟨some limit, batch⟩ tape index input o := ⟨turns, hrun⟩
  refine ⟨⟨o, hcomes⟩, fun o' => ⟨fun h => ?_, fun h => ?_⟩, fun x hx => ?_⟩
  · obtain rfl := hcomes.unique h
    cases hunder with
    | finished ends within => exact Or.inl ⟨ends, within⟩
    | givenUp later => exact Or.inr ⟨later, rfl⟩
  · -- the two cases exclude each other, and one of them is what the turns come to
    rcases h with ⟨ho', hle⟩ | ⟨hlater, rfl⟩
    · cases hunder with
      | finished ends _ => rwa [ends.unique ho'] at hcomes
      | givenUp later => exact absurd hle (Int.not_le.mpr (later _ ho'))
    · cases hunder with
      | finished ends within => exact absurd within (Int.not_le.mpr (hlater _ ends))
      | givenUp _ => exact hcomes
  · have hsteps := steps_le_of_turns hbatch hstart hx
    simp only [Limits.budget]
    omega

/-- An execution of four steps, one of which makes the tape grow, in batches of two: a limit of four
steps lets it finish and one of three does not. -/
theorem FlatCode.step_limit_exact_growing :
    ∃ p r, Program.flatten [.output, .moveRight 1, .output] = .ok p ∧ r.steps = 4 ∧
      p.ComesTo ⟨some 4, 2⟩ (.blank 1) 0 [] (.finished r) ∧
      p.ComesTo ⟨some 3, 2⟩ (.blank 1) 0 [] (.overLimit 3 3) := by
  have hflatten : Program.flatten [.output, .moveRight 1, .output] =
      .ok ⟨#[.output, .right 1, .output], 0⟩ := rfl
  have hcomes : FlatCode.ComesTo ⟨#[.output, .right 1, .output], 0⟩ .unlimited (.blank 1) 0 []
      (.finished ⟨#[0, 0], [], .blank 2, 1, 4, none⟩) := ⟨4, rfl⟩
  obtain ⟨hlimit, -⟩ := FlatCode.step_limit_exact ⟨#[.output, .right 1, .output], 0⟩
    Nat.two_pos (.blank 1) 0 []
  refine ⟨_, _, hflatten, rfl, ((hlimit 4).2.1 _).mpr (Or.inl ⟨hcomes, by decide⟩),
    ((hlimit 3).2.1 _).mpr (Or.inr ⟨fun o ho => ?_, rfl⟩)⟩
  obtain rfl := hcomes.unique ho
  decide

/-- A limit of ten steps, and an execution that goes astray in its third: the index that it has computed
does not fit into a word. -/
theorem FlatCode.step_limit_astray :
    ∃ p, Program.flatten [.moveRight 1, .moveRight (2 ^ 63 - 1), .output] = .ok p ∧
      p.ComesTo ⟨some 10, 1000000⟩ .initial 0 [] (.astray (-2 ^ 63) 256 3) ∧
      ¬ ∃ r, p.ComesTo ⟨some 10, 1000000⟩ .initial 0 [] (.finished r) := by
  have hcomes : FlatCode.ComesTo ⟨#[.right 1, .right (2 ^ 63 - 1), .output], 0⟩ ⟨some 10, 1000000⟩
      .initial 0 [] (.astray (-2 ^ 63) 256 3) := ⟨1, by decide +kernel⟩
  refine ⟨_, rfl, hcomes, ?_⟩
  rintro ⟨r, hr⟩
  cases hcomes.unique hr

end Brainfuck
