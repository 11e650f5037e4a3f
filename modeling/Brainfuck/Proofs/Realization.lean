import Brainfuck.Proofs.Meaning

/-!
# Realizing a behaviour by steps

Flat code and compiled modules are both run in steps, and both are to do what the tree says.  This
module says once what that means and how it is shown, for any deterministic system of steps.

A state realizes a behaviour at a configuration when the endings are matched: a normal ending by
reaching a state that the exit condition accepts, a fault by a final result that reports it, and
having no ending by running forever.  The last part is what makes a realization more than a
simulation: it carries back from the steps to the tree, since a state that ends cannot run forever.

The lemmas follow the combinators of behaviours.  Only the one about loops is more than composition:
that a loop without an ending runs forever goes by induction on the number of steps asked for, and
needs that a pass takes at least one step.

* `Advance`, `Runs`, `Ends`, `Forever`: steps, and where they lead.
* `Realizes`: the states that do what a behaviour says.
* `Realizes.andThen`, `Realizes.repeated`: sequences and loops.
-/

namespace Brainfuck

/-! ## Steps -/

/-- What a step leads to. -/
inductive Advance (σ ρ : Type) where
  /-- The next state. -/
  | next (x : σ)
  /-- The end, with its result. -/
  | final (r : ρ)
  /-- There is no step. -/
  | stuck

variable {σ ρ : Type} {step : σ → Advance σ ρ}

/-- A number of steps leads from one state to another. -/
inductive Runs (step : σ → Advance σ ρ) : Nat → σ → σ → Prop where
  | zero (x : σ) : Runs step 0 x x
  | succ {n : Nat} {x y z : σ} (first : step x = .next y) (rest : Runs step n y z) :
      Runs step (n + 1) x z

/-- A state comes to its end with a result. -/
def Ends (step : σ → Advance σ ρ) (x : σ) (r : ρ) : Prop :=
  ∃ n y, Runs step n x y ∧ step y = .final r

/-- A state has a successor after any number of steps. -/
def Forever (step : σ → Advance σ ρ) (x : σ) : Prop :=
  ∀ n, ∃ y, Runs step n x y

namespace Runs

theorem one {x y : σ} (h : step x = .next y) : Runs step 1 x y := succ h (zero y)

theorem trans {m n : Nat} {x y z : σ} (h : Runs step m x y) (h' : Runs step n y z) :
    Runs step (m + n) x z := by
  induction h with
  | zero _ => rwa [Nat.zero_add]
  | @succ k _ _ _ first _ ih =>
    rw [Nat.add_right_comm k 1 n]
    exact succ first (ih h')

/-- Steps are deterministic: a longer run goes through the end of a shorter one. -/
theorem split {m n : Nat} {x y z : σ} (h : Runs step m x y) (h' : Runs step (m + n) x z) :
    Runs step n y z := by
  induction h with
  | zero _ => rwa [Nat.zero_add] at h'
  | @succ k _ _ _ first _ ih =>
    rw [Nat.add_right_comm k 1 n] at h'
    cases h' with
    | succ first' rest' =>
      obtain rfl := Advance.next.inj (first.symm.trans first')
      exact ih rest'

/-- A run has a beginning of any length up to its own. -/
theorem cut {m n : Nat} {x z : σ} (h : Runs step (m + n) x z) : ∃ y, Runs step m x y := by
  induction m generalizing x with
  | zero => exact ⟨x, zero x⟩
  | succ m ih =>
    rw [Nat.add_right_comm m 1 n] at h
    cases h with
    | succ first rest =>
      obtain ⟨y, hy⟩ := ih rest
      exact ⟨y, succ first hy⟩

/-- A run ends where steps are no longer made. -/
theorem length_le {m n : Nat} {x y z : σ} {r : ρ} (h : Runs step n x y) (hy : step y = .final r)
    (h' : Runs step m x z) : m ≤ n := by
  by_contra hlt
  obtain ⟨k, rfl⟩ : ∃ k, m = n + (k + 1) := ⟨m - n - 1, by omega⟩
  cases split h h' with
  | succ first _ => exact absurd (hy.symm.trans first) (by simp)

end Runs

namespace Ends

theorem of_runs {n : Nat} {x y : σ} {r : ρ} (h : Runs step n x y) (hy : Ends step y r) :
    Ends step x r := by
  obtain ⟨m, z, hz, hr⟩ := hy
  exact ⟨n + m, z, h.trans hz, hr⟩

/-- There is one result at most. -/
theorem unique {x : σ} {r r' : ρ} (h : Ends step x r) (h' : Ends step x r') : r = r' := by
  obtain ⟨n, y, hy, hr⟩ := h
  obtain ⟨n', y', hy', hr'⟩ := h'
  obtain rfl : n = n' := Nat.le_antisymm (Runs.length_le hy' hr' hy) (Runs.length_le hy hr hy')
  cases hy.split (n := 0) hy'
  exact Advance.final.inj (hr.symm.trans hr')

theorem not_forever {x : σ} {r : ρ} (h : Ends step x r) : ¬ Forever step x := by
  obtain ⟨n, y, hy, hr⟩ := h
  intro hforever
  obtain ⟨z, hz⟩ := hforever (n + 1)
  have := Runs.length_le hy hr hz
  omega

end Ends

namespace Forever

/-- Runs of unbounded length are enough. -/
theorem of_long {x : σ} (h : ∀ k, ∃ n y, k ≤ n ∧ Runs step n x y) : Forever step x := by
  intro k
  obtain ⟨n, y, hn, hy⟩ := h k
  obtain ⟨m, rfl⟩ : ∃ m, n = k + m := ⟨n - k, by omega⟩
  exact hy.cut

theorem of_runs {n : Nat} {x y : σ} (h : Runs step n x y) (hy : Forever step y) :
    Forever step x := by
  refine of_long fun k => ?_
  obtain ⟨z, hz⟩ := hy k
  exact ⟨n + k, z, Nat.le_add_left k n, h.trans hz⟩

end Forever

/-! ## Realizations -/

/-- A state does what a behaviour says: `exit` says which states are reached at a normal ending, and
`failed` which results report a fault. -/
structure Realizes (step : σ → Advance σ ρ) (failed : Config → ρ → Prop) (R : Behaviour)
    (c : Config) (x : σ) (exit : Config → σ → Prop) : Prop where
  done : ∀ {d : Config}, R c (.done d) → ∃ n y, Runs step n x y ∧ exit d y
  fault : ∀ {d : Config}, R c (.fault d) → ∃ r, Ends step x r ∧ failed d r
  forever : (∀ e, ¬ R c e) → Forever step x

namespace Realizes

variable {failed : Config → ρ → Prop} {R S : Behaviour} {c : Config} {x : σ}
  {exit : Config → σ → Prop}

/-- The exit condition may use that the behaviour has led to the configuration. -/
theorem mono {exit' : Config → σ → Prop} (h : Realizes step failed R c x exit)
    (hexit : ∀ d y, R c (.done d) → exit d y → exit' d y) : Realizes step failed R c x exit' where
  done hd := by
    obtain ⟨n, y, hy, he⟩ := h.done hd
    exact ⟨n, y, hy, hexit _ y hd he⟩
  fault := h.fault
  forever := h.forever

/-- Steps after the behaviour. -/
theorem followed {exit' : Config → σ → Prop} (h : Realizes step failed R c x exit)
    (hexit : ∀ d y, exit d y → ∃ n z, Runs step n y z ∧ exit' d z) :
    Realizes step failed R c x exit' where
  done hd := by
    obtain ⟨n, y, hy, he⟩ := h.done hd
    obtain ⟨m, z, hz, he'⟩ := hexit _ y he
    exact ⟨n + m, z, hy.trans hz, he'⟩
  fault := h.fault
  forever := h.forever

/-- Only the endings of the configuration matter. -/
theorem congr (h : Realizes step failed R c x exit) (hS : ∀ e, S c e ↔ R c e) :
    Realizes step failed S c x exit where
  done hd := h.done ((hS _).mp hd)
  fault hd := h.fault ((hS _).mp hd)
  forever hnone := h.forever fun e he => hnone e ((hS e).mpr he)

/-- Steps before the behaviour. -/
theorem of_runs {n : Nat} {y : σ} (hxy : Runs step n x y) (h : Realizes step failed R c y exit) :
    Realizes step failed R c x exit where
  done hd := by
    obtain ⟨m, z, hz, he⟩ := h.done hd
    exact ⟨n + m, z, hxy.trans hz, he⟩
  fault hd := by
    obtain ⟨r, hr, hf⟩ := h.fault hd
    exact ⟨r, hr.of_runs hxy, hf⟩
  forever hnone := (h.forever hnone).of_runs hxy

/-- A behaviour that always ends normally, in one way. -/
theorem of_done {n : Nat} {y : σ} {d : Config} (hR : ∀ e, R c e ↔ e = .done d)
    (hxy : Runs step n x y) (hexit : exit d y) : Realizes step failed R c x exit where
  done hd := by
    obtain rfl := Ending.done.inj ((hR _).mp hd)
    exact ⟨n, y, hxy, hexit⟩
  fault hd := absurd ((hR _).mp hd) (by simp)
  forever hnone := absurd ((hR _).mpr rfl) (hnone _)

/-- A behaviour that always faults, in one way. -/
theorem of_fault {d : Config} {r : ρ} (hR : ∀ e, R c e ↔ e = .fault d) (hr : Ends step x r)
    (hf : failed d r) : Realizes step failed R c x exit where
  done hd := absurd ((hR _).mp hd) (by simp)
  fault hd := by
    obtain rfl := Ending.fault.inj ((hR _).mp hd)
    exact ⟨r, hr, hf⟩
  forever hnone := absurd ((hR _).mpr rfl) (hnone _)

/-- One behaviour after another. -/
theorem andThen {mid : Config → σ → Prop} (hR : Realizes step failed R c x mid)
    (hS : ∀ d y, R c (.done d) → mid d y → Realizes step failed S d y exit) :
    Realizes step failed (Behaviour.andThen R S) c x exit where
  done hd := by
    cases hd with
    | pass first second =>
      obtain ⟨n, y, hy, hmid⟩ := hR.done first
      obtain ⟨m, z, hz, he⟩ := (hS _ y first hmid).done second
      exact ⟨n + m, z, hy.trans hz, he⟩
  fault hd := by
    cases hd with
    | fault first => exact hR.fault first
    | pass first second =>
      obtain ⟨n, y, hy, hmid⟩ := hR.done first
      obtain ⟨r, hr, hf⟩ := (hS _ y first hmid).fault second
      exact ⟨r, hr.of_runs hy, hf⟩
  forever hnone := by
    by_cases hfirst : ∃ d, R c (.done d)
    · obtain ⟨d, first⟩ := hfirst
      obtain ⟨n, y, hy, hmid⟩ := hR.done first
      refine Forever.of_runs hy ((hS d y first hmid).forever fun e second => ?_)
      exact hnone e (.pass first second)
    · refine hR.forever fun e first => ?_
      cases e with
      | done d => exact hfirst ⟨d, first⟩
      | fault d => exact hnone _ (.fault first)

/-- A loop whose meaning has no ending makes as many steps as one likes: each pass makes a step, so
the steps asked for run out before the passes do. -/
theorem exists_long (head : Config → σ → Prop)
    (hpass : ∀ c x, head c x → c.cell ≠ 0 → ∃ n y, Runs step (n + 1) x y ∧
      Realizes step failed R c y fun d z => ∃ k w, Runs step k z w ∧ head d w)
    (k : Nat) (hx : head c x) (hnone : ∀ e, ¬ Behaviour.repeated R c e) :
    ∃ n y, k ≤ n ∧ Runs step n x y := by
  induction k generalizing c x with
  | zero => exact ⟨0, x, Nat.le_refl 0, .zero x⟩
  | succ k ih =>
    have hnonzero : c.cell ≠ 0 := fun hzero => hnone _ (.stop hzero)
    obtain ⟨n, y, hy, hbody⟩ := hpass c x hx hnonzero
    by_cases hdone : ∃ d, R c (.done d)
    · obtain ⟨d, hd⟩ := hdone
      obtain ⟨m, z, hz, l, w, hw, hhead⟩ := hbody.done hd
      have hrest : ∀ e, ¬ Behaviour.repeated R d e := fun e he => hnone e (.pass hnonzero hd he)
      obtain ⟨i, v, hi, hv⟩ := ih hhead hrest
      exact ⟨n + 1 + m + l + i, v, by omega, ((hy.trans hz).trans hw).trans hv⟩
    · have hnever : Forever step y := hbody.forever fun e he => by
        cases e with
        | done d => exact hdone ⟨d, he⟩
        | fault d => exact hnone _ (.fault hnonzero he)
      obtain ⟨z, hz⟩ := hnever k
      exact ⟨n + 1 + k, z, by omega, hy.trans hz⟩

/-- A loop, given what holds each time the cell is tested.  On a zero cell the loop is left; on any
other at least one step is made before the pass, and the pass comes back to the test. -/
theorem repeated (head : Config → σ → Prop)
    (hstop : ∀ c x, head c x → c.cell = 0 → ∃ n y, Runs step n x y ∧ exit c y)
    (hpass : ∀ c x, head c x → c.cell ≠ 0 → ∃ n y, Runs step (n + 1) x y ∧
      Realizes step failed R c y fun d z => ∃ k w, Runs step k z w ∧ head d w)
    (hx : head c x) : Realizes step failed (Behaviour.repeated R) c x exit where
  done {d} hd := by
    generalize he : Ending.done d = e at hd
    induction hd generalizing x with
    | stop zero =>
      obtain rfl := Ending.done.inj he
      exact hstop _ x hx zero
    | fault _ _ => cases he
    | pass nonzero pass _ ih =>
      obtain ⟨n, y, hy, hbody⟩ := hpass _ x hx nonzero
      obtain ⟨m, z, hz, k, w, hw, hhead⟩ := hbody.done pass
      obtain ⟨l, v, hv, hexit⟩ := ih hhead he
      exact ⟨n + 1 + m + k + l, v, ((hy.trans hz).trans hw).trans hv, hexit⟩
  fault {d} hd := by
    generalize he : Ending.fault d = e at hd
    induction hd generalizing x with
    | stop _ => cases he
    | fault nonzero pass =>
      obtain rfl := Ending.fault.inj he
      obtain ⟨n, y, hy, hbody⟩ := hpass _ x hx nonzero
      obtain ⟨r, hr, hf⟩ := hbody.fault pass
      exact ⟨r, hr.of_runs hy, hf⟩
    | pass nonzero pass _ ih =>
      obtain ⟨n, y, hy, hbody⟩ := hpass _ x hx nonzero
      obtain ⟨m, z, hz, k, w, hw, hhead⟩ := hbody.done pass
      obtain ⟨r, hr, hf⟩ := ih hhead he
      exact ⟨r, hr.of_runs ((hy.trans hz).trans hw), hf⟩
  forever hnone := Forever.of_long fun k => exists_long head hpass k hx hnone

end Realizes

end Brainfuck
