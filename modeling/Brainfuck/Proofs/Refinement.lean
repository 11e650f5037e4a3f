import Brainfuck.Proofs.Meaning

/-!
# One behaviour in place of another

A rewriting of trees may do two things to a behaviour.  It must keep every normal ending, and it must
not end where there was no ending; this is `Refines`.  A fault is another matter: the new behaviour
may do anything where the old one faults, as long as it ends at all.

Keeping faults as well is a second relation on top of the first.  What has to be kept of a fault is
the output: where the pointer was and what the cells were at that moment depends on how far a
sequence of changes had got.

Both relations are carried through sequences and loops.  That a loop does not end more often than
before uses that the new behaviour is deterministic: the pass that ended and the pass that was kept
are then the same.

* `Refines`, `KeepsFaults`: the two relations.
* `Refines.andThen`, `Refines.repeated`, `KeepsFaults.andThen`, `KeepsFaults.repeated`: sequences and
  loops.
* `Refines.fault_of_fault`: a fault of the new behaviour is one of the old behaviour.
-/

namespace Brainfuck

open Behaviour

/-- The second behaviour has all normal endings of the first, and no ending where the first has
none. -/
structure Refines (R S : Behaviour) : Prop where
  done : ∀ {c d : Config}, R c (.done d) → S c (.done d)
  stops : ∀ {c : Config} {e : Ending}, S c e → ∃ e', R c e'

/-- Where the first behaviour faults the second one does, with the same output. -/
def KeepsFaults (R S : Behaviour) : Prop :=
  ∀ ⦃c d : Config⦄, R c (.fault d) → ∃ d', S c (.fault d') ∧ d'.written = d.written

namespace Refines

variable {R R' S S' T : Behaviour}

theorem refl (R : Behaviour) : Refines R R where
  done h := h
  stops h := ⟨_, h⟩

theorem trans (h : Refines R S) (h' : Refines S T) : Refines R T where
  done hd := h'.done (h.done hd)
  stops he := by
    obtain ⟨e', he'⟩ := h'.stops he
    exact h.stops he'

/-- A fault of the new behaviour is one of the old behaviour. -/
theorem fault_of_fault (h : Refines R S) (hS : Deterministic S) {c d : Config}
    (hd : S c (.fault d)) : ∃ d', R c (.fault d') := by
  obtain ⟨e', he'⟩ := h.stops hd
  cases e' with
  | done d' => exact absurd (hS hd (h.done he')) (by simp)
  | fault d' => exact ⟨d', he'⟩

/-- A normal ending of the new behaviour is one of the old behaviour, unless that faults. -/
theorem done_or_fault (h : Refines R S) (hS : Deterministic S) {c d : Config}
    (hd : S c (.done d)) : R c (.done d) ∨ ∃ d', R c (.fault d') := by
  obtain ⟨e', he'⟩ := h.stops hd
  cases e' with
  | done d' =>
    obtain rfl := Ending.done.inj (hS hd (h.done he'))
    exact Or.inl he'
  | fault d' => exact Or.inr ⟨d', he'⟩

/-- Where both behaviours have the same ending, or the first one faults, there is nothing else to
show. -/
theorem of_cases (hR : Deterministic R)
    (h : ∀ c, (∃ d, R c (.done d) ∧ S c (.done d)) ∨ ∃ d, R c (.fault d)) : Refines R S where
  done {c d} hd := by
    rcases h c with ⟨d', hd', hS⟩ | ⟨d', hd'⟩
    · rwa [Ending.done.inj (hR hd hd')]
    · exact absurd (hR hd hd') (by simp)
  stops {c e} _ := by
    rcases h c with ⟨d, hd, _⟩ | ⟨d, hd⟩
    · exact ⟨_, hd⟩
    · exact ⟨_, hd⟩

/-- A behaviour of which a fault leaves nothing behind. -/
theorem orNothing (R : Behaviour) : Refines R (orNothing R) where
  done hd := Or.inl ⟨_, hd, rfl⟩
  stops he := by
    rcases he with ⟨d, hd, _⟩ | ⟨d, hd, _⟩
    · exact ⟨_, hd⟩
    · exact ⟨_, hd⟩

theorem andThen (h : Refines R S) (hS : Deterministic S) (h' : Refines R' S') :
    Refines (andThen R R') (andThen S S') where
  done hd := by
    cases hd with
    | pass first second => exact .pass (h.done first) (h'.done second)
  stops he := by
    cases he with
    | fault first =>
      obtain ⟨d', hd'⟩ := h.fault_of_fault hS first
      exact ⟨_, .fault hd'⟩
    | pass first second =>
      rcases h.done_or_fault hS first with hd | ⟨d', hd'⟩
      · obtain ⟨e', he'⟩ := h'.stops second
        exact ⟨e', .pass hd he'⟩
      · exact ⟨_, .fault hd'⟩

theorem repeated (h : Refines R S) (hS : Deterministic S) :
    Refines (repeated R) (repeated S) where
  done {c d} hd := by
    generalize he : Ending.done d = e at hd
    induction hd with
    | stop zero => exact .stop zero
    | fault _ _ => cases he
    | pass nonzero pass _ ih => exact .pass nonzero (h.done pass) (ih he)
  stops {c e} he := by
    induction he with
    | stop zero => exact ⟨_, .stop zero⟩
    | fault nonzero pass =>
      obtain ⟨d', hd'⟩ := h.fault_of_fault hS pass
      exact ⟨_, .fault nonzero hd'⟩
    | pass nonzero pass _ ih =>
      rcases h.done_or_fault hS pass with hd | ⟨d', hd'⟩
      · obtain ⟨e', he'⟩ := ih
        exact ⟨e', .pass nonzero hd he'⟩
      · exact ⟨_, .fault nonzero hd'⟩

theorem unlessZero {R S : UInt8 → Behaviour} (h : ∀ value, Refines (R value) (S value)) :
    Refines (unlessZero R) (unlessZero S) where
  done {c d} hd := by
    by_cases hzero : c.cell = 0
    · rwa [unlessZero_of_zero hzero] at hd ⊢
    · rw [unlessZero_of_ne_zero hzero] at hd ⊢
      exact (h c.cell).done hd
  stops {c e} he := by
    by_cases hzero : c.cell = 0
    · exact ⟨.done c, (unlessZero_of_zero hzero _).mpr rfl⟩
    · obtain ⟨e', he'⟩ := (h c.cell).stops ((unlessZero_of_ne_zero hzero e).mp he)
      exact ⟨e', (unlessZero_of_ne_zero hzero e').mpr he'⟩

end Refines

namespace KeepsFaults

variable {R R' S S' T : Behaviour}

theorem refl (R : Behaviour) : KeepsFaults R R := fun _ _ h => ⟨_, h, rfl⟩

theorem trans (h : KeepsFaults R S) (h' : KeepsFaults S T) : KeepsFaults R T := by
  intro c d hd
  obtain ⟨d', hd', hwritten⟩ := h hd
  obtain ⟨d'', hd'', hwritten'⟩ := h' hd'
  exact ⟨d'', hd'', hwritten'.trans hwritten⟩

/-- A fault that has written nothing may leave nothing behind. -/
theorem orNothing (h : ∀ {c d : Config}, R c (.fault d) → d.written = c.written) :
    KeepsFaults R (orNothing R) :=
  fun c _ hd => ⟨c, Or.inr ⟨_, hd, rfl⟩, (h hd).symm⟩

theorem andThen (hrefines : Refines R S) (h : KeepsFaults R S) (h' : KeepsFaults R' S') :
    KeepsFaults (andThen R R') (andThen S S') := by
  intro c d hd
  cases hd with
  | fault first =>
    obtain ⟨d', hd', hwritten⟩ := h first
    exact ⟨d', .fault hd', hwritten⟩
  | pass first second =>
    obtain ⟨d', hd', hwritten⟩ := h' second
    exact ⟨d', .pass (hrefines.done first) hd', hwritten⟩

theorem repeated (hrefines : Refines R S) (h : KeepsFaults R S) :
    KeepsFaults (repeated R) (repeated S) := by
  intro c d hd
  generalize he : Ending.fault d = e at hd
  induction hd with
  | stop _ => cases he
  | fault nonzero pass =>
    obtain rfl := Ending.fault.inj he
    obtain ⟨d', hd', hwritten⟩ := h pass
    exact ⟨d', .fault nonzero hd', hwritten⟩
  | pass nonzero pass _ ih =>
    obtain ⟨d', hd', hwritten⟩ := ih he
    exact ⟨d', .pass nonzero (hrefines.done pass) hd', hwritten⟩

theorem unlessZero {R S : UInt8 → Behaviour} (h : ∀ value, KeepsFaults (R value) (S value)) :
    KeepsFaults (unlessZero R) (unlessZero S) := by
  intro c d hd
  by_cases hzero : c.cell = 0
  · exact absurd ((unlessZero_of_zero hzero _).mp hd) (by simp)
  · obtain ⟨d', hd', hwritten⟩ := h c.cell ((unlessZero_of_ne_zero hzero _).mp hd)
    exact ⟨d', (unlessZero_of_ne_zero hzero _).mpr hd', hwritten⟩

end KeepsFaults

end Brainfuck
