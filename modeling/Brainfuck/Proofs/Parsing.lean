import Brainfuck.Program.Parse
import Brainfuck.Proofs.LinearLoop

/-!
# What text can say

The tree of a text holds only instructions, and its moves go on: a run of moves counts from one up.
The reader keeps this of everything that it has read, finished or not, so it is an invariant of one
step and then of all of them.

* `Reading.MovesOn`: the invariant.
* `Program.every_movesOn_of_parse`: the tree of a text.
-/

namespace Brainfuck

/-- Whether all nodes of a list are instructions whose moves and scans go on. -/
def AllMoveOn (done : List Node) : Prop := ∀ n ∈ done, n.every Node.movesOn = true

namespace AllMoveOn

variable {n : Node} {done : List Node}

theorem nil : AllMoveOn [] := fun _ hn => absurd hn List.not_mem_nil

theorem cons (hn : n.every Node.movesOn = true) (h : AllMoveOn done) : AllMoveOn (n :: done) :=
  List.forall_mem_cons.mpr ⟨hn, h⟩

theorem head (h : AllMoveOn (n :: done)) : n.every Node.movesOn = true := h n List.mem_cons_self

theorem tail (h : AllMoveOn (n :: done)) : AllMoveOn done :=
  fun n' hn' => h n' (List.mem_cons_of_mem n hn')

theorem foldRight (h : AllMoveOn done) : AllMoveOn (foldRight done) := by
  rw [foldRight.eq_def]
  split
  case h_1 k done =>
    have hk : 1 ≤ k := of_decide_eq_true h.head
    exact h.tail.cons (decide_eq_true (by omega))
  case h_2 => exact h.cons rfl

theorem foldLeft (h : AllMoveOn done) : AllMoveOn (foldLeft done) := by
  rw [foldLeft.eq_def]
  split
  case h_1 k done =>
    have hk : 1 ≤ k := of_decide_eq_true h.head
    exact h.tail.cons (decide_eq_true (by omega))
  case h_2 => exact h.cons rfl

theorem foldPlus (h : AllMoveOn done) : AllMoveOn (foldPlus done) := by
  rw [foldPlus.eq_def]
  split
  case h_1 => exact h.tail.cons rfl
  case h_2 => exact h.cons rfl

theorem foldMinus (h : AllMoveOn done) : AllMoveOn (foldMinus done) := by
  rw [foldMinus.eq_def]
  split
  case h_1 => exact h.tail.cons rfl
  case h_2 => exact h.cons rfl

theorem reverse (h : AllMoveOn done) : AllMoveOn done.reverse :=
  fun n hn => h n (List.mem_reverse.mp hn)

end AllMoveOn

/-- Everything that has been read moves on. -/
structure Reading.MovesOn (r : Reading) : Prop where
  done : AllMoveOn r.done
  loops : ∀ l ∈ r.loops, AllMoveOn l.before

/-- Reading a token keeps the invariant. -/
theorem Reading.MovesOn.step {r r' : Reading} {t : Token} (hr : r.MovesOn)
    (h : r.step t = .ok r') : r'.MovesOn := by
  rw [Reading.step.eq_def] at h
  split at h
  case h_1 =>
    obtain rfl := Except.ok.inj h
    exact ⟨hr.done.foldRight, hr.loops⟩
  case h_2 =>
    obtain rfl := Except.ok.inj h
    exact ⟨hr.done.foldLeft, hr.loops⟩
  case h_3 =>
    obtain rfl := Except.ok.inj h
    exact ⟨hr.done.foldPlus, hr.loops⟩
  case h_4 =>
    obtain rfl := Except.ok.inj h
    exact ⟨hr.done.foldMinus, hr.loops⟩
  case h_5 | h_6 =>
    obtain rfl := Except.ok.inj h
    exact ⟨hr.done.cons rfl, hr.loops⟩
  case h_7 =>
    obtain rfl := Except.ok.inj h
    refine ⟨.nil, fun l hl => ?_⟩
    rcases List.mem_cons.mp hl with rfl | hl
    · exact hr.done
    · exact hr.loops l hl
  case h_8 =>
    split at h
    case h_1 => cases h
    case h_2 outer loops hloops =>
      obtain rfl := Except.ok.inj h
      have hbody : Program.every Node.movesOn r.done.reverse = true :=
        Program.every_iff.mpr hr.done.reverse
      have hloop : (Node.loop r.done.reverse).every Node.movesOn = true := by
        rw [Node.every, hbody]
        rfl
      have houter : outer ∈ r.loops := by
        rw [hloops]
        exact List.mem_cons_self
      refine ⟨(hr.loops outer houter).cons hloop, fun l hl => hr.loops l ?_⟩
      rw [hloops]
      exact List.mem_cons_of_mem _ hl

/-- Reading tokens keeps the invariant. -/
theorem Reading.MovesOn.foldlM {tokens : List Token} {r r' : Reading} (hr : r.MovesOn)
    (h : tokens.foldlM Reading.step r = .ok r') : r'.MovesOn := by
  induction tokens generalizing r with
  | nil =>
    obtain rfl := Except.ok.inj h
    exact hr
  | cons t tokens ih =>
    rw [List.foldlM_cons] at h
    cases hstep : r.step t with
    | error e => rw [hstep] at h; cases h
    | ok r₁ =>
      rw [hstep] at h
      exact ih (hr.step hstep) h

/-- The tree of a text holds only instructions, and its moves go on. -/
theorem Program.every_movesOn_of_parse {source : String} {p : Program}
    (h : Program.parse source = .ok p) : Program.every Node.movesOn p = true := by
  rw [Program.parse, Program.ofTokens] at h
  have hstart : Reading.start.MovesOn := ⟨.nil, fun l hl => absurd hl List.not_mem_nil⟩
  cases hread : (Token.scan source).foldlM Reading.step Reading.start with
  | error e => rw [hread] at h; cases h
  | ok r =>
    rw [hread] at h
    change r.finish = .ok p at h
    rw [Reading.finish] at h
    split at h
    case h_1 =>
      obtain rfl := Except.ok.inj h
      exact Program.every_iff.mpr (hstart.foldlM hread).done.reverse
    case h_2 => cases h

end Brainfuck
