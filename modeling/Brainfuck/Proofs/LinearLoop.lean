import Brainfuck.Program.Linear
import Brainfuck.Proofs.Meaning
import Mathlib.Logic.Basic

/-!
# Linear sequences and the loops around them

A linear sequence is known by two things: its delta map, which says what it adds to the cells, and
the leftmost offset that it passes through, which decides whether it faults.  The map does not
determine the offset: a sequence may pass through a cell and leave it as it was.

A loop around a linear sequence that returns and takes one from its own cell makes as many passes as
the cell says, so it adds the delta map that many times.  That is `repeated_linear`, by induction on
the value of the cell.

* `leftmost`: the leftmost offset of a linear sequence.
* `means_of_walk`, `fault_of_walk`: what a linear sequence does, with any scale.
* `Config.settled`, `repeated_linear`: the closed form of a linear loop.
* `leftmost_le_of_changed`: what is changed has been passed.
-/

namespace Brainfuck

open Behaviour

/-- Whether a node is an instruction, and its amount is positive if it is a move or a scan, and not
negative if it is a carry. -/
def Node.movesOn : Node → Bool
  | .moveRight n | .moveLeft n | .scanRight n | .scanLeft n => 1 ≤ n
  | .carryRight n | .carryLeft n => 0 ≤ n
  | .foreign _ | .derived _ _ => false
  | .increment _ | .decrement _ | .output | .input | .loop _ | .clear | .scaled _ => true

theorem Node.hasSoundDistance_of_movesOn (n : Node) (h : n.movesOn = true) :
    n.hasSoundDistance = true := by
  cases n with
  | scanRight _ | scanLeft _ | carryRight _ | carryLeft _ => exact h
  | moveRight _ | moveLeft _ =>
    have := of_decide_eq_true h
    exact decide_eq_true (by omega)
  | _ => rfl

theorem Node.isInstruction_of_movesOn (n : Node) (h : n.movesOn = true) : n.isInstruction = true := by
  cases n with
  | foreign _ | derived _ _ => exact h
  | _ => rfl

/-! ## Bytes of integers -/

theorem ofInt_sub (m n : Int) : UInt8.ofInt (m - n) = .ofInt m - .ofInt n := by
  rw [Int.sub_eq_add_neg, UInt8.ofInt_add, UInt8.ofInt_neg, UInt8.sub_eq_add_neg]

/-! ## Passes -/

/-- The leftmost offset that a linear sequence passes through, from an offset. -/
def leftmost (here : Int) : List Node → Int
  | [] => here
  | .moveRight n :: p => min here (leftmost (here + n) p)
  | .moveLeft n :: p => min here (leftmost (here - n) p)
  | _ :: p => leftmost here p

/-- The way begins at its own start. -/
theorem leftmost_le (here : Int) (p : List Node) : leftmost here p ≤ here := by
  fun_induction leftmost here p with
  | case1 => exact Int.le_refl _
  | case2 | case3 => exact Int.min_le_left _ _
  | case4 _ _ _ _ _ ih => exact ih

/-- What is left of a configuration after changes that take one delta map to another, as seen from an
origin, when the pointer is at an offset from it. -/
def Config.walked (c : Config) (scale : UInt8) (origin : Nat) (m m' : DeltaMap) (here : Int) :
    Config :=
  { c with
    cells := fun j => c.cells j +
      scale * (.ofInt (m'.get ((j : Int) - origin)) - .ofInt (m.get ((j : Int) - origin)))
    index := (origin + here).toNat }

/-- A change of the current cell and what comes after it. -/
theorem Config.walked_store {c : Config} {scale v : UInt8} {origin : Nat} {m m' : DeltaMap}
    {here here' n : Int} {f : Int → Int} (hindex : (c.index : Int) = origin + here)
    (hf : UInt8.ofInt (f (m.get here)) = .ofInt (m.get here) + .ofInt n)
    (hv : v = c.cell + .ofInt n * scale) :
    (c.store v).walked scale origin (m.adjust here f) m' here' =
      c.walked scale origin m m' here' := by
  simp only [walked, store, Config.mk.injEq, and_true]
  funext j
  rw [DeltaMap.get_adjust, Function.update_apply]
  by_cases hj : j = c.index
  · have hoffset : (j : Int) - origin = here := by omega
    rw [if_pos hj, if_pos hoffset, hf, hv, Config.cell, hoffset, hj]
    grind
  · rw [if_neg hj, if_neg (by omega)]

/-- A linear sequence that stays on the tape ends, and has changed the cells as its walk says. -/
theorem means_of_walk (scale : UInt8) {origin : Nat} {here here' : Int} {m m' : DeltaMap}
    {p : List Node} (hwalk : walk? here m p = some (here', m'))
    (hok : Program.every Node.movesOn p = true) {c : Config}
    (hindex : (c.index : Int) = origin + here) (hinside : 0 ≤ origin + leftmost here p) :
    Program.Means scale p c (.done (c.walked scale origin m m' here')) := by
  fun_induction walk? here m p generalizing c with
  | case1 here m =>
    obtain ⟨rfl, rfl⟩ := Prod.mk.inj (Option.some.inj hwalk)
    have hsame : c.walked scale origin m m here = c := by
      rw [Config.walked, ← hindex, Int.toNat_natCast]
      simp
    rw [hsame]
    rfl
  | case2 here m n p ih =>
    rw [Program.every, Bool.and_eq_true] at hok
    have hn : 1 ≤ n := of_decide_eq_true hok.1
    rw [leftmost] at hinside
    exact .pass rfl (ih hwalk hok.2 (c := c.goTo (c.index + n.toNat))
      (by rw [Config.goTo_index]; omega) (by omega))
  | case3 here m n p ih =>
    rw [Program.every, Bool.and_eq_true] at hok
    have hn : 1 ≤ n := of_decide_eq_true hok.1
    rw [leftmost] at hinside
    have hnext := leftmost_le (here - n) p
    have hmove : Ending.done (c.goTo (c.index - n.toNat)) = c.moveLeft n.toNat := by
      rw [Config.moveLeft, if_neg (by omega)]
    exact .pass hmove (ih hwalk hok.2 (c := c.goTo (c.index - n.toNat))
      (by rw [Config.goTo_index]; omega) (by omega))
  | case4 here m n p ih =>
    rw [Program.every, Bool.and_eq_true] at hok
    have hrest := ih hwalk hok.2 (c := c.store (c.cell + .ofInt n * scale)) hindex hinside
    rw [Config.walked_store (n := n) hindex (by rw [ofInt_emod, UInt8.ofInt_add]) rfl] at hrest
    exact .pass rfl hrest
  | case5 here m n p ih =>
    rw [Program.every, Bool.and_eq_true] at hok
    have hrest := ih hwalk hok.2 (c := c.store (c.cell - .ofInt n * scale)) hindex hinside
    rw [Config.walked_store (n := -n) hindex (by rw [ofInt_emod, ofInt_sub, UInt8.ofInt_neg]; grind)
      (by rw [UInt8.ofInt_neg]; grind)] at hrest
    exact .pass rfl hrest
  | case6 => cases hwalk

/-- A linear sequence that leaves the tape faults, and has written nothing. -/
theorem fault_of_walk (scale : UInt8) {origin : Nat} {here : Int} {m : DeltaMap} {p : List Node}
    (hwalk : (walk? here m p).isSome) (hok : Program.every Node.movesOn p = true) {c : Config}
    (hindex : (c.index : Int) = origin + here) (houtside : origin + leftmost here p < 0) :
    ∃ d, Program.Means scale p c (.fault d) ∧ d.written = c.written := by
  fun_induction walk? here m p generalizing c with
  | case1 here m =>
    rw [leftmost] at houtside
    omega
  | case2 here m n p ih =>
    rw [Program.every, Bool.and_eq_true] at hok
    have hn : 1 ≤ n := of_decide_eq_true hok.1
    rw [leftmost] at houtside
    obtain ⟨d, hd, hwritten⟩ := ih hwalk hok.2 (c := c.goTo (c.index + n.toNat))
      (by rw [Config.goTo_index]; omega) (by omega)
    exact ⟨d, .pass rfl hd, hwritten⟩
  | case3 here m n p ih =>
    rw [Program.every, Bool.and_eq_true] at hok
    have hn : 1 ≤ n := of_decide_eq_true hok.1
    rw [leftmost] at houtside
    by_cases hlt : c.index < n.toNat
    · exact ⟨c, .fault (by simp only [Node.Means, Config.moveLeft, if_pos hlt]), rfl⟩
    · have hmove : Ending.done (c.goTo (c.index - n.toNat)) = c.moveLeft n.toNat := by
        rw [Config.moveLeft, if_neg hlt]
      obtain ⟨d, hd, hwritten⟩ := ih hwalk hok.2 (c := c.goTo (c.index - n.toNat))
        (by rw [Config.goTo_index]; omega) (by omega)
      exact ⟨d, .pass hmove hd, hwritten⟩
  | case4 here m n p ih =>
    rw [Program.every, Bool.and_eq_true] at hok
    obtain ⟨d, hd, hwritten⟩ := ih hwalk hok.2 (c := c.store (c.cell + .ofInt n * scale)) hindex
      houtside
    exact ⟨d, .pass rfl hd, hwritten⟩
  | case5 here m n p ih =>
    rw [Program.every, Bool.and_eq_true] at hok
    obtain ⟨d, hd, hwritten⟩ := ih hwalk hok.2 (c := c.store (c.cell - .ofInt n * scale)) hindex
      houtside
    exact ⟨d, .pass rfl hd, hwritten⟩
  | case6 => cases hwalk

/-- A cell that is changed has been passed. -/
theorem leftmost_le_of_changed {here here' : Int} {m m' : DeltaMap} {p : List Node}
    (hwalk : walk? here m p = some (here', m')) {k : Int} (hk : m'.get k ≠ m.get k) :
    leftmost here p ≤ k := by
  fun_induction walk? here m p with
  | case1 here m =>
    obtain ⟨rfl, rfl⟩ := Prod.mk.inj (Option.some.inj hwalk)
    exact absurd rfl hk
  | case2 here m n p ih =>
    rw [leftmost]
    have := ih hwalk hk
    omega
  | case3 here m n p ih =>
    rw [leftmost]
    have := ih hwalk hk
    omega
  | case4 here m n p ih | case5 here m n p ih =>
    change leftmost here p ≤ k
    by_cases hhere : k = here
    · rw [hhere]
      exact leftmost_le here p
    · refine ih hwalk ?_
      rwa [DeltaMap.get_adjust, if_neg hhere]
  | case6 => cases hwalk

/-! ## Loops -/

/-- The changes of a delta map around the pointer, made a number of times. -/
def Config.change (c : Config) (times : UInt8) (m : DeltaMap) : Config :=
  { c with cells := fun j => c.cells j + times * .ofInt (m.get ((j : Int) - c.index)) }

@[simp] theorem Config.change_zero (c : Config) (m : DeltaMap) : c.change 0 m = c := by
  simp [change]

/-- What a linear loop leaves: its changes are made as often as its own cell says, and that cell is
zero. -/
def Config.settled (c : Config) (m : DeltaMap) : Config := (c.change c.cell m).store 0

/-- Where the cell is zero there is nothing to change. -/
theorem Config.settled_of_zero {c : Config} (h : c.cell = 0) (m : DeltaMap) : c.settled m = c := by
  rw [settled, h, change_zero, store_cell h]

/-- The walk of a sequence that returns. -/
theorem walk_of_deltas {body : List Node} {m : DeltaMap} (h : deltas? body = some m) :
    walk? 0 .empty body = some (0, m) := by
  rw [deltas?] at h
  split at h
  case h_1 here m' hwalk =>
    split at h
    case isTrue hzero => rw [hwalk, hzero, Option.some.inj h]
    case isFalse => cases h
  case h_2 => cases h

variable {body : List Node} {m : DeltaMap} {c : Config}

/-- From the empty map and back to the start, a walk changes what its map says. -/
theorem Config.walked_empty (c : Config) (scale : UInt8) (m : DeltaMap) :
    c.walked scale c.index .empty m 0 = c.change scale m := by
  simp only [walked, change, Int.add_zero, Int.toNat_natCast, Config.mk.injEq, and_true]
  funext j
  rw [show DeltaMap.empty.get ((j : Int) - c.index) = 0 from rfl,
    show UInt8.ofInt 0 = 0 from rfl, UInt8.sub_zero]

/-- One pass over a linear sequence that returns. -/
theorem means_of_deltas (hbody : deltas? body = some m)
    (hok : Program.every Node.movesOn body = true) (scale : UInt8)
    (hinside : 0 ≤ c.index + leftmost 0 body) :
    Program.Means scale body c (.done (c.change scale m)) := by
  have hpass := means_of_walk scale (walk_of_deltas hbody) hok
    (Int.add_zero (c.index : Int)).symm hinside
  rwa [Config.walked_empty] at hpass

theorem Config.cell_change_one (horigin : m.get 0 = 255) : (c.change 1 m).cell = c.cell + 255 := by
  simp only [cell, change, Int.sub_self, horigin]
  rfl

/-- A pass that takes one from the cell brings the loop nearer to its end. -/
theorem Config.toNat_cell_change {value : Nat} (horigin : m.get 0 = 255)
    (hvalue : c.cell.toNat = value + 1) : (c.change 1 m).cell.toNat = value := by
  have := c.cell.toNat_lt
  rw [cell_change_one horigin, UInt8.toNat_add, hvalue]
  change (value + 1 + 255) % 256 = value
  omega

/-- A pass that takes one from the cell does not change what the loop leaves. -/
theorem Config.settled_change (horigin : m.get 0 = 255) :
    (c.change 1 m).settled m = c.settled m := by
  refine store_congr 0 rfl rfl rfl fun j _ => ?_
  rw [cell_change_one horigin]
  simp only [change]
  grind

/-- **The closed form of a linear loop.**  A loop around a linear sequence that returns, takes one
from its own cell and stays on the tape makes as many passes as the cell says.  If it makes none, it
does not matter where the sequence would have gone. -/
theorem repeated_linear (hbody : deltas? body = some m)
    (hok : Program.every Node.movesOn body = true) (horigin : m.get 0 = 255)
    (hinside : c.cell ≠ 0 → 0 ≤ c.index + leftmost 0 body) :
    repeated (Program.Means 1 body) c (.done (c.settled m)) := by
  generalize hvalue : c.cell.toNat = value
  induction value generalizing c with
  | zero =>
    have hzero : c.cell = 0 := UInt8.toNat_inj.mp hvalue
    rw [Config.settled_of_zero hzero]
    exact .stop hzero
  | succ value ih =>
    have hnonzero : c.cell ≠ 0 := fun hzero => by rw [hzero] at hvalue; cases hvalue
    have hrest := ih (c := c.change 1 m) (fun _ => hinside hnonzero)
      (Config.toNat_cell_change horigin hvalue)
    rw [Config.settled_change horigin] at hrest
    exact .pass hnonzero (means_of_deltas hbody hok 1 (hinside hnonzero)) hrest

/-- A loop around a linear sequence that leaves the tape faults in its first pass. -/
theorem repeated_linear_fault (hbody : deltas? body = some m)
    (hok : Program.every Node.movesOn body = true) (hnonzero : c.cell ≠ 0)
    (houtside : c.index + leftmost 0 body < 0) :
    ∃ d, repeated (Program.Means 1 body) c (.fault d) ∧ d.written = c.written := by
  have hwalk : (walk? 0 .empty body).isSome = true := by rw [walk_of_deltas hbody]; rfl
  obtain ⟨d, hd, hwritten⟩ := fault_of_walk 1 hwalk hok
    (Int.add_zero (c.index : Int)).symm houtside
  exact ⟨d, .fault hnonzero hd, hwritten⟩

end Brainfuck
