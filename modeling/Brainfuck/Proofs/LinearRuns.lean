import Brainfuck.Proofs.LinearLoop
import Brainfuck.Proofs.Visits

/-!
# How often a linear loop runs

`repeated_linear` says what a linear loop means.  Here the flat code of the loop is run, instruction
by instruction, and the instructions are counted: a loop around a linear sequence that returns and
takes one from its own cell carries out each instruction of its body exactly as often as that cell
says, wherever the loop stands in a program and whatever the tape.

Both inductions are those of the closed form.  Along the body the invariant is that the cells differ
from those at the start by what the walk has noted, at the offset that the walk has reached; along the
passes the value of the cell goes down by one, whatever the body did to it in between.

* `passed`: the offsets that a linear sequence passes through.
* `Execution.Shows`: an execution at an address, and the configuration that it shows.
* `Execution.Obeys`, `Execution.Passes`: one instruction, and instructions in a row that are carried
  out once each.
* `passes_of_walk`, `exists_course_of_linear`: one pass over the body, and all passes.
* `Program.linear_loop_runs`: the run of a linear loop.
-/

namespace Brainfuck

open Execution

/-- Whether the amount of a node is not negative, if it is a move. -/
def Node.hasNaturalMove : Node → Bool
  | .moveRight n | .moveLeft n => 0 ≤ n
  | _ => true

/-- The offsets that a linear sequence passes through, from an offset on: where it is at the start
and after each move. -/
def passed (here : Int) : List Node → List Int
  | [] => [here]
  | .moveRight n :: p => here :: passed (here + n) p
  | .moveLeft n :: p => here :: passed (here - n) p
  | _ :: p => passed here p

theorem mem_passed_self (here : Int) (p : List Node) : here ∈ passed here p := by
  fun_induction passed here p with
  | case1 here => exact List.mem_singleton_self here
  | case2 | case3 => exact List.mem_cons_self
  | case4 here node p hright hleft ih => exact ih

theorem leftmost_mem_passed (here : Int) (p : List Node) : leftmost here p ∈ passed here p := by
  fun_induction leftmost here p with
  | case1 here => exact List.mem_singleton_self here
  | case2 here n p ih | case3 here n p ih =>
    rw [passed, List.mem_cons]
    rcases Int.le_total here (leftmost _ p) with h | h
    · exact Or.inl (Int.min_eq_left h)
    · rw [Int.min_eq_right h]
      exact Or.inr ih
  | case4 here node p hright hleft ih =>
    rw [passed]
    · exact ih
    · exact hright
    · exact hleft

/-! ## What an execution shows -/

variable {p : FlatCode} {address : Nat} {c d : Config} {x : Execution}

/-- The execution is at an address and shows a configuration. -/
structure Execution.Shows (address : Nat) (c : Config) (x : Execution) : Prop where
  pc : x.machine.pc = address
  pointer : x.machine.pointer = c.index
  cells : x.machine.tape.get = c.cells
  inside : c.index < x.machine.tape.size
  unread : x.unread = c.unread
  written : x.written = c.written

/-- The execution carries out the instruction at an address, and shows a configuration at the address
that it leads to. -/
def Execution.Obeys (p : FlatCode) (address target : Nat) (x : Execution) (d : Config) : Prop :=
  ∃ y, Course p (fun a => if address = a then 1 else 0) x y ∧ Shows target d y

/-- The execution carries out each of so many instructions from an address on once, and shows a
configuration behind them. -/
def Execution.Passes (p : FlatCode) (address length : Nat) (x : Execution) (d : Config) : Prop :=
  ∃ y, Course p (fun a => if address ≤ a ∧ a < address + length then 1 else 0) x y ∧
    Shows (address + length) d y

namespace Execution.Shows

theorem place (hx : Shows address c x) : x.machine.place = c.index := by
  rw [Machine.place, hx.pointer, Int.toNat_natCast]

theorem cell (hx : Shows address c x) : x.machine.cell = c.cell := by
  rw [Machine.cell, Config.cell, hx.cells, hx.place]

/-- The next instruction is plain if it is sound and computes an index that is a word. -/
theorem ready (hx : Shows address c x) {i : Instr} (hi : p.code[address]? = some i)
    (hsound : i.hasSoundDistance = true)
    (hgoal : ∀ target, x.machine.goal? i = some target → target < 2 ^ 63) : x.Ready p := by
  have honTape : x.machine.OnTape := by
    refine ⟨?_, ?_⟩ <;> rw [hx.pointer]
    · exact Int.natCast_nonneg c.index
    · exact Int.ofNat_lt.mpr hx.inside
  refine ⟨honTape, fun j hj => ?_, fun j target hj htarget => ?_⟩
  all_goals
    rw [hx.pc, hi] at hj
    obtain rfl := Option.some.inj hj
  · exact hsound
  · exact Or.inl (hgoal target htarget)

/-- Carries out an instruction that neither reads nor writes a byte. -/
theorem carryOut (hx : Shows address c x) {i : Instr} {m : Machine}
    (hi : p.code[address]? = some i) (hready : x.Ready p)
    (hexec : x.machine.plainCovered i = .next m) (hinside : d.index < m.tape.size)
    (hcells : m.tape.get = d.cells) (hindex : m.pointer = d.index) (hunread : c.unread = d.unread)
    (hwritten : c.written = d.written) : Obeys p address m.pc x d := by
  have hstep : x.smooth p =
      .next ⟨m, x.unread, x.written, x.steps + x.growths Machine.plain p + 1⟩ := by
    rw [smooth_of_fetch (hx.pc.symm ▸ hi), hexec, meet]
  have hcourse := Course.of_smooth hready hstep
  rw [hx.pc] at hcourse
  exact ⟨_, hcourse, rfl, hindex, hcells, hinside, hx.unread.trans hunread,
    hx.written.trans hwritten⟩

/-- Goes on at another address. -/
theorem jump (hx : Shows address c x) {i : Instr} {target : Nat}
    (hi : p.code[address]? = some i) (hready : x.Ready p)
    (hexec : x.machine.plainCovered i = .next { x.machine with pc := target }) :
    Obeys p address target x c :=
  hx.carryOut hi hready hexec hx.inside hx.cells hx.pointer rfl rfl

/-- At the start of a loop. -/
theorem loopStart (hx : Shows address c x) {behind : Nat}
    (hi : p.code[address]? = some (.loopStart behind)) :
    Obeys p address (if c.cell = 0 then behind else address + 1) x c := by
  refine hx.jump hi (hx.ready hi rfl fun target htarget => by cases htarget) ?_
  simp only [Machine.plainCovered, Machine.plain, hx.cell, Machine.advance, hx.pc]
  by_cases hzero : c.cell = 0
  · rw [if_pos hzero, if_pos hzero]
  · rw [if_neg hzero, if_neg hzero]

/-- At the end of a loop. -/
theorem loopEnd (hx : Shows address c x) {start : Nat}
    (hi : p.code[address]? = some (.loopEnd start)) : Obeys p address start x c :=
  hx.jump hi (hx.ready hi rfl fun target htarget => by cases htarget) rfl

end Execution.Shows

/-! ## One pass -/

namespace Execution.Passes

variable {length : Nat}

theorem nil (hx : Shows address c x) : Passes p address 0 x c := by
  refine ⟨x, (Course.refl p x).congr fun a => ?_, hx⟩
  rw [if_neg (by omega)]

/-- In front of the instructions stands one more. -/
theorem cons (first : Obeys p address (address + 1) x c)
    (rest : ∀ y, Shows (address + 1) c y → Passes p (address + 1) length y d) :
    Passes p address (length + 1) x d := by
  obtain ⟨y, hy, hshows⟩ := first
  obtain ⟨z, hz, hend⟩ := rest y hshows
  refine ⟨z, (hy.trans hz).congr fun a => ?_, ?_⟩
  · by_cases ha : address = a
    · rw [if_pos ha, if_neg (by omega), if_pos (by omega)]
    · rw [if_neg ha, Nat.zero_add]
      exact if_congr (by omega) rfl rfl
  · rwa [Nat.add_comm length, ← Nat.add_assoc]

theorem right {n : Int} (hx : Shows address c x) (hi : p.code[address]? = some (.right n))
    (hn : 0 ≤ n) (hword : c.index + n.toNat < 2 ^ 63)
    (rest : ∀ y, Shows (address + 1) (c.goTo (c.index + n.toNat)) y →
      Passes p (address + 1) length y d) : Passes p address (length + 1) x d := by
  have hready : x.Ready p := by
    refine hx.ready hi (decide_eq_true hn) fun target htarget => ?_
    rw [Machine.goal?, hx.place] at htarget
    exact Option.some.inj htarget ▸ hword
  have hexec := x.machine.plainCovered_right n
  rw [hx.pc, hx.place] at hexec
  refine cons (hx.carryOut (d := c.goTo (c.index + n.toNat)) hi hready hexec (Tape.lt_size_cover ..)
    ?_ rfl rfl rfl) rest
  funext j
  rw [Tape.get_cover, hx.cells, Config.goTo]

theorem left {n : Int} (hx : Shows address c x) (hi : p.code[address]? = some (.left n))
    (hn : 0 ≤ n) (hinside : n.toNat ≤ c.index)
    (rest : ∀ y, Shows (address + 1) (c.goTo (c.index - n.toNat)) y →
      Passes p (address + 1) length y d) : Passes p address (length + 1) x d := by
  have hready := hx.ready hi (decide_eq_true hn) fun target htarget => by cases htarget
  have hexec : x.machine.plainCovered (.left n) =
      .next ⟨address + 1, (c.index - n.toNat : Nat), x.machine.tape, x.machine.scales⟩ := by
    simp only [Machine.plainCovered, Machine.plain, hx.place, hx.pc, if_neg (Nat.not_lt.mpr hinside)]
  have hlt := Nat.lt_of_le_of_lt (Nat.sub_le c.index n.toNat) hx.inside
  exact cons (hx.carryOut (d := c.goTo (c.index - n.toNat)) hi hready hexec hlt hx.cells rfl rfl rfl)
    rest

/-- A change of the current cell. -/
theorem store {i : Instr} {v : UInt8} (hx : Shows address c x) (hi : p.code[address]? = some i)
    (hready : x.Ready p) (hexec : x.machine.plainCovered i = .next (x.machine.store v).advance)
    (rest : ∀ y, Shows (address + 1) (c.store v) y → Passes p (address + 1) length y d) :
    Passes p address (length + 1) x d := by
  have hcells : (x.machine.tape.set x.machine.place v).get = (c.store v).cells := by
    rw [Tape.get_set_eq_update (hx.place.symm ▸ hx.inside), hx.cells, hx.place, Config.store]
  have hsize : c.index < (x.machine.tape.set x.machine.place v).size := by
    rw [Tape.size_set]
    exact hx.inside
  have first := hx.carryOut (d := c.store v) hi hready hexec hsize hcells hx.pointer rfl rfl
  rw [Machine.advance, Machine.store, Machine.put, hx.pc] at first
  exact cons first rest

theorem add {n : UInt8} (hx : Shows address c x) (hi : p.code[address]? = some (.add n none))
    (rest : ∀ y, Shows (address + 1) (c.store (c.cell + n * 1)) y →
      Passes p (address + 1) length y d) : Passes p address (length + 1) x d :=
  store hx hi (hx.ready hi rfl fun target htarget => by cases htarget)
    (by rw [Machine.plainCovered, Machine.plain, hx.cell, Machine.factor]) rest

theorem sub {n : UInt8} (hx : Shows address c x) (hi : p.code[address]? = some (.sub n none))
    (rest : ∀ y, Shows (address + 1) (c.store (c.cell - n * 1)) y →
      Passes p (address + 1) length y d) : Passes p address (length + 1) x d :=
  store hx hi (hx.ready hi rfl fun target htarget => by cases htarget)
    (by rw [Machine.plainCovered, Machine.plain, hx.cell, Machine.factor]) rest

end Execution.Passes

/-- A linear sequence that stays on the tape and keeps to words carries out each of its instructions
once, and changes the cells as its walk says. -/
theorem passes_of_walk {body : List Node} {block : List Instr} {depth origin : Nat}
    {here here' : Int} {m m' : DeltaMap} (hwalk : walk? here m body = some (here', m'))
    (hmoves : body.all Node.hasNaturalMove = true)
    (hblock : Program.code address depth none body = .ok block)
    (hcode : StandsAt p.code address block) (hindex : (c.index : Int) = origin + here)
    (hinside : 0 ≤ origin + leftmost here body)
    (hwords : ∀ offset ∈ passed here body, origin + offset < 2 ^ 63) (hx : Shows address c x) :
    Passes p address block.length x (c.walked 1 origin m m' here') := by
  fun_induction walk? here m body generalizing address block c x with
  | case1 here m =>
    obtain ⟨rfl, rfl⟩ := Prod.mk.inj (Option.some.inj hwalk)
    have hsame : c.walked 1 origin m m here = c := by
      rw [Config.walked, ← hindex, Int.toNat_natCast]
      simp
    obtain rfl := Except.ok.inj hblock
    rw [hsame]
    exact .nil hx
  | case2 here m n body ih =>
    obtain ⟨first, rest, hfirst, hrest, rfl⟩ := Program.code_cons hblock
    obtain rfl := Except.ok.inj hfirst
    rw [List.all_cons, Bool.and_eq_true] at hmoves
    have hn : 0 ≤ n := of_decide_eq_true hmoves.1
    rw [leftmost] at hinside
    have hwords' := fun offset hoffset => hwords offset (List.mem_cons_of_mem here hoffset)
    have hword := hwords' _ (mem_passed_self (here + n) body)
    refine .right hx hcode.head hn (by omega) fun y hy => ?_
    exact ih hwalk hmoves.2 hrest hcode.tail (c := c.goTo (c.index + n.toNat))
      (by rw [Config.goTo_index]; omega) (by omega) hwords' hy
  | case3 here m n body ih =>
    obtain ⟨first, rest, hfirst, hrest, rfl⟩ := Program.code_cons hblock
    obtain rfl := Except.ok.inj hfirst
    rw [List.all_cons, Bool.and_eq_true] at hmoves
    have hn : 0 ≤ n := of_decide_eq_true hmoves.1
    rw [leftmost] at hinside
    have hnext := leftmost_le (here - n) body
    refine .left hx hcode.head hn (by omega) fun y hy => ?_
    exact ih hwalk hmoves.2 hrest hcode.tail (c := c.goTo (c.index - n.toNat))
      (by rw [Config.goTo_index]; omega) (by omega)
      (fun offset hoffset => hwords offset (List.mem_cons_of_mem here hoffset)) hy
  | case4 here m n body ih =>
    obtain ⟨first, rest, hfirst, hrest, rfl⟩ := Program.code_cons hblock
    obtain rfl := Except.ok.inj hfirst
    rw [List.all_cons, Bool.and_eq_true] at hmoves
    refine .add (n := .ofInt n) hx hcode.head fun y hy => ?_
    have hend := ih hwalk hmoves.2 hrest hcode.tail (c := c.store (c.cell + UInt8.ofInt n * 1))
      hindex hinside hwords hy
    rwa [Config.walked_store (n := n) hindex (by rw [ofInt_emod, UInt8.ofInt_add]) rfl] at hend
  | case5 here m n body ih =>
    obtain ⟨first, rest, hfirst, hrest, rfl⟩ := Program.code_cons hblock
    obtain rfl := Except.ok.inj hfirst
    rw [List.all_cons, Bool.and_eq_true] at hmoves
    refine .sub (n := .ofInt n) hx hcode.head fun y hy => ?_
    have hend := ih hwalk hmoves.2 hrest hcode.tail (c := c.store (c.cell - UInt8.ofInt n * 1))
      hindex hinside hwords hy
    rwa [Config.walked_store (n := -n) hindex (by rw [ofInt_emod, ofInt_sub, UInt8.ofInt_neg]; grind)
      (by rw [UInt8.ofInt_neg]; grind)] at hend
  | case6 => cases hwalk

/-! ## All passes -/

section Loop

variable {body : List Node} {m : DeltaMap} {inner : List Instr} {depth : Nat}

/-- One pass of a linear loop, from its test to its test. -/
theorem exists_course_of_pass (hbody : deltas? body = some m)
    (hmoves : body.all Node.hasNaturalMove = true)
    (hinner : Program.code (address + 1) depth none body = .ok inner)
    (hcode : StandsAt p.code address
      (.loopStart (address + inner.length + 2) :: inner ++ [.loopEnd address]))
    (hinside : 0 ≤ c.index + leftmost 0 body)
    (hwords : ∀ offset ∈ passed 0 body, c.index + offset < 2 ^ 63) (hnonzero : c.cell ≠ 0)
    (hx : Shows address c x) :
    ∃ y, Course p (fun a => if address ≤ a ∧ a < address + inner.length + 2 then 1 else 0) x y ∧
      Shows address (c.change 1 m) y := by
  obtain ⟨y, hy, hinto⟩ := hx.loopStart hcode.head
  rw [if_neg hnonzero] at hinto
  obtain ⟨z, hz, hend⟩ := passes_of_walk (walk_of_deltas hbody) hmoves hinner hcode.tail.left
    (Int.add_zero (c.index : Int)).symm hinside hwords hinto
  rw [Config.walked_empty] at hend
  obtain ⟨w, hw, hback⟩ := hend.loopEnd hcode.tail.right.head
  refine ⟨w, ((hy.trans hz).trans hw).congr fun a => ?_, hback⟩
  grind

/-- **The run of a linear loop.**  A loop around a linear sequence that returns, takes one from its
own cell, stays on the tape and keeps to words carries out its test once more than the cell says, and
everything else as often as the cell says. -/
theorem exists_course_of_linear (hbody : deltas? body = some m)
    (hmoves : body.all Node.hasNaturalMove = true) (horigin : m.get 0 = 255)
    (hinner : Program.code (address + 1) depth none body = .ok inner)
    (hcode : StandsAt p.code address
      (.loopStart (address + inner.length + 2) :: inner ++ [.loopEnd address]))
    (hinside : 0 ≤ c.index + leftmost 0 body)
    (hwords : ∀ offset ∈ passed 0 body, c.index + offset < 2 ^ 63) (hx : Shows address c x) :
    ∃ y, Course p (fun a => (if address ≤ a ∧ a < address + inner.length + 2 then c.cell.toNat
        else 0) + if address = a then 1 else 0) x y ∧
      Shows (address + inner.length + 2) (c.settled m) y := by
  generalize hvalue : c.cell.toNat = value
  induction value generalizing c x with
  | zero =>
    have hzero : c.cell = 0 := UInt8.toNat_inj.mp hvalue
    obtain ⟨y, hy, hbehind⟩ := hx.loopStart hcode.head
    rw [if_pos hzero] at hbehind
    rw [Config.settled_of_zero hzero]
    refine ⟨y, hy.congr fun a => ?_, hbehind⟩
    rw [ite_self, Nat.zero_add]
  | succ value ih =>
    have hnonzero : c.cell ≠ 0 := fun hzero => by rw [hzero] at hvalue; cases hvalue
    obtain ⟨y, hy, hagain⟩ := exists_course_of_pass hbody hmoves hinner hcode hinside hwords hnonzero hx
    obtain ⟨z, hz, hend⟩ := ih (c := c.change 1 m) hinside hwords hagain
      (Config.toNat_cell_change horigin hvalue)
    rw [Config.settled_change horigin] at hend
    refine ⟨z, (hy.trans hz).congr fun a => ?_, hend⟩
    by_cases ha : address ≤ a ∧ a < address + inner.length + 2
    · rw [if_pos ha, if_pos ha, if_pos ha, ← Nat.add_assoc, Nat.add_comm 1 value]
    · rw [if_neg ha, if_neg ha, if_neg ha, Nat.zero_add]

end Loop

/-! ## Whole executions -/

/-- How a linear loop with a delta map leaves a tape: the cell under the pointer is zero, and each
other cell has been changed as the map says, as often as that cell said. -/
def Tape.Settled (m : DeltaMap) (pointer : Nat) (t t' : Tape) : Prop :=
  ∀ j : Nat, t'.get j =
    if j = pointer then 0 else t.get j + t.get pointer * .ofInt (m.get ((j : Int) - pointer))

theorem Config.cells_settled (c : Config) (m : DeltaMap) (j : Nat) :
    (c.settled m).cells j =
      if j = c.index then 0 else c.cells j + c.cell * .ofInt (m.get ((j : Int) - c.index)) := by
  rw [settled]
  exact Function.update_apply ..

/-- So many steps lead from the test of a linear loop to the address behind the loop.  What they leave
is what the loop leaves, and they carry out everything between the test and the jump back as often as
the cell under the pointer says. -/
structure Execution.Settled (p : FlatCode) (m : DeltaMap) (address length n : Nat)
    (x y : Execution) : Prop where
  runs : Runs (single p) n x y
  pc : y.machine.pc = address + length
  pointer : y.machine.pointer = x.machine.pointer
  tape : x.machine.tape.Settled m x.machine.place y.machine.tape
  unread : y.unread = x.unread
  written : y.written = x.written
  times : ∀ a, address < a → a + 1 < address + length →
    (x.visited p n).countP (carriesOut p a) = x.machine.cell.toNat

/-- A linear loop, wherever it stands in the code. -/
theorem exists_settled {body : List Node} {m : DeltaMap} {block : List Instr} {depth : Nat}
    {slot : Option Nat} (hbody : deltas? body = some m)
    (hmoves : body.all Node.hasNaturalMove = true) (horigin : m.get 0 = 255)
    (hblock : (Node.loop body).code address depth slot = .ok block)
    (hcode : StandsAt p.code address block) (hpc : x.machine.pc = address)
    (hpointer : x.machine.pointer < x.machine.tape.size)
    (hinside : ∀ offset ∈ passed 0 body,
      0 ≤ x.machine.pointer + offset ∧ x.machine.pointer + offset < 2 ^ 63) :
    ∃ n y, x.Settled p m address block.length n y := by
  obtain ⟨inner, hinner, rfl⟩ := Node.code_loop hblock
  have hlow := (hinside 0 (mem_passed_self 0 body)).1
  have honTape : x.machine.OnTape := ⟨by omega, hpointer⟩
  rw [honTape.pointer_eq] at hinside
  have hx : Shows address ⟨x.machine.tape.get, x.machine.place, x.unread, x.written⟩ x :=
    ⟨hpc, honTape.pointer_eq, rfl, honTape.place_lt, rfl, rfl⟩
  obtain ⟨y, ⟨n, hn, htimes⟩, hy⟩ := exists_course_of_linear hbody hmoves horigin hinner hcode
    (hinside _ (leftmost_mem_passed 0 body)).1 (fun offset hoffset => (hinside offset hoffset).2) hx
  have hlength : (Instr.loopStart (address + inner.length + 2) :: inner ++
      [Instr.loopEnd address]).length = inner.length + 2 := by simp
  rw [hlength]
  refine ⟨n, y, hn, hy.pc, hy.pointer.trans hx.pointer.symm, fun j => ?_, hy.unread, hy.written,
    fun a ha ha' => ?_⟩
  · rw [hy.cells, Config.cells_settled]
    rfl
  · refine (htimes a).trans ?_
    show (if address ≤ a ∧ a < address + inner.length + 2 then x.machine.cell.toNat else 0) +
      (if address = a then 1 else 0) = x.machine.cell.toNat
    rw [if_pos (by omega), if_neg (by omega), Nat.add_zero]

/-- **The run of a linear loop.**  Let a loop body consist of changes and of moves by amounts that
are not negative, return to where it starts and take one, modulo 256, from the cell there.  Wherever
the loop stands in a program, and whatever the state of the machine, it does not fault if every offset
that its body passes through leads to an index that is not negative and a word: it carries out each
instruction of its body exactly as often as the cell says and ends behind itself, at the same cell,
which is then zero, with every other cell changed as the delta map says, that many times.  If the loop
is all there is, the execution finishes so. -/
theorem Program.linear_loop_runs {body : List Node} {m : DeltaMap} (hbody : deltas? body = some m)
    (horigin : m.get 0 = 255) (hmoves : body.all Node.hasNaturalMove = true) :
    (∀ (p : FlatCode) (address depth : Nat) (slot : Option Nat) (block : List Instr) (x : Execution),
      (Node.loop body).code address depth slot = .ok block → StandsAt p.code address block →
      x.machine.pc = address → x.machine.pointer < x.machine.tape.size →
      (∀ offset ∈ passed 0 body,
        0 ≤ x.machine.pointer + offset ∧ x.machine.pointer + offset < 2 ^ 63) →
        ∃ n y, x.Settled p m address block.length n y) ∧
    ∀ (p : FlatCode) (tape : Tape) (index : Nat) (input : List UInt8),
      Program.flatten [.loop body] = .ok p →
      (∀ offset ∈ passed 0 body, 0 ≤ index + offset ∧ index + offset < 2 ^ 63) →
        ∃ r, p.Yields tape index input r ∧ r.faulted = false ∧ r.index = index ∧
          tape.Settled m index r.tape ∧ r.unread = input ∧ r.output = #[] ∧
          ∀ a, 0 < a → a + 1 < p.code.size →
            ((p.start tape index input).visited p r.steps).countP (carriesOut p a) =
              (tape.get index).toNat := by
  refine ⟨fun p address depth slot block x hblock hcode => exists_settled hbody hmoves horigin hblock
    hcode, fun p tape index input hp hinside => ?_⟩
  obtain ⟨block, hblock, hp⟩ := Program.code_of_flatten hp
  obtain ⟨first, rest, hfirst, hrest, rfl⟩ := Program.code_cons hblock
  obtain rfl := Except.ok.inj hrest
  have hcode : p.code = first.toArray := by rw [hp, List.append_nil]
  have hstands : StandsAt p.code 0 first := hcode ▸ StandsAt.of_toArray first
  have htape := p.tape_start tape index input
  have hplace : (p.start tape index input).machine.place = index := Int.toNat_natCast index
  obtain ⟨n, y, hy⟩ := exists_settled hbody hmoves horigin hfirst hstands
    (x := p.start tape index input) rfl (p.onTape_start tape index input).inside hinside
  have hpc : y.machine.pc = p.code.size := by
    rw [hy.pc, Nat.zero_add, hcode, List.size_toArray]
  have hend : y.single p = .final (.finished (result y.machine y.unread y.written y.steps none)) :=
    stepBy_of_end (Array.getElem?_eq_none (Nat.le_of_eq hpc.symm))
  have hsteps : y.steps = n := (steps_of_runs hy.runs).trans (Nat.zero_add n)
  refine ⟨_, FlatCode.yields_iff_ends.mpr ⟨n, y, hy.runs, hend⟩, rfl, hy.pointer, fun j => ?_,
    hy.unread, hy.written, fun a ha ha' => ?_⟩
  · have hcell := hy.tape j
    rwa [htape, hplace, Tape.get_cover, Tape.get_cover] at hcell
  · show ((p.start tape index input).visited p y.steps).countP _ = _
    rw [hcode, List.size_toArray, ← Nat.zero_add first.length] at ha'
    rw [hsteps, hy.times a ha ha', Machine.cell, htape, hplace, Tape.get_cover]

/-- A body that goes to both sides and changes its own cell three times, by amounts that go round. -/
def wanderingBody : List Node :=
  [.decrement 3, .moveRight 2, .increment 200, .moveLeft 1, .moveLeft 1, .increment 1, .moveLeft 1,
    .decrement 1, .moveRight 1, .increment 257]

theorem Program.linear_loop_runs_wandering :
    ∃ m p, deltas? wanderingBody = some m ∧ m.get 0 = 255 ∧
      Program.flatten [.loop wanderingBody] = .ok p ∧
      (∃ n y, (p.start ⟨#[7, 3]⟩ 1 [65]).Settled p m 0 12 n y) ∧
      ∃ r, p.Yields ⟨#[7, 3]⟩ 1 [65] r ∧ r.faulted = false ∧ r.index = 1 ∧
        Tape.Settled m 1 ⟨#[7, 3]⟩ r.tape ∧ r.unread = [65] ∧ r.output = #[] ∧
        ∀ a, 0 < a → a + 1 < p.code.size →
          ((p.start ⟨#[7, 3]⟩ 1 [65]).visited p r.steps).countP (carriesOut p a) = 3 := by
  refine ⟨_, _, rfl, rfl, rfl, ?_, ?_⟩
  · exact (@Program.linear_loop_runs wanderingBody _ rfl rfl rfl).1 _ 0 0 none _ _ rfl
      (.of_toArray _) rfl (by decide) (by decide)
  · exact (@Program.linear_loop_runs wanderingBody _ rfl rfl rfl).2 _ ⟨#[7, 3]⟩ 1 [65] rfl (by decide)

/-- A body that goes to the right by the greatest word and back again.  From the second cell the sum is
no word: the index is negative then, and the move back faults. -/
theorem Program.linear_loop_faults_beyond_words :
    ∃ body m p r, body = [.moveRight (2 ^ 63 - 1), .moveLeft (2 ^ 63 - 1), .decrement 1] ∧
      deltas? body = some m ∧ m.get 0 = 255 ∧ body.all Node.hasNaturalMove = true ∧
      (∀ offset ∈ passed 0 body, 0 ≤ 1 + offset) ∧ Program.flatten [.loop body] = .ok p ∧
      p.Yields ⟨#[0, 1]⟩ 1 [] r ∧ r.status = faultStatus :=
  ⟨_, _, _, ⟨#[], [], ⟨#[0, 1]⟩, -2 ^ 63, 3, some 2⟩, rfl, rfl, rfl, rfl, by decide, rfl,
    ⟨1, by decide +kernel⟩, rfl⟩

end Brainfuck
