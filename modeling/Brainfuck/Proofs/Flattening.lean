import Brainfuck.Proofs.Words

/-!
# Flat code does what the tree says

The code of a tree, run step by step, realizes the meaning of the tree.  What the tree has and the
code has not are the nesting of sequences and the scale that goes with each of them; the code has
addresses and registers instead.

The invariant that carries the proof is `Execution.At`: the execution is at an address, shows a
configuration, and has given values in the scale registers below a depth.  A sequence with `d` scaled
bodies around it writes no register below `d`, so the values there are the same behind the sequence
as before it, whatever happens inside and however often.  That is why a change that stands behind an
inner scaled body still finds the factor of its own.

Growth is the other thing that only the code has.  It shows in no configuration, so an instruction
that asks for more tape makes two steps where the meaning makes none or one.

* `StandsAt`, `Program.code_cons`, `Node.code_loop`, `Node.code_scaled`: where the parts of a tree
  are in its code.
* `Program.realizes_code`: the code of a sequence realizes its meaning.
* `Program.yields_iff_means`: the executions of a program end as the meaning of its tree says.
-/

namespace Brainfuck

open Execution Behaviour

/-! ## Addresses -/

/-- A list of instructions stands in the code at an address. -/
def StandsAt (code : Array Instr) (address : Nat) (block : List Instr) : Prop :=
  ∀ k, k < block.length → code[address + k]? = block[k]?

namespace StandsAt

variable {code : Array Instr} {address : Nat} {block block' : List Instr} {i : Instr}

theorem head (h : StandsAt code address (i :: block)) : code[address]? = some i :=
  h 0 (Nat.succ_pos _)

theorem tail (h : StandsAt code address (i :: block)) : StandsAt code (address + 1) block := by
  intro k hk
  have := h (k + 1) (Nat.succ_lt_succ hk)
  rwa [Nat.add_comm k 1, ← Nat.add_assoc, Nat.add_comm 1 k, List.getElem?_cons_succ] at this

theorem left (h : StandsAt code address (block ++ block')) : StandsAt code address block := by
  intro k hk
  rw [h k (by rw [List.length_append]; omega), List.getElem?_append_left hk]

theorem right (h : StandsAt code address (block ++ block')) :
    StandsAt code (address + block.length) block' := by
  intro k hk
  rw [Nat.add_assoc, h (block.length + k) (by rw [List.length_append]; omega),
    List.getElem?_append_right (by omega), Nat.add_sub_cancel_left]

/-- A list of instructions stands at the beginning of itself. -/
theorem of_toArray (block : List Instr) : StandsAt block.toArray 0 block := by
  intro k _
  rw [Nat.zero_add, List.getElem?_toArray]

end StandsAt

variable {address depth : Nat} {slot : Option Nat} {block : List Instr}

/-- The code of a sequence is the code of its first node and that of the rest behind it. -/
theorem Program.code_cons {n : Node} {p : List Node}
    (h : Program.code address depth slot (n :: p) = .ok block) :
    ∃ first rest, n.code address depth slot = .ok first ∧
      Program.code (address + first.length) depth slot p = .ok rest ∧ block = first ++ rest := by
  rw [Program.code] at h
  cases hfirst : n.code address depth slot with
  | error v => rw [hfirst] at h; cases h
  | ok first =>
    rw [hfirst] at h
    cases hrest : Program.code (address + first.length) depth slot p with
    | error v => simp only [bind, Except.bind, hrest] at h; cases h
    | ok rest =>
      simp only [bind, Except.bind, hrest] at h
      exact ⟨first, rest, rfl, hrest, (Except.ok.inj h).symm⟩

/-- The code of a loop: its body between a test and a jump back to the test. -/
theorem Node.code_loop {body : List Node}
    (h : (Node.loop body).code address depth slot = .ok block) :
    ∃ inner, Program.code (address + 1) depth none body = .ok inner ∧
      block = .loopStart (address + inner.length + 2) :: inner ++ [.loopEnd address] := by
  rw [Node.code] at h
  cases hinner : Program.code (address + 1) depth none body with
  | error v => rw [hinner] at h; cases h
  | ok inner =>
    rw [hinner] at h
    exact ⟨inner, rfl, (Except.ok.inj h).symm⟩

/-- The code of a scaled body: the body between loading its register and clearing the cell. -/
theorem Node.code_scaled {body : List Node}
    (h : (Node.scaled body).code address depth slot = .ok block) :
    ∃ inner, Program.code (address + 1) (depth + 1) (some depth) body = .ok inner ∧
      block = .scale (address + inner.length + 1) depth :: inner ++ [.unscale] := by
  rw [Node.code] at h
  cases hinner : Program.code (address + 1) (depth + 1) (some depth) body with
  | error v => rw [hinner] at h; cases h
  | ok inner =>
    rw [hinner] at h
    exact ⟨inner, rfl, (Except.ok.inj h).symm⟩

/-- The code of an instance is that of the instruction. -/
theorem Node.code_derived {name : String} {base : Node}
    (h : (Node.derived name base).code address depth slot = .ok block) :
    base.code address depth slot = .ok block := by
  rw [Node.code] at h
  split at h
  · exact h
  · cases h

/-! ## Tapes -/

/-- On the tape, writing is updating. -/
theorem Tape.get_set_eq_update {t : Tape} {i : Nat} (hi : i < t.size) (v : UInt8) :
    (t.set i v).get = Function.update t.get i v := by
  funext j
  rw [get_set, Function.update_apply]
  by_cases hij : i = j
  · rw [if_pos ⟨hij, hi⟩, if_pos hij.symm]
  · rw [if_neg fun h => hij h.1, if_neg (Ne.symm hij)]

/-- What the tape reads after a carry to one of its cells. -/
theorem Machine.get_carryTo {m : Machine} {target : Nat} (hinside : m.place < m.tape.size)
    (htarget : target < m.tape.size) :
    (m.carryTo target).tape.get =
      Function.update (Function.update m.tape.get target (m.tape.get target + m.cell)) m.place 0 := by
  rw [carryTo, carry]
  dsimp only
  rw [Tape.get_set_eq_update (by rwa [Tape.size_set]), Tape.get_set_eq_update htarget, cell]

@[simp] theorem Machine.size_carryTo (m : Machine) (target : Nat) :
    (m.carryTo target).tape.size = m.tape.size := by
  rw [carryTo, carry, Tape.size_set, Tape.size_set]

/-! ## What an execution shows -/

/-- What a result shows: the cells of its tape, with zeros past the end.  Nothing is shown at a negative
index. -/
def Result.config? (r : Result) : Option Config :=
  if 0 ≤ r.index then some ⟨r.tape.get, r.index.toNat, r.unread, r.output⟩ else none

/-- How an execution with a result has ended, by its exit status. -/
def Result.ending? (r : Result) : Option Ending :=
  r.config?.map (if r.status = faultStatus then .fault else .done)

theorem Result.ending?_eq_done_iff {r : Result} {c : Config} :
    r.ending? = some (.done c) ↔ r.status = 0 ∧ r.config? = some c := by
  rw [ending?, status]
  cases r.faulted <;> simp [faultStatus]

theorem Result.ending?_eq_fault_iff {r : Result} {c : Config} :
    r.ending? = some (.fault c) ↔ r.status = faultStatus ∧ r.config? = some c := by
  rw [ending?, status]
  cases r.faulted <;> simp [faultStatus]

/-- A result that shows a configuration has its cells, its index and its output. -/
theorem Result.of_config? {r : Result} {c : Config} (h : r.config? = some c) :
    r.tape.get = c.cells ∧ r.index = c.index ∧ r.output = c.written := by
  rw [config?] at h
  split at h
  case isTrue hindex =>
    obtain rfl := Option.some.inj h
    exact ⟨rfl, (Int.toNat_of_nonneg hindex).symm, rfl⟩
  case isFalse => cases h

theorem Result.ending?_of_done {m : Machine} {index : Nat} (h : m.pointer = index)
    (unread : List UInt8) (written : Array UInt8) (steps : Nat) :
    (result m unread written steps none).ending? =
      some (.done ⟨m.tape.get, index, unread, written⟩) := by
  refine ending?_eq_done_iff.mpr ⟨rfl, ?_⟩
  simp only [config?, result, h, if_pos (Int.natCast_nonneg index), Int.toNat_natCast]

theorem Result.ending?_of_fault {m : Machine} {index : Nat} (h : m.pointer = index)
    (unread : List UInt8) (written : Array UInt8) (steps address : Nat) :
    (result m unread written steps (some address)).ending? =
      some (.fault ⟨m.tape.get, index, unread, written⟩) := by
  refine ending?_eq_fault_iff.mpr ⟨rfl, ?_⟩
  simp only [config?, result, h, if_pos (Int.natCast_nonneg index), Int.toNat_natCast]

/-- An outcome reports a fault at a configuration. -/
def Outcome.Failed (d : Config) (o : Outcome) : Prop :=
  ∃ r, o = .finished r ∧ r.ending? = some (.fault d)

/-- The execution is at an address, shows a configuration, and has the given values in the scale
registers below a depth. -/
structure Execution.At (p : FlatCode) (address depth : Nat) (values : Nat → UInt8) (c : Config)
    (x : Execution) : Prop where
  pc : x.machine.pc = address
  pointer : x.machine.pointer = c.index
  cells : x.machine.tape.get = c.cells
  inside : c.index < x.machine.tape.size
  unread : x.unread = c.unread
  written : x.written = c.written
  scales : ∀ k, k < depth → x.machine.scales.getD k 0 = values k
  slots : p.slots ≤ x.machine.scales.size

/-- A slot names a register below a depth with the given value, or there is no slot and the value is
one. -/
def HoldsScale (depth : Nat) (values : Nat → UInt8) : Option Nat → UInt8 → Prop
  | none, scale => scale = 1
  | some k, scale => k < depth ∧ values k = scale

namespace Execution.At

variable {p : FlatCode} {values : Nat → UInt8} {c d : Config} {x : Execution}

theorem place (hx : At p address depth values c x) : x.machine.place = c.index := by
  rw [Machine.place, hx.pointer, Int.toNat_natCast]

theorem place_lt (hx : At p address depth values c x) : x.machine.place < x.machine.tape.size :=
  hx.place.symm ▸ hx.inside

/-- The cell that is to be written or read is there. -/
theorem place? (hx : At p address depth values c x) :
    x.machine.tape.place? x.machine.pointer = some x.machine.place := by
  rw [hx.place, hx.pointer]
  exact Tape.place?_natCast hx.inside

theorem cell (hx : At p address depth values c x) : x.machine.cell = c.cell := by
  rw [Machine.cell, Config.cell, hx.cells, hx.place]

theorem factor {scale : UInt8} (hx : At p address depth values c x)
    (hs : HoldsScale depth values slot scale) : x.machine.factor slot = scale := by
  cases slot with
  | none => exact hs.symm
  | some k => exact (hx.scales k hs.1).trans hs.2

/-- A step that goes on to the next instruction. -/
theorem plain_next (hx : At p address depth values c x) {i : Instr} {m : Machine}
    (hi : p.code[address]? = some i) (hexec : x.machine.plain i = .next m) :
    x.plain p = .next ⟨m, x.unread, x.written, x.steps + 1⟩ := by
  rw [plain, stepBy_of_fetch (hx.pc.symm ▸ hi), hexec, meet]

/-- A step that makes the tape grow. -/
theorem plain_grow (hx : At p address depth values c x) {i : Instr} {m : Machine} {needed : Nat}
    (hi : p.code[address]? = some i) (hexec : x.machine.plain i = .grow needed m) :
    x.plain p = .next ⟨{ m with tape := m.tape.grow needed }, x.unread, x.written, x.steps + 1⟩ := by
  rw [plain, stepBy_of_fetch (hx.pc.symm ▸ hi), hexec, meet]

/-- A step that faults leaves everything as it is. -/
theorem ends_fault (hx : At p address depth values c x) {i : Instr}
    (hi : p.code[address]? = some i) (hexec : x.machine.plain i = .fault x.machine) :
    ∃ o, Ends (plain p) x o ∧ Outcome.Failed c o := by
  refine ⟨.finished (result x.machine x.unread x.written (x.steps + 1) (some x.machine.pc)),
    ⟨0, x, .zero x, ?_⟩, _, rfl, ?_⟩
  · rw [plain, stepBy_of_fetch (hx.pc.symm ▸ hi), hexec, meet]
  · rw [Result.ending?_of_fault hx.pointer, hx.cells, hx.unread, hx.written]

/-- The execution has gone on to another address; pointer and cells are as said. -/
theorem moved (hx : At p address depth values c x) {target steps : Nat} {pointer : Int} {tape : Tape}
    (hinside : d.index < tape.size) (hcells : tape.get = d.cells) (hindex : pointer = d.index)
    (hunread : c.unread = d.unread) (hwritten : c.written = d.written) :
    At p target depth values d
      ⟨⟨target, pointer, tape, x.machine.scales⟩, x.unread, x.written, steps⟩ where
  pc := rfl
  pointer := hindex
  cells := hcells
  inside := hinside
  unread := hx.unread.trans hunread
  written := hx.written.trans hwritten
  scales := hx.scales
  slots := hx.slots

/-- Growth of the tape does not show. -/
theorem grown (hx : At p address depth values c x) (index steps : Nat) :
    At p address depth values c
      ⟨{ x.machine with tape := x.machine.tape.grow index }, x.unread, x.written, steps⟩ where
  pc := hx.pc
  pointer := hx.pointer
  cells := (funext fun j => Tape.get_grow _ _ j).trans hx.cells
  inside := Nat.lt_of_lt_of_le hx.inside (Tape.size_le_grow _ _)
  unread := hx.unread
  written := hx.written
  scales := hx.scales
  slots := hx.slots

/-- At the start of a loop, with a cell that is not zero. -/
theorem enterLoop (hx : At p address depth values c x) {behind : Nat}
    (hi : p.code[address]? = some (.loopStart behind)) (hnonzero : c.cell ≠ 0) :
    ∃ y, x.plain p = .next y ∧ At p (address + 1) depth values c y := by
  have hexec : x.machine.plain (.loopStart behind) = .next x.machine.advance := by
    rw [Machine.plain, hx.cell, if_neg hnonzero]
  have hstep := hx.plain_next hi hexec
  rw [Machine.advance, hx.pc] at hstep
  exact ⟨_, hstep, hx.moved hx.inside hx.cells hx.pointer rfl rfl⟩

/-- At the end of a loop. -/
theorem repeatLoop (hx : At p address depth values c x) {start : Nat}
    (hi : p.code[address]? = some (.loopEnd start)) :
    ∃ y, x.plain p = .next y ∧ At p start depth values c y :=
  ⟨_, hx.plain_next hi rfl, hx.moved hx.inside hx.cells hx.pointer rfl rfl⟩

/-- At the start of a scaled body, with a cell that is not zero.  The register that is loaded lies at
the depth of the region, so none of those below it changes. -/
theorem enterScaled (hx : At p address depth values c x) {stop : Nat}
    (hi : p.code[address]? = some (.scale stop depth)) (hroom : depth < p.slots)
    (hnonzero : c.cell ≠ 0) :
    ∃ y, x.plain p = .next y ∧
      At p (address + 1) (depth + 1) (Function.update values depth c.cell) c y := by
  have hexec : x.machine.plain (.scale stop depth) =
      .next { x.machine with
        pc := address + 1, scales := x.machine.scales.setIfInBounds depth c.cell } := by
    rw [Machine.plain, hx.cell, if_neg hnonzero, hx.pc]
  have hslots := hx.slots
  refine ⟨_, hx.plain_next hi hexec, rfl, hx.pointer, hx.cells, hx.inside, hx.unread, hx.written,
    fun k hk => ?_, ?_⟩
  · rw [Function.update_apply, Array.getD_eq_getD_getElem?, Array.getElem?_setIfInBounds]
    by_cases hkd : k = depth
    · rw [if_pos hkd.symm, if_pos hkd, if_pos (by omega), Option.getD_some]
    · rw [if_neg (Ne.symm hkd), if_neg hkd, ← Array.getD_eq_getD_getElem?]
      exact hx.scales k (by omega)
  · rw [Array.size_setIfInBounds]
    exact hslots

end Execution.At

/-! ## Scans -/

/-- With its one ending a deterministic behaviour is known. -/
theorem Behaviour.Deterministic.iff_eq {R : Behaviour} (hR : Deterministic R) {c : Config}
    {e : Ending} (h : R c e) (e' : Ending) : R c e' ↔ e' = e :=
  ⟨fun h' => hR h' h, fun h' => h' ▸ h⟩

/-- A scan to the right ends on a zero cell. -/
theorem Tape.get_scanRight (t : Tape) (step : Nat) (hstep : 0 < step) (i : Nat) :
    t.get (t.scanRight step i) = 0 := by
  fun_induction t.scanRight step i with
  | case1 i hstop => exact hstop.resolve_right (Nat.ne_of_gt hstep)
  | case2 i hgo ih => exact ih

/-- A scan to the right does not leave a zero cell. -/
theorem Tape.scanRight_eq_self {t : Tape} {i : Nat} (h : t.get i = 0) (step : Nat) :
    t.scanRight step i = i := by
  rw [scanRight, if_pos (Or.inl h)]

/-- A loop around a move to the right ends where the scan of the tape says. -/
theorem Tape.repeated_scanRight (t : Tape) (step : Nat) (hstep : 0 < step) (i : Nat) :
    ∀ c : Config, c.cells = t.get → c.index = i →
      repeated (fun c e => e = .done (c.goTo (c.index + step))) c
        (.done (c.goTo (t.scanRight step i))) := by
  fun_induction t.scanRight step i with
  | case1 i hstop =>
    rintro c hcells rfl
    have hzero : c.cell = 0 := by
      rw [Config.cell, hcells]
      exact hstop.resolve_right (Nat.ne_of_gt hstep)
    exact .stop hzero
  | case2 i hgo ih =>
    rintro c hcells rfl
    have hnonzero : c.cell ≠ 0 := by
      rw [Config.cell, hcells]
      exact fun hzero => hgo (Or.inl hzero)
    exact .pass hnonzero rfl (ih (c.goTo (c.index + step)) hcells rfl)

/-- A loop around a move to the left ends where the scan of the tape says, with a fault if the scan
leaves the tape. -/
theorem Tape.repeated_scanLeft (t : Tape) (step : Nat) (hstep : 0 < step) (i : Nat) :
    ∀ c : Config, c.cells = t.get → c.index = i →
      match t.scanLeft? step i with
      | some target => repeated (fun c e => e = c.moveLeft step) c (.done (c.goTo target))
      | none => ∃ d, repeated (fun c e => e = c.moveLeft step) c (.fault d) := by
  fun_induction t.scanLeft? step i with
  | case1 i hstop =>
    rintro c hcells rfl
    have hzero : c.cell = 0 := by
      rw [Config.cell, hcells]
      exact hstop.resolve_right (Nat.ne_of_gt hstep)
    exact .stop hzero
  | case2 i hgo hlt =>
    rintro c hcells rfl
    have hnonzero : c.cell ≠ 0 := by
      rw [Config.cell, hcells]
      exact fun hzero => hgo (Or.inl hzero)
    exact ⟨c, .fault hnonzero (by rw [Config.moveLeft, if_pos hlt])⟩
  | case3 i hgo hge ih =>
    rintro c hcells rfl
    have hnonzero : c.cell ≠ 0 := by
      rw [Config.cell, hcells]
      exact fun hzero => hgo (Or.inl hzero)
    have hmove : Ending.done (c.goTo (c.index - step)) = c.moveLeft step := by
      rw [Config.moveLeft, if_neg hge]
    have hrest := ih (c.goTo (c.index - step)) hcells rfl
    split
    case h_1 target htarget =>
      rw [htarget] at hrest
      exact .pass hnonzero hmove hrest
    case h_2 hnone =>
      rw [hnone] at hrest
      obtain ⟨d, hd⟩ := hrest
      exact ⟨d, .pass hnonzero hmove hd⟩

/-! ## Single nodes -/

section Nodes

variable {p : FlatCode} {values : Nat → UInt8} {c : Config} {x : Execution} {scale : UInt8}

/-- An instruction that makes one step to the next address and changes no register. -/
theorem realizes_step {R : Behaviour} {d : Config} {i : Instr} {pointer : Int} {tape : Tape}
    (hR : ∀ e, R c e ↔ e = .done d) (hx : At p address depth values c x)
    (hi : p.code[address]? = some i)
    (hexec : x.machine.plain i = .next ⟨x.machine.pc + 1, pointer, tape, x.machine.scales⟩)
    (hinside : d.index < tape.size) (hcells : tape.get = d.cells) (hindex : pointer = d.index)
    (hunread : c.unread = d.unread) (hwritten : c.written = d.written) :
    Realizes (plain p) Outcome.Failed R c x (At p (address + 1) depth values) := by
  have hstep := hx.plain_next hi hexec
  rw [hx.pc] at hstep
  exact .of_done hR (.one hstep) (hx.moved hinside hcells hindex hunread hwritten)

/-- A write of the current cell. -/
theorem realizes_store {R : Behaviour} {v : UInt8} {i : Instr}
    (hR : ∀ e, R c e ↔ e = .done (c.store v)) (hx : At p address depth values c x)
    (hi : p.code[address]? = some i)
    (hexec : x.machine.plain i = .next (x.machine.store v).advance) :
    Realizes (plain p) Outcome.Failed R c x (At p (address + 1) depth values) := by
  refine realizes_step hR hx hi hexec ?_ ?_ hx.pointer rfl rfl
  · change c.index < (x.machine.tape.set x.machine.place v).size
    rw [Tape.size_set]
    exact hx.inside
  · change (x.machine.tape.set x.machine.place v).get = Function.update c.cells c.index v
    rw [Tape.get_set_eq_update hx.place_lt, hx.cells, hx.place]

/-- A carry to a cell on the tape. -/
theorem realizes_carryTo {R : Behaviour} {target : Nat} {i : Instr}
    (hR : ∀ e, R c e ↔ e = .done (c.carryTo target)) (hx : At p address depth values c x)
    (hi : p.code[address]? = some i)
    (hexec : x.machine.plain i = .next (x.machine.carryTo target).advance)
    (htarget : target < x.machine.tape.size) :
    Realizes (plain p) Outcome.Failed R c x (At p (address + 1) depth values) := by
  refine realizes_step hR hx hi hexec ?_ ?_ hx.pointer rfl rfl
  · change c.index < (x.machine.carryTo target).tape.size
    rw [Machine.size_carryTo]
    exact hx.inside
  · rw [Machine.get_carryTo hx.place_lt htarget, hx.cell, hx.cells, hx.place]
    rfl

/-- An instruction that asks for tape up to an index, if it is not there, does what it does on a tape
that covers the index. -/
theorem realizes_of_covered {R : Behaviour} {i : Instr} (needed : Nat)
    {exit : Config → Execution → Prop} (hx : At p address depth values c x)
    (hi : p.code[address]? = some i)
    (hgrow : ¬ needed < x.machine.tape.size → x.machine.plain i = .grow needed x.machine)
    (hcovered : ∀ x, At p address depth values c x → needed < x.machine.tape.size →
      Realizes (plain p) Outcome.Failed R c x exit) :
    Realizes (plain p) Outcome.Failed R c x exit := by
  by_cases hsize : needed < x.machine.tape.size
  · exact hcovered x hx hsize
  · refine .of_runs (.one (hx.plain_grow hi (hgrow hsize))) (hcovered _ (hx.grown needed _) ?_)
    exact Tape.lt_size_grow x.machine.tape needed

theorem realizes_moveRight {n : Int} (hx : At p address depth values c x)
    (hi : p.code[address]? = some (.right n)) :
    Realizes (plain p) Outcome.Failed ((Node.moveRight n).Means scale) c x
      (At p (address + 1) depth values) := by
  refine realizes_of_covered (c.index + n.toNat) hx hi (fun hsize => ?_) fun x hx hsize => ?_
  · simp only [Machine.plain, hx.place, if_neg hsize]
  · refine realizes_step (fun e => Iff.rfl) hx hi ?_ hsize hx.cells rfl rfl rfl
    simp only [Machine.plain, hx.place, if_pos hsize, Config.goTo_index]

theorem realizes_moveLeft {n : Int} (hx : At p address depth values c x)
    (hi : p.code[address]? = some (.left n)) :
    Realizes (plain p) Outcome.Failed ((Node.moveLeft n).Means scale) c x
      (At p (address + 1) depth values) := by
  by_cases hlt : c.index < n.toNat
  · have hR : ∀ e, (Node.moveLeft n).Means scale c e ↔ e = .fault c := by
      intro e
      simp only [Node.Means, Config.moveLeft, if_pos hlt]
    have hexec : x.machine.plain (.left n) = .fault x.machine := by
      simp only [Machine.plain, hx.place, if_pos hlt]
    obtain ⟨r, hr, hf⟩ := hx.ends_fault hi hexec
    exact .of_fault hR hr hf
  · have hR : ∀ e, (Node.moveLeft n).Means scale c e ↔ e = .done (c.goTo (c.index - n.toNat)) := by
      intro e
      simp only [Node.Means, Config.moveLeft, if_neg hlt]
    have hinside := hx.inside
    refine realizes_step hR hx hi ?_ (Nat.lt_of_le_of_lt (Nat.sub_le _ _) hinside) hx.cells rfl rfl
      rfl
    simp only [Machine.plain, hx.place, if_neg hlt, Config.goTo_index]

theorem realizes_increment {n : Int} (hx : At p address depth values c x)
    (hs : HoldsScale depth values slot scale) (hi : p.code[address]? = some (.add (.ofInt n) slot)) :
    Realizes (plain p) Outcome.Failed ((Node.increment n).Means scale) c x
      (At p (address + 1) depth values) := by
  refine realizes_store (fun e => Iff.rfl) hx hi ?_
  rw [Machine.plain, hx.cell, hx.factor hs]

theorem realizes_decrement {n : Int} (hx : At p address depth values c x)
    (hs : HoldsScale depth values slot scale) (hi : p.code[address]? = some (.sub (.ofInt n) slot)) :
    Realizes (plain p) Outcome.Failed ((Node.decrement n).Means scale) c x
      (At p (address + 1) depth values) := by
  refine realizes_store (fun e => Iff.rfl) hx hi ?_
  rw [Machine.plain, hx.cell, hx.factor hs]

theorem realizes_output (hx : At p address depth values c x)
    (hi : p.code[address]? = some .output) :
    Realizes (plain p) Outcome.Failed (Node.output.Means scale) c x
      (At p (address + 1) depth values) := by
  have hstep : x.plain p =
      .next ⟨x.machine.advance, x.unread, x.written.push x.machine.cell, x.steps + 1⟩ := by
    have hplace : x.machine.advance.tape.place? x.machine.advance.pointer = some x.machine.place :=
      hx.place?
    rw [plain, stepBy_of_fetch (hx.pc.symm ▸ hi), Machine.plain, meet, hplace]
    rfl
  refine .of_done (fun e => Iff.rfl) (.one hstep) ?_
  refine ⟨congrArg (· + 1) hx.pc, hx.pointer, hx.cells, hx.inside, hx.unread, ?_, hx.scales,
    hx.slots⟩
  exact congrArg₂ Array.push hx.written hx.cell

theorem realizes_input (hx : At p address depth values c x)
    (hi : p.code[address]? = some .input) :
    Realizes (plain p) Outcome.Failed (Node.input.Means scale) c x
      (At p (address + 1) depth values) := by
  have hstep : x.plain p =
      .next ⟨x.machine.advance.store (x.unread.headD 0), x.unread.tail, x.written, x.steps + 1⟩ := by
    have hplace : x.machine.advance.tape.place? x.machine.advance.pointer = some x.machine.place :=
      hx.place?
    rw [plain, stepBy_of_fetch (hx.pc.symm ▸ hi), Machine.plain, meet, hplace]
    rfl
  refine .of_done (fun e => Iff.rfl) (.one hstep) ?_
  refine ⟨congrArg (· + 1) hx.pc, hx.pointer, ?_, ?_, congrArg List.tail hx.unread, hx.written,
    hx.scales, hx.slots⟩
  · change (x.machine.tape.set x.machine.place (x.unread.headD 0)).get =
      Function.update c.cells c.index (c.unread.headD 0)
    rw [Tape.get_set_eq_update hx.place_lt, hx.cells, hx.place, hx.unread]
  · change c.index < (x.machine.tape.set x.machine.place (x.unread.headD 0)).size
    rw [Tape.size_set]
    exact hx.inside

theorem realizes_clear {R : Behaviour} {i : Instr} (hR : ∀ e, R c e ↔ e = .done (c.store 0))
    (hx : At p address depth values c x) (hi : p.code[address]? = some i)
    (hclear : i = .clear ∨ i = .unscale) :
    Realizes (plain p) Outcome.Failed R c x (At p (address + 1) depth values) := by
  rcases hclear with rfl | rfl <;> exact realizes_store hR hx hi rfl

/-- A scan to the right.  When the tape has to grow, the pointer is already where the scan ends, and
the instruction is run a second time on the fresh cell. -/
theorem realizes_scanRight {n : Int} (hn : 1 ≤ n) (hx : At p address depth values c x)
    (hi : p.code[address]? = some (.scanRight n)) :
    Realizes (plain p) Outcome.Failed ((Node.scanRight n).Means scale) c x
      (At p (address + 1) depth values) := by
  have hpos : 0 < n.toNat := by omega
  have hscan := x.machine.tape.repeated_scanRight n.toNat hpos c.index c hx.cells.symm rfl
  have hR : ∀ e, (Node.scanRight n).Means scale c e ↔
      e = .done (c.goTo (x.machine.tape.scanRight n.toNat c.index)) :=
    (Node.means_deterministic scale (.scanRight n)).iff_eq (Or.inl ⟨_, hscan, rfl⟩)
  by_cases hsize : x.machine.tape.scanRight n.toNat c.index < x.machine.tape.size
  · refine realizes_step hR hx hi ?_ hsize hx.cells rfl rfl rfl
    simp only [Machine.plain, hx.place, if_pos hsize, Config.goTo_index]
  · have hzero := x.machine.tape.get_scanRight n.toNat hpos c.index
    have hexec : x.machine.plain (.scanRight n) =
        .grow (x.machine.tape.scanRight n.toNat c.index)
          { x.machine with pointer := x.machine.tape.scanRight n.toNat c.index } := by
      simp only [Machine.plain, hx.place, if_neg hsize]
    have hstep := hx.plain_grow hi hexec
    generalize x.machine.tape.scanRight n.toNat c.index = target at hR hzero hstep
    have hgrown : ((x.machine.tape.grow target).get) = c.cells :=
      (funext fun j => Tape.get_grow _ _ j).trans hx.cells
    have hcovered := Tape.lt_size_grow x.machine.tape target
    have hy : At p address depth values (c.goTo target)
        ⟨⟨address, target, x.machine.tape.grow target, x.machine.scales⟩, x.unread, x.written,
          x.steps + 1⟩ :=
      hx.moved hcovered hgrown rfl rfl rfl
    rw [hx.pc] at hstep
    have hagain := hy.plain_next hi (m := ⟨address + 1, target, x.machine.tape.grow target,
      x.machine.scales⟩) (by
        have hfresh : (x.machine.tape.grow target).get target = 0 :=
          (Tape.get_grow _ _ _).trans hzero
        simp only [Machine.plain, Machine.place, Int.toNat_natCast, Tape.scanRight_eq_self hfresh,
          if_pos hcovered])
    exact .of_done hR (.succ hstep (.one hagain)) (hx.moved hcovered hgrown rfl rfl rfl)

theorem realizes_scanLeft {n : Int} (hn : 1 ≤ n) (hx : At p address depth values c x)
    (hi : p.code[address]? = some (.scanLeft n)) :
    Realizes (plain p) Outcome.Failed ((Node.scanLeft n).Means scale) c x
      (At p (address + 1) depth values) := by
  have hscan := x.machine.tape.repeated_scanLeft n.toNat (by omega) c.index c hx.cells.symm rfl
  have hdet := Node.means_deterministic scale (.scanLeft n)
  cases htarget : x.machine.tape.scanLeft? n.toNat c.index with
  | none =>
    rw [htarget] at hscan
    obtain ⟨d, hd⟩ := hscan
    have hexec : x.machine.plain (.scanLeft n) = .fault x.machine := by
      simp only [Machine.plain, hx.place, htarget]
    obtain ⟨r, hr, hf⟩ := hx.ends_fault hi hexec
    exact .of_fault (hdet.iff_eq (Or.inr ⟨d, hd, rfl⟩)) hr hf
  | some target =>
    rw [htarget] at hscan
    have hle : target ≤ c.index := x.machine.tape.scanLeft?_le n.toNat c.index htarget
    refine realizes_step (hdet.iff_eq (Or.inl ⟨_, hscan, rfl⟩)) hx hi ?_
      (Nat.lt_of_le_of_lt hle hx.inside) hx.cells rfl rfl rfl
    simp only [Machine.plain, hx.place, htarget, Config.goTo_index]

theorem realizes_carryRight {n : Int} (hx : At p address depth values c x)
    (hi : p.code[address]? = some (.carryRight n)) :
    Realizes (plain p) Outcome.Failed ((Node.carryRight n).Means scale) c x
      (At p (address + 1) depth values) := by
  refine realizes_of_covered (c.index + n.toNat) hx hi (fun hsize => ?_) fun x hx hsize => ?_
  · simp only [Machine.plain, hx.place, if_neg hsize]
  · refine realizes_carryTo (fun e => Iff.rfl) hx hi ?_ hsize
    simp only [Machine.plain, hx.place, if_pos hsize]

theorem realizes_carryLeft {n : Int} (hx : At p address depth values c x)
    (hi : p.code[address]? = some (.carryLeft n)) :
    Realizes (plain p) Outcome.Failed ((Node.carryLeft n).Means scale) c x
      (At p (address + 1) depth values) := by
  by_cases hzero : c.cell = 0
  · have hR : ∀ e, (Node.carryLeft n).Means scale c e ↔ e = .done c := by
      intro e
      simp only [Node.Means, Config.carryLeft, if_pos hzero]
    refine realizes_step hR hx hi ?_ hx.inside hx.cells hx.pointer rfl rfl
    simp only [Machine.plain, hx.cell, if_pos hzero]
    rfl
  · by_cases hlt : c.index < n.toNat
    · have hR : ∀ e, (Node.carryLeft n).Means scale c e ↔ e = .fault c := by
        intro e
        simp only [Node.Means, Config.carryLeft, if_neg hzero, if_pos hlt]
      have hexec : x.machine.plain (.carryLeft n) = .fault x.machine := by
        simp only [Machine.plain, hx.cell, hx.place, if_neg hzero, if_pos hlt]
      obtain ⟨r, hr, hf⟩ := hx.ends_fault hi hexec
      exact .of_fault hR hr hf
    · have hR : ∀ e, (Node.carryLeft n).Means scale c e ↔
          e = .done (c.carryTo (c.index - n.toNat)) := by
        intro e
        simp only [Node.Means, Config.carryLeft, if_neg hzero, if_neg hlt]
      refine realizes_carryTo hR hx hi ?_ (Nat.lt_of_le_of_lt (Nat.sub_le _ _) hx.inside)
      simp only [Machine.plain, hx.cell, hx.place, if_neg hzero, if_neg hlt]

/-- A loop, given its body: test, body, jump back. -/
theorem realizes_loop {R : Behaviour} {inner : List Instr}
    (hcode : StandsAt p.code address
      (.loopStart (address + inner.length + 2) :: inner ++ [.loopEnd address]))
    (hbody : ∀ c x, At p (address + 1) depth values c x →
      Realizes (plain p) Outcome.Failed R c x (At p (address + 1 + inner.length) depth values))
    (hx : At p address depth values c x) :
    Realizes (plain p) Outcome.Failed (repeated R) c x
      (At p (address + inner.length + 2) depth values) := by
  have hend : p.code[address + 1 + inner.length]? = some (.loopEnd address) := hcode.tail.right.head
  refine Realizes.repeated (At p address depth values) (fun c x hx hzero => ?_)
    (fun c x hx hnonzero => ?_) hx
  · have hexec : x.machine.plain (.loopStart (address + inner.length + 2)) =
        .next { x.machine with pc := address + inner.length + 2 } := by
      rw [Machine.plain, hx.cell, if_pos hzero]
    exact ⟨1, _, .one (hx.plain_next hcode.head hexec),
      hx.moved hx.inside hx.cells hx.pointer rfl rfl⟩
  · obtain ⟨y, hy, hinside⟩ := hx.enterLoop hcode.head hnonzero
    refine ⟨0, y, .one hy, (hbody c y hinside).mono fun d z _ hz => ?_⟩
    obtain ⟨w, hw, hback⟩ := hz.repeatLoop hend
    exact ⟨1, w, .one hw, hback⟩

/-- A scaled body, given the body with the register at the depth of the region. -/
theorem realizes_scaled {R : UInt8 → Behaviour} {inner : List Instr}
    (hcode : StandsAt p.code address
      (.scale (address + inner.length + 1) depth :: inner ++ [.unscale]))
    (hroom : depth < p.slots)
    (hbody : ∀ values x, values depth = c.cell → At p (address + 1) (depth + 1) values c x →
      Realizes (plain p) Outcome.Failed (R c.cell) c x
        (At p (address + 1 + inner.length) (depth + 1) values))
    (hx : At p address depth values c x) :
    Realizes (plain p) Outcome.Failed
      (andThen (unlessZero R) (fun c e => e = .done (c.store 0))) c x
      (At p (address + inner.length + 2) depth values) := by
  have haddress : address + 1 + inner.length = address + inner.length + 1 := by omega
  have hend : p.code[address + inner.length + 1]? = some .unscale :=
    haddress ▸ hcode.tail.right.head
  have hclear : ∀ d y, At p (address + inner.length + 1) depth values d y →
      Realizes (plain p) Outcome.Failed (fun c e => e = .done (c.store 0)) d y
        (At p (address + inner.length + 2) depth values) :=
    fun d y hy => realizes_clear (fun e => Iff.rfl) hy hend (Or.inr rfl)
  refine Realizes.andThen ?_ fun d y _ hy => hclear d y hy
  by_cases hzero : c.cell = 0
  · have hexec : x.machine.plain (.scale (address + inner.length + 1) depth) =
        .next { x.machine with pc := address + inner.length + 1 } := by
      rw [Machine.plain, hx.cell, if_pos hzero]
    refine .of_done (unlessZero_of_zero hzero) (.one (hx.plain_next hcode.head hexec)) ?_
    exact hx.moved hx.inside hx.cells hx.pointer rfl rfl
  · obtain ⟨y, hy, hinside⟩ := hx.enterScaled hcode.head hroom hzero
    have hrun := hbody _ y (Function.update_self ..) hinside
    refine .of_runs (.one hy) (.congr (hrun.mono fun d z _ hz => ?_) (unlessZero_of_ne_zero hzero))
    refine ⟨hz.pc.trans haddress, hz.pointer, hz.cells, hz.inside, hz.unread, hz.written,
      fun k hk => ?_, hz.slots⟩
    rw [hz.scales k (by omega), Function.update_of_ne (Nat.ne_of_lt hk)]

end Nodes

/-! ## Trees -/

mutual

/-- The code of a node realizes its meaning, and leaves the registers of the bodies around it
alone. -/
theorem Node.realizes_code {p : FlatCode} :
    (n : Node) → ∀ {address depth slot block values scale c x},
      n.code address depth slot = .ok block → StandsAt p.code address block →
      HoldsScale depth values slot scale → depth + n.scaleDepth ≤ p.slots →
      n.every Node.hasSoundDistance = true → At p address depth values c x →
      Realizes (plain p) Outcome.Failed (n.Means scale) c x
        (At p (address + block.length) depth values)
  | .moveRight _, _, _, _, _, _, _, _, _, rfl, hcode, _, _, _, hx => realizes_moveRight hx hcode.head
  | .moveLeft _, _, _, _, _, _, _, _, _, rfl, hcode, _, _, _, hx => realizes_moveLeft hx hcode.head
  | .increment _, _, _, _, _, _, _, _, _, rfl, hcode, hs, _, _, hx =>
    realizes_increment hx hs hcode.head
  | .decrement _, _, _, _, _, _, _, _, _, rfl, hcode, hs, _, _, hx =>
    realizes_decrement hx hs hcode.head
  | .output, _, _, _, _, _, _, _, _, rfl, hcode, _, _, _, hx => realizes_output hx hcode.head
  | .input, _, _, _, _, _, _, _, _, rfl, hcode, _, _, _, hx => realizes_input hx hcode.head
  | .loop body, address, _, _, _, _, _, _, _, hblock, hcode, hs, hroom, hok, hx => by
    obtain ⟨inner, hinner, rfl⟩ := Node.code_loop hblock
    rw [Node.every, Bool.and_eq_true] at hok
    rw [Node.scaleDepth] at hroom
    have hlength : (Instr.loopStart (address + inner.length + 2) :: inner ++
        [Instr.loopEnd address]).length = inner.length + 2 := by simp
    rw [hlength, ← Nat.add_assoc]
    exact realizes_loop hcode (fun c x hx => Program.realizes_code body hinner hcode.tail.left rfl
      hroom hok.2 hx) hx
  | .scanRight _, _, _, _, _, _, _, _, _, rfl, hcode, _, _, hok, hx =>
    realizes_scanRight (of_decide_eq_true hok) hx hcode.head
  | .scanLeft _, _, _, _, _, _, _, _, _, rfl, hcode, _, _, hok, hx =>
    realizes_scanLeft (of_decide_eq_true hok) hx hcode.head
  | .clear, _, _, _, _, _, _, _, _, rfl, hcode, _, _, _, hx =>
    realizes_clear (fun _ => Iff.rfl) hx hcode.head (Or.inl rfl)
  | .scaled body, address, depth, _, _, _, _, _, _, hblock, hcode, hs, hroom, hok, hx => by
    obtain ⟨inner, hinner, rfl⟩ := Node.code_scaled hblock
    rw [Node.every, Bool.and_eq_true] at hok
    rw [Node.scaleDepth] at hroom
    have hlength : (Instr.scale (address + inner.length + 1) depth :: inner ++
        [Instr.unscale]).length = inner.length + 2 := by simp
    rw [hlength, ← Nat.add_assoc]
    exact realizes_scaled (R := fun s => Program.Means s body) hcode (by omega)
      (fun values x hvalue hx => Program.realizes_code body hinner hcode.tail.left
        ⟨Nat.lt_succ_self depth, hvalue⟩ (by omega) hok.2 hx) hx
  | .carryRight _, _, _, _, _, _, _, _, _, rfl, hcode, _, _, _, hx =>
    realizes_carryRight hx hcode.head
  | .carryLeft _, _, _, _, _, _, _, _, _, rfl, hcode, _, _, _, hx =>
    realizes_carryLeft hx hcode.head
  | .foreign _, _, _, _, _, _, _, _, _, hblock, _, _, _, _, _ => nomatch hblock
  | .derived _ base, _, _, _, _, _, _, _, _, hblock, hcode, hs, hroom, hok, hx => by
    rw [Node.every, Bool.and_eq_true] at hok
    exact Node.realizes_code base (Node.code_derived hblock) hcode hs hroom hok.2 hx

/-- The code of a sequence realizes its meaning. -/
theorem Program.realizes_code {p : FlatCode} :
    (q : List Node) → ∀ {address depth slot block values scale c x},
      Program.code address depth slot q = .ok block → StandsAt p.code address block →
      HoldsScale depth values slot scale → depth + Program.scaleDepth q ≤ p.slots →
      Program.every Node.hasSoundDistance q = true → At p address depth values c x →
      Realizes (plain p) Outcome.Failed (Program.Means scale q) c x
        (At p (address + block.length) depth values)
  | [], _, _, _, _, _, _, _, _, rfl, _, _, _, _, hx =>
    .of_done (fun _ => Iff.rfl) (.zero _) hx
  | n :: q, _, _, _, _, _, _, _, _, hblock, hcode, hs, hroom, hok, hx => by
    obtain ⟨first, rest, hfirst, hrest, rfl⟩ := Program.code_cons hblock
    rw [Program.every, Bool.and_eq_true] at hok
    rw [Program.scaleDepth] at hroom
    refine Realizes.andThen (Node.realizes_code n hfirst hcode.left hs (by omega) hok.1 hx)
      fun d y _ hy => ?_
    rw [List.length_append, ← Nat.add_assoc]
    exact Program.realizes_code q hrest hcode.right hs (by omega) hok.2 hy

end

/-! ## Distances -/

/-- What holds of all instructions of a body and of the two around it. -/
theorem forall_mem_enclosed {P : Instr → Prop} {first last : Instr} {inner : List Instr}
    (hfirst : P first) (hinner : ∀ i ∈ inner, P i) (hlast : P last) :
    ∀ i ∈ first :: inner ++ [last], P i := by
  intro i hi
  rcases List.mem_append.mp hi with hi | hi
  · rcases List.mem_cons.mp hi with rfl | hi
    · exact hfirst
    · exact hinner i hi
  · rwa [List.mem_singleton.mp hi]

mutual

theorem Node.hasSoundDistance_of_code : (n : Node) → ∀ {address depth slot block},
    n.code address depth slot = .ok block → n.every Node.hasSoundDistance = true →
    ∀ i ∈ block, i.hasSoundDistance = true
  | .moveRight _, _, _, _, _, rfl, hok | .moveLeft _, _, _, _, _, rfl, hok
  | .scanRight _, _, _, _, _, rfl, hok | .scanLeft _, _, _, _, _, rfl, hok
  | .carryRight _, _, _, _, _, rfl, hok | .carryLeft _, _, _, _, _, rfl, hok => by
    intro i hi
    obtain rfl := List.mem_singleton.mp hi
    exact hok
  | .increment _, _, _, _, _, rfl, _ | .decrement _, _, _, _, _, rfl, _ | .output, _, _, _, _, rfl, _
  | .input, _, _, _, _, rfl, _ | .clear, _, _, _, _, rfl, _ => by
    intro i hi
    obtain rfl := List.mem_singleton.mp hi
    rfl
  | .loop body, _, _, _, _, hblock, hok => by
    obtain ⟨inner, hinner, rfl⟩ := Node.code_loop hblock
    rw [Node.every, Bool.and_eq_true] at hok
    exact forall_mem_enclosed rfl (Program.hasSoundDistance_of_code body hinner hok.2) rfl
  | .scaled body, _, _, _, _, hblock, hok => by
    obtain ⟨inner, hinner, rfl⟩ := Node.code_scaled hblock
    rw [Node.every, Bool.and_eq_true] at hok
    exact forall_mem_enclosed rfl (Program.hasSoundDistance_of_code body hinner hok.2) rfl
  | .foreign _, _, _, _, _, hblock, _ => by cases hblock
  | .derived _ base, _, _, _, _, hblock, hok => by
    rw [Node.every, Bool.and_eq_true] at hok
    exact Node.hasSoundDistance_of_code base (Node.code_derived hblock) hok.2

/-- The code of a sequence goes no negative distance if the sequence does not. -/
theorem Program.hasSoundDistance_of_code : (q : List Node) → ∀ {address depth slot block},
    Program.code address depth slot q = .ok block →
    Program.every Node.hasSoundDistance q = true → ∀ i ∈ block, i.hasSoundDistance = true
  | [], _, _, _, _, rfl, _ => fun _ hi => absurd hi List.not_mem_nil
  | n :: q, _, _, _, _, hblock, hok => by
    obtain ⟨first, rest, hfirst, hrest, rfl⟩ := Program.code_cons hblock
    rw [Program.every, Bool.and_eq_true] at hok
    intro i hi
    rcases List.mem_append.mp hi with hi | hi
    · exact Node.hasSoundDistance_of_code n hfirst hok.1 i hi
    · exact Program.hasSoundDistance_of_code q hrest hok.2 i hi

end

/-! ## Whole programs -/

/-- Where a program begins. -/
def Config.start (tape : Tape) (index : Nat) (input : List UInt8) : Config :=
  ⟨tape.get, index, input, #[]⟩

/-- What fits is a word with a sign. -/
theorem Instr.fits_iff {i : Instr} : i.fits = true ↔ -2 ^ 63 ≤ i.argument ∧ i.argument < 2 ^ 63 := by
  have hmin : Int64.minValue.toInt = -2 ^ 63 := rfl
  have hmax : Int64.maxValue.toInt = 2 ^ 63 - 1 := rfl
  rw [fits, hmin, hmax, Bool.and_eq_true, decide_eq_true_iff, decide_eq_true_iff, Int.le_sub_one_iff]

/-- Flattening keeps the code and the number of registers. -/
theorem Program.code_of_flatten {q : Program} {p : FlatCode} (h : q.flatten = .ok p) :
    ∃ block, Program.code 0 0 none q = .ok block ∧ p = ⟨block.toArray, Program.scaleDepth q⟩ := by
  rw [Program.flatten] at h
  split at h
  case h_1 => cases h
  case h_2 block hblock =>
    split at h
    case isTrue => exact ⟨block, hblock, (Except.ok.inj h).symm⟩
    case isFalse => cases h

variable {q : Program} {p : FlatCode}

/-- An execution begins at the first address, where the program begins. -/
theorem FlatCode.start_at (p : FlatCode) (tape : Tape) (index : Nat) (input : List UInt8) :
    At p 0 0 (fun _ => 0) (.start tape index input) (p.start tape index input) where
  pc := rfl
  pointer := rfl
  cells := funext fun j => by rw [tape_start, Tape.get_cover, Config.start]
  inside := by
    rw [tape_start]
    exact Tape.lt_size_cover tape index
  unread := rfl
  written := rfl
  scales := fun k hk => absurd hk (Nat.not_lt_zero k)
  slots := by
    rw [FlatCode.start, Array.size_replicate]
    exact Nat.le_max_right _ _

/-- The code of a whole program realizes its meaning. -/
theorem Program.realizes_flatten (hp : q.flatten = .ok p)
    (hok : Program.every Node.hasSoundDistance q = true) (tape : Tape) (index : Nat)
    (input : List UInt8) :
    Realizes (plain p) Outcome.Failed (Program.Means 1 q) (.start tape index input)
      (p.start tape index input) (At p p.code.size 0 fun _ => 0) := by
  obtain ⟨block, hblock, rfl⟩ := Program.code_of_flatten hp
  have h := Program.realizes_code q hblock (.of_toArray block) rfl (Nat.le_of_eq (Nat.zero_add _)) hok
    (FlatCode.start_at ⟨block.toArray, Program.scaleDepth q⟩ tape index input)
  rwa [Nat.zero_add, ← List.size_toArray] at h

/-- Behind the last instruction an execution is finished, with what it shows. -/
theorem Execution.At.ends_at_end {depth : Nat} {values : Nat → UInt8} {c : Config} {x : Execution}
    (hx : At p p.code.size depth values c x) :
    ∃ r, Ends (plain p) x (.finished r) ∧ r.ending? = some (.done c) := by
  have hnone : p.code[x.machine.pc]? = none :=
    Array.getElem?_eq_none (Nat.le_of_eq hx.pc.symm)
  refine ⟨_, ⟨0, x, .zero x, stepBy_of_end hnone⟩, ?_⟩
  rw [Result.ending?_of_done hx.pointer, hx.cells, hx.unread, hx.written]

section Endings

variable {tape : Tape} {index : Nat} {input : List UInt8}

/-- Every ending that the tree has is that of an execution. -/
theorem Program.exists_ends_of_means (hp : q.flatten = .ok p)
    (hok : Program.every Node.hasSoundDistance q = true) {e : Ending}
    (he : Program.Means 1 q (.start tape index input) e) :
    ∃ r, Ends (plain p) (p.start tape index input) (.finished r) ∧ r.ending? = some e := by
  have hreal := Program.realizes_flatten hp hok tape index input
  cases e with
  | done d =>
    obtain ⟨n, y, hy, hat⟩ := hreal.done he
    obtain ⟨r, hr, hending⟩ := hat.ends_at_end
    exact ⟨r, hr.of_runs hy, hending⟩
  | fault d =>
    obtain ⟨_, hr, r, rfl, hending⟩ := hreal.fault he
    exact ⟨r, hr, hending⟩

/-- Every execution that stops has the ending of the tree. -/
theorem Program.means_of_ends (hp : q.flatten = .ok p)
    (hok : Program.every Node.hasSoundDistance q = true) {r : Result}
    (hr : Ends (plain p) (p.start tape index input) (.finished r)) :
    ∃ e, r.ending? = some e ∧ Program.Means 1 q (.start tape index input) e := by
  by_cases hnone : ∀ e, ¬ Program.Means 1 q (.start tape index input) e
  · exact absurd ((Program.realizes_flatten hp hok tape index input).forever hnone) hr.not_forever
  · obtain ⟨e, he⟩ := not_forall_not.mp hnone
    obtain ⟨r', hr', hending⟩ := Program.exists_ends_of_means hp hok he
    obtain rfl := Outcome.finished.inj (hr.unique hr')
    exact ⟨e, hending, he⟩

/-- The arguments of flat code are words. -/
theorem Program.fits_of_flatten (hp : q.flatten = .ok p) : ∀ i ∈ p.code, i.fits = true := by
  rw [Program.flatten] at hp
  split at hp
  case h_1 => cases hp
  case h_2 block hblock =>
    split at hp
    case isTrue hfits =>
      obtain rfl := Except.ok.inj hp
      exact fun i hi => List.all_eq_true.mp hfits i (List.mem_toArray.mp hi)
    case isFalse => cases hp

/-- The code of a tree goes no negative distance if the tree does not. -/
theorem Program.hasSoundDistances_of_flatten (hp : q.flatten = .ok p)
    (hok : Program.every Node.hasSoundDistance q = true) : p.HasSoundDistances := by
  obtain ⟨block, hblock, rfl⟩ := Program.code_of_flatten hp
  intro i hi
  exact Program.hasSoundDistance_of_code q hblock hok i (by simpa using hi)

/-- Every ending that the tree has is that of an execution that keeps to words. -/
theorem Program.exists_yields_of_means (hp : q.flatten = .ok p)
    (hok : Program.every Node.hasSoundDistance q = true) (hwords : p.KeepsToWords tape index input)
    {e : Ending} (he : Program.Means 1 q (.start tape index input) e) :
    ∃ r, p.Yields tape index input r ∧ r.ending? = some e := by
  obtain ⟨r, hr, hending⟩ := Program.exists_ends_of_means hp hok he
  exact ⟨r, (hwords.comesTo_iff (Program.hasSoundDistances_of_flatten hp hok)).mpr hr, hending⟩

/-- Every execution that keeps to words and stops has the ending of the tree. -/
theorem Program.means_of_yields (hp : q.flatten = .ok p)
    (hok : Program.every Node.hasSoundDistance q = true) (hwords : p.KeepsToWords tape index input)
    {r : Result} (hr : p.Yields tape index input r) :
    ∃ e, r.ending? = some e ∧ Program.Means 1 q (.start tape index input) e :=
  Program.means_of_ends hp hok
    ((hwords.comesTo_iff (Program.hasSoundDistances_of_flatten hp hok)).mp hr)

theorem Program.means_of_yields_done (hp : q.flatten = .ok p)
    (hok : Program.every Node.hasSoundDistance q = true) (hwords : p.KeepsToWords tape index input)
    {r : Result} (hr : p.Yields tape index input r) (hstatus : r.status = 0) :
    ∃ c, r.config? = some c ∧ Program.Means 1 q (.start tape index input) (.done c) := by
  obtain ⟨e, hending, hmeans⟩ := Program.means_of_yields hp hok hwords hr
  cases e with
  | done c => exact ⟨c, (Result.ending?_eq_done_iff.mp hending).2, hmeans⟩
  | fault c =>
    exact absurd ((Result.ending?_eq_fault_iff.mp hending).1.symm.trans hstatus) (by decide)

theorem Program.means_of_yields_fault (hp : q.flatten = .ok p)
    (hok : Program.every Node.hasSoundDistance q = true) (hwords : p.KeepsToWords tape index input)
    {r : Result} (hr : p.Yields tape index input r) (hstatus : r.status = faultStatus) :
    ∃ c, r.config? = some c ∧ Program.Means 1 q (.start tape index input) (.fault c) := by
  obtain ⟨e, hending, hmeans⟩ := Program.means_of_yields hp hok hwords hr
  cases e with
  | fault c => exact ⟨c, (Result.ending?_eq_fault_iff.mp hending).2, hmeans⟩
  | done c =>
    exact absurd ((Result.ending?_eq_done_iff.mp hending).1.symm.trans hstatus) (by decide)

/-- An execution that keeps to words never stops exactly if the tree has no ending. -/
theorem Program.neverStops_iff (hp : q.flatten = .ok p)
    (hok : Program.every Node.hasSoundDistance q = true)
    (hwords : p.KeepsToWords tape index input) :
    p.NeverStops tape index input ↔ ∀ e, ¬ Program.Means 1 q (.start tape index input) e := by
  rw [hwords.neverStops_iff (Program.hasSoundDistances_of_flatten hp hok)]
  constructor
  · intro h e he
    obtain ⟨r, hr, -⟩ := Program.exists_ends_of_means hp hok he
    exact hr.not_forever h
  · exact (Program.realizes_flatten hp hok tape index input).forever

end Endings

/-- **Executions end as the meaning of the tree says.**  Let the execution of the flat code of a program
keep to words.  It stops with a certain output, index, exit status and zero-padded tape exactly if the
meaning of the tree has that ending, and it never stops exactly if the meaning has no ending.  It does
not go astray. -/
theorem Program.yields_iff_means (hp : q.flatten = .ok p)
    (hok : Program.every Node.hasSoundAmount q = true) (tape : Tape) (index : Nat)
    (input : List UInt8) (hwords : p.KeepsToWords tape index input) :
    (∀ e, (∃ r, p.Yields tape index input r ∧ r.ending? = some e) ↔
      Program.Means 1 q (.start tape index input) e) ∧
    (p.NeverStops tape index input ↔ ∀ e, ¬ Program.Means 1 q (.start tape index input) e) ∧
    ∀ o, p.ComesTo .unlimited tape index input o → ∃ r e, o = .finished r ∧ r.ending? = some e := by
  have hdistances := Program.every_mono Node.hasSoundDistance_of_hasSoundAmount q hok
  refine ⟨fun e => ⟨?_, Program.exists_yields_of_means hp hdistances hwords⟩,
    Program.neverStops_iff hp hdistances hwords, fun o ho => ?_⟩
  · rintro ⟨r, hr, hending⟩
    obtain ⟨e', hending', he'⟩ := Program.means_of_yields hp hdistances hwords hr
    rwa [Option.some.inj (hending.symm.trans hending')]
  · obtain ⟨r, rfl, -⟩ :=
      hwords.exists_result (Program.hasSoundDistances_of_flatten hp hdistances) ho
    obtain ⟨e, hending, -⟩ := Program.means_of_yields hp hdistances hwords ho
    exact ⟨r, e, rfl, hending⟩

/-- A change behind a loop that stands in a scaled body and has another scaled body in it. -/
def nestedScales : Program :=
  [.increment 2, .scaled [.moveRight 1, .increment 3, .loop [.scaled [.moveRight 1, .increment 4],
    .moveLeft 1], .increment 5], .output]

theorem Program.yields_iff_means_nested :
    ∃ p, nestedScales.flatten = .ok p ∧ p.KeepsToWords .initial 0 [] ∧
      ∀ e, (∃ r, p.Yields .initial 0 [] r ∧ r.ending? = some e) ↔
        Program.Means 1 nestedScales (.start .initial 0 []) e := by
  obtain ⟨p, hp, hwords⟩ : ∃ p, nestedScales.flatten = .ok p ∧ p.KeepsToWords .initial 0 [] :=
    ⟨_, rfl, FlatCode.keepsToWords_of_argument_le (by decide) (by decide) .initial 0 []⟩
  exact ⟨p, hp, hwords, (Program.yields_iff_means hp rfl .initial 0 [] hwords).1⟩

/-- Two moves to the right and one to the left that does not leave the tape. -/
theorem Program.means_moves {a b n : Int} {c : Config} {index : Nat}
    (h : n.toNat ≤ c.index + a.toNat + b.toNat) (hindex : c.index + a.toNat + b.toNat - n.toNat = index) :
    Program.Means 1 [.moveRight a, .moveRight b, .moveLeft n] c (.done (c.goTo index)) := by
  refine .pass rfl (.pass rfl (.pass ?_ rfl))
  simp only [Node.Means, Config.moveLeft, if_neg (Nat.not_lt.mpr h), hindex, Config.goTo]

/-- Two moves to the right whose sum is no word, and one to the left.  The tree ends normally; the
execution has a negative index then and faults. -/
theorem Program.yields_fault_beyond_words :
    ∃ q p r, q = [.moveRight 1, .moveRight (2 ^ 63 - 1), .moveLeft 1] ∧
      Program.flatten q = .ok p ∧ Program.every Node.hasSoundAmount q = true ∧
      p.Yields (.blank 2) 0 [] r ∧ r.status = faultStatus ∧ r.index = -2 ^ 63 ∧
      Program.Means 1 q (.start (.blank 2) 0 [])
        (.done ((Config.start (.blank 2) 0 []).goTo (2 ^ 63 - 1))) :=
  ⟨_, _, ⟨#[], [], .blank 2, -2 ^ 63, 3, some 2⟩, rfl, rfl, rfl, ⟨1, by decide +kernel⟩, rfl, rfl,
    Program.means_moves (by decide) (by decide)⟩

end Brainfuck
