import Brainfuck.IR.Process
import Brainfuck.Proofs.CallMeaning

/-!
# The memory of a process

A process keeps the tape in a block of memory and everything else that there is to know about it in
stack slots.  `Process.Holds` says that the block, its length and the index in the slots, and the line
that is being read make up a memory in the sense of the routines: the block that one slot points to is
as long as another slot says.  A call of a routine finds the memory through the slots and leaves the
new one there, so it is what the routine does to the memory.

The block may be another one after a call, and the old one is gone then.  So the number of the block
is part of what is known about a process: an address that was read from the slot is good as long as
the number is the same.

* `Process.Holds`: the memory of a process.
* `Process.Holds.exists_callOnSlots`, `Process.Holds.exists_callOnBlock`,
  `Process.Holds.exists_readInto`: calls on the memory.
* `Process.Shows`: the configuration that a process is in.
* `Process.Shows.exists_callOnSlots`, `Process.Shows.exists_callOnBlock`,
  `Process.Shows.exists_read`: what calls do to it.
-/

namespace Brainfuck.IR

/-! ## Blocks -/

namespace Heap

variable {h : Heap} {k j : Nat} {bytes old other : Array UInt8}

theorem lt_next_of_block? (hk : h.block? k = some bytes) : k < h.next := by
  by_contra hge
  rw [block?, Array.getElem?_eq_none (Nat.not_lt.mp hge)] at hk
  cases hk

theorem block?_write (hk : k < h.next) (bytes : Array UInt8) (j : Nat) :
    (h.write k bytes).block? j = if j = k then some bytes else h.block? j := by
  rw [block?, write, Array.getElem?_setIfInBounds]
  by_cases hj : k = j
  · rw [if_pos hj, if_pos hj.symm, if_pos (hj ▸ hk)]
    rfl
  · rw [if_neg hj, if_neg (Ne.symm hj)]
    rfl

theorem block?_alloc (h : Heap) (bytes : Array UInt8) (j : Nat) :
    (h.alloc bytes).block? j = if j = h.next then some bytes else h.block? j := by
  rw [block?, alloc, Array.getElem?_push, next]
  split <;> rfl

theorem block?_free (h : Heap) (k j : Nat) :
    (h.free k).block? j = if j = k then none else h.block? j := by
  rw [block?, free, Array.getElem?_setIfInBounds]
  by_cases hj : k = j
  · rw [if_pos hj, if_pos hj.symm]
    split <;> rfl
  · rw [if_neg hj, if_neg (Ne.symm hj)]
    rfl

theorem next_free (h : Heap) (k : Nat) : (h.free k).next = h.next := Array.size_setIfInBounds

/-- What a block holds when it has been given another size. -/
theorem block?_resize (hk : h.block? k = some old) (bytes : Array UInt8) :
    (h.resize k bytes).2.block? (h.resize k bytes).1 = some bytes := by
  rw [resize]
  split
  · exact (block?_write (lt_next_of_block? hk) bytes k).trans (if_pos rfl)
  · rw [block?_alloc, next_free, if_pos rfl]

/-- Other blocks stay as they are, and the block does not become one of them. -/
theorem block?_resize_of_ne (hk : h.block? k = some old) (hj : h.block? j = some other) (hne : j ≠ k)
    (bytes : Array UInt8) :
    (h.resize k bytes).2.block? j = some other ∧ j ≠ (h.resize k bytes).1 := by
  have hnext : j ≠ h.next := Nat.ne_of_lt (lt_next_of_block? hj)
  rw [resize]
  split
  · exact ⟨by rw [block?_write (lt_next_of_block? hk), if_neg hne, hj], hne⟩
  · refine ⟨?_, hnext⟩
    rw [block?_alloc, next_free, if_neg hnext, block?_free, if_neg hne, hj]

/-- What the block holds that another one was exchanged for. -/
theorem block?_exchange {j? : Option Nat} (hlive : ∀ j ∈ j?, (h.block? j).isSome = true)
    (new : Option (Array UInt8)) :
    (h.exchange j? new).1.bind (h.exchange j? new).2.block? = new ∧
      ∀ j ∈ (h.exchange j? new).1, ((h.exchange j? new).2.block? j).isSome = true := by
  cases j? with
  | none =>
    cases new with
    | none => exact ⟨rfl, nofun⟩
    | some bytes =>
      have hnew : (h.alloc bytes).block? h.next = some bytes := by rw [block?_alloc, if_pos rfl]
      refine ⟨hnew, fun j hj => ?_⟩
      obtain rfl := Option.some.inj hj
      exact Option.isSome_of_eq_some hnew
  | some j =>
    cases new with
    | none => exact ⟨rfl, nofun⟩
    | some bytes =>
      obtain ⟨old, hold⟩ := Option.isSome_iff_exists.mp (hlive j rfl)
      have hnew := block?_resize hold bytes
      refine ⟨hnew, fun i hi => ?_⟩
      obtain rfl := Option.some.inj hi
      exact Option.isSome_of_eq_some hnew

/-- Other blocks stay as they are, and the new block is none of them. -/
theorem block?_exchange_of_ne {j? : Option Nat} (hlive : ∀ j ∈ j?, (h.block? j).isSome = true)
    (hk : h.block? k = some bytes) (hne : j? ≠ some k) (new : Option (Array UInt8)) :
    (h.exchange j? new).2.block? k = some bytes ∧ (h.exchange j? new).1 ≠ some k := by
  have hnext : k ≠ h.next := Nat.ne_of_lt (lt_next_of_block? hk)
  cases j? with
  | none =>
    cases new with
    | none => exact ⟨hk, nofun⟩
    | some new =>
      refine ⟨?_, fun heq => hnext (Option.some.inj heq).symm⟩
      rw [exchange, block?_alloc, if_neg hnext, hk]
  | some j =>
    have hkj : k ≠ j := fun heq => hne (congrArg some heq.symm)
    cases new with
    | none =>
      refine ⟨?_, nofun⟩
      rw [exchange, block?_free, if_neg hkj, hk]
    | some new =>
      obtain ⟨old, hold⟩ := Option.isSome_iff_exists.mp (hlive j rfl)
      obtain ⟨hsame, hnew⟩ := block?_resize_of_ne hold hk hkj new
      exact ⟨hsame, fun heq => hnew (Option.some.inj heq).symm⟩

/-- The byte at an offset in a block. -/
theorem byte?_eq (hk : h.block? k = some bytes) (i : Nat) : h.byte? k (i : Int) = bytes[i]? := by
  change (h.block? k).bind (·[i]?) = bytes[i]?
  rw [hk]
  rfl

theorem setByte?_eq (hk : h.block? k = some bytes) {i : Nat} (hi : i < bytes.size) (v : UInt8) :
    h.setByte? k (i : Int) v = some (h.write k (bytes.setIfInBounds i v)) := by
  rw [setByte?, hk]
  exact if_pos hi

end Heap

/-- A tape is found in its block. -/
theorem ofBytes?_cells (b : Buffer) : Buffer.ofBytes? b.count b.cells.toArray b.index = some b :=
  dif_pos b.cells.size_toArray

theorem ofNat_size_cells (b : Buffer) : UInt64.ofNat b.cells.toArray.size = b.count := by
  rw [Vector.size_toArray, UInt64.ofNat_toNat]

/-! ## The memory -/

/-- Names with different stems are different. -/
theorem getElem?_insert_of_stem_ne {values : Std.HashMap Name Value} {n m : Name}
    (h : n.stem ≠ m.stem) (v : Value) : (values.insert n v)[m]? = values[m]? := by
  rw [Std.HashMap.getElem?_insert, if_neg]
  rw [beq_iff_eq]
  rintro rfl
  exact h rfl

/-- The block of a tape, and its length and the index in the slots, are those of a memory; and so is
the line, in another block or in none. -/
structure Process.Holds (s : Process) (k : Nat) (j? : Option Nat) (m : Memory) : Prop where
  cells : s.slots[(⟨.cells, 0⟩ : Name)]? = some (.address k 0)
  block : s.heap.block? k = some m.tape.cells.toArray
  length : s.slots[(⟨.cellsLength, 0⟩ : Name)]? = some (.word m.tape.count)
  index : s.slots[(⟨.currentCell, 0⟩ : Name)]? = some (.word m.tape.index)
  line : s.slots[(⟨.inputBuffer, 0⟩ : Name)]? = some (.pointer j?)
  live : ∀ j ∈ j?, (s.heap.block? j).isSome = true
  apart : j? ≠ some k
  lines : s.lines j? = m.lines

namespace Process.Holds

variable {s : Process} {k : Nat} {j? : Option Nat} {m : Memory}

theorem blockAt_cells (h : s.Holds k j? m) :
    s.blockAt (.address k 0) = some (k, m.tape.cells.toArray) := by
  change (s.heap.block? k).map (k, ·) = _
  rw [h.block]
  rfl

/-- The line is found in its block, if there is one. -/
theorem pointerAt_line (h : s.Holds k j? m) : s.pointerAt ⟨.inputBuffer, 0⟩ = some j? := by
  rw [pointerAt, h.line]
  cases j? with
  | none => rfl
  | some j =>
    obtain ⟨bytes, hbytes⟩ := Option.isSome_iff_exists.mp (h.live j rfl)
    change ((s.heap.block? j).map (j, ·)).map (fun e => some e.1) = _
    rw [hbytes]
    rfl

/-- Registers and what has been written are not in the memory. -/
theorem unseen (h : s.Holds k j? m) (registers : Std.HashMap Name Value) (stdout : Array UInt8)
    (stderr : String) :
    Holds { s with registers := registers, stdout := stdout, stderr := stderr } k j? m :=
  ⟨h.cells, h.block, h.length, h.index, h.line, h.live, h.apart, h.lines⟩

/-- Another index. -/
theorem setWord (h : s.Holds k j? m) (i : UInt64) :
    (s.setWord ⟨.currentCell, 0⟩ i).Holds k j? ⟨{ m.tape with index := i }, m.lines⟩ where
  cells := (getElem?_insert_of_stem_ne (by simp) _).trans h.cells
  block := h.block
  length := (getElem?_insert_of_stem_ne (by simp) _).trans h.length
  index := Std.HashMap.getElem?_insert_self
  line := (getElem?_insert_of_stem_ne (by simp) _).trans h.line
  live := h.live
  apart := h.apart
  lines := h.lines

/-- Other cells in the same block. -/
theorem write (h : s.Holds k j? m) (cells : Vector UInt8 m.tape.count.toNat) :
    Holds { s with heap := s.heap.write k cells.toArray } k j?
      ⟨{ m.tape with cells := cells }, m.lines⟩ := by
  have hblock := Heap.block?_write (Heap.lt_next_of_block? h.block) cells.toArray
  have hsame : ∀ j ∈ j?, (s.heap.write k cells.toArray).block? j = s.heap.block? j := by
    rintro j rfl
    rw [hblock, if_neg fun heq => h.apart (congrArg some heq)]
  exact {
    cells := h.cells
    block := (hblock k).trans (if_pos rfl)
    length := h.length
    index := h.index
    line := h.line
    live := fun j hj => (hsame j hj).symm ▸ h.live j hj
    apart := h.apart
    lines := by
      rw [← h.lines]
      cases j? with
      | none => rfl
      | some j => exact congrArg (LineBuffer.mk _ _ _ · _) (hsame j rfl) }

/-- The tape can be given back. -/
theorem call_free_cells (h : s.Holds k j? m) (registers : Std.HashMap Name Value) :
    call { s with registers := registers } .free [.address k 0] =
      some (none, { s with registers := registers, heap := s.heap.free k }) := by
  change ((blockAt s (.address k 0)).bind fun e => some _) = _
  rw [h.blockAt_cells]
  rfl

/-- The line can be given back after the tape, whether there is one or not. -/
theorem exists_call_free_line (h : s.Holds k j? m) (registers : Std.HashMap Name Value) :
    ∃ heap, call { s with registers := registers, heap := s.heap.free k } .free [.pointer j?] =
      some (none, { s with registers := registers, heap := heap }) := by
  cases j? with
  | none => exact ⟨_, rfl⟩
  | some j =>
    obtain ⟨bytes, hbytes⟩ := Option.isSome_iff_exists.mp (h.live j rfl)
    refine ⟨(s.heap.free k).free j, ?_⟩
    change (((s.heap.free k).block? j).map (j, ·)).bind (fun e => some _) = _
    rw [Heap.block?_free, if_neg fun heq => h.apart (congrArg some heq), hbytes]
    rfl

/-- A call that finds the tape and its length through the slots.  It leaves the tape there that the
routine leaves, and gives the index. -/
theorem exists_callOnSlots (h : s.Holds k j? m) {r : Routine} {amount : UInt64}
    {answer : Option Bool} {after : Buffer}
    (hafter : m.tape.perform ⟨r, amount, s.system.fresh s.heap.next⟩ = some (answer, after)) :
    ∃ k' heap slots,
      s.callOnSlots r ⟨.cells, 0⟩ ⟨.cellsLength, 0⟩ m.tape.index amount =
        some (after.index, { s with heap := heap, slots := slots }) ∧
      Holds { s with heap := heap, slots := slots } k' j?
        ⟨{ after with index := m.tape.index }, m.lines⟩ := by
  have hlength : s.wordAt ⟨.cellsLength, 0⟩ = some m.tape.count := by rw [wordAt, h.length]
  have hcall : s.callOnSlots r ⟨.cells, 0⟩ ⟨.cellsLength, 0⟩ m.tape.index amount =
      some (after.index, { s with
        heap := (s.heap.resize k after.cells.toArray).2
        slots := (s.slots.insert ⟨.cells, 0⟩ (.address (s.heap.resize k after.cells.toArray).1 0)).insert
          ⟨.cellsLength, 0⟩ (.word after.count) }) := by
    simp only [callOnSlots, h.cells, h.blockAt_cells, hlength, ofBytes?_cells, hafter, bind,
      Option.bind, pure]
  have hkept : ∀ j ∈ j?, (s.heap.resize k after.cells.toArray).2.block? j = s.heap.block? j ∧
      j ≠ (s.heap.resize k after.cells.toArray).1 := by
    rintro j rfl
    obtain ⟨bytes, hbytes⟩ := Option.isSome_iff_exists.mp (h.live j rfl)
    rw [hbytes]
    exact Heap.block?_resize_of_ne h.block hbytes (fun heq => h.apart (congrArg some heq)) _
  exact ⟨_, _, _, hcall, {
    cells := (getElem?_insert_of_stem_ne (by simp) _).trans Std.HashMap.getElem?_insert_self
    block := Heap.block?_resize h.block _
    length := Std.HashMap.getElem?_insert_self
    index := ((getElem?_insert_of_stem_ne (by simp) _).trans
      (getElem?_insert_of_stem_ne (by simp) _)).trans h.index
    line := ((getElem?_insert_of_stem_ne (by simp) _).trans
      (getElem?_insert_of_stem_ne (by simp) _)).trans h.line
    live := fun j hj => (hkept j hj).1.symm ▸ h.live j hj
    apart := fun heq => (hkept _ heq).2 rfl
    lines := by
      rw [← h.lines]
      cases j? with
      | none => rfl
      | some j => exact congrArg (LineBuffer.mk _ _ _ · _) (hkept j rfl).1 }⟩

/-- A call that is given the tape, of a routine that does not change its size. -/
theorem exists_callOnBlock (h : s.Holds k j? m) {r : Routine} {amount : UInt64}
    {answer : Option Bool} {after : Buffer}
    (hafter : m.tape.perform ⟨r, amount, s.system.fresh s.heap.next⟩ = some (answer, after))
    (hcount : after.count = m.tape.count) :
    ∃ heap,
      s.callOnBlock r (.address k 0) m.tape.index amount =
        some (answer, after.index, { s with heap := heap }) ∧
      Holds { s with heap := heap } k j? ⟨{ after with index := m.tape.index }, m.lines⟩ := by
  obtain ⟨count, cells, index⟩ := after
  obtain rfl : count = m.tape.count := hcount
  refine ⟨_, ?_, h.write cells⟩
  simp only [callOnBlock, h.blockAt_cells, ofNat_size_cells, ofBytes?_cells, hafter, bind,
    Option.bind, pure]

/-- A call that reads a byte. -/
theorem exists_readInto (h : s.Holds k j? m) {after : Memory}
    (hafter : m.input m.tape.index s.system.fetch = some after)
    (hcount : after.tape.count = m.tape.count) (hindex : after.tape.index = m.tape.index) :
    ∃ s' j', s.readInto (.address k 0) m.tape.index ⟨.inputBuffer, 0⟩ = some s' ∧
      s'.registers = s.registers ∧ s'.system = s.system ∧ s'.stdout = s.stdout ∧
      s'.stderr = s.stderr ∧ s'.Holds k j' after := by
  obtain ⟨⟨count, cells, index⟩, lines⟩ := after
  obtain rfl : count = m.tape.count := hcount
  obtain rfl : index = m.tape.index := hindex
  obtain ⟨hnew, hlive⟩ := Heap.block?_exchange h.live lines.block
  obtain ⟨hblock, hapart⟩ := Heap.block?_exchange_of_ne h.live h.block h.apart lines.block
  -- the process between the exchange of the line and the change of the cell
  let mid : Process := { s with
    heap := (s.heap.exchange j? lines.block).2
    slots := s.slots.insert ⟨.inputBuffer, 0⟩ (.pointer (s.heap.exchange j? lines.block).1)
    lineLength := lines.length
    lineCapacity := lines.capacity
    linePosition := lines.position
    rest := lines.rest }
  have hmid : mid.Holds k (s.heap.exchange j? lines.block).1 ⟨m.tape, lines⟩ := {
    cells := (getElem?_insert_of_stem_ne (by simp) _).trans h.cells
    block := hblock
    length := (getElem?_insert_of_stem_ne (by simp) _).trans h.length
    index := (getElem?_insert_of_stem_ne (by simp) _).trans h.index
    line := Std.HashMap.getElem?_insert_self
    live := hlive
    apart := hapart
    lines := congrArg (LineBuffer.mk _ _ _ · _) hnew }
  have hmemory : Memory.mk m.tape (s.lines j?) = m := congrArg (Memory.mk m.tape) h.lines
  have hread : s.readInto (.address k 0) m.tape.index ⟨.inputBuffer, 0⟩ =
      some { mid with heap := mid.heap.write k cells.toArray } := by
    simp only [readInto, h.blockAt_cells, ofNat_size_cells, ofBytes?_cells, h.pointerAt_line, hmemory,
      hafter, bind, Option.bind, pure, mid]
  exact ⟨_, _, hread, rfl, rfl, rfl, rfl, hmid.write cells⟩

end Process.Holds

/-! ## What a process shows -/

/-- The process has a configuration in its memory and in its streams, and nothing has gone wrong.  The
tape is in the block with the given number. -/
def Process.Shows (s : Process) (k : Nat) (c : Config) : Prop :=
  ∃ j? m input, s.Holds k j? m ∧ m.Sound input ∧ s.system.fetch.Serves input ∧
    m.config s.stdout = c ∧ s.stderr = ""

namespace Process.Shows

variable {s : Process} {k : Nat} {c : Config} {n : UInt64} {scale : UInt8}

theorem stdout (h : s.Shows k c) : s.stdout = c.written := by
  obtain ⟨_, _, _, _, _, _, rfl, _⟩ := h
  rfl

theorem stderr (h : s.Shows k c) : s.stderr = "" := by
  obtain ⟨_, _, _, _, _, _, _, hstderr⟩ := h
  exact hstderr

/-- Indices are words that are not negative as signed numbers. -/
theorem bound (h : s.Shows k c) : c.index < 2 ^ 63 := by
  obtain ⟨_, _, _, _, hsound, _, rfl, _⟩ := h
  exact hsound.bound

theorem base (h : s.Shows k c) : s.slots[(⟨.cells, 0⟩ : Name)]? = some (.address k 0) := by
  obtain ⟨_, _, _, hholds, _⟩ := h
  exact hholds.cells

theorem index (h : s.Shows k c) :
    s.slots[(⟨.currentCell, 0⟩ : Name)]? = some (.word (.ofNat c.index)) := by
  obtain ⟨_, m, _, hholds, _, _, rfl, _⟩ := h
  rw [hholds.index, ← m.tape.index.ofNat_toNat]
  rfl

/-- Registers do not show. -/
theorem registers (h : s.Shows k c) (registers : Std.HashMap Name Value) :
    Shows { s with registers := registers } k c := by
  obtain ⟨j?, m, input, hholds, hsound, hserves, hconfig, hstderr⟩ := h
  exact ⟨j?, m, input, hholds.unseen registers s.stdout s.stderr, hsound, hserves, hconfig, hstderr⟩

/-- Writing the current cell to the output. -/
theorem write (h : s.Shows k c) : Shows { s with stdout := s.stdout.push c.cell } k c.write := by
  obtain ⟨j?, m, input, hholds, hsound, hserves, rfl, hstderr⟩ := h
  exact ⟨j?, m, input, hholds.unseen s.registers _ s.stderr, hsound, hserves, rfl, hstderr⟩

/-- The byte at the address of the current cell. -/
theorem fetch_cell (h : s.Shows k c) : s.fetch (.address k c.index) = some (.byte c.cell) := by
  obtain ⟨_, m, _, hholds, hsound, _, rfl, _⟩ := h
  have hcell := Buffer.getElem?_cells hsound.inside
  rw [fetch, Heap.byte?_eq hholds.block]
  change (m.tape.cells.toArray[m.tape.index.toNat]?).map Value.byte = _
  rw [Vector.getElem?_toArray, hcell]
  rfl

/-- Writing to the address of the current cell. -/
theorem exists_put (h : s.Shows k c) (v : UInt8) :
    ∃ s', s.put (.byte v) (.address k c.index) = some s' ∧ s'.registers = s.registers ∧
      s'.Shows k (c.store v) := by
  obtain ⟨j?, m, input, hholds, hsound, hserves, rfl, hstderr⟩ := h
  have hlt : m.tape.index.toNat < m.tape.cells.toArray.size :=
    m.tape.cells.size_toArray.symm ▸ hsound.inside
  let cells := m.tape.cells.setIfInBounds m.tape.index.toNat v
  have hput : s.put (.byte v) (.address k m.tape.index.toNat) =
      some { s with heap := s.heap.write k cells.toArray } := by
    rw [put, Heap.setByte?_eq hholds.block hlt, ← Vector.toArray_setIfInBounds]
    rfl
  exact ⟨_, hput, rfl, j?, _, input, hholds.write cells, ⟨hsound.inside, hsound.bound, hsound.lines⟩,
    hserves, Memory.config_store hsound v .., hstderr⟩

/-- Going to an index on the left. -/
theorem goTo (h : s.Shows k c) {i : Nat} (hi : i ≤ c.index) :
    (s.setWord ⟨.currentCell, 0⟩ (.ofNat i)).Shows k (c.goTo i) := by
  obtain ⟨j?, m, input, hholds, hsound, hserves, rfl, hstderr⟩ := h
  have hle : i ≤ m.tape.index.toNat := hi
  have hword : (UInt64.ofNat i).toNat = i := by
    have := hsound.bound
    rw [UInt64.toNat_ofNat']
    omega
  refine ⟨j?, _, input, hholds.setWord _, ⟨?_, ?_, hsound.lines⟩, hserves,
    congrArg (Config.mk _ · _ _) hword, hstderr⟩
  · rw [hword]
    exact Nat.lt_of_le_of_lt hle hsound.inside
  · rw [hword]
    exact Nat.lt_of_le_of_lt hle hsound.bound

/-- A call that finds the tape and its length through the slots means its node, if the index that it
gives is put into its slot.  That is not needed if the node does not move. -/
theorem exists_callOnSlots (h : s.Shows k c) {r : Routine} (hr : r.answers = false)
    (hscan : r.scans = true → n ≠ 0) (hstays : (r.node n.toNat).Stays (2 ^ 63) scale c) :
    ∃ k' i s' d, s.callOnSlots r ⟨.cells, 0⟩ ⟨.cellsLength, 0⟩ (.ofNat c.index) n = some (i, s') ∧
      s'.registers = s.registers ∧ (r.node n.toNat).Means scale c (.done d) ∧
      (s'.setWord ⟨.currentCell, 0⟩ i).Shows k' d ∧ (d.index = c.index → s'.Shows k' d) := by
  obtain ⟨j?, m, input, hholds, hsound, hserves, rfl, hstderr⟩ := h
  obtain ⟨failed, after, hafter, hsound', hmeans, hfailed, _⟩ := Memory.exists_perform hsound
    ⟨r, n, s.system.fresh s.heap.next⟩ hscan hstays
  obtain rfl : failed = false := by
    cases failed with
    | false => rfl
    | true => exact absurd (hfailed rfl).1 (by rw [hr]; decide)
  obtain ⟨k', heap, slots, hcall, hheld⟩ := hholds.exists_callOnSlots hafter
  refine ⟨k', after.index, { s with heap := heap, slots := slots }, _, ?_, rfl, hmeans,
    ⟨j?, _, input, hheld.setWord after.index, hsound', hserves, rfl, hstderr⟩, fun hsame => ?_⟩
  · rw [← hcall]
    exact congrArg (s.callOnSlots r _ _ · n) m.tape.index.ofNat_toNat
  · have hindex : after.index = m.tape.index := UInt64.toNat_inj.mp hsame
    rw [← hindex] at hheld
    exact ⟨j?, _, input, hheld, hsound', hserves, rfl, hstderr⟩

/-- A call that is given the tape means its node as well, and says whether the node faults. -/
theorem exists_callOnBlock (h : s.Shows k c) {r : Routine} (hr : r.answers = true)
    (hscan : r.scans = true → n ≠ 0) (hstays : (r.node n.toNat).Stays (2 ^ 63) scale c) :
    ∃ failed i s' d,
      s.callOnBlock r (.address k 0) (.ofNat c.index) n = some (some failed, i, s') ∧
      s'.registers = s.registers ∧
      (r.node n.toNat).Means scale c (if failed then .fault c else .done d) ∧
      (failed = true → d = c) ∧ (s'.setWord ⟨.currentCell, 0⟩ i).Shows k d ∧
      (d.index = c.index → s'.Shows k d) := by
  obtain ⟨j?, m, input, hholds, hsound, hserves, rfl, hstderr⟩ := h
  obtain ⟨failed, after, hafter, hsound', hmeans, hfailed, hcount⟩ := Memory.exists_perform hsound
    ⟨r, n, s.system.fresh s.heap.next⟩ hscan hstays
  rw [if_pos hr] at hafter
  obtain ⟨heap, hcall, hheld⟩ := hholds.exists_callOnBlock hafter (hcount hr)
  refine ⟨failed, after.index, { s with heap := heap }, _, ?_, rfl, hmeans, fun htrue => ?_,
    ⟨j?, _, input, hheld.setWord after.index, hsound', hserves, rfl, hstderr⟩, fun hsame => ?_⟩
  · rw [← hcall]
    exact congrArg (s.callOnBlock r _ · n) m.tape.index.ofNat_toNat
  · rw [(hfailed htrue).2]
  · have hindex : after.index = m.tape.index := UInt64.toNat_inj.mp hsame
    rw [← hindex] at hheld
    exact ⟨j?, _, input, hheld, hsound', hserves, rfl, hstderr⟩

/-- A call that reads a byte into the current cell. -/
theorem exists_read (h : s.Shows k c) :
    ∃ s', s.readInto (.address k 0) (.ofNat c.index) ⟨.inputBuffer, 0⟩ = some s' ∧
      s'.registers = s.registers ∧ s'.Shows k c.read := by
  obtain ⟨j?, m, input, hholds, hsound, hserves, rfl, hstderr⟩ := h
  obtain ⟨after, hafter, hsound', hconfig, hcount, hindex⟩ :=
    Memory.exists_input hsound hserves s.stdout
  obtain ⟨s', j', hread, hregisters, hsystem, hstdout, hstderr', hheld⟩ :=
    hholds.exists_readInto hafter hcount hindex
  refine ⟨s', ?_, hregisters, j', after, input, hheld, hsound', hsystem ▸ hserves, ?_,
    hstderr'.trans hstderr⟩
  · rw [← hread]
    exact congrArg (s.readInto _ · _) m.tape.index.ofNat_toNat
  · rw [hstdout, hconfig]

end Process.Shows

end Brainfuck.IR
