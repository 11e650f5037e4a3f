import Brainfuck.Proofs.Accesses

/-!
# Code at another address

The code of a sequence that stands behind another one differs from the code that the sequence has
for itself in its jumps only: they go so much further (`Program.code_shift`).  That the two do the
same needs one thing more.  Behind other code the scale registers have been used already, and hold
something, where a program that runs for itself finds zeros.

So which registers matter is part of the comparison.  When an instruction is reached, the registers
of the scaled bodies around it have been loaded, and it reads no others.  How many these are is
written down for each address (`Node.depths`), and that this number is right is a matter of each
instruction by itself: it reads loaded registers only, and goes on to addresses where no more are
loaded, or one more if it has just loaded that one (`Instr.Respects`).  The instruction that ends a
scaled body can be reached without its register, so it counts as being outside.

* `Instr.shift`, `Program.code_shift`, `Program.code_append`: code behind other code.
* `Instr.Respects`, `Program.respects_of_code`: no register is read before it is loaded.
* `Machine.Mirrors`, `Machine.Mirrors.exec`: the same instruction at two addresses.
-/

namespace Brainfuck

/-! ## Addresses -/

/-- An instruction whose jump goes so much further. -/
def Instr.shift (offset : Nat) : Instr → Instr
  | .loopStart behind => .loopStart (offset + behind)
  | .loopEnd start => .loopEnd (offset + start)
  | .scale stop slot => .scale (offset + stop) slot
  | i => i

@[simp] theorem Instr.shift_zero (i : Instr) : i.shift 0 = i := by
  cases i <;> simp [shift]

variable {address depth : Nat} {slot : Option Nat} {block : List Instr}

mutual

theorem Node.code_shift (offset : Nat) : (n : Node) → ∀ {address depth slot block},
    n.code address depth slot = .ok block →
    n.code (offset + address) depth slot = .ok (block.map (Instr.shift offset))
  | .loop body, address, depth, _, _, h => by
    obtain ⟨inner, hinner, rfl⟩ := Node.code_loop h
    have hbody := Program.code_shift offset body hinner
    rw [Node.code, Nat.add_assoc, hbody]
    simp only [bind, Except.bind, List.map_append, List.map_cons, List.map_nil, Instr.shift,
      Nat.add_assoc, List.length_map]
    rfl
  | .scaled body, address, depth, _, _, h => by
    obtain ⟨inner, hinner, rfl⟩ := Node.code_scaled h
    have hbody := Program.code_shift offset body hinner
    rw [Node.code, Nat.add_assoc, hbody]
    simp only [bind, Except.bind, List.map_append, List.map_cons, List.map_nil, Instr.shift,
      Nat.add_assoc, List.length_map]
    rfl
  | .moveRight _, _, _, _, _, rfl | .moveLeft _, _, _, _, _, rfl | .increment _, _, _, _, _, rfl
  | .decrement _, _, _, _, _, rfl | .output, _, _, _, _, rfl | .input, _, _, _, _, rfl
  | .scanRight _, _, _, _, _, rfl | .scanLeft _, _, _, _, _, rfl | .clear, _, _, _, _, rfl
  | .carryRight _, _, _, _, _, rfl | .carryLeft _, _, _, _, _, rfl => rfl
  | .foreign _, _, _, _, _, h => nomatch h
  | .derived _ base, _, _, _, _, h => by
    rw [Node.code] at h ⊢
    split at h
    case isTrue hbase =>
      rw [if_pos hbase]
      exact Node.code_shift offset base h
    case isFalse => cases h

/-- Code at another address has its jumps shifted. -/
theorem Program.code_shift (offset : Nat) : (p : List Node) → ∀ {address depth slot block},
    Program.code address depth slot p = .ok block →
    Program.code (offset + address) depth slot p = .ok (block.map (Instr.shift offset))
  | [], _, _, _, _, rfl => rfl
  | n :: p, address, depth, _, _, h => by
    obtain ⟨first, rest, hfirst, hrest, rfl⟩ := Program.code_cons h
    have hrest' := Program.code_shift offset p hrest
    rw [← Nat.add_assoc] at hrest'
    rw [Program.code, Node.code_shift offset n hfirst]
    simp only [bind, Except.bind, List.length_map, hrest', List.map_append]
    rfl

end

/-- The code of one sequence behind another. -/
theorem Program.code_append {p q : List Node} {rest : List Instr}
    (hp : Program.code address depth slot p = .ok block)
    (hq : Program.code (address + block.length) depth slot q = .ok rest) :
    Program.code address depth slot (p ++ q) = .ok (block ++ rest) := by
  induction p generalizing address block with
  | nil =>
    obtain rfl := Except.ok.inj hp
    exact hq
  | cons n p ih =>
    obtain ⟨first, second, hfirst, hsecond, rfl⟩ := Program.code_cons hp
    rw [List.length_append, ← Nat.add_assoc] at hq
    rw [List.cons_append, Program.code, hfirst]
    simp only [bind, Except.bind, ih hsecond hq, List.append_assoc]
    rfl

theorem Program.scaleDepth_append (p q : List Node) :
    Program.scaleDepth (p ++ q) = max (Program.scaleDepth p) (Program.scaleDepth q) := by
  induction p with
  | nil => rw [List.nil_append, Program.scaleDepth, Nat.zero_max]
  | cons n p ih => rw [List.cons_append, Program.scaleDepth, Program.scaleDepth, ih, Nat.max_assoc]

/-! ## Registers that are loaded -/

mutual

/-- For each instruction of a node, how many registers are loaded when it is reached. -/
def Node.depths (depth : Nat) : Node → List Nat
  | .loop body => depth :: Program.depths depth body ++ [depth]
  | .scaled body => depth :: Program.depths (depth + 1) body ++ [depth]
  | .derived _ base => base.depths depth
  | _ => [depth]

/-- For each instruction of a sequence, how many registers are loaded when it is reached. -/
def Program.depths (depth : Nat) : List Node → List Nat
  | [] => []
  | n :: p => n.depths depth ++ Program.depths depth p

end

/-- At the first instruction of a node nothing but what is around the node is loaded. -/
theorem Node.exists_depths (depth : Nat) : (n : Node) → ∃ rest, n.depths depth = depth :: rest
  | .derived _ base => Node.exists_depths depth base
  | .loop _ | .scaled _ | .moveRight _ | .moveLeft _ | .increment _ | .decrement _ | .output | .input
  | .scanRight _ | .scanLeft _ | .clear | .carryRight _ | .carryLeft _ | .foreign _ => ⟨_, rfl⟩

mutual

theorem Node.length_depths : (n : Node) → ∀ {address depth slot block},
    n.code address depth slot = .ok block → (n.depths depth).length = block.length
  | .loop body, _, _, _, _, h => by
    obtain ⟨inner, hinner, rfl⟩ := Node.code_loop h
    simp only [Node.depths, List.length_append, List.length_cons, Program.length_depths body hinner,
      List.length_nil]
  | .scaled body, _, _, _, _, h => by
    obtain ⟨inner, hinner, rfl⟩ := Node.code_scaled h
    simp only [Node.depths, List.length_append, List.length_cons, Program.length_depths body hinner,
      List.length_nil]
  | .moveRight _, _, _, _, _, rfl | .moveLeft _, _, _, _, _, rfl | .increment _, _, _, _, _, rfl
  | .decrement _, _, _, _, _, rfl | .output, _, _, _, _, rfl | .input, _, _, _, _, rfl
  | .scanRight _, _, _, _, _, rfl | .scanLeft _, _, _, _, _, rfl | .clear, _, _, _, _, rfl
  | .carryRight _, _, _, _, _, rfl | .carryLeft _, _, _, _, _, rfl => rfl
  | .foreign _, _, _, _, _, h => nomatch h
  | .derived _ base, _, _, _, _, h => Node.length_depths base (Node.code_derived h)

theorem Program.length_depths : (p : List Node) → ∀ {address depth slot block},
    Program.code address depth slot p = .ok block → (Program.depths depth p).length = block.length
  | [], _, _, _, _, rfl => rfl
  | n :: p, _, _, _, _, h => by
    obtain ⟨first, rest, hfirst, hrest, rfl⟩ := Program.code_cons h
    rw [Program.depths, List.length_append, List.length_append, Node.length_depths n hfirst,
      Program.length_depths p hrest]

end

/-- A function has the values of a list from an address on. -/
def Tabulates (f : Nat → Nat) (address : Nat) (values : List Nat) : Prop :=
  ∀ k v, values[k]? = some v → f (address + k) = v

namespace Tabulates

variable {f : Nat → Nat} {v : Nat} {values values' : List Nat}

theorem head (h : Tabulates f address (v :: values)) : f address = v := h 0 v rfl

theorem tail (h : Tabulates f address (v :: values)) : Tabulates f (address + 1) values := by
  intro k w hw
  rw [Nat.add_assoc, Nat.add_comm 1 k]
  exact h (k + 1) w hw

theorem left (h : Tabulates f address (values ++ values')) : Tabulates f address values := by
  intro k w hw
  obtain ⟨hk, -⟩ := List.getElem?_eq_some_iff.mp hw
  exact h k w ((List.getElem?_append_left hk).trans hw)

theorem right (h : Tabulates f address (values ++ values')) {n : Nat} (hn : values.length = n) :
    Tabulates f (address + n) values' := by
  intro k w hw
  subst hn
  rw [Nat.add_assoc]
  refine h (values.length + k) w ?_
  rwa [List.getElem?_append_right (Nat.le_add_right _ _), Nat.add_sub_cancel_left]

end Tabulates

/-- An instruction at an address reads only registers that are loaded there, and goes on to addresses
where no more are loaded; one that loads a register loads the next one. -/
def Instr.Respects (loaded : Nat → Nat) (address : Nat) : Instr → Prop
  | .add _ slot | .sub _ slot =>
    (∀ k, slot = some k → k < loaded address) ∧ loaded (address + 1) ≤ loaded address
  | .loopStart behind =>
    loaded behind ≤ loaded address ∧ loaded (address + 1) ≤ loaded address
  | .loopEnd start => loaded start ≤ loaded address
  | .scale stop slot =>
    slot = loaded address ∧ loaded stop ≤ slot ∧ loaded (address + 1) ≤ slot + 1
  | _ => loaded (address + 1) ≤ loaded address

/-- All instructions of a list, the first of which stands at an address. -/
def AllRespect (loaded : Nat → Nat) (address : Nat) (block : List Instr) : Prop :=
  ∀ k (i : Instr), block[k]? = some i → i.Respects loaded (address + k)

namespace AllRespect

variable {loaded : Nat → Nat} {i : Instr} {block' : List Instr}

theorem nil : AllRespect loaded address [] := fun _ _ h => nomatch h

theorem cons (hi : i.Respects loaded address) (h : AllRespect loaded (address + 1) block) :
    AllRespect loaded address (i :: block) := by
  intro k j hj
  cases k with
  | zero =>
    obtain rfl := Option.some.inj hj
    exact hi
  | succ k =>
    rw [Nat.add_comm k 1, ← Nat.add_assoc]
    exact h k j hj

theorem append (h : AllRespect loaded address block)
    (h' : AllRespect loaded (address + block.length) block') :
    AllRespect loaded address (block ++ block') := by
  intro k j hj
  rcases Nat.lt_or_ge k block.length with hk | hk
  · rw [List.getElem?_append_left hk] at hj
    exact h k j hj
  · rw [List.getElem?_append_right hk] at hj
    have := h' _ j hj
    rwa [Nat.add_assoc, Nat.add_sub_cancel' hk] at this

theorem single (hi : i.Respects loaded address) : AllRespect loaded address [i] := cons hi nil

end AllRespect

/-- Where a sequence begins no more registers are loaded than it has scaled bodies around it. -/
theorem Program.loaded_le {loaded : Nat → Nat} {p : List Node}
    (hblock : Program.code address depth slot p = .ok block)
    (htable : Tabulates loaded address (Program.depths depth p))
    (hend : loaded (address + block.length) ≤ depth) : loaded address ≤ depth := by
  cases p with
  | nil =>
    obtain rfl := Except.ok.inj hblock
    exact hend
  | cons n p =>
    have hfirst : loaded address = depth := by
      obtain ⟨rest, hrest⟩ := n.exists_depths depth
      rw [Program.depths, hrest] at htable
      exact htable.left.head
    exact Nat.le_of_eq hfirst

mutual

theorem Node.respects_of_code {loaded : Nat → Nat} : (n : Node) → ∀ {address depth slot block},
    n.code address depth slot = .ok block → Tabulates loaded address (n.depths depth) →
    loaded (address + block.length) ≤ depth → (∀ k, slot = some k → k < depth) →
    AllRespect loaded address block
  | .loop body, address, depth, _, _, h, htable, hend, _ => by
    obtain ⟨inner, hinner, rfl⟩ := Node.code_loop h
    have hlength := Program.length_depths body hinner
    rw [Node.depths] at htable
    have hhere : loaded address = depth := htable.head
    have hinside := htable.tail.left
    have hback : loaded (address + 1 + inner.length) = depth := (htable.tail.right hlength).head
    simp only [List.cons_append, List.length_cons, List.length_append, List.length_nil] at hend
    refine .cons ⟨?_, ?_⟩ (.append ?_ (.single ?_))
    · rw [hhere]
      exact hend
    · rw [hhere]
      exact Program.loaded_le hinner hinside (Nat.le_of_eq hback)
    · exact Program.respects_of_code body hinner hinside (Nat.le_of_eq hback) fun k hk => nomatch hk
    · exact Nat.le_of_eq (hhere.trans hback.symm)
  | .scaled body, address, depth, _, _, h, htable, hend, _ => by
    obtain ⟨inner, hinner, rfl⟩ := Node.code_scaled h
    have hlength := Program.length_depths body hinner
    rw [Node.depths] at htable
    have hhere : loaded address = depth := htable.head
    have hinside := htable.tail.left
    have hstop : loaded (address + 1 + inner.length) = depth := (htable.tail.right hlength).head
    have hstop' : loaded (address + inner.length + 1) = depth := by
      rwa [Nat.add_right_comm]
    simp only [List.cons_append, List.length_cons, List.length_append, List.length_nil] at hend
    refine .cons ⟨hhere.symm, Nat.le_of_eq hstop', ?_⟩ (.append ?_ (.single ?_))
    · exact Program.loaded_le hinner hinside (Nat.le_succ_of_le (Nat.le_of_eq hstop))
    · exact Program.respects_of_code body hinner hinside (Nat.le_succ_of_le (Nat.le_of_eq hstop))
        fun k hk => Option.some.inj hk ▸ Nat.lt_succ_self depth
    · change loaded (address + 1 + inner.length + 1) ≤ loaded (address + 1 + inner.length)
      rw [hstop, Nat.add_right_comm address 1 inner.length]
      exact hend
  | .increment _, _, _, _, _, rfl, htable, hend, hslot
  | .decrement _, _, _, _, _, rfl, htable, hend, hslot => by
    have hhere := htable.head
    refine .single ⟨fun k hk => hhere.symm ▸ hslot k hk, ?_⟩
    rw [hhere]
    exact hend
  | .moveRight _, _, _, _, _, rfl, htable, hend, _ | .moveLeft _, _, _, _, _, rfl, htable, hend, _
  | .output, _, _, _, _, rfl, htable, hend, _ | .input, _, _, _, _, rfl, htable, hend, _
  | .scanRight _, _, _, _, _, rfl, htable, hend, _ | .scanLeft _, _, _, _, _, rfl, htable, hend, _
  | .clear, _, _, _, _, rfl, htable, hend, _ | .carryRight _, _, _, _, _, rfl, htable, hend, _
  | .carryLeft _, _, _, _, _, rfl, htable, hend, _ =>
    .single (Nat.le_trans hend (Nat.le_of_eq htable.head.symm))
  | .foreign _, _, _, _, _, h, _, _, _ => nomatch h
  | .derived _ base, _, _, _, _, h, htable, hend, hslot =>
    Node.respects_of_code base (Node.code_derived h) htable hend hslot

/-- The code of a sequence reads no register before it is loaded. -/
theorem Program.respects_of_code {loaded : Nat → Nat} :
    (p : List Node) → ∀ {address depth slot block},
    Program.code address depth slot p = .ok block →
    Tabulates loaded address (Program.depths depth p) →
    loaded (address + block.length) ≤ depth → (∀ k, slot = some k → k < depth) →
    AllRespect loaded address block
  | [], _, _, _, _, rfl, _, _, _ => .nil
  | n :: p, _, _, _, _, h, htable, hend, hslot => by
    obtain ⟨first, rest, hfirst, hrest, rfl⟩ := Program.code_cons h
    rw [Program.depths] at htable
    have htable' := htable.right (Node.length_depths n hfirst)
    rw [List.length_append, ← Nat.add_assoc] at hend
    exact .append (Node.respects_of_code n hfirst htable.left
      (Program.loaded_le hrest htable' hend) hslot)
      (Program.respects_of_code p hrest htable' hend hslot)

end

/-! ## The same instruction at two addresses -/

/-- Two machines, one of them in code that stands so much further, that differ in their addresses and
in registers that are not loaded only. -/
structure Machine.Mirrors (offset : Nat) (loaded : Nat → Nat) (slots : Nat) (m m' : Machine) :
    Prop where
  pc : m.pc = offset + m'.pc
  pointer : m.pointer = m'.pointer
  tape : m.tape = m'.tape
  scales : ∀ k, k < loaded m'.pc → m.scales.getD k 0 = m'.scales.getD k 0
  room : slots ≤ m.scales.size
  room' : slots ≤ m'.scales.size

/-- Two effects of the same kind on machines that mirror each other. -/
inductive Effect.Mirrors (offset : Nat) (loaded : Nat → Nat) (slots : Nat) :
    Effect → Effect → Prop where
  | next {m m' : Machine} (h : m.Mirrors offset loaded slots m') :
      Mirrors offset loaded slots (.next m) (.next m')
  | output {m m' : Machine} (h : m.Mirrors offset loaded slots m') :
      Mirrors offset loaded slots (.output m) (.output m')
  | input {m m' : Machine} (h : m.Mirrors offset loaded slots m') :
      Mirrors offset loaded slots (.input m) (.input m')
  | grow {m m' : Machine} (needed : Nat) (h : m.Mirrors offset loaded slots m') :
      Mirrors offset loaded slots (.grow needed m) (.grow needed m')
  | fault {m m' : Machine} (h : m.Mirrors offset loaded slots m') :
      Mirrors offset loaded slots (.fault m) (.fault m')
  | astray {m m' : Machine} (index : Int) (h : m.Mirrors offset loaded slots m') :
      Mirrors offset loaded slots (.astray index m) (.astray index m')

namespace Machine.Mirrors

variable {offset slots : Nat} {loaded : Nat → Nat} {m m' : Machine}

theorem factor (h : m.Mirrors offset loaded slots m') {slot : Option Nat}
    (hslot : ∀ k, slot = some k → k < loaded m'.pc) : m.factor slot = m'.factor slot := by
  cases slot with
  | none => rfl
  | some k => exact h.scales k (hslot k rfl)

/-- With another pointer and another tape. -/
theorem holding (h : m.Mirrors offset loaded slots m') {pointer pointer' : Int} {tape tape' : Tape}
    (hpointer : pointer = pointer') (htape : tape = tape') :
    Mirrors offset loaded slots ⟨m.pc, pointer, tape, m.scales⟩
      ⟨m'.pc, pointer', tape', m'.scales⟩ :=
  ⟨h.pc, hpointer, htape, h.scales, h.room, h.room'⟩

/-- At addresses where no more registers are loaded. -/
theorem goTo (h : m.Mirrors offset loaded slots m') {target : Nat}
    (htarget : loaded target ≤ loaded m'.pc) :
    Mirrors offset loaded slots { m with pc := offset + target } { m' with pc := target } :=
  ⟨rfl, h.pointer, h.tape, fun k hk => h.scales k (Nat.lt_of_lt_of_le hk htarget), h.room, h.room'⟩

/-- At the next address, with another pointer and another tape. -/
theorem moved (h : m.Mirrors offset loaded slots m') (hnext : loaded (m'.pc + 1) ≤ loaded m'.pc)
    {pointer pointer' : Int} {tape tape' : Tape} (hpointer : pointer = pointer')
    (htape : tape = tape') :
    Mirrors offset loaded slots ⟨m.pc + 1, pointer, tape, m.scales⟩
      ⟨m'.pc + 1, pointer', tape', m'.scales⟩ := by
  have hgo := h.goTo hnext
  rw [← Nat.add_assoc, ← h.pc] at hgo
  exact hgo.holding hpointer htape

theorem advance (h : m.Mirrors offset loaded slots m')
    (hnext : loaded (m'.pc + 1) ≤ loaded m'.pc) :
    m.advance.Mirrors offset loaded slots m'.advance :=
  h.moved hnext h.pointer h.tape

theorem put (h : m.Mirrors offset loaded slots m') (place : Nat) (v : UInt8) :
    (m.put place v).Mirrors offset loaded slots (m'.put place v) :=
  h.holding h.pointer (by rw [h.tape])

theorem carry (h : m.Mirrors offset loaded slots m') (source target : Nat) :
    (m.carry source target).Mirrors offset loaded slots (m'.carry source target) :=
  h.holding h.pointer (by rw [h.tape])

theorem grow (h : m.Mirrors offset loaded slots m') (needed : Nat) :
    Mirrors offset loaded slots { m with tape := m.tape.grow needed }
      { m' with tape := m'.tape.grow needed } :=
  h.holding h.pointer (by rw [h.tape])

/-- The register of a scaled body is loaded in both. -/
theorem load (h : m.Mirrors offset loaded slots m') {slot : Nat} (hslot : slot < slots)
    (hloaded : slot = loaded m'.pc) (hnext : loaded (m'.pc + 1) ≤ slot + 1) (v : UInt8) :
    Mirrors offset loaded slots
      { m with pc := m.pc + 1, scales := m.scales.setIfInBounds slot v }
      { m' with pc := m'.pc + 1, scales := m'.scales.setIfInBounds slot v } where
  pc := by rw [h.pc, Nat.add_assoc]
  pointer := h.pointer
  tape := h.tape
  scales k hk := by
    have hroom := h.room
    have hroom' := h.room'
    have hk' : k < loaded (m'.pc + 1) := hk
    simp only [Array.getD_eq_getD_getElem?, Array.getElem?_setIfInBounds]
    by_cases heq : slot = k
    · rw [if_pos heq, if_pos heq, if_pos (by omega), if_pos (by omega)]
    · rw [if_neg heq, if_neg heq, ← Array.getD_eq_getD_getElem?, ← Array.getD_eq_getD_getElem?]
      exact h.scales k (by omega)
  room := by
    rw [Array.size_setIfInBounds]
    exact h.room
  room' := by
    rw [Array.size_setIfInBounds]
    exact h.room'

/-- Both machines have the cell at an index, or neither has. -/
theorem touch (h : m.Mirrors offset loaded slots m') (index : Int) {act act' : Nat → Effect}
    (hact : ∀ place, (act place).Mirrors offset loaded slots (act' place)) :
    (m.touch index act).Mirrors offset loaded slots (m'.touch index act') := by
  rw [Machine.touch, Machine.touch, h.tape]
  cases m'.tape.place? index with
  | none => exact .astray index h
  | some place => exact hact place

theorem land (h : m.Mirrors offset loaded slots m') (hnext : loaded (m'.pc + 1) ≤ loaded m'.pc)
    (scan : Scan) : (m.land scan).Mirrors offset loaded slots (m'.land scan) := by
  cases scan with
  | found index => exact .next (h.moved hnext rfl h.tape)
  | past index => exact .grow _ (h.holding rfl h.tape)
  | before => exact .fault h
  | astray index => exact .astray index h
  | endless => exact .next h

/-- An instruction does the same at both addresses. -/
theorem exec (h : m.Mirrors offset loaded slots m') {i : Instr} (hi : i.Respects loaded m'.pc)
    (hslot : ∀ k, i.slot? = some k → k < slots) :
    (m.exec (i.shift offset)).Mirrors offset loaded slots (m'.exec i) := by
  cases i with
  | right n =>
    simp only [Instr.shift, Machine.exec, h.pointer, h.tape]
    split
    case isTrue => exact .next (h.moved hi rfl rfl)
    case isFalse => exact .grow _ h
  | left n =>
    simp only [Instr.shift, Machine.exec, h.pointer, h.tape]
    split
    case isTrue => exact .fault h
    case isFalse => exact .next (h.moved hi rfl rfl)
  | add n slot | sub n slot =>
    simp only [Instr.shift, Machine.exec, h.pointer, h.tape, h.factor hi.1]
    exact h.touch _ fun here => .next ((h.put here _).advance hi.2)
  | output => exact .output (h.advance hi)
  | input => exact .input (h.advance hi)
  | loopStart behind =>
    simp only [Instr.shift, Machine.exec, h.pointer, h.tape]
    refine h.touch _ fun here => .next ?_
    split
    case isTrue => exact (h.goTo hi.1).holding rfl rfl
    case isFalse => exact h.advance hi.2
  | loopEnd start => exact .next (h.goTo hi)
  | scanRight n | scanLeft n =>
    simp only [Instr.shift, Machine.exec, h.pointer, h.tape]
    exact h.land hi _
  | clear | unscale =>
    simp only [Instr.shift, Machine.exec, h.pointer]
    exact h.touch _ fun here => .next ((h.put here 0).advance hi)
  | scale stop slot =>
    obtain ⟨hloaded, hstop, hnext⟩ := hi
    simp only [Instr.shift, Machine.exec, h.pointer, h.tape]
    refine h.touch _ fun here => ?_
    split
    case isTrue =>
      exact .next ((h.goTo (Nat.le_trans hstop (Nat.le_of_eq hloaded))).holding rfl rfl)
    case isFalse => exact .next ((h.load (hslot slot rfl) hloaded hnext _).holding rfl rfl)
  | carryRight n =>
    simp only [Instr.shift, Machine.exec, h.pointer, h.tape]
    split
    case isTrue =>
      exact h.touch _ fun there => h.touch _ fun here => .next ((h.carry here there).advance hi)
    case isFalse => exact .grow _ h
  | carryLeft n =>
    simp only [Instr.shift, Machine.exec, h.pointer, h.tape]
    refine h.touch _ fun here => ?_
    split
    case isTrue => exact .next (h.advance hi)
    case isFalse =>
      split
      case isTrue => exact .fault h
      case isFalse => exact h.touch _ fun there => .next ((h.carry here there).advance hi)

end Machine.Mirrors

end Brainfuck
