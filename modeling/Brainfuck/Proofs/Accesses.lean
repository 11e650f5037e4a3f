import Brainfuck.Proofs.Growth
import Mathlib.Logic.Relation

/-!
# Every access is in range

Reading past the end of a tape gives zero here, writing past it does nothing, and the same goes for
the scale registers.  A negative index counts from the end.  So an execution could go wrong without
anybody noticing.  This module puts a check in front of every access and shows when no check fails.

The checked machine computes the same indices, and gives nothing at all as soon as one that is used is
negative or too great: of the code, of the tape or of the registers, in an instruction, at any cell that
a scan looks at, or when the caller writes and reads bytes or copies a tape into a longer one.  That it
gives what the machine without checks gives is therefore the same as that every index is in range.

Three things keep the indices in range.  The code is sound (`Instr.Sound`): jumps stay inside it, and
every slot names a register.  A machine between two instructions is sound (`Machine.Sound`): its
pointer is not past the tape.  And where that fails, after a scan that has left the tape, the machine has
asked for the very cell that the pointer is on.  That the pointer is not negative either takes more: the
indices that are computed have to fit into words.

* `Machine.checkedExec`, `Machine.checkedRunFor`, `Execution.checkedTurn`: execution with checks.
* `Program.sound_of_code`: the code of a tree is sound.
* `Machine.Sound.exec`, `Execution.Sound.next`: soundness is kept.
* `Machine.checkedExec_eq`, `Execution.checkedTurn_eq`: one instruction, one turn.
* `Program.accesses_in_range`: whole executions.
-/

namespace Brainfuck

open Execution

/-! ## Checks -/

/-- The entry of an array at an index, if the index is in range. -/
def fetch? {α : Type} (a : Array α) (i : Int) : Option α :=
  if 0 ≤ i then a[i.toNat]? else none

/-- An array with another entry at an index, if the index is in range. -/
def replace? {α : Type} (a : Array α) (i : Int) (v : α) : Option (Array α) :=
  if 0 ≤ i ∧ i < a.size then some (a.setIfInBounds i.toNat v) else none

theorem fetch?_natCast {α : Type} (a : Array α) (i : Nat) : fetch? a (i : Int) = a[i]? := by
  rw [fetch?, if_pos (Int.natCast_nonneg i), Int.toNat_natCast]

theorem replace?_natCast {α : Type} {a : Array α} {i : Nat} (h : i < a.size) (v : α) :
    replace? a (i : Int) v = some (a.setIfInBounds i v) := by
  rw [replace?, if_pos ⟨Int.natCast_nonneg i, Int.ofNat_lt.mpr h⟩, Int.toNat_natCast]

namespace Tape

/-- An index that passes the check names the cell that it says. -/
theorem place?_of_fetch? {t : Tape} {i : Int} {v : UInt8} (h : fetch? t.cells i = some v) :
    t.place? i = some i.toNat := by
  rw [fetch?] at h
  split at h
  case isTrue hlow =>
    obtain ⟨hlt, -⟩ := Array.getElem?_eq_some_iff.mp h
    have hsize : i < t.size := by
      rw [size]
      omega
    rw [place?, if_pos hlow, if_pos hsize]
  case isFalse => cases h

/-- A scan to the right that checks every cell that it looks at. -/
def checkedSeekRight (t : Tape) (step i : Int) : Option Scan :=
  match _hi : fetch? t.cells i with
  | none => none
  | some v =>
    if v = 0 then some (.found i)
    else if t.size ≤ t.wrap (i + step) then some (.past (t.wrap (i + step)))
    else
      match _hnext : fetch? t.cells (t.wrap (i + step)) with
      | none => none
      | some _ =>
        if t.wrap (i + step) = i then some .endless
        else t.checkedSeekRight step (t.wrap (i + step))
termination_by t.ahead step i
decreasing_by exact ahead_lt (place?_of_fetch? _hi) (place?_of_fetch? _hnext) ‹_›

/-- A scan to the left that checks every cell that it looks at. -/
def checkedSeekLeft (t : Tape) (step i : Int) : Option Scan :=
  match _hi : fetch? t.cells i with
  | none => none
  | some v =>
    if v = 0 then some (.found i)
    else if i < step then some .before
    else
      match _hnext : fetch? t.cells (t.wrap (i - step)) with
      | none => none
      | some _ =>
        if t.wrap (i - step) = i then some .endless
        else t.checkedSeekLeft step (t.wrap (i - step))
termination_by t.ahead (-step) i
decreasing_by
  rw [Int.sub_eq_add_neg] at *
  exact ahead_lt (place?_of_fetch? _hi) (place?_of_fetch? _hnext) ‹_›

/-- Copies a tape to the beginning of a longer one, if it is longer. -/
def checkedGrow (t : Tape) (index : Nat) : Option Tape :=
  if t.size ≤ sizeFor index then some (t.grow index) else none

end Tape

namespace Machine

def cell? (m : Machine) : Option UInt8 := fetch? m.tape.cells m.pointer

def factor? (m : Machine) : Option Nat → Option UInt8
  | none => some 1
  | some slot => fetch? m.scales slot

def storeAt? (m : Machine) (i : Int) (v : UInt8) : Option Machine :=
  (replace? m.tape.cells i v).map fun cells => { m with tape := ⟨cells⟩ }

def carryTo? (m : Machine) (target : Int) : Option Machine := do
  let w ← fetch? m.tape.cells target
  let v ← m.cell?
  (← m.storeAt? target (w + v)).storeAt? m.pointer 0

/-- Runs one instruction and checks every access. -/
def checkedExec (i : Instr) (m : Machine) : Option Effect :=
  match i with
  | .right _ | .left _ | .output | .input | .loopEnd _ => some (m.exec i)
  | .add n slot => do
    let factor ← m.factor? slot
    return .next (← m.storeAt? m.pointer ((← m.cell?) + n * factor)).advance
  | .sub n slot => do
    let factor ← m.factor? slot
    return .next (← m.storeAt? m.pointer ((← m.cell?) - n * factor)).advance
  | .loopStart behind =>
    return .next (if (← m.cell?) = 0 then { m with pc := behind } else m.advance)
  | .scanRight n => return m.land (← m.tape.checkedSeekRight n m.pointer)
  | .scanLeft n => return m.land (← m.tape.checkedSeekLeft n m.pointer)
  | .clear | .unscale => return .next (← m.storeAt? m.pointer 0).advance
  | .scale stop slot => do
    let v ← m.cell?
    if v = 0 then return .next { m with pc := stop }
    else return .next { m.advance with scales := (← replace? m.scales slot v) }
  | .carryRight n =>
    let target := m.tape.wrap (m.pointer + n)
    if target < m.tape.size then return .next (← m.carryTo? target).advance
    else return .grow target.toNat m
  | .carryLeft n => do
    if (← m.cell?) = 0 then return .next m.advance
    else if m.pointer < n then return .fault m
    else return .next (← m.carryTo? (m.tape.wrap (m.pointer - n))).advance

/-- Runs a batch and checks every access. -/
def checkedRunFor (code : Array Instr) (steps : Nat) : (budget : Nat) → Machine → Option Report
  | 0, m => return if m.pc < code.size then ⟨m, .budget, steps⟩ else ⟨m, .done, steps⟩
  | budget + 1, m =>
    if m.pc < code.size then do
      match ← m.checkedExec (← fetch? code m.pc) with
      | .next m => checkedRunFor code (steps + 1) budget m
      | .output m => return ⟨m, .output, steps + 1⟩
      | .input m => return ⟨m, .input, steps + 1⟩
      | .grow needed m => return ⟨m, .grow needed, steps + 1⟩
      | .fault m => return ⟨m, .fault, steps + 1⟩
      | .astray index m => return ⟨m, .astray index, steps + 1⟩
    else return ⟨m, .done, steps⟩

end Machine

namespace Execution

/-- Reacts to the end of a batch and checks every access. -/
def checkedReact (limits : Limits) (unread : List UInt8) (written : Array UInt8) (steps : Nat)
    (m : Machine) : Stop → Option Turn
  | .output => return .next ⟨m, unread, written.push (← m.cell?), steps⟩
  | .input => return .next ⟨← m.storeAt? m.pointer (unread.headD 0), unread.tail, written, steps⟩
  | .grow needed =>
    return .next ⟨{ m with tape := ← m.tape.checkedGrow needed }, unread, written, steps⟩
  | stop => return react limits unread written steps m stop

/-- One batch and the reaction to its end, with every access checked. -/
def checkedTurn (p : FlatCode) (limits : Limits) (x : Execution) : Option Turn := do
  let report ← x.machine.checkedRunFor p.code 0 (limits.budget x.steps).toNat
  checkedReact limits x.unread x.written (x.steps + report.steps) report.machine report.stop

end Execution

/-! ## Sound code -/

/-- Where an instruction may jump to. -/
def Instr.target? : Instr → Option Nat
  | .loopStart a | .loopEnd a | .scale a _ => some a
  | _ => none

/-- An instruction whose argument is not negative, that jumps to an address up to a size, and whose
slot is one of so many. -/
structure Instr.Sound (size slots : Nat) (i : Instr) : Prop where
  argument : 0 ≤ i.argument
  target : ∀ a, i.target? = some a → a ≤ size
  slot : ∀ k, i.slot? = some k → k < slots

/-- Whether the amount of a node is not negative. -/
def Node.hasNaturalAmount : Node → Bool
  | .moveRight n | .moveLeft n | .increment n | .decrement n | .scanRight n | .scanLeft n
  | .carryRight n | .carryLeft n => 0 ≤ n
  | .output | .input | .loop _ | .clear | .scaled _ | .foreign _ | .derived _ _ => true

namespace Instr.Sound

variable {size slots : Nat}

/-- An instruction without jump and slot. -/
theorem plain {i : Instr} (hargument : 0 ≤ i.argument) (htarget : i.target? = none)
    (hslot : i.slot? = none) : i.Sound size slots :=
  ⟨hargument, fun _ h => absurd (htarget.symm.trans h) (by simp),
    fun _ h => absurd (hslot.symm.trans h) (by simp)⟩

theorem loopStart {behind : Nat} (h : behind ≤ size) : (Instr.loopStart behind).Sound size slots := by
  refine ⟨Int.natCast_nonneg _, fun a ha => ?_, fun k hk => absurd hk (by simp [slot?])⟩
  obtain rfl := Option.some.inj ha
  exact h

theorem loopEnd {start : Nat} (h : start ≤ size) : (Instr.loopEnd start).Sound size slots := by
  refine ⟨Int.natCast_nonneg _, fun a ha => ?_, fun k hk => absurd hk (by simp [slot?])⟩
  obtain rfl := Option.some.inj ha
  exact h

theorem scale {stop k : Nat} (hstop : stop ≤ size) (hk : k < slots) :
    (Instr.scale stop k).Sound size slots := by
  refine ⟨Int.natCast_nonneg _, fun a ha => ?_, fun k' hk' => ?_⟩
  · obtain rfl := Option.some.inj ha
    exact hstop
  · obtain rfl := Option.some.inj hk'
    exact hk

/-- A change of the cell, in a scaled body or not. -/
theorem change {n : UInt8} {depth : Nat} {slot : Option Nat} (hdepth : depth ≤ slots)
    (hslot : ∀ k, slot = some k → k < depth) :
    (Instr.add n slot).Sound size slots ∧ (Instr.sub n slot).Sound size slots := by
  have hslots : ∀ k, slot = some k → k < slots := fun k hk => Nat.lt_of_lt_of_le (hslot k hk) hdepth
  exact ⟨⟨Int.natCast_nonneg _, fun a ha => absurd ha (by simp [target?]), hslots⟩,
    ⟨Int.natCast_nonneg _, fun a ha => absurd ha (by simp [target?]), hslots⟩⟩

end Instr.Sound

variable {size slots address depth : Nat} {slot : Option Nat} {block : List Instr}

mutual

theorem Node.sound_of_code : (n : Node) → ∀ {address depth slot block},
    n.code address depth slot = .ok block → address + block.length ≤ size →
    depth + n.scaleDepth ≤ slots → (∀ k, slot = some k → k < depth) →
    n.every Node.hasNaturalAmount = true → ∀ i ∈ block, i.Sound size slots
  | .moveRight _, _, _, _, _, rfl, _, _, _, hok | .moveLeft _, _, _, _, _, rfl, _, _, _, hok
  | .scanRight _, _, _, _, _, rfl, _, _, _, hok | .scanLeft _, _, _, _, _, rfl, _, _, _, hok
  | .carryRight _, _, _, _, _, rfl, _, _, _, hok | .carryLeft _, _, _, _, _, rfl, _, _, _, hok => by
    intro i hi
    obtain rfl := List.mem_singleton.mp hi
    exact .plain (of_decide_eq_true hok) rfl rfl
  | .output, _, _, _, _, rfl, _, _, _, _ | .input, _, _, _, _, rfl, _, _, _, _
  | .clear, _, _, _, _, rfl, _, _, _, _ => by
    intro i hi
    obtain rfl := List.mem_singleton.mp hi
    exact .plain (Int.le_refl 0) rfl rfl
  | .increment _, _, _, _, _, rfl, _, hroom, hslot, _ => by
    intro i hi
    obtain rfl := List.mem_singleton.mp hi
    exact (Instr.Sound.change (Nat.le_of_add_right_le hroom) hslot).1
  | .decrement _, _, _, _, _, rfl, _, hroom, hslot, _ => by
    intro i hi
    obtain rfl := List.mem_singleton.mp hi
    exact (Instr.Sound.change (Nat.le_of_add_right_le hroom) hslot).2
  | .loop body, address, depth, _, _, hblock, hsize, hroom, _, hok => by
    obtain ⟨inner, hinner, rfl⟩ := Node.code_loop hblock
    rw [Node.every, Bool.and_eq_true] at hok
    rw [Node.scaleDepth] at hroom
    simp only [List.cons_append, List.length_cons, List.length_append, List.length_nil] at hsize
    have hbody := Program.sound_of_code body hinner (by omega) hroom (fun k hk => by cases hk) hok.2
    intro i hi
    rcases List.mem_append.mp hi with hi | hi
    · rcases List.mem_cons.mp hi with rfl | hi
      · exact .loopStart (by omega)
      · exact hbody i hi
    · obtain rfl := List.mem_singleton.mp hi
      exact .loopEnd (by omega)
  | .scaled body, address, depth, _, _, hblock, hsize, hroom, _, hok => by
    obtain ⟨inner, hinner, rfl⟩ := Node.code_scaled hblock
    rw [Node.every, Bool.and_eq_true] at hok
    rw [Node.scaleDepth] at hroom
    simp only [List.cons_append, List.length_cons, List.length_append, List.length_nil] at hsize
    have hbody := Program.sound_of_code body hinner (by omega) (by omega)
      (fun k hk => Option.some.inj hk ▸ Nat.lt_succ_self depth) hok.2
    intro i hi
    rcases List.mem_append.mp hi with hi | hi
    · rcases List.mem_cons.mp hi with rfl | hi
      · exact .scale (by omega) (by omega)
      · exact hbody i hi
    · obtain rfl := List.mem_singleton.mp hi
      exact .plain (Int.le_refl 0) rfl rfl
  | .foreign _, _, _, _, _, hblock, _, _, _, _ => nomatch hblock
  | .derived _ base, _, _, _, _, hblock, hsize, hroom, hslot, hok => by
    rw [Node.every, Bool.and_eq_true] at hok
    exact Node.sound_of_code base (Node.code_derived hblock) hsize hroom hslot hok.2

/-- The code of a sequence is sound. -/
theorem Program.sound_of_code : (q : List Node) → ∀ {address depth slot block},
    Program.code address depth slot q = .ok block → address + block.length ≤ size →
    depth + Program.scaleDepth q ≤ slots → (∀ k, slot = some k → k < depth) →
    Program.every Node.hasNaturalAmount q = true → ∀ i ∈ block, i.Sound size slots
  | [], _, _, _, _, rfl, _, _, _, _ => fun _ hi => absurd hi List.not_mem_nil
  | n :: q, _, _, _, _, hblock, hsize, hroom, hslot, hok => by
    obtain ⟨first, rest, hfirst, hrest, rfl⟩ := Program.code_cons hblock
    rw [Program.every, Bool.and_eq_true] at hok
    rw [Program.scaleDepth] at hroom
    rw [List.length_append] at hsize
    have hn := Node.sound_of_code n hfirst (by omega) (by omega) hslot hok.1
    have hq := Program.sound_of_code q hrest (by omega) (by omega) hslot hok.2
    intro i hi
    rcases List.mem_append.mp hi with hi | hi
    · exact hn i hi
    · exact hq i hi

end

/-- The code of a whole program. -/
def FlatCode.Sound (p : FlatCode) : Prop :=
  ∀ i ∈ p.code, i.Sound p.code.size (max 1 p.slots)

theorem Program.sound_of_flatten {q : Program} {p : FlatCode} (hp : q.flatten = .ok p)
    (hok : Program.every Node.hasNaturalAmount q = true) : p.Sound := by
  obtain ⟨block, hblock, rfl⟩ := Program.code_of_flatten hp
  intro i hi
  refine Program.sound_of_code q hblock ?_ ?_ (fun k hk => by cases hk) hok i (by simpa using hi)
  · simp
  · rw [Nat.zero_add]
    exact Nat.le_max_right _ _

/-! ## Instructions -/

namespace Tape

variable {t : Tape}

theorem fetch?_cells {i : Nat} (h : i < t.size) : fetch? t.cells (i : Int) = some (t.get i) := by
  have hi : i < t.cells.size := h
  rw [fetch?_natCast, Tape.get, Array.getD_eq_getD_getElem?, Array.getElem?_eq_getElem hi,
    Option.getD_some]

/-- One step of a checked scan to the right from a cell. -/
theorem checkedSeekRight_of_fetch {j step : Int} {v : UInt8} (h : fetch? t.cells j = some v) :
    t.checkedSeekRight step j =
      if v = 0 then some (.found j)
      else if t.size ≤ t.wrap (j + step) then some (.past (t.wrap (j + step)))
      else
        match fetch? t.cells (t.wrap (j + step)) with
        | none => none
        | some _ =>
          if t.wrap (j + step) = j then some .endless
          else t.checkedSeekRight step (t.wrap (j + step)) := by
  rw [checkedSeekRight.eq_def]
  split
  case h_1 hnone => rw [h] at hnone; cases hnone
  case h_2 hsome =>
    obtain rfl := Option.some.inj (h.symm.trans hsome)
    congr 2
    split
    case h_1 hnext => rw [hnext]
    case h_2 hnext => rw [hnext]

/-- One step of a checked scan to the left from a cell. -/
theorem checkedSeekLeft_of_fetch {j step : Int} {v : UInt8} (h : fetch? t.cells j = some v) :
    t.checkedSeekLeft step j =
      if v = 0 then some (.found j)
      else if j < step then some .before
      else
        match fetch? t.cells (t.wrap (j - step)) with
        | none => none
        | some _ =>
          if t.wrap (j - step) = j then some .endless
          else t.checkedSeekLeft step (t.wrap (j - step)) := by
  rw [checkedSeekLeft.eq_def]
  split
  case h_1 hnone => rw [h] at hnone; cases hnone
  case h_2 hsome =>
    obtain rfl := Option.some.inj (h.symm.trans hsome)
    congr 2
    split
    case h_1 hnext => rw [hnext]
    case h_2 hnext => rw [hnext]

/-- A scan to the right looks at cells only, if there is room for the index where it ends. -/
theorem checkedSeekRight_eq (step i : Nat) (hi : i < t.size) (h : t.HasWord (t.scanRight step i)) :
    t.checkedSeekRight step i = some (t.seekRight step i) := by
  fun_induction t.scanRight step i with
  | case1 i hstop =>
    rw [checkedSeekRight_of_fetch (fetch?_cells hi), seekRight_of_place (place?_natCast hi)]
    rcases hstop with hzero | rfl
    · rw [if_pos hzero, if_pos hzero]
    · have hwrap : t.wrap ((i : Int) + (0 : Nat)) = i := wrap_natCast h
      have hnot : ¬ (t.size : Int) ≤ i := by omega
      simp only [hwrap, if_neg hnot, fetch?_cells hi, place?_natCast hi, if_true]
      split <;> rfl
  | case2 i hgo ih =>
    have hnonzero : t.get i ≠ 0 := fun hzero => hgo (Or.inl hzero)
    have hwrap : t.wrap ((i : Int) + step) = (i + step : Nat) :=
      wrap_natCast (h.mono (t.le_scanRight step (i + step)))
    rw [checkedSeekRight_of_fetch (fetch?_cells hi), seekRight_of_place (place?_natCast hi),
      if_neg hnonzero, if_neg hnonzero, hwrap]
    rcases Nat.lt_or_ge (i + step) t.size with hin | hout
    · have hnot : ¬ (t.size : Int) ≤ (i + step : Nat) := by omega
      simp only [if_neg hnot, fetch?_cells hin, place?_natCast hin, ih hin h]
      split <;> rfl
    · rw [if_pos (Int.ofNat_le.mpr hout), if_pos (Int.ofNat_le.mpr hout)]

/-- A scan to the left looks at cells only. -/
theorem checkedSeekLeft_eq (step i : Nat) (hi : i < t.size) :
    t.checkedSeekLeft step i = some (t.seekLeft step i) := by
  induction i using Nat.strongRecOn with
  | ind i ih =>
    rw [checkedSeekLeft_of_fetch (fetch?_cells hi), seekLeft_of_place (place?_natCast hi)]
    split
    case isTrue => rfl
    case isFalse =>
      split
      case isTrue => rfl
      case isFalse hge =>
        have hwrap : t.wrap ((i : Int) - step) = (i - step : Nat) := by
          rw [← Int.ofNat_sub (by omega)]
          exact wrap_natCast (hasWord_of_lt (by omega))
        have hin : i - step < t.size := by omega
        rw [hwrap, fetch?_cells hin, place?_natCast hin]
        dsimp only
        split
        case isTrue => rfl
        case isFalse => exact ih (i - step) (by omega) hin

end Tape

namespace Machine

variable {m : Machine}

theorem cell?_eq (h : m.OnTape) : m.cell? = some m.cell := by
  rw [cell?, h.pointer_eq]
  exact Tape.fetch?_cells h.place_lt

theorem storeAt?_eq {i : Nat} (h : i < m.tape.size) (v : UInt8) :
    m.storeAt? i v = some (m.put i v) := by
  rw [storeAt?, replace?_natCast h, Option.map_some]
  rfl

theorem storeAt?_pointer (h : m.OnTape) (v : UInt8) :
    m.storeAt? m.pointer v = some (m.store v) := by
  rw [h.pointer_eq]
  exact storeAt?_eq h.place_lt v

theorem carryTo?_eq {target : Nat} (h : m.OnTape) (htarget : target < m.tape.size) :
    m.carryTo? target = some (m.carryTo target) := by
  have hput : ∀ v, (m.put target v).OnTape := fun v =>
    ⟨h.low, (Tape.size_set ..).symm ▸ h.inside⟩
  simp only [carryTo?, cell?_eq h, Tape.fetch?_cells htarget, storeAt?_eq htarget,
    Option.bind_eq_bind, Option.bind_some]
  exact storeAt?_pointer (hput _) 0

theorem factor?_eq {slot : Option Nat} (h : ∀ k, slot = some k → k < m.scales.size) :
    m.factor? slot = some (m.factor slot) := by
  cases slot with
  | none => rfl
  | some k =>
    rw [factor?, fetch?_natCast, factor, Array.getD_eq_getD_getElem?,
      Array.getElem?_eq_getElem (h k rfl), Option.getD_some]

/-- No check of an instruction fails, if there is room for the index that it computes. -/
theorem checkedExec_eq {i : Instr} (h : m.OnTape) (hi : i.Sound size m.scales.size)
    (hgoal : ∀ target, m.goal? i = some target → m.tape.HasWord target) :
    m.checkedExec i = some (m.exec i) := by
  have htouch : ∀ act, m.touch m.pointer act = act m.place := fun act => by rw [touch, h.place?]
  cases i with
  | right n | left n | output | input | loopEnd start => rfl
  | add n slot =>
    have hfactor : m.factor? slot = some (m.factor slot) := factor?_eq hi.slot
    simp only [checkedExec, exec, hfactor, cell?_eq h, storeAt?_pointer h, htouch]
    rfl
  | sub n slot =>
    have hfactor : m.factor? slot = some (m.factor slot) := factor?_eq hi.slot
    simp only [checkedExec, exec, hfactor, cell?_eq h, storeAt?_pointer h, htouch]
    rfl
  | loopStart behind =>
    simp only [checkedExec, exec, cell?_eq h, htouch]
    rfl
  | scanRight n =>
    obtain ⟨k, rfl⟩ : ∃ k : Nat, n = k := Int.eq_ofNat_of_zero_le hi.argument
    have hseek := Tape.checkedSeekRight_eq k m.place h.place_lt (hgoal _ rfl)
    rw [← h.pointer_eq] at hseek
    simp only [checkedExec, exec, hseek]
    rfl
  | scanLeft n =>
    obtain ⟨k, rfl⟩ : ∃ k : Nat, n = k := Int.eq_ofNat_of_zero_le hi.argument
    have hseek := Tape.checkedSeekLeft_eq k m.place h.place_lt
    rw [← h.pointer_eq] at hseek
    simp only [checkedExec, exec, hseek]
    rfl
  | clear | unscale =>
    simp only [checkedExec, exec, storeAt?_pointer h, htouch]
    rfl
  | scale stop slot =>
    simp only [checkedExec, exec, cell?_eq h, replace?_natCast (hi.slot slot rfl), htouch, cell,
      Option.bind_eq_bind, Option.bind_some]
    split <;> rfl
  | carryRight n =>
    obtain ⟨k, rfl⟩ : ∃ k : Nat, n = k := Int.eq_ofNat_of_zero_le hi.argument
    have hword := Tape.wrap_natCast (hgoal _ rfl)
    rw [Int.toNat_natCast, Int.natCast_add, ← h.pointer_eq] at hword
    simp only [checkedExec, exec, htouch]
    split
    case isTrue hsize =>
      have hplace : m.tape.wrap (m.pointer + k) = (m.place + k : Nat) := by
        rw [hword, h.pointer_eq, Int.natCast_add]
      rw [hplace] at hsize ⊢
      have htarget := Int.ofNat_lt.mp hsize
      simp only [carryTo?_eq h htarget, touch, Tape.place?_natCast htarget]
      rfl
    case isFalse => rfl
  | carryLeft n =>
    obtain ⟨k, rfl⟩ : ∃ k : Nat, n = k := Int.eq_ofNat_of_zero_le hi.argument
    have hplace := h.place_lt
    have hpointer := h.pointer_eq
    simp only [checkedExec, exec, cell?_eq h, htouch, cell, Option.bind_eq_bind, Option.bind_some]
    split
    case isTrue => rfl
    case isFalse =>
      split
      case isTrue => rfl
      case isFalse hge =>
        have hwrap : m.tape.wrap (m.pointer - k) = (m.place - k : Nat) := by
          rw [hpointer, ← Int.ofNat_sub (by omega)]
          exact Tape.wrap_natCast (Tape.hasWord_of_lt (by omega))
        have htarget : m.place - k < m.tape.size := by omega
        rw [hwrap, carryTo?_eq h htarget, touch, Tape.place?_natCast htarget]
        rfl

end Machine

/-! ## Machines -/

/-- A machine between two instructions: its address is one of the code or the end of it, its pointer
is not past the tape, and it has the registers that it was given. -/
structure Machine.Sound (p : FlatCode) (m : Machine) : Prop where
  pc : m.pc ≤ p.code.size
  pointer : m.pointer < m.tape.size
  scales : m.scales.size = max 1 p.slots

/-- A sound machine with a tape of a given size, or one that will be sound when its tape, which is
too short, has been made to cover an index. -/
inductive Effect.Sound (p : FlatCode) (size : Nat) : Effect → Prop where
  | next {m : Machine} (sound : m.Sound p) (same : m.tape.size = size) : Sound p size (.next m)
  | output {m : Machine} (sound : m.Sound p) (same : m.tape.size = size) : Sound p size (.output m)
  | input {m : Machine} (sound : m.Sound p) (same : m.tape.size = size) : Sound p size (.input m)
  | grow {needed : Nat} {m : Machine}
      (sound : Machine.Sound p { m with tape := m.tape.grow needed }) (same : m.tape.size = size)
      (short : size ≤ needed) : Sound p size (.grow needed m)
  | fault {m : Machine} (sound : m.Sound p) (same : m.tape.size = size) : Sound p size (.fault m)
  | astray {index : Int} {m : Machine} (sound : m.Sound p) (same : m.tape.size = size) :
      Sound p size (.astray index m)

/-- What the end of a scan says about its index. -/
def Scan.Within (t : Tape) : Scan → Prop
  | found index => index < t.size
  | past index => t.size ≤ index
  | before | astray _ | endless => True

theorem Tape.seekRight_within (t : Tape) (step i : Int) : (t.seekRight step i).Within t := by
  fun_induction t.seekRight step i with
  | case1 | case4 | case5 => trivial
  | case2 i here hi => exact (place?_eq_some hi).2
  | case3 i here hi hgo hpast => exact hpast
  | case6 i here hi hgo hin _ hnext hne ih => exact ih

theorem Tape.seekLeft_within (t : Tape) (step i : Int) : (t.seekLeft step i).Within t := by
  fun_induction t.seekLeft step i with
  | case1 | case3 | case4 | case5 => trivial
  | case2 i here hi => exact (place?_eq_some hi).2
  | case6 i here hi hgo hin _ hnext hne ih => exact ih

variable {p : FlatCode} {m : Machine}

namespace Machine.Sound

theorem advance (h : m.Sound p) (hpc : m.pc < p.code.size) : m.advance.Sound p :=
  ⟨hpc, h.pointer, h.scales⟩

theorem put (h : m.Sound p) (place : Nat) (v : UInt8) : (m.put place v).Sound p :=
  ⟨h.pc, (Tape.size_set ..).symm ▸ h.pointer, h.scales⟩

theorem carry (h : m.Sound p) (source target : Nat) : (m.carry source target).Sound p :=
  ⟨h.pc, ((Tape.size_set ..).trans (Tape.size_set ..)).symm ▸ h.pointer, h.scales⟩

theorem goTo (h : m.Sound p) {pc : Nat} {pointer : Int} (hpc : pc ≤ p.code.size)
    (hpointer : pointer < m.tape.size) : Sound p ⟨pc, pointer, m.tape, m.scales⟩ :=
  ⟨hpc, hpointer, h.scales⟩

/-- When the tape has been made to cover an index, the pointer may be anywhere up to it. -/
theorem grown (h : m.Sound p) {pointer : Int} {needed : Nat} (hpointer : pointer ≤ needed) :
    Sound p ⟨m.pc, pointer, m.tape.grow needed, m.scales⟩ :=
  ⟨h.pc, Int.lt_of_le_of_lt hpointer (Int.ofNat_lt.mpr (Tape.lt_size_grow m.tape needed)), h.scales⟩

/-- Where there is a cell, soundness depends on what is done with it. -/
theorem touch (h : m.Sound p) {index : Int} {act : Nat → Effect}
    (hact : ∀ place, (act place).Sound p m.tape.size) :
    (m.touch index act).Sound p m.tape.size := by
  rw [Machine.touch]
  split
  case h_1 place _ => exact hact place
  case h_2 => exact .astray h rfl

/-- The end of a scan keeps a machine sound. -/
theorem land (h : m.Sound p) (hpc : m.pc < p.code.size) {scan : Scan} (hscan : scan.Within m.tape) :
    (m.land scan).Sound p m.tape.size := by
  cases scan with
  | found index => exact .next (h.goTo hpc hscan) rfl
  | past index =>
    have hpast : (m.tape.size : Int) ≤ index := hscan
    exact .grow (h.grown (Int.self_le_toNat index)) rfl (by omega)
  | before => exact .fault h rfl
  | astray index => exact .astray h rfl
  | endless => exact .next h rfl

/-- An instruction keeps a machine sound. -/
theorem exec (h : m.Sound p) {i : Instr} (hpc : m.pc < p.code.size)
    (hi : i.Sound p.code.size slots) : (m.exec i).Sound p m.tape.size := by
  have hpointer := h.pointer
  cases i with
  | right n =>
    simp only [Machine.exec]
    split
    case isTrue hsize => exact .next (h.goTo hpc hsize) rfl
    case isFalse hsize => exact .grow (h.grown (by omega)) rfl (by omega)
  | left n =>
    have hn : 0 ≤ n := hi.argument
    simp only [Machine.exec]
    split
    case isTrue => exact .fault h rfl
    case isFalse hge =>
      rw [Tape.wrap_of_nonneg (by omega) (Tape.hasWord_of_lt (by omega))]
      exact .next (h.goTo hpc (by omega)) rfl
  | add n slot | sub n slot | clear | unscale =>
    exact h.touch fun place => .next ((h.put place _).advance hpc) (Tape.size_set ..)
  | output => exact .output (h.advance hpc) rfl
  | input => exact .input (h.advance hpc) rfl
  | loopStart behind =>
    refine h.touch fun place => ?_
    split
    case isTrue => exact .next (h.goTo (hi.target behind rfl) hpointer) rfl
    case isFalse => exact .next (h.advance hpc) rfl
  | loopEnd start => exact .next (h.goTo (hi.target start rfl) hpointer) rfl
  | scanRight n => exact h.land hpc (m.tape.seekRight_within n m.pointer)
  | scanLeft n => exact h.land hpc (m.tape.seekLeft_within n m.pointer)
  | scale stop slot =>
    refine h.touch fun place => ?_
    dsimp only
    split
    case isTrue => exact .next (h.goTo (hi.target stop rfl) hpointer) rfl
    case isFalse => exact .next ⟨hpc, hpointer, (Array.size_setIfInBounds ..).trans h.scales⟩ rfl
  | carryRight n =>
    simp only [Machine.exec]
    split
    case isTrue =>
      exact h.touch fun there => h.touch fun here => .next ((h.carry here there).advance hpc)
        ((Tape.size_set ..).trans (Tape.size_set ..))
    case isFalse hsize => exact .grow (h.grown (by omega)) rfl (by omega)
  | carryLeft n =>
    refine h.touch fun here => ?_
    split
    case isTrue => exact .next (h.advance hpc) rfl
    case isFalse =>
      split
      case isTrue => exact .fault h rfl
      case isFalse =>
        exact h.touch fun there => .next ((h.carry here there).advance hpc)
          ((Tape.size_set ..).trans (Tape.size_set ..))

end Machine.Sound

/-- An instruction keeps the pointer on the tape, if there is room for the index that it computes. -/
theorem Machine.OnTape.exec (h : m.OnTape) {i : Instr} (hi : i.Sound size slots)
    (hgoal : ∀ target, m.goal? i = some target → m.tape.HasWord target) : (m.exec i).OnTape := by
  by_cases hdistance : i.hasSoundDistance = true
  · rw [exec_eq_plain h hdistance hgoal]
    exact h.plain i
  · -- what is left are scans without steps, which stay where they are
    have hplace := Tape.place?_natCast h.place_lt
    have hwrap : m.tape.wrap (m.place : Nat) = m.place :=
      Tape.wrap_natCast (Tape.hasWord_of_lt h.place_lt)
    rw [← h.pointer_eq] at hplace hwrap
    cases i with
    | right n | left n | carryRight n | carryLeft n =>
      exact absurd (decide_eq_true hi.argument) hdistance
    | scanRight n =>
      have hn : 0 ≤ n := hi.argument
      obtain rfl : n = 0 := by
        by_contra hne
        exact hdistance (decide_eq_true (by omega))
      rw [Machine.exec, Tape.seekRight_of_place hplace, Int.add_zero, hwrap, hplace]
      have hinside := h.inside
      split
      · exact h.elsewhere _ _
      · rw [if_neg (by omega)]
        simp only [if_true]
        exact h
    | scanLeft n =>
      have hn : 0 ≤ n := hi.argument
      obtain rfl : n = 0 := by
        by_contra hne
        exact hdistance (decide_eq_true (by omega))
      rw [Machine.exec, Tape.seekLeft_of_place hplace, Int.sub_zero, hwrap, hplace]
      have hlow := h.low
      split
      · exact h.elsewhere _ _
      · rw [if_neg (by omega)]
        simp only [if_true]
        exact h
    | _ => exact absurd rfl hdistance

/-! ## Batches -/

/-- A batch has left a sound machine, or one that will be sound when its tape has grown. -/
inductive Report.Sound (p : FlatCode) (size : Nat) : Report → Prop where
  | grow {needed steps : Nat} {m : Machine}
      (sound : Machine.Sound p { m with tape := m.tape.grow needed }) (same : m.tape.size = size)
      (short : size ≤ needed) : Sound p size ⟨m, .grow needed, steps⟩
  | other {stop : Stop} {steps : Nat} {m : Machine} (sound : m.Sound p) (same : m.tape.size = size)
      (noGrowth : ∀ needed, stop ≠ .grow needed) : Sound p size ⟨m, stop, steps⟩

/-- A batch leaves a sound machine. -/
theorem Machine.Sound.runFor (h : m.Sound p) (hcode : p.Sound) (made budget : Nat) :
    (m.runFor p.code made budget).Sound p m.tape.size := by
  induction budget generalizing m made with
  | zero =>
    rw [Machine.runFor]
    split
    case isTrue => exact .other h rfl (by simp)
    case isFalse => exact .other h rfl (by simp)
  | succ budget ih =>
    rw [Machine.runFor]
    by_cases hpc : m.pc < p.code.size
    · have hexec := h.exec hpc (hcode _ (Array.getElem_mem hpc))
      rw [Array.getElem?_eq_getElem hpc]
      dsimp only
      generalize m.exec p.code[m.pc] = effect at hexec
      cases hexec with
      | next sound same => exact same ▸ ih sound (made + 1)
      | output sound same => exact .other sound same (by simp)
      | input sound same => exact .other sound same (by simp)
      | grow sound same short => exact .grow sound same short
      | fault sound same => exact .other sound same (by simp)
      | astray sound same => exact .other sound same (by simp)
    · rw [Array.getElem?_eq_none (Nat.le_of_not_lt hpc)]
      exact .other h rfl (by simp)

/-- A step keeps the machine sound. -/
theorem Execution.sound_of_single {x y : Execution} (h : x.machine.Sound p) (hcode : p.Sound)
    (hstep : x.single p = .next y) : y.machine.Sound p := by
  by_cases hpc : x.machine.pc < p.code.size
  · have hexec := h.exec hpc (hcode _ (Array.getElem_mem hpc))
    rw [single, stepBy_of_fetch (Array.getElem?_eq_getElem hpc)] at hstep
    generalize x.machine.exec p.code[x.machine.pc] = effect at hexec hstep
    cases hexec with
    | next sound _ | grow sound _ _ =>
      obtain rfl := Advance.next.inj hstep
      exact sound
    | output sound _ =>
      rw [meet] at hstep
      split at hstep
      · obtain rfl := Advance.next.inj hstep
        exact sound
      · cases hstep
    | input sound _ =>
      rw [meet] at hstep
      split at hstep
      · obtain rfl := Advance.next.inj hstep
        exact sound.put _ _
      · cases hstep
    | fault | astray => cases hstep
  · rw [single, stepBy_of_end (Array.getElem?_eq_none (Nat.le_of_not_lt hpc))] at hstep
    cases hstep

theorem Execution.sound_of_runs (hcode : p.Sound) {n : Nat} {x y : Execution}
    (h : Runs (single p) n x y) (hx : x.machine.Sound p) : y.machine.Sound p := by
  induction h with
  | zero _ => exact hx
  | succ first _ ih => exact ih (sound_of_single hx hcode first)

/-- An execution that is sound, has its pointer on the tape and will keep to words. -/
structure Execution.Orderly (p : FlatCode) (x : Execution) : Prop where
  sound : x.machine.Sound p
  onTape : x.machine.OnTape
  words : ∀ n y, Runs (single p) n x y → y.InWords p

namespace Execution.Orderly

variable {x y : Execution}

/-- The next instruction keeps the pointer on the tape, and no check of it fails. -/
theorem exec (h : x.Orderly p) (hcode : p.Sound) {i : Instr}
    (hi : p.code[x.machine.pc]? = some i) :
    (x.machine.exec i).OnTape ∧ x.machine.checkedExec i = some (x.machine.exec i) := by
  have hsound := hcode i (Array.mem_of_getElem? hi)
  have hgoal := fun target => h.words 0 x (.zero x) i target hi
  exact ⟨h.onTape.exec hsound hgoal,
    Machine.checkedExec_eq h.onTape (h.sound.scales.symm ▸ hsound) hgoal⟩

theorem next (h : x.Orderly p) (hcode : p.Sound) (hstep : x.single p = .next y) :
    y.Orderly p where
  sound := sound_of_single h.sound hcode hstep
  onTape := by
    cases hfetch : p.code[x.machine.pc]? with
    | none =>
      rw [single, stepBy_of_end hfetch] at hstep
      cases hstep
    | some i =>
      rw [single, stepBy_of_fetch hfetch] at hstep
      exact onTape_of_meet (h.exec hcode hfetch).1 hstep
  words n z hz := h.words (n + 1) z (.succ hstep hz)

theorem of_runs (h : x.Orderly p) (hcode : p.Sound) {n : Nat} (hruns : Runs (single p) n x y) :
    y.Orderly p := by
  induction hruns with
  | zero => exact h
  | succ first _ ih => exact ih (h.next hcode first)

/-- No check of a batch fails, and a batch that stops to write or to read has its pointer on the
tape. -/
theorem runFor (hcode : p.Sound) (unread : List UInt8) (written : Array UInt8) (before made budget : Nat)
    (h : Orderly p ⟨m, unread, written, before + made⟩) :
    m.checkedRunFor p.code made budget = some (m.runFor p.code made budget) ∧
      ((m.runFor p.code made budget).stop = .output ∨ (m.runFor p.code made budget).stop = .input →
        (m.runFor p.code made budget).machine.OnTape) := by
  induction budget generalizing m made with
  | zero =>
    rw [Machine.checkedRunFor, Machine.runFor]
    refine ⟨rfl, fun hstop => ?_⟩
    split at hstop <;> simp at hstop
  | succ budget ih =>
    rw [Machine.checkedRunFor, Machine.runFor]
    by_cases hpc : m.pc < p.code.size
    · have hfetch := Array.getElem?_eq_getElem hpc
      obtain ⟨hontape, hchecked⟩ := h.exec hcode hfetch
      have hnext : ∀ m', m.exec p.code[m.pc] = .next m' →
          Orderly p ⟨m', unread, written, before + (made + 1)⟩ := fun m' hm' => by
        refine h.next hcode ?_
        rw [single, stepBy_of_fetch hfetch]
        simp only [hm', meet]
        rfl
      rw [if_pos hpc, fetch?_natCast, hfetch]
      simp only [Option.bind_eq_bind, Option.bind_some, hchecked]
      cases hexec : m.exec p.code[m.pc] with
      | next m' => exact ih (made + 1) (hnext m' hexec)
      | output m' | input m' =>
        simp only [hexec] at hontape
        exact ⟨rfl, fun _ => hontape⟩
      | grow needed m' | fault m' | astray index m' => exact ⟨rfl, fun hstop => by simp at hstop⟩
    · rw [if_neg hpc, Array.getElem?_eq_none (Nat.le_of_not_lt hpc)]
      exact ⟨rfl, fun hstop => by simp at hstop⟩

/-- No check of a turn fails. -/
theorem checkedTurn_eq (h : x.Orderly p) (hcode : p.Sound) (limits : Limits) :
    x.checkedTurn p limits = some (x.turn p limits) := by
  obtain ⟨m, unread, written, steps⟩ := x
  have hreport := h.sound.runFor hcode 0 (limits.budget steps).toNat
  obtain ⟨hchecked, hontape⟩ := runFor hcode unread written steps 0 (limits.budget steps).toNat h
  rw [checkedTurn, turn]
  simp only [hchecked, Option.bind_eq_bind, Option.bind_some]
  generalize m.runFor p.code 0 (limits.budget steps).toNat = report at hreport hontape ⊢
  cases hreport with
  | grow sound same short =>
    have hroom := Nat.le_trans (same ▸ short) (Nat.le_of_lt (Tape.lt_sizeFor _))
    simp only [checkedReact, Tape.checkedGrow, if_pos hroom]
    rfl
  | @other stop _ m sound same noGrowth =>
    cases stop with
    | done | fault | budget | astray => rfl
    | output =>
      have hm := hontape (Or.inl rfl)
      simp only [checkedReact, react, Machine.cell?_eq hm, hm.place?]
      rfl
    | input =>
      have hm := hontape (Or.inr rfl)
      simp only [checkedReact, react, Machine.storeAt?_pointer hm, hm.place?]
      rfl
    | grow needed => exact absurd rfl (noGrowth needed)

end Execution.Orderly

/-! ## Growth -/

/-- A tape in place of another one that did not cover an index: it is longer, covers the index, has
the old cells where they were and zeros behind them, and its length is a power of two. -/
structure Tape.GrownFor (old : Tape) (needed : Nat) (new : Tape) : Prop where
  longer : old.size < new.size
  covers : needed < new.size
  keeps : ∀ i, i < old.size → new.cells[i]? = old.cells[i]?
  fresh : ∀ i, old.size ≤ i → i < new.size → new.cells[i]? = some 0
  length : ∃ k, new.size = 2 ^ k

/-- The size for an index is the least power of two that is greater. -/
theorem Tape.exists_sizeFor (index : Nat) : ∃ m, sizeFor index = 2 ^ m ∧ ∀ j < m, 2 ^ j ≤ index := by
  rw [sizeFor]
  split
  case isTrue => exact ⟨0, rfl, fun j hj => absurd hj (Nat.not_lt_zero j)⟩
  case isFalse hpos =>
    refine ⟨index.log2 + 1, rfl, fun j hj => ?_⟩
    exact (Nat.le_log2 hpos).mp (by omega)

theorem Tape.grownFor_grow {t : Tape} {needed : Nat} (h : t.size ≤ needed) :
    t.GrownFor needed (t.grow needed) := by
  have hsize : (t.grow needed).size = sizeFor needed := by
    rw [size_grow]
    exact Nat.max_eq_right (Nat.le_trans h (Nat.le_of_lt (lt_sizeFor needed)))
  have hcovers := lt_sizeFor needed
  obtain ⟨k, hk, -⟩ := exists_sizeFor needed
  refine ⟨by omega, by omega, fun i hi => ?_, fun i hi hlt => ?_, k, hsize.trans hk⟩
  · exact Array.getElem?_append_left hi
  · have hfresh : i - t.size < sizeFor needed - t.size := by omega
    rw [grow, Array.getElem?_append_right hi, Array.getElem?_replicate]
    exact if_pos hfresh


/-! ## Turns -/

variable {size : Nat} {x : Execution}

/-- An execution between two batches.  The length of its tape is the one that it began with or a
power of two. -/
structure Execution.Sound (p : FlatCode) (size : Nat) (x : Execution) : Prop where
  machine : x.machine.Sound p
  length : x.machine.tape.size = size ∨ ∃ k, x.machine.tape.size = 2 ^ k

namespace Execution.Sound

/-- A turn that asks for more tape is followed by growth. -/
theorem growth (h : x.Sound p size) (hcode : p.Sound) (limits : Limits) {needed : Nat}
    (hstop : (x.batch p limits).stop = .grow needed) :
    ∃ y, x.turn p limits = .next y ∧
      (x.batch p limits).machine.tape.GrownFor needed y.machine.tape := by
  obtain ⟨m, unread, written, steps⟩ := x
  have hreport := h.machine.runFor hcode 0 (limits.budget steps).toNat
  rw [batch] at hstop ⊢
  rw [turn]
  dsimp only at hstop hreport ⊢
  generalize m.runFor p.code 0 (limits.budget steps).toNat = report at hstop hreport ⊢
  cases hreport with
  | grow sound same short =>
    obtain rfl := Stop.grow.inj hstop
    exact ⟨_, rfl, Tape.grownFor_grow (same ▸ short)⟩
  | other sound same noGrowth => exact absurd hstop (noGrowth needed)

/-- Turns keep an execution sound. -/
theorem next (h : x.Sound p size) (hcode : p.Sound) (limits : Limits) {y : Execution}
    (hy : x.turn p limits = .next y) : y.Sound p size := by
  obtain ⟨m, unread, written, steps⟩ := x
  have hreport := h.machine.runFor hcode 0 (limits.budget steps).toNat
  have hlength := h.length
  rw [turn] at hy
  dsimp only at hy hreport hlength
  generalize m.runFor p.code 0 (limits.budget steps).toNat = report at hy hreport
  cases hreport with
  | grow sound same short =>
    obtain rfl := Turn.next.inj hy
    exact ⟨sound, Or.inr (Tape.grownFor_grow (same ▸ short)).length⟩
  | @other stop _ m sound same noGrowth =>
    rw [← same] at hlength
    cases stop with
    | done | fault | astray => cases hy
    | output =>
      simp only [react] at hy
      split at hy
      · obtain rfl := Turn.next.inj hy
        exact ⟨sound, hlength⟩
      · cases hy
    | input =>
      simp only [react] at hy
      split at hy
      · obtain rfl := Turn.next.inj hy
        exact ⟨sound.put _ _, (Tape.size_set ..).symm ▸ hlength⟩
      · cases hy
    | budget =>
      rw [react] at hy
      split at hy
      · cases hy
      · obtain rfl := Turn.next.inj hy
        exact ⟨sound, hlength⟩
    | grow needed => exact absurd rfl (noGrowth needed)

end Execution.Sound

/-! ## Whole executions -/

/-- An execution begins sound. -/
theorem FlatCode.sound_start (p : FlatCode) (tape : Tape) (index : Int) (input : List UInt8) :
    (p.start tape index input).Sound p tape.size := by
  simp only [start]
  split
  case isTrue hsize => exact ⟨⟨Nat.zero_le _, hsize, Array.size_replicate⟩, Or.inl rfl⟩
  case isFalse hsize =>
    have hcovered : index < (tape.grow index.toNat).size := by
      have := Tape.lt_size_grow tape index.toNat
      omega
    exact ⟨⟨Nat.zero_le _, hcovered, Array.size_replicate⟩,
      Or.inr (Tape.grownFor_grow (by omega)).length⟩

/-- **Every access is in range.**  Let a program have flat code and amounts that are not negative,
and let its execution be at any point between two batches, under any limits.  Then its address is
one of the code or the end of it, its pointer is not past the tape, it has the registers that it was
given, its tape has the length that it began with or one that is a power of two, and if the batch that
comes next asks for more tape, the tape grows as it should.  That holds also for the growth in front of
the first batch, if the tape does not cover the index.  If the execution keeps to words, the pointer is
not negative either, and the turn that comes next gives the same with a check in front of every access,
so all of them are in range. -/
theorem Program.accesses_in_range {q : Program} {p : FlatCode} (hp : q.flatten = .ok p)
    (hok : Program.every Node.hasNaturalAmount q = true) (limits : Limits) (tape : Tape)
    (index : Nat) (input : List UInt8) :
    (tape.size ≤ index → tape.GrownFor index (p.start tape index input).machine.tape) ∧
    ∀ x, Relation.ReflTransGen (fun x y => x.turn p limits = .next y) (p.start tape index input) x →
      (x.machine.pc ≤ p.code.size ∧ x.machine.pointer < x.machine.tape.size ∧
        x.machine.scales.size = max 1 p.slots ∧
        (x.machine.tape.size = tape.size ∨ ∃ k, x.machine.tape.size = 2 ^ k) ∧
        ∀ needed, (x.batch p limits).stop = .grow needed →
          ∃ y, x.turn p limits = .next y ∧
            (x.batch p limits).machine.tape.GrownFor needed y.machine.tape) ∧
      (p.KeepsToWords tape index input →
        0 ≤ x.machine.pointer ∧ x.checkedTurn p limits = some (x.turn p limits)) := by
  have hcode := Program.sound_of_flatten hp hok
  refine ⟨fun hshort => ?_, fun x hx => ⟨?_, fun hwords => ?_⟩⟩
  · rw [FlatCode.tape_start, Tape.cover, if_neg (Nat.not_lt.mpr hshort)]
    exact Tape.grownFor_grow hshort
  · have hsound : x.Sound p tape.size := by
      induction hx with
      | refl => exact p.sound_start tape index input
      | tail _ hturn ih => exact ih.next hcode limits hturn
    exact ⟨hsound.machine.pc, hsound.machine.pointer, hsound.machine.scales, hsound.length,
      fun needed => hsound.growth hcode limits⟩
  · have horderly : x.Orderly p := by
      induction hx with
      | refl =>
        exact ⟨(p.sound_start tape index input).machine, p.onTape_start tape index input, hwords⟩
      | tail _ hturn ih =>
        obtain ⟨n, hruns⟩ := exists_runs_of_turn hturn
        exact ih.of_runs hcode hruns
    exact ⟨horderly.onTape.low, horderly.checkedTurn_eq hcode limits⟩

/-- A move in a scaled body that leaves a tape of one cell: the tape grows, and the pointer is on the
new tape. -/
theorem Program.accesses_in_range_scaled :
    ∃ p y, Program.flatten [.increment 1, .scaled [.moveRight 1, .increment 3, .moveLeft 1]] = .ok p ∧
      (p.start (.blank 1) 0 []).turn p .unlimited = .next y ∧ Tape.GrownFor ⟨#[1]⟩ 1 y.machine.tape ∧
      0 ≤ y.machine.pointer ∧ y.machine.pointer < y.machine.tape.size ∧
      y.checkedTurn p .unlimited = some (y.turn p .unlimited) := by
  obtain ⟨p, hp, hwords, hstop, hbatch⟩ : ∃ p, Program.flatten [.increment 1, .scaled [.moveRight 1,
      .increment 3, .moveLeft 1]] = .ok p ∧ p.KeepsToWords (.blank 1) 0 [] ∧
      ((p.start (.blank 1) 0 []).batch p .unlimited).stop = .grow 1 ∧
      ((p.start (.blank 1) 0 []).batch p .unlimited).machine.tape = ⟨#[1]⟩ :=
    ⟨_, rfl, FlatCode.keepsToWords_of_argument_le (by decide) (by decide) (.blank 1) 0 [], rfl, rfl⟩
  obtain ⟨-, hreached⟩ := Program.accesses_in_range hp rfl .unlimited (.blank 1) 0 []
  obtain ⟨⟨-, -, -, -, hgrowth⟩, -⟩ := hreached _ .refl
  obtain ⟨y, hy, hgrown⟩ := hgrowth 1 hstop
  obtain ⟨⟨-, hpointer, -⟩, hranges⟩ := hreached y (.single hy)
  exact ⟨p, y, hp, hy, hbatch ▸ hgrown, (hranges hwords).1, hpointer, (hranges hwords).2⟩

/-- A carry to a cell whose index is no word: the test whether it is on the tape passes, and there is no
such cell. -/
theorem Program.access_beyond_words :
    ∃ q p, q = [.moveRight 1, .carryRight (2 ^ 63 - 1)] ∧ Program.flatten q = .ok p ∧
      Program.every Node.hasNaturalAmount q = true ∧
      (p.start (.blank 2) 0 []).checkedTurn p .unlimited = none ∧
      p.ComesTo .unlimited (.blank 2) 0 [] (.astray (-2 ^ 63) 2 2) :=
  ⟨_, _, rfl, rfl, rfl, by rfl, ⟨1, by decide +kernel⟩⟩

end Brainfuck
