import Brainfuck.Proofs.Stepping

/-!
# Indices that fit into words

The pointer of a machine is a signed word, and a sum that is too great comes out negative.  As long as
that does not happen, a machine may as well compute with numbers: `Machine.plain` does, and it is the
machine that the rest of the theory is about.  It has no negative index and no cell that is missing.

Only three instructions compute an index that lies to the right of the pointer: a move, a scan and a
carry to the right.  If that index is less than `2 ^ 63`, or the tape is so long that registers have
room for any index, an instruction does the same in both machines.  An execution that keeps to words is
therefore one of the plain machine, step by step, whether it ends or not.

Amounts up to `2 ^ 62` are enough for that.  Up to that length a tape leaves room for them in a word.

* `Machine.plain`: instructions with numbers for indices.
* `Machine.goal?`, `Machine.exec_eq_plain`: when an instruction is plain.
* `FlatCode.KeepsToWords`: executions that keep to words.
* `FlatCode.KeepsToWords.comesTo_iff`, `FlatCode.KeepsToWords.neverStops_iff`: they are plain.
* `FlatCode.keepsToWords_of_argument_le`: amounts that are small enough.
-/

namespace Brainfuck

open Execution

/-! ## Instructions with numbers for indices -/

namespace Machine

/-- The index of the current cell, as a number. -/
def place (m : Machine) : Nat := m.pointer.toNat

@[simp] theorem place_mk (pc index : Nat) (tape : Tape) (scales : Array UInt8) :
    place ⟨pc, index, tape, scales⟩ = index :=
  Int.toNat_natCast index

/-- The current cell. -/
def cell (m : Machine) : UInt8 := m.tape.get m.place

/-- Writes the current cell. -/
def store (m : Machine) (v : UInt8) : Machine := m.put m.place v

/-- Adds the current cell to another one and clears it. -/
def carryTo (m : Machine) (target : Nat) : Machine := m.carry m.place target

/-- Runs one instruction as if registers had room for any index. -/
def plain (i : Instr) (m : Machine) : Effect :=
  match i with
  | .right n =>
    let target := m.place + n.toNat
    if target < m.tape.size then .next { m with pc := m.pc + 1, pointer := target }
    else .grow target m
  | .left n =>
    if m.place < n.toNat then .fault m
    else .next { m with pc := m.pc + 1, pointer := (m.place - n.toNat : Nat) }
  | .add n slot => .next (m.store (m.cell + n * m.factor slot)).advance
  | .sub n slot => .next (m.store (m.cell - n * m.factor slot)).advance
  | .output => .output m.advance
  | .input => .input m.advance
  | .loopStart behind => .next (if m.cell = 0 then { m with pc := behind } else m.advance)
  | .loopEnd start => .next { m with pc := start }
  | .scanRight n =>
    let target := m.tape.scanRight n.toNat m.place
    if target < m.tape.size then .next { m with pc := m.pc + 1, pointer := target }
    else .grow target { m with pointer := target }
  | .scanLeft n =>
    match m.tape.scanLeft? n.toNat m.place with
    | some target => .next { m with pc := m.pc + 1, pointer := target }
    | none => .fault m
  | .clear | .unscale => .next (m.store 0).advance
  | .scale stop slot =>
    if m.cell = 0 then .next { m with pc := stop }
    else .next { m with pc := m.pc + 1, scales := m.scales.setIfInBounds slot m.cell }
  | .carryRight n =>
    let target := m.place + n.toNat
    if target < m.tape.size then .next (m.carryTo target).advance
    else .grow target m
  | .carryLeft n =>
    if m.cell = 0 then .next m.advance
    else if m.place < n.toNat then .fault m
    else .next (m.carryTo (m.place - n.toNat)).advance

/-- The index to the right of the pointer that an instruction computes. -/
def goal? (m : Machine) : Instr → Option Nat
  | .right n | .carryRight n => some (m.place + n.toNat)
  | .scanRight n => some (m.tape.scanRight n.toNat m.place)
  | _ => none

end Machine

/-- Whether an instruction goes no negative distance, and makes steps if it is a scan. -/
def Instr.hasSoundDistance : Instr → Bool
  | .right n | .left n | .carryRight n | .carryLeft n => 0 ≤ n
  | .scanRight n | .scanLeft n => 1 ≤ n
  | _ => true

/-! ## Words -/

namespace Tape

/-- A register has room for an index: it is less than `2 ^ 63`, or the tape is so long that registers
have room for any. -/
def HasWord (t : Tape) (i : Nat) : Prop := i < 2 ^ 63 ∨ 2 ^ 62 < t.size

variable {t : Tape} {i : Nat}

theorem HasWord.mono (h : t.HasWord i) {j : Nat} (hj : j ≤ i) : t.HasWord j :=
  h.imp (Nat.lt_of_le_of_lt hj) id

/-- There is more room on a longer tape. -/
theorem HasWord.grow (h : t.HasWord i) (index : Nat) : (t.grow index).HasWord i :=
  h.imp id fun hlong => Nat.lt_of_lt_of_le hlong (t.size_le_grow index)

/-- There is room for the index of a cell. -/
theorem hasWord_of_lt (h : i < t.size) : t.HasWord i := by
  rcases Nat.lt_or_ge (2 ^ 62) t.size with hlong | hshort
  · exact Or.inr hlong
  · exact Or.inl (by omega)

/-- An index that there is room for is what it is. -/
theorem wrap_natCast (h : t.HasWord i) : t.wrap i = i := by
  rcases t.wrap_cases i with ⟨hsize, hlow, hhigh, k, hk⟩ | ⟨-, hwrap⟩
  · rcases h with h | h <;> omega
  · exact hwrap

theorem wrap_of_nonneg {j : Int} (hj : 0 ≤ j) (h : t.HasWord j.toNat) : t.wrap j = j := by
  obtain ⟨k, rfl⟩ := Int.eq_ofNat_of_zero_le hj
  exact wrap_natCast h

theorem place?_natCast (h : i < t.size) : t.place? i = some i := by
  rw [place?, if_pos (Int.natCast_nonneg i), if_pos (Int.ofNat_lt.mpr h), Int.toNat_natCast]

/-- A scan to the right goes to the right. -/
theorem le_scanRight (t : Tape) (step i : Nat) : i ≤ t.scanRight step i := by
  fun_induction t.scanRight step i with
  | case1 i _ => exact Nat.le_refl i
  | case2 i _ ih => omega

/-- A scan to the right makes steps as long as the cells are not zero. -/
theorem exists_scanRight (t : Tape) (step i : Nat) :
    ∃ k, t.scanRight step i = i + k * step ∧ ∀ j < k, t.get (i + j * step) ≠ 0 := by
  fun_induction t.scanRight step i with
  | case1 i _ => exact ⟨0, by omega, fun j hj => absurd hj (Nat.not_lt_zero j)⟩
  | case2 i hgo ih =>
    obtain ⟨k, hk, hcells⟩ := ih
    refine ⟨k + 1, by rw [hk, Nat.succ_mul]; omega, fun j hj => ?_⟩
    cases j with
    | zero =>
      rw [Nat.zero_mul, Nat.add_zero]
      exact fun hzero => hgo (Or.inl hzero)
    | succ j =>
      rw [Nat.succ_mul, Nat.add_comm _ step, ← Nat.add_assoc]
      exact hcells j (Nat.lt_of_succ_lt_succ hj)

/-- A scan to the right that starts on the tape ends less than one step past it. -/
theorem scanRight_lt (t : Tape) (step i : Nat) (h : i < t.size) :
    t.scanRight step i < t.size + step := by
  fun_induction t.scanRight step i with
  | case1 i _ => omega
  | case2 i hgo ih =>
    rcases Nat.lt_or_ge (i + step) t.size with hin | hout
    · exact ih hin
    · rw [scanRight, if_pos (Or.inl (get_eq_zero_of_size_le hout))]
      omega

/-- A scan to the left does not go to the right. -/
theorem scanLeft?_le (t : Tape) (step i : Nat) {target : Nat}
    (h : t.scanLeft? step i = some target) : target ≤ i := by
  fun_induction t.scanLeft? step i with
  | case1 i _ => exact Nat.le_of_eq (Option.some.inj h).symm
  | case2 i _ _ => exact absurd h (by simp)
  | case3 i _ _ ih => exact Nat.le_trans (ih h) (Nat.sub_le _ _)

/-- One step of a scan to the right from a cell. -/
theorem seekRight_of_place {j step : Int} (h : t.place? j = some i) :
    t.seekRight step j =
      if t.get i = 0 then .found j
      else if t.size ≤ t.wrap (j + step) then .past (t.wrap (j + step))
      else
        match t.place? (t.wrap (j + step)) with
        | none => .astray (t.wrap (j + step))
        | some _ =>
          if t.wrap (j + step) = j then .endless else t.seekRight step (t.wrap (j + step)) := by
  rw [seekRight.eq_def]
  split
  case h_1 hnone => rw [h] at hnone; cases hnone
  case h_2 here hhere =>
    obtain rfl := Option.some.inj (h.symm.trans hhere)
    congr 2
    split
    case h_1 hnext => rw [hnext]
    case h_2 hnext => rw [hnext]

/-- One step of a scan to the left from a cell. -/
theorem seekLeft_of_place {j step : Int} (h : t.place? j = some i) :
    t.seekLeft step j =
      if t.get i = 0 then .found j
      else if j < step then .before
      else
        match t.place? (t.wrap (j - step)) with
        | none => .astray (t.wrap (j - step))
        | some _ =>
          if t.wrap (j - step) = j then .endless else t.seekLeft step (t.wrap (j - step)) := by
  rw [seekLeft.eq_def]
  split
  case h_1 hnone => rw [h] at hnone; cases hnone
  case h_2 here hhere =>
    obtain rfl := Option.some.inj (h.symm.trans hhere)
    congr 2
    split
    case h_1 hnext => rw [hnext]
    case h_2 hnext => rw [hnext]

/-- A scan to the right is plain, if there is room for the index where it ends: those on the way are
less. -/
theorem seekRight_eq {step : Nat} (hstep : 0 < step) (hi : i < t.size)
    (h : t.HasWord (t.scanRight step i)) :
    t.seekRight step i =
      if t.scanRight step i < t.size then .found (t.scanRight step i)
      else .past (t.scanRight step i) := by
  fun_induction t.scanRight step i with
  | case1 i hstop =>
    have hzero : t.get i = 0 := hstop.resolve_right (Nat.ne_of_gt hstep)
    rw [seekRight_of_place (place?_natCast hi), if_pos hzero, if_pos hi]
  | case2 i hgo ih =>
    have hnonzero : t.get i ≠ 0 := fun hzero => hgo (Or.inl hzero)
    have hwrap : t.wrap ((i : Int) + step) = (i + step : Nat) :=
      wrap_natCast (h.mono (t.le_scanRight step (i + step)))
    have hmoves : ((i + step : Nat) : Int) ≠ i := by omega
    rw [seekRight_of_place (place?_natCast hi), if_neg hnonzero, hwrap]
    rcases Nat.lt_or_ge (i + step) t.size with hin | hout
    · rw [if_neg (by omega), place?_natCast hin]
      dsimp only
      rw [if_neg hmoves]
      exact ih hin h
    · have hend : t.scanRight step (i + step) = i + step := by
        rw [scanRight, if_pos (Or.inl (get_eq_zero_of_size_le hout))]
      rw [if_pos (Int.ofNat_le.mpr hout), hend, if_neg (by omega)]

/-- A scan to the left is plain. -/
theorem seekLeft_eq {step : Nat} (hstep : 0 < step) (hi : i < t.size) :
    t.seekLeft step i =
      match t.scanLeft? step i with
      | some target => .found target
      | none => .before := by
  fun_induction t.scanLeft? step i with
  | case1 i hstop =>
    have hzero : t.get i = 0 := hstop.resolve_right (Nat.ne_of_gt hstep)
    rw [seekLeft_of_place (place?_natCast hi), if_pos hzero]
  | case2 i hgo hlt =>
    have hnonzero : t.get i ≠ 0 := fun hzero => hgo (Or.inl hzero)
    rw [seekLeft_of_place (place?_natCast hi), if_neg hnonzero, if_pos (Int.ofNat_lt.mpr hlt)]
  | case3 i hgo hge ih =>
    have hnonzero : t.get i ≠ 0 := fun hzero => hgo (Or.inl hzero)
    have hin : i - step < t.size := by omega
    have hwrap : t.wrap ((i : Int) - step) = (i - step : Nat) := by
      rw [← Int.ofNat_sub (Nat.le_of_not_lt hge)]
      exact wrap_natCast (hasWord_of_lt hin)
    have hmoves : ((i - step : Nat) : Int) ≠ i := by omega
    rw [seekLeft_of_place (place?_natCast hi), if_neg hnonzero, if_neg (by omega), hwrap,
      place?_natCast hin]
    dsimp only
    rw [if_neg hmoves]
    exact ih hin

end Tape

/-- The pointer is on the tape. -/
structure Machine.OnTape (m : Machine) : Prop where
  low : 0 ≤ m.pointer
  inside : m.pointer < m.tape.size

namespace Machine

variable {m : Machine} {i : Instr}

namespace OnTape

theorem pointer_eq (h : m.OnTape) : m.pointer = m.place := (Int.toNat_of_nonneg h.low).symm

theorem place_lt (h : m.OnTape) : m.place < m.tape.size := by
  have hinside := h.inside
  rw [h.pointer_eq] at hinside
  exact Int.ofNat_lt.mp hinside

/-- The current cell is there. -/
theorem place? (h : m.OnTape) : m.tape.place? m.pointer = some m.place := by
  rw [h.pointer_eq]
  exact Tape.place?_natCast h.place_lt

end OnTape

/-- **An instruction is plain** if the pointer is on the tape, and if there is room for the index that
it computes. -/
theorem exec_eq_plain (h : m.OnTape) (hi : i.hasSoundDistance = true)
    (hgoal : ∀ target, m.goal? i = some target → m.tape.HasWord target) :
    m.exec i = m.plain i := by
  have hpointer := h.pointer_eq
  have hsize := h.place_lt
  have htouch : ∀ act, m.touch m.pointer act = act m.place := fun act => by rw [touch, h.place?]
  have hlt : ∀ k : Nat, m.pointer < k ↔ m.place < k := fun k => by omega
  have hright : ∀ k : Nat, m.tape.HasWord (m.place + k) →
      m.tape.wrap (m.pointer + k) = (m.place + k : Nat) := fun k hk => by
    rw [hpointer, ← Int.natCast_add, Tape.wrap_natCast hk]
  have hleft : ∀ k : Nat, ¬ m.place < k → m.tape.wrap (m.pointer - k) = (m.place - k : Nat) :=
    fun k hk => by
      rw [hpointer, ← Int.ofNat_sub (Nat.le_of_not_lt hk),
        Tape.wrap_natCast (Tape.hasWord_of_lt (by omega))]
  cases i with
  | right n =>
    obtain ⟨k, rfl⟩ : ∃ k : Nat, n = k := Int.eq_ofNat_of_zero_le (of_decide_eq_true hi)
    simp only [exec, plain, hright k (hgoal _ rfl), Int.toNat_natCast, Int.ofNat_lt]
  | left n =>
    obtain ⟨k, rfl⟩ : ∃ k : Nat, n = k := Int.eq_ofNat_of_zero_le (of_decide_eq_true hi)
    simp only [exec, plain, hlt, Int.toNat_natCast]
    split
    case isTrue => rfl
    case isFalse hge => rw [hleft k hge]
  | add n slot | sub n slot | clear | unscale | loopStart behind =>
    simp only [exec, htouch]
    rfl
  | output | input | loopEnd start => rfl
  | scanRight n =>
    have hn : 1 ≤ n := of_decide_eq_true hi
    obtain ⟨k, rfl⟩ : ∃ k : Nat, n = k := Int.eq_ofNat_of_zero_le (Int.le_trans Int.one_nonneg hn)
    have hseek := Tape.seekRight_eq (Int.ofNat_le.mp hn) hsize (hgoal _ rfl)
    rw [← hpointer] at hseek
    simp only [exec, plain, Int.toNat_natCast, hseek]
    split <;> simp [land]
  | scanLeft n =>
    have hn : 1 ≤ n := of_decide_eq_true hi
    obtain ⟨k, rfl⟩ : ∃ k : Nat, n = k := Int.eq_ofNat_of_zero_le (Int.le_trans Int.one_nonneg hn)
    have hseek := Tape.seekLeft_eq (Int.ofNat_le.mp hn) hsize
    rw [← hpointer] at hseek
    simp only [exec, plain, Int.toNat_natCast, hseek]
    cases m.tape.scanLeft? k m.place <;> rfl
  | scale stop slot =>
    simp only [exec, htouch]
    rfl
  | carryRight n =>
    obtain ⟨k, rfl⟩ : ∃ k : Nat, n = k := Int.eq_ofNat_of_zero_le (of_decide_eq_true hi)
    simp only [exec, plain, hright k (hgoal _ rfl), Int.toNat_natCast, Int.ofNat_lt, htouch]
    split
    case isTrue hin =>
      rw [touch, Tape.place?_natCast hin]
      rfl
    case isFalse => rfl
  | carryLeft n =>
    obtain ⟨k, rfl⟩ : ∃ k : Nat, n = k := Int.eq_ofNat_of_zero_le (of_decide_eq_true hi)
    simp only [exec, plain, htouch, hlt, Int.toNat_natCast, cell]
    split
    case isTrue => rfl
    case isFalse =>
      split
      case isTrue => rfl
      case isFalse hge =>
        rw [hleft k hge, touch, Tape.place?_natCast (by omega)]
        rfl

end Machine

/-! ## Executions -/

/-- Runs one instruction as if registers had room for any index, and reacts to its effect. -/
abbrev Execution.plain (p : FlatCode) : Execution → Advance Execution Outcome :=
  stepBy Machine.plain p

/-- The pointer is on the tape, once the tape has grown as it is to. -/
def Effect.OnTape : Effect → Prop
  | .next m | .output m | .input m | .fault m => m.OnTape
  | .grow needed m => Machine.OnTape { m with tape := m.tape.grow needed }
  | .astray _ _ => False

namespace Machine.OnTape

variable {m : Machine}

theorem of_lt {pc index : Nat} {tape : Tape} {scales : Array UInt8} (h : index < tape.size) :
    OnTape ⟨pc, index, tape, scales⟩ :=
  ⟨Int.natCast_nonneg index, Int.ofNat_lt.mpr h⟩

/-- With another address or other registers. -/
theorem elsewhere (h : m.OnTape) (pc : Nat) (scales : Array UInt8) :
    OnTape ⟨pc, m.pointer, m.tape, scales⟩ :=
  ⟨h.low, h.inside⟩

theorem store (h : m.OnTape) (v : UInt8) : (m.store v).OnTape :=
  ⟨h.low, (Tape.size_set ..).symm ▸ h.inside⟩

theorem carryTo (h : m.OnTape) (target : Nat) : (m.carryTo target).OnTape :=
  ⟨h.low, ((Tape.size_set ..).trans (Tape.size_set ..)).symm ▸ h.inside⟩

theorem cover (h : m.OnTape) (index : Nat) : OnTape { m with tape := m.tape.cover index } :=
  ⟨h.low, Int.lt_of_lt_of_le h.inside (Int.ofNat_le.mpr (Tape.size_le_cover ..))⟩

theorem grow (h : m.OnTape) (index : Nat) : OnTape { m with tape := m.tape.grow index } :=
  ⟨h.low, Int.lt_of_lt_of_le h.inside (Int.ofNat_le.mpr (Tape.size_le_grow ..))⟩

/-- A plain instruction keeps the pointer on the tape. -/
theorem plain (h : m.OnTape) (i : Instr) : (m.plain i).OnTape := by
  have hplace := h.place_lt
  cases i with
  | right n =>
    rw [Machine.plain]
    split
    case isTrue hsize => exact of_lt hsize
    case isFalse => exact h.grow _
  | left n =>
    rw [Machine.plain]
    split
    case isTrue => exact h
    case isFalse => exact of_lt (by omega)
  | add n slot | sub n slot | clear | unscale => exact (h.store _).elsewhere _ _
  | output | input | loopEnd start => exact h.elsewhere _ _
  | loopStart behind =>
    rw [Machine.plain]
    split <;> exact h.elsewhere _ _
  | scale stop slot =>
    rw [Machine.plain]
    split <;> exact h.elsewhere _ _
  | scanRight n =>
    rw [Machine.plain]
    split
    case isTrue hsize => exact of_lt hsize
    case isFalse => exact of_lt (Tape.lt_size_grow ..)
  | scanLeft n =>
    rw [Machine.plain]
    split
    case h_1 target htarget =>
      exact of_lt (Nat.lt_of_le_of_lt (m.tape.scanLeft?_le n.toNat m.place htarget) hplace)
    case h_2 => exact h
  | carryRight n =>
    rw [Machine.plain]
    split
    case isTrue => exact (h.carryTo _).elsewhere _ _
    case isFalse => exact h.grow _
  | carryLeft n =>
    rw [Machine.plain]
    split
    case isTrue => exact h.elsewhere _ _
    case isFalse =>
      split
      case isTrue => exact h
      case isFalse => exact (h.carryTo _).elsewhere _ _

end Machine.OnTape

namespace Execution

variable {p : FlatCode} {x y : Execution}

/-- With the pointer on the tape, the caller finds the cell that it is to write or to read, and the
pointer is on the tape again. -/
theorem onTape_of_meet {steps : Nat} {effect : Effect} (h : effect.OnTape)
    (hmeet : x.meet steps effect = .next y) : y.machine.OnTape := by
  cases effect with
  | next m | grow needed m =>
    obtain rfl := Advance.next.inj hmeet
    exact h
  | output m =>
    rw [meet, h.place?] at hmeet
    obtain rfl := Advance.next.inj hmeet
    exact h
  | input m =>
    rw [meet, h.place?] at hmeet
    obtain rfl := Advance.next.inj hmeet
    exact Machine.OnTape.store h _
  | fault m => cases hmeet
  | astray index m => cases h

/-- With the pointer on the tape, no execution is lost. -/
theorem exists_result_of_meet {steps : Nat} {effect : Effect} (h : effect.OnTape) {o : Outcome}
    (hmeet : x.meet steps effect = .final o) : ∃ r, o = .finished r ∧ 0 ≤ r.index := by
  cases effect with
  | next m | grow needed m => cases hmeet
  | output m | input m =>
    rw [meet, h.place?] at hmeet
    cases hmeet
  | fault m =>
    obtain rfl := Advance.final.inj hmeet
    exact ⟨_, rfl, h.low⟩
  | astray index m => cases h

theorem onTape_of_plain (h : x.machine.OnTape) (hstep : x.plain p = .next y) : y.machine.OnTape := by
  cases hfetch : p.code[x.machine.pc]? with
  | none =>
    rw [plain, stepBy_of_end hfetch] at hstep
    cases hstep
  | some i =>
    rw [plain, stepBy_of_fetch hfetch] at hstep
    exact onTape_of_meet (h.plain i) hstep

theorem onTape_of_runs {n : Nat} (h : x.machine.OnTape) (hruns : Runs (plain p) n x y) :
    y.machine.OnTape := by
  induction hruns with
  | zero => exact h
  | succ first _ ih => exact ih (onTape_of_plain h first)

/-- A plain execution ends with a result. -/
theorem exists_result_of_plain (h : x.machine.OnTape) {o : Outcome} (hends : Ends (plain p) x o) :
    ∃ r, o = .finished r ∧ 0 ≤ r.index := by
  obtain ⟨n, y, hruns, hfinal⟩ := hends
  have hy := onTape_of_runs h hruns
  cases hfetch : p.code[y.machine.pc]? with
  | none =>
    rw [plain, stepBy_of_end hfetch] at hfinal
    obtain rfl := Advance.final.inj hfinal
    exact ⟨_, rfl, hy.low⟩
  | some i =>
    rw [plain, stepBy_of_fetch hfetch] at hfinal
    exact exists_result_of_meet (hy.plain i) hfinal

/-- The next instruction is plain. -/
def IsPlain (p : FlatCode) (x : Execution) : Prop :=
  ∀ i, p.code[x.machine.pc]? = some i → x.machine.exec i = x.machine.plain i

/-- There is room for the index that the next instruction computes. -/
def InWords (p : FlatCode) (x : Execution) : Prop :=
  ∀ i target, p.code[x.machine.pc]? = some i → x.machine.goal? i = some target →
    x.machine.tape.HasWord target

/-- The pointer is on the tape, and the next instruction goes a sound distance and computes an index that
there is room for. -/
structure Ready (p : FlatCode) (x : Execution) : Prop where
  onTape : x.machine.OnTape
  distance : ∀ i, p.code[x.machine.pc]? = some i → i.hasSoundDistance = true
  words : x.InWords p

theorem Ready.isPlain (h : x.Ready p) : x.IsPlain p := fun i hi =>
  Machine.exec_eq_plain h.onTape (h.distance i hi) fun target => h.words i target hi

theorem IsPlain.single_eq (h : x.IsPlain p) : x.single p = x.plain p := by
  cases hfetch : p.code[x.machine.pc]? with
  | none => rw [single, plain, stepBy_of_end hfetch, stepBy_of_end hfetch]
  | some i => rw [single, plain, stepBy_of_fetch hfetch, stepBy_of_fetch hfetch, h i hfetch]

/-- All instructions that an execution comes to are plain. -/
def KeepsPlain (p : FlatCode) (x : Execution) : Prop :=
  ∀ n y, Runs (single p) n x y → y.IsPlain p

namespace KeepsPlain

variable {n : Nat} {o : Outcome}

theorem isPlain (h : x.KeepsPlain p) : x.IsPlain p := h 0 x (.zero x)

theorem of_runs (h : x.KeepsPlain p) (hruns : Runs (single p) n x y) : y.KeepsPlain p :=
  fun m z hz => h (n + m) z (hruns.trans hz)

/-- Such an execution makes the steps that it makes with numbers for indices. -/
theorem runs_iff (h : x.KeepsPlain p) : Runs (single p) n x y ↔ Runs (plain p) n x y := by
  induction n generalizing x with
  | zero =>
    constructor
    · rintro (_ | _)
      exact .zero _
    · rintro (_ | _)
      exact .zero _
  | succ n ih =>
    constructor
    · rintro (_ | ⟨first, rest⟩)
      exact .succ (h.isPlain.single_eq ▸ first) ((ih (h.of_runs (.one first))).mp rest)
    · rintro (_ | ⟨first, rest⟩)
      have first := h.isPlain.single_eq.trans first
      exact .succ first ((ih (h.of_runs (.one first))).mpr rest)

theorem ends_iff (h : x.KeepsPlain p) : Ends (single p) x o ↔ Ends (plain p) x o := by
  constructor
  · rintro ⟨n, y, hruns, hfinal⟩
    exact ⟨n, y, h.runs_iff.mp hruns, (h n y hruns).single_eq ▸ hfinal⟩
  · rintro ⟨n, y, hruns, hfinal⟩
    have hruns := h.runs_iff.mpr hruns
    exact ⟨n, y, hruns, (h n y hruns).single_eq.trans hfinal⟩

theorem forever_iff (h : x.KeepsPlain p) : Forever (single p) x ↔ Forever (plain p) x :=
  forall_congr' fun _ => exists_congr fun _ => h.runs_iff

end KeepsPlain

end Execution

/-! ## Whole executions -/

/-- No instruction goes a negative distance, and scans make steps. -/
def FlatCode.HasSoundDistances (p : FlatCode) : Prop := ∀ i ∈ p.code, i.hasSoundDistance = true

instance (p : FlatCode) : Decidable p.HasSoundDistances :=
  inferInstanceAs (Decidable (∀ i ∈ p.code, i.hasSoundDistance = true))

/-- An execution keeps to words: there is room for every index that it computes. -/
def FlatCode.KeepsToWords (p : FlatCode) (tape : Tape) (index : Int) (input : List UInt8) : Prop :=
  ∀ n x, Runs (single p) n (p.start tape index input) x → x.InWords p

namespace FlatCode

variable {p : FlatCode} {x : Execution} {tape : Tape} {index : Nat} {input : List UInt8}

theorem ready_of_inWords (hp : p.HasSoundDistances) (hx : x.machine.OnTape) (h : x.InWords p) :
    x.Ready p :=
  ⟨hx, fun i hi => hp i (Array.mem_of_getElem? hi), h⟩

/-- An execution that is in words as long as its pointer is on the tape keeps it there, and is ready at
every step. -/
theorem ready_of_runs (hp : p.HasSoundDistances) (hx : x.machine.OnTape)
    (h : ∀ n y, Runs (single p) n x y → y.machine.OnTape → y.InWords p) {n : Nat} {y : Execution}
    (hruns : Runs (single p) n x y) : y.Ready p := by
  induction hruns with
  | zero x => exact ready_of_inWords hp hx (h 0 x (.zero x) hx)
  | @succ n x y z first _ ih =>
    have hready := ready_of_inWords hp hx (h 0 x (.zero x) hx)
    have hy := onTape_of_plain hx (hready.isPlain.single_eq ▸ first)
    exact ih hy fun m w hw => h (m + 1) w (.succ first hw)

/-- An execution begins with its pointer on the tape. -/
theorem onTape_start (p : FlatCode) (tape : Tape) (index : Nat) (input : List UInt8) :
    (p.start tape index input).machine.OnTape := by
  refine ⟨Int.natCast_nonneg index, ?_⟩
  rw [start]
  dsimp only
  split
  case isTrue h => exact h
  case isFalse =>
    rw [Int.toNat_natCast]
    exact Int.ofNat_lt.mpr (tape.lt_size_grow index)

/-- The tape that an execution begins with covers the index. -/
theorem tape_start (p : FlatCode) (tape : Tape) (index : Nat) (input : List UInt8) :
    (p.start tape index input).machine.tape = tape.cover index := by
  simp only [start, Int.ofNat_lt, Int.toNat_natCast, Tape.cover]

namespace KeepsToWords

variable {o : Outcome}

theorem keepsPlain (h : p.KeepsToWords tape index input) (hp : p.HasSoundDistances) :
    (p.start tape index input).KeepsPlain p := fun _ _ hy =>
  (ready_of_runs hp (onTape_start p tape index input) (fun n y hy _ => h n y hy) hy).isPlain

/-- **An execution that keeps to words comes to what it comes to with numbers for indices.** -/
theorem comesTo_iff (h : p.KeepsToWords tape index input) (hp : p.HasSoundDistances) :
    p.ComesTo .unlimited tape index input o ↔ Ends (plain p) (p.start tape index input) o :=
  comesTo_iff_ends.trans (h.keepsPlain hp).ends_iff

/-- It does not go astray. -/
theorem exists_result (h : p.KeepsToWords tape index input) (hp : p.HasSoundDistances)
    (ho : p.ComesTo .unlimited tape index input o) : ∃ r, o = .finished r ∧ 0 ≤ r.index :=
  exists_result_of_plain (onTape_start p tape index input) ((h.comesTo_iff hp).mp ho)

theorem neverStops_iff (h : p.KeepsToWords tape index input) (hp : p.HasSoundDistances) :
    p.NeverStops tape index input ↔ Forever (plain p) (p.start tape index input) :=
  neverStops_iff_forever.trans (h.keepsPlain hp).forever_iff

end KeepsToWords

/-- **Small amounts keep to words.**  If no argument in the code is greater than `2 ^ 62`, there is room
for every index that an execution computes. -/
theorem keepsToWords_of_argument_le (hp : p.HasSoundDistances)
    (hsmall : ∀ i ∈ p.code, i.argument ≤ 2 ^ 62) (tape : Tape) (index : Nat) (input : List UInt8) :
    p.KeepsToWords tape index input := by
  have hwords : ∀ y : Execution, y.machine.OnTape → y.InWords p := by
    intro y hy i target hi htarget
    have hplace := hy.place_lt
    have hargument := hsmall i (Array.mem_of_getElem? hi)
    by_cases hlong : 2 ^ 62 < y.machine.tape.size
    · exact Or.inr hlong
    · refine Or.inl ?_
      cases i with
      | right n | carryRight n =>
        rw [Machine.goal?, Option.some.injEq] at htarget
        simp only [Instr.argument] at hargument
        omega
      | scanRight n =>
        rw [Machine.goal?, Option.some.injEq] at htarget
        have hlt := y.machine.tape.scanRight_lt n.toNat y.machine.place hplace
        simp only [Instr.argument] at hargument
        omega
      | _ => cases htarget
  intro n x hx
  exact (ready_of_runs hp (onTape_start p tape index input) (fun _ y _ => hwords y) hx).words

end FlatCode

end Brainfuck
