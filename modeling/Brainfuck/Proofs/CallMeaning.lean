import Brainfuck.Proofs.InputLines
import Brainfuck.Proofs.Staying

/-!
# What calls mean

The memory of a compiled program holds a configuration: the cells of the tape in it, the index, and
the input that has not been handed out.  A call of a routine changes the configuration as the node
does that the routine is for, and the routine says that it failed exactly if the node faults.

Memory has no room for every index.  What is asked is that the node stays below `2 ^ 63`; then the
routine does not get further, also on its way.

* `Memory.config`: the configuration that is held by a memory.
* `Routine.means_act`: a routine does to a head what its node means.
* `Memory.exists_perform`, `Memory.exists_input`: calls.
-/

namespace Brainfuck

open Behaviour

/-! ## Routines -/

/-- The configuration with the cells and the index of a head. -/
def Config.withHead (c : Config) (h : Head) : Config :=
  { c with cells := h.tape.get, index := h.index }

/-- Cells that are added to a tape do not show. -/
theorem Config.withHead_cover (c : Config) (h : Head) (i j : Nat) :
    c.withHead ⟨h.tape.cover i, j⟩ = (c.withHead h).goTo j := by
  have hcells : (h.tape.cover i).get = h.tape.get := funext (Tape.get_cover h.tape i)
  rw [withHead, hcells]
  rfl

theorem Config.withHead_carryTo (c : Config) {h : Head} {target : Nat}
    (hinside : h.index < h.tape.size) (htarget : target < h.tape.size) :
    c.withHead (h.carryTo target) = (c.withHead h).carryTo target := by
  have hcells : (h.carryTo target).tape.get = ((c.withHead h).carryTo target).cells := by
    rw [Head.carryTo, Tape.get_set_eq_update (by rwa [Tape.size_set]), Tape.get_set_eq_update htarget]
    rfl
  rw [withHead, hcells]
  rfl

/-- Carrying does not move. -/
theorem Config.index_of_carryLeft {c d : Config} {n : Nat} (h : c.carryLeft n = .done d) :
    d.index = c.index := by
  rw [carryLeft] at h
  split at h
  · rw [Ending.done.inj h]
  · split at h
    · cases h
    · rw [← Ending.done.inj h, carryTo]

namespace Routine

variable {h : Head} {n : Nat} {r : Routine} {scale : UInt8} {bound : Nat}

/-- A routine that says whether it failed does not give the tape another size. -/
theorem size_act (hr : r.answers = true) (n : Nat) (h : Head) :
    (r.act n h).2.tape.size = h.tape.size := by
  cases r with
  | moveRight | scanRight | carryRight => cases hr
  | scanLeft =>
    rw [act, Head.scanLeft?]
    cases h.tape.scanLeft? n h.index <;> rfl
  | carryLeft =>
    rw [act, Head.carryLeft?]
    split
    · rfl
    · split
      · rfl
      · exact (Tape.size_set ..).trans (Tape.size_set ..)

/-- A routine that answers says whether it failed. -/
theorem answer_act (n : Nat) (h : Head) (r : Routine) :
    (r.act n h).1 = if r.answers then some ((r.act n h).1 == some true) else none := by
  cases r with
  | moveRight | scanRight | carryRight => rfl
  | scanLeft | carryLeft => simp [act, answers]

/-- Only a routine that says so fails, and then it has done nothing. -/
theorem act_of_failed (h' : (r.act n h).1 = some true) : r.answers = true ∧ (r.act n h).2 = h := by
  cases r with
  | moveRight | scanRight | carryRight => cases h'
  | scanLeft =>
    have hnone := Option.isNone_iff_eq_none.mp (Option.some.inj h')
    exact ⟨rfl, by rw [act, hnone]; rfl⟩
  | carryLeft =>
    have hnone := Option.isNone_iff_eq_none.mp (Option.some.inj h')
    exact ⟨rfl, by rw [act, hnone]; rfl⟩

/-- A routine does to a head what its node means. -/
theorem means_act (hinside : h.index < h.tape.size) (hscan : r.scans = true → n ≠ 0) (c : Config)
    (scale : UInt8) :
    (r.node n).Means scale (c.withHead h)
      (if (r.act n h).1 = some true then .fault (c.withHead h)
        else .done (c.withHead (r.act n h).2)) := by
  cases r with
  | moveRight =>
    rw [if_neg fun hfailed => by cases hfailed]
    exact congrArg Ending.done (c.withHead_cover h _ _)
  | scanRight =>
    rw [if_neg fun hfailed => by cases hfailed]
    have hscanned := h.tape.repeated_scanRight n (Nat.pos_of_ne_zero (hscan rfl)) h.index
      (c.withHead h) rfl rfl
    exact Or.inl ⟨_, hscanned, congrArg Ending.done (c.withHead_cover h _ _)⟩
  | scanLeft =>
    have hscanned := h.tape.repeated_scanLeft n (Nat.pos_of_ne_zero (hscan rfl)) h.index
      (c.withHead h) rfl rfl
    rw [act, Head.scanLeft?]
    cases htarget : h.tape.scanLeft? n h.index with
    | none =>
      rw [htarget] at hscanned
      obtain ⟨d, hd⟩ := hscanned
      exact Or.inr ⟨d, hd, rfl⟩
    | some target =>
      rw [htarget] at hscanned
      exact Or.inl ⟨_, hscanned, rfl⟩
  | carryRight =>
    rw [if_neg fun hfailed => by cases hfailed]
    have hcarried := c.withHead_carryTo (h := ⟨h.tape.cover (h.index + n), h.index⟩)
      (Nat.lt_of_lt_of_le hinside (Tape.size_le_cover ..)) (Tape.lt_size_cover h.tape (h.index + n))
    rw [c.withHead_cover] at hcarried
    exact congrArg Ending.done hcarried
  | carryLeft =>
    rw [act, Head.carryLeft?]
    change _ = (c.withHead h).carryLeft n
    rw [Config.carryLeft]
    have hcell : (c.withHead h).cell = h.cell := rfl
    by_cases hzero : h.cell = 0
    · rw [hcell, if_pos hzero, if_pos hzero]
      rfl
    · rw [hcell, if_neg hzero, if_neg hzero]
      by_cases hlt : h.index < n
      · rw [if_pos hlt, if_pos (show (c.withHead h).index < n from hlt)]
        rfl
      · rw [if_neg hlt, if_neg (show ¬ (c.withHead h).index < n from hlt)]
        exact congrArg Ending.done (c.withHead_carryTo hinside (by omega))

/-- The scan of the tape gets further than the steps on the way to it. -/
theorem le_scanRight (t : Tape) {step i k : Nat} (hstep : step ≠ 0)
    (hcells : ∀ j < k, t.get (i + j * step) ≠ 0) : i + k * step ≤ t.scanRight step i := by
  obtain ⟨l, hl, _⟩ := t.exists_scanRight step i
  have hzero := t.get_scanRight step (Nat.pos_of_ne_zero hstep) i
  rw [hl] at hzero ⊢
  have hle : k ≤ l := Nat.not_lt.mp fun hlt => hcells l hlt hzero
  exact Nat.add_le_add_left (Nat.mul_le_mul_right step hle) i

/-- Where a scan to the right leads to. -/
theorem scanRight_lt_of_stays (hn : n ≠ 0) {c : Config}
    (hstays : (Node.scanRight n).Stays bound scale (c.withHead h)) :
    h.tape.scanRight n h.index < bound :=
  hstays ((c.withHead h).goTo _) (Or.inl ⟨_, h.tape.repeated_scanRight n (Nat.pos_of_ne_zero hn)
    h.index (c.withHead h) rfl rfl, rfl⟩)

/-- If the node stays below a bound, so does everything that a call gets to. -/
theorem lt_of_reaches {call : Call} {c : Config} {i : Nat} (hbound : h.index < bound)
    (hscan : call.routine.scans = true → call.amount ≠ 0)
    (hstays : (call.routine.node call.amount.toNat).Stays bound scale (c.withHead h))
    (hi : call.Reaches h i) : i < bound := by
  obtain ⟨routine, n, fresh⟩ := call
  cases routine with
  | moveRight | carryRight =>
    have hgoal : h.index + (n.toNat : Int).toNat < bound := hstays
    rw [Int.toNat_natCast] at hgoal
    obtain rfl | rfl := hi
    · exact hbound
    · exact hgoal
  | scanRight =>
    have hn : n.toNat ≠ 0 := fun hzero => hscan rfl (UInt64.toNat_inj.mp hzero)
    obtain ⟨k, rfl, hcells⟩ := hi
    exact Nat.lt_of_le_of_lt (le_scanRight h.tape hn hcells) (scanRight_lt_of_stays hn hstays)
  | scanLeft | carryLeft =>
    obtain rfl : i = h.index := hi
    exact hbound

/-- If the node stays below a bound, so does the index that a routine leaves. -/
theorem index_act_lt_of_stays {c : Config} (hbound : h.index < bound)
    (hscan : r.scans = true → n ≠ 0) (hstays : (r.node n).Stays bound scale (c.withHead h)) :
    (r.act n h).2.index < bound := by
  cases r with
  | moveRight => exact hstays
  | scanRight => exact scanRight_lt_of_stays (hscan rfl) hstays
  | carryRight => exact hbound
  | scanLeft =>
    rw [act, Head.scanLeft?]
    cases htarget : h.tape.scanLeft? n h.index with
    | none => exact hbound
    | some target => exact Nat.lt_of_le_of_lt (h.tape.scanLeft?_le n h.index htarget) hbound
  | carryLeft =>
    rw [act, Head.carryLeft?]
    split
    · exact hbound
    · split <;> exact hbound

end Routine

/-! ## Memory -/

namespace Memory

variable {m : Memory} {input : List UInt8} {scale : UInt8}

/-- The configuration that is held by a memory, with the output that has been written. -/
def config (m : Memory) (written : Array UInt8) : Config :=
  ⟨m.tape.tape.get, m.tape.index.toNat, m.lines.remaining, written⟩

/-- The index is in the block, and no negative number as a signed one; and what is left of an input
is in the line and behind it. -/
structure Sound (input : List UInt8) (m : Memory) : Prop where
  inside : m.tape.index.toNat < m.tape.count.toNat
  bound : m.tape.index.toNat < 2 ^ 63
  lines : m.lines.Sound input

/-- A call does to the configuration what the node of its routine means, and says that it failed if
that is a fault; then nothing has changed. -/
theorem exists_perform (hm : m.Sound input) (call : Call)
    (hscan : call.routine.scans = true → call.amount ≠ 0) {written : Array UInt8}
    (hstays : (call.routine.node call.amount.toNat).Stays (2 ^ 63) scale (m.config written)) :
    ∃ failed after,
      m.tape.perform call = some (if call.routine.answers then some failed else none, after) ∧
      Sound input ⟨after, m.lines⟩ ∧
      (call.routine.node call.amount.toNat).Means scale (m.config written)
        (if failed then .fault (m.config written) else .done (config ⟨after, m.lines⟩ written)) ∧
      (failed = true → call.routine.answers = true ∧ after = m.tape) ∧
      (call.routine.answers = true → after.count = m.tape.count) := by
  have hhead : (m.config written).withHead m.tape.head = m.config written := rfl
  have hplace : m.tape.head.index < m.tape.head.tape.size := m.tape.size_tape.symm ▸ hm.inside
  have hn : call.routine.scans = true → call.amount.toNat ≠ 0 :=
    fun hr hzero => hscan hr (UInt64.toNat_inj.mp hzero)
  rw [← hhead] at hstays
  obtain ⟨after, hafter, hact⟩ := m.tape.exists_perform call hm.inside hscan fun i hi =>
    Routine.lt_of_reaches hm.bound hscan hstays hi
  have hmeans := Routine.means_act hplace hn (m.config written) scale
  rw [← hact, hhead] at hmeans
  refine ⟨(call.routine.act call.amount.toNat m.tape.head).1 == some true, after, ?_,
    ⟨?_, ?_, hm.lines⟩, ?_, fun hfailed => ?_, fun hanswers => ?_⟩
  · rw [hafter]
    exact congrArg (fun answer => some (answer, after)) (Routine.answer_act ..)
  · have hlt := Routine.index_act_lt hplace call.amount.toNat call.routine
    rw [← hact] at hlt
    exact after.size_tape ▸ hlt
  · have hlt := Routine.index_act_lt_of_stays hm.bound hn hstays
    rw [← hact] at hlt
    exact hlt
  · simp only [beq_iff_eq]
    exact hmeans
  · obtain ⟨hanswers, hsame⟩ := Routine.act_of_failed (beq_iff_eq.mp hfailed)
    exact ⟨hanswers, Buffer.head_inj (hact.trans hsame)⟩
  · have hsize := Routine.size_act hanswers call.amount.toNat m.tape.head
    rw [← hact] at hsize
    have hcount : after.count.toNat = m.tape.count.toNat := by
      rw [← after.size_tape, ← m.tape.size_tape]
      exact hsize
    exact UInt64.toNat_inj.mp hcount

/-- Writing the current cell. -/
theorem config_store (hm : m.Sound input) (v : UInt8) (lines : LineBuffer) (written : Array UInt8) :
    config ⟨{ m.tape with cells := m.tape.cells.setIfInBounds m.tape.index.toNat v }, lines⟩ written =
      { (m.config written).store v with unread := lines.remaining } := by
  have hlt : m.tape.index.toNat < m.tape.tape.size := m.tape.size_tape.symm ▸ hm.inside
  exact congrArg (Config.mk · _ _ _) (Tape.get_set_eq_update hlt v)

/-- Reading a byte into the current cell. -/
theorem exists_input (hm : m.Sound input) {fetch : Fetch} (hfetch : fetch.Serves input)
    (written : Array UInt8) :
    ∃ after, m.input m.tape.index fetch = some after ∧ after.Sound input ∧
      after.config written = (m.config written).read ∧ after.tape.count = m.tape.count ∧
      after.tape.index = m.tape.index := by
  obtain ⟨lines, hnext, hlines, hremaining⟩ := LineBuffer.exists_next hfetch hm.lines
  let cells := m.tape.cells.setIfInBounds m.tape.index.toNat (m.lines.remaining.headD 0)
  refine ⟨⟨{ m.tape with cells := cells }, lines⟩, ?_, ⟨hm.inside, hm.bound, hlines⟩, ?_, rfl, rfl⟩
  · rw [input_of_next hnext, Buffer.storeAt, if_pos (UInt64.lt_iff_toNat_lt.mpr hm.inside)]
    rfl
  · rw [config_store hm, hremaining]
    rfl

end Memory

end Brainfuck
