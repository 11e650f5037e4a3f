import Brainfuck.Proofs.Flattening

/-!
# Growth of the tape does not show

Two executions of the same code on tapes that read alike, one of them longer, do not go step by
step: where one finds a cell on its tape, the other may stop, grow and start the instruction again.
What they have in common is the sequence of instructions that are carried out.  So the instruction
and the growth in front of it are taken together here, and the executions then do go side by side.

That one growth is always enough, and that nothing has been lost by the first attempt, is
`Machine.plainCovered_right` and its two companions: an instruction that asks for more tape does, when
it is run again, what it would have done on a tape that covers its target from the beginning.  For a
scan the second attempt starts at the target itself, on a fresh cell, and stays there.

* `Machine.plainCovered`, `Machine.Alike.plainCovered`: instructions on tapes that read alike.
* `Execution.smooth`: one instruction with the growth in front of it.
* `Execution.Finishes`: the instructions and the growths of an execution that ends.
* `Execution.growthStops`, `Execution.finishes_of_run`: the growths are the stops that the batches
  report.
* `FlatCode.yieldsGrowing_pad`: executions on a tape with zero cells added.
-/

namespace Brainfuck

open Execution

/-! ## Instructions on a tape that is long enough -/

/-- Runs an instruction, on a longer tape if it asks for one. -/
def Machine.plainCovered (i : Instr) (m : Machine) : Effect :=
  match m.plain i with
  | .grow needed m' => { m' with tape := m'.tape.grow needed }.plain i
  | effect => effect

namespace Machine

theorem plainCovered_right (m : Machine) (n : Int) :
    m.plainCovered (.right n) =
      .next ⟨m.pc + 1, (m.place + n.toNat : Nat), m.tape.cover (m.place + n.toNat), m.scales⟩ := by
  by_cases hsize : m.place + n.toNat < m.tape.size
  · simp only [plainCovered, plain, Tape.cover, if_pos hsize]
  · have hcovered := m.tape.lt_size_grow (m.place + n.toNat)
    simp only [plainCovered, plain, Tape.cover, if_neg hsize]
    exact if_pos hcovered

theorem plainCovered_scanRight (m : Machine) (n : Int) :
    m.plainCovered (.scanRight n) =
      .next ⟨m.pc + 1, m.tape.scanRight n.toNat m.place,
        m.tape.cover (m.tape.scanRight n.toNat m.place), m.scales⟩ := by
  generalize htarget : m.tape.scanRight n.toNat m.place = target
  by_cases hsize : target < m.tape.size
  · simp only [plainCovered, plain, Tape.cover, htarget, if_pos hsize]
  · have hcovered := m.tape.lt_size_grow target
    have hfresh : (m.tape.grow target).get target = 0 :=
      (Tape.get_grow ..).trans (Tape.get_eq_zero_of_size_le (Nat.le_of_not_lt hsize))
    simp only [plainCovered, plain, Tape.cover, htarget, if_neg hsize, place_mk,
      Tape.scanRight_eq_self hfresh, if_pos hcovered]

theorem plainCovered_carryRight (m : Machine) (n : Int) :
    m.plainCovered (.carryRight n) =
      .next (carryTo ⟨m.pc, m.pointer, m.tape.cover (m.place + n.toNat), m.scales⟩
        (m.place + n.toNat)).advance := by
  by_cases hsize : m.place + n.toNat < m.tape.size
  · simp only [plainCovered, plain, Tape.cover, if_pos hsize]
  · have hcovered := m.tape.lt_size_grow (m.place + n.toNat)
    simp only [plainCovered, plain, Tape.cover, if_neg hsize]
    exact if_pos hcovered

/-- What it takes for an instruction to ask for more tape: it is a move, a scan or a carry to the
right whose target is not on the tape.  Nothing has been changed then, but a scan has moved to its
target. -/
theorem plain_eq_grow {i : Instr} {m m' : Machine} {needed : Nat}
    (h : m.plain i = .grow needed m') :
    m.tape.size ≤ needed ∧
      ((∃ n, i = .right n ∧ needed = m.place + n.toNat ∧ m' = m) ∨
        (∃ n, i = .scanRight n ∧ needed = m.tape.scanRight n.toNat m.place ∧
          m' = { m with pointer := needed }) ∨
        ∃ n, i = .carryRight n ∧ needed = m.place + n.toNat ∧ m' = m) := by
  cases i with
  | right n =>
    rw [plain] at h
    split at h
    case isTrue => cases h
    case isFalse hsize =>
      cases h
      exact ⟨Nat.le_of_not_lt hsize, Or.inl ⟨n, rfl, rfl, rfl⟩⟩
  | scanRight n =>
    rw [plain] at h
    split at h
    case isTrue => cases h
    case isFalse hsize =>
      cases h
      exact ⟨Nat.le_of_not_lt hsize, Or.inr (Or.inl ⟨n, rfl, rfl, rfl⟩)⟩
  | carryRight n =>
    rw [plain] at h
    split at h
    case isTrue => cases h
    case isFalse hsize =>
      cases h
      exact ⟨Nat.le_of_not_lt hsize, Or.inr (Or.inr ⟨n, rfl, rfl, rfl⟩)⟩
  | left n | scanLeft n | scale stop slot =>
    rw [plain] at h
    split at h <;> cases h
  | carryLeft n =>
    rw [plain] at h
    split at h
    · cases h
    · split at h <;> cases h
  | add | sub | output | input | loopStart | loopEnd | clear | unscale => cases h

/-- An instruction that has been given the tape that it asked for goes on. -/
theorem plain_of_grow {i : Instr} {m m' : Machine} {needed : Nat}
    (h : m.plain i = .grow needed m') :
    m'.pc = m.pc ∧ ∃ m'', { m' with tape := m'.tape.grow needed }.plain i = .next m'' := by
  have hagain : m.plainCovered i = { m' with tape := m'.tape.grow needed }.plain i := by
    rw [plainCovered, h]
  obtain ⟨-, ⟨n, rfl, rfl, rfl⟩ | ⟨n, rfl, rfl, rfl⟩ | ⟨n, rfl, rfl, rfl⟩⟩ := plain_eq_grow h
  · exact ⟨rfl, _, hagain.symm.trans (plainCovered_right m' n)⟩
  · exact ⟨rfl, _, hagain.symm.trans (plainCovered_scanRight m n)⟩
  · exact ⟨rfl, _, hagain.symm.trans (plainCovered_carryRight m' n)⟩

end Machine

/-! ## Tapes that read alike -/

/-- Two machines that differ in the lengths of their tapes only, with their pointers on them. -/
structure Machine.Alike (m m' : Machine) : Prop where
  pc : m.pc = m'.pc
  pointer : m.pointer = m'.pointer
  cells : m.tape.get = m'.tape.get
  scales : m.scales = m'.scales
  onTape : m.OnTape
  onTape' : m'.OnTape

/-- Two effects of the same kind, neither of which asks for more tape, on machines that are alike. -/
inductive Effect.Alike : Effect → Effect → Prop where
  | next {m m' : Machine} (h : m.Alike m') : Alike (.next m) (.next m')
  | output {m m' : Machine} (h : m.Alike m') : Alike (.output m) (.output m')
  | input {m m' : Machine} (h : m.Alike m') : Alike (.input m) (.input m')
  | fault {m m' : Machine} (h : m.Alike m') : Alike (.fault m) (.fault m')

/-- Where a scan to the right ends depends on the readings only. -/
theorem Tape.scanRight_congr {t t' : Tape} (h : t.get = t'.get) (step i : Nat) :
    t.scanRight step i = t'.scanRight step i := by
  fun_induction t.scanRight step i with
  | case1 i hstop => rw [scanRight, if_pos (h ▸ hstop)]
  | case2 i hgo ih => rw [ih, Tape.scanRight.eq_def t' step i, if_neg (h ▸ hgo)]

/-- Where a scan to the left ends depends on the readings only. -/
theorem Tape.scanLeft?_congr {t t' : Tape} (h : t.get = t'.get) (step i : Nat) :
    t.scanLeft? step i = t'.scanLeft? step i := by
  fun_induction t.scanLeft? step i with
  | case1 i hstop => rw [scanLeft?, if_pos (h ▸ hstop)]
  | case2 i hgo hlt => rw [scanLeft?, if_neg (h ▸ hgo), if_pos hlt]
  | case3 i hgo hge ih => rw [ih, Tape.scanLeft?.eq_def t' step i, if_neg (h ▸ hgo), if_neg hge]

namespace Machine.Alike

variable {m m' : Machine}

theorem place (h : m.Alike m') : m.place = m'.place := by
  rw [Machine.place, Machine.place, h.pointer]

theorem cell (h : m.Alike m') : m.cell = m'.cell := by
  rw [Machine.cell, Machine.cell, h.cells, h.place]

theorem factor (h : m.Alike m') (slot : Option Nat) : m.factor slot = m'.factor slot := by
  cases slot with
  | none => rfl
  | some k => rw [Machine.factor, Machine.factor, h.scales]

/-- To another address. -/
theorem goTo (h : m.Alike m') (pc : Nat) : Alike { m with pc := pc } { m' with pc := pc } :=
  ⟨rfl, h.pointer, h.cells, h.scales, h.onTape.elsewhere _ _, h.onTape'.elsewhere _ _⟩

theorem advance (h : m.Alike m') : m.advance.Alike m'.advance :=
  ⟨congrArg (· + 1) h.pc, h.pointer, h.cells, h.scales, h.onTape.elsewhere _ _,
    h.onTape'.elsewhere _ _⟩

/-- To another cell that both tapes have. -/
theorem moved (h : m.Alike m') {pointer : Nat} {tape tape' : Tape} (hcells : tape.get = tape'.get)
    (hinside : pointer < tape.size) (hinside' : pointer < tape'.size) :
    Alike ⟨m.pc + 1, pointer, tape, m.scales⟩ ⟨m'.pc + 1, pointer, tape', m'.scales⟩ :=
  ⟨congrArg (· + 1) h.pc, rfl, hcells, h.scales, .of_lt hinside, .of_lt hinside'⟩

theorem store (h : m.Alike m') (v : UInt8) : (m.store v).Alike (m'.store v) where
  pc := h.pc
  pointer := h.pointer
  cells := by
    rw [Machine.store, Machine.store, put, put, Tape.get_set_eq_update h.onTape.place_lt,
      Tape.get_set_eq_update h.onTape'.place_lt, h.cells, h.place]
  scales := h.scales
  onTape := h.onTape.store v
  onTape' := h.onTape'.store v

theorem carryTo (h : m.Alike m') {target : Nat} (htarget : target < m.tape.size)
    (htarget' : target < m'.tape.size) : (m.carryTo target).Alike (m'.carryTo target) where
  pc := h.pc
  pointer := h.pointer
  cells := by
    rw [get_carryTo h.onTape.place_lt htarget, get_carryTo h.onTape'.place_lt htarget', h.cell,
      h.cells, h.place]
  scales := h.scales
  onTape := h.onTape.carryTo target
  onTape' := h.onTape'.carryTo target

/-- Tapes that have been made to cover an index still read alike. -/
theorem cover (h : m.Alike m') (index : Nat) :
    Alike { m with tape := m.tape.cover index } { m' with tape := m'.tape.cover index } where
  pc := h.pc
  pointer := h.pointer
  cells := by
    funext j
    rw [Tape.get_cover, Tape.get_cover, h.cells]
  scales := h.scales
  onTape := h.onTape.cover index
  onTape' := h.onTape'.cover index

/-- An instruction with the growth in front of it does the same to machines that are alike. -/
theorem plainCovered (h : m.Alike m') (i : Instr) :
    (m.plainCovered i).Alike (m'.plainCovered i) := by
  cases i with
  | right n =>
    rw [plainCovered_right, plainCovered_right, ← h.place]
    exact .next (h.moved (h.cover _).cells (Tape.lt_size_cover ..) (Tape.lt_size_cover ..))
  | left n =>
    have hinside := h.onTape.place_lt
    have hinside' := h.onTape'.place_lt
    simp only [Machine.plainCovered, plain, ← h.place] at hinside' ⊢
    by_cases hlt : m.place < n.toNat
    · simp only [if_pos hlt]
      exact .fault h
    · simp only [if_neg hlt]
      exact .next (h.moved h.cells (by omega) (by omega))
  | add n slot =>
    simp only [Machine.plainCovered, plain, h.cell, h.factor]
    exact .next (h.store _).advance
  | sub n slot =>
    simp only [Machine.plainCovered, plain, h.cell, h.factor]
    exact .next (h.store _).advance
  | output => exact .output h.advance
  | input => exact .input h.advance
  | loopStart behind =>
    simp only [Machine.plainCovered, plain, h.cell]
    split
    · exact .next (h.goTo behind)
    · exact .next h.advance
  | loopEnd start => exact .next (h.goTo start)
  | scanRight n =>
    rw [plainCovered_scanRight, plainCovered_scanRight, ← h.place, ← Tape.scanRight_congr h.cells]
    exact .next (h.moved (h.cover _).cells (Tape.lt_size_cover ..) (Tape.lt_size_cover ..))
  | scanLeft n =>
    have hinside := h.onTape.place_lt
    have hinside' := h.onTape'.place_lt
    simp only [Machine.plainCovered, plain, ← h.place, ← Tape.scanLeft?_congr h.cells] at hinside' ⊢
    cases htarget : m.tape.scanLeft? n.toNat m.place with
    | none => exact .fault h
    | some target =>
      have hle := m.tape.scanLeft?_le n.toNat m.place htarget
      exact .next (h.moved h.cells (by omega) (by omega))
  | clear => exact .next (h.store 0).advance
  | scale stop slot =>
    simp only [Machine.plainCovered, plain, h.cell]
    by_cases hzero : m'.cell = 0
    · simp only [if_pos hzero]
      exact .next (h.goTo stop)
    · simp only [if_neg hzero]
      exact .next ⟨congrArg (· + 1) h.pc, h.pointer, h.cells,
        congrArg (·.setIfInBounds slot m'.cell) h.scales, h.onTape.elsewhere _ _,
        h.onTape'.elsewhere _ _⟩
  | unscale => exact .next (h.store 0).advance
  | carryRight n =>
    rw [plainCovered_carryRight, plainCovered_carryRight, ← h.place]
    have hcovered := h.cover (m.place + n.toNat)
    exact .next (hcovered.carryTo (Tape.lt_size_cover ..) (Tape.lt_size_cover ..)).advance
  | carryLeft n =>
    have hinside := h.onTape.place_lt
    have hinside' := h.onTape'.place_lt
    simp only [Machine.plainCovered, plain, h.cell, ← h.place] at hinside' ⊢
    by_cases hzero : m'.cell = 0
    · simp only [if_pos hzero]
      exact .next h.advance
    · simp only [if_neg hzero]
      by_cases hlt : m.place < n.toNat
      · simp only [if_pos hlt]
        exact .fault h
      · simp only [if_neg hlt]
        exact .next (h.carryTo (by omega) (by omega)).advance

end Machine.Alike

/-! ## Instructions that are carried out -/

variable {exec : Instr → Machine → Effect} {p : FlatCode} {x y : Execution} {r : Result}

/-- How often the tape grows before the next instruction is carried out, as the effects of instructions
are. -/
def Execution.growths (exec : Instr → Machine → Effect) (p : FlatCode) (x : Execution) : Nat :=
  match (p.code[x.machine.pc]?).map (exec · x.machine) with
  | some (.grow _ _) => 1
  | _ => 0

/-- Carries out the next plain instruction, after the growth that it asks for. -/
def Execution.smooth (p : FlatCode) (x : Execution) : Advance Execution Outcome :=
  match p.code[x.machine.pc]? with
  | none => .final (.finished (result x.machine x.unread x.written x.steps none))
  | some i => x.meet (x.steps + x.growths Machine.plain p + 1) (x.machine.plainCovered i)

namespace Execution

theorem growths_of_end (h : p.code[x.machine.pc]? = none) : x.growths exec p = 0 := by
  rw [growths, h, Option.map_none]

theorem growths_of_fetch {i : Instr} (h : p.code[x.machine.pc]? = some i) :
    x.growths exec p =
      match exec i x.machine with
      | .grow _ _ => 1
      | _ => 0 := by
  simp only [growths, h, Option.map_some]
  cases exec i x.machine <;> rfl

theorem IsPlain.growths_eq (h : x.IsPlain p) :
    x.growths Machine.exec p = x.growths Machine.plain p := by
  cases hfetch : p.code[x.machine.pc]? with
  | none => rw [growths_of_end hfetch, growths_of_end hfetch]
  | some i => rw [growths_of_fetch hfetch, growths_of_fetch hfetch, h i hfetch]

theorem smooth_of_end (h : p.code[x.machine.pc]? = none) :
    x.smooth p = .final (.finished (result x.machine x.unread x.written x.steps none)) := by
  rw [smooth, h]

theorem smooth_of_fetch {i : Instr} (h : p.code[x.machine.pc]? = some i) :
    x.smooth p =
      x.meet (x.steps + x.growths Machine.plain p + 1) (x.machine.plainCovered i) := by
  rw [smooth, h]

/-- Either the instruction is carried out at once, or the tape grows and it is carried out then. -/
theorem smooth_cases (p : FlatCode) (x : Execution) :
    (x.growths Machine.plain p = 0 ∧ x.smooth p = x.plain p) ∨
    (x.growths Machine.plain p = 1 ∧ ∃ y, x.plain p = .next y ∧ y.steps = x.steps + 1 ∧
      y.growths Machine.plain p = 0 ∧ x.smooth p = y.plain p) := by
  cases hfetch : p.code[x.machine.pc]? with
  | none =>
    exact Or.inl ⟨growths_of_end hfetch, (smooth_of_end hfetch).trans (stepBy_of_end hfetch).symm⟩
  | some i =>
    rw [smooth_of_fetch hfetch, plain, stepBy_of_fetch hfetch, growths_of_fetch hfetch,
      Machine.plainCovered]
    cases hexec : x.machine.plain i with
    | next m | output m | input m | fault m | astray index m => exact Or.inl ⟨rfl, rfl⟩
    | grow needed m =>
      obtain ⟨hpc, m', hagain⟩ := Machine.plain_of_grow hexec
      have hfetch' : p.code[m.pc]? = some i := hpc ▸ hfetch
      refine Or.inr ⟨rfl, _, rfl, rfl, ?_, ?_⟩
      · rw [growths_of_fetch (x := ⟨{ m with tape := m.tape.grow needed }, _, _, _⟩) hfetch', hagain]
      · rw [stepBy_of_fetch (x := ⟨{ m with tape := m.tape.grow needed }, _, _, _⟩) hfetch']
        simp only [hagain, meet]

/-- An execution that is ready is so still when the tape has grown: the index that the instruction
computes is the same. -/
theorem Ready.of_growth (h : x.Ready p) (hgrowths : x.growths Machine.plain p = 1)
    (hstep : x.plain p = .next y) : y.Ready p ∧ y.machine.pc = x.machine.pc := by
  have hontape := onTape_of_plain h.onTape hstep
  cases hfetch : p.code[x.machine.pc]? with
  | none =>
    rw [growths_of_end hfetch] at hgrowths
    cases hgrowths
  | some i =>
    have hword := fun target => h.words i target hfetch
    rw [plain, stepBy_of_fetch hfetch] at hstep
    rw [growths_of_fetch hfetch] at hgrowths
    cases hexec : x.machine.plain i with
    | next m | output m | input m | fault m | astray index m =>
      rw [hexec] at hgrowths
      cases hgrowths
    | grow needed m =>
      have hpc : m.pc = x.machine.pc := (Machine.plain_of_grow hexec).1
      have hdistance := h.distance i hfetch
      rw [hexec, meet] at hstep
      obtain rfl := Advance.next.inj hstep
      refine ⟨⟨hontape, fun j hj => ?_, fun j target hj htarget => ?_⟩, hpc⟩
      · dsimp only at hj
        rw [hpc, hfetch] at hj
        rwa [← Option.some.inj hj]
      · dsimp only at hj htarget
        rw [hpc, hfetch] at hj
        obtain rfl := Option.some.inj hj
        obtain ⟨hshort, ⟨n, rfl, rfl, rfl⟩ | ⟨n, rfl, rfl, rfl⟩ | ⟨n, rfl, rfl, rfl⟩⟩ :=
          Machine.plain_eq_grow hexec
        · exact (hword target htarget).grow _
        · -- the scan has moved to its target, which is a fresh cell, and stays there
          rw [Machine.goal?, Machine.place_mk, Option.some.injEq] at htarget
          have hfresh := Tape.get_eq_zero_of_size_le hshort
          rw [Tape.scanRight_eq_self ((Tape.get_grow ..).trans hfresh)] at htarget
          exact htarget ▸ (hword _ rfl).grow _
        · exact (hword target htarget).grow _

/-- The same for an execution that is ready: it makes one step, or two of which the first makes the tape
grow. -/
theorem Ready.smooth_cases (h : x.Ready p) :
    (x.growths Machine.exec p = 0 ∧ x.smooth p = x.single p) ∨
    (x.growths Machine.exec p = 1 ∧ ∃ y, x.single p = .next y ∧ y.machine.pc = x.machine.pc ∧
      y.growths Machine.exec p = 0 ∧ x.smooth p = y.single p) := by
  rw [h.isPlain.growths_eq, h.isPlain.single_eq]
  rcases Execution.smooth_cases p x with ⟨hgrowths, hsmooth⟩ | ⟨hgrowths, y, hy, -, hstill, hsmooth⟩
  · exact Or.inl ⟨hgrowths, hsmooth⟩
  · obtain ⟨hready, hpc⟩ := h.of_growth hgrowths hy
    refine Or.inr ⟨hgrowths, y, hy, hpc, ?_, ?_⟩
    · rw [hready.isPlain.growths_eq, hstill]
    · rw [hsmooth, hready.isPlain.single_eq]

theorem Ready.runs_of_smooth (h : x.Ready p) (hsmooth : x.smooth p = .next y) :
    ∃ n, Runs (single p) n x y := by
  rcases h.smooth_cases with ⟨-, hsingle⟩ | ⟨-, z, hz, -, -, hsingle⟩
  · exact ⟨1, .one (hsingle.symm.trans hsmooth)⟩
  · exact ⟨2, .succ hz (.one (hsingle.symm.trans hsmooth))⟩

theorem Ready.ends_of_smooth (h : x.Ready p) {o : Outcome} (hsmooth : x.smooth p = .final o) :
    Ends (single p) x o := by
  rcases h.smooth_cases with ⟨-, hsingle⟩ | ⟨-, z, hz, -, -, hsingle⟩
  · exact ⟨0, x, .zero x, hsingle.symm.trans hsmooth⟩
  · exact ⟨1, z, .one hz, hsingle.symm.trans hsmooth⟩

/-- Executions that differ in the lengths of their tapes and in the steps made so far. -/
structure Alike (x y : Execution) : Prop where
  machine : x.machine.Alike y.machine
  unread : x.unread = y.unread
  written : x.written = y.written

/-- The next instruction is carried out alike. -/
theorem Alike.smooth (h : x.Alike y) :
    (∃ x' y', x.smooth p = .next x' ∧ y.smooth p = .next y' ∧ x'.Alike y') ∨
    ∃ r r', x.smooth p = .final (.finished r) ∧ y.smooth p = .final (.finished r') ∧
      r.ending? = r'.ending? ∧ r.steps - (x.steps + x.growths Machine.plain p) =
        r'.steps - (y.steps + y.growths Machine.plain p) := by
  cases hfetch : p.code[x.machine.pc]? with
  | none =>
    have hfetch' := h.machine.pc ▸ hfetch
    refine Or.inr ⟨_, _, smooth_of_end hfetch, smooth_of_end hfetch', ?_, ?_⟩
    · rw [Result.ending?_of_done h.machine.onTape.pointer_eq,
        Result.ending?_of_done h.machine.onTape'.pointer_eq, h.machine.cells, h.machine.place,
        h.unread, h.written]
    · rw [growths_of_end hfetch, growths_of_end hfetch']
      simp [result]
  | some i =>
    have hfetch' := h.machine.pc ▸ hfetch
    have heffect := h.machine.plainCovered i
    rw [smooth_of_fetch hfetch, smooth_of_fetch hfetch']
    generalize x.machine.plainCovered i = a, y.machine.plainCovered i = b at heffect ⊢
    cases heffect with
    | next hm => exact Or.inl ⟨_, _, rfl, rfl, hm, h.unread, h.written⟩
    | output hm =>
      rw [meet, meet, hm.onTape.place?, hm.onTape'.place?]
      exact Or.inl ⟨_, _, rfl, rfl, hm, h.unread, congrArg₂ Array.push h.written hm.cell⟩
    | input hm =>
      rw [meet, meet, hm.onTape.place?, hm.onTape'.place?]
      refine Or.inl ⟨_, _, rfl, rfl, ?_, congrArg List.tail h.unread, h.written⟩
      rw [h.unread]
      exact hm.store _
    | fault hm =>
      refine Or.inr ⟨_, _, rfl, rfl, ?_, ?_⟩
      · rw [Result.ending?_of_fault hm.onTape.pointer_eq,
          Result.ending?_of_fault hm.onTape'.pointer_eq, hm.cells, hm.place, h.unread, h.written]
      · simp [result]

/-! ## The instructions and the growths of an execution -/

/-- An execution ends with a result after a number of instructions, and the tape grows a number of
times on the way.  An instruction that faults counts; noticing the end of the code does not. -/
inductive Finishes (p : FlatCode) : (instructions growths : Nat) → Execution → Result → Prop where
  | last {x : Execution} {r : Result} (final : x.smooth p = .final (.finished r)) :
      Finishes p (r.steps - (x.steps + x.growths Machine.plain p)) (x.growths Machine.plain p) x r
  | more {n g : Nat} {x y : Execution} {r : Result} (next : x.smooth p = .next y)
      (rest : Finishes p n g y r) : Finishes p (n + 1) (g + x.growths Machine.plain p) x r

namespace Finishes

variable {n g : Nat}

theorem unique {n' g' : Nat} {r' : Result} (h : Finishes p n g x r) (h' : Finishes p n' g' x r') :
    n = n' ∧ g = g' := by
  induction h generalizing n' g' with
  | last final =>
    cases h' with
    | last final' =>
      obtain rfl := Outcome.finished.inj (Advance.final.inj (final.symm.trans final'))
      exact ⟨rfl, rfl⟩
    | more next' _ => exact absurd (final.symm.trans next') (by simp)
  | more next _ ih =>
    cases h' with
    | last final' => exact absurd (next.symm.trans final') (by simp)
    | more next' rest' =>
      obtain rfl := Advance.next.inj (next.symm.trans next')
      obtain ⟨rfl, rfl⟩ := ih rest'
      exact ⟨rfl, rfl⟩

/-- In single steps it is the same result. -/
theorem ends (h : Finishes p n g x r) : Ends (plain p) x (.finished r) := by
  induction h with
  | @last x r final =>
    rcases smooth_cases p x with ⟨-, hsmooth⟩ | ⟨-, y, hy, -, -, hsmooth⟩
    · exact ⟨0, x, .zero x, hsmooth ▸ final⟩
    · exact ⟨1, y, .one hy, hsmooth ▸ final⟩
  | @more n g x z r next _ ih =>
    rcases smooth_cases p x with ⟨-, hsmooth⟩ | ⟨-, y, hy, -, -, hsmooth⟩
    · exact ih.of_runs (.one (hsmooth ▸ next))
    · exact ih.of_runs (.succ hy (.one (hsmooth ▸ next)))

/-- Steps are instructions and growths. -/
theorem steps_eq (h : Finishes p n g x r) : r.steps = x.steps + n + g := by
  induction h with
  | @last x r final =>
    rcases smooth_cases p x with ⟨hgrowths, hsmooth⟩ | ⟨hgrowths, y, -, hsteps, -, hsmooth⟩
    · rcases stepBy_cases Machine.plain p x with ⟨z, hz, -⟩ | ⟨o, ho, hcount⟩
      · exact absurd (final.symm.trans (hsmooth.trans hz)) (by simp)
      · obtain rfl := Advance.final.inj (final.symm.trans (hsmooth.trans ho))
        simp only [Outcome.steps] at hcount
        omega
    · rcases stepBy_cases Machine.plain p y with ⟨z, hz, -⟩ | ⟨o, ho, hcount⟩
      · exact absurd (final.symm.trans (hsmooth.trans hz)) (by simp)
      · obtain rfl := Advance.final.inj (final.symm.trans (hsmooth.trans ho))
        simp only [Outcome.steps] at hcount
        omega
  | @more n g x z r next _ ih =>
    rcases smooth_cases p x with ⟨hgrowths, hsmooth⟩ | ⟨hgrowths, y, -, hsteps, -, hsmooth⟩
    · have := steps_of_runs (.one (hsmooth.symm.trans next))
      omega
    · have := steps_of_runs (.one (hsmooth.symm.trans next))
      omega

/-- An execution on a tape that reads alike carries out as many instructions. -/
theorem alike (h : Finishes p n g x r) (hxy : x.Alike y) :
    ∃ g' r', Finishes p n g' y r' ∧ r.ending? = r'.ending? := by
  induction h generalizing y with
  | last final =>
    rcases hxy.smooth (p := p) with ⟨x', y', hx', -, -⟩ | ⟨r, r', hr, hr', hending, hcount⟩
    · exact absurd (final.symm.trans hx') (by simp)
    · obtain rfl := Outcome.finished.inj (Advance.final.inj (final.symm.trans hr))
      have hlast := Finishes.last hr'
      rw [← hcount] at hlast
      exact ⟨_, r', hlast, hending⟩
  | more next _ ih =>
    rcases hxy.smooth (p := p) with ⟨x', y', hx', hy', halike⟩ | ⟨r, r', hr, -, -, -⟩
    · obtain rfl := Advance.next.inj (next.symm.trans hx')
      obtain ⟨g', r', hr', hending⟩ := ih halike
      exact ⟨_, r', .more hy' hr', hending⟩
    · exact absurd (next.symm.trans hr) (by simp)

/-- A single step that ends the execution. -/
theorem of_final (hfinal : x.plain p = .final (.finished r)) : ∃ n, Finishes p n 0 x r := by
  rcases smooth_cases p x with ⟨hgrowths, hsmooth⟩ | ⟨-, y, hy, -⟩
  · have hlast := last (hsmooth.trans hfinal)
    rw [hgrowths] at hlast
    exact ⟨_, hlast⟩
  · exact absurd (hfinal.symm.trans hy) (by simp)

/-- A single step in front that is no growth. -/
theorem of_step (h : Finishes p n g y r) (hgrowths : x.growths Machine.plain p = 0)
    (hxy : x.plain p = .next y) : Finishes p (n + 1) g x r := by
  rcases smooth_cases p x with ⟨-, hsmooth⟩ | ⟨hgrowths', -⟩
  · have hmore := more (hsmooth.trans hxy) h
    rwa [hgrowths] at hmore
  · omega

/-- A single step in front that is a growth: it belongs to the instruction that comes next. -/
theorem of_growth (h : Finishes p n g y r) (hgrowths : x.growths Machine.plain p = 1)
    (hxy : x.plain p = .next y) : Finishes p n (g + 1) x r := by
  rcases smooth_cases p x with ⟨hgrowths', -⟩ | ⟨-, y', hy', hsteps, hstill, hsmooth⟩
  · omega
  · obtain rfl := Advance.next.inj (hxy.symm.trans hy')
    have hsame : x.smooth p = y.smooth p := by
      rcases smooth_cases p y with ⟨-, hy⟩ | ⟨hgrowths', -⟩
      · exact hsmooth.trans hy.symm
      · omega
    cases h with
    | last final =>
      have hlast := last (hsame.trans final)
      rw [hgrowths, ← hsteps] at hlast
      rwa [hstill]
    | more next rest =>
      have hmore := more (hsame.trans next) rest
      rw [hgrowths] at hmore
      rwa [hstill]

end Finishes

/-! ## Growth as the batches report it -/

end Execution

/-- The growths that a stop stands for. -/
def Stop.growths : Stop → Nat
  | grow _ => 1
  | _ => 0

namespace Execution

/-- How many of the batches of an execution, in so many turns, stopped for the tape to grow. -/
def growthStops (p : FlatCode) (limits : Limits) (turns : Nat) (x : Execution) : Nat :=
  (x.trace p limits #[] turns).toList.foldr (fun entry count => count + entry.stop.growths) 0

/-- Entries that have been made already stay in front. -/
theorem trace_eq_append (p : FlatCode) (limits : Limits) (seen : Array TraceEntry) (turns : Nat)
    (x : Execution) : x.trace p limits seen turns = seen ++ x.trace p limits #[] turns := by
  induction turns generalizing seen x with
  | zero => simp [trace]
  | succ turns ih =>
    rw [trace, trace]
    cases x.turn p limits with
    | ended o => simp
    | next y =>
      dsimp only
      rw [ih, ih (#[].push _)]
      simp

theorem growthStops_succ (p : FlatCode) (limits : Limits) (turns : Nat) (x : Execution) :
    x.growthStops p limits (turns + 1) =
      (match x.turn p limits with
        | .ended _ => 0
        | .next y => y.growthStops p limits turns) + (x.batch p limits).stop.growths := by
  rw [growthStops, trace]
  cases x.turn p limits with
  | ended o => simp [Report.traceEntry]
  | next y =>
    dsimp only
    rw [trace_eq_append]
    simp [growthStops, Report.traceEntry]

/-- What remains after a turn ends with a result, and the tape grows a number of times. -/
inductive TurnFinishes (p : FlatCode) : (growths : Nat) → Turn → Result → Prop where
  | ended (r : Result) : TurnFinishes p 0 (.ended (.finished r)) r
  | next {n g : Nat} {y : Execution} {r : Result} (rest : Finishes p n g y r) :
      TurnFinishes p g (.next y) r

/-- A batch stops at its first growth, so it has as many growths as its stop says. -/
theorem finishes_of_runFor (batch budget : Nat) (m : Machine) (unread : List UInt8)
    (written : Array UInt8) (before made : Nat) {g : Nat}
    (hplain : KeepsPlain p ⟨m, unread, written, before + made⟩)
    (h : TurnFinishes p g (react ⟨none, batch⟩ unread written
      (before + (m.runFor p.code made budget).steps) (m.runFor p.code made budget).machine
      (m.runFor p.code made budget).stop) r) :
    ∃ n, Finishes p n (g + (m.runFor p.code made budget).stop.growths)
      ⟨m, unread, written, before + made⟩ r := by
  induction budget generalizing m made with
  | zero =>
    rw [Machine.runFor] at h ⊢
    split at h
    case isTrue hpc =>
      rw [if_pos hpc]
      cases h with
      | next rest => exact ⟨_, rest⟩
    case isFalse hpc =>
      rw [if_neg hpc]
      cases h
      exact Finishes.of_final (stepBy_of_end (Array.getElem?_eq_none (Nat.le_of_not_lt hpc)))
  | succ budget ih =>
    rw [Machine.runFor] at h ⊢
    cases hfetch : p.code[m.pc]? with
    | none =>
      rw [hfetch] at h
      cases h
      exact Finishes.of_final (stepBy_of_end hfetch)
    | some i =>
      have hexec : m.exec i = m.plain i := hplain.isPlain i hfetch
      have hsingle : stepBy Machine.plain p ⟨m, unread, written, before + made⟩ = _ :=
        stepBy_of_fetch hfetch
      have hgrowths : growths Machine.plain p ⟨m, unread, written, before + made⟩ = _ :=
        growths_of_fetch hfetch
      rw [hfetch] at h
      dsimp only at h hsingle hgrowths ⊢
      rw [hexec] at h ⊢
      cases heffect : m.plain i with
      | next m' =>
        rw [heffect] at h hsingle hgrowths
        have hnext := hplain.of_runs (.one (hplain.isPlain.single_eq.trans hsingle))
        obtain ⟨n, hn⟩ := ih m' (made + 1) hnext h
        exact ⟨_, hn.of_step hgrowths hsingle⟩
      | output m' | input m' =>
        rw [heffect] at h hsingle hgrowths
        simp only [meet] at hsingle
        simp only [react] at h
        cases hplace : m'.tape.place? m'.pointer with
        | some here =>
          rw [hplace] at h hsingle
          cases h with
          | next rest => exact ⟨_, rest.of_step hgrowths hsingle⟩
        | none =>
          rw [hplace] at h
          cases h
      | grow needed m' =>
        rw [heffect] at h hsingle hgrowths
        cases h with
        | next rest => exact ⟨_, rest.of_growth hgrowths hsingle⟩
      | fault m' =>
        rw [heffect] at h hsingle
        cases h
        exact Finishes.of_final hsingle
      | astray index m' =>
        rw [heffect] at h
        cases h

theorem finishes_of_turn {batch g : Nat} (hplain : x.KeepsPlain p)
    (h : TurnFinishes p g (x.turn p ⟨none, batch⟩) r) :
    ∃ n, Finishes p n (g + (x.batch p ⟨none, batch⟩).stop.growths) x r := by
  obtain ⟨m, unread, written, steps⟩ := x
  exact finishes_of_runFor batch batch m unread written steps 0 hplain h

/-- The growths of a plain execution that ends are the stops that its batches report. -/
theorem finishes_of_run {batch turns : Nat} (hbatch : 0 < batch) (hplain : x.KeepsPlain p)
    (h : Execution.run p ⟨none, batch⟩ turns x = some (.finished r)) :
    ∃ n, Finishes p n (x.growthStops p ⟨none, batch⟩ turns) x r := by
  induction turns generalizing x with
  | zero => cases h
  | succ turns ih =>
    rw [Execution.run] at h
    rw [growthStops_succ]
    rcases turn_cases (p := p) hbatch x with ⟨o, ho, -⟩ | ⟨n, y, hy, hruns⟩
    · rw [ho] at h
      obtain rfl := Option.some.inj h
      refine finishes_of_turn hplain ?_
      rw [ho]
      exact .ended r
    · rw [hy] at h
      obtain ⟨n, hn⟩ := ih (hplain.of_runs hruns) h
      refine finishes_of_turn hplain ?_
      rw [hy]
      exact .next hn

end Execution

/-! ## Whole executions -/

/-- The execution of a program without limit finishes with a result, and the tape grows a number of
times on the way. -/
def FlatCode.YieldsGrowing (p : FlatCode) (tape : Tape) (index : Int) (input : List UInt8)
    (r : Result) (growths : Nat) : Prop :=
  ∃ turns, Execution.run p .unlimited turns (p.start tape index input) = some (.finished r) ∧
    (p.start tape index input).growthStops p .unlimited turns = growths

namespace FlatCode

variable {tape tape' : Tape} {index : Nat} {input : List UInt8}

theorem yields_iff_exists_growing :
    p.Yields tape index input r ↔ ∃ g, p.YieldsGrowing tape index input r g :=
  ⟨fun ⟨turns, hrun⟩ => ⟨_, turns, hrun, rfl⟩, fun ⟨_, turns, hrun, _⟩ => ⟨turns, hrun⟩⟩

theorem yieldsGrowing_iff {g : Nat} (hplain : (p.start tape index input).KeepsPlain p) :
    p.YieldsGrowing tape index input r g ↔ ∃ n, Finishes p n g (p.start tape index input) r := by
  constructor
  · rintro ⟨turns, hrun, rfl⟩
    exact finishes_of_run unlimited_batch_pos hplain hrun
  · rintro ⟨n, hn⟩
    obtain ⟨turns, hrun⟩ := yields_iff_ends.mpr (hplain.ends_iff.mpr hn.ends)
    obtain ⟨n', hn'⟩ := finishes_of_run unlimited_batch_pos hplain hrun
    exact ⟨turns, hrun, (hn'.unique hn).2⟩

/-- Executions begin alike on tapes that read alike. -/
theorem alike_start (h : tape.get = tape'.get) :
    (p.start tape index input).Alike (p.start tape' index input) where
  machine := by
    refine ⟨rfl, rfl, ?_, rfl, onTape_start .., onTape_start ..⟩
    rw [tape_start, tape_start]
    funext j
    rw [Tape.get_cover, Tape.get_cover, h]
  unread := rfl
  written := rfl

/-- One half of what follows: an execution that ends has its like on a tape that reads alike. -/
theorem YieldsGrowing.alike {g : Nat} (h : p.YieldsGrowing tape index input r g)
    (hplain : (p.start tape index input).KeepsPlain p)
    (hplain' : (p.start tape' index input).KeepsPlain p) (htape : tape.get = tape'.get) :
    ∃ r' g', p.YieldsGrowing tape' index input r' g' ∧ r'.ending? = r.ending? ∧
      r'.steps + g = r.steps + g' := by
  obtain ⟨n, hn⟩ := (yieldsGrowing_iff hplain).mp h
  obtain ⟨g', r', hn', hending⟩ := hn.alike (alike_start htape)
  refine ⟨r', g', (yieldsGrowing_iff hplain').mpr ⟨n, hn'⟩, hending.symm, ?_⟩
  have hsteps := hn.steps_eq
  have hsteps' := hn'.steps_eq
  simp only [start] at hsteps hsteps'
  omega

/-- An execution that keeps to words and does not end with a result never stops. -/
theorem KeepsToWords.neverStops_iff_not_yields (h : p.KeepsToWords tape index input)
    (hp : p.HasSoundDistances) :
    p.NeverStops tape index input ↔ ∀ r, ¬ p.Yields tape index input r := by
  rw [neverStops_iff_forever, forever_iff_not_ends]
  constructor
  · intro hnever r hr
    exact hnever _ (yields_iff_ends.mp hr)
  · intro hnever o ho
    obtain ⟨r, rfl, -⟩ := h.exists_result hp (comesTo_iff_ends.mpr ho)
    exact hnever r (yields_iff_ends.mpr ho)

/-- **Growth of the tape does not show.**  Let the amounts in a program be sound, and let its executions
on a tape and on the same tape followed by zero cells keep to words.  Then it ends in the same way on
both, with the same output, index, exit status and zero-padded tape, and the number of steps that are no
growths is the same; and it never stops on the one if it never stops on the other. -/
theorem yieldsGrowing_pad {q : Program} (hp : q.flatten = .ok p)
    (hok : Program.every Node.hasSoundAmount q = true) (tape : Tape) (index : Nat)
    (input : List UInt8) (k : Nat) (hwords : p.KeepsToWords tape index input)
    (hwords' : p.KeepsToWords (tape.pad k) index input) :
    (∀ e n, (∃ r g, p.YieldsGrowing tape index input r g ∧ r.ending? = some e ∧ r.steps = n + g) ↔
      ∃ r g, p.YieldsGrowing (tape.pad k) index input r g ∧ r.ending? = some e ∧
        r.steps = n + g) ∧
    (p.NeverStops tape index input ↔ p.NeverStops (tape.pad k) index input) := by
  have hdistances := Program.hasSoundDistances_of_flatten hp
    (Program.every_mono Node.hasSoundDistance_of_hasSoundAmount q hok)
  have hplain := hwords.keepsPlain hdistances
  have hplain' := hwords'.keepsPlain hdistances
  have hpad : tape.get = (tape.pad k).get := funext fun i => (Tape.get_pad tape k i).symm
  refine ⟨fun e n => ⟨?_, ?_⟩, ?_⟩
  · rintro ⟨r, g, hr, hending, hsteps⟩
    obtain ⟨r', g', hr', hending', hcount⟩ := hr.alike hplain hplain' hpad
    exact ⟨r', g', hr', hending'.trans hending, by omega⟩
  · rintro ⟨r, g, hr, hending, hsteps⟩
    obtain ⟨r', g', hr', hending', hcount⟩ := hr.alike hplain' hplain hpad.symm
    exact ⟨r', g', hr', hending'.trans hending, by omega⟩
  · rw [hwords.neverStops_iff_not_yields hdistances, hwords'.neverStops_iff_not_yields hdistances]
    simp only [yields_iff_exists_growing, not_exists]
    constructor
    · intro hnever r g hr
      obtain ⟨r', g', hr', -⟩ := hr.alike hplain' hplain hpad.symm
      exact hnever r' g' hr'
    · intro hnever r g hr
      obtain ⟨r', g', hr', -⟩ := hr.alike hplain hplain' hpad
      exact hnever r' g' hr'

/-- Scaled bodies on one cell, where the tape has to grow, and on that cell followed by five more. -/
theorem yieldsGrowing_pad_nested :
    ∃ p, nestedScales.flatten = .ok p ∧
      ∀ e n, (∃ r g, p.YieldsGrowing (.blank 1) 0 [] r g ∧ r.ending? = some e ∧ r.steps = n + g) ↔
        ∃ r g, p.YieldsGrowing ((Tape.blank 1).pad 5) 0 [] r g ∧ r.ending? = some e ∧
          r.steps = n + g := by
  obtain ⟨p, hp, hwords⟩ : ∃ p, nestedScales.flatten = .ok p ∧
      ∀ tape, p.KeepsToWords tape 0 [] :=
    ⟨_, rfl, fun tape => keepsToWords_of_argument_le (by decide) (by decide) tape 0 []⟩
  exact ⟨p, hp, (yieldsGrowing_pad hp rfl (.blank 1) 0 [] 5 (hwords _) (hwords _)).1⟩

/-- Moves to the right whose sum is no word, and a change.  The index comes out negative and counts from
the end of the tape, so a tape with one more cell is changed elsewhere. -/
theorem yields_pad_beyond_words :
    ∃ q p r r', q = [.moveRight 1, .moveRight (2 ^ 63 - 1), .moveRight (2 ^ 63 - 1), .increment 1] ∧
      Program.every Node.hasSoundAmount q = true ∧ Program.flatten q = .ok p ∧
      p.Yields (.blank 2) 0 [] r ∧ r.tape.get 1 = 1 ∧
      p.Yields ((Tape.blank 2).pad 1) 0 [] r' ∧ r'.tape.get 1 = 0 :=
  ⟨_, _, ⟨#[], [], ⟨#[0, 1]⟩, -1, 4, none⟩, ⟨#[], [], ⟨#[0, 0, 1]⟩, -1, 4, none⟩, rfl, rfl, rfl,
    ⟨1, by decide +kernel⟩, rfl, ⟨1, by decide +kernel⟩, rfl⟩

end FlatCode

end Brainfuck
