import Brainfuck.Proofs.Accesses
import Brainfuck.Proofs.Visits
import Mathlib.Data.List.Perm.Subperm

/-!
# Programs without loops

A program without loops always stops.  The only jump that is left in its code is the one over a scaled
body, and that one leads forward.  So every instruction that is carried out brings the execution to a
higher address, and there are at most as many of them as the code is long.

What is no progress in this sense is growth of the tape: the instruction stays where it is and is
started again.  But it does not ask for more tape a second time.  An execution that is about to grow
counts as half a step behind one that is not, at the same address; with that, `Execution.stage`, every
single step is progress, and no address sees the tape grow twice.

* `LeadsForward`, `Program.leadsForward_of_code`: the jumps of a program without loops.
* `Execution.stage`, `Execution.stage_lt_of_single`: the progress of a single step.
* `Execution.exists_finishes`: an execution of such code ends, and how many instructions it takes.
* `Execution.growthPlaces`: where the batches of an execution stop for the tape to grow.
* `Program.loop_free_stops`: programs without loops stop, within twice the length of their code.
-/

namespace Brainfuck

open Execution

/-- Whether a node is an instruction other than a loop whose amount is not negative, and not zero if
it is the step of a scan. -/
def Node.isStraight : Node → Bool
  | .loop _ => false
  | n => n.hasSoundAmount

theorem Node.hasSoundDistance_of_isStraight (n : Node) (h : n.isStraight = true) :
    n.hasSoundDistance = true := by
  cases n with
  | loop _ => cases h
  | _ => exact hasSoundDistance_of_hasSoundAmount _ h

theorem Node.hasNaturalAmount_of_isStraight (n : Node) (h : n.isStraight = true) :
    n.hasNaturalAmount = true := by
  cases n with
  | loop _ | foreign _ | derived _ _ => cases h
  | scanRight step | scanLeft step =>
    have hstep : 1 ≤ step := of_decide_eq_true h
    exact decide_eq_true (by omega)
  | _ => exact h

/-! ## Jumps -/

/-- The jumps in a list of instructions that stands at an address lead forward, at most to the address
behind the list. -/
def LeadsForward (address : Nat) (block : List Instr) : Prop :=
  ∀ k i target, block[k]? = some i → Instr.target? i = some target →
    address + k < target ∧ target ≤ address + block.length

namespace LeadsForward

variable {address : Nat} {i : Instr} {block block' : List Instr}

theorem nil : LeadsForward address [] := by
  intro k i target hi
  cases hi

theorem cons (hi : ∀ target, i.target? = some target →
      address < target ∧ target ≤ address + (block.length + 1))
    (h : LeadsForward (address + 1) block) : LeadsForward address (i :: block) := by
  intro k j target hj htarget
  rw [List.length_cons]
  cases k with
  | zero =>
    obtain rfl := Option.some.inj hj
    exact hi target htarget
  | succ k =>
    have := h k j target hj htarget
    omega

theorem append (h : LeadsForward address block)
    (h' : LeadsForward (address + block.length) block') : LeadsForward address (block ++ block') := by
  intro k j target hj htarget
  rw [List.length_append]
  rcases Nat.lt_or_ge k block.length with hk | hk
  · rw [List.getElem?_append_left hk] at hj
    have := h k j target hj htarget
    omega
  · rw [List.getElem?_append_right hk] at hj
    have := h' _ j target hj htarget
    omega

theorem single (hi : i.target? = none) : LeadsForward address [i] :=
  cons (fun target htarget => by rw [hi] at htarget; cases htarget) nil

end LeadsForward

mutual

theorem Node.leadsForward_of_code : (n : Node) → ∀ {address depth slot block},
    n.code address depth slot = .ok block → n.every Node.isStraight = true →
    LeadsForward address block
  | .moveRight _, _, _, _, _, rfl, _ | .moveLeft _, _, _, _, _, rfl, _
  | .increment _, _, _, _, _, rfl, _ | .decrement _, _, _, _, _, rfl, _ | .output, _, _, _, _, rfl, _
  | .input, _, _, _, _, rfl, _ | .scanRight _, _, _, _, _, rfl, _ | .scanLeft _, _, _, _, _, rfl, _
  | .clear, _, _, _, _, rfl, _ | .carryRight _, _, _, _, _, rfl, _
  | .carryLeft _, _, _, _, _, rfl, _ => .single rfl
  | .scaled body, address, _, _, _, hblock, hok => by
    obtain ⟨inner, hinner, rfl⟩ := Node.code_scaled hblock
    rw [Node.every, Bool.and_eq_true] at hok
    refine .cons (fun target htarget => ?_)
      (.append (Program.leadsForward_of_code body hinner hok.2) (.single rfl))
    obtain rfl := Option.some.inj htarget
    rw [List.append_eq, List.length_append, List.length_singleton]
    omega
  | .loop _, _, _, _, _, _, hok => by
    rw [Node.every, Bool.and_eq_true] at hok
    cases hok.1
  | .foreign _, _, _, _, _, _, hok | .derived _ _, _, _, _, _, _, hok => by cases hok

/-- The code of a sequence without loops has no jump back. -/
theorem Program.leadsForward_of_code : (q : List Node) → ∀ {address depth slot block},
    Program.code address depth slot q = .ok block → Program.every Node.isStraight q = true →
    LeadsForward address block
  | [], _, _, _, _, rfl, _ => .nil
  | n :: q, _, _, _, _, hblock, hok => by
    obtain ⟨first, rest, hfirst, hrest, rfl⟩ := Program.code_cons hblock
    rw [Program.every, Bool.and_eq_true] at hok
    exact .append (Node.leadsForward_of_code n hfirst hok.1)
      (Program.leadsForward_of_code q hrest hok.2)

end

/-! ## Progress -/

/-- Unless it is a growth, a fault or an access to no cell, which leave the address as it is, an effect
leads to an address of a certain kind. -/
def Effect.LeadsTo (pc : Nat) (place : Nat → Prop) : Effect → Prop
  | .next m | .output m | .input m => place m.pc
  | .grow _ m | .fault m | .astray _ m => m.pc = pc

/-- A scan with a step that is a word goes on to another cell.  Only a multiple of `2 ^ 64` would not. -/
theorem Tape.wrap_add_ne {t : Tape} {step : Int} (hstep : 1 ≤ step) (hword : step < 2 ^ 63) (i : Int) :
    t.wrap (i + step) ≠ i ∧ t.wrap (i - step) ≠ i := by
  constructor
  · rcases t.wrap_cases (i + step) with ⟨-, -, -, k, hk⟩ | ⟨-, hwrap⟩ <;> omega
  · rcases t.wrap_cases (i - step) with ⟨-, -, -, k, hk⟩ | ⟨-, hwrap⟩ <;> omega

theorem Tape.seekRight_ne_endless {t : Tape} {step : Int} (hstep : 1 ≤ step) (hword : step < 2 ^ 63)
    (i : Int) : t.seekRight step i ≠ .endless := by
  fun_induction t.seekRight step i with
  | case1 | case2 | case3 | case4 => exact Scan.noConfusion
  | case5 i here hi hgo hin next hnext hsame =>
    exact absurd hsame (t.wrap_add_ne hstep hword i).1
  | case6 i here hi hgo hin next hnext hne ih => exact ih

theorem Tape.seekLeft_ne_endless {t : Tape} {step : Int} (hstep : 1 ≤ step) (hword : step < 2 ^ 63)
    (i : Int) : t.seekLeft step i ≠ .endless := by
  fun_induction t.seekLeft step i with
  | case1 | case2 | case3 | case4 => exact Scan.noConfusion
  | case5 i here hi hgo hin next hnext hsame =>
    exact absurd hsame (t.wrap_add_ne hstep hword i).2
  | case6 i here hi hgo hin next hnext hne ih => exact ih

/-- A scan to the left does not get past the end of the tape. -/
theorem Tape.seekLeft_ne_past (t : Tape) (step i index : Int) : t.seekLeft step i ≠ .past index := by
  fun_induction t.seekLeft step i with
  | case1 | case2 | case3 | case4 | case5 => exact Scan.noConfusion
  | case6 i here hi hgo hin next hnext hne ih => exact ih

namespace Machine

variable {m : Machine} {place : Nat → Prop}

theorem touch_leadsTo {index : Int} {act : Nat → Effect} (hact : ∀ k, (act k).LeadsTo m.pc place) :
    (m.touch index act).LeadsTo m.pc place := by
  rw [touch]
  split
  case h_1 k _ => exact hact k
  case h_2 => rfl

theorem land_leadsTo {scan : Scan} (hscan : scan ≠ .endless) (hplace : place (m.pc + 1)) :
    (m.land scan).LeadsTo m.pc place := by
  cases scan with
  | found index => exact hplace
  | past index | before | astray index => rfl
  | endless => exact absurd rfl hscan

/-- An instruction leads to the next address, or to the one that it names. -/
theorem exec_leadsTo {i : Instr} (hi : i.hasSoundDistance = true) (hfits : i.fits = true)
    (m : Machine) : (m.exec i).LeadsTo m.pc fun pc => pc = m.pc + 1 ∨ i.target? = some pc := by
  have hword := (Instr.fits_iff.mp hfits).2
  cases i with
  | output | input => exact Or.inl rfl
  | add | sub | clear | unscale => exact touch_leadsTo fun _ => Or.inl rfl
  | loopEnd start => exact Or.inr rfl
  | loopStart behind =>
    refine touch_leadsTo fun here => ?_
    by_cases hzero : m.tape.get here = 0
    · rw [if_pos hzero]
      exact Or.inr rfl
    · rw [if_neg hzero]
      exact Or.inl rfl
  | scale stop slot =>
    refine touch_leadsTo fun here => ?_
    dsimp only
    split
    · exact Or.inr rfl
    · exact Or.inl rfl
  | right n =>
    simp only [exec]
    split
    · exact Or.inl rfl
    · rfl
  | left n =>
    simp only [exec]
    split
    · rfl
    · exact Or.inl rfl
  | scanRight n =>
    exact land_leadsTo (Tape.seekRight_ne_endless (of_decide_eq_true hi) hword _) (Or.inl rfl)
  | scanLeft n =>
    exact land_leadsTo (Tape.seekLeft_ne_endless (of_decide_eq_true hi) hword _) (Or.inl rfl)
  | carryRight n =>
    simp only [exec]
    split
    · exact touch_leadsTo fun _ => touch_leadsTo fun _ => Or.inl rfl
    · rfl
  | carryLeft n =>
    refine touch_leadsTo fun here => ?_
    split
    · exact Or.inl rfl
    · split
      · rfl
      · exact touch_leadsTo fun _ => Or.inl rfl

/-! ## Growth at an address -/

/-- When the tape has grown for an index, a move to that index is on it. -/
theorem wrap_lt_size_grow {t : Tape} {pointer n : Int} (hpointer : pointer < t.size)
    (hword : n < 2 ^ 63) (hshort : t.size ≤ t.wrap (pointer + n)) :
    (t.grow (t.wrap (pointer + n)).toNat).wrap (pointer + n) <
      (t.grow (t.wrap (pointer + n)).toNat).size := by
  have hcovered := Tape.lt_size_grow t (t.wrap (pointer + n)).toNat
  generalize ht : t.grow (t.wrap (pointer + n)).toNat = grown at hcovered ⊢
  rcases t.wrap_cases (pointer + n) with ⟨hsize, hlow, hhigh, k, hk⟩ | ⟨hsize, hwrap⟩
  · rcases grown.wrap_cases (pointer + n) with ⟨hsize', hlow', hhigh', k', hk'⟩ | ⟨-, hwrap'⟩
    · omega
    · omega
  · rcases grown.wrap_cases (pointer + n) with ⟨hsize', -⟩ | ⟨-, hwrap'⟩
    · omega
    · omega

theorem touch_ne_grow {index : Int} {act : Nat → Effect} {needed : Nat} {m' : Machine}
    (hact : ∀ k, act k ≠ .grow needed m') : m.touch index act ≠ .grow needed m' := by
  rw [touch]
  split
  · exact hact _
  · exact Effect.noConfusion

/-- An instruction that has made the tape grow does not do so again. -/
theorem exec_ne_grow_of_grow {i : Instr} (hpointer : m.pointer < m.tape.size)
    (hi : i.hasSoundDistance = true) (hfits : i.fits = true) {needed : Nat} {m' : Machine}
    (h : m.exec i = .grow needed m') (needed' : Nat) (m'' : Machine) :
    exec i { m' with tape := m'.tape.grow needed } ≠ .grow needed' m'' := by
  have hword := (Instr.fits_iff.mp hfits).2
  cases i with
  | right n =>
    simp only [exec] at h ⊢
    split at h
    case isTrue => cases h
    case isFalse hshort =>
      obtain ⟨rfl, rfl⟩ := Effect.grow.inj h
      rw [if_pos (wrap_lt_size_grow (n := n) hpointer hword (Int.not_lt.mp hshort))]
      exact Effect.noConfusion
  | carryRight n =>
    simp only [exec] at h ⊢
    split at h
    case isTrue =>
      exact absurd h (touch_ne_grow fun _ => touch_ne_grow fun _ => Effect.noConfusion)
    case isFalse hshort =>
      obtain ⟨rfl, rfl⟩ := Effect.grow.inj h
      rw [if_pos (wrap_lt_size_grow (n := n) hpointer hword (Int.not_lt.mp hshort))]
      exact touch_ne_grow fun _ => touch_ne_grow fun _ => Effect.noConfusion
  | scanRight n =>
    have hwithin := m.tape.seekRight_within n m.pointer
    rw [exec] at h ⊢
    cases hseek : m.tape.seekRight n m.pointer with
    | past index =>
      rw [hseek] at h hwithin
      obtain ⟨rfl, rfl⟩ := Effect.grow.inj h
      -- the scan is on a fresh cell now
      have hpast : (m.tape.size : Int) ≤ index := hwithin
      obtain ⟨k, rfl⟩ : ∃ k : Nat, index = k := Int.eq_ofNat_of_zero_le (by omega)
      have hzero : (m.tape.grow k).get k = 0 :=
        (Tape.get_grow ..).trans (Tape.get_eq_zero_of_size_le (by omega))
      have hplace := Tape.place?_natCast (Tape.lt_size_grow m.tape k)
      simp only [Int.toNat_natCast]
      rw [Tape.seekRight_of_place hplace, if_pos hzero]
      exact Effect.noConfusion
    | found index | before | astray index | endless =>
      rw [hseek] at h
      cases h
  | scanLeft n =>
    rw [exec] at h
    cases hseek : m.tape.seekLeft n m.pointer with
    | past index => exact absurd hseek (m.tape.seekLeft_ne_past n m.pointer index)
    | found index | before | astray index | endless =>
      rw [hseek] at h
      cases h
  | output | input | loopEnd => cases h
  | left n =>
    simp only [exec] at h
    split at h <;> cases h
  | add | sub | loopStart | clear | unscale =>
    exact absurd h (touch_ne_grow fun _ => Effect.noConfusion)
  | scale =>
    refine absurd h (touch_ne_grow fun _ => ?_)
    dsimp only
    split <;> exact Effect.noConfusion
  | carryLeft =>
    refine absurd h (touch_ne_grow fun _ => ?_)
    split
    · exact Effect.noConfusion
    · split
      · exact Effect.noConfusion
      · exact touch_ne_grow fun _ => Effect.noConfusion

end Machine

/-- Code without jumps back, with amounts that are sound and words. -/
structure FlatCode.Straight (p : FlatCode) : Prop where
  sound : p.Sound
  forward : LeadsForward 0 p.code.toList
  distances : p.HasSoundDistances
  fits : ∀ i ∈ p.code, i.fits = true

namespace Execution

variable {p : FlatCode} {x y : Execution} {o : Outcome}

/-- An instruction of code without jumps back leads to a higher address, at most behind the code. -/
theorem leadsTo_of_fetch (hcode : p.Straight) {i : Instr} {m : Machine}
    (hfetch : p.code[m.pc]? = some i) :
    (m.exec i).LeadsTo m.pc fun pc => m.pc < pc ∧ pc ≤ p.code.size := by
  have hmem := Array.mem_of_getElem? hfetch
  have hlt : m.pc < p.code.size := (Array.getElem?_eq_some_iff.mp hfetch).1
  have hplace : ∀ pc, pc = m.pc + 1 ∨ i.target? = some pc → m.pc < pc ∧ pc ≤ p.code.size := by
    rintro pc (rfl | htarget)
    · exact ⟨Nat.lt_succ_self _, hlt⟩
    · have := hcode.forward m.pc i pc (by rwa [Array.getElem?_toList]) htarget
      rwa [Nat.zero_add, Nat.zero_add, Array.length_toList] at this
  have hpc := m.exec_leadsTo (hcode.distances i hmem) (hcode.fits i hmem)
  cases hexec : m.exec i with
  | next m' | output m' | input m' =>
    rw [hexec] at hpc
    exact hplace _ hpc
  | grow needed m' | fault m' | astray index m' =>
    rw [hexec] at hpc
    exact hpc

/-- How far an execution has come in code without jumps back.  At the same address it is one further
once the tape does not have to grow. -/
def stage (p : FlatCode) (x : Execution) : Nat :=
  2 * x.machine.pc + (1 - x.growths Machine.exec p)

/-- Every step leads on. -/
theorem stage_lt_of_single (hcode : p.Straight) (hx : x.machine.Sound p) (h : x.single p = .next y) :
    x.stage p < y.stage p := by
  unfold stage
  cases hfetch : p.code[x.machine.pc]? with
  | none =>
    rw [single, stepBy_of_end hfetch] at h
    cases h
  | some i =>
    have hleads := leadsTo_of_fetch hcode hfetch
    rw [single, stepBy_of_fetch hfetch] at h
    rw [growths_of_fetch hfetch]
    cases hexec : x.machine.exec i with
    | grow needed m =>
      have hmem := Array.mem_of_getElem? hfetch
      rw [hexec] at hleads h
      obtain rfl := Advance.next.inj h
      have hpc : m.pc = x.machine.pc := hleads
      have hstill : growths Machine.exec p
          ⟨{ m with tape := m.tape.grow needed }, x.unread, x.written, x.steps + 1⟩ = 0 := by
        rw [growths_of_fetch (i := i) (hpc.symm ▸ hfetch)]
        split
        case h_1 needed' m' hagain =>
          exact absurd hagain (Machine.exec_ne_grow_of_grow hx.pointer (hcode.distances i hmem)
            (hcode.fits i hmem) hexec needed' m')
        case h_2 => rfl
      rw [hstill]
      dsimp only
      omega
    | next m =>
      rw [hexec] at hleads h
      obtain rfl := Advance.next.inj h
      have hpc : x.machine.pc < m.pc := hleads.1
      dsimp only
      omega
    | output m | input m =>
      rw [hexec] at hleads h
      have hpc : x.machine.pc < m.pc := hleads.1
      rw [meet] at h
      split at h
      · obtain rfl := Advance.next.inj h
        dsimp only [Machine.put]
        omega
      · cases h
    | fault m | astray index m =>
      rw [hexec] at h
      cases h

theorem stage_le_of_runs (hcode : p.Straight) (hx : x.machine.Sound p) {n : Nat}
    (h : Runs (single p) n x y) : x.stage p ≤ y.stage p := by
  induction h with
  | zero => exact Nat.le_refl _
  | succ first _ ih =>
    exact Nat.le_trans (Nat.le_of_lt (stage_lt_of_single hcode hx first))
      (ih (sound_of_single hx hcode.sound first))

/-- An execution of code without jumps back ends: there is an end to the stages. -/
theorem exists_ends (hcode : p.Straight) (hx : x.machine.Sound p) : ∃ o, Ends (single p) x o := by
  generalize hleft : 2 * p.code.size + 1 - x.stage p = left
  induction left using Nat.strongRecOn generalizing x with
  | ind left ih =>
    cases hstep : x.single p with
    | final o => exact ⟨o, 0, x, .zero x, hstep⟩
    | stuck => exact absurd hstep x.stepBy_ne_stuck
    | next y =>
      have hy := sound_of_single hx hcode.sound hstep
      have hlt := stage_lt_of_single hcode hx hstep
      have hbound : y.stage p ≤ 2 * p.code.size + 1 := by
        have hpc := hy.pc
        unfold stage
        omega
      obtain ⟨o, ho⟩ := ih (2 * p.code.size + 1 - y.stage p) (by omega) hy rfl
      exact ⟨o, ho.of_runs (.one hstep)⟩

end Execution

/-! ## Batches -/

/-- The steps of a batch that have not led on: the last one, if it has made the batch stop for the tape
to grow, for a fault or for an access to no cell. -/
def Stop.idle : Stop → Nat
  | .grow _ | .fault | .astray _ => 1
  | .done | .output | .input | .budget => 0

/-- In code without jumps back a batch has made no more steps than it has gone forward, apart from the
last one. -/
theorem Machine.steps_runFor_le {p : FlatCode} (hcode : p.Straight) (budget : Nat) (m : Machine)
    (made : Nat) (hpc : m.pc ≤ p.code.size) :
    (m.runFor p.code made budget).steps + m.pc ≤ made + (m.runFor p.code made budget).machine.pc +
        (m.runFor p.code made budget).stop.idle ∧
      (m.runFor p.code made budget).machine.pc + (m.runFor p.code made budget).stop.idle ≤
        p.code.size := by
  induction budget generalizing m made with
  | zero =>
    rw [runFor]
    split
    · exact ⟨Nat.le_refl _, hpc⟩
    · exact ⟨Nat.le_refl _, hpc⟩
  | succ budget ih =>
    rw [runFor]
    cases hfetch : p.code[m.pc]? with
    | none => exact ⟨Nat.le_refl _, hpc⟩
    | some i =>
      have hleads := leadsTo_of_fetch hcode hfetch
      have hlt : m.pc < p.code.size := (Array.getElem?_eq_some_iff.mp hfetch).1
      dsimp only
      cases hexec : m.exec i with
      | next m' =>
        rw [hexec] at hleads
        obtain ⟨hforward, hinside⟩ := hleads
        have := ih m' (made + 1) hinside
        dsimp only
        omega
      | output m' | input m' =>
        rw [hexec] at hleads
        obtain ⟨hforward, hinside⟩ := hleads
        dsimp only [Stop.idle]
        omega
      | grow needed m' | fault m' | astray index m' =>
        rw [hexec] at hleads
        have hstays : m'.pc = m.pc := hleads
        dsimp only [Stop.idle]
        omega

/-- The address of the instruction that a batch has stopped at for the tape to grow. -/
def TraceEntry.growthPlace? (entry : TraceEntry) : Option Nat :=
  match entry.stop with
  | .grow _ => some entry.pc
  | _ => none

namespace Execution

variable {p : FlatCode} {limits : Limits} {x y : Execution} {o : Outcome}

/-- The addresses of the instructions that the batches of an execution, in so many turns, have stopped
at for the tape to grow. -/
def growthPlaces (p : FlatCode) (limits : Limits) (turns : Nat) (x : Execution) : List Nat :=
  (x.trace p limits #[] turns).toList.filterMap TraceEntry.growthPlace?

theorem growthPlaces_succ (p : FlatCode) (limits : Limits) (turns : Nat) (x : Execution) :
    x.growthPlaces p limits (turns + 1) =
      (x.batch p limits).traceEntry.growthPlace?.toList ++
        match x.turn p limits with
        | .ended _ => []
        | .next y => y.growthPlaces p limits turns := by
  rw [growthPlaces, trace]
  cases x.turn p limits with
  | ended o =>
    cases h : (x.batch p limits).traceEntry.growthPlace? <;> simp [h]
  | next y =>
    dsimp only
    rw [trace_eq_append]
    cases h : (x.batch p limits).traceEntry.growthPlace? <;> simp [h, growthPlaces]

/-- A turn that ends the execution, or one that leads on, apart from a growth. -/
theorem turn_forward (hcode : p.Straight) (limits : Limits) (hpc : x.machine.pc ≤ p.code.size) :
    (∃ o, x.turn p limits = .ended o ∧ o.steps + x.machine.pc ≤ x.steps + p.code.size) ∨
    ∃ y, x.turn p limits = .next y ∧ y.machine.pc ≤ p.code.size ∧
      y.steps + x.machine.pc ≤ x.steps + y.machine.pc +
        (x.batch p limits).traceEntry.growthPlace?.toList.length := by
  obtain ⟨m, unread, written, steps⟩ := x
  have hbatch := Machine.steps_runFor_le hcode (limits.budget steps).toNat m 0 hpc
  simp only [turn, batch]
  generalize m.runFor p.code 0 (limits.budget steps).toNat = report at hbatch ⊢
  obtain ⟨m', stop, made⟩ := report
  dsimp only at hbatch ⊢
  cases stop with
  | done | fault | astray index =>
    dsimp only [Stop.idle] at hbatch
    refine Or.inl ⟨_, rfl, ?_⟩
    dsimp only [Outcome.steps, result, lost]
    omega
  | output | input =>
    dsimp only [Stop.idle] at hbatch
    rw [react]
    cases m'.tape.place? m'.pointer with
    | none =>
      refine Or.inl ⟨_, rfl, ?_⟩
      dsimp only [Outcome.steps, lost]
      omega
    | some here =>
      refine Or.inr ⟨_, rfl, ?_⟩
      dsimp only [Machine.put]
      omega
  | grow needed =>
    dsimp only [Stop.idle] at hbatch
    refine Or.inr ⟨_, rfl, ?_⟩
    dsimp only [Report.traceEntry, TraceEntry.growthPlace?, Option.toList, List.length]
    omega
  | budget =>
    dsimp only [Stop.idle] at hbatch
    rw [react]
    cases limits.reached? (steps + made) with
    | some limit =>
      refine Or.inl ⟨_, rfl, ?_⟩
      dsimp only [Outcome.steps]
      omega
    | none =>
      refine Or.inr ⟨_, rfl, ?_⟩
      dsimp only
      omega

/-- The steps of an execution of code without jumps back are at most those that lead on, and the
growths. -/
theorem steps_le_of_run (hcode : p.Straight) {turns : Nat} (hpc : x.machine.pc ≤ p.code.size)
    (h : run p limits turns x = some o) :
    o.steps + x.machine.pc ≤ x.steps + p.code.size + (x.growthPlaces p limits turns).length := by
  induction turns generalizing x with
  | zero => cases h
  | succ turns ih =>
    rw [growthPlaces_succ, List.length_append]
    rw [run] at h
    rcases turn_forward hcode limits hpc with ⟨o', hturn, hsteps⟩ | ⟨y, hturn, hinside, hsteps⟩
    · rw [hturn] at h
      obtain rfl := Option.some.inj h
      omega
    · rw [hturn] at h ⊢
      have := ih hinside h
      dsimp only
      omega

/-- A batch that stops for the tape to grow comes to an execution whose next step is that growth. -/
theorem exists_growth_of_runFor (hcode : p.Straight) (budget : Nat) (m : Machine) (unread : List UInt8)
    (written : Array UInt8) (before made : Nat) {needed : Nat} {report : Report}
    (hreport : m.runFor p.code made budget = report) (hstop : report.stop = .grow needed) :
    ∃ n z, Runs (single p) n ⟨m, unread, written, before + made⟩ z ∧
      z.growths Machine.exec p = 1 ∧ z.machine.pc = report.machine.pc ∧
      z.single p = .next ⟨{ report.machine with tape := report.machine.tape.grow needed }, unread,
        written, before + report.steps⟩ := by
  induction budget generalizing m made with
  | zero =>
    rw [Machine.runFor] at hreport
    split at hreport <;> subst hreport <;> cases hstop
  | succ budget ih =>
    rw [Machine.runFor] at hreport
    cases hfetch : p.code[m.pc]? with
    | none =>
      rw [hfetch] at hreport
      subst hreport
      cases hstop
    | some i =>
      have hsingle : stepBy Machine.exec p ⟨m, unread, written, before + made⟩ = _ :=
        stepBy_of_fetch hfetch
      rw [hfetch] at hreport
      dsimp only at hreport hsingle
      cases hexec : m.exec i with
      | next m' =>
        rw [hexec] at hreport hsingle
        obtain ⟨n, z, hz, hgrowth⟩ := ih m' (made + 1) hreport
        exact ⟨n + 1, z, .succ hsingle hz, hgrowth⟩
      | output m' | input m' | fault m' | astray index m' =>
        rw [hexec] at hreport
        subst hreport
        cases hstop
      | grow needed' m' =>
        have hleads := leadsTo_of_fetch hcode hfetch
        rw [hexec] at hreport hsingle hleads
        subst hreport
        obtain rfl := Stop.grow.inj hstop
        have hpc : m'.pc = m.pc := hleads
        refine ⟨0, _, .zero _, ?_, hpc.symm, hsingle⟩
        rw [growths_of_fetch (x := ⟨m, unread, written, before + made⟩) hfetch, hexec]

theorem exists_growth_of_batch (hcode : p.Straight) {a : Nat}
    (h : (x.batch p limits).traceEntry.growthPlace? = some a) :
    ∃ n z y, Runs (single p) n x z ∧ z.growths Machine.exec p = 1 ∧ z.machine.pc = a ∧
      z.single p = .next y ∧ x.turn p limits = .next y := by
  obtain ⟨m, unread, written, steps⟩ := x
  generalize hreport : batch p limits ⟨m, unread, written, steps⟩ = report at h
  unfold batch at hreport
  unfold TraceEntry.growthPlace? Report.traceEntry at h
  cases hstop : report.stop with
  | grow needed =>
    simp only [hstop] at h
    obtain ⟨n, z, hz, hgrowths, hpc, hstep⟩ :=
      exists_growth_of_runFor hcode _ m unread written steps 0 hreport hstop
    refine ⟨n, z, _, hz, hgrowths, hpc.trans (Option.some.inj h), hstep, ?_⟩
    simp only [turn, hreport, hstop, react]
  | done | output | input | fault | budget | astray index =>
    simp only [hstop] at h
    cases h

/-- In code without jumps back the tape grows at most once for each instruction: the places of the
growths follow one another, and an execution does not come back to those behind it. -/
theorem pairwise_growthPlaces (hcode : p.Straight) {batch : Nat} (hbatch : 0 < batch) (turns : Nat)
    (x : Execution) (hx : x.machine.Sound p) :
    (x.growthPlaces p ⟨none, batch⟩ turns).Pairwise (· < ·) ∧
      ∀ a ∈ x.growthPlaces p ⟨none, batch⟩ turns, x.stage p ≤ 2 * a ∧ a < p.code.size := by
  induction turns generalizing x with
  | zero => exact ⟨.nil, fun a ha => by cases ha⟩
  | succ turns ih =>
    rw [growthPlaces_succ]
    cases hplace : (x.batch p ⟨none, batch⟩).traceEntry.growthPlace? with
    | some a =>
      obtain ⟨n, z, y, hz, hgrowths, hpc, hstep, hturn⟩ := exists_growth_of_batch hcode hplace
      have hsound := sound_of_runs hcode.sound hz hx
      have hsound' := sound_of_single hsound hcode.sound hstep
      obtain ⟨hpairwise, hlater⟩ := ih y hsound'
      have hhere : z.stage p = 2 * a := by
        rw [stage, hgrowths, hpc, Nat.sub_self, Nat.add_zero]
      have hinside : a < p.code.size := by
        by_contra hout
        have hend : z.growths Machine.exec p = 0 :=
          growths_of_end (Array.getElem?_eq_none (hpc.symm ▸ Nat.le_of_not_lt hout))
        omega
      have hbefore := stage_le_of_runs hcode hx hz
      have hbehind := stage_lt_of_single hcode hsound hstep
      rw [hturn, Option.toList_some, List.singleton_append]
      refine ⟨.cons (fun b hb => ?_) hpairwise, fun b hb => ?_⟩
      · have := hlater b hb
        omega
      · rcases List.mem_cons.mp hb with rfl | hb
        · omega
        · have := hlater b hb
          omega
    | none =>
      rw [Option.toList_none, List.nil_append]
      rcases turn_cases hbatch x with ⟨o, ho, -⟩ | ⟨n, y, hy, hruns⟩
      · rw [ho]
        exact ⟨.nil, fun a ha => by cases ha⟩
      · rw [hy]
        obtain ⟨hpairwise, hlater⟩ := ih y (sound_of_runs hcode.sound hruns hx)
        have hle := stage_le_of_runs hcode hx hruns
        exact ⟨hpairwise, fun a ha => ⟨Nat.le_trans hle (hlater a ha).1, (hlater a ha).2⟩⟩

end Execution

/-! ## Whole programs -/

/-- The code of a program without loops. -/
theorem Program.straight_of_flatten {q : Program} {p : FlatCode} (hp : q.flatten = .ok p)
    (hok : Program.every Node.isStraight q = true) : p.Straight where
  sound := Program.sound_of_flatten hp
    (Program.every_mono Node.hasNaturalAmount_of_isStraight q hok)
  forward := by
    obtain ⟨block, hblock, rfl⟩ := Program.code_of_flatten hp
    exact Program.leadsForward_of_code q hblock hok
  distances := Program.hasSoundDistances_of_flatten hp
    (Program.every_mono Node.hasSoundDistance_of_isStraight q hok)
  fits := Program.fits_of_flatten hp

/-- **A program without loops stops.**  Let the amounts in it be sound.  On every tape, from every
index and with every input its execution without limit ends, and the number of its steps is at most
the length of the code and the number of times that a batch has stopped for the tape to grow.  No two
of these stops are at the same instruction, so there are at most two steps for each instruction of the
code.  An execution that keeps to words ends with a result. -/
theorem Program.loop_free_stops {q : Program} {p : FlatCode} (hp : q.flatten = .ok p)
    (hok : Program.every Node.isStraight q = true) (tape : Tape) (index : Nat)
    (input : List UInt8) :
    ∃ o turns, Execution.run p .unlimited turns (p.start tape index input) = some o ∧
      o.steps ≤ p.code.size +
        ((p.start tape index input).growthPlaces p .unlimited turns).length ∧
      ((p.start tape index input).growthPlaces p .unlimited turns).Nodup ∧
      o.steps ≤ 2 * p.code.size ∧
      (p.KeepsToWords tape index input → ∃ r, o = .finished r) := by
  have hcode := Program.straight_of_flatten hp hok
  have hsound := (p.sound_start tape index input).machine
  obtain ⟨o, ho⟩ := exists_ends hcode hsound
  obtain ⟨turns, hrun⟩ := FlatCode.comesTo_iff_ends.mpr ho
  have hsteps := steps_le_of_run hcode hsound.pc hrun
  obtain ⟨hpairwise, hinside⟩ := pairwise_growthPlaces hcode FlatCode.unlimited_batch_pos turns
    (p.start tape index input) hsound
  have hnodup : ((p.start tape index input).growthPlaces p .unlimited turns).Nodup :=
    hpairwise.imp Nat.ne_of_lt
  -- the places are different addresses of the code
  have hcount := (hnodup.subperm fun a ha => List.mem_range.mpr (hinside a ha).2).length_le
  rw [List.length_range] at hcount
  have hstart : (p.start tape index input).machine.pc = 0 ∧ (p.start tape index input).steps = 0 :=
    ⟨rfl, rfl⟩
  refine ⟨o, turns, hrun, by omega, hnodup, by omega, fun hwords => ?_⟩
  obtain ⟨r, hr, -⟩ := hwords.exists_result hcode.distances ⟨turns, hrun⟩
  exact ⟨r, hr⟩

/-- Scaled bodies in one another, with a scan and a carry that run off the tape. -/
def offTheTape : Program :=
  [.increment 2, .scaled [.moveRight 3, .increment 3, .scaled [.scanRight 2, .carryRight 9, .input],
    .moveLeft 1], .output]

theorem Program.loop_free_stops_nested :
    ∃ p, offTheTape.flatten = .ok p ∧ p.code.size = 12 ∧
      ∃ r turns, Execution.run p .unlimited turns (p.start ⟨#[]⟩ 0 [65]) = some (.finished r) ∧
        r.steps ≤ 12 + ((p.start ⟨#[]⟩ 0 [65]).growthPlaces p .unlimited turns).length ∧
        ((p.start ⟨#[]⟩ 0 [65]).growthPlaces p .unlimited turns).Nodup ∧ r.steps ≤ 2 * 12 := by
  obtain ⟨o, turns, hrun, hsteps, hnodup, hbound, hwords⟩ :=
    Program.loop_free_stops (q := offTheTape) rfl (by decide) ⟨#[]⟩ 0 [65]
  obtain ⟨r, rfl⟩ :=
    hwords (FlatCode.keepsToWords_of_argument_le (by decide) (by decide) ⟨#[]⟩ 0 [65])
  exact ⟨_, rfl, rfl, r, turns, hrun, hsteps, hnodup, hbound⟩

/-- Two moves to the right whose sum is no word.  There is no cell to write at the index that they lead
to, and the execution has no result. -/
theorem Program.loop_free_astray :
    ∃ q p, q = [.moveRight 1, .moveRight (2 ^ 63 - 1), .output] ∧
      Program.every Node.isStraight q = true ∧ Program.flatten q = .ok p ∧
      p.ComesTo .unlimited .initial 0 [] (.astray (-2 ^ 63) 256 3) :=
  ⟨_, _, rfl, rfl, rfl, 1, by decide +kernel⟩

end Brainfuck
