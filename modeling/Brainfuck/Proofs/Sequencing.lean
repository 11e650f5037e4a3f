import Brainfuck.Proofs.Folding
import Brainfuck.Proofs.Relocation

/-!
# One program after another

The execution of two programs in a row is the execution of the first, and then that of the second on
what the first has left.  The flat code of both is one piece, so this takes two comparisons of the
same kind.  The first program runs in a longer piece of code and with more registers than it has for
itself.  The second runs at other addresses, with registers that the first has used, and with output
and steps that were there before.

Both are instances of one simulation, step by step in both directions: an execution in code that
contains the code of a program at some offset (`Embeds`), next to the execution of the program by
itself.  It ends where the code of the program ends.  There the first program has a successor and the
second has none.

* `Execution.Mirrors`, `Execution.Mirrors.single`, `Execution.Mirrors.runs`: the simulation.
* `Program.flatten_append`: the code of two programs in a row.
* `Program.yields_append`: their executions.
-/

namespace Brainfuck

open Execution

/-! ## The simulation -/

/-- The result of an execution, as that of a longer one: its code stood behind so many instructions,
and something had been written and steps had been made before. -/
def Result.preceded (r : Result) (size : Nat) (written : Array UInt8) (steps : Nat) : Result where
  output := written ++ r.output
  unread := r.unread
  tape := r.tape
  index := r.index
  steps := steps + r.steps
  faultAt := r.faultAt.map (size + ·)

@[simp] theorem Result.faulted_preceded (r : Result) (size : Nat) (written : Array UInt8)
    (steps : Nat) : (r.preceded size written steps).faulted = r.faulted := by
  rw [faulted, faulted, preceded, Option.isSome_map]

theorem Result.status_preceded (r : Result) (size : Nat) (written : Array UInt8) (steps : Nat) :
    (r.preceded size written steps).status = r.status := by
  rw [status, status, faulted_preceded]

theorem Result.errorText?_preceded (r : Result) (size : Nat) (written : Array UInt8) (steps : Nat) :
    (r.preceded size written steps).errorText? = r.errorText? := by
  rw [errorText?, errorText?, faulted_preceded]

/-- The outcome of an execution, as that of a longer one. -/
def Outcome.preceded (size : Nat) (written : Array UInt8) (steps : Nat) : Outcome → Outcome
  | finished r => finished (r.preceded size written steps)
  | overLimit limit made => overLimit limit (steps + made)
  | astray index cells made => astray index cells (steps + made)

/-- The code of a program stands in other code at an offset, and it reads no register before it is
loaded. -/
structure Embeds (offset : Nat) (loaded : Nat → Nat) (whole part : FlatCode) : Prop where
  code : ∀ (k : Nat) (i : Instr), part.code[k]? = some i → whole.code[offset + k]? = some (i.shift offset)
  respects : ∀ (k : Nat) (i : Instr), part.code[k]? = some i → i.Respects loaded k
  slot : ∀ (k : Nat) (i : Instr), part.code[k]? = some i → ∀ s, i.slot? = some s → s < max 1 part.slots

/-- An execution in code that contains the code of a program, next to the execution of the program by
itself. -/
structure Execution.Mirrors (offset : Nat) (loaded : Nat → Nat) (part : FlatCode)
    (written : Array UInt8) (steps : Nat) (x y : Execution) : Prop where
  machine : x.machine.Mirrors offset loaded (max 1 part.slots) y.machine
  unread : x.unread = y.unread
  written : x.written = written ++ y.written
  steps : x.steps = steps + y.steps

/-- Two steps that lead to executions next to each other or to corresponding ends. -/
inductive Advance.Mirrors (offset : Nat) (loaded : Nat → Nat) (part : FlatCode)
    (written : Array UInt8) (steps : Nat) :
    Advance Execution Outcome → Advance Execution Outcome → Prop where
  | next {x y : Execution} (h : x.Mirrors offset loaded part written steps y) :
      Mirrors offset loaded part written steps (.next x) (.next y)
  | final (o : Outcome) :
      Mirrors offset loaded part written steps (.final (o.preceded offset written steps)) (.final o)

section Simulation

variable {offset : Nat} {loaded : Nat → Nat} {whole part : FlatCode} {written : Array UInt8}
  {steps n : Nat} {x y y' : Execution} {o : Outcome} {r : Result}

namespace Execution.Mirrors

/-- Where one machine finds no cell, the other does not find it either. -/
theorem lost (h : x.Mirrors offset loaded part written steps y) {m m' : Machine}
    (hm : m.Mirrors offset loaded (max 1 part.slots) m') (index : Int) :
    Advance.Mirrors offset loaded part written steps
      (.final (Execution.lost m (x.steps + 1) index))
      (.final (Execution.lost m' (y.steps + 1) index)) := by
  have hlost : Execution.lost m (x.steps + 1) index =
      (Execution.lost m' (y.steps + 1) index).preceded offset written steps := by
    rw [Execution.lost, Execution.lost, Outcome.preceded, hm.tape, h.steps, Nat.add_assoc]
  rw [hlost]
  exact .final _

/-- The caller reacts to corresponding effects in the same way. -/
theorem meet (h : x.Mirrors offset loaded part written steps y) {e e' : Effect}
    (he : e.Mirrors offset loaded (max 1 part.slots) e') :
    Advance.Mirrors offset loaded part written steps (x.meet (x.steps + 1) e)
      (y.meet (y.steps + 1) e') := by
  have hsteps : x.steps + 1 = steps + (y.steps + 1) := by rw [h.steps, Nat.add_assoc]
  cases he with
  | next hm => exact .next ⟨hm, h.unread, h.written, hsteps⟩
  | @output m m' hm =>
    simp only [Execution.meet, hm.tape, hm.pointer]
    split
    case h_1 here _ =>
      refine .next ⟨hm, h.unread, ?_, hsteps⟩
      rw [h.written, Array.push_append]
    case h_2 => exact h.lost hm _
  | @input m m' hm =>
    simp only [Execution.meet, hm.tape, hm.pointer]
    split
    case h_1 here _ =>
      refine .next ⟨?_, congrArg List.tail h.unread, h.written, hsteps⟩
      rw [h.unread]
      exact hm.put here _
    case h_2 => exact h.lost hm _
  | grow needed hm => exact .next ⟨hm.grow needed, h.unread, h.written, hsteps⟩
  | @fault m m' hm =>
    have hresult : Outcome.finished (result m x.unread x.written (x.steps + 1) (some m.pc)) =
        (Outcome.finished (result m' y.unread y.written (y.steps + 1) (some m'.pc))).preceded
          offset written steps := by
      rw [Outcome.preceded, result, result, Result.preceded, hm.tape, hm.pointer, hm.pc, h.unread,
        h.written, hsteps]
      rfl
    rw [Execution.meet, Execution.meet, hresult]
    exact .final _
  | astray index hm => exact h.lost hm index

/-- As long as the program is not at its end, the executions go side by side. -/
theorem single (h : x.Mirrors offset loaded part written steps y)
    (hpart : Embeds offset loaded whole part) (hgoing : y.machine.pc < part.code.size) :
    Advance.Mirrors offset loaded part written steps (x.single whole) (y.single part) := by
  have hfetch := Array.getElem?_eq_getElem hgoing
  have hfetch' := hpart.code _ _ hfetch
  rw [← h.machine.pc] at hfetch'
  rw [Execution.single, Execution.single, stepBy_of_fetch hfetch, stepBy_of_fetch hfetch']
  exact h.meet (h.machine.exec (hpart.respects _ _ hfetch) (hpart.slot _ _ hfetch))

theorem runs (h : x.Mirrors offset loaded part written steps y)
    (hpart : Embeds offset loaded whole part) (hy : Runs (Execution.single part) n y y') :
    ∃ x', Runs (Execution.single whole) n x x' ∧ x'.Mirrors offset loaded part written steps y' := by
  induction hy generalizing x with
  | zero _ => exact ⟨x, .zero x, h⟩
  | @succ n y y₁ y' first rest ih =>
    have hgoing : y.machine.pc < part.code.size := by
      by_contra hend
      rw [Execution.single, stepBy_of_end (Array.getElem?_eq_none (Nat.le_of_not_lt hend))] at first
      cases first
    have hstep := h.single hpart hgoing
    rw [first] at hstep
    generalize hx₁ : x.single whole = a at hstep
    cases hstep with
    | next h₁ =>
      obtain ⟨x', hx', h'⟩ := ih h₁
      exact ⟨x', .succ hx₁ hx', h'⟩

theorem forever (h : x.Mirrors offset loaded part written steps y)
    (hpart : Embeds offset loaded whole part) (hy : Forever (Execution.single part) y) :
    Forever (Execution.single whole) x := by
  intro n
  obtain ⟨y', hy'⟩ := hy n
  obtain ⟨x', hx', -⟩ := h.runs hpart hy'
  exact ⟨x', hx'⟩

/-- The program ends before the end of its code: so does the whole. -/
theorem ends_of_early (h : x.Mirrors offset loaded part written steps y)
    (hpart : Embeds offset loaded whole part) (hy : Ends (Execution.single part) y o)
    (hearly : ∀ r, o = .finished r → r.faulted = true) :
    Ends (Execution.single whole) x (o.preceded offset written steps) := by
  obtain ⟨n, y', hruns, hfinal⟩ := hy
  obtain ⟨x', hx', h'⟩ := h.runs hpart hruns
  have hgoing : y'.machine.pc < part.code.size := by
    by_contra hend
    rw [Execution.single, stepBy_of_end (Array.getElem?_eq_none (Nat.le_of_not_lt hend))] at hfinal
    exact absurd (hearly _ (Advance.final.inj hfinal).symm) (by simp [result, Result.faulted])
  have hstep := h'.single hpart hgoing
  rw [hfinal] at hstep
  generalize hx₁ : x'.single whole = a at hstep
  cases hstep with
  | final o => exact ⟨n, x', hx', hx₁⟩

end Execution.Mirrors

/-- A program that stops without a fault stops at the end of its code. -/
theorem Execution.exists_end_of_ends (hy : Ends (single part) y (.finished r))
    (hdone : r.faulted = false) :
    ∃ n y', Runs (single part) n y y' ∧ part.code.size ≤ y'.machine.pc ∧
      r = result y'.machine y'.unread y'.written y'.steps none := by
  obtain ⟨n, y', hruns, hfinal⟩ := hy
  refine ⟨n, y', hruns, ?_⟩
  cases hfetch : part.code[y'.machine.pc]? with
  | none =>
    rw [single, stepBy_of_end hfetch] at hfinal
    exact ⟨Array.getElem?_eq_none_iff.mp hfetch,
      (Outcome.finished.inj (Advance.final.inj hfinal)).symm⟩
  | some i =>
    rw [single, stepBy_of_fetch hfetch] at hfinal
    exact absurd (hdone.symm.trans (faulted_of_meet hfinal)) Bool.false_ne_true

/-- A program that is the last part of the whole ends as the whole does. -/
theorem Execution.Mirrors.ends (h : x.Mirrors offset loaded part written steps y)
    (hpart : Embeds offset loaded whole part)
    (hlast : whole.code.size ≤ offset + part.code.size) (hy : Ends (Execution.single part) y o) :
    Ends (Execution.single whole) x (o.preceded offset written steps) := by
  by_cases hearly : ∀ r, o = .finished r → r.faulted = true
  · exact h.ends_of_early hpart hy hearly
  · obtain ⟨r, rfl, hdone⟩ : ∃ r, o = .finished r ∧ r.faulted = false := by
      simpa using hearly
    obtain ⟨n, y', hruns, hend, rfl⟩ := exists_end_of_ends hy hdone
    obtain ⟨x', hx', h'⟩ := h.runs hpart hruns
    refine ⟨n, x', hx', ?_⟩
    have hout : whole.code.size ≤ x'.machine.pc := by
      rw [h'.machine.pc]
      omega
    rw [Execution.single, stepBy_of_end (Array.getElem?_eq_none hout), Outcome.preceded, result, result,
      Result.preceded, h'.machine.tape, h'.machine.pointer, h'.unread, h'.written, h'.steps]
    rfl

end Simulation

/-! ## What a step leaves alone -/

section Steps

variable {p : FlatCode} {n : Nat} {x y : Execution}

/-- A step takes what it reads from the front of the input. -/
theorem Execution.suffix_of_single (h : x.single p = .next y) : y.unread <:+ x.unread := by
  cases hfetch : p.code[x.machine.pc]? with
  | none =>
    rw [single, stepBy_of_end hfetch] at h
    cases h
  | some i =>
    rw [single, stepBy_of_fetch hfetch] at h
    cases hexec : x.machine.exec i with
    | next m | grow needed m =>
      rw [hexec] at h
      obtain rfl := Advance.next.inj h
      exact List.suffix_rfl
    | output m =>
      rw [hexec, meet] at h
      split at h
      · obtain rfl := Advance.next.inj h
        exact List.suffix_rfl
      · cases h
    | input m =>
      rw [hexec, meet] at h
      split at h
      · obtain rfl := Advance.next.inj h
        exact List.tail_suffix _
      · cases h
    | fault m | astray index m =>
      rw [hexec] at h
      cases h

theorem Execution.suffix_of_runs (h : Runs (single p) n x y) : y.unread <:+ x.unread := by
  induction h with
  | zero _ => exact List.suffix_rfl
  | succ first _ ih => exact ih.trans (suffix_of_single first)

end Steps

/-! ## Code of two programs -/

section Code

variable {p q : Program} {first second both whole part : FlatCode} {offset : Nat}

/-- How many registers are loaded at an address of the code of a program. -/
def Program.loaded (p : Program) (address : Nat) : Nat := (Program.depths 0 p).getD address 0

/-- The code of a program reads no register before it is loaded, and a program begins with none. -/
theorem Program.respects_of_flatten (hp : p.flatten = .ok part) :
    AllRespect p.loaded 0 part.code.toList ∧ p.loaded 0 = 0 := by
  obtain ⟨block, hblock, rfl⟩ := Program.code_of_flatten hp
  have htable : Tabulates p.loaded 0 (Program.depths 0 p) := by
    intro k v hv
    rw [Nat.zero_add, Program.loaded, List.getD_eq_getElem?_getD, hv, Option.getD_some]
  have hend : p.loaded (0 + block.length) ≤ 0 := by
    rw [Nat.zero_add, Program.loaded, List.getD_eq_getElem?_getD,
      List.getElem?_eq_none (Nat.le_of_eq (Program.length_depths p hblock)), Option.getD_none]
  exact ⟨Program.respects_of_code p hblock htable hend (fun _ hk => by cases hk),
    Nat.le_zero.mp (Program.loaded_le hblock htable hend)⟩

theorem Program.embeds_of_flatten (hp : p.flatten = .ok part)
    (hok : Program.every Node.hasNaturalAmount p = true)
    (hcode : ∀ (k : Nat) (i : Instr), part.code[k]? = some i →
      whole.code[offset + k]? = some (i.shift offset)) :
    Embeds offset p.loaded whole part where
  code := hcode
  respects k i hi := by
    have hrespects := (Program.respects_of_flatten hp).1 k i (Array.getElem?_toList.trans hi)
    rwa [Nat.zero_add] at hrespects
  slot k i hi := (Program.sound_of_flatten hp hok i (Array.mem_of_getElem? hi)).slot

/-- The code of two programs in a row is the code of the first, and that of the second shifted. -/
theorem Program.flatten_append (hp : p.flatten = .ok first) (hq : q.flatten = .ok second)
    (hpq : (p ++ q).flatten = .ok both) :
    both.code = first.code ++ second.code.map (Instr.shift first.code.size) ∧
      both.slots = max first.slots second.slots := by
  obtain ⟨block, hblock, rfl⟩ := Program.code_of_flatten hp
  obtain ⟨rest, hrest, rfl⟩ := Program.code_of_flatten hq
  obtain ⟨all, hall, rfl⟩ := Program.code_of_flatten hpq
  have hshifted := Program.code_shift block.length q hrest
  rw [Nat.add_comm] at hshifted
  obtain rfl := Except.ok.inj ((Program.code_append hblock hshifted).symm.trans hall)
  exact ⟨by simp, Program.scaleDepth_append p q⟩

theorem Instr.fits_shift {i : Instr} (hfits : i.fits = true)
    (htarget : ∀ a, i.target? = some a → offset + a < 2 ^ 63) : (i.shift offset).fits = true := by
  cases i with
  | loopStart a | loopEnd a | scale a slot => exact fits_of_lt rfl (htarget a rfl)
  | _ => exact hfits

/-- Two programs with flat code have one in a row, unless an address of it is no word. -/
theorem Program.exists_flatten_append (hp : p.flatten = .ok first) (hq : q.flatten = .ok second)
    (hok : Program.every Node.hasNaturalAmount q = true)
    (hsize : first.code.size + second.code.size < 2 ^ 63) :
    ∃ both, (p ++ q).flatten = .ok both := by
  have hfits := Program.fits_of_flatten hp
  have hfits' := Program.fits_of_flatten hq
  have hsound := Program.sound_of_flatten hq hok
  obtain ⟨block, hblock, rfl⟩ := Program.code_of_flatten hp
  obtain ⟨rest, hrest, rfl⟩ := Program.code_of_flatten hq
  have hshifted := Program.code_shift block.length q hrest
  rw [Nat.add_comm] at hshifted
  have hall : (block ++ rest.map (Instr.shift block.length)).all Instr.fits = true := by
    rw [List.all_append, List.all_map, Bool.and_eq_true, List.all_eq_true, List.all_eq_true]
    refine ⟨fun i hi => hfits i (List.mem_toArray.mpr hi), fun i hi => ?_⟩
    refine Instr.fits_shift (hfits' i (List.mem_toArray.mpr hi)) fun a ha => ?_
    have hle := (hsound i (List.mem_toArray.mpr hi)).target a ha
    simp only [List.size_toArray] at hsize hle
    omega
  refine ⟨⟨(block ++ rest.map (Instr.shift block.length)).toArray, Program.scaleDepth (p ++ q)⟩, ?_⟩
  rw [Program.flatten, Program.code_append hblock hshifted]
  exact if_pos hall

end Code

/-! ## Executions of two programs -/

section Executions

variable {p q : Program} {first second both : FlatCode} {tape : Tape} {index : Nat}
  {input : List UInt8} {r r₁ : Result}

/-- The first of two programs begins as it does by itself, with more registers. -/
theorem FlatCode.mirrors_start (loaded : Nat → Nat) (hslots : first.slots ≤ both.slots)
    (tape : Tape) (index : Nat) (input : List UInt8) :
    (both.start tape index input).Mirrors 0 loaded first #[] 0 (first.start tape index input) where
  machine := by
    refine ⟨rfl, rfl, rfl, fun k _ => ?_, ?_, ?_⟩
    · simp only [FlatCode.start, Array.getD_eq_getD_getElem?, Array.getElem?_replicate]
      split <;> split <;> rfl
    · simp only [FlatCode.start, Array.size_replicate]
      omega
    · simp only [FlatCode.start, Array.size_replicate]
      exact Nat.le_refl _
  unread := rfl
  written := rfl
  steps := (Nat.zero_add _).symm

/-- Where the first program has ended, the second begins as it does by itself, whatever is in the
registers. -/
theorem Execution.Mirrors.handOver {loaded loaded' : Nat → Nat} {x y : Execution}
    (h : x.Mirrors 0 loaded first #[] 0 y) (hsound : y.machine.Sound first)
    (hend : first.code.size ≤ y.machine.pc) (hslots : max 1 second.slots ≤ x.machine.scales.size)
    (hnone : loaded' 0 = 0) :
    x.Mirrors first.code.size loaded' second y.written y.steps
      (second.start y.machine.tape y.machine.pointer y.unread) where
  machine := by
    have hcover : (if y.machine.pointer < y.machine.tape.size then y.machine.tape
        else y.machine.tape.grow y.machine.pointer.toNat) = y.machine.tape := if_pos hsound.pointer
    refine ⟨?_, h.machine.pointer, h.machine.tape.trans hcover.symm, fun k hk => ?_, hslots, ?_⟩
    · rw [h.machine.pc, Nat.zero_add]
      exact Nat.le_antisymm hsound.pc hend
    · exact absurd (hnone ▸ hk) (Nat.not_lt_zero k)
    · simp only [FlatCode.start, Array.size_replicate]
      exact Nat.le_refl _
  unread := h.unread
  written := by rw [h.written]; simp [FlatCode.start]
  steps := by rw [h.steps]; simp [FlatCode.start]

/-- An outcome that nothing precedes. -/
theorem Outcome.preceded_nothing (o : Outcome) : o.preceded 0 #[] 0 = o := by
  cases o with
  | finished r =>
    have hfault : r.faultAt.map (0 + ·) = r.faultAt := by simp
    rw [preceded, Result.preceded, hfault, Nat.zero_add, Array.empty_append]
  | overLimit limit made | astray index cells made => rw [preceded, Nat.zero_add]

theorem Program.embeds_append (hp : p.flatten = .ok first) (hq : q.flatten = .ok second)
    (hpq : (p ++ q).flatten = .ok both) (hokp : Program.every Node.hasNaturalAmount p = true)
    (hokq : Program.every Node.hasNaturalAmount q = true) :
    Embeds 0 p.loaded both first ∧ Embeds first.code.size q.loaded both second := by
  obtain ⟨hcode, -⟩ := Program.flatten_append hp hq hpq
  refine ⟨Program.embeds_of_flatten hp hokp fun k i hi => ?_,
    Program.embeds_of_flatten hq hokq fun k i hi => ?_⟩
  · have hk : k < first.code.size := (Array.getElem?_eq_some_iff.mp hi).1
    rw [hcode, Nat.zero_add, Array.getElem?_append_left hk, hi, Instr.shift_zero]
  · rw [hcode, Array.getElem?_append_right (Nat.le_add_right _ _), Nat.add_sub_cancel_left,
      Array.getElem?_map, hi, Option.map_some]

/-- If the first program stops without a fault, the execution of both comes to where the second
begins. -/
theorem Program.exists_handOver (hp : p.flatten = .ok first) (hq : q.flatten = .ok second)
    (hpq : (p ++ q).flatten = .ok both) (hokp : Program.every Node.hasNaturalAmount p = true)
    (hokq : Program.every Node.hasNaturalAmount q = true)
    (h : Ends (single first) (first.start tape index input) (.finished r₁)) (hdone : r₁.faulted = false) :
    r₁.unread <:+ input ∧ ∃ n x, Runs (single both) n (both.start tape index input) x ∧
      x.Mirrors first.code.size q.loaded second r₁.output r₁.steps
        (second.start r₁.tape r₁.index r₁.unread) := by
  obtain ⟨-, hslots⟩ := Program.flatten_append hp hq hpq
  obtain ⟨hfirst, -⟩ := Program.embeds_append hp hq hpq hokp hokq
  have hok : Program.every Node.hasNaturalAmount (p ++ q) = true := by
    rw [Program.every_iff] at hokp hokq ⊢
    exact List.forall_mem_append.mpr ⟨hokp, hokq⟩
  obtain ⟨n, y, hy, hend, rfl⟩ := exists_end_of_ends h hdone
  have hsound := sound_of_runs (Program.sound_of_flatten hp hokp) hy
    (first.sound_start tape index input).machine
  have hslots' : first.slots ≤ both.slots := by omega
  obtain ⟨x, hx, hmirrors⟩ :=
    (FlatCode.mirrors_start p.loaded hslots' tape index input).runs hfirst hy
  have hsound' := sound_of_runs (Program.sound_of_flatten hpq hok) hx
    (both.sound_start tape index input).machine
  have hroom : max 1 second.slots ≤ x.machine.scales.size := by
    rw [hsound'.scales]
    omega
  exact ⟨suffix_of_runs hy, n, x, hx,
    hmirrors.handOver hsound hend hroom (Program.respects_of_flatten hq).2⟩

/-- **Executions compose.**  Let two programs have flat code and amounts that are not negative.  They
have flat code in a row, unless that is too long for its addresses.  Whatever the tape, the index and
the input:

* if the first stops without a fault, the execution of both goes on as that of the second on the
  tape, the index and the input that the first has left, with the output and the steps of the first
  before its own, and one stops exactly if the other does;
* if the first ends in a fault or goes astray, the execution of both ends in the same way;
* if the first never stops, neither do both. -/
theorem Program.yields_append {p q : Program} {first second : FlatCode}
    (hp : p.flatten = .ok first) (hq : q.flatten = .ok second)
    (hokp : Program.every Node.hasNaturalAmount p = true)
    (hokq : Program.every Node.hasNaturalAmount q = true) :
    (first.code.size + second.code.size < 2 ^ 63 → ∃ both, (p ++ q).flatten = .ok both) ∧
    ∀ both, (p ++ q).flatten = .ok both → ∀ (tape : Tape) (index : Nat) (input : List UInt8),
      (∀ r₁, first.Yields tape index input r₁ → r₁.faulted = false →
        r₁.unread <:+ input ∧
        (∀ r, both.Yields tape index input r ↔
          ∃ r₂, second.Yields r₁.tape r₁.index r₁.unread r₂ ∧
            r = r₂.preceded first.code.size r₁.output r₁.steps ∧
            r.status = r₂.status ∧ r.errorText? = r₂.errorText?) ∧
        (∀ i size steps, second.ComesTo .unlimited r₁.tape r₁.index r₁.unread (.astray i size steps) →
          both.ComesTo .unlimited tape index input (.astray i size (r₁.steps + steps))) ∧
        (both.NeverStops tape index input ↔
          second.NeverStops r₁.tape r₁.index r₁.unread)) ∧
      (∀ r₁, first.Yields tape index input r₁ → r₁.faulted = true →
        ∀ r, both.Yields tape index input r ↔ r = r₁) ∧
      (∀ i size steps, first.ComesTo .unlimited tape index input (.astray i size steps) →
        both.ComesTo .unlimited tape index input (.astray i size steps)) ∧
      (first.NeverStops tape index input → both.NeverStops tape index input) := by
  refine ⟨Program.exists_flatten_append hp hq hokq, fun both hpq tape index input => ?_⟩
  obtain ⟨hcode, hslots⟩ := Program.flatten_append hp hq hpq
  obtain ⟨hfirst, hsecond⟩ := Program.embeds_append hp hq hpq hokp hokq
  have hsize : both.code.size = first.code.size + second.code.size := by
    rw [hcode, Array.size_append, Array.size_map]
  have hslots' : first.slots ≤ both.slots := by omega
  have hstart := FlatCode.mirrors_start p.loaded hslots' tape index input
  have hearly {o : Outcome} (ho : Ends (single first) (first.start tape index input) o)
      (hearly : ∀ r, o = .finished r → r.faulted = true) :
      Ends (single both) (both.start tape index input) o :=
    o.preceded_nothing ▸ hstart.ends_of_early hfirst ho hearly
  simp only [FlatCode.yields_iff_ends, FlatCode.comesTo_iff_ends, FlatCode.neverStops_iff_forever]
  refine ⟨fun r₁ hr₁ hdone => ?_, fun r₁ hr₁ hfault r => ?_, fun i size steps hastray => ?_,
    hstart.forever hfirst⟩
  · obtain ⟨hsuffix, n, x, hx, hmirrors⟩ :=
      Program.exists_handOver hp hq hpq hokp hokq hr₁ hdone
    have hends {o₂ : Outcome}
        (ho₂ : Ends (single second) (second.start r₁.tape r₁.index r₁.unread) o₂) :
        Ends (single both) (both.start tape index input)
          (o₂.preceded first.code.size r₁.output r₁.steps) :=
      .of_runs hx (hmirrors.ends hsecond (Nat.le_of_eq hsize) ho₂)
    have hforever (h : Forever (single second) (second.start r₁.tape r₁.index r₁.unread)) :
        Forever (single both) (both.start tape index input) :=
      .of_runs hx (hmirrors.forever hsecond h)
    refine ⟨hsuffix, fun r => ⟨fun hr => ?_, ?_⟩, fun _ _ _ => hends, ⟨fun h => ?_, hforever⟩⟩
    · -- the second program stops, for otherwise both would not
      obtain ⟨o₂, ho₂⟩ : ∃ o₂, Ends (single second) (second.start r₁.tape r₁.index r₁.unread) o₂ := by
        by_contra hnone
        exact hr.not_forever (hforever (forever_iff_not_ends.mpr (not_exists.mp hnone)))
      have hsame := hr.unique (hends ho₂)
      cases o₂ with
      | finished r₂ =>
        obtain rfl := Outcome.finished.inj hsame
        exact ⟨r₂, ho₂, rfl, Result.status_preceded .., Result.errorText?_preceded ..⟩
      | overLimit limit made | astray i size made => cases hsame
    · rintro ⟨r₂, hr₂, rfl, -, -⟩
      exact hends hr₂
    · exact forever_iff_not_ends.mpr fun o₂ ho₂ => (hends ho₂).not_forever h
  · have hboth := hearly hr₁ fun r hr => Outcome.finished.inj hr ▸ hfault
    exact ⟨fun hr => Outcome.finished.inj (hr.unique hboth), fun hr => hr ▸ hboth⟩
  · exact hearly hastray fun r hr => by cases hr

/-- Two programs with a scaled body each.  The first leaves its scale in the register and reads a
byte; the second is given the rest of the input and loads the same register. -/
theorem Program.yields_append_scaled :
    ∃ first second both r₁,
      Program.flatten [.increment 2, .scaled [.moveRight 1, .increment 3, .moveLeft 1], .input] =
        .ok first ∧
      Program.flatten [.scaled [.moveRight 1, .increment 1, .moveLeft 1], .input, .output] =
        .ok second ∧
      Program.flatten [.increment 2, .scaled [.moveRight 1, .increment 3, .moveLeft 1], .input,
        .scaled [.moveRight 1, .increment 1, .moveLeft 1], .input, .output] = .ok both ∧
      first.Yields (.blank 1) 0 [4, 7] r₁ ∧ r₁.unread = [7] ∧ r₁.tape = ⟨#[4, 6]⟩ ∧
      ∀ r, both.Yields (.blank 1) 0 [4, 7] r ↔
        ∃ r₂, second.Yields ⟨#[4, 6]⟩ 0 [7] r₂ ∧ r = r₂.preceded 7 r₁.output r₁.steps ∧
          r.status = r₂.status ∧ r.errorText? = r₂.errorText? := by
  let first : FlatCode :=
    ⟨#[.add 2 none, .scale 5 0, .right 1, .add 3 (some 0), .left 1, .unscale, .input], 1⟩
  have hyields : first.Yields (.blank 1) 0 [4, 7] ⟨#[], [7], ⟨#[4, 6]⟩, 0, 8, none⟩ :=
    ⟨3, by decide +kernel⟩
  have hboth := (Program.yields_append
    (p := [.increment 2, .scaled [.moveRight 1, .increment 3, .moveLeft 1], .input])
    (q := [.scaled [.moveRight 1, .increment 1, .moveLeft 1], .input, .output]) rfl rfl rfl rfl).2
  obtain ⟨hdone, -, -⟩ := hboth _ rfl (.blank 1) 0 [4, 7]
  exact ⟨first, _, _, _, rfl, rfl, rfl, hyields, rfl, rfl, (hdone _ hyields rfl).2.1⟩

end Executions

end Brainfuck
