import Brainfuck.Proofs.MainFunction
import Brainfuck.Proofs.Staying

/-!
# Compiled programs do what executions do

The module of a program and its flat code are two ways to run one tree.  They share nothing: one has
blocks and registers that are named when they are made, the other has addresses and numbered scale
registers.  Both realize the meaning of the tree, and a meaning has at most one ending, so each of
them ends as the other does.

What is left to do here is to put nodes together to trees and the tree together with the beginning
and the end of the function.

* `Program.implements_lower`: the lines of a sequence realize its meaning.
* `Program.exists_run_iff_means`: the module of a program exits as the meaning of its tree says.
* `Program.run_iff_yields`: compiled programs do what executions do.
-/

namespace Brainfuck

open IR IR.Build Behaviour
open IR.Point (At)

/-! ## Trees -/

/-- One construction after another realizes one behaviour after another. -/
theorem IR.Implements.andThen {F : Array Block} {b : Builder} {x : Point} {m m' : Build Unit}
    [Growing m] [Growing m'] (hb : b.Valid) {regs : Frame} {R S : Behaviour} {c : Config}
    (hm : Implements F m b regs R c x)
    (hm' : ∀ b₁ k d y, R c (.done d) → At F b₁ regs k d y → Implements F m' b₁ regs S d y) :
    Implements F (m >>= fun _ => m') b regs (andThen R S) c x := by
  intro u b' h hF
  obtain ⟨_, b₁, hrun, hrest⟩ := bind_eq_ok h
  have hvalid := (Growing.grows hb hrun).valid hb
  refine Realizes.andThen (hm _ b₁ hrun ((Growing.grows hvalid hrest).contained.trans hF)) ?_
  rintro d y hd ⟨k, hy⟩
  exact hm' b₁ k d y hd hy _ b' hrest hF

section Trees

variable {F : Array Block} {last returnLabel : Name}

mutual

theorem Node.implements_lower (hclosing : Closing F last returnLabel) :
    (n : Node) → ∀ {a? scale b regs k c x}, n.every Node.hasWordAmount = true →
      n.Stays (2 ^ 63) scale c → regs.HasSlots → regs.GivesScale a? scale → At F b regs k c x →
      Implements F (n.lower a?) b regs (n.Means scale) c x
  | .moveRight _, _, _, _, _, _, _, _, hok, hstay, hslots, _, hx => by
    simp only [Node.every, Node.hasWordAmount, Bool.and_eq_true, decide_eq_true_eq] at hok
    exact implements_moveRight hx hslots hok.1 hok.2 hstay
  | .moveLeft _, _, _, _, _, _, _, _, hok, _, hslots, _, hx => by
    simp only [Node.every, Node.hasWordAmount, Bool.and_eq_true, decide_eq_true_eq] at hok
    exact implements_moveLeft hclosing hx hslots hok.1 hok.2
  | .increment _, _, _, _, _, _, _, _, _, _, hslots, hscale, hx => implements_increment hx hslots hscale
  | .decrement _, _, _, _, _, _, _, _, _, _, hslots, hscale, hx => implements_decrement hx hslots hscale
  | .output, _, _, _, _, _, _, _, _, _, hslots, _, hx => implements_output hx hslots
  | .input, _, _, _, _, _, _, _, _, _, hslots, _, hx => implements_input hx hslots
  | .loop body, _, _, _, _, _, c, _, hok, hstay, hslots, _, hx => by
    rw [Node.every, Bool.and_eq_true] at hok
    exact implements_loop (Relation.ReflTransGen (Passes (Program.Means 1 body)) c)
      hclosing.labels hslots
      (fun b₁ k d y hd hnonzero hy => Program.implements_lower hclosing body hok.2
        (hstay d hd hnonzero) hslots rfl hy)
      (fun d e hd hnonzero he => hd.tail ⟨hnonzero, he⟩) hx .refl
  | .scanRight _, _, _, _, _, _, _, _, hok, hstay, hslots, _, hx => by
    simp only [Node.every, Node.hasWordAmount, Bool.and_eq_true, decide_eq_true_eq] at hok
    exact implements_scanRight hx hslots hok.1 hok.2 hstay
  | .scanLeft _, _, _, _, _, _, _, _, hok, _, hslots, _, hx => by
    simp only [Node.every, Node.hasWordAmount, Bool.and_eq_true, decide_eq_true_eq] at hok
    exact implements_scanLeft hclosing hx hslots hok.1 hok.2
  | .clear, _, _, _, _, _, _, _, _, _, hslots, _, hx => implements_clear hx hslots
  | .scaled body, _, _, _, _, _, _, _, hok, hstay, hslots, _, hx => by
    rw [Node.every, Bool.and_eq_true] at hok
    exact implements_scaled (R := fun value => Program.Means value body) hclosing.labels hslots
      (fun hnonzero _ _ _ _ hle hmultiplier hy => Program.implements_lower hclosing body hok.2
        (hstay hnonzero) (hslots.mono hle) hmultiplier hy) hx
  | .carryRight _, _, _, _, _, _, _, _, hok, hstay, hslots, _, hx => by
    simp only [Node.every, Node.hasWordAmount, Bool.and_eq_true, decide_eq_true_eq] at hok
    exact implements_carryRight hx hslots hok.1 hok.2 hstay
  | .carryLeft _, _, _, _, _, _, _, _, hok, _, hslots, _, hx => by
    simp only [Node.every, Node.hasWordAmount, Bool.and_eq_true, decide_eq_true_eq] at hok
    exact implements_carryLeft hclosing hx hslots hok.1 hok.2
  | .foreign _, _, _, _, _, _, _, _, hok, _, _, _, _
  | .derived _ _, _, _, _, _, _, _, _, hok, _, _, _, _ => nomatch hok

/-- The lines of a sequence realize its meaning, as long as the index stays small. -/
theorem Program.implements_lower (hclosing : Closing F last returnLabel) :
    (p : List Node) → ∀ {a? scale b regs k c x}, Program.every Node.hasWordAmount p = true →
      Program.Stays (2 ^ 63) scale p c → regs.HasSlots → regs.GivesScale a? scale →
      At F b regs k c x → Implements F (Program.lower a? p) b regs (Program.Means scale p) c x
  | [], _, _, _, _, _, _, _, _, _, _, _, hx => by
    rw [Program.lower]
    exact .of_does (fun _ => Iff.rfl) (.pure hx)
  | n :: p, _, _, _, _, _, _, _, hok, hstay, hslots, hscale, hx => by
    rw [Program.every, Bool.and_eq_true] at hok
    rw [Program.lower]
    refine .andThen hx.valid (Node.implements_lower hclosing n hok.1 hstay.1 hslots hscale hx) ?_
    exact fun b₁ k d y hd hy =>
      Program.implements_lower hclosing p hok.2 (hstay.2 d hd) hslots hscale hy

end

end Trees

/-! ## Whole programs -/

/-- The exit of a process that ends like this. -/
def Ending.exit : Ending → Exit
  | .done d => ⟨0, d.written, ""⟩
  | .fault d => ⟨faultStatus, d.written, faultMessage⟩

theorem Ending.stderr_exit (e : Ending) :
    e.exit.stderr = if e.exit.status = faultStatus then faultMessage else "" := by
  cases e with
  | done d => rfl
  | fault d => rfl

/-- The exit of a process that ends as an execution does. -/
theorem Ending.exit_of_ending? {r : Result} {e : Ending} (h : r.ending? = some e) :
    e.exit.status = r.status ∧ e.exit.stdout = r.output := by
  cases e with
  | done d =>
    obtain ⟨hstatus, hconfig⟩ := Result.ending?_eq_done_iff.mp h
    exact ⟨hstatus.symm, (Result.of_config? hconfig).2.2.symm⟩
  | fault d =>
    obtain ⟨hstatus, hconfig⟩ := Result.ending?_eq_fault_iff.mp h
    exact ⟨hstatus.symm, (Result.of_config? hconfig).2.2.symm⟩

instance : Succeeding close := ⟨fun _ => ⟨_, rfl⟩⟩

/-- A tree of instructions has a module. -/
theorem Program.exists_mainBlocks {p : Program} (hp : Program.every Node.isInstruction p = true) :
    ∃ F, p.mainBlocks = .ok F := by
  have := succeeding_lower p hp none
  obtain ⟨r, hr⟩ := Succeeding.succeeds (m := Program.lower none p >>= fun _ => close) Builder.ready
  refine ⟨r.2.function, ?_⟩
  rw [Program.mainBlocks, StateT.run, function_eq, hr]
  rfl

/-- The function of a program is built by lowering it and then closing. -/
theorem Program.exists_stages_of_mainBlocks {p : Program} {F : Array Block}
    (h : p.mainBlocks = .ok F) :
    ∃ b b', Program.lower none p .ready = .ok ((), b) ∧ close b = .ok ((), b') ∧ b'.function = F := by
  rw [Program.mainBlocks, StateT.run, function_eq] at h
  cases hbuilt : (Program.lower none p >>= fun _ => close) Builder.ready with
  | error v => rw [hbuilt] at h; cases h
  | ok r =>
    rw [hbuilt] at h
    obtain ⟨_, b, hlower, hclose⟩ := bind_eq_ok hbuilt
    exact ⟨b, r.2, hlower, hclose, Except.ok.inj h⟩

/-- The steps from the entry of a function realize the meaning of its tree. -/
theorem Program.realizes_mainBlocks {p : Program} {F : Array Block} (hp : p.mainBlocks = .ok F)
    (hok : Program.every Node.hasWordAmount p = true) {system : System} {input : List UInt8}
    (hserves : system.fetch.Serves input)
    (hstay : Program.Stays (2 ^ 63) 1 p (.start .initial 0 input)) :
    ∃ lines, (blockTable F)[(⟨.entry, 0⟩ : Name)]? = some lines ∧
      Realizes (Point.step F) Exit.Failed (Program.Means 1 p) (.start .initial 0 input)
        ⟨none, ⟨.entry, 0⟩, lines, .start system input⟩
        fun d y => Ends (Point.step F) y (Ending.done d).exit := by
  obtain ⟨b, b', hlower, hclose, rfl⟩ := Program.exists_stages_of_mainBlocks hp
  have hgrows : Builder.ready.Grows b := Growing.grows Nat.zero_lt_two hlower
  obtain ⟨last, hlast, hclosed⟩ := closed_of_close hgrows hclose
  obtain ⟨hclosing, hF⟩ := hclosed.closing hgrows hlast
  have hb : Contained b.blocks b'.function := b.contained_left.trans hF
  have hready : (⟨⟨.entry, 0⟩, prologueLines.toArray⟩ : Block) ∈ Builder.ready.blocks :=
    Array.mem_of_getElem? (i := 0) rfl
  obtain ⟨full, hfull, hlabel, rest, hlines⟩ := hgrows.contained.trans hb _ hready
  refine ⟨full.lines.toList, ?_, ?_⟩
  · have hentry := getElem?_blockTable hclosing.labels hfull
    rwa [hlabel] at hentry
  · have hscale : Frame.ready.GivesScale none 1 := rfl
    have hbody := Program.implements_lower hclosing p hok hstay Frame.hasSlots_ready hscale
      (at_ready hclosing.labels hfull hlabel hlines hserves) _ b hlower hb
    rw [← hlines]
    refine .of_runs (runs_prologue ..) (hbody.mono ?_)
    rintro d y _ ⟨k, hy⟩
    exact hclosing.ends_of_at Frame.hasSlots_ready hlast hF hy

/-- The module of a program exits as the meaning of its tree says. -/
theorem Program.exists_run_iff_means {p : Program} {m : Module} (hp : p.mainBlocks = .ok m.blocks)
    (hok : Program.every Node.hasWordAmount p = true) {system : System} {input : List UInt8}
    (hserves : system.fetch.Serves input)
    (hstay : Program.Stays (2 ^ 63) 1 p (.start .initial 0 input)) {r : Exit} :
    (∃ fuel, m.run system fuel input = some r) ↔
      ∃ e, Program.Means 1 p (.start .initial 0 input) e ∧ e.exit = r := by
  obtain ⟨lines, hentry, hreal⟩ := Program.realizes_mainBlocks hp hok hserves hstay
  have hends : ∀ e, Program.Means 1 p (.start .initial 0 input) e →
      Ends (Point.step m.blocks) ⟨none, ⟨.entry, 0⟩, lines, .start system input⟩ e.exit := by
    intro e he
    cases e with
    | done d =>
      obtain ⟨n, y, hy, hend⟩ := hreal.done he
      exact hend.of_runs hy
    | fault d =>
      obtain ⟨⟨status, stdout, stderr⟩, hr, hstatus, hstdout, hstderr⟩ := hreal.fault he
      obtain rfl : status = faultStatus := hstatus
      obtain rfl : stdout = d.written := hstdout
      obtain rfl : stderr = faultMessage := hstderr
      exact hr
  rw [exists_run_iff_ends hentry]
  constructor
  · intro hr
    by_cases hnone : ∀ e, ¬ Program.Means 1 p (.start .initial 0 input) e
    · exact absurd (hreal.forever hnone) hr.not_forever
    · obtain ⟨e, he⟩ := not_forall_not.mp hnone
      exact ⟨e, he, (hends e he).unique hr⟩
  · rintro ⟨e, he, rfl⟩
    exact hends e he

/-- **Compiled programs do what executions do.**  A program with amounts that are words has a module.
Let a system serve an input, with anything in the memory that it gives, and let the indices of the
execution stay below `2 ^ 63`.  Then the module returns a status having written an output exactly if
the execution on the initial tape stops with that exit status and that output; the module writes the
text about the fault to its error stream if the status is that of a fault, and nothing otherwise; and
it never returns exactly if the execution never stops. -/
theorem Program.run_iff_yields {p : Program} (hok : Program.every Node.hasWordAmount p = true)
    (name platform : String) :
    ∃ m, Module.ofProgram name platform p = .ok m ∧
      ∀ code, p.flatten = .ok code → ∀ (system : System) (input : List UInt8),
        system.fetch.Serves input → code.StaysBelow (2 ^ 63) .initial 0 input →
        (∀ status output,
          (∃ fuel x, m.run system fuel input = some x ∧ x.status = status ∧ x.stdout = output) ↔
            ∃ r, code.Yields .initial 0 input r ∧ r.status = status ∧ r.output = output) ∧
        (∀ fuel x, m.run system fuel input = some x →
          x.stderr = if x.status = faultStatus then faultMessage else "") ∧
        ((∀ fuel, m.run system fuel input = none) ↔ code.NeverStops .initial 0 input) := by
  obtain ⟨F, hF⟩ := Program.exists_mainBlocks
    (Program.every_mono Node.isInstruction_of_hasWordAmount p hok)
  let m : Module := ⟨name, .ofPlatform platform, F⟩
  have hmodule : Module.ofProgram name platform p = .ok m := by
    rw [Module.ofProgram, hF]
    rfl
  refine ⟨m, hmodule, fun code hp system input hserves hbound => ?_⟩
  have hscans := Program.every_mono Node.hasSoundDistance_of_hasWordAmount p hok
  have hwords := hbound.keepsToWords
  have hstay := Program.stays_of_flatten hp hscans hwords hbound
  have hrun : ∀ r, (∃ fuel, m.run system fuel input = some r) ↔
      ∃ e, Program.Means 1 p (.start .initial 0 input) e ∧ e.exit = r :=
    fun r => Program.exists_run_iff_means (m := m) hF hok hserves hstay
  refine ⟨fun status output => ⟨?_, ?_⟩, ?_, ?_⟩
  · rintro ⟨fuel, x, hx, rfl, rfl⟩
    obtain ⟨e, he, rfl⟩ := (hrun x).mp ⟨fuel, hx⟩
    obtain ⟨r, hr, hending⟩ := Program.exists_yields_of_means hp hscans hwords he
    obtain ⟨hstatus, hstdout⟩ := Ending.exit_of_ending? hending
    exact ⟨r, hr, hstatus.symm, hstdout.symm⟩
  · rintro ⟨r, hr, rfl, rfl⟩
    obtain ⟨e, hending, he⟩ := Program.means_of_yields hp hscans hwords hr
    obtain ⟨fuel, hfuel⟩ := (hrun _).mpr ⟨e, he, rfl⟩
    exact ⟨fuel, _, hfuel, Ending.exit_of_ending? hending⟩
  · intro fuel x hx
    obtain ⟨e, _, rfl⟩ := (hrun x).mp ⟨fuel, hx⟩
    exact e.stderr_exit
  · refine Iff.trans ?_ (Program.neverStops_iff hp hscans hwords).symm
    constructor
    · intro hnone e he
      obtain ⟨fuel, hfuel⟩ := (hrun _).mpr ⟨e, he, rfl⟩
      rw [hnone fuel] at hfuel
      cases hfuel
    · intro hnone fuel
      cases hx : m.run system fuel input with
      | none => rfl
      | some x =>
        obtain ⟨e, he, _⟩ := (hrun x).mp ⟨fuel, hx⟩
        exact absurd he (hnone e)

/-- A program that echoes a byte and then leaves the tape, in memory that is full of sevens. -/
theorem Program.run_iff_yields_echo :
    ∃ m, Module.ofProgram "echo" "linux" [.input, .output, .moveLeft 1] = .ok m ∧
      ∃ fuel, m.run ⟨fun _ _ => 7, .plain⟩ fuel [65] = some ⟨1, #[65], faultMessage⟩ := by
  let code : FlatCode := ⟨#[.input, .output, .left 1], 0⟩
  let d : Config := (Config.start .initial 0 [65]).read.write
  have hp : Program.flatten [.input, .output, .moveLeft 1] = .ok code := rfl
  -- none of the three instructions computes an index
  have hbound : code.StaysBelow (2 ^ 63) .initial 0 [65] := by
    intro n x _ i target hi htarget
    have hmem : i ∈ [Instr.input, .output, .left 1] :=
      Array.mem_toList_iff.mpr (Array.mem_of_getElem? hi)
    simp only [List.mem_cons, List.not_mem_nil, or_false] at hmem
    rcases hmem with rfl | rfl | rfl <;> cases htarget
  obtain ⟨m, hm, hsame⟩ := Program.run_iff_yields (p := [.input, .output, .moveLeft 1]) rfl
    "echo" "linux"
  obtain ⟨hexits, hstderr, _⟩ := hsame code hp ⟨fun _ _ => 7, .plain⟩ [65]
    (Fetch.serves_plain (by decide)) hbound
  have hmeans : Program.Means 1 [.input, .output, .moveLeft 1] (.start .initial 0 [65]) (.fault d) :=
    .pass rfl (.pass rfl (.fault rfl))
  obtain ⟨r, hyields, hending⟩ := Program.exists_yields_of_means hp rfl hbound.keepsToWords hmeans
  obtain ⟨hstatus, hstdout⟩ := Ending.exit_of_ending? hending
  obtain ⟨fuel, ⟨status, stdout, stderr⟩, hrun, rfl, rfl⟩ :=
    (hexits 1 #[65]).mpr ⟨r, hyields, hstatus.symm, hstdout.symm⟩
  obtain rfl : stderr = faultMessage := hstderr fuel _ hrun
  exact ⟨m, hm, fuel, hrun⟩

end Brainfuck
