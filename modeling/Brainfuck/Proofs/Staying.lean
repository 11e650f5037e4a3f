import Mathlib.Logic.Relation
import Brainfuck.Proofs.Flattening

/-!
# Staying below a bound

Compiled programs keep the index in a word, so they do what the tree says only as long as the indices
that they compute stay below a bound.  Whether they do is a matter of everything that happens on the
way and not of the ending, which there need not be.

`Program.Stays` says it by recursion over the tree: a move, a scan and a carry to the right get to an
index below the bound, in every pass of every loop.  For trees that have been flattened it follows from
the same thing about the steps of an execution, since a sequence is left where its code is left.

* `Node.Stays`, `Program.Stays`: the indices stay below a bound.
* `FlatCode.StaysBelow`: the same for the steps of an execution, which keeps to words then.
* `Program.stays_of_flatten`: the tree stays below a bound if the execution does.
-/

namespace Brainfuck

open Execution Behaviour

/-- A pass of a loop leads from one test of the cell to the next. -/
def Behaviour.Passes (R : Behaviour) (c d : Config) : Prop := c.cell ≠ 0 ∧ R c (.done d)

mutual

/-- In everything that a node does at a configuration the indices stay below a bound. -/
def Node.Stays (bound : Nat) (scale : UInt8) : Node → Config → Prop
  | .loop body => fun c =>
    ∀ d, Relation.ReflTransGen (Passes (Program.Means 1 body)) c d → d.cell ≠ 0 →
      Program.Stays bound 1 body d
  | .scaled body => fun c => c.cell ≠ 0 → Program.Stays bound c.cell body c
  | .moveRight n | .carryRight n => fun c => c.index + n.toNat < bound
  | .scanRight n => fun c => ∀ d, (Node.scanRight n).Means scale c (.done d) → d.index < bound
  | .moveLeft _ | .increment _ | .decrement _ | .output | .input | .scanLeft _ | .clear
  | .carryLeft _ | .foreign _ => fun _ => True
  | .derived _ base => base.Stays bound scale

/-- In everything that a sequence does at a configuration the indices stay below a bound. -/
def Program.Stays (bound : Nat) (scale : UInt8) : List Node → Config → Prop
  | [] => fun _ => True
  | n :: p => fun c =>
    n.Stays bound scale c ∧ ∀ d, n.Means scale c (.done d) → Program.Stays bound scale p d

end

/-! ## Executions -/

/-- The index that the next instruction computes is below a bound. -/
def Execution.AimsBelow (p : FlatCode) (bound : Nat) (x : Execution) : Prop :=
  ∀ i target, p.code[x.machine.pc]? = some i → x.machine.goal? i = some target → target < bound

/-- All indices that an execution computes are below a bound. -/
def FlatCode.StaysBelow (p : FlatCode) (bound : Nat) (tape : Tape) (index : Nat)
    (input : List UInt8) : Prop :=
  ∀ n x, Runs (single p) n (p.start tape index input) x → x.AimsBelow p bound

/-- An execution whose indices are words keeps to words. -/
theorem FlatCode.StaysBelow.keepsToWords {p : FlatCode} {tape : Tape} {index : Nat}
    {input : List UInt8} (h : p.StaysBelow (2 ^ 63) tape index input) :
    p.KeepsToWords tape index input := fun n x hx i target hi htarget =>
  Or.inl (h n x hx i target hi htarget)

section Bounded

variable {p : FlatCode} {bound address depth : Nat} {values : Nat → UInt8} {c : Config}
  {x : Execution} {R : Behaviour}

/-- A scan to the right leads to the index that its instruction computes. -/
theorem Execution.At.index_lt_of_scanRight {n : Int} {scale : UInt8} (hn : 1 ≤ n)
    (hx : At p address depth values c x) (hi : p.code[address]? = some (.scanRight n))
    (hbound : x.AimsBelow p bound) (d : Config)
    (hd : (Node.scanRight n).Means scale c (.done d)) : d.index < bound := by
  have hscan := x.machine.tape.repeated_scanRight n.toNat (by omega) c.index c hx.cells.symm rfl
  obtain rfl := Ending.done.inj
    (Node.means_deterministic scale (.scanRight n) hd (Or.inl ⟨_, hscan, rfl⟩))
  refine hbound _ _ (hx.pc.symm ▸ hi) ?_
  rw [Machine.goal?, hx.place, Config.goTo_index]

/-- Every test of a loop is reached. -/
theorem exists_runs_of_passes {inner : List Instr} {behind : Nat}
    (hcode : StandsAt p.code address (.loopStart behind :: inner ++ [.loopEnd address]))
    (hbody : ∀ c x, At p (address + 1) depth values c x →
      Realizes (plain p) Outcome.Failed R c x (At p (address + 1 + inner.length) depth values))
    (hx : At p address depth values c x) {d : Config}
    (hd : Relation.ReflTransGen (Passes R) c d) :
    ∃ k y, Runs (plain p) k x y ∧ At p address depth values d y := by
  induction hd with
  | refl => exact ⟨0, x, .zero x, hx⟩
  | tail _ hpass ih =>
    obtain ⟨hnonzero, hR⟩ := hpass
    obtain ⟨k, y, hy, hat⟩ := ih
    obtain ⟨y₁, hy₁, hinside⟩ := hat.enterLoop hcode.head hnonzero
    obtain ⟨l, y₂, hy₂, hend⟩ := (hbody _ y₁ hinside).done hR
    obtain ⟨y₃, hy₃, hback⟩ := hend.repeatLoop hcode.tail.right.head
    exact ⟨_, y₃, ((hy.trans (.one hy₁)).trans hy₂).trans (.one hy₃), hback⟩

end Bounded

mutual

theorem Node.stays_of_bounded {p : FlatCode} {bound : Nat} :
    (n : Node) → ∀ {address depth slot block values scale c x},
      n.code address depth slot = .ok block → StandsAt p.code address block →
      HoldsScale depth values slot scale → depth + n.scaleDepth ≤ p.slots →
      n.every Node.hasSoundDistance = true → At p address depth values c x →
      (∀ k y, Runs (plain p) k x y → y.AimsBelow p bound) → n.Stays bound scale c
  | .loop body, _, _, _, _, _, _, _, _, hblock, hcode, _, hroom, hok, hx, hbound => by
    obtain ⟨inner, hinner, rfl⟩ := Node.code_loop hblock
    rw [Node.every, Bool.and_eq_true] at hok
    rw [Node.scaleDepth] at hroom
    intro d hd hnonzero
    obtain ⟨k, y, hy, hat⟩ := exists_runs_of_passes hcode (fun c x hx =>
      Program.realizes_code body hinner hcode.tail.left rfl hroom hok.2 hx) hx hd
    obtain ⟨z, hz, hinside⟩ := hat.enterLoop hcode.head hnonzero
    exact Program.stays_of_bounded body hinner hcode.tail.left rfl hroom hok.2 hinside
      fun l w hw => hbound _ w ((hy.trans (.one hz)).trans hw)
  | .scaled body, _, depth, _, _, _, _, _, _, hblock, hcode, _, hroom, hok, hx, hbound => by
    obtain ⟨inner, hinner, rfl⟩ := Node.code_scaled hblock
    rw [Node.every, Bool.and_eq_true] at hok
    rw [Node.scaleDepth] at hroom
    intro hnonzero
    obtain ⟨y, hy, hinside⟩ := hx.enterScaled hcode.head (by omega) hnonzero
    exact Program.stays_of_bounded body hinner hcode.tail.left
      ⟨Nat.lt_succ_self depth, Function.update_self ..⟩ (by omega) hok.2 hinside
      fun l w hw => hbound _ w ((Runs.one hy).trans hw)
  | .moveRight n, _, _, _, _, _, _, _, x, hblock, hcode, _, _, _, hx, hbound
  | .carryRight n, _, _, _, _, _, _, _, x, hblock, hcode, _, _, _, hx, hbound => by
    obtain rfl := Except.ok.inj hblock
    have hgoal := hbound 0 x (.zero x) _ _ (hx.pc.symm ▸ hcode.head) rfl
    rwa [hx.place] at hgoal
  | .scanRight n, _, _, _, _, _, _, _, x, hblock, hcode, _, _, hok, hx, hbound => by
    obtain rfl := Except.ok.inj hblock
    exact hx.index_lt_of_scanRight (of_decide_eq_true hok) hcode.head (hbound 0 x (.zero x))
  | .moveLeft _, _, _, _, _, _, _, _, _, _, _, _, _, _, _, _
  | .increment _, _, _, _, _, _, _, _, _, _, _, _, _, _, _, _
  | .decrement _, _, _, _, _, _, _, _, _, _, _, _, _, _, _, _
  | .output, _, _, _, _, _, _, _, _, _, _, _, _, _, _, _
  | .input, _, _, _, _, _, _, _, _, _, _, _, _, _, _, _
  | .scanLeft _, _, _, _, _, _, _, _, _, _, _, _, _, _, _, _
  | .clear, _, _, _, _, _, _, _, _, _, _, _, _, _, _, _
  | .carryLeft _, _, _, _, _, _, _, _, _, _, _, _, _, _, _, _
  | .foreign _, _, _, _, _, _, _, _, _, _, _, _, _, _, _, _ => trivial
  | .derived _ base, _, _, _, _, _, _, _, _, hblock, hcode, hs, hroom, hok, hx, hbound => by
    rw [Node.every, Bool.and_eq_true] at hok
    exact Node.stays_of_bounded base (Node.code_derived hblock) hcode hs hroom hok.2 hx hbound

/-- The indices of a sequence stay below a bound if those of all steps from its code do. -/
theorem Program.stays_of_bounded {p : FlatCode} {bound : Nat} :
    (q : List Node) → ∀ {address depth slot block values scale c x},
      Program.code address depth slot q = .ok block → StandsAt p.code address block →
      HoldsScale depth values slot scale → depth + Program.scaleDepth q ≤ p.slots →
      Program.every Node.hasSoundDistance q = true → At p address depth values c x →
      (∀ k y, Runs (plain p) k x y → y.AimsBelow p bound) → Program.Stays bound scale q c
  | [], _, _, _, _, _, _, _, _, _, _, _, _, _, _, _ => trivial
  | n :: q, _, _, _, _, _, _, _, _, hblock, hcode, hs, hroom, hok, hx, hbound => by
    obtain ⟨first, rest, hfirst, hrest, rfl⟩ := Program.code_cons hblock
    rw [Program.every, Bool.and_eq_true] at hok
    rw [Program.scaleDepth] at hroom
    refine ⟨Node.stays_of_bounded n hfirst hcode.left hs (by omega) hok.1 hx hbound, fun d hd => ?_⟩
    obtain ⟨k, y, hy, hat⟩ :=
      (Node.realizes_code n hfirst hcode.left hs (by omega) hok.1 hx).done hd
    exact Program.stays_of_bounded q hrest hcode.right hs (by omega) hok.2 hat
      fun l w hw => hbound _ w (hy.trans hw)

end

/-- The indices of a program stay below a bound if those of its execution do, which keeps to words. -/
theorem Program.stays_of_flatten {q : Program} {p : FlatCode} (hp : q.flatten = .ok p)
    (hok : Program.every Node.hasSoundDistance q = true) {bound : Nat} {tape : Tape} {index : Nat}
    {input : List UInt8} (hwords : p.KeepsToWords tape index input)
    (hbound : p.StaysBelow bound tape index input) :
    Program.Stays bound 1 q (.start tape index input) := by
  have hplain := hwords.keepsPlain (Program.hasSoundDistances_of_flatten hp hok)
  obtain ⟨block, hblock, rfl⟩ := Program.code_of_flatten hp
  exact Program.stays_of_bounded q hblock (.of_toArray block) rfl (Nat.le_of_eq (Nat.zero_add _)) hok
    (FlatCode.start_at _ tape index input) fun k y hy => hbound k y (hplain.runs_iff.mpr hy)

end Brainfuck
