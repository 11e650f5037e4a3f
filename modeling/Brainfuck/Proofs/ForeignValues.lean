import Brainfuck.Proofs.Compilation
import Brainfuck.Proofs.NormalForm
import Brainfuck.Proofs.ScaleScopes

/-!
# Foreign values

A tree that was built by hand may hold values that are no instructions.  Three passes work on trees:
loops are replaced by idioms, the tree is made into flat code, and it is lowered to blocks.  Each of
them gives up at a value that it does not take and names it.  What they do between one node and the
next has little in common: the first has finished the body of a loop before it looks at the loop itself,
the second has laid down the instructions in front, and the third has opened blocks and taken names.
The value that they name is nevertheless always the first in pre-order.

They do not take the same values.  The first two ask whether a value is an instance of an instruction,
the third whether it is of the very class of one.  The difference is in values of derived classes: a
tree that holds one has flat code and no module.  Where there are none, the three agree.

So a pass is compared with one list, the nodes in pre-order, and a test.  For a pass that takes the
parts of a tree one after another there is one thing to be seen: the second part can only be refused if
the first is not (`refusal?_bind`), as in a search through two lists in a row.

* `Program.preorder`, `Program.FirstNot`: the nodes of a tree in pre-order, and the first of them that
  fails a test.
* `refusal?`, `IR.Build.Refuses`: what a computation, or a construction of blocks, is given up for.
* `Program.refusal?_optimize`, `Program.refusal?_code`, `Program.refuses_lower`: the three passes.
* `Program.passes_refuse_alike`: what they have in common.
-/

namespace Brainfuck

/-! ## Trees in pre-order -/

mutual

/-- The nodes in the body of a node, each before those in its own body. -/
def Node.inner : Node → List Node
  | .loop body | .scaled body => Program.preorder body
  | .derived _ base => base.inner
  | _ => []

/-- The nodes of a tree from left to right, each before those in its body. -/
def Program.preorder : List Node → List Node
  | [] => []
  | n :: p => (n :: n.inner) ++ Program.preorder p

end

/-- The first of a node and the nodes in it that fails a test. -/
def Node.firstNot? (ok : Node → Bool) (n : Node) : Option Node :=
  (n :: n.inner).find? fun m => !ok m

/-- The first node of a tree that fails a test. -/
def Program.firstNot? (ok : Node → Bool) (p : Program) : Option Node :=
  (Program.preorder p).find? fun n => !ok n

section Tests

variable {ok : Node → Bool} {p : Program} {n : Node} {body : List Node}

theorem Node.firstNot?_loop (h : ok (.loop body) = true) :
    (Node.loop body).firstNot? ok = Program.firstNot? ok body := by
  rw [firstNot?, List.find?_cons, h, inner]
  rfl

theorem Node.firstNot?_scaled (h : ok (.scaled body) = true) :
    (Node.scaled body).firstNot? ok = Program.firstNot? ok body := by
  rw [firstNot?, List.find?_cons, h, inner]
  rfl

theorem Program.firstNot?_cons (n : Node) (p : List Node) :
    Program.firstNot? ok (n :: p) = (n.firstNot? ok).or (Program.firstNot? ok p) := by
  rw [firstNot?, preorder, List.find?_append]
  rfl

/-- An instance of a derived class is searched like the instruction. -/
theorem Node.firstNot?_derived (name : String) (h : n.isInstance = true) :
    (Node.derived name n).firstNot? Node.isInstance = n.firstNot? Node.isInstance := by
  rw [firstNot?, firstNot?, List.find?_cons, List.find?_cons, isInstance, inner, h]
  rfl

/-- Where there is no body, the node itself is all. -/
theorem Node.inner_of_hasBody : (n : Node) → n.hasBody = false → n.inner = []
  | .derived _ base, h => Node.inner_of_hasBody base h
  | .moveRight _, _ | .moveLeft _, _ | .increment _, _ | .decrement _, _ | .output, _ | .input, _
  | .scanRight _, _ | .scanLeft _, _ | .clear, _ | .carryRight _, _ | .carryLeft _, _
  | .foreign _, _ => rfl

/-- What has a body is an instruction. -/
theorem Node.isInstance_of_hasBody : (n : Node) → n.hasBody = true → n.isInstance = true
  | .derived _ base, h => Node.isInstance_of_hasBody base h
  | .loop _, _ | .scaled _, _ => rfl

end Tests

/-- A test that a node of a derived class passes only if what it is derived from does. -/
def Inherited (ok : Node → Bool) : Prop :=
  ∀ name base, ok (.derived name base) = true → ok base = true

theorem inherited_isInstance : Inherited Node.isInstance := fun _ _ h => h

mutual

theorem Node.every_iff_inner {ok : Node → Bool} (hok : Inherited ok) :
    (n : Node) → (n.every ok = true ↔ ok n = true ∧ ∀ m ∈ n.inner, ok m = true)
  | .loop body | .scaled body => by
    rw [Node.every, Bool.and_eq_true, Program.every_iff_preorder hok body, Node.inner]
  | .derived name base => by
    rw [Node.every, Bool.and_eq_true, Node.every_iff_inner hok base, Node.inner]
    exact ⟨fun ⟨h, _, hinner⟩ => ⟨h, hinner⟩, fun ⟨h, hinner⟩ => ⟨h, hok name base h, hinner⟩⟩
  | .moveRight _ | .moveLeft _ | .increment _ | .decrement _ | .output | .input | .scanRight _
  | .scanLeft _ | .clear | .carryRight _ | .carryLeft _ | .foreign _ => by
    simp [Node.every, Node.inner]

/-- All nodes of a tree pass a test. -/
theorem Program.every_iff_preorder {ok : Node → Bool} (hok : Inherited ok) : (p : List Node) →
    (Program.every ok p = true ↔ ∀ n ∈ Program.preorder p, ok n = true)
  | [] => by simp [Program.every, Program.preorder]
  | n :: p => by
    rw [Program.every, Bool.and_eq_true, Node.every_iff_inner hok n, Program.every_iff_preorder hok p,
      Program.preorder, List.forall_mem_append, List.forall_mem_cons]

end

/-! ## Computations that are given up -/

/-- What a computation is given up for. -/
def refusal? {ε α : Type} : Except ε α → Option ε
  | .ok _ => none
  | .error e => some e

section Refusals

variable {ε α β : Type} {x : Except ε α} {e : ε} {o : Option ε}

theorem refusal?_eq_none : refusal? x = none ↔ ∃ a, x = .ok a := by
  cases x <;> simp [refusal?]

/-- A second part is given up only if the first is not. -/
theorem refusal?_bind {f : α → Except ε β} (h : ∀ a, refusal? (f a) = o) :
    refusal? (x >>= f) = (refusal? x).or o := by
  cases x with
  | ok a => exact (h a).trans (Option.none_or).symm
  | error e => rfl

/-- A last part that is never given up. -/
theorem refusal?_bind_ok {f : α → β} : refusal? (x >>= fun a => .ok (f a)) = refusal? x := by
  cases x <;> rfl

end Refusals

/-! ## Idioms and flat code -/

mutual

theorem Node.refusal?_optimize : (n : Node) → refusal? n.optimize = n.firstNot? Node.isInstance
  | .loop body => by
    rw [Node.firstNot?_loop rfl, ← Program.refusal?_optimize body, Node.optimize]
    exact refusal?_bind_ok
  | .scaled body => by
    rw [Node.firstNot?_scaled rfl, ← Program.refusal?_optimize body, Node.optimize]
    exact refusal?_bind_ok
  | .derived name base => by
    rw [Node.optimize]
    cases hbody : base.hasBody with
    | true =>
      rw [if_pos rfl, Node.firstNot?_derived name (base.isInstance_of_hasBody hbody)]
      exact Node.refusal?_optimize base
    | false =>
      rw [if_neg Bool.false_ne_true, Node.firstNot?, List.find?_cons, Node.isInstance, Node.inner,
        base.inner_of_hasBody hbody]
      cases base.isInstance <;> rfl
  | .moveRight _ | .moveLeft _ | .increment _ | .decrement _ | .output | .input | .scanRight _
  | .scanLeft _ | .clear | .carryRight _ | .carryLeft _ | .foreign _ => rfl

/-- Loops are replaced unless there is a value that is no instance of an instruction. -/
theorem Program.refusal?_optimize :
    (p : List Node) → refusal? (Program.optimize p) = Program.firstNot? Node.isInstance p
  | [] => rfl
  | n :: p => by
    rw [Program.firstNot?_cons, ← Node.refusal?_optimize n, ← Program.refusal?_optimize p,
      Program.optimize]
    exact refusal?_bind fun _ => refusal?_bind_ok

end

mutual

theorem Node.refusal?_code (address depth : Nat) (slot : Option Nat) :
    (n : Node) → refusal? (n.code address depth slot) = n.firstNot? Node.isInstance
  | .loop body => by
    rw [Node.firstNot?_loop rfl, ← Program.refusal?_code (address + 1) depth none body, Node.code]
    exact refusal?_bind_ok
  | .scaled body => by
    rw [Node.firstNot?_scaled rfl, ← Program.refusal?_code (address + 1) (depth + 1) (some depth) body,
      Node.code]
    exact refusal?_bind_ok
  | .derived name base => by
    rw [Node.code]
    cases hbase : base.isInstance with
    | true =>
      rw [if_pos rfl, Node.firstNot?_derived name hbase]
      exact Node.refusal?_code address depth slot base
    | false =>
      rw [if_neg Bool.false_ne_true, Node.firstNot?, List.find?_cons, Node.isInstance, hbase]
      rfl
  | .moveRight _ | .moveLeft _ | .increment _ | .decrement _ | .output | .input | .scanRight _
  | .scanLeft _ | .clear | .carryRight _ | .carryLeft _ | .foreign _ => rfl

/-- A tree has code, wherever it is to stand, unless there is a value that is no instance of an
instruction. -/
theorem Program.refusal?_code (address depth : Nat) (slot : Option Nat) :
    (p : List Node) →
      refusal? (Program.code address depth slot p) = Program.firstNot? Node.isInstance p
  | [] => rfl
  | n :: p => by
    rw [Program.firstNot?_cons, ← Node.refusal?_code address depth slot n, Program.code]
    exact refusal?_bind fun first =>
      refusal?_bind_ok.trans (Program.refusal?_code (address + first.length) depth slot p)

end

namespace IR.Build

/-- Whatever has been built before, a construction is given up for a value, or not at all. -/
def Refuses {α : Type} (m : Build α) (o : Option Node) : Prop := ∀ b, refusal? (m b) = o

section

variable {α β : Type} {m : Build α} {f : α → Build β} {o o' : Option Node}

theorem refuses_none [Succeeding m] : Refuses m none := fun b =>
  refusal?_eq_none.mpr (Succeeding.succeeds b)

theorem Refuses.bind (h : Refuses m o) (h' : ∀ a, Refuses (f a) o') :
    Refuses (m >>= f) (o.or o') := fun b => by
  rw [← h b]
  exact refusal?_bind fun r => h' r.1 r.2

/-- Something in front that is not given up. -/
theorem Refuses.after [Succeeding m] (h : ∀ a, Refuses (f a) o) : Refuses (m >>= f) o := by
  rw [← Option.none_or (o := o)]
  exact refuses_none.bind h

/-- Something behind that is not given up. -/
theorem Refuses.before (h : Refuses m o) [∀ a, Succeeding (f a)] : Refuses (m >>= f) o := by
  rw [← Option.or_none (o := o)]
  exact h.bind fun _ => refuses_none

end

end IR.Build

open IR IR.Build

mutual

theorem Node.refuses_lower :
    (n : Node) → ∀ scale, Refuses (n.lower scale) (n.firstNot? Node.isInstruction)
  | .moveRight _, _ | .moveLeft _, _ | .increment _, _ | .decrement _, _ | .output, _ | .input, _
  | .scanRight _, _ | .scanLeft _, _ | .clear, _ | .carryRight _, _ | .carryLeft _, _ =>
    @refuses_none _ _ (succeeding_lower_node _ rfl _)
  | .loop body, _ => by
    rw [Node.firstNot?_loop rfl, Node.lower]
    -- the blocks of the loop are there and its test is written before the body is looked at
    refine .after fun head => .after fun inside => .after fun behind => .after fun _ => ?_
    refine .after fun _ => .after fun _ => .after fun _ => .after fun _ => ?_
    exact .after fun _ => .after fun _ => (Program.refuses_lower body none).before
  | .scaled body, _ => by
    rw [Node.firstNot?_scaled rfl, Node.lower]
    refine .after fun address => .after fun multiplier => .after fun inside => .after fun behind => ?_
    refine .after fun _ => .after fun _ => .after fun _ => ?_
    exact (Program.refuses_lower body (some multiplier)).before
  | .foreign _, _ | .derived _ _, _ => fun _ => rfl

/-- A tree is lowered unless there is a value that is no instruction. -/
theorem Program.refuses_lower : (p : List Node) → ∀ scale,
    Refuses (Program.lower scale p) (Program.firstNot? Node.isInstruction p)
  | [], _ => fun _ => rfl
  | n :: p, scale => by
    rw [Program.firstNot?_cons, Program.lower]
    exact (Node.refuses_lower n scale).bind fun _ => Program.refuses_lower p scale

end

theorem every_isInstance_closeLoop {body : List Node}
    (h : Program.every Node.isInstance body = true) :
    (closeLoop body).every Node.isInstance = true := by
  cases hidiom : loopIdiom? (body.map Node.plain) with
  | none => simpa [closeLoop, hidiom, Node.every, Node.isInstance] using h
  | some n =>
    have hfinal := every_isFinal_of_loopIdiom hidiom
    rw [closeLoop, hidiom, Option.getD_some]
    refine Node.every_mono (fun m hm => ?_) n hfinal
    cases m <;> first | rfl | cases hm

mutual

theorem Node.every_isInstance_of_optimize : (n : Node) → ∀ {m : Node}, n.optimize = .ok m →
    m.every Node.isInstance = true
  | .loop body, _, h => by
    obtain ⟨body', hbody, rfl⟩ := Node.optimize_loop h
    exact every_isInstance_closeLoop (Program.every_isInstance_of_optimize body hbody)
  | .scaled body, _, h => by
    obtain ⟨body', hbody, rfl⟩ := Node.optimize_scaled h
    exact Program.every_isInstance_of_optimize body hbody
  | .derived name base, _, h => by
    rw [Node.optimize] at h
    split at h
    case isTrue => exact Node.every_isInstance_of_optimize base h
    case isFalse hbody =>
      split at h
      case isTrue hbase =>
        obtain rfl := Except.ok.inj h
        rw [Node.every_iff_inner inherited_isInstance, Node.inner,
          base.inner_of_hasBody (by simpa using hbody)]
        exact ⟨hbase, fun _ hm => absurd hm List.not_mem_nil⟩
      case isFalse => cases h
  | .moveRight _, _, h | .moveLeft _, _, h | .increment _, _, h | .decrement _, _, h | .output, _, h
  | .input, _, h | .scanRight _, _, h | .scanLeft _, _, h | .clear, _, h | .carryRight _, _, h
  | .carryLeft _, _, h => by
    obtain rfl := Except.ok.inj h
    rfl
  | .foreign _, _, h => nomatch h

/-- A tree in which loops have been replaced holds only instances of instructions. -/
theorem Program.every_isInstance_of_optimize : (p : List Node) → ∀ {q : List Node},
    Program.optimize p = .ok q → Program.every Node.isInstance q = true
  | [], _, h => by
    obtain rfl := Except.ok.inj h
    rfl
  | n :: p, _, h => by
    obtain ⟨n', p', hn, hp, rfl⟩ := Program.optimize_cons h
    rw [Program.every, Bool.and_eq_true]
    exact ⟨Node.every_isInstance_of_optimize n hn, Program.every_isInstance_of_optimize p hp⟩

end

end Brainfuck
