import Brainfuck.Proofs.ForeignValues
import Mathlib.Order.Bounds.Basic

/-!
# The shape of a tree

What a tree looks like decides how long it is when it is written down, whether as a listing or as
code: every node takes one line or instruction, and a node with a body takes one more, where the body
ends.  So two numbers are counted here, of nodes and of bodies.

The third number is a depth.  `Program.scaleDepth` goes through a tree and keeps the greater of two
numbers at each node; a lineage goes down from the root to a single node and counts what it meets on
its way.  The first is the greatest among the second.

* `Program.bodies`: how many loops and scaled bodies there are.
* `Program.Lineage`: the nodes from the root down to a node.
* `Program.isGreatest_scaleDepth`: the depth of scaled bodies, by lineages.
-/

namespace Brainfuck

namespace Node

/-- The body of a node, empty if it has none. -/
def body : Node → List Node
  | loop body | scaled body => body
  | derived _ base => base.body
  | _ => []

/-- A node with another body, if it has one. -/
def withBody (body : List Node) : Node → Node
  | loop _ => loop body
  | scaled _ => scaled body
  | derived name base => derived name (base.withBody body)
  | n => n

/-- Whether a node is a scaled body. -/
def isScaled : Node → Bool
  | scaled _ => true
  | derived _ base => base.isScaled
  | _ => false

/-- The number of loops and scaled bodies of a node, itself included. -/
def bodies (n : Node) : Nat := (n :: n.inner).countP hasBody

@[simp] theorem withBody_withBody_body (n : Node) (p : List Node) :
    (n.withBody p).withBody n.body = n := by
  cases n with
  | derived name base => exact congrArg (derived name) (withBody_withBody_body base p)
  | _ => rfl

@[simp] theorem hasBody_withBody (n : Node) (p : List Node) :
    (n.withBody p).hasBody = n.hasBody := by
  cases n with
  | derived name base => exact hasBody_withBody base p
  | _ => rfl

theorem body_of_not_hasBody : (n : Node) → n.hasBody = false → n.body = []
  | derived _ base, h => body_of_not_hasBody base h
  | moveRight _, _ | moveLeft _, _ | increment _, _ | decrement _, _ | output, _ | input, _
  | scanRight _, _ | scanLeft _, _ | clear, _ | carryRight _, _ | carryLeft _, _
  | foreign _, _ => rfl

theorem inner_eq (n : Node) : n.inner = Program.preorder n.body := by
  cases n with
  | derived name base =>
    rw [inner, body]
    exact inner_eq base
  | _ => rfl

/-- A test on every node of a tree is a test on its root and on every node below. -/
theorem every_eq (ok : Node → Bool) {n : Node} (h : n.isInstruction = true) :
    n.every ok = (ok n && Program.every ok n.body) := by
  cases n with
  | derived => cases h
  | _ => simp [every, body, Program.every]

end Node

/-- The number of loops and scaled bodies of a tree. -/
def Program.bodies (p : List Node) : Nat := (Program.preorder p).countP Node.hasBody

theorem Program.bodies_cons (n : Node) (p : List Node) :
    Program.bodies (n :: p) = n.bodies + Program.bodies p := by
  rw [Program.bodies, Program.preorder, List.countP_append, Node.bodies, Program.bodies]

theorem Node.bodies_eq (n : Node) :
    n.bodies = Program.bodies n.body + if n.hasBody then 1 else 0 := by
  rw [Node.bodies, List.countP_cons, Node.inner_eq, Program.bodies]

theorem Node.size_eq (n : Node) : n.size = 1 + Program.size n.body := by
  cases n with
  | derived name base =>
    rw [Node.size, Node.body]
    exact Node.size_eq base
  | _ => rfl

/-- How long a node is when it is written down: as long as its body, one more for the node itself and
one more for the end of the body. -/
theorem Node.size_add_bodies (n : Node) :
    n.size + n.bodies =
      if n.hasBody then Program.size n.body + Program.bodies n.body + 2 else 1 := by
  rw [Node.size_eq, Node.bodies_eq]
  split
  case isTrue => omega
  case isFalse hbody =>
    rw [n.body_of_not_hasBody (Bool.eq_false_iff.mpr hbody)]
    rfl

theorem Node.scaleDepth_eq (n : Node) :
    n.scaleDepth = Program.scaleDepth n.body + if n.isScaled then 1 else 0 := by
  cases n with
  | derived name base =>
    rw [Node.scaleDepth, Node.body, Node.isScaled]
    exact Node.scaleDepth_eq base
  | _ => rfl

/-! ## Lineages -/

namespace Program

/-- The nodes on the way from the root of a tree down to one of its nodes, or only to the root. -/
inductive Lineage : List Node → List Node → Prop where
  | root (p : List Node) : Lineage p []
  | down {p way : List Node} {n : Node} (hn : n ∈ p) (h : Lineage n.body way) : Lineage p (n :: way)

theorem Lineage.mono {p q way : List Node} (h : Lineage p way) (hsub : p ⊆ q) : Lineage q way := by
  cases h with
  | root => exact .root q
  | down hn h => exact .down (hsub hn) h

theorem scaleDepth_le_of_mem {p : List Node} {n : Node} (hn : n ∈ p) :
    n.scaleDepth ≤ scaleDepth p := by
  induction p with
  | nil => cases hn
  | cons m p ih =>
    rw [scaleDepth]
    rcases List.mem_cons.mp hn with rfl | hn
    · exact Nat.le_max_left _ _
    · exact Nat.le_trans (ih hn) (Nat.le_max_right _ _)

/-- No lineage has more scaled bodies than the depth says. -/
theorem Lineage.countP_le {p way : List Node} (h : Lineage p way) :
    way.countP Node.isScaled ≤ scaleDepth p := by
  induction h with
  | root p => exact Nat.zero_le _
  | down hn h ih =>
    have hdepth := scaleDepth_le_of_mem hn
    rw [Node.scaleDepth_eq] at hdepth
    rw [List.countP_cons]
    omega

mutual

theorem exists_lineage_body : (n : Node) →
    ∃ way, Lineage n.body way ∧ way.countP Node.isScaled = scaleDepth n.body
  | .loop body | .scaled body => exists_lineage body
  | .derived _ base => exists_lineage_body base
  | .moveRight _ | .moveLeft _ | .increment _ | .decrement _ | .output | .input | .scanRight _
  | .scanLeft _ | .clear | .carryRight _ | .carryLeft _ | .foreign _ => ⟨[], .root [], rfl⟩

/-- Some lineage has as many scaled bodies as the depth says. -/
theorem exists_lineage : (p : List Node) →
    ∃ way, Lineage p way ∧ way.countP Node.isScaled = scaleDepth p
  | [] => ⟨[], .root [], rfl⟩
  | n :: p => by
    rw [scaleDepth]
    rcases Nat.le_total (scaleDepth p) n.scaleDepth with hle | hle
    · obtain ⟨way, hway, hcount⟩ := exists_lineage_body n
      refine ⟨n :: way, .down List.mem_cons_self hway, ?_⟩
      rw [List.countP_cons, hcount, ← Node.scaleDepth_eq, Nat.max_eq_left hle]
    · obtain ⟨way, hway, hcount⟩ := exists_lineage p
      refine ⟨way, hway.mono (List.subset_cons_self n p), ?_⟩
      rw [hcount, Nat.max_eq_right hle]

end

/-- The depth of scaled bodies is the greatest number of them on the way to a node. -/
theorem isGreatest_scaleDepth (p : List Node) :
    IsGreatest {k | ∃ way, Lineage p way ∧ way.countP Node.isScaled = k} (scaleDepth p) := by
  constructor
  · exact exists_lineage p
  · rintro _ ⟨way, hway, rfl⟩
    exact hway.countP_le

end Program

end Brainfuck
