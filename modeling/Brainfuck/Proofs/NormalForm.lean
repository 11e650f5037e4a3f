import Brainfuck.Proofs.Optimization

/-!
# Normal forms of programs

A program is in normal form when none of its loops, at any depth, has an idiom that could stand for
it.  This is said here of the loops themselves and not of the pass: which bodies make a loop
reducible is read off the two tables of idioms.

One pass from the inside out reaches a normal form.  Two things could spoil that.  Replacing an
inner loop changes the body of the outer one; but a loop is looked at only when its body is in final
form, and it is left alone only if that body gives no idiom.  And an idiom could bring loops of its
own; but the only idiom with a body is written out from a delta map, and linear code has no loops.

* `isReducible`, `Node.isIrreducible`: loops that have an idiom, and nodes that are no such loop.
* `Program.normal_of_optimize`: the final form of a program has no reducible loop.
* `Program.optimize_of_normal`: a program without reducible loops is its own final form.
* `Program.optimize_reaches_normal_form`: so one pass is enough.
-/

namespace Brainfuck

/-! ## Reducible loops -/

/-- Whether a loop around a body has an idiom: the body is one move, one change by one, or has any
number of nodes but one and is that of a linear loop that takes one from its own cell. -/
def isReducible : List Node → Bool
  | [.moveRight _] => true
  | [.moveLeft _] => true
  | [.increment n] => n = 1
  | [.decrement n] => n = 1
  | [_] => false
  | body => (linearIdiom? body).isSome

/-- Whether a node is anything but a reducible loop. -/
def Node.isIrreducible : Node → Bool
  | .loop body => !isReducible body
  | _ => true

/-- Whether a node can stand in a final form. -/
def Node.isFinal (n : Node) : Bool := n.isInstruction && n.isIrreducible

variable {body : List Node} {n : Node}

/-- The reducible loops are those that the pass has an idiom for. -/
theorem isReducible_eq_isSome (body : List Node) : isReducible body = (loopIdiom? body).isSome := by
  match body with
  | [] => rfl
  | [n] =>
    cases n with
    | increment k | decrement k =>
      simp only [isReducible, loopIdiom?, singleIdiom?]
      split
      case isTrue hk => rw [decide_eq_true hk, Option.isSome_some]
      case isFalse hk => rw [decide_eq_false hk, Option.isSome_none]
    | _ => rfl
  | _ :: _ :: _ => simp only [isReducible, loopIdiom?]

/-- Linear code has no loops at all. -/
theorem every_isFinal_of_walk {here : Int} {m : DeltaMap} {p : List Node} {r : Int × DeltaMap}
    (h : walk? here m p = some r) : Program.every Node.isFinal p = true := by
  fun_induction walk? here m p with
  | case1 => rfl
  | case2 here m n p ih | case3 here m n p ih | case4 here m n p ih | case5 here m n p ih =>
    rw [Program.every, ih h]
    rfl
  | case6 => cases h

theorem every_isFinal_emit (m : DeltaMap) : Program.every Node.isFinal m.emit = true := by
  obtain ⟨m', hwalk, -⟩ := DeltaMap.walk?_emitFrom m.ascending 0 .empty
    fun a ha => absurd ha List.not_mem_nil
  exact every_isFinal_of_walk hwalk

/-- No idiom brings a reducible loop. -/
theorem every_isFinal_of_loopIdiom (h : loopIdiom? body = some n) : n.every Node.isFinal = true := by
  rw [loopIdiom?.eq_def] at h
  split at h
  case h_1 k =>
    rw [singleIdiom?.eq_def] at h
    split at h
    case h_1 | h_2 =>
      obtain rfl := Option.some.inj h
      rfl
    case h_3 | h_4 =>
      split at h
      · obtain rfl := Option.some.inj h
        rfl
      · cases h
    case h_5 => cases h
  case h_2 =>
    obtain ⟨m, -, -, rfl⟩ := linearIdiom?_eq_some h
    rw [multiplyIdiom]
    split
    · rfl
    · split <;> rfl
    · rw [Node.every, every_isFinal_emit]
      rfl

theorem Node.isInstruction_of_isFinal (n : Node) (h : n.isFinal = true) : n.isInstruction = true :=
  (Bool.and_eq_true _ _ ▸ h : n.isInstruction = true ∧ _).1

/-- A loop in final form around a body in normal form. -/
theorem every_isFinal_closeLoop (h : Program.every Node.isFinal body = true) :
    (closeLoop body).every Node.isFinal = true := by
  rw [closeLoop_eq (Program.every_mono Node.isInstruction_of_isFinal body h)]
  cases hidiom : loopIdiom? body with
  | some n => exact every_isFinal_of_loopIdiom hidiom
  | none =>
    have hirreducible : isReducible body = false := by
      rw [isReducible_eq_isSome, hidiom, Option.isSome_none]
    rw [Option.getD_none, Node.every, h, Node.isFinal, Node.isIrreducible, hirreducible]
    rfl

/-- An irreducible loop is its own final form. -/
theorem closeLoop_of_isFinal (h : (Node.loop body).isFinal = true)
    (hbody : Program.every Node.isFinal body = true) : closeLoop body = .loop body := by
  have hnone : loopIdiom? body = none := by
    rw [← Option.isNone_iff_eq_none, ← Option.isSome_eq_false_iff, ← isReducible_eq_isSome]
    simpa [Node.isFinal, Node.isIrreducible, Node.isInstruction] using h
  rw [closeLoop_eq (Program.every_mono Node.isInstruction_of_isFinal body hbody), hnone,
    Option.getD_none]

/-! ## Trees -/

mutual

theorem Node.every_isFinal : (n : Node) →
    n.every Node.isFinal = (n.every Node.isInstruction && n.every Node.isIrreducible)
  | .loop body | .scaled body => by
    rw [Node.every, Node.every, Node.every, Program.every_isFinal body, Node.isFinal]
    ac_rfl
  | .moveRight _ | .moveLeft _ | .increment _ | .decrement _ | .output | .input | .scanRight _
  | .scanLeft _ | .clear | .carryRight _ | .carryLeft _ | .foreign _ | .derived _ _ => rfl

/-- A program in normal form has instructions only and no reducible loop. -/
theorem Program.every_isFinal : (p : List Node) → Program.every Node.isFinal p =
    (Program.every Node.isInstruction p && Program.every Node.isIrreducible p)
  | [] => rfl
  | n :: p => by
    rw [Program.every, Program.every, Program.every, Node.every_isFinal n, Program.every_isFinal p]
    ac_rfl

end

mutual

theorem Node.normal_of_optimize : (n : Node) → n.every Node.isInstruction = true →
    ∀ {n'}, n.optimize = .ok n' → n'.every Node.isFinal = true
  | .loop body, hinstr, _, h => by
    obtain ⟨body', hbody, rfl⟩ := Node.optimize_loop h
    rw [Node.every, Bool.and_eq_true] at hinstr
    exact every_isFinal_closeLoop (Program.normal_of_optimize body hinstr.2 hbody)
  | .scaled body, hinstr, _, h => by
    obtain ⟨body', hbody, rfl⟩ := Node.optimize_scaled h
    rw [Node.every, Bool.and_eq_true] at hinstr
    rw [Node.every, Program.normal_of_optimize body hinstr.2 hbody]
    rfl
  | .foreign _, hinstr, _, _ | .derived _ _, hinstr, _, _ => nomatch hinstr
  | .moveRight _, _, _, rfl | .moveLeft _, _, _, rfl | .increment _, _, _, rfl
  | .decrement _, _, _, rfl | .output, _, _, rfl | .input, _, _, rfl | .scanRight _, _, _, rfl
  | .scanLeft _, _, _, rfl | .clear, _, _, rfl | .carryRight _, _, _, rfl
  | .carryLeft _, _, _, rfl => rfl

/-- What the pass gives for a tree of instructions is in normal form. -/
theorem Program.normal_of_optimize : (p : List Node) → Program.every Node.isInstruction p = true →
    ∀ {q}, Program.optimize p = .ok q → Program.every Node.isFinal q = true
  | [], _, _, rfl => rfl
  | n :: p, hinstr, _, h => by
    obtain ⟨n', p', hn, hp, rfl⟩ := Program.optimize_cons h
    rw [Program.every, Bool.and_eq_true] at hinstr
    rw [Program.every, Node.normal_of_optimize n hinstr.1 hn,
      Program.normal_of_optimize p hinstr.2 hp]
    rfl

end

mutual

theorem Node.optimize_of_normal : (n : Node) → n.every Node.isFinal = true → n.optimize = .ok n
  | .loop body, h => by
    rw [Node.every, Bool.and_eq_true] at h
    rw [Node.optimize, Program.optimize_of_normal body h.2]
    exact congrArg Except.ok (closeLoop_of_isFinal h.1 h.2)
  | .scaled body, h => by
    rw [Node.every, Bool.and_eq_true] at h
    rw [Node.optimize, Program.optimize_of_normal body h.2]
    rfl
  | .foreign _, h | .derived _ _, h => nomatch h
  | .moveRight _, _ | .moveLeft _, _ | .increment _, _ | .decrement _, _ | .output, _ | .input, _
  | .scanRight _, _ | .scanLeft _, _ | .clear, _ | .carryRight _, _ | .carryLeft _, _ => rfl

/-- A program in normal form is its own final form. -/
theorem Program.optimize_of_normal : (p : List Node) → Program.every Node.isFinal p = true →
    Program.optimize p = .ok p
  | [], _ => rfl
  | n :: p, h => by
    rw [Program.every, Bool.and_eq_true] at h
    rw [Program.optimize, Node.optimize_of_normal n h.1, Program.optimize_of_normal p h.2]
    rfl

end

/-- **Optimizing reaches a normal form, and stays there.**  A program of instructions has an optimized
form, in which no loop at any depth is reducible and which optimizing does not change.  Moreover the
programs of instructions that optimizing does not change are exactly those in which no loop is
reducible. -/
theorem Program.optimize_reaches_normal_form {p : Program}
    (hp : Program.every Node.isInstruction p = true) :
    (∃ q, Program.optimize p = .ok q ∧ Program.every Node.isIrreducible q = true ∧
      Program.optimize q = .ok q) ∧
    ∀ q, Program.every Node.isInstruction q = true →
      (Program.optimize q = .ok q ↔ Program.every Node.isIrreducible q = true) := by
  obtain ⟨q, hq⟩ := Program.exists_final p hp
  have hfinal := Program.normal_of_optimize p hp hq
  refine ⟨⟨q, hq, ?_, Program.optimize_of_normal q hfinal⟩, fun q hinstr => ?_⟩
  · rw [Program.every_isFinal, Bool.and_eq_true] at hfinal
    exact hfinal.2
  · have hiff : Program.every Node.isFinal q = true ↔ Program.every Node.isIrreducible q = true := by
      rw [Program.every_isFinal, hinstr, Bool.true_and]
    rw [← hiff]
    exact ⟨Program.normal_of_optimize q hinstr, Program.optimize_of_normal q⟩

/-- The outer loop is reducible only before its body is in final form, and the idiom of the inner
loop of the scaled body has a body of its own. -/
theorem Program.optimize_reaches_normal_form_nested :
    ∃ q, Program.optimize [.loop [.loop [.moveLeft 1]], .scaled [.loop [.decrement 1, .moveRight 2,
        .increment 3, .moveLeft 2]]] = .ok q ∧ Program.every Node.isIrreducible q = true ∧
      Program.optimize q = .ok q :=
  (Program.optimize_reaches_normal_form (p := [.loop [.loop [.moveLeft 1]], .scaled [.loop
    [.decrement 1, .moveRight 2, .increment 3, .moveLeft 2]]]) rfl).1

end Brainfuck
