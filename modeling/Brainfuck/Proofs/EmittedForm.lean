import Brainfuck.Proofs.LinearRuns
import Brainfuck.Proofs.Shrinking
import Mathlib.Data.List.Chain

/-!
# What a written-out delta map looks like

`DeltaMap.deltas?_emit` says that a delta map can be read off the sequence that it is written out as.
Here the sequence itself is described: how large its amounts are, how its moves are spread, and where
it goes.  All three follow the recursion of `DeltaMap.emitFrom`, which adds a change, or a move and
a change, for each entry.

A move is only written where it leads elsewhere, so none is by zero, and behind each of them stands a
change or nothing.  The two ways to write a change meet at half of a byte: an increment may be by up to
128, a decrement by one less.

* `DeltaMap.reduced`: a map with its changes modulo 256.
* `Node.isShortStep`: the nodes that a map with changes from 1 to 255 is written with.
* `DeltaMap.mem_passed_emit`: the offsets that the sequence passes through.
* `DeltaMap.emit_read_back`: a map is read back from what it was written out as.
-/

namespace Brainfuck

namespace Node

/-- Whether a node is a move. -/
def isMove : Node → Bool
  | moveRight _ | moveLeft _ => true
  | _ => false

/-- Whether a node is a move that leads elsewhere, or a change that is written the shorter way and
does something. -/
def isShortStep : Node → Bool
  | moveRight n | moveLeft n => 1 ≤ n
  | increment n => 1 ≤ n && n ≤ 128
  | decrement n => 1 ≤ n && n ≤ 127
  | _ => false

end Node

theorem isShortStep_moveBy {distance : Int} (h : distance ≠ 0) :
    (moveBy distance).isShortStep = true := by
  rw [moveBy]
  split
  · exact decide_eq_true (by omega)
  · exact decide_eq_true (by omega)

theorem isShortStep_changeBy {delta : Int} (hpos : 1 ≤ delta) (hle : delta ≤ 255) :
    (changeBy delta).isShortStep = true := by
  rw [changeBy]
  split
  case isTrue h => simp only [Node.isShortStep, Bool.and_eq_true, decide_eq_true_eq]; omega
  case isFalse h => simp only [Node.isShortStep, Bool.and_eq_true, decide_eq_true_eq]; omega

theorem isMove_changeBy (delta : Int) : (changeBy delta).isMove = false := by
  rw [changeBy]
  split <;> rfl

theorem passed_moveBy (here distance : Int) (p : List Node) :
    passed here (moveBy distance :: p) = here :: passed (here + distance) p := by
  rw [moveBy]
  split
  · rw [passed]
  · rw [passed, Int.sub_neg]

theorem passed_changeBy (here delta : Int) (p : List Node) :
    passed here (changeBy delta :: p) = passed here p := by
  rw [changeBy]
  split <;> rfl

namespace DeltaMap

/-- A map with its changes modulo 256. -/
def reduced (m : DeltaMap) : DeltaMap where
  entries := m.entries.map fun e => (e.1, e.2 % 256)
  ascending := List.pairwise_map.mpr m.ascending

/-- Two maps with the same entries are equal. -/
theorem ext_entries {m m' : DeltaMap} (h : m.entries = m'.entries) : m = m' := by
  cases m
  cases m'
  cases h
  rfl

/-! ## Along the entries -/

theorem isShortStep_of_mem_emitFrom {entries : List (Int × Int)}
    (h : ∀ e ∈ entries, 1 ≤ e.2 ∧ e.2 ≤ 255) {here : Int} :
    ∀ n ∈ emitFrom here entries, n.isShortStep = true := by
  induction entries generalizing here with
  | nil =>
    intro n hn
    rw [emitFrom] at hn
    split at hn
    case isTrue => cases hn
    case isFalse hne =>
      rw [List.mem_singleton.mp hn]
      exact isShortStep_moveBy (by omega)
  | cons e rest ih =>
    obtain ⟨offset, delta⟩ := e
    obtain ⟨hdelta, hrest⟩ := List.forall_mem_cons.mp h
    have hchange : ∀ n ∈ changeBy delta :: emitFrom offset rest, n.isShortStep = true :=
      List.forall_mem_cons.mpr ⟨isShortStep_changeBy hdelta.1 hdelta.2, ih hrest⟩
    rw [emitFrom]
    split
    case isTrue => exact hchange
    case isFalse hne =>
      exact List.forall_mem_cons.mpr ⟨isShortStep_moveBy (by omega), hchange⟩

/-- No two moves stand side by side. -/
theorem isChain_emitFrom (here : Int) (entries : List (Int × Int)) :
    (emitFrom here entries).IsChain fun a b => (a.isMove && b.isMove) = false := by
  induction entries generalizing here with
  | nil =>
    rw [emitFrom]
    split
    · exact .nil
    · exact .singleton _
  | cons e rest ih =>
    obtain ⟨offset, delta⟩ := e
    have hchange : (changeBy delta :: emitFrom offset rest).IsChain
        fun a b => (a.isMove && b.isMove) = false := by
      refine List.isChain_cons.mpr ⟨fun b _ => ?_, ih offset⟩
      rw [isMove_changeBy, Bool.false_and]
    rw [emitFrom]
    split
    case isTrue => exact hchange
    case isFalse =>
      refine List.isChain_cons_cons.mpr ⟨?_, hchange⟩
      rw [isMove_changeBy, Bool.and_false]

theorem mem_passed_emitFrom (k here : Int) (entries : List (Int × Int)) :
    k ∈ passed here (emitFrom here entries) ↔ k = here ∨ k = 0 ∨ ∃ e ∈ entries, e.1 = k := by
  induction entries generalizing here with
  | nil =>
    rw [emitFrom]
    split
    case isTrue hhere => simp [passed, hhere]
    case isFalse =>
      rw [passed_moveBy, passed, Int.add_right_neg]
      simp
  | cons e rest ih =>
    obtain ⟨offset, delta⟩ := e
    simp only [List.mem_cons, exists_eq_or_imp]
    rw [emitFrom]
    split
    case isTrue hhere =>
      rw [passed_changeBy, ← hhere, ih]
      grind
    case isFalse =>
      rw [passed_moveBy, passed_changeBy, show here + (offset - here) = offset by omega,
        List.mem_cons, ih]
      grind

/-- What is written out passes through zero and the offsets of the map, and through no others. -/
theorem mem_passed_emit (m : DeltaMap) (k : Int) :
    k ∈ passed 0 m.emit ↔ k = 0 ∨ k ∈ m.offsets := by
  rw [emit, mem_passed_emitFrom, mem_offsets]
  exact ⟨fun h => h.elim Or.inl id, Or.inr⟩

/-- **A delta map is read back from what it was written out as.**  The map of the sequence has the
offsets of the map, with the changes modulo 256.  If all changes are from 1 to 255, then the moves of
the sequence are by positive distances, its increments by 1 to 128 and its decrements by 1 to 127; no
two moves stand side by side; and the offsets that it passes through are zero and those of the map. -/
theorem emit_read_back (m : DeltaMap) :
    deltas? m.emit = some m.reduced ∧
      ((∀ e ∈ m.entries, 1 ≤ e.2 ∧ e.2 ≤ 255) →
        (∀ n ∈ m.emit, n.isShortStep = true) ∧
        (m.emit.IsChain fun a b => (a.isMove && b.isMove) = false) ∧
        ∀ k, k ∈ passed 0 m.emit ↔ k = 0 ∨ k ∈ m.offsets) := by
  constructor
  · obtain ⟨m', hdeltas, hentries⟩ := deltas?_emit m
    rw [hdeltas]
    exact congrArg some (ext_entries hentries)
  · intro h
    exact ⟨isShortStep_of_mem_emitFrom h, isChain_emitFrom 0 m.entries, mem_passed_emit m⟩

/-- Offsets on both sides of zero and at zero, with changes on both sides of a half. -/
theorem emit_read_back_crossing :
    let m := ofList [(3, 128), (-2, 129), (0, 255), (5, 1)]
    m.emit = [.moveLeft 2, .decrement 127, .moveRight 2, .decrement 1, .moveRight 3, .increment 128,
        .moveRight 2, .increment 1, .moveLeft 5] ∧
      deltas? m.emit = some m.reduced ∧ (∀ n ∈ m.emit, n.isShortStep = true) ∧
      ∀ k, k ∈ passed 0 m.emit ↔ k = 0 ∨ k ∈ m.offsets := by
  intro m
  have h := emit_read_back m
  have hform := h.2 (by decide)
  exact ⟨by decide, h.1, hform.1, hform.2.2⟩

end DeltaMap

end Brainfuck
