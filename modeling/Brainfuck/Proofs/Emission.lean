import Brainfuck.Proofs.LinearLoop

/-!
# Writing out a delta map

The sequence that a delta map is written out as has that map, modulo 256, and passes through no
offset but those of the map and zero.  The walk over the sequence meets the offsets in ascending
order, so each change goes to the end of the map that the walk has collected; this is what the
induction is about.

* `DeltaMap.get_of_mem`, `DeltaMap.get_filter`: reading entries.
* `DeltaMap.walk?_emitFrom`, `DeltaMap.deltas?_emit`: the map of what is written out.
* `DeltaMap.le_leftmost_emit`: the offsets that it passes through.
-/

namespace Brainfuck

namespace DeltaMap

/-! ## Reading entries -/

theorem lookup_of_mem {entries : List (Int × Int)} (hasc : entries.Pairwise fun a b => a.1 < b.1)
    {e : Int × Int} (he : e ∈ entries) : entries.lookup e.1 = some e.2 := by
  induction entries with
  | nil => cases he
  | cons a rest ih =>
    obtain ⟨hfirst, hrest⟩ := List.pairwise_cons.mp hasc
    rw [lookup_cons_pair]
    rcases List.mem_cons.mp he with rfl | he
    · rw [if_pos rfl]
    · have hlt := hfirst e he
      rw [if_neg (by omega)]
      exact ih hrest he

/-- The change of an entry. -/
theorem get_of_mem {m : DeltaMap} {e : Int × Int} (he : e ∈ m.entries) : m.get e.1 = e.2 := by
  rw [get, lookup_of_mem m.ascending he, Option.getD_some]

theorem mem_of_lookup {entries : List (Int × Int)} {k d : Int} (h : entries.lookup k = some d) :
    (k, d) ∈ entries := by
  induction entries with
  | nil => cases h
  | cons a rest ih =>
    rw [lookup_cons_pair] at h
    split at h
    case isTrue hk =>
      rw [← Option.some.inj h, hk]
      exact List.mem_cons_self
    case isFalse => exact List.mem_cons_of_mem _ (ih h)

/-- What is changed has an entry. -/
theorem mem_of_get_ne_zero {m : DeltaMap} {k : Int} (h : m.get k ≠ 0) : (k, m.get k) ∈ m.entries := by
  rw [get] at h ⊢
  cases hlookup : m.entries.lookup k with
  | none =>
    rw [hlookup] at h
    exact absurd rfl h
  | some d => exact mem_of_lookup hlookup

/-- A part of a map reads as the map where it keeps the entry, and as zero elsewhere. -/
theorem get_filter (m : DeltaMap) (keep : Int → Int → Bool) (k : Int) :
    (m.filter keep).get k = if keep k (m.get k) then m.get k else 0 := by
  by_cases hzero : (m.filter keep).get k = 0
  · rw [hzero]
    split
    case isTrue hkeep =>
      by_contra hne
      have hmem := mem_of_get_ne_zero (Ne.symm hne)
      have hkept : (k, m.get k) ∈ (m.filter keep).entries := List.mem_filter.mpr ⟨hmem, hkeep⟩
      exact hne (hzero.symm.trans (get_of_mem hkept))
    case isFalse => rfl
  · have hmem := mem_of_get_ne_zero hzero
    obtain ⟨hold, hkeep⟩ := List.mem_filter.mp hmem
    have hsame : m.get k = (m.filter keep).get k := get_of_mem hold
    rw [hsame, if_pos hkeep]

/-- A change behind all others goes to the end. -/
theorem adjustEntries_of_lt {offset : Int} (f : Int → Int) {entries : List (Int × Int)}
    (h : ∀ e ∈ entries, e.1 < offset) :
    adjustEntries offset f entries = entries ++ [(offset, f 0)] := by
  induction entries with
  | nil => rfl
  | cons a rest ih =>
    have ha := h a List.mem_cons_self
    rw [adjustEntries, if_neg (by omega), if_neg (by omega), List.cons_append,
      ih fun e he => h e (List.mem_cons_of_mem _ he)]

/-! ## The map of what is written out -/

end DeltaMap

theorem walk?_moveBy (here distance : Int) (m : DeltaMap) (p : List Node) :
    walk? here m (moveBy distance :: p) = walk? (here + distance) m p := by
  rw [moveBy]
  split
  · rw [walk?]
  · rw [walk?, Int.sub_neg]

theorem walk?_changeBy (here delta : Int) (m : DeltaMap) (p : List Node) :
    walk? here m (changeBy delta :: p) =
      walk? here (m.adjust here fun d => (d + delta) % 256) p := by
  rw [changeBy]
  split
  · rw [walk?]
  · rw [walk?]
    congr 2
    funext d
    omega

theorem leftmost_moveBy (here distance : Int) (p : List Node) :
    leftmost here (moveBy distance :: p) = min here (leftmost (here + distance) p) := by
  rw [moveBy]
  split
  · rw [leftmost]
  · rw [leftmost, Int.sub_neg]

theorem leftmost_changeBy (here delta : Int) (p : List Node) :
    leftmost here (changeBy delta :: p) = leftmost here p := by
  rw [changeBy]
  split <;> rfl

theorem every_movesOn_moveBy {distance : Int} (h : distance ≠ 0) :
    (moveBy distance).every Node.movesOn = true := by
  rw [moveBy]
  split
  · exact decide_eq_true (by omega)
  · exact decide_eq_true (by omega)

theorem every_movesOn_changeBy (delta : Int) : (changeBy delta).every Node.movesOn = true := by
  rw [changeBy]
  split <;> rfl

namespace DeltaMap

/-- The walk over what is written out collects the entries, behind those that it has. -/
theorem walk?_emitFrom {entries : List (Int × Int)}
    (hasc : entries.Pairwise fun a b => a.1 < b.1) (here : Int) (m : DeltaMap)
    (hm : ∀ a ∈ m.entries, ∀ e ∈ entries, a.1 < e.1) :
    ∃ m', walk? here m (emitFrom here entries) = some (0, m') ∧
      m'.entries = m.entries ++ entries.map fun e => (e.1, e.2 % 256) := by
  induction entries generalizing here m with
  | nil =>
    refine ⟨m, ?_, (List.append_nil _).symm⟩
    rw [emitFrom]
    split
    case isTrue hhere => rw [walk?, hhere]
    case isFalse => rw [walk?_moveBy, walk?, Int.add_right_neg]
  | cons e rest ih =>
    obtain ⟨offset, delta⟩ := e
    obtain ⟨hfirst, hrest⟩ := List.pairwise_cons.mp hasc
    have hend : (m.adjust offset fun d => (d + delta) % 256).entries =
        m.entries ++ [(offset, (0 + delta) % 256)] :=
      adjustEntries_of_lt _ fun a ha => hm a ha (offset, delta) List.mem_cons_self
    have hstep : walk? here m (emitFrom here ((offset, delta) :: rest)) =
        walk? offset (m.adjust offset fun d => (d + delta) % 256) (emitFrom offset rest) := by
      rw [emitFrom]
      split
      case isTrue hhere => rw [walk?_changeBy, hhere]
      case isFalse =>
        rw [walk?_moveBy, walk?_changeBy, show here + (offset - here) = offset by omega]
    obtain ⟨m', hwalk, hentries⟩ := ih hrest offset (m.adjust offset fun d => (d + delta) % 256)
      (fun a ha e he => by
        rw [hend, List.mem_append, List.mem_singleton] at ha
        rcases ha with ha | rfl
        · exact hm a ha e (List.mem_cons_of_mem _ he)
        · exact hfirst e he)
    refine ⟨m', hstep.trans hwalk, ?_⟩
    rw [hentries, hend, List.append_assoc, List.map_cons, Int.zero_add]
    rfl

/-- What is written out has the map that it was written from, modulo 256. -/
theorem deltas?_emit (m : DeltaMap) :
    ∃ m', deltas? m.emit = some m' ∧ m'.entries = m.entries.map fun e => (e.1, e.2 % 256) := by
  obtain ⟨m', hwalk, hentries⟩ := walk?_emitFrom m.ascending 0 .empty fun a ha => by cases ha
  refine ⟨m', ?_, hentries⟩
  rw [deltas?, emit, hwalk]
  exact if_pos rfl

/-- Reducing all changes reduces what is read. -/
theorem get_of_entries_emod {m m' : DeltaMap}
    (h : m'.entries = m.entries.map fun e => (e.1, e.2 % 256)) (k : Int) :
    m'.get k = m.get k % 256 := by
  rw [get, get, h]
  generalize m.entries = entries
  induction entries with
  | nil => rfl
  | cons e rest ih =>
    rw [List.map_cons, lookup_cons_pair, lookup_cons_pair]
    split
    · rfl
    · exact ih

/-! ## The offsets that it passes through -/

theorem le_leftmost_emitFrom (x here : Int) (entries : List (Int × Int)) :
    x ≤ leftmost here (emitFrom here entries) ↔
      x ≤ here ∧ x ≤ 0 ∧ ∀ e ∈ entries, x ≤ e.1 := by
  induction entries generalizing here with
  | nil =>
    rw [emitFrom]
    split
    case isTrue hhere =>
      rw [leftmost]
      simp [hhere]
    case isFalse =>
      rw [leftmost_moveBy, leftmost, Int.add_right_neg, Int.le_min]
      simp
  | cons e rest ih =>
    obtain ⟨offset, delta⟩ := e
    rw [emitFrom]
    split
    case isTrue hhere =>
      rw [leftmost_changeBy, ← hhere, ih, List.forall_mem_cons]
      exact ⟨fun h => ⟨h.1, h.2.1, h.1, h.2.2⟩, fun h => ⟨h.1, h.2.1, h.2.2.2⟩⟩
    case isFalse =>
      rw [leftmost_moveBy, leftmost_changeBy, show here + (offset - here) = offset by omega,
        Int.le_min, ih, List.forall_mem_cons]
      exact ⟨fun h => ⟨h.1, h.2.2.1, h.2.1, h.2.2.2⟩, fun h => ⟨h.1, h.2.2.1, h.2.1, h.2.2.2⟩⟩

/-- What is written out passes through zero and the offsets of the map, and goes no further to the
left. -/
theorem le_leftmost_emit (x : Int) (m : DeltaMap) :
    x ≤ leftmost 0 m.emit ↔ x ≤ 0 ∧ ∀ e ∈ m.entries, x ≤ e.1 := by
  rw [emit, le_leftmost_emitFrom]
  exact ⟨And.right, fun h => ⟨h.1, h⟩⟩

/-- What is written out has no move by zero. -/
theorem every_movesOn_emitFrom (here : Int) (entries : List (Int × Int)) :
    Program.every Node.movesOn (emitFrom here entries) = true := by
  induction entries generalizing here with
  | nil =>
    rw [emitFrom]
    split
    case isTrue => rfl
    case isFalse hne =>
      rw [Program.every, every_movesOn_moveBy (by omega)]
      rfl
  | cons e rest ih =>
    obtain ⟨offset, delta⟩ := e
    rw [emitFrom]
    split
    case isTrue => rw [Program.every, every_movesOn_changeBy, ih, Bool.and_true]
    case isFalse hne =>
      rw [Program.every, every_movesOn_moveBy (by omega), Program.every, every_movesOn_changeBy, ih,
        Bool.and_true, Bool.and_true]

end DeltaMap

end Brainfuck
