import Brainfuck.Proofs.NormalForm
import Mathlib.Data.Finset.Card

/-!
# Optimizing makes programs smaller

Every idiom has fewer nodes than the loop it stands for, so a program that optimizing changes gets
smaller.  For most idioms this is plain, since they are single nodes.  The body of a scaled one is
written anew from a delta map, and there it is a matter of counting.

A body that changes `k` cells beside its own is written with one change for each of them, one move to
each of them and perhaps one back: at most `2 * k + 1` nodes.  The loop that it came from was longer,
however it went about and whatever cancelled on the way: it has a change for each of the `k` cells and
one for its own, it moves at least once to each of the `k` cells, and once more to come back.

* `movesNeeded`: how many moves it takes to have changed some cells and to be at a certain one.
* `length_of_walk`: a linear sequence has at least so many nodes, and one for each cell it changes.
* `size_lt_of_loopIdiom`: an idiom is smaller than its loop.
* `Program.optimize_shrinks`: so is every program that optimizing changes.
-/

namespace Brainfuck

/-! ## Moves -/

/-- The offsets that a map has entries for. -/
def DeltaMap.offsets (m : DeltaMap) : Finset Int := (m.entries.map Prod.fst).toFinset

/-- How many moves from offset zero it takes at least to have been at some offsets and to be at a
given one: a move to each of them but zero, and one back if one has been away. -/
def movesNeeded (seen : Finset Int) (here : Int) : Nat :=
  let away := (insert here seen).erase 0
  if here = 0 ∧ away.Nonempty then away.card + 1 else away.card

/-- One move brings one to one more offset. -/
theorem movesNeeded_move (seen : Finset Int) (here there : Int) :
    movesNeeded seen there ≤ movesNeeded seen here + 1 := by
  have hmono (k : Int) : (seen.erase 0).card ≤ ((insert k seen).erase 0).card :=
    Finset.card_le_card (Finset.erase_subset_erase _ (Finset.subset_insert _ _))
  by_cases hthere : there = 0
  · -- Back at zero, only the cells that were seen count.
    have haway : (insert there seen).erase 0 = seen.erase 0 := by
      rw [hthere, Finset.erase_insert_eq_erase]
    have hle : movesNeeded seen there ≤ (seen.erase 0).card + 1 := by
      rw [movesNeeded, haway]
      split <;> omega
    by_cases hhere : here = 0
    · rw [hthere, ← hhere]
      exact Nat.le_succ _
    · have heq : movesNeeded seen here = ((insert here seen).erase 0).card :=
        if_neg fun h => hhere h.1
      have := hmono here
      omega
  · have heq : movesNeeded seen there = ((insert there seen).erase 0).card :=
      if_neg fun h => hthere h.1
    have hinsert : ((insert there seen).erase 0).card ≤ (seen.erase 0).card + 1 := by
      rw [Finset.erase_insert_of_ne hthere]
      exact Finset.card_insert_le _ _
    have hge : (seen.erase 0).card ≤ movesNeeded seen here := by
      have := hmono here
      rw [movesNeeded]
      split <;> omega
    omega

/-- Where one is counts as seen. -/
theorem movesNeeded_insert (seen : Finset Int) (here : Int) :
    movesNeeded (insert here seen) here = movesNeeded seen here := by
  rw [movesNeeded, movesNeeded, Finset.insert_idem]

theorem movesNeeded_mono {seen seen' : Finset Int} (h : seen ⊆ seen') (here : Int) :
    movesNeeded seen here ≤ movesNeeded seen' here := by
  have haway : (insert here seen).erase 0 ⊆ (insert here seen').erase 0 :=
    Finset.erase_subset_erase _ (Finset.insert_subset_insert _ h)
  have hcard := Finset.card_le_card haway
  rw [movesNeeded, movesNeeded]
  by_cases hmore : here = 0 ∧ ((insert here seen).erase 0).Nonempty
  · rw [if_pos hmore, if_pos ⟨hmore.1, hmore.2.mono haway⟩]
    omega
  · rw [if_neg hmore]
    split <;> omega

/-- To come back from offsets beside zero takes one move more than there are of them. -/
theorem movesNeeded_zero {seen : Finset Int} (h : (seen.erase 0).Nonempty) :
    movesNeeded seen 0 = (seen.erase 0).card + 1 := by
  have haway : (insert 0 seen).erase 0 = seen.erase 0 := Finset.erase_insert_eq_erase ..
  rw [movesNeeded, haway]
  exact if_pos ⟨rfl, h⟩

/-! ## Linear sequences -/

namespace DeltaMap

theorem mem_offsets {m : DeltaMap} {k : Int} : k ∈ m.offsets ↔ ∃ e ∈ m.entries, e.1 = k := by
  rw [offsets, List.mem_toFinset, List.mem_map]

/-- No two entries have the same offset. -/
theorem card_offsets (m : DeltaMap) : m.offsets.card = m.entries.length := by
  have hnodup : (m.entries.map Prod.fst).Nodup :=
    List.pairwise_map.mpr (m.ascending.imp fun h => Int.ne_of_lt h)
  rw [offsets, List.toFinset_card_of_nodup hnodup, List.length_map]

theorem offsets_adjust (m : DeltaMap) (offset : Int) (f : Int → Int) :
    (m.adjust offset f).offsets ⊆ insert offset m.offsets := by
  intro k hk
  obtain ⟨e, he, rfl⟩ := mem_offsets.mp hk
  rw [Finset.mem_insert, mem_offsets]
  exact mem_adjustEntries he

end DeltaMap

/-- What the walk over a sequence needs at least, when it has changed the cells of a map and is at an
offset: the moves, and a change for each cell. -/
def nodesNeeded (m : DeltaMap) (here : Int) : Nat := movesNeeded m.offsets here + m.offsets.card

theorem nodesNeeded_move (m : DeltaMap) (here there : Int) :
    nodesNeeded m there ≤ nodesNeeded m here + 1 := by
  have := movesNeeded_move m.offsets here there
  rw [nodesNeeded, nodesNeeded]
  omega

theorem nodesNeeded_adjust (m : DeltaMap) (here : Int) (f : Int → Int) :
    nodesNeeded (m.adjust here f) here ≤ nodesNeeded m here + 1 := by
  have hsub := m.offsets_adjust here f
  have hmoves := movesNeeded_mono hsub here
  rw [movesNeeded_insert] at hmoves
  have hcard := (Finset.card_le_card hsub).trans (Finset.card_insert_le _ _)
  rw [nodesNeeded, nodesNeeded]
  omega

/-- A linear sequence has at least as many nodes as what it has done needs. -/
theorem length_of_walk {here : Int} {m : DeltaMap} {p : List Node} {here' : Int} {m' : DeltaMap}
    (h : walk? here m p = some (here', m')) :
    nodesNeeded m' here' ≤ nodesNeeded m here + p.length := by
  fun_induction walk? here m p with
  | case1 here m =>
    obtain ⟨rfl, rfl⟩ := Prod.mk.inj (Option.some.inj h)
    exact Nat.le_add_right _ _
  | case2 here m n p ih | case3 here m n p ih =>
    rw [List.length_cons, Nat.add_comm p.length, ← Nat.add_assoc]
    exact (ih h).trans (Nat.add_le_add_right (nodesNeeded_move m here _) _)
  | case4 here m n p ih | case5 here m n p ih =>
    rw [List.length_cons, Nat.add_comm p.length, ← Nat.add_assoc]
    exact (ih h).trans (Nat.add_le_add_right (nodesNeeded_adjust m here _) _)
  | case6 => cases h

/-- Linear sequences do not nest. -/
theorem size_of_walk {here : Int} {m : DeltaMap} {p : List Node} {r : Int × DeltaMap}
    (h : walk? here m p = some r) : Program.size p = p.length := by
  fun_induction walk? here m p with
  | case1 => rfl
  | case2 here m n p ih | case3 here m n p ih | case4 here m n p ih | case5 here m n p ih =>
    rw [Program.size, ih h, List.length_cons, Nat.add_comm]
    rfl
  | case6 => cases h

/-- A loop that changes its own cell, and `k` others, has a body of at least `2 * k + 2` nodes if there
is one other. -/
theorem length_of_deltas {body : List Node} {m : DeltaMap} (hbody : deltas? body = some m)
    (horigin : m.get 0 ≠ 0) :
    0 < body.length ∧ (m.others.entries ≠ [] → 2 * m.others.entries.length + 2 ≤ body.length) := by
  have hlength : nodesNeeded m 0 ≤ body.length := by
    have := length_of_walk (walk_of_deltas hbody)
    rwa [show nodesNeeded DeltaMap.empty 0 = 0 from rfl, Nat.zero_add] at this
  have hzero : 0 ∈ m.offsets := DeltaMap.mem_offsets.mpr ⟨_, DeltaMap.mem_of_get_ne_zero horigin, rfl⟩
  have hothers : m.others.offsets ⊆ m.offsets.erase 0 := by
    intro k hk
    obtain ⟨e, he, rfl⟩ := DeltaMap.mem_offsets.mp hk
    obtain ⟨hmem, hne, -⟩ := DeltaMap.mem_others.mp he
    exact Finset.mem_erase.mpr ⟨hne, DeltaMap.mem_offsets.mpr ⟨e, hmem, rfl⟩⟩
  have hcard := Finset.card_le_card hothers
  rw [DeltaMap.card_offsets] at hcard
  have herase := Finset.card_erase_add_one hzero
  rw [nodesNeeded] at hlength
  refine ⟨by omega, fun hne => ?_⟩
  have hpos : 0 < m.others.entries.length := List.length_pos_iff.mpr hne
  have hback := movesNeeded_zero (Finset.card_pos.mp (Nat.lt_of_lt_of_le hpos hcard))
  omega

/-! ## Idioms -/

namespace DeltaMap

theorem length_emitFrom (here : Int) (entries : List (Int × Int)) :
    (emitFrom here entries).length ≤ 2 * entries.length + 1 := by
  induction entries generalizing here with
  | nil =>
    rw [emitFrom]
    split <;> simp
  | cons e rest ih =>
    have := ih e.1
    rw [emitFrom]
    split <;> simp only [List.length_cons] <;> omega

theorem size_emit (m : DeltaMap) : Program.size m.emit ≤ 2 * m.entries.length + 1 := by
  obtain ⟨m', hwalk, -⟩ := walk?_emitFrom m.ascending 0 .empty fun a ha => absurd ha List.not_mem_nil
  rw [emit, size_of_walk hwalk]
  exact length_emitFrom 0 m.entries

end DeltaMap

theorem Node.size_pos : (n : Node) → 0 < n.size
  | .derived _ base => base.size_pos
  | .loop body | .scaled body => by
    rw [Node.size]
    omega
  | .moveRight _ | .moveLeft _ | .increment _ | .decrement _ | .output | .input | .scanRight _
  | .scanLeft _ | .clear | .carryRight _ | .carryLeft _ | .foreign _ => Nat.one_pos

variable {body : List Node} {n : Node}

theorem size_lt_of_linearIdiom (h : linearIdiom? body = some n) : n.size < (Node.loop body).size := by
  obtain ⟨m, hbody, horigin, rfl⟩ := linearIdiom?_eq_some h
  obtain ⟨hpos, hmany⟩ := length_of_deltas hbody (by rw [horigin]; decide)
  have hloop : (Node.loop body).size = 1 + body.length := by
    rw [Node.size, size_of_walk (walk_of_deltas hbody)]
  have hsingle : 1 < (Node.loop body).size := by omega
  rw [multiplyIdiom]
  split
  case h_1 => exact hsingle
  case h_2 => split <;> exact hsingle
  case h_3 hempty _ =>
    have hemit := m.others.size_emit
    have := hmany hempty
    rw [hloop, Node.size]
    omega

/-- An idiom is smaller than its loop. -/
theorem size_lt_of_loopIdiom (h : loopIdiom? body = some n) : n.size < (Node.loop body).size := by
  rw [loopIdiom?.eq_def] at h
  split at h
  case h_1 k =>
    have hloop : 1 < (Node.loop [k]).size := by
      have hk := k.size_pos
      simp only [Node.size, Program.size]
      omega
    rw [singleIdiom?.eq_def] at h
    split at h
    case h_1 | h_2 =>
      obtain rfl := Option.some.inj h
      exact hloop
    case h_3 | h_4 =>
      split at h
      · obtain rfl := Option.some.inj h
        exact hloop
      · cases h
    case h_5 => cases h
  case h_2 => exact size_lt_of_linearIdiom h

/-- A loop in final form is the loop itself or smaller. -/
theorem closeLoop_eq_or_size_lt (h : Program.every Node.isInstruction body = true) :
    closeLoop body = .loop body ∨ (closeLoop body).size < (Node.loop body).size := by
  rw [closeLoop_eq h]
  cases hidiom : loopIdiom? body with
  | none => exact Or.inl rfl
  | some n => exact Or.inr (size_lt_of_loopIdiom hidiom)

/-! ## Trees -/

mutual

/-- The final form of a node is the node itself or smaller. -/
theorem Node.eq_or_size_lt_of_optimize : (n : Node) → n.every Node.isInstruction = true →
    ∀ {n'}, n.optimize = .ok n' → n' = n ∨ n'.size < n.size
  | .loop body, hinstr, _, h => by
    obtain ⟨body', hbody, rfl⟩ := Node.optimize_loop h
    rw [Node.every, Bool.and_eq_true] at hinstr
    have hbody' := Program.every_mono Node.isInstruction_of_isFinal body'
      (Program.normal_of_optimize body hinstr.2 hbody)
    rcases Program.eq_or_size_lt_of_optimize body hinstr.2 hbody with rfl | hlt
    · exact closeLoop_eq_or_size_lt hbody'
    · refine Or.inr ?_
      have hle : (closeLoop body').size ≤ (Node.loop body').size := by
        rcases closeLoop_eq_or_size_lt hbody' with heq | hlt
        · rw [heq]
        · exact Nat.le_of_lt hlt
      simp only [Node.size] at hle ⊢
      omega
  | .scaled body, hinstr, _, h => by
    obtain ⟨body', hbody, rfl⟩ := Node.optimize_scaled h
    rw [Node.every, Bool.and_eq_true] at hinstr
    rcases Program.eq_or_size_lt_of_optimize body hinstr.2 hbody with rfl | hlt
    · exact Or.inl rfl
    · refine Or.inr ?_
      rw [Node.size, Node.size]
      omega
  | .foreign _, hinstr, _, _ | .derived _ _, hinstr, _, _ => nomatch hinstr
  | .moveRight _, _, _, rfl | .moveLeft _, _, _, rfl | .increment _, _, _, rfl
  | .decrement _, _, _, rfl | .output, _, _, rfl | .input, _, _, rfl | .scanRight _, _, _, rfl
  | .scanLeft _, _, _, rfl | .clear, _, _, rfl | .carryRight _, _, _, rfl
  | .carryLeft _, _, _, rfl => Or.inl rfl

/-- The final form of a program is the program itself or smaller. -/
theorem Program.eq_or_size_lt_of_optimize : (p : List Node) →
    Program.every Node.isInstruction p = true → ∀ {q}, Program.optimize p = .ok q →
      q = p ∨ Program.size q < Program.size p
  | [], _, _, rfl => Or.inl rfl
  | n :: p, hinstr, _, h => by
    obtain ⟨n', p', hn, hp, rfl⟩ := Program.optimize_cons h
    rw [Program.every, Bool.and_eq_true] at hinstr
    rw [Program.size, Program.size]
    rcases Node.eq_or_size_lt_of_optimize n hinstr.1 hn with rfl | hlt <;>
      rcases Program.eq_or_size_lt_of_optimize p hinstr.2 hp with rfl | hlt'
    · exact Or.inl rfl
    all_goals exact Or.inr (by omega)

end

/-- **Optimizing never makes a program larger.**  A program of instructions has an optimized form,
which has at most as many nodes, and just as many only if it is the program itself. -/
theorem Program.optimize_shrinks {p : Program} (hp : Program.every Node.isInstruction p = true) :
    ∃ q, Program.optimize p = .ok q ∧ Program.size q ≤ Program.size p ∧
      (Program.size q = Program.size p ↔ q = p) := by
  obtain ⟨q, hq⟩ := Program.exists_final p hp
  refine ⟨q, hq, ?_⟩
  rcases Program.eq_or_size_lt_of_optimize p hp hq with rfl | hlt
  · exact ⟨Nat.le_refl _, fun _ => rfl, fun _ => rfl⟩
  · refine ⟨Nat.le_of_lt hlt, fun heq => absurd heq (Nat.ne_of_lt hlt), ?_⟩
    rintro rfl
    exact absurd hlt (Nat.lt_irrefl _)

/-- A loop of eight nodes, with moves by a negative amount and by zero, whose idiom has six. -/
theorem Program.optimize_shrinks_wandering :
    Program.every Node.isInstruction [.loop [.moveRight 2, .increment 3, .moveLeft 1, .decrement 1,
        .moveRight (-1), .decrement 1, .moveLeft 0]] = true ∧
      ∃ q, Program.optimize [.loop [.moveRight 2, .increment 3, .moveLeft 1, .decrement 1,
          .moveRight (-1), .decrement 1, .moveLeft 0]] = .ok q ∧
        Program.size q ≤ 8 ∧ (Program.size q = 8 ↔ q = [.loop [.moveRight 2, .increment 3,
          .moveLeft 1, .decrement 1, .moveRight (-1), .decrement 1, .moveLeft 0]]) :=
  ⟨by decide, Program.optimize_shrinks (by decide)⟩

end Brainfuck
