import Brainfuck.Program.Idiom
import Brainfuck.Proofs.Emission
import Brainfuck.Proofs.Refinement

/-!
# Idioms do what their loops do

A loop may be replaced by its idiom: the idiom refines the loop.  For a linear loop both sides have
the closed form `Config.settled`; what differs is how far to the left they go.  The loop goes to the
leftmost offset of its body, the idiom to the leftmost offset that is changed, and what is changed
has been passed.  So an idiom faults only where its loop does.

The converse holds unless the leftmost offset of the body is left as it was.  Such a loop faults near
the left end of the tape, where its idiom does not: `loopHidesFault` is the test for it.

* `means_multiplyIdiom`, `fault_multiplyIdiom`: what the idiom of a linear loop does.
* `refines_closeLoop`: a loop may be replaced by its final form.
* `loopHidesFault`, `keepsFaults_closeLoop`: which loops keep their faults.
-/

namespace Brainfuck

open Behaviour

/-! ## The changes of a loop to other cells -/

namespace DeltaMap

variable {m : DeltaMap}

/-- The changes to other cells than the one at the origin. -/
def others (m : DeltaMap) : DeltaMap := m.filter fun offset delta => offset != 0 && delta != 0

theorem get_others {k : Int} (hk : k ≠ 0) : m.others.get k = m.get k := by
  rw [others, get_filter]
  split
  case isTrue => rfl
  case isFalse hnot =>
    by_contra hne
    exact hnot (by simp [hk, Ne.symm hne])

theorem mem_others {e : Int × Int} : e ∈ m.others.entries ↔ e ∈ m.entries ∧ e.1 ≠ 0 ∧ e.2 ≠ 0 := by
  simp [others, filter]

end DeltaMap

/-- The change at the origin does not matter, since its cell is cleared. -/
theorem Config.settled_others (c : Config) (m : DeltaMap) : c.settled m.others = c.settled m := by
  refine store_congr 0 rfl rfl rfl fun j hj => ?_
  have hne : j ≠ c.index := hj
  simp only [change]
  rw [DeltaMap.get_others (by omega)]

/-! ## The idiom of a linear loop -/

variable {m others : DeltaMap} {c : Config} {body : List Node} {scale : UInt8}

/-- A value that is carried is added once. -/
theorem Config.carryTo_eq_settled {offset : Int} {target : Nat}
    (hentries : others.entries = [(offset, 1)]) (htarget : (target : Int) = c.index + offset) :
    c.carryTo target = c.settled others := by
  have hget : ∀ k, others.get k = if k = offset then 1 else 0 := by
    intro k
    rw [DeltaMap.get, hentries, DeltaMap.lookup_cons_pair]
    split <;> rfl
  simp only [carryTo, settled, store, change, Config.mk.injEq, and_true]
  funext j
  rw [Function.update_apply, Function.update_apply, Function.update_apply, hget]
  by_cases hj : j = c.index
  · rw [if_pos hj, if_pos hj]
  · rw [if_neg hj, if_neg hj]
    by_cases hjt : j = target
    · rw [if_pos hjt, if_pos (by omega), hjt, show UInt8.ofInt 1 = 1 from rfl, UInt8.mul_one]
    · rw [if_neg hjt, if_neg (by omega), show UInt8.ofInt 0 = 0 from rfl, UInt8.mul_zero,
        UInt8.add_zero]

/-- A scaled body that is written out from a map makes its changes as often as the cell says. -/
theorem means_scaled_emit (hinside : c.cell ≠ 0 → ∀ e ∈ others.entries, 0 ≤ c.index + e.1) :
    (Node.scaled others.emit).Means scale c (.done (c.settled others)) := by
  by_cases hzero : c.cell = 0
  · rw [Config.settled_of_zero hzero]
    exact .pass ((unlessZero_of_zero hzero _).mpr rfl) (by rw [Config.store_cell hzero])
  · obtain ⟨m, hm, hentries⟩ := others.deltas?_emit
    have hleft : -(c.index : Int) ≤ leftmost 0 others.emit := by
      rw [DeltaMap.le_leftmost_emit]
      refine ⟨by omega, fun e he => ?_⟩
      have := hinside hzero e he
      omega
    have hpass := means_of_deltas hm (DeltaMap.every_movesOn_emitFrom 0 _) c.cell
      (show 0 ≤ c.index + leftmost 0 others.emit by omega)
    have hsame : c.change c.cell m = c.change c.cell others := by
      simp only [Config.change, DeltaMap.get_of_entries_emod hentries, ofInt_emod]
    rw [hsame] at hpass
    exact .pass ((unlessZero_of_ne_zero hzero _).mpr hpass) rfl

/-- **The idiom of a linear loop has the closed form of the loop**, if no changed cell is off the
tape. -/
theorem means_multiplyIdiom (hinside : c.cell ≠ 0 → ∀ e ∈ others.entries, 0 ≤ c.index + e.1) :
    (multiplyIdiom others).Means scale c (.done (c.settled others)) := by
  rw [multiplyIdiom]
  split
  case h_1 hentries =>
    have hsame : c.settled others = c.store 0 := by
      refine Config.store_congr 0 rfl rfl rfl fun j _ => ?_
      have hget : others.get ((j : Int) - c.index) = 0 := by rw [DeltaMap.get, hentries]; rfl
      simp only [Config.change, hget]
      rw [show UInt8.ofInt 0 = 0 from rfl, UInt8.mul_zero, UInt8.add_zero]
    rw [hsame]
    rfl
  case h_2 offset hentries =>
    split
    case isTrue hpos =>
      have hcarry : c.carryTo (c.index + offset.toNat) = c.settled others :=
        Config.carryTo_eq_settled hentries (by omega)
      rw [← hcarry]
      rfl
    case isFalse hneg =>
      change Ending.done _ = c.carryLeft _
      by_cases hzero : c.cell = 0
      · rw [Config.carryLeft, if_pos hzero, Config.settled_of_zero hzero]
      · have hoffset := hinside hzero (offset, 1) (by rw [hentries]; exact List.mem_singleton_self _)
        rw [Config.carryLeft, if_neg hzero, if_neg (by omega),
          Config.carryTo_eq_settled hentries (by omega)]
  case h_3 => exact means_scaled_emit hinside

/-- The idiom of a linear loop faults if a changed cell is off the tape. -/
theorem fault_multiplyIdiom (hnonzero : c.cell ≠ 0) {e : Int × Int} (he : e ∈ others.entries)
    (houtside : c.index + e.1 < 0) :
    ∃ d, (multiplyIdiom others).Means scale c (.fault d) ∧ d.written = c.written := by
  rw [multiplyIdiom]
  split
  case h_1 hentries => exact absurd he (by rw [hentries]; exact List.not_mem_nil)
  case h_2 offset hentries =>
    obtain rfl : e = (offset, 1) := by rwa [hentries, List.mem_singleton] at he
    have hneg : ¬ 0 < offset := by omega
    refine ⟨c, ?_, rfl⟩
    rw [if_neg hneg]
    change Ending.fault c = c.carryLeft _
    rw [Config.carryLeft, if_neg hnonzero, if_pos (by omega)]
  case h_3 =>
    obtain ⟨m, hm, _⟩ := others.deltas?_emit
    have hleft : leftmost 0 others.emit ≤ e.1 :=
      ((DeltaMap.le_leftmost_emit _ others).mp (Int.le_refl _)).2 e he
    have hwalk : (walk? 0 .empty others.emit).isSome = true := by rw [walk_of_deltas hm]; rfl
    obtain ⟨d, hd, hwritten⟩ := fault_of_walk c.cell hwalk (DeltaMap.every_movesOn_emitFrom 0 _)
      (Int.add_zero (c.index : Int)).symm (by omega)
    exact ⟨d, .fault ((unlessZero_of_ne_zero hnonzero _).mpr hd), hwritten⟩

/-! ## Linear loops -/

/-- What it takes for a linear loop to have an idiom. -/
theorem linearIdiom?_eq_some {n : Node} (h : linearIdiom? body = some n) :
    ∃ m, deltas? body = some m ∧ m.get 0 = 255 ∧ n = multiplyIdiom m.others := by
  rw [linearIdiom?] at h
  split at h
  case h_1 m hm =>
    split at h
    case isTrue horigin => exact ⟨m, hm, horigin, (Option.some.inj h).symm⟩
    case isFalse => cases h
  case h_2 => cases h

/-- A cell that the idiom changes is one that the loop passes. -/
theorem leftmost_le_of_mem_others (hbody : deltas? body = some m) {e : Int × Int}
    (he : e ∈ m.others.entries) : leftmost 0 body ≤ e.1 := by
  obtain ⟨hmem, _, hne⟩ := DeltaMap.mem_others.mp he
  refine leftmost_le_of_changed (walk_of_deltas hbody) ?_
  rw [DeltaMap.get_of_mem hmem]
  exact hne

/-- The idiom of a linear loop has the same normal endings, and faults only where the loop does. -/
theorem refines_linearIdiom {n : Node} (hidiom : linearIdiom? body = some n)
    (hok : Program.every Node.movesOn body = true) (scale : UInt8) :
    Refines (repeated (Program.Means 1 body)) (n.Means scale) := by
  obtain ⟨m, hbody, horigin, rfl⟩ := linearIdiom?_eq_some hidiom
  refine .of_cases (Program.means_deterministic 1 body).repeated fun c => ?_
  by_cases hinside : c.cell ≠ 0 → 0 ≤ c.index + leftmost 0 body
  · refine Or.inl ⟨c.settled m, repeated_linear hbody hok horigin hinside, ?_⟩
    rw [← Config.settled_others]
    refine means_multiplyIdiom fun hnonzero e he => ?_
    have hleft := leftmost_le_of_mem_others hbody he
    have := hinside hnonzero
    omega
  · obtain ⟨hnonzero, houtside⟩ := Classical.not_imp.mp hinside
    obtain ⟨d, hd, _⟩ := repeated_linear_fault hbody hok hnonzero (by omega)
    exact Or.inr ⟨d, hd⟩

/-- Whether a loop with this body has an idiom that does not go as far to the left: the leftmost
offset that the body passes through is left as it was. -/
def loopHidesFault (body : List Node) : Bool :=
  match deltas? body with
  | some m => m.get 0 == 255 && decide (leftmost 0 body < 0) && m.get (leftmost 0 body) == 0
  | none => false

/-- The idiom of a linear loop that hides no fault faults wherever the loop does. -/
theorem keepsFaults_linearIdiom {n : Node} (hidiom : linearIdiom? body = some n)
    (hok : Program.every Node.movesOn body = true) (hkeeps : loopHidesFault body = false)
    (scale : UInt8) : KeepsFaults (repeated (Program.Means 1 body)) (n.Means scale) := by
  obtain ⟨m, hbody, horigin, rfl⟩ := linearIdiom?_eq_some hidiom
  intro c d hd
  have hdet := (Program.means_deterministic 1 body).repeated
  -- the loop has faulted, so it was entered and its body leaves the tape
  have hleaves : ¬ (c.cell ≠ 0 → 0 ≤ c.index + leftmost 0 body) := fun hinside =>
    absurd (hdet hd (repeated_linear hbody hok horigin hinside)) (by simp)
  obtain ⟨hnonzero, houtside⟩ := Classical.not_imp.mp hleaves
  have hleft : leftmost 0 body < 0 := by omega
  have hchanged : m.get (leftmost 0 body) ≠ 0 := by
    intro hzero
    rw [loopHidesFault, hbody] at hkeeps
    simp [horigin, hleft, hzero] at hkeeps
  have hmem : (leftmost 0 body, m.get (leftmost 0 body)) ∈ m.others.entries :=
    DeltaMap.mem_others.mpr ⟨DeltaMap.mem_of_get_ne_zero hchanged, Int.ne_of_lt hleft, hchanged⟩
  obtain ⟨d', hd', hwritten⟩ := fault_multiplyIdiom hnonzero hmem (by omega)
  obtain ⟨d'', hd'', hwritten'⟩ := repeated_linear_fault hbody hok hnonzero (by omega)
  obtain rfl := Ending.fault.inj (hdet hd hd'')
  exact ⟨d', hd', hwritten.trans hwritten'.symm⟩

/-! ## Loops around one node -/

/-- A sequence of one node means what the node means. -/
theorem Program.means_singleton (scale : UInt8) (n : Node) :
    Program.Means scale [n] = n.Means scale := by
  funext c e
  refine propext ⟨fun h => ?_, fun h => ?_⟩
  · cases h with
    | fault first => exact first
    | pass first second =>
      obtain rfl : e = .done _ := second
      exact first
  · cases e with
    | done d => exact .pass h rfl
    | fault d => exact .fault h

/-- A loop that only writes its cell, and gets closer to zero with every pass, clears the cell. -/
theorem repeated_towards_zero {R : Behaviour} {f : UInt8 → UInt8} (rank : UInt8 → Nat)
    (hpass : ∀ c, R c (.done (c.store (f c.cell)))) (hrank : ∀ v, v ≠ 0 → rank (f v) < rank v)
    (c : Config) : repeated R c (.done (c.store 0)) := by
  generalize hvalue : rank c.cell = value
  induction value using Nat.strongRecOn generalizing c with
  | ind value ih =>
    by_cases hzero : c.cell = 0
    · rw [Config.store_cell hzero]
      exact .stop hzero
    · have hless : rank (c.store (f c.cell)).cell < value := by
        rw [Config.cell_store, ← hvalue]
        exact hrank _ hzero
      have hrest := ih _ hless (c.store (f c.cell)) rfl
      rw [Config.store_store] at hrest
      exact .pass hzero (hpass c) hrest

theorem ofInt_one_mul_one : UInt8.ofInt 1 * 1 = 1 := rfl

/-- A loop around an increment by one runs up to the overflow. -/
theorem repeated_increment (c : Config) :
    repeated (Program.Means 1 [.increment 1]) c (.done (c.store 0)) := by
  rw [Program.means_singleton]
  have hpass : ∀ c : Config, (Node.increment 1).Means 1 c (.done (c.store (c.cell + 1))) :=
    fun c => congrArg (fun v => Ending.done (c.store (c.cell + v))) ofInt_one_mul_one.symm
  refine repeated_towards_zero (f := fun v => v + 1) (fun v => (0 - v).toNat) hpass
    (fun v hv => ?_) c
  have hlt := v.toNat_lt
  have hne : v.toNat ≠ 0 := fun h => hv (UInt8.toNat_inj.mp h)
  rw [UInt8.toNat_sub, UInt8.toNat_sub, UInt8.toNat_add, UInt8.toNat_zero, UInt8.toNat_one]
  omega

/-- A loop around a decrement by one runs down to zero. -/
theorem repeated_decrement (c : Config) :
    repeated (Program.Means 1 [.decrement 1]) c (.done (c.store 0)) := by
  rw [Program.means_singleton]
  have hpass : ∀ c : Config, (Node.decrement 1).Means 1 c (.done (c.store (c.cell - 1))) :=
    fun c => congrArg (fun v => Ending.done (c.store (c.cell - v))) ofInt_one_mul_one.symm
  refine repeated_towards_zero (f := fun v => v - 1) UInt8.toNat hpass (fun v hv => ?_) c
  have hlt := v.toNat_lt
  have hne : v.toNat ≠ 0 := fun h => hv (UInt8.toNat_inj.mp h)
  rw [UInt8.toNat_sub, UInt8.toNat_one]
  omega

/-- A loop that writes nothing in its passes has written nothing when it faults. -/
theorem written_of_repeated {R : Behaviour}
    (hdone : ∀ {c d : Config}, R c (.done d) → d.written = c.written)
    (hfault : ∀ {c d : Config}, R c (.fault d) → d.written = c.written) {d : Config}
    (h : repeated R c (.fault d)) : d.written = c.written := by
  generalize he : Ending.fault d = e at h
  induction h with
  | stop _ => cases he
  | fault _ pass =>
    obtain rfl := Ending.fault.inj he
    exact hfault pass
  | pass _ pass _ ih => exact (ih he).trans (hdone pass)

/-- A move to the left writes nothing, whether it faults or not. -/
theorem Config.written_moveLeft {c d : Config} {n : Nat}
    (h : Ending.done d = c.moveLeft n ∨ Ending.fault d = c.moveLeft n) : d.written = c.written := by
  rw [moveLeft] at h
  split at h
  · rcases h with h | h
    · cases h
    · rw [Ending.fault.inj h]
  · rcases h with h | h
    · rw [Ending.done.inj h]
      rfl
    · cases h

/-- A loop that always ends normally refines and keeps faults, if its endings are those of the other
side. -/
theorem refines_of_done {R S : Behaviour} (hR : Deterministic R) (f : Config → Config)
    (h : ∀ c, R c (.done (f c))) (h' : ∀ c, S c (.done (f c))) : Refines R S ∧ KeepsFaults R S := by
  refine ⟨.of_cases hR fun c => Or.inl ⟨f c, h c, h' c⟩, fun c d hd => ?_⟩
  exact absurd (hR hd (h c)) (by simp)

/-- The idiom of a loop around one node does what the loop does; of a fault of a scan nothing is left
but the output. -/
theorem refines_singleIdiom {n n' : Node} (hidiom : singleIdiom? n = some n') (scale : UInt8) :
    Refines (repeated (Program.Means 1 [n])) (n'.Means scale) ∧
      KeepsFaults (repeated (Program.Means 1 [n])) (n'.Means scale) := by
  have hdet := (Program.means_deterministic 1 [n]).repeated
  cases n with
  | moveRight k =>
    obtain rfl := Option.some.inj hidiom
    rw [Program.means_singleton]
    refine ⟨.orNothing _, .orNothing fun hd => written_of_repeated (fun hd => ?_) (fun hd => ?_) hd⟩
    · rw [Ending.done.inj hd]
      rfl
    · cases hd
  | moveLeft k =>
    obtain rfl := Option.some.inj hidiom
    rw [Program.means_singleton]
    exact ⟨.orNothing _, .orNothing fun hd => written_of_repeated
      (fun hd => Config.written_moveLeft (Or.inl hd))
      (fun hd => Config.written_moveLeft (Or.inr hd)) hd⟩
  | increment k =>
    rw [singleIdiom?] at hidiom
    split at hidiom
    case isTrue hk =>
      obtain rfl := Option.some.inj hidiom
      subst hk
      exact refines_of_done hdet (fun c => c.store 0) repeated_increment fun c => rfl
    case isFalse => cases hidiom
  | decrement k =>
    rw [singleIdiom?] at hidiom
    split at hidiom
    case isTrue hk =>
      obtain rfl := Option.some.inj hidiom
      subst hk
      exact refines_of_done hdet (fun c => c.store 0) repeated_decrement fun c => rfl
    case isFalse => cases hidiom
  | _ => cases hidiom

/-! ## Loops in final form -/

/-- A body of instructions is looked up as it is. -/
theorem closeLoop_eq (h : Program.every Node.isInstruction body = true) :
    closeLoop body = (loopIdiom? body).getD (.loop body) := by
  rw [closeLoop, Program.map_plain h]

/-- A loop may be replaced by its final form. -/
theorem refines_closeLoop (hok : Program.every Node.movesOn body = true) (scale : UInt8) :
    Refines (repeated (Program.Means 1 body)) ((closeLoop body).Means scale) := by
  rw [closeLoop_eq (Program.every_mono Node.isInstruction_of_movesOn body hok)]
  cases hidiom : loopIdiom? body with
  | none => exact .refl _
  | some n =>
    rw [Option.getD_some]
    rw [loopIdiom?.eq_def] at hidiom
    split at hidiom
    · exact (refines_singleIdiom hidiom scale).1
    · exact refines_linearIdiom hidiom hok scale

/-- The final form of a loop that hides no fault faults wherever the loop does. -/
theorem keepsFaults_closeLoop (hok : Program.every Node.movesOn body = true)
    (hkeeps : loopHidesFault body = false) (scale : UInt8) :
    KeepsFaults (repeated (Program.Means 1 body)) ((closeLoop body).Means scale) := by
  rw [closeLoop_eq (Program.every_mono Node.isInstruction_of_movesOn body hok)]
  cases hidiom : loopIdiom? body with
  | none => exact .refl _
  | some n =>
    rw [Option.getD_some]
    rw [loopIdiom?.eq_def] at hidiom
    split at hidiom
    · exact (refines_singleIdiom hidiom scale).2
    · exact keepsFaults_linearIdiom hidiom hok hkeeps scale

end Brainfuck
