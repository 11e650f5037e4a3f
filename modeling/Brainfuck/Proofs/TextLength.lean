import Brainfuck.Proofs.Brackets
import Brainfuck.Proofs.Optimization

/-!
# Programs are no longer than their texts

A text of `n` characters is a program whose code has at most `n` instructions and whose amounts are at
most `n`, and optimizing keeps to that.  `Program.extent` bounds both, so it is enough that no idiom has
a greater extent than its loop.

For the idioms that are written out from a delta map this is a matter of the way that the pointer goes.
A body that has been as far as `low` and `high`, and is at `here` now, has gone a way of at least
`2 * (high - low) - |here|`, whatever it did in between.  Once it is back that is `2 * (high - low)`,
and visiting the offsets from left to right takes no more.

* `Spans`, `exists_spans_of_walk`: the way that a linear sequence has gone.
* `DeltaMap.extent_emit_le`: the way that is written out.
* `Program.extent_optimize_le`: no program is made longer.
* `Program.keepsToWords_of_parse`: short texts keep to words, optimized or not.
-/

namespace Brainfuck

/-! ## The way of a linear sequence -/

/-- The offsets that a walk has been at: zero, the one where it is, and those of the map that it has
collected. -/
structure Spans (low high here : Int) (m : DeltaMap) : Prop where
  low_le : low ≤ 0
  le_high : 0 ≤ high
  here : low ≤ here ∧ here ≤ high
  entries : ∀ e ∈ m.entries, low ≤ e.1 ∧ e.1 ≤ high

/-- What a walk that has been at some offsets takes at least: the way, and a change for each entry. -/
def wayNeeded (low high here : Int) (m : DeltaMap) : Int :=
  2 * (high - low) - here.natAbs + m.entries.length

theorem DeltaMap.length_adjustEntries_le (offset : Int) (f : Int → Int) (entries : List (Int × Int)) :
    (adjustEntries offset f entries).length ≤ entries.length + 1 := by
  induction entries with
  | nil => exact Nat.le_refl 1
  | cons a rest ih =>
    rw [adjustEntries]
    split
    · simp
    · split
      · simp
      · simpa using ih

namespace Spans

variable {low high here : Int} {m : DeltaMap}

theorem start : Spans 0 0 0 .empty :=
  ⟨Int.le_refl 0, Int.le_refl 0, ⟨Int.le_refl 0, Int.le_refl 0⟩, fun e he => by cases he⟩

/-- A move makes the span longer, and takes as much as it is. -/
theorem move (h : Spans low high here m) (there : Int) :
    Spans (min low there) (max high there) there m ∧
      wayNeeded (min low there) (max high there) there m ≤
        wayNeeded low high here m + (there - here).natAbs := by
  have hlow := h.low_le
  have hhigh := h.le_high
  have hhere := h.here
  refine ⟨⟨by omega, by omega, by omega, fun e he => ?_⟩, ?_⟩
  · have := h.entries e he
    omega
  · unfold wayNeeded
    omega

/-- A change takes one for its entry. -/
theorem change (h : Spans low high here m) (f : Int → Int) :
    Spans low high here (m.adjust here f) ∧
      wayNeeded low high here (m.adjust here f) ≤ wayNeeded low high here m + 1 := by
  refine ⟨⟨h.low_le, h.le_high, h.here, fun e he => ?_⟩, ?_⟩
  · rcases DeltaMap.mem_adjustEntries he with heq | ⟨e', he', heq⟩
    · exact heq ▸ h.here
    · exact heq ▸ h.entries e' he'
  · have hlength : (m.adjust here f).entries.length ≤ m.entries.length + 1 :=
      DeltaMap.length_adjustEntries_le here f m.entries
    unfold wayNeeded
    omega

end Spans

/-- A linear sequence has at least the extent that what it has done takes. -/
theorem exists_spans_of_walk {here here' : Int} {m m' : DeltaMap} {p : List Node} {low high : Int}
    (hwalk : walk? here m p = some (here', m')) (h : Spans low high here m) :
    ∃ low' high', Spans low' high' here' m' ∧
      wayNeeded low' high' here' m' ≤ wayNeeded low high here m + Program.extent p := by
  fun_induction walk? here m p generalizing low high with
  | case1 here m =>
    obtain ⟨rfl, rfl⟩ := Prod.mk.inj (Option.some.inj hwalk)
    exact ⟨low, high, h, Int.le_add_of_nonneg_right (Int.natCast_nonneg _)⟩
  | case2 here m n p ih =>
    obtain ⟨hspans, hway⟩ := h.move (here + n)
    obtain ⟨low', high', hspans', hway'⟩ := ih hwalk hspans
    refine ⟨low', high', hspans', ?_⟩
    rw [Program.extent, Node.extent, amountExtent]
    omega
  | case3 here m n p ih =>
    obtain ⟨hspans, hway⟩ := h.move (here - n)
    obtain ⟨low', high', hspans', hway'⟩ := ih hwalk hspans
    refine ⟨low', high', hspans', ?_⟩
    rw [Program.extent, Node.extent, amountExtent]
    omega
  | case4 here m n p ih | case5 here m n p ih =>
    obtain ⟨hspans, hway⟩ := h.change _
    obtain ⟨low', high', hspans', hway'⟩ := ih hwalk hspans
    refine ⟨low', high', hspans', ?_⟩
    rw [Program.extent, Node.extent]
    omega
  | case6 => cases hwalk

/-- A body that returns has gone the way to both ends of its offsets and back. -/
theorem exists_spans_of_deltas {body : List Node} {m : DeltaMap} (h : deltas? body = some m) :
    ∃ low high, Spans low high 0 m ∧
      2 * (high - low) + m.entries.length ≤ Program.extent body := by
  obtain ⟨low, high, hspans, hway⟩ := exists_spans_of_walk (walk_of_deltas h) .start
  refine ⟨low, high, hspans, ?_⟩
  unfold wayNeeded at hway
  simp only [DeltaMap.empty, List.length_nil, Int.natAbs_zero] at hway
  omega

/-! ## The way that is written out -/

theorem extent_moveBy (distance : Int) : (moveBy distance).extent = max 1 distance.natAbs := by
  rw [moveBy]
  split
  · rw [Node.extent, amountExtent]
  · rw [Node.extent, amountExtent, Int.natAbs_neg]

theorem extent_changeBy (delta : Int) : (changeBy delta).extent = 1 := by
  rw [changeBy]
  split <;> rfl

namespace DeltaMap

variable {low high : Int}

/-- From an offset on, everything lies to the right, and then there is the way back. -/
theorem extent_emitFrom_le (hhigh : 0 ≤ high) {entries : List (Int × Int)}
    (hasc : entries.Pairwise fun a b => a.1 < b.1) (hinside : ∀ e ∈ entries, e.1 ≤ high) {here : Int}
    (hhere : here ≤ high) (hbehind : ∀ e ∈ entries, here ≤ e.1) :
    (Program.extent (emitFrom here entries) : Int) ≤ 2 * high - here + entries.length := by
  induction entries generalizing here with
  | nil =>
    rw [emitFrom]
    split
    · rw [Program.extent, List.length_nil]
      omega
    · rw [Program.extent, extent_moveBy, Program.extent, List.length_nil]
      omega
  | cons e rest ih =>
    obtain ⟨offset, delta⟩ := e
    obtain ⟨hfirst, hrest⟩ := List.pairwise_cons.mp hasc
    have hoffset := hbehind (offset, delta) List.mem_cons_self
    have hle := ih hrest (fun e he => hinside e (List.mem_cons_of_mem _ he))
      (hinside (offset, delta) List.mem_cons_self) fun e he => Int.le_of_lt (hfirst e he)
    dsimp only at hoffset hle
    rw [emitFrom, List.length_cons]
    split
    · rw [Program.extent, extent_changeBy]
      omega
    · rw [Program.extent, extent_moveBy, Program.extent, extent_changeBy]
      omega

/-- What is written out goes to both ends of the offsets and back. -/
theorem extent_emit_le {m : DeltaMap} (h : Spans low high 0 m) :
    (Program.extent m.emit : Int) ≤ 2 * (high - low) + m.entries.length := by
  have hasc := m.ascending
  have hinside := h.entries
  have hlow := h.low_le
  have hhigh := h.le_high
  rw [emit]
  generalize m.entries = entries at hasc hinside ⊢
  cases entries with
  | nil =>
    rw [emitFrom, if_pos rfl, Program.extent, List.length_nil]
    omega
  | cons e rest =>
    -- the first offset may lie to the left, and the others are to the right of it
    obtain ⟨offset, delta⟩ := e
    obtain ⟨hfirst, hrest⟩ := List.pairwise_cons.mp hasc
    obtain ⟨hfirst_low, hfirst_high⟩ := hinside (offset, delta) List.mem_cons_self
    have hle := extent_emitFrom_le hhigh hrest
      (fun e he => (hinside e (List.mem_cons_of_mem _ he)).2) hfirst_high
      fun e he => Int.le_of_lt (hfirst e he)
    dsimp only at hfirst_low hfirst_high hle
    rw [emitFrom, List.length_cons]
    split
    · rw [Program.extent, extent_changeBy]
      omega
    · rw [Program.extent, extent_moveBy, Program.extent, extent_changeBy]
      omega

end DeltaMap

/-! ## Idioms -/

variable {body : List Node} {n : Node}

theorem extent_le_of_linearIdiom (h : linearIdiom? body = some n) :
    n.extent ≤ (Node.loop body).extent := by
  obtain ⟨m, hbody, -, rfl⟩ := linearIdiom?_eq_some h
  obtain ⟨low, high, hspans, hway⟩ := exists_spans_of_deltas hbody
  have hothers : Spans low high 0 m.others :=
    ⟨hspans.low_le, hspans.le_high, hspans.here, fun e he =>
      hspans.entries e (DeltaMap.mem_others.mp he).1⟩
  have hfewer : m.others.entries.length ≤ m.entries.length := List.length_filter_le ..
  rw [Node.extent, multiplyIdiom]
  split
  case h_1 =>
    rw [Node.extent]
    omega
  case h_2 offset hentries =>
    have hoffset : low ≤ offset ∧ offset ≤ high :=
      hothers.entries (offset, 1) (by rw [hentries]; exact List.mem_cons_self)
    have hlow := hspans.low_le
    have hhigh := hspans.le_high
    split
    all_goals
      rw [Node.extent, amountExtent]
      omega
  case h_3 =>
    have hemit := DeltaMap.extent_emit_le hothers
    rw [Node.extent]
    omega

/-- No idiom has a greater extent than its loop. -/
theorem extent_le_of_loopIdiom (h : loopIdiom? body = some n) : n.extent ≤ (Node.loop body).extent := by
  rw [loopIdiom?.eq_def] at h
  split at h
  case h_1 k =>
    have hloop : (Node.loop [k]).extent = k.extent + 2 := by
      rw [Node.extent, Program.extent, Program.extent, Nat.add_zero]
    rw [hloop]
    rw [singleIdiom?.eq_def] at h
    split at h
    case h_1 | h_2 =>
      obtain rfl := Option.some.inj h
      exact Nat.le_add_right _ 2
    case h_3 | h_4 =>
      split at h
      · obtain rfl := Option.some.inj h
        exact Nat.le_add_left 1 _
      · cases h
    case h_5 => cases h
  case h_2 => exact extent_le_of_linearIdiom h

theorem extent_closeLoop_le (hok : Program.every Node.movesOn body = true) :
    (closeLoop body).extent ≤ (Node.loop body).extent := by
  rw [closeLoop_eq (Program.every_mono Node.isInstruction_of_movesOn body hok)]
  cases hidiom : loopIdiom? body with
  | none => exact Nat.le_refl _
  | some n => exact extent_le_of_loopIdiom hidiom

/-! ## Trees -/

mutual

theorem Node.extent_optimize_le : (n : Node) → ∀ {n'}, n.optimize = .ok n' →
    n.every Node.movesOn = true → n'.extent ≤ n.extent
  | .loop body, _, h, hok => by
    obtain ⟨body', hbody, rfl⟩ := Node.optimize_loop h
    rw [Node.every, Bool.and_eq_true] at hok
    have hle := Program.extent_optimize_le body hbody hok.2
    refine Nat.le_trans (extent_closeLoop_le (Program.every_movesOn_optimize body hbody hok.2)) ?_
    rw [Node.extent, Node.extent]
    omega
  | .scaled body, _, h, hok => by
    obtain ⟨body', hbody, rfl⟩ := Node.optimize_scaled h
    rw [Node.every, Bool.and_eq_true] at hok
    have hle := Program.extent_optimize_le body hbody hok.2
    rw [Node.extent, Node.extent]
    omega
  | .foreign _, _, _, hok | .derived _ _, _, _, hok => nomatch hok
  | .moveRight _, _, rfl, _ | .moveLeft _, _, rfl, _ | .increment _, _, rfl, _
  | .decrement _, _, rfl, _ | .output, _, rfl, _ | .input, _, rfl, _ | .scanRight _, _, rfl, _
  | .scanLeft _, _, rfl, _ | .clear, _, rfl, _ | .carryRight _, _, rfl, _
  | .carryLeft _, _, rfl, _ => Nat.le_refl _

/-- Optimizing does not make the extent of a program greater. -/
theorem Program.extent_optimize_le : (p : List Node) → ∀ {q}, Program.optimize p = .ok q →
    Program.every Node.movesOn p = true → Program.extent q ≤ Program.extent p
  | [], _, rfl, _ => Nat.le_refl _
  | n :: p, _, h, hok => by
    obtain ⟨n', p', hn, hp, rfl⟩ := Program.optimize_cons h
    rw [Program.every, Bool.and_eq_true] at hok
    exact Nat.add_le_add (Node.extent_optimize_le n hn hok.1) (Program.extent_optimize_le p hp hok.2)

end

/-! ## Texts -/

theorem Program.extent_le_of_parse {source : String} {p : Program}
    (h : Program.parse source = .ok p) : Program.extent p ≤ source.length := by
  obtain ⟨literal, hspells⟩ := exists_spells (Program.balanced_of_parse h)
  obtain ⟨q, hparse, -, -, hextent⟩ := Program.exists_parse hspells
  obtain rfl := Except.ok.inj (hparse.symm.trans h)
  exact hextent

/-- **Short texts keep to words.**  The program of a text with at most `2 ^ 62` characters keeps to words
on every tape, and so does what it is optimized to. -/
theorem Program.keepsToWords_of_parse {source : String} {p q : Program} {code code' : FlatCode}
    (hparse : Program.parse source = .ok p) (hlength : source.length ≤ 2 ^ 62)
    (hopt : Program.optimize p = .ok q) (hp : p.flatten = .ok code) (hq : q.flatten = .ok code')
    (tape : Tape) (index : Nat) (input : List UInt8) :
    code.KeepsToWords tape index input ∧ code'.KeepsToWords tape index input := by
  have hok := Program.every_movesOn_of_parse hparse
  have hextent := Nat.le_trans (Program.extent_le_of_parse hparse) hlength
  exact ⟨Program.keepsToWords_of_extent_le hp hok hextent tape index input,
    Program.keepsToWords_of_extent_le hq (Program.every_movesOn_optimize p hopt hok)
      (Nat.le_trans (Program.extent_optimize_le p hopt hok) hextent) tape index input⟩

end Brainfuck
