import Mathlib.Data.Finset.Card
import Mathlib.Data.Finset.Range
import Mathlib.Data.Nat.Find
import Brainfuck.Buffer
import Brainfuck.Proofs.Accesses

/-!
# Routines on memory

The routines that a compiled program calls do what the instructions do.  They are written in another
way: they count in words that wrap around, they grow a block in place, in the middle of what they are
doing, and they go on from there, where an instruction stops, is given a longer tape and starts again.
As long as no index gets near the end of the words, none of this shows.

Their loops go on until something is found.  What a loop finds is `firstWord`, and `firstWord_eq` is
the equation of the loop: that it is enough to look at as many words as there are plays no role from
there on.

There are two steps.  A routine on a block is an operation of a head on the tape in it, and here
everything about words is settled.  An operation of a head is an instruction together with the growth
in front of it, which is `Machine.execCovered`.

* `firstWord_eq`: loops over words.
* `Buffer.exists_growTo`: growing a block in place.
* `Buffer.exists_seekRight`, `Buffer.exists_seekLeft`: the loops.
* `Buffer.exists_perform`: one call.
* `Buffer.calls_refine_instructions`: calls one after another.
-/

namespace Brainfuck

/-! ## Loops -/

section Loops

variable {next : UInt64 → UInt64} {test : UInt64 → Bool} {w : UInt64} {k bound : Nat}

theorem firstWithin_eq_some (hpass : test (next^[k] w) = true)
    (hfail : ∀ j < k, test (next^[j] w) = false) (hk : k < bound) :
    firstWithin next test bound w = some (next^[k] w) := by
  induction k generalizing w bound with
  | zero =>
    obtain ⟨bound, rfl⟩ := Nat.exists_eq_add_one.mpr hk
    exact if_pos hpass
  | succ k ih =>
    obtain ⟨bound, rfl⟩ := Nat.exists_eq_add_one.mpr (Nat.zero_lt_of_lt hk)
    have hgo : test w = false := hfail 0 (Nat.succ_pos k)
    rw [firstWithin, hgo, if_neg Bool.false_ne_true]
    exact ih hpass (fun j hj => hfail (j + 1) (Nat.succ_lt_succ hj)) (Nat.lt_of_succ_lt_succ hk)

theorem firstWithin_eq_none (hfail : ∀ j, test (next^[j] w) = false) :
    firstWithin next test bound w = none := by
  induction bound generalizing w with
  | zero => rfl
  | succ bound ih =>
    have hgo : test w = false := hfail 0
    rw [firstWithin, hgo, if_neg Bool.false_ne_true]
    exact ih fun j => hfail (j + 1)

/-- Up to the first word that passes no word comes twice, since that one would have come earlier. -/
theorem iterate_ne_of_first (hpass : test (next^[k] w) = true)
    (hfail : ∀ j < k, test (next^[j] w) = false) {i j : Nat} (hij : i < j) (hj : j ≤ k) :
    next^[i] w ≠ next^[j] w := by
  intro heq
  have hearlier : next^[k - j + i] w = next^[k] w :=
    calc next^[k - j + i] w = next^[k - j] (next^[i] w) := Function.iterate_add_apply ..
      _ = next^[k - j] (next^[j] w) := by rw [heq]
      _ = next^[k - j + j] w := (Function.iterate_add_apply ..).symm
      _ = next^[k] w := by rw [Nat.sub_add_cancel hj]
  have hnot := hfail (k - j + i) (by omega)
  rw [hearlier, hpass] at hnot
  cases hnot

/-- The first word that passes is among as many as there are. -/
theorem lt_size_of_first (hpass : test (next^[k] w) = true)
    (hfail : ∀ j < k, test (next^[j] w) = false) : k < UInt64.size := by
  have hinj : Set.InjOn (fun i => (next^[i] w).toNat) (Finset.range (k + 1)) := by
    intro i hi j hj heq
    have hword : next^[i] w = next^[j] w := UInt64.toNat_inj.mp heq
    simp only [Finset.coe_range, Set.mem_Iio, Nat.lt_succ_iff] at hi hj
    rcases Nat.lt_trichotomy i j with hij | hij | hij
    · exact absurd hword (iterate_ne_of_first hpass hfail hij hj)
    · exact hij
    · exact absurd hword.symm (iterate_ne_of_first hpass hfail hij hi)
  have hmaps : Set.MapsTo (fun i => (next^[i] w).toNat) (Finset.range (k + 1))
      (Finset.range UInt64.size) := fun i _ => by
    simpa using (next^[i] w).toNat_lt
  have hcard := Finset.card_le_card_of_injOn _ hmaps hinj
  rwa [Finset.card_range, Finset.card_range] at hcard

theorem firstWord_eq_some (hpass : test (next^[k] w) = true)
    (hfail : ∀ j < k, test (next^[j] w) = false) : firstWord next test w = some (next^[k] w) :=
  firstWithin_eq_some hpass hfail (lt_size_of_first hpass hfail)

/-- What a loop does, however often: it ends, or it goes on with the next word. -/
theorem firstWord_eq (next : UInt64 → UInt64) (test : UInt64 → Bool) (w : UInt64) :
    firstWord next test w = if test w then some w else firstWord next test (next w) := by
  by_cases hstop : test w = true
  · rw [if_pos hstop]
    exact firstWord_eq_some (k := 0) hstop fun j hj => absurd hj (Nat.not_lt_zero j)
  · have hgo : test w = false := Bool.not_eq_true _ ▸ hstop
    rw [if_neg hstop]
    by_cases hlater : ∃ k, test (next^[k] (next w)) = true
    · have hpass := Nat.find_spec hlater
      have hfail : ∀ j < Nat.find hlater, test (next^[j] (next w)) = false :=
        fun j hj => Bool.not_eq_true _ ▸ Nat.find_min hlater hj
      rw [firstWord_eq_some hpass hfail]
      refine firstWord_eq_some (k := Nat.find hlater + 1) hpass fun j hj => ?_
      cases j with
      | zero => exact hgo
      | succ j => exact hfail j (Nat.lt_of_succ_lt_succ hj)
    · have hfail : ∀ j, test (next^[j] (next w)) = false :=
        fun j => Bool.not_eq_true _ ▸ fun h => hlater ⟨j, h⟩
      rw [firstWord, firstWord, firstWithin_eq_none hfail]
      refine firstWithin_eq_none fun j => ?_
      cases j with
      | zero => exact hgo
      | succ j => exact hfail j

end Loops

namespace Buffer

variable {b : Buffer}

@[simp] theorem size_tape (b : Buffer) : b.tape.size = b.count.toNat := b.cells.size_toArray

/-- A cell of a block is one of the tape in it. -/
theorem getElem?_cells {i : Nat} (hi : i < b.count.toNat) : b.cells[i]? = some (b.tape.get i) := by
  rw [Tape.get, tape, Array.getD_eq_getD_getElem?, Vector.getElem?_toArray,
    Vector.getElem?_eq_getElem hi, Option.getD_some]

/-! ## What the loops do -/

theorem roundUp_eq (n p : UInt64) : roundUp n p = if p < n then roundUp n (p <<< 1) else some p := by
  rw [roundUp, firstWord_eq, roundUp]
  by_cases hgo : p < n
  · rw [if_pos hgo, if_neg (by simpa using hgo)]
  · rw [if_neg hgo, if_pos (by simpa using hgo)]

theorem seekRight_eq (fresh : Nat → UInt8) (b : Buffer) (amount current : UInt64) :
    b.seekRight fresh amount current = (do
      let cell ← b.cells[current.toNat]?
      if cell = 0 then return { b with index := current }
      else if b.count ≤ current + amount then
        let grown ← growTo fresh b (current + amount)
        return { grown with index := current + amount }
      else b.seekRight fresh amount (current + amount)) := by
  rw [seekRight, firstWord_eq, seekRight]
  cases hcell : b.cells[current.toNat]? with
  | none => simp [isBlank, hcell]
  | some cell =>
    by_cases hzero : cell = 0
    · simp [isBlank, hcell, hzero]
    · by_cases hleaves : b.count ≤ current + amount
      · simp [isBlank, hcell, hzero, hleaves]
      · simp [isBlank, hcell, hzero, hleaves]

theorem seekLeft_eq (b : Buffer) (amount current : UInt64) :
    b.seekLeft amount current = (do
      let cell ← b.cells[current.toNat]?
      if cell = 0 then return (false, { b with index := current })
      else if current < amount then return (true, b)
      else b.seekLeft amount (current - amount)) := by
  rw [seekLeft, firstWord_eq, seekLeft]
  cases hcell : b.cells[current.toNat]? with
  | none => simp [isBlank, hcell]
  | some cell =>
    by_cases hzero : cell = 0
    · simp [isBlank, hcell, hzero]
    · by_cases hleaves : current < amount
      · simp [isBlank, hcell, hzero, hleaves]
      · simp [isBlank, hcell, hzero, hleaves]

/-! ## Growth -/

/-- Doubling a power of two leads to the first power of two that is not less than a word, as long as
that is a word itself. -/
theorem exists_roundUp {n p : UInt64} {k m : Nat} (hp : p.toNat = 2 ^ k) (hk : k ≤ m) (hm : m < 64)
    (hn : n.toNat ≤ 2 ^ m) (hless : ∀ j < m, 2 ^ j < n.toNat) :
    ∃ q, roundUp n p = some q ∧ q.toNat = 2 ^ m := by
  -- the number of doublings that are still to come
  obtain ⟨d, rfl⟩ := Nat.exists_eq_add_of_le hk
  induction d generalizing k p with
  | zero =>
    have hstop : ¬ p < n := by
      rw [UInt64.lt_iff_toNat_lt, hp]
      exact Nat.not_lt.mpr hn
    exact ⟨p, by rw [roundUp_eq, if_neg hstop], hp⟩
  | succ d ih =>
    have hgo : p < n := by
      rw [UInt64.lt_iff_toNat_lt, hp]
      exact hless k (by omega)
    have hword : 2 ^ (k + 1) < 2 ^ 64 := Nat.pow_lt_pow_right (by decide) (by omega)
    have hdouble : (p <<< 1).toNat = 2 ^ (k + 1) := by
      rw [UInt64.toNat_shiftLeft, hp]
      exact (congrArg (· % 2 ^ 64) (Nat.shiftLeft_eq ..)).trans (Nat.mod_eq_of_lt hword)
    rw [roundUp_eq, if_pos hgo]
    have heq : k + 1 + d = k + (d + 1) := by omega
    simpa only [heq] using ih hdouble (by omega) (by omega) (by rwa [heq]) (by rwa [heq])

theorem exists_roundUp_sizeFor {index : UInt64} (h : index.toNat + 1 ≤ 2 ^ 63) :
    ∃ count, roundUp (index + 1) 1 = some count ∧ count.toNat = Tape.sizeFor index.toNat := by
  obtain ⟨m, hm, hless⟩ := Tape.exists_sizeFor index.toNat
  have hsucc : (index + 1).toNat = index.toNat + 1 := by
    rw [UInt64.toNat_add]
    exact Nat.mod_eq_of_lt (by simp only [UInt64.toNat_one]; omega)
  have hcovers := Tape.lt_sizeFor index.toNat
  have hsmall : m < 64 := by
    by_contra hbig
    have := hless 63 (by omega)
    omega
  rw [hm] at hcovers ⊢
  exact exists_roundUp rfl (Nat.zero_le m) hsmall (by omega)
    fun j hj => by have := hless j hj; omega

/-- A longer block with zero cells behind the old ones is what a tape grows to. -/
theorem cleared?_resized {n size : Nat} (cells : Vector UInt8 n) (fresh : Nat → UInt8)
    (hsize : n ≤ size) :
    ∃ cells', cleared? (resized cells size fresh) n (size - n) = some cells' ∧
      cells'.toArray = cells.toArray ++ Array.replicate (size - n) 0 := by
  have hroom : n + (size - n) ≤ size := by omega
  refine ⟨_, if_pos hroom, Array.ext (by simp; omega) fun i hi hi' => ?_⟩
  simp only [Vector.getElem_toArray, Vector.getElem_mapIdx, resized, Vector.getElem_ofFn]
  rw [Array.getElem_append]
  simp only [Vector.size_toArray] at hi ⊢
  by_cases hold : i < n
  · rw [if_neg (by omega), dif_pos hold, Vector.getElem?_eq_getElem hold, Option.getD_some,
      Vector.getElem_toArray]
  · rw [if_pos (by omega), dif_neg hold, Array.getElem_replicate]

/-- A block grows in place as a tape does. -/
theorem exists_growTo (b : Buffer) (fresh : Nat → UInt8) {index : UInt64}
    (h : index.toNat + 1 ≤ 2 ^ 63) :
    ∃ grown, b.growTo fresh index = some grown ∧ grown.tape = b.tape.cover index.toNat ∧
      grown.index = b.index := by
  rw [growTo, Tape.cover, size_tape]
  by_cases hinside : index < b.count
  · exact ⟨b, if_pos hinside, (if_pos (UInt64.lt_iff_toNat_lt.mp hinside)).symm, rfl⟩
  · have houtside : b.count.toNat ≤ index.toNat := Nat.not_lt.mp (mt UInt64.lt_iff_toNat_lt.mpr hinside)
    obtain ⟨count, hcount, hsize⟩ := exists_roundUp_sizeFor h
    have hlonger : b.count.toNat ≤ count.toNat := by
      have := Tape.lt_sizeFor index.toNat
      omega
    obtain ⟨cells, hcells, hzeros⟩ := cleared?_resized b.cells fresh hlonger
    refine ⟨⟨count, cells, b.index⟩, ?_, ?_, rfl⟩
    · rw [if_neg hinside, hcount]
      simp only [UInt64.toNat_sub_of_le _ _ (UInt64.le_iff_toNat_le.mpr hlonger), hcells,
        Option.bind_eq_bind, Option.bind_some, Option.pure_def]
    · rw [if_neg (Nat.not_lt.mpr houtside), Tape.grow, size_tape, ← hsize]
      exact congrArg Tape.mk hzeros

/-! ## Routines and heads -/

theorem toNat_add_of_reach {i n : UInt64} (h : i.toNat + n.toNat + 1 ≤ 2 ^ 63) :
    (i + n).toNat = i.toNat + n.toNat := by
  rw [UInt64.toNat_add]
  exact Nat.mod_eq_of_lt (by omega)

theorem exists_moveRight (b : Buffer) (fresh : Nat → UInt8) {n : UInt64}
    (h : b.index.toNat + n.toNat + 1 ≤ 2 ^ 63) :
    ∃ after, b.moveRight fresh n = some after ∧ after.head = b.head.moveRight n.toNat := by
  have hword := toNat_add_of_reach h
  obtain ⟨after, hafter, htape, hindex⟩ :=
    exists_growTo { b with index := b.index + n } fresh (hword ▸ h)
  refine ⟨after, hafter, ?_⟩
  rw [head, htape, hindex, hword]
  rfl

/-- The loop that looks to the right ends where the scan of the tape does.  The words do not wrap
around, since the scan itself does not get that far. -/
theorem exists_seekRight (b : Buffer) (fresh : Nat → UInt8) {n current : UInt64} (hn : n ≠ 0)
    (hinside : current.toNat < b.count.toNat)
    (hreach : ∀ k, (∀ j < k, b.tape.get (current.toNat + j * n.toNat) ≠ 0) →
      current.toNat + k * n.toNat + 1 ≤ 2 ^ 63) :
    ∃ after, b.seekRight fresh n current = some after ∧
      after.head = Head.scanRight ⟨b.tape, current.toNat⟩ n.toNat := by
  have hpos : n.toNat ≠ 0 := fun h => hn (UInt64.toNat_inj.mp h)
  generalize hi : current.toNat = i at hinside hreach
  rw [Head.scanRight]
  dsimp only
  -- along the recursion of the scan, of which each step is one of the loop
  fun_induction b.tape.scanRight n.toNat i generalizing current with
  | case1 i hstop =>
    have hzero : b.tape.get i = 0 := hstop.resolve_right hpos
    refine ⟨{ b with index := current }, ?_, ?_⟩
    · rw [seekRight_eq, hi, getElem?_cells hinside]
      exact if_pos hzero
    · rw [Tape.cover, size_tape, if_pos hinside, head, hi]
      rfl
  | case2 i hgo ih =>
    have hcell : b.tape.get i ≠ 0 := fun h => hgo (Or.inl h)
    have hnext : i + n.toNat + 1 ≤ 2 ^ 63 := by
      have := hreach 1 fun j hj => by
        obtain rfl : j = 0 := by omega
        rwa [Nat.zero_mul, Nat.add_zero]
      omega
    have hword : (current + n).toNat = i + n.toNat := by
      rw [toNat_add_of_reach (hi.symm ▸ hnext), hi]
    rw [seekRight_eq, hi, getElem?_cells hinside]
    simp only [Option.bind_eq_bind, Option.bind_some, if_neg hcell]
    by_cases hleaves : b.count ≤ current + n
    · have houtside : b.count.toNat ≤ i + n.toNat := hword ▸ UInt64.le_iff_toNat_le.mp hleaves
      obtain ⟨grown, hgrown, htape, -⟩ := exists_growTo b fresh (hword.symm ▸ hnext)
      refine ⟨{ grown with index := current + n }, ?_, ?_⟩
      · rw [if_pos hleaves, hgrown]
        rfl
      · have hzero : b.tape.get (i + n.toNat) = 0 :=
          Tape.get_eq_zero_of_size_le (b.size_tape.symm ▸ houtside)
        rw [Tape.scanRight_eq_self hzero, ← hword, ← htape]
        rfl
    · have hinside' : i + n.toNat < b.count.toNat := by
        rw [← hword]
        exact Nat.not_le.mp (mt UInt64.le_iff_toNat_le.mpr hleaves)
      rw [if_neg hleaves]
      refine ih hword hinside' fun k hk => ?_
      have := hreach (k + 1) fun j hj => by
        cases j with
        | zero => rwa [Nat.zero_mul, Nat.add_zero]
        | succ j =>
          rw [Nat.succ_mul, Nat.add_comm (j * _), ← Nat.add_assoc]
          exact hk j (by omega)
      rw [Nat.succ_mul] at this
      omega

/-- The loop that looks to the left ends where the scan of the tape does. -/
theorem exists_seekLeft (b : Buffer) {n current : UInt64} (hn : n ≠ 0)
    (hinside : current.toNat < b.count.toNat) :
    ∃ after, b.seekLeft n current =
        some ((b.tape.scanLeft? n.toNat current.toNat).isNone, after) ∧
      after.head = ((b.tape.scanLeft? n.toNat current.toNat).map (Head.mk b.tape)).getD b.head := by
  have hpos : n.toNat ≠ 0 := fun h => hn (UInt64.toNat_inj.mp h)
  generalize hi : current.toNat = i at hinside
  fun_induction b.tape.scanLeft? n.toNat i generalizing current with
  | case1 i hstop =>
    have hzero : b.tape.get i = 0 := hstop.resolve_right hpos
    refine ⟨{ b with index := current }, ?_, congrArg (Head.mk b.tape) hi⟩
    rw [seekLeft_eq, hi, getElem?_cells hinside]
    exact if_pos hzero
  | case2 i hgo hlt =>
    have hcell : b.tape.get i ≠ 0 := fun h => hgo (Or.inl h)
    have hleaves : current < n := UInt64.lt_iff_toNat_lt.mpr (hi.symm ▸ hlt)
    refine ⟨b, ?_, rfl⟩
    rw [seekLeft_eq, hi, getElem?_cells hinside]
    simp only [Option.bind_eq_bind, Option.bind_some, if_neg hcell, if_pos hleaves]
    rfl
  | case3 i hgo hge ih =>
    have hcell : b.tape.get i ≠ 0 := fun h => hgo (Or.inl h)
    have hstays : ¬ current < n := fun h => hge (hi ▸ UInt64.lt_iff_toNat_lt.mp h)
    have hword : (current - n).toNat = i - n.toNat := by
      rw [UInt64.toNat_sub_of_le _ _ (UInt64.not_lt.mp hstays), hi]
    obtain ⟨after, hafter, hhead⟩ := ih hword (by omega)
    refine ⟨after, ?_, hhead⟩
    rw [seekLeft_eq, hi, getElem?_cells hinside]
    simp only [Option.bind_eq_bind, Option.bind_some, if_neg hcell, if_neg hstays]
    exact hafter

theorem exists_carryTo (b : Buffer) {target : UInt64} (hinside : b.index.toNat < b.count.toNat)
    (htarget : target.toNat < b.count.toNat) :
    ∃ after, b.carryTo target = some after ∧ after.head = b.head.carryTo target.toNat := by
  refine ⟨_, by rw [carryTo, getElem?_cells hinside, getElem?_cells htarget]; rfl, ?_⟩
  simp only [head, tape, Head.carryTo, Head.cell, Tape.set, Vector.toArray_setIfInBounds]

theorem exists_carryRight (b : Buffer) (fresh : Nat → UInt8) {n : UInt64}
    (hinside : b.index.toNat < b.count.toNat) (h : b.index.toNat + n.toNat + 1 ≤ 2 ^ 63) :
    ∃ after, b.carryRight fresh n = some after ∧ after.head = b.head.carryRight n.toNat := by
  have hword := toNat_add_of_reach h
  obtain ⟨grown, hgrown, htape, hindex⟩ := exists_growTo b fresh (hword.symm ▸ h)
  have hsize : grown.count.toNat = (b.tape.cover (b.index + n).toNat).size := by
    rw [← htape, size_tape]
  have htarget : (b.index + n).toNat < grown.count.toNat := hsize ▸ Tape.lt_size_cover ..
  have hkept : b.count.toNat ≤ grown.count.toNat := by
    rw [hsize, ← size_tape b]
    exact Tape.size_le_cover ..
  obtain ⟨after, hafter, hhead⟩ := grown.exists_carryTo (hindex ▸ by omega) htarget
  refine ⟨after, by rw [carryRight, hgrown]; exact hafter, ?_⟩
  rw [hhead, head, htape, hindex, hword]
  rfl

theorem exists_carryLeft (b : Buffer) {n : UInt64} (hinside : b.index.toNat < b.count.toNat) :
    ∃ after, b.carryLeft n = some ((b.head.carryLeft? n.toNat).isNone, after) ∧
      after.head = (b.head.carryLeft? n.toNat).getD b.head := by
  rw [carryLeft, getElem?_cells hinside, Head.carryLeft?]
  simp only [Option.bind_eq_bind, Option.bind_some]
  by_cases hzero : b.tape.get b.index.toNat = 0
  · have hzero' : b.head.cell = 0 := hzero
    exact ⟨b, by rw [if_pos hzero, if_pos hzero']; rfl, by rw [if_pos hzero']; rfl⟩
  · have hzero' : b.head.cell ≠ 0 := hzero
    rw [if_neg hzero, if_neg hzero']
    by_cases hlt : b.index < n
    · have hlt' : b.head.index < n.toNat := UInt64.lt_iff_toNat_lt.mp hlt
      exact ⟨b, by rw [if_pos hlt, if_pos hlt']; rfl, by rw [if_pos hlt']; rfl⟩
    · have hlt' : ¬ b.head.index < n.toNat := fun h => hlt (UInt64.lt_iff_toNat_lt.mpr h)
      have hword : (b.index - n).toNat = b.head.index - n.toNat :=
        UInt64.toNat_sub_of_le _ _ (UInt64.not_lt.mp hlt)
      have htarget : (b.index - n).toNat < b.count.toNat := by
        rw [hword]
        exact Nat.lt_of_le_of_lt (Nat.sub_le ..) hinside
      obtain ⟨after, hafter, hhead⟩ := b.exists_carryTo hinside htarget
      rw [if_neg hlt, if_neg hlt', hafter, ← hword]
      exact ⟨after, rfl, hhead⟩

/-- A block is determined by what it is a place on. -/
theorem head_inj {b b' : Buffer} (h : b.head = b'.head) : b = b' := by
  obtain ⟨count, cells, index⟩ := b
  obtain ⟨count', cells', index'⟩ := b'
  obtain ⟨htape, hindex⟩ := Head.mk.inj h
  have hcells : cells.toArray = cells'.toArray := Tape.mk.inj htape
  have hcount : count.toNat = count'.toNat := by
    rw [← cells.size_toArray, hcells, cells'.size_toArray]
  obtain rfl := UInt64.toNat_inj.mp hcount
  have hword : index = index' := UInt64.toNat_inj.mp hindex
  rw [Vector.toArray_inj.mp hcells, hword]

end Buffer

/-! ## Calls and heads -/

/-- What a routine does to a head, with its answer. -/
def Routine.act (n : Nat) (h : Head) : Routine → Option Bool × Head
  | .moveRight => (none, h.moveRight n)
  | .scanRight => (none, h.scanRight n)
  | .scanLeft => (some (h.scanLeft? n).isNone, (h.scanLeft? n).getD h)
  | .carryRight => (none, h.carryRight n)
  | .carryLeft => (some (h.carryLeft? n).isNone, (h.carryLeft? n).getD h)

/-- The indices that a call gets to.  To the left it gets no further than it was. -/
def Call.Reaches (h : Head) (c : Call) (i : Nat) : Prop :=
  match c.routine with
  | .moveRight | .carryRight => i = h.index ∨ i = h.index + c.amount.toNat
  | .scanRight =>
    ∃ k, i = h.index + k * c.amount.toNat ∧ ∀ j < k, h.tape.get (h.index + j * c.amount.toNat) ≠ 0
  | .scanLeft | .carryLeft => i = h.index

/-- A call returns and does to the block what its routine does to a head. -/
theorem Buffer.exists_perform (b : Buffer) (c : Call) (hinside : b.index.toNat < b.count.toNat)
    (hscan : c.routine.scans = true → c.amount ≠ 0)
    (hreach : ∀ i, c.Reaches b.head i → i + 1 ≤ 2 ^ 63) :
    ∃ after, b.perform c = some ((c.routine.act c.amount.toNat b.head).1, after) ∧
      after.head = (c.routine.act c.amount.toNat b.head).2 := by
  obtain ⟨routine, n, fresh⟩ := c
  rw [perform]
  cases routine with
  | moveRight =>
    obtain ⟨after, hafter, hhead⟩ := b.exists_moveRight fresh (hreach _ (Or.inr rfl))
    exact ⟨after, by simp only [hafter]; rfl, hhead⟩
  | scanRight =>
    obtain ⟨after, hafter, hhead⟩ := b.exists_seekRight fresh (hscan rfl) hinside
      fun k hk => hreach _ ⟨k, rfl, hk⟩
    exact ⟨after, by simp only [scanRight, hafter]; rfl, hhead⟩
  | scanLeft =>
    obtain ⟨after, hafter, hhead⟩ := b.exists_seekLeft (hscan rfl) hinside
    refine ⟨after, ?_, hhead⟩
    simp only [scanLeft, hafter, Routine.act, Head.scanLeft?, Option.isNone_map]
    rfl
  | carryRight =>
    obtain ⟨after, hafter, hhead⟩ := b.exists_carryRight fresh hinside (hreach _ (Or.inr rfl))
    exact ⟨after, by simp only [hafter]; rfl, hhead⟩
  | carryLeft =>
    obtain ⟨after, hafter, hhead⟩ := b.exists_carryLeft (n := n) hinside
    exact ⟨after, by simp only [hafter]; rfl, hhead⟩

/-- A routine leaves a head on its tape. -/
theorem Routine.index_act_lt {h : Head} (hinside : h.index < h.tape.size) (n : Nat) (r : Routine) :
    (r.act n h).2.index < (r.act n h).2.tape.size := by
  have hcarried (t : Tape) (i target : Nat) : (Head.carryTo ⟨t, i⟩ target).tape.size = t.size := by
    rw [Head.carryTo, Tape.size_set, Tape.size_set]
  cases r with
  | moveRight | scanRight => exact Tape.lt_size_cover ..
  | scanLeft =>
    rw [act, Head.scanLeft?]
    cases htarget : h.tape.scanLeft? n h.index with
    | none => exact hinside
    | some target => exact Nat.lt_of_le_of_lt (h.tape.scanLeft?_le n h.index htarget) hinside
  | carryRight =>
    rw [act, Head.carryRight, hcarried]
    exact Nat.lt_of_lt_of_le hinside (Tape.size_le_cover ..)
  | carryLeft =>
    rw [act, Head.carryLeft?]
    split
    · exact hinside
    · split
      · exact hinside
      · exact (hcarried h.tape h.index _).symm ▸ hinside

/-! ## Heads and instructions -/

/-- The code of a single instruction. -/
def Instr.alone (i : Instr) : FlatCode := ⟨#[i], 0⟩

namespace Instr

open Execution

variable {i : Instr} {tape : Tape} {index : Nat} {m : Machine}

theorem machine_start_alone (hinside : index < tape.size) (input : List UInt8) :
    (i.alone.start tape index input).machine = ⟨0, index, tape, #[0]⟩ := by
  rw [FlatCode.start, if_pos (Int.ofNat_lt.mpr hinside)]
  rfl

/-- An instruction by itself is ready if it is sound and there is room for the index that it computes. -/
theorem ready_start_alone (hinside : index < tape.size) (hi : i.hasSoundDistance = true)
    (hgoal : ∀ target, Machine.goal? ⟨0, index, tape, #[0]⟩ i = some target → target < 2 ^ 63)
    (input : List UInt8) : (i.alone.start tape index input).Ready i.alone := by
  refine ⟨?_, fun j hj => ?_, fun j target hj htarget => ?_⟩
  · rw [machine_start_alone hinside]
    exact Machine.OnTape.of_lt hinside
  · obtain rfl : i = j := Option.some.inj hj
    exact hi
  · obtain rfl : i = j := Option.some.inj hj
    rw [machine_start_alone hinside] at htarget
    exact Or.inl (hgoal target htarget)

/-- An instruction by itself that goes on, after the growth that it asks for. -/
theorem exists_yields_of_next (hinside : index < tape.size) (input : List UInt8)
    (hready : (i.alone.start tape index input).Ready i.alone)
    (h : Machine.plainCovered i ⟨0, index, tape, #[0]⟩ = .next m) (hpc : m.pc = 1) :
    ∃ steps, i.alone.Yields tape index input (result m input #[] steps none) := by
  let x := i.alone.start tape index input
  have hsmooth : x.smooth i.alone =
      .next ⟨m, input, #[], x.steps + x.growths Machine.plain i.alone + 1⟩ := by
    rw [smooth_of_fetch (i := i) rfl, machine_start_alone hinside, h]
    rfl
  have hend : i.alone.code[m.pc]? = none := by
    rw [hpc]
    rfl
  obtain ⟨n, hruns⟩ := hready.runs_of_smooth hsmooth
  exact ⟨_, FlatCode.yields_iff_ends.mpr ⟨n, _, hruns, stepBy_of_end hend⟩⟩

/-- An instruction by itself that faults. -/
theorem exists_yields_of_fault (hinside : index < tape.size) (input : List UInt8)
    (hready : (i.alone.start tape index input).Ready i.alone)
    (h : Machine.plainCovered i ⟨0, index, tape, #[0]⟩ = .fault m) :
    ∃ steps, i.alone.Yields tape index input (result m input #[] steps (some m.pc)) := by
  let x := i.alone.start tape index input
  have hsmooth : x.smooth i.alone =
      .final (.finished (result m input #[] (x.steps + x.growths Machine.plain i.alone + 1)
        (some m.pc))) := by
    rw [smooth_of_fetch (i := i) rfl, machine_start_alone hinside, h]
    rfl
  exact ⟨_, FlatCode.yields_iff_ends.mpr (hready.ends_of_smooth hsmooth)⟩

end Instr

namespace Routine

/-- The node that a routine is for. -/
def node (n : Nat) : Routine → Node
  | moveRight => .moveRight n
  | scanRight => .scanRight n
  | scanLeft => .scanLeft n
  | carryRight => .carryRight n
  | carryLeft => .carryLeft n

/-- The instruction that a routine is for. -/
def instr (n : Nat) : Routine → Instr
  | moveRight => .right n
  | scanRight => .scanRight n
  | scanLeft => .scanLeft n
  | carryRight => .carryRight n
  | carryLeft => .carryLeft n

/-- The program of one node is one instruction, unless its amount is no word with a sign. -/
theorem flatten_node (n : Nat) (r : Routine) :
    Program.flatten [r.node n] =
      if n < 2 ^ 63 then .ok (r.instr n).alone else .error .wideArgument := by
  have hcode : Program.code 0 0 none [r.node n] = .ok [r.instr n] := by
    cases r <;> rfl
  have hargument : (r.instr n).argument = n := by
    cases r <;> rfl
  have hdepth : Program.scaleDepth [r.node n] = 0 := by
    cases r <;> rfl
  have hfits : (r.instr n).fits = true ↔ n < 2 ^ 63 := by
    rw [Instr.fits_iff, hargument]
    omega
  rw [Program.flatten, hcode, hdepth]
  exact if_congr (by simpa using hfits) rfl rfl

/-- The instruction of a call is sound, and there is room for the index that it computes. -/
theorem ready_start {h : Head} (hinside : h.index < h.tape.size) (c : Call)
    (hscan : c.routine.scans = true → c.amount ≠ 0) (hreach : ∀ i, c.Reaches h i → i + 1 ≤ 2 ^ 63)
    (input : List UInt8) :
    ((c.routine.instr c.amount.toNat).alone.start h.tape h.index input).Ready
      (c.routine.instr c.amount.toNat).alone := by
  obtain ⟨tape, index⟩ := h
  obtain ⟨routine, n, fresh⟩ := c
  have hmakes : n ≠ 0 → (1 : Int) ≤ n.toNat := fun hn => by
    have hpos := Nat.pos_of_ne_zero fun hzero => hn (UInt64.toNat_inj.mp hzero)
    omega
  refine Instr.ready_start_alone hinside ?_ (fun target htarget => ?_) input
  · cases routine with
    | moveRight | carryRight | carryLeft => exact decide_eq_true (Int.natCast_nonneg n.toNat)
    | scanRight | scanLeft => exact decide_eq_true (hmakes (hscan rfl))
  · cases routine with
    | moveRight | carryRight =>
      rw [instr, Machine.goal?, Machine.place_mk, Int.toNat_natCast] at htarget
      exact Option.some.inj htarget ▸ hreach _ (Or.inr rfl)
    | scanRight =>
      rw [instr, Machine.goal?, Machine.place_mk, Int.toNat_natCast] at htarget
      obtain ⟨k, hk, hcells⟩ := tape.exists_scanRight n.toNat index
      exact Option.some.inj htarget ▸ hreach _ ⟨k, hk, hcells⟩
    | scanLeft | carryLeft => cases htarget

/-- The instruction by itself does what the routine does, and faults where the routine says that it
failed. -/
theorem exists_yields {h : Head} (hinside : h.index < h.tape.size) (n : Nat) (r : Routine)
    (input : List UInt8)
    (hready : ((r.instr n).alone.start h.tape h.index input).Ready (r.instr n).alone) :
    ∃ result, (r.instr n).alone.Yields h.tape h.index input result ∧ result.tape = (r.act n h).2.tape ∧
      result.index = (r.act n h).2.index ∧
      (r.act n h).1 = (if r.answers then some result.faulted else none) ∧
      (result.faulted = true → r.answers = true ∧ (r.act n h).2 = h) := by
  obtain ⟨tape, index⟩ := h
  let m : Machine := ⟨0, index, tape, #[0]⟩
  cases r with
  | moveRight =>
    have hplain := Machine.plainCovered_right m n
    rw [Machine.place_mk] at hplain
    obtain ⟨steps, hyields⟩ := Instr.exists_yields_of_next hinside input hready hplain rfl
    exact ⟨_, hyields, rfl, rfl, rfl, fun hfault => by cases hfault⟩
  | scanRight =>
    have hplain := Machine.plainCovered_scanRight m n
    rw [Machine.place_mk] at hplain
    obtain ⟨steps, hyields⟩ := Instr.exists_yields_of_next hinside input hready hplain rfl
    exact ⟨_, hyields, rfl, rfl, rfl, fun hfault => by cases hfault⟩
  | carryRight =>
    have hplain := Machine.plainCovered_carryRight m n
    rw [Machine.place_mk] at hplain
    obtain ⟨steps, hyields⟩ := Instr.exists_yields_of_next hinside input hready hplain rfl
    exact ⟨_, hyields, rfl, rfl, rfl, fun hfault => by cases hfault⟩
  | scanLeft =>
    rw [act, Head.scanLeft?]
    cases htarget : tape.scanLeft? n index with
    | none =>
      have hplain : m.plainCovered (.scanLeft n) = .fault m := by
        simp only [Machine.plainCovered, Machine.plain, Machine.place_mk, Int.toNat_natCast, m, htarget]
      obtain ⟨steps, hyields⟩ := Instr.exists_yields_of_fault hinside input hready hplain
      exact ⟨_, hyields, rfl, rfl, rfl, fun _ => ⟨rfl, rfl⟩⟩
    | some target =>
      have hplain : m.plainCovered (.scanLeft n) = .next ⟨1, target, tape, #[0]⟩ := by
        simp only [Machine.plainCovered, Machine.plain, Machine.place_mk, Int.toNat_natCast, m, htarget]
      obtain ⟨steps, hyields⟩ := Instr.exists_yields_of_next hinside input hready hplain rfl
      exact ⟨_, hyields, rfl, rfl, rfl, fun hfault => by cases hfault⟩
  | carryLeft =>
    rw [act, Head.carryLeft?]
    by_cases hzero : Head.cell ⟨tape, index⟩ = 0
    · have hzero' : m.cell = 0 := hzero
      have hplain : m.plainCovered (.carryLeft n) = .next m.advance := by
        rw [Machine.plainCovered, Machine.plain, if_pos hzero']
      obtain ⟨steps, hyields⟩ := Instr.exists_yields_of_next hinside input hready hplain rfl
      rw [if_pos hzero]
      exact ⟨_, hyields, rfl, rfl, rfl, fun hfault => by cases hfault⟩
    · have hzero' : m.cell ≠ 0 := hzero
      rw [if_neg hzero]
      by_cases hlt : index < n
      · have hlt' : m.place < (n : Int).toNat := hlt
        have hplain : m.plainCovered (.carryLeft n) = .fault m := by
          rw [Machine.plainCovered, Machine.plain, if_neg hzero', if_pos hlt']
        obtain ⟨steps, hyields⟩ := Instr.exists_yields_of_fault hinside input hready hplain
        rw [if_pos hlt]
        exact ⟨_, hyields, rfl, rfl, rfl, fun _ => ⟨rfl, rfl⟩⟩
      · have hlt' : ¬ m.place < (n : Int).toNat := hlt
        have hplain : m.plainCovered (.carryLeft n) = .next (m.carryTo (index - n)).advance := by
          rw [Machine.plainCovered, Machine.plain, if_neg hzero', if_neg hlt']
          rfl
        obtain ⟨steps, hyields⟩ := Instr.exists_yields_of_next hinside input hready hplain rfl
        rw [if_neg hlt]
        exact ⟨_, hyields, rfl, rfl, rfl, fun hfault => by cases hfault⟩

end Routine

/-! ## Calls one after another -/

/-- **Routines do what instructions do.**  Start with a block of any length and an index in it, and
carry out any calls one after another, where no scan has step zero, no call gets to an index past
`2 ^ 63`, and memory that is asked for is given, with anything in it.  Then every call returns, and
the block and the index after it are the tape and the index that are left by the execution of the one
node that the call is for, on what was there before the call.  A routine that answers says whether
that execution faults, and if so nothing has changed; the others are for nodes that do not fault.  A
node has no flat code if its amount is no word with a sign; its instruction still does the same. -/
theorem Buffer.calls_refine_instructions (b : Buffer) (hinside : b.index < b.count)
    (calls : List Call) (hscan : ∀ c ∈ calls, c.routine.scans = true → c.amount ≠ 0)
    (hreach : ∀ done c rest before, calls = done ++ c :: rest → b.performAll done = some before →
      ∀ i, c.Reaches before.head i → i + 1 ≤ 2 ^ 63) (input : List UInt8) :
    ∀ done c rest, calls = done ++ c :: rest →
      ∃ before answer after result,
        b.performAll done = some before ∧ before.perform c = some (answer, after) ∧
        b.performAll (done ++ [c]) = some after ∧
        Program.flatten [c.routine.node c.amount.toNat] =
          (if c.amount.toNat < 2 ^ 63 then .ok (c.routine.instr c.amount.toNat).alone
            else .error .wideArgument) ∧
        (c.routine.instr c.amount.toNat).alone.Yields before.tape before.index.toNat input result ∧
        after.count.toNat = result.tape.size ∧ (after.index.toNat : Int) = result.index ∧
        after.tape = result.tape ∧
        answer = (if c.routine.answers then some result.faulted else none) ∧
        (result.faulted = true → c.routine.answers = true ∧ after = before) := by
  rw [UInt64.lt_iff_toNat_lt] at hinside
  intro done c rest hcalls
  subst hcalls
  induction done generalizing b with
  | nil =>
    obtain ⟨after, hafter, hhead⟩ := b.exists_perform c hinside
      (hscan c List.mem_cons_self) (hreach [] c rest b rfl rfl)
    have hplace : b.head.index < b.head.tape.size := b.size_tape.symm ▸ hinside
    obtain ⟨result, hyields, hresult, hplaced, hanswer, hfault⟩ :=
      Routine.exists_yields hplace c.amount.toNat c.routine input (Routine.ready_start hplace c
        (hscan c List.mem_cons_self) (hreach [] c rest b rfl rfl) input)
    have htape : after.tape = result.tape := (congrArg Head.tape hhead).trans hresult.symm
    have hindex : (after.index.toNat : Int) = result.index :=
      (congrArg (Nat.cast ∘ Head.index) hhead).trans hplaced.symm
    refine ⟨b, _, after, result, rfl, hafter, ?_, Routine.flatten_node .., hyields, ?_, hindex, htape,
      hanswer, fun h => ⟨(hfault h).1, head_inj (hhead.trans (hfault h).2)⟩⟩
    · rw [List.nil_append, performAll, hafter]
      rfl
    · rw [← htape, size_tape]
  | cons c₀ done ih =>
    obtain ⟨mid, hmid, hhead⟩ := b.exists_perform c₀ hinside (hscan c₀ List.mem_cons_self)
      (hreach [] c₀ (done ++ c :: rest) b rfl rfl)
    have hnext (calls : List Call) : b.performAll (c₀ :: calls) = mid.performAll calls := by
      rw [performAll, hmid]
      rfl
    have hinside' : mid.index.toNat < mid.count.toNat := by
      have hact := Routine.index_act_lt (h := b.head) (b.size_tape.symm ▸ hinside) c₀.amount.toNat
        c₀.routine
      rw [← hhead] at hact
      exact mid.size_tape ▸ hact
    rw [List.cons_append, hnext, hnext]
    refine ih mid hinside' (fun c hc => hscan c (List.mem_cons_of_mem _ hc)) ?_
    intro done' c' rest' before hsplit hbefore
    exact hreach (c₀ :: done') c' rest' before (congrArg (c₀ :: ·) hsplit) ((hnext done').trans hbefore)

/-- Three cells, of which none is zero.  A scan to the left fails and changes nothing; the move to the
right that follows makes eight cells of them, and clears what it was given. -/
theorem Buffer.calls_refine_instructions_failing :
    ∃ after result,
      (⟨3, #v[1, 2, 3], 1⟩ : Buffer).performAll
        [⟨.scanLeft, 2, fun _ => 9⟩, ⟨.moveRight, 4, fun _ => 9⟩] = some after ∧
      Program.flatten [.moveRight 4] = .ok (Instr.right 4).alone ∧
      (Instr.right 4).alone.Yields ⟨#[1, 2, 3]⟩ 1 [] result ∧ after.tape = result.tape ∧
      (after.index.toNat : Int) = result.index := by
  let b : Buffer := ⟨3, #v[1, 2, 3], 1⟩
  let fails : Call := ⟨.scanLeft, 2, fun _ => 9⟩
  let moves : Call := ⟨.moveRight, 4, fun _ => 9⟩
  have hfails : b.performAll [fails] = some b := by
    rw [performAll, perform, scanLeft, seekLeft_eq]
    rfl
  have hreach : ∀ done c rest before, [fails, moves] = done ++ c :: rest →
      b.performAll done = some before → ∀ i, c.Reaches before.head i → i + 1 ≤ 2 ^ 63 := by
    intro done c rest before hsplit hbefore i hi
    rcases done with _ | ⟨d, _ | ⟨e, done⟩⟩
    · obtain ⟨rfl, -⟩ := List.cons.inj hsplit
      obtain rfl := Option.some.inj hbefore
      obtain rfl : i = 1 := hi
      decide
    · obtain ⟨rfl, htail⟩ := List.cons.inj hsplit
      obtain ⟨rfl, -⟩ := List.cons.inj htail
      obtain rfl := Option.some.inj (hfails.symm.trans hbefore)
      obtain rfl | rfl : i = 1 ∨ i = 1 + 4 := hi
      all_goals decide
    · simp at hsplit
  obtain ⟨before, answer, after, result, hbefore, -, hafter, hflat, hyields, -, hindex, htape, -, -⟩ :=
    Buffer.calls_refine_instructions b (by decide) [fails, moves]
      (fun c hc _ => by
        rcases List.mem_cons.mp hc with rfl | hc
        · decide
        · obtain rfl := List.mem_singleton.mp hc
          decide)
      hreach [] [fails] moves [] rfl
  obtain rfl := Option.some.inj (hfails.symm.trans hbefore)
  exact ⟨after, result, hafter, hflat, hyields, htape, hindex⟩

end Brainfuck
