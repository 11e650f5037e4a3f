/-!
# Tapes

A tape is a row of byte cells that begins on the left and grows to the right.  A cell that is not
there yet reads as zero, so growing a tape changes its length and none of its readings.  Growth
always goes to the least power of two that covers the index asked for.

An index in a register is a signed word.  It may name no cell of the tape at all, and a negative one
counts from the end.

Scanning looks for a zero cell in steps.  To the right there always is one, since cells past the
end are zero; to the left the scan may run out of the tape.

* `Tape.get`, `Tape.set`, `Tape.grow`: reading, writing, growing; what is read after a write is
  `get_set`, and growing leaves all readings as they are, `get_grow`.
* `Tape.wrap`, `Tape.place?`: indices in registers and the cells that they name.
* `Tape.scanRight`, `Tape.scanLeft?`: where a scan ends.
-/

namespace Brainfuck

/-- A row of cells. -/
structure Tape where
  cells : Array UInt8
deriving DecidableEq, Repr

namespace Tape

/-- A tape of zero cells. -/
def blank (size : Nat) : Tape := ⟨Array.replicate size 0⟩

/-- The tape on which a program starts unless it is given another: 256 zero cells. -/
def initial : Tape := blank 256

/-- The number of cells. -/
def size (t : Tape) : Nat := t.cells.size

/-- The cell at an index; zero past the end. -/
def get (t : Tape) (i : Nat) : UInt8 := t.cells.getD i 0

/-- Writes a cell; nothing happens past the end. -/
def set (t : Tape) (i : Nat) (v : UInt8) : Tape := ⟨t.cells.setIfInBounds i v⟩

@[simp] theorem size_set (t : Tape) (i : Nat) (v : UInt8) : (t.set i v).size = t.size := by
  simp [set, size]

/-- Past the end every cell is zero. -/
theorem get_eq_zero_of_size_le {t : Tape} {i : Nat} (h : t.size ≤ i) : t.get i = 0 := by
  rw [get, Array.getD_eq_getD_getElem?, Array.getElem?_eq_none h]
  rfl

/-- Writing changes the cell written, if it is there, and no other. -/
theorem get_set (t : Tape) (i j : Nat) (v : UInt8) :
    (t.set i v).get j = if i = j ∧ i < t.size then v else t.get j := by
  simp only [get, set, size, Array.getD_eq_getD_getElem?, Array.getElem?_setIfInBounds]
  by_cases hij : i = j
  · subst hij
    by_cases hi : i < t.cells.size
    · simp [hi]
    · simp [hi]
  · simp [hij]

/-- Every cell of the tape on which a program starts is zero. -/
theorem get_initial (i : Nat) : initial.get i = 0 := by
  rw [get, initial, blank, Array.getD_eq_getD_getElem?, Array.getElem?_replicate]
  split <;> rfl

/-- A cell that is not zero is on the tape. -/
theorem lt_size_of_get_ne_zero {t : Tape} {i : Nat} (h : t.get i ≠ 0) : i < t.size := by
  rcases Nat.lt_or_ge i t.size with hi | hi
  · exact hi
  · exact absurd (get_eq_zero_of_size_le hi) h

/-! ## Growth -/

/-- The least power of two greater than an index. -/
def sizeFor (index : Nat) : Nat :=
  if index = 0 then 1 else Nat.pow 2 (index.log2 + 1)

/-- The size for an index covers the index. -/
theorem lt_sizeFor (index : Nat) : index < sizeFor index := by
  rw [sizeFor]
  split
  case isTrue h => omega
  case isFalse => exact Nat.lt_log2_self

/-- The tape followed by zero cells. -/
def pad (t : Tape) (n : Nat) : Tape := ⟨t.cells ++ Array.replicate n 0⟩

/-- Cells that are zero may as well not be there. -/
@[simp] theorem get_pad (t : Tape) (n i : Nat) : (t.pad n).get i = t.get i := by
  simp only [get, pad, Array.getD_eq_getD_getElem?, Array.getElem?_append,
    Array.getElem?_replicate]
  by_cases hi : i < t.cells.size
  · simp [hi]
  · rw [if_neg hi, Array.getElem?_eq_none (Nat.le_of_not_lt hi)]
    split <;> rfl

/-- Adds zero cells until the tape has the size for an index. -/
def grow (t : Tape) (index : Nat) : Tape :=
  ⟨t.cells ++ Array.replicate (sizeFor index - t.size) 0⟩

theorem size_grow (t : Tape) (index : Nat) : (t.grow index).size = max t.size (sizeFor index) := by
  simp only [grow, size, Array.size_append, Array.size_replicate]
  omega

theorem size_le_grow (t : Tape) (index : Nat) : t.size ≤ (t.grow index).size := by
  rw [size_grow]
  exact Nat.le_max_left _ _

theorem lt_size_grow (t : Tape) (index : Nat) : index < (t.grow index).size := by
  rw [size_grow]
  exact Nat.lt_of_lt_of_le (lt_sizeFor index) (Nat.le_max_right _ _)

/-- Growing changes no reading. -/
@[simp] theorem get_grow (t : Tape) (index i : Nat) : (t.grow index).get i = t.get i :=
  get_pad t (sizeFor index - t.size) i

/-- A tape that covers an index: itself if it does already. -/
def cover (t : Tape) (index : Nat) : Tape :=
  if index < t.size then t else t.grow index

theorem lt_size_cover (t : Tape) (index : Nat) : index < (t.cover index).size := by
  rw [cover]
  split
  case isTrue h => exact h
  case isFalse => exact t.lt_size_grow index

theorem size_le_cover (t : Tape) (index : Nat) : t.size ≤ (t.cover index).size := by
  rw [cover]
  split
  case isTrue => exact Nat.le_refl _
  case isFalse => exact t.size_le_grow index

@[simp] theorem get_cover (t : Tape) (index i : Nat) : (t.cover index).get i = t.get i := by
  rw [cover]
  split
  case isTrue => rfl
  case isFalse => exact get_grow t index i

/-! ## Indices in registers -/

/-- An index that has been computed, as a register holds it: a signed word of 64 bits, so that one
that is too great comes out negative.  Memory has no limit here.  On a tape of more than `2 ^ 62`
cells, which is more than any computer holds, registers are as wide as they have to be. -/
def wrap (t : Tape) (i : Int) : Int :=
  if t.size ≤ 0x4000000000000000 then (Int64.ofInt i).toInt else i

/-- What a register holds differs from what was computed by a multiple of the number of words, and by
nothing if the tape is too long. -/
theorem wrap_cases (t : Tape) (i : Int) :
    t.size ≤ 0x4000000000000000 ∧ -0x8000000000000000 ≤ t.wrap i ∧ t.wrap i < 0x8000000000000000 ∧
        (∃ k, t.wrap i = i + 0x10000000000000000 * k) ∨
      0x4000000000000000 < t.size ∧ t.wrap i = i := by
  rw [wrap]
  split
  case isTrue hsize =>
    rw [Int64.toInt_ofInt]
    refine Or.inl ⟨hsize, Int.le_bmod (by decide), Int.bmod_lt (by decide), -(i.bdiv Int64.size), ?_⟩
    have hdiv := Int.bmod_add_bdiv i Int64.size
    simp only [Int64.size] at hdiv ⊢
    omega
  case isFalse hsize => exact Or.inr ⟨Nat.lt_of_not_le hsize, rfl⟩

/-- The cell that an index names; a negative index counts from the end. -/
def place? (t : Tape) (i : Int) : Option Nat :=
  if 0 ≤ i then if i < t.size then some i.toNat else none
  else if 0 ≤ t.size + i then some (t.size + i).toNat
  else none

theorem place?_eq_some {t : Tape} {i : Int} {place : Nat} (h : t.place? i = some place) :
    -t.size ≤ i ∧ i < t.size := by
  rw [place?] at h
  split at h
  case isTrue =>
    split at h
    · omega
    · cases h
  case isFalse =>
    split at h
    · omega
    · cases h

/-- The cell that an index names, if it names one. -/
def read? (t : Tape) (i : Int) : Option UInt8 := (t.place? i).map t.get

/-! ## Scans -/

/-- Where a scan to the right from an index ends: at the first zero cell, which may lie past the
end.  A scan without a step goes nowhere. -/
def scanRight (t : Tape) (step i : Nat) : Nat :=
  if t.get i = 0 ∨ step = 0 then i else t.scanRight step (i + step)
termination_by t.size - i
decreasing_by
  rename_i h
  have hi : i < t.size := lt_size_of_get_ne_zero fun h0 => h (Or.inl h0)
  have hs : step ≠ 0 := fun h0 => h (Or.inr h0)
  omega

/-- Where a scan to the left from an index ends: at the first zero cell; none if a step would
leave the tape. -/
def scanLeft? (t : Tape) (step i : Nat) : Option Nat :=
  if t.get i = 0 ∨ step = 0 then some i
  else if i < step then none
  else t.scanLeft? step (i - step)
termination_by i
decreasing_by
  rename_i h _
  have hs : step ≠ 0 := fun h0 => h (Or.inr h0)
  omega

/-! ## Contents -/

/-- The cells that are not zero, with their indices, from left to right. -/
def nonzero (t : Tape) : List (Nat × UInt8) :=
  t.cells.toList.zipIdx.filterMap fun (v, i) => if v = 0 then none else some (i, v)

/-- The first cells, with zeros past the end. -/
def firstCells (t : Tape) (n : Nat) : List UInt8 :=
  (List.range n).map t.get

/-- Why a list of numbers is no tape. -/
inductive CellError where
  /-- A number that is no byte. -/
  | outOfRange (value : Int)
  /-- A number that is not even one of 64 bits. -/
  | wide (value : Int)
deriving DecidableEq, Repr

/-- The byte of a number. -/
def cell? (value : Int) : Except CellError UInt8 :=
  if 0 ≤ value ∧ value < 256 then .ok (.ofInt value)
  else if Int64.minValue.toInt ≤ value ∧ value ≤ Int64.maxValue.toInt then
    .error (.outOfRange value)
  else .error (.wide value)

/-- The tape with the given numbers in its cells; the first number that is no byte is refused. -/
def ofList? (values : List Int) : Except CellError Tape := do
  return ⟨(← values.mapM cell?).toArray⟩

end Tape

end Brainfuck
