import Mathlib.Data.List.Nodup
import Mathlib.Data.List.Pairwise
import Mathlib.Data.Set.Basic
import Std.Data.String.ToNat
import Brainfuck.IR.Function

/-!
# Single assignment

What makes a list of blocks a function in single-assignment form.  Every name is given away once;
every block ends in one operation that leaves it and has no other; such an operation goes to blocks of
the function; and a value is there when it is used: its line stands before, in the same block, or in
another block that every way from the beginning passes.

The last one speaks about all ways through the blocks, of which there are infinitely many as soon as
there is a loop.  It is enough to know for each block which values may be relied on where it begins,
and to check this against the operations that lead there (`dominates_of_scope`).  That the checks are
about single operations is what makes them fit for a construction that adds one line at a time.

* `Op.uses`, `Op.targets`: the values that an operation needs, and the blocks that it may go to.
* `Walk`, `Dominates`: ways through the blocks, and blocks that are on all of them.
* `SingleAssignment`: functions in single-assignment form.
* `Name.text_injective`: names that differ are written differently.
-/

namespace Brainfuck.IR

/-! ## Operations -/

/-- The name of the value that an operand is. -/
def Operand.name? : Operand → Option Name
  | reg n => some n
  | int _ | null | stream _ => none

namespace Op

/-- The operands of an operation. -/
def operands : Op → List Operand
  | alloca _ | errorText | phi _ | br _ => []
  | load _ address => [address]
  | store _ value address => [value, address]
  | byteAt base index => [base, index]
  | arith _ _ left right | compare _ _ left right => [left, right]
  | zext value => [value]
  | call _ arguments => arguments
  | branch condition _ _ => [condition]
  | ret value => [value]

/-- The names of the values that an operation needs. -/
def uses (op : Op) : List Name := op.operands.filterMap Operand.name?

/-- The labels of the blocks that an operation may go to. -/
def targets : Op → List Name
  | br target => [target]
  | branch _ yes no => [yes, no]
  | _ => []

/-- Only an operation that leaves its block goes anywhere. -/
theorem targets_eq_nil {op : Op} (h : op.isTerminator = false) : op.targets = [] := by
  cases op with
  | br | branch => cases h
  | _ => rfl

end Op

/-! ## Blocks -/

/-- The names of the lines that have a value. -/
def values (lines : List Line) : List Name :=
  (lines.filter fun l => l.op.ty != .void).map Line.name

theorem values_append (lines lines' : List Line) :
    values (lines ++ lines') = values lines ++ values lines' := by
  rw [values, List.filter_append, List.map_append]
  rfl

namespace Block

/-- The label of a block and the names of its lines. -/
def names (b : Block) : List Name := b.label :: b.lines.toList.map Line.name

/-- The labels of the blocks that may come next. -/
def targets (b : Block) : List Name := b.lines.toList.flatMap fun l => l.op.targets

/-- A block that ends in an operation that leaves it, and has no other. -/
def Terminated (b : Block) : Prop :=
  ∃ lines last, b.lines.toList = lines ++ [last] ∧ last.op.isTerminator = true ∧
    ∀ l ∈ lines, l.op.isTerminator = false

theorem mem_names_of_mem_values {b : Block} {n : Name} (h : n ∈ values b.lines.toList) :
    n ∈ b.names := by
  obtain ⟨l, hl, rfl⟩ := List.mem_map.mp h
  exact List.mem_cons_of_mem _ (List.mem_map_of_mem (List.mem_of_mem_filter hl))

end Block

/-- A name that only one block has. -/
theorem eq_of_mem_names {F : List Block} (hF : (F.flatMap Block.names).Nodup) {b b' : Block}
    (hb : b ∈ F) (hb' : b' ∈ F) {n : Name} (hn : n ∈ b.names) (hn' : n ∈ b'.names) : b = b' := by
  by_contra hne
  have : Std.Symm (Function.onFun List.Disjoint Block.names) := ⟨fun _ _ h _ ha hb => h hb ha⟩
  exact (List.nodup_flatMap.mp hF).2.forall hb hb' hne hn hn'

/-! ## Ways through the blocks -/

/-- A way from the first block to a block with a label, and the labels that it has come by. -/
inductive Walk (F : Array Block) : List Name → Name → Prop where
  | start {b : Block} (h : F[0]? = some b) : Walk F [b.label] b.label
  | step {seen : List Name} {b : Block} {target : Name} (h : Walk F seen b.label) (hb : b ∈ F)
      (htarget : target ∈ b.targets) : Walk F (target :: seen) target

/-- Every way to the second block passes the first. -/
def Dominates (F : Array Block) (l l' : Name) : Prop := ∀ seen, Walk F seen l' → l ∈ seen

theorem Walk.mem {F : Array Block} {seen : List Name} {l : Name} (h : Walk F seen l) : l ∈ seen := by
  cases h with
  | start | step => exact List.mem_cons_self

/-- Blocks in single-assignment form. -/
structure SingleAssignment (F : Array Block) : Prop where
  /-- No two labels and values are written in the same way. -/
  names : ((F.toList.flatMap Block.names).map Name.text).Nodup
  terminated : ∀ b ∈ F, b.Terminated
  targets : ∀ b ∈ F, ∀ target ∈ b.targets, ∃ b' ∈ F, b'.label = target
  /-- Every value that is used stands before, or in another block that is always passed. -/
  defined : ∀ b ∈ F, ∀ before line after, b.lines.toList = before ++ line :: after →
    ∀ n ∈ line.op.uses, n ∈ values before ∨
      ∃ b' ∈ F, b' ≠ b ∧ n ∈ values b'.lines.toList ∧ Dominates F b'.label b.label

/-- What may be relied on where a block begins has been computed on every way there. -/
theorem dominates_of_scope {F : Array Block} {scope : Name → Set Name}
    (hnames : (F.toList.flatMap Block.names).Nodup)
    (hstart : ∀ b, F[0]? = some b → scope b.label = ∅)
    (hstep : ∀ b ∈ F, ∀ target ∈ b.targets, ∀ n ∈ scope target,
      n ∈ scope b.label ∨ n ∈ values b.lines.toList)
    {b : Block} (hb : b ∈ F) {n l : Name} (hn : n ∈ values b.lines.toList) (hl : n ∈ scope l) :
    Dominates F b.label l := by
  intro seen hwalk
  induction hwalk with
  | start h =>
    rw [hstart _ h] at hl
    exact absurd hl (Set.notMem_empty n)
  | @step seen b' target hwalk hb' htarget ih =>
    rcases hstep b' hb' target htarget n hl with hn' | hn'
    · exact List.mem_cons_of_mem _ (ih hn')
    · obtain rfl : b = b' := eq_of_mem_names hnames (Array.mem_toList_iff.mpr hb)
        (Array.mem_toList_iff.mpr hb') (Block.mem_names_of_mem_values hn)
        (Block.mem_names_of_mem_values hn')
      exact List.mem_cons_of_mem _ hwalk.mem

/-! ## Texts of names -/

/-- All stems. -/
def Stem.all : List Stem :=
  [.cells, .cellsLength, .currentCell, .inputBuffer, .initialCells, .load, .currentCellPtr,
    .incrementedCurrentCell, .decrementedCurrentCell, .multiplier, .multipliedAmount,
    .extendedCurrentCellValue, .stdout, .stderr, .errorString, .returnValue, .returnWithError,
    .continueLoop, .hasMultiplier, .entry, .error, .moveLeft, .loop, .thenBlock, .merge,
    .continueBlock, .multiply, .multiplyDone, .returnBlock, .unused]

theorem Stem.mem_all (s : Stem) : s ∈ Stem.all := by
  cases s <;> decide

/-- Stems that differ have different words. -/
theorem Stem.text_injective : Function.Injective Stem.text := by
  have hnodup : (Stem.all.map Stem.text).Nodup := by decide
  intro s t h
  exact List.inj_on_of_nodup_map hnodup s.mem_all t.mem_all h

/-- No stem has the character that stands in front of the number. -/
theorem Stem.dot_notMem_text (s : Stem) : '.' ∉ s.text.toList := by
  have hall : ∀ s ∈ Stem.all, '.' ∉ s.text.toList := by decide
  exact hall s s.mem_all

/-- What stands behind the stem of a name. -/
def Name.number (n : Name) : List Char := if n.copy = 0 then [] else '.' :: (toString n.copy).toList

theorem Name.toList_text (n : Name) : n.text.toList = n.stem.text.toList ++ n.number := by
  unfold Name.text Name.number
  split
  case isTrue => rw [List.append_nil]
  case isFalse => simp

/-- Up to the first dot a name is its stem. -/
theorem Name.takeWhile_text (n : Name) :
    n.text.toList.takeWhile (· != '.') = n.stem.text.toList := by
  have hstem : ∀ c ∈ n.stem.text.toList, (c != '.') = true := by
    intro c hc
    rw [bne_iff_ne]
    rintro rfl
    exact n.stem.dot_notMem_text hc
  rw [n.toList_text, List.takeWhile_append_of_pos hstem]
  have hnumber : n.number.takeWhile (· != '.') = [] := by
    unfold Name.number
    split <;> rfl
  rw [hnumber, List.append_nil]

theorem Name.text_injective : Function.Injective Name.text := by
  intro n m h
  have hstem : n.stem = m.stem := by
    apply Stem.text_injective
    apply String.ext
    rw [← n.takeWhile_text, ← m.takeWhile_text, h]
  have hnumber : n.number = m.number := by
    have htext := congrArg String.toList h
    rw [n.toList_text, m.toList_text, hstem] at htext
    exact List.append_cancel_left htext
  have hcopy : n.copy = m.copy := by
    unfold Name.number at hnumber
    split at hnumber <;> split at hnumber
    · omega
    · cases hnumber
    · cases hnumber
    · exact Nat.repr_inj.mp (String.ext (List.cons.inj hnumber).2)
  cases n
  cases m
  cases hstem
  cases hcopy
  rfl

end Brainfuck.IR
