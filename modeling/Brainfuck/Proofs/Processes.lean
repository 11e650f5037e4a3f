import Mathlib.Data.List.Nodup
import Brainfuck.IR.Process
import Brainfuck.Proofs.Realization

/-!
# Processes step by step

A module is run block by block, with the number of blocks bounded.  Here the same is done line by
line and without a bound: a point is a place in a block together with the process, and `Point.step`
runs the next line.  The exits of a module are the ends of the steps from its entry.

Blocks are found by their labels.  A label leads to its block if no two blocks share one.

* `Point`, `Point.step`: places in a module, and one line.
* `exists_run_iff_ends`: the exits of a module.
* `getElem?_blockTable`: the block of a label.
-/

namespace Brainfuck.IR

/-- The lines of each block, by label. -/
def blockTable (blocks : Array Block) : Std.HashMap Name (List Line) :=
  blocks.foldl (fun t b => t.insert b.label b.lines.toList) ∅

/-- A place in a module: the block and the one that it was entered from, the lines that are left of
it, and the process. -/
structure Point where
  from? : Option Name
  label : Name
  lines : List Line
  process : Process

namespace Point

/-- Runs one line. -/
def step (blocks : Array Block) (x : Point) : Advance Point Exit :=
  match x.lines with
  | [] => .stuck
  | l :: rest =>
    match x.process.execute x.from? l with
    | some (.line s) => .next ⟨x.from?, x.label, rest, s⟩
    | some (.block label s) =>
      match (blockTable blocks)[label]? with
      | some lines => .next ⟨some x.label, label, lines, s⟩
      | none => .stuck
    | some (.exit status s) => .final ⟨status, s.stdout, s.stderr⟩
    | none => .stuck

/-- Runs the block to its end, and then at most a given number of blocks. -/
def finish? (blocks : Array Block) (fuel : Nat) (x : Point) : Option Exit :=
  match Process.runLines x.from? x.lines x.process with
  | some (.block next s) => Process.runBlocks (blockTable blocks) fuel (some x.label) next s
  | some (.exit status s) => some ⟨status, s.stdout, s.stderr⟩
  | _ => none

variable {blocks : Array Block} {x y : Point} {r : Exit}

/-- Entering a block uses up one of the blocks that may be run. -/
theorem runBlocks_succ {from? : Option Name} {label : Name} {lines : List Line} {s : Process}
    (h : (blockTable blocks)[label]? = some lines) (fuel : Nat) :
    Process.runBlocks (blockTable blocks) (fuel + 1) from? label s =
      finish? blocks fuel ⟨from?, label, lines, s⟩ := by
  rw [Process.runBlocks, h]
  rfl

/-- What a step does to the run of a block. -/
theorem finish?_cases (blocks : Array Block) (x : Point) :
    (∃ y, x.step blocks = .next y ∧
      ((y.lines.length < x.lines.length ∧ ∀ fuel, finish? blocks fuel x = finish? blocks fuel y) ∨
        (finish? blocks 0 x = none ∧
          ∀ fuel, finish? blocks (fuel + 1) x = finish? blocks fuel y))) ∨
    (∃ r, x.step blocks = .final r ∧ ∀ fuel, finish? blocks fuel x = some r) ∨
    (x.step blocks = .stuck ∧ ∀ fuel, finish? blocks fuel x = none) := by
  obtain ⟨from?, label, lines, s⟩ := x
  cases lines with
  | nil => exact Or.inr (Or.inr ⟨rfl, fun _ => rfl⟩)
  | cons l rest =>
    simp only [step, finish?, Process.runLines]
    cases s.execute from? l with
    | none => exact Or.inr (Or.inr ⟨rfl, fun _ => rfl⟩)
    | some next =>
      cases next with
      | line s => exact Or.inl ⟨_, rfl, Or.inl ⟨Nat.lt_succ_self _, fun _ => rfl⟩⟩
      | exit status s => exact Or.inr (Or.inl ⟨_, rfl, fun _ => rfl⟩)
      | block label s =>
        cases hlines : (blockTable blocks)[label]? with
        | none =>
          refine Or.inr (Or.inr ⟨by simp only [hlines], fun fuel => ?_⟩)
          cases fuel with
          | zero => rfl
          | succ fuel => simp only [Process.runBlocks, hlines]
        | some lines =>
          exact Or.inl ⟨_, by simp only [hlines],
            Or.inr ⟨rfl, fun fuel => runBlocks_succ hlines fuel⟩⟩

/-- The exits of a bounded run are the ends of steps. -/
theorem exists_finish?_iff_ends :
    (∃ fuel, finish? blocks fuel x = some r) ↔ Ends (step blocks) x r := by
  constructor
  · rintro ⟨fuel, h⟩
    -- a step uses up a line, or a block and with it one of the blocks that may be run
    generalize hlength : x.lines.length = length
    induction fuel generalizing x length with
    | zero =>
      induction length using Nat.strongRecOn generalizing x with
      | ind length ih =>
        rcases finish?_cases blocks x with ⟨y, hy, hline | hblock⟩ | ⟨r', hr', hfin⟩ | ⟨_, hnone⟩
        · obtain ⟨hlt, hsame⟩ := hline
          exact .of_runs (.one hy) (ih _ (hlength ▸ hlt) ((hsame 0).symm.trans h) rfl)
        · exact absurd (hblock.1.symm.trans h) (by simp)
        · obtain rfl := Option.some.inj ((hfin 0).symm.trans h)
          exact ⟨0, x, .zero x, hr'⟩
        · exact absurd ((hnone 0).symm.trans h) (by simp)
    | succ fuel ihfuel =>
      induction length using Nat.strongRecOn generalizing x with
      | ind length ih =>
        rcases finish?_cases blocks x with ⟨y, hy, hline | hblock⟩ | ⟨r', hr', hfin⟩ | ⟨_, hnone⟩
        · obtain ⟨hlt, hsame⟩ := hline
          exact .of_runs (.one hy) (ih _ (hlength ▸ hlt) ((hsame _).symm.trans h) rfl)
        · exact .of_runs (.one hy) (ihfuel ((hblock.2 fuel).symm.trans h) _ rfl)
        · obtain rfl := Option.some.inj ((hfin _).symm.trans h)
          exact ⟨0, x, .zero x, hr'⟩
        · exact absurd ((hnone _).symm.trans h) (by simp)
  · rintro ⟨n, y, hy, hr⟩
    induction hy with
    | zero x =>
      rcases finish?_cases blocks x with ⟨y, hy, _⟩ | ⟨r', hr', hfin⟩ | ⟨hstuck, _⟩
      · exact absurd (hr.symm.trans hy) (by simp)
      · obtain rfl := Advance.final.inj (hr.symm.trans hr')
        exact ⟨0, hfin 0⟩
      · exact absurd (hr.symm.trans hstuck) (by simp)
    | @succ _ x _ _ first _ ih =>
      obtain ⟨fuel, hfuel⟩ := ih hr
      rcases finish?_cases blocks x with ⟨y, hy, hline | hblock⟩ | ⟨r', hr', _⟩ | ⟨hstuck, _⟩
      · obtain rfl := Advance.next.inj (first.symm.trans hy)
        exact ⟨fuel, (hline.2 fuel).trans hfuel⟩
      · obtain rfl := Advance.next.inj (first.symm.trans hy)
        exact ⟨fuel + 1, (hblock.2 fuel).trans hfuel⟩
      · exact absurd (first.symm.trans hr') (by simp)
      · exact absurd (first.symm.trans hstuck) (by simp)

end Point

/-! ## Blocks by label -/

theorem getElem?_foldl_of_not_mem {bs : List Block} {label : Name} (h : label ∉ bs.map Block.label)
    (t : Std.HashMap Name (List Line)) :
    (bs.foldl (fun t b => t.insert b.label b.lines.toList) t)[label]? = t[label]? := by
  induction bs generalizing t with
  | nil => rfl
  | cons a bs ih =>
    rw [List.map_cons, List.mem_cons, not_or] at h
    rw [List.foldl_cons, ih h.2, Std.HashMap.getElem?_insert, if_neg]
    simpa using Ne.symm h.1

/-- If no two blocks share a label, a block is known by its label. -/
theorem eq_of_label_eq {blocks : Array Block} (hnodup : (blocks.toList.map Block.label).Nodup)
    {block other : Block} (h : block ∈ blocks) (h' : other ∈ blocks)
    (hlabel : block.label = other.label) : block = other :=
  List.inj_on_of_nodup_map hnodup (Array.mem_toList_iff.mpr h) (Array.mem_toList_iff.mpr h') hlabel

/-- If no two blocks share a label, a label leads to its block. -/
theorem getElem?_blockTable {blocks : Array Block} (hnodup : (blocks.toList.map Block.label).Nodup)
    {block : Block} (h : block ∈ blocks) :
    (blockTable blocks)[block.label]? = some block.lines.toList := by
  have hmem : block ∈ blocks.toList := Array.mem_toList_iff.mpr h
  rw [blockTable, ← Array.foldl_toList]
  generalize (∅ : Std.HashMap Name (List Line)) = t
  generalize blocks.toList = bs at hnodup hmem
  induction bs generalizing t with
  | nil => cases hmem
  | cons a bs ih =>
    obtain ⟨hfirst, hrest⟩ := List.nodup_cons.mp hnodup
    rw [List.foldl_cons]
    rcases List.mem_cons.mp hmem with rfl | hmem
    · rw [getElem?_foldl_of_not_mem hfirst, Std.HashMap.getElem?_insert_self]
    · exact ih _ hrest hmem

/-! ## Modules -/

/-- The exits of a module are the ends of the steps from its entry. -/
theorem exists_run_iff_ends {m : Module} {system : System} {input : List UInt8} {lines : List Line}
    {r : Exit} (h : (blockTable m.blocks)[(⟨.entry, 0⟩ : Name)]? = some lines) :
    (∃ fuel, m.run system fuel input = some r) ↔
      Ends (Point.step m.blocks) ⟨none, ⟨.entry, 0⟩, lines, .start system input⟩ r := by
  rw [← Point.exists_finish?_iff_ends]
  constructor
  · rintro ⟨fuel, hfuel⟩
    cases fuel with
    | zero => cases hfuel
    | succ fuel => exact ⟨fuel, (Point.runBlocks_succ h fuel).symm.trans hfuel⟩
  · rintro ⟨fuel, hfuel⟩
    exact ⟨fuel + 1, (Point.runBlocks_succ h fuel).trans hfuel⟩

end Brainfuck.IR
