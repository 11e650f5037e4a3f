import Mathlib.Data.List.Nodup
import Brainfuck.Proofs.LoweredNodes

/-!
# The beginning and the end of a function

The function of a program is a lowered sequence between a beginning and an end that hardly depend on
the program.  The beginning is always the same nine lines, and `Builder.ready` is the construction
behind them; what they do is computed once.  The end is a jump to the block that returns, and the
lines of that block and of the one that reports a fault.

The last two blocks are created on both sides of the lowered sequence.  The error block is there before
anything is lowered, so that checks can name it, and the return block is created after everything.
Since lowering puts its blocks in front of the one that stands last, both come to stand behind all the
others, and the blocks of the function are those that were created, in another order.

* `function_eq`: the three parts of a function.
* `runs_prologue`: what the beginning does.
* `Builder.Closed`, `closed_of_close`: what the end is.
* `Builder.Closed.order_eq`, `Builder.function_perm`: how the blocks stand.
* `Closing.ends_of_at`: behind the lowered sequence the process ends with status zero.
-/

namespace Brainfuck.IR

open Build
open Point (At)

/-! ## The parts -/

/-- The lines that set up the state of a run. -/
def prologueLines : List Line :=
  [⟨⟨.cells, 0⟩, .alloca (.ptr .i8)⟩, ⟨⟨.cellsLength, 0⟩, .alloca .i64⟩,
    ⟨⟨.currentCell, 0⟩, .alloca .i64⟩, ⟨⟨.inputBuffer, 0⟩, .alloca (.ptr .i8)⟩,
    ⟨⟨.initialCells, 0⟩, .call .calloc [.int 256, .int 1]⟩,
    ⟨⟨.unused, 2⟩, .store (.ptr .i8) (.reg ⟨.initialCells, 0⟩) cellsSlot⟩,
    ⟨⟨.unused, 3⟩, .store .i64 (.int 256) lengthSlot⟩,
    ⟨⟨.unused, 4⟩, .store .i64 (.int 0) indexSlot⟩,
    ⟨⟨.unused, 5⟩, .store (.ptr .i8) .null inputSlot⟩]

/-- The construction when the state has been set up and nothing has been lowered. -/
def Builder.ready : Builder where
  names := ⟨[(.unused, 6), (.entry, 1), (.error, 1), (.cells, 1), (.cellsLength, 1),
    (.currentCell, 1), (.inputBuffer, 1), (.initialCells, 1)]⟩
  blocks := #[⟨⟨.entry, 0⟩, prologueLines.toArray⟩, ⟨errorLabel, #[]⟩]
  order := [0, 1]
  current := 0

/-- What is built behind the lowered sequence. -/
def Build.close : Build Unit := do
  let back ← appendBlock .returnBlock
  emitUnused (.br back.label)
  let last ← currentLabel
  enter ⟨errorLabel, 1⟩
  reportFault back.label
  enter back
  epilogue last

/-- A function is a lowered sequence between a fixed beginning and an end. -/
theorem function_eq (p : Program) :
    function p .empty = (Program.lower none p >>= fun _ => close) .ready := rfl

/-! ## The beginning -/

/-- What is known when the state has been set up: where the slots are. -/
def Frame.ready : Frame := fun n =>
  if n ∈ [⟨.cells, 0⟩, ⟨.cellsLength, 0⟩, ⟨.currentCell, 0⟩, ⟨.inputBuffer, 0⟩] then some (.slot n)
  else none

theorem Frame.hasSlots_ready : Frame.ready.HasSlots := ⟨rfl, rfl, rfl, rfl⟩

/-- The values with the given names; a later one takes the place of an earlier one. -/
def valuesOf (entries : List (Name × Value)) : Std.HashMap Name Value :=
  entries.foldl (fun values e => values.insert e.1 e.2) ∅

/-- The slots before anything has been put into them. -/
def noSlots : Std.HashMap Name Value :=
  (((Std.HashMap.erase ∅ ⟨.cells, 0⟩).erase ⟨.cellsLength, 0⟩).erase ⟨.currentCell, 0⟩).erase
    ⟨.inputBuffer, 0⟩

/-- The tape that a process begins with. -/
def Buffer.blank : Buffer := ⟨256, Vector.replicate _ 0, 0⟩

/-- The process behind the beginning of a function. -/
def Process.ready (system : System) (input : List UInt8) : Process where
  system := system
  registers := valuesOf [(⟨.cells, 0⟩, .slot ⟨.cells, 0⟩),
    (⟨.cellsLength, 0⟩, .slot ⟨.cellsLength, 0⟩), (⟨.currentCell, 0⟩, .slot ⟨.currentCell, 0⟩),
    (⟨.inputBuffer, 0⟩, .slot ⟨.inputBuffer, 0⟩), (⟨.initialCells, 0⟩, .address 0 0)]
  slots := (((noSlots.insert ⟨.cells, 0⟩ (.address 0 0)).insert ⟨.cellsLength, 0⟩
    (.word (.ofInt 256))).insert ⟨.currentCell, 0⟩ (.word (.ofInt 0))).insert ⟨.inputBuffer, 0⟩ .null
  heap := Heap.empty.alloc (Array.replicate 256 0)
  lineLength := 0
  lineCapacity := 0
  linePosition := 0
  rest := input
  stdout := #[]
  stderr := ""

theorem Process.knows_ready (system : System) (input : List UInt8) {n : Name} {v : Value}
    (h : Frame.ready n = some v) : (ready system input).registers[n]? = some v := by
  rw [Frame.ready] at h
  split at h
  case isFalse => cases h
  case isTrue hmem =>
    obtain rfl := Option.some.inj h
    simp only [List.mem_cons, List.not_mem_nil, or_false] at hmem
    rcases hmem with rfl | rfl | rfl | rfl <;>
      simp [ready, valuesOf, Std.HashMap.getElem_insert]

/-- The process holds a blank tape, and the input has not been touched. -/
theorem Process.holds_ready (system : System) (input : List UInt8) :
    (ready system input).Holds 0 none (.start Buffer.blank input) where
  cells := by
    simp only [ready]
    rw [getElem?_insert_of_stem_ne (by simp), getElem?_insert_of_stem_ne (by simp),
      getElem?_insert_of_stem_ne (by simp), Std.HashMap.getElem?_insert_self]
  block := rfl
  length := by
    simp only [ready]
    rw [getElem?_insert_of_stem_ne (by simp), getElem?_insert_of_stem_ne (by simp),
      Std.HashMap.getElem?_insert_self]
    rfl
  index := by
    simp only [ready]
    rw [getElem?_insert_of_stem_ne (by simp), Std.HashMap.getElem?_insert_self]
    rfl
  line := Std.HashMap.getElem?_insert_self
  live := nofun
  apart := nofun
  lines := rfl

/-- The process shows where a program begins. -/
theorem Process.shows_ready {system : System} {input : List UInt8}
    (hserves : system.fetch.Serves input) :
    (ready system input).Shows 0 (.start .initial 0 input) :=
  have hinside : Buffer.blank.index.toNat < Buffer.blank.count.toNat := by decide
  have hbound : Buffer.blank.index.toNat < 2 ^ 63 := by decide
  ⟨none, _, input, holds_ready system input,
    ⟨hinside, hbound, ⟨Nat.le_refl 0, List.suffix_refl input⟩⟩, hserves, rfl, rfl⟩

/-- What the beginning of a function does. -/
theorem runs_prologue (F : Array Block) (from? : Option Name) (label : Name) (rest : List Line)
    (system : System) (input : List UInt8) :
    Runs (Point.step F) 9 ⟨from?, label, prologueLines ++ rest, .start system input⟩
      ⟨from?, label, rest, .ready system input⟩ := by
  let state (slots : Std.HashMap Name Value) : Process :=
    { Process.ready system input with slots := slots }
  let allocated : Process := { Process.start system input with
    registers := valuesOf [(⟨.cells, 0⟩, .slot ⟨.cells, 0⟩),
      (⟨.cellsLength, 0⟩, .slot ⟨.cellsLength, 0⟩), (⟨.currentCell, 0⟩, .slot ⟨.currentCell, 0⟩),
      (⟨.inputBuffer, 0⟩, .slot ⟨.inputBuffer, 0⟩)]
    slots := noSlots }
  have halloca : Runs (Point.step F) 4 ⟨from?, label, prologueLines ++ rest, .start system input⟩
      ⟨from?, label, prologueLines.drop 4 ++ rest, allocated⟩ :=
    .succ (Point.step_line rfl) (.succ (Point.step_line rfl) (.succ (Point.step_line rfl)
      (.succ (Point.step_line rfl) (.zero _))))
  have hcalloc : allocated.execute from? ⟨⟨.initialCells, 0⟩, .call .calloc [.int 256, .int 1]⟩ =
      some (.line (state noSlots)) := by
    have hargs : allocated.arguments .calloc [.int 256, .int 1] =
        some [.word (.ofInt 256), .word (.ofInt 1)] := rfl
    have hcall : allocated.call .calloc [.word (.ofInt 256), .word (.ofInt 1)] =
        some (some (.address 0 0), { allocated with heap := Heap.empty.alloc (.replicate 256 0) }) :=
      rfl
    exact Process.execute_call hargs hcall
  have hstore : ∀ {slots ty value n v name}, Frame.ready n = some (.slot n) →
      (state slots).eval ty value = some v →
      (state slots).execute from? ⟨name, .store ty value (.reg n)⟩ =
        some (.line (state (slots.insert n v))) :=
    fun hn hv => Process.execute_store hv (Process.knows_ready system input hn) rfl
  have htape : (state noSlots).eval (.ptr .i8) (.reg ⟨.initialCells, 0⟩) = some (.address 0 0) :=
    Std.HashMap.getElem?_insert_self
  exact halloca.trans (.succ (Point.step_line hcalloc) (.succ (Point.step_line (hstore rfl htape))
    (.succ (Point.step_line (hstore rfl rfl)) (.succ (Point.step_line (hstore rfl rfl))
    (.one (Point.step_line (hstore rfl rfl)))))))

theorem Builder.taken_ready {n : Name} {v : Value} (h : Frame.ready n = some v) :
    Builder.ready.names.Taken n := by
  rw [Frame.ready] at h
  split at h
  case isFalse => cases h
  case isTrue hmem =>
    simp only [List.mem_cons, List.not_mem_nil, or_false] at hmem
    rcases hmem with rfl | rfl | rfl | rfl <;> decide

/-- Behind the beginning, in a module that contains it. -/
theorem at_ready {F : Array Block} (hlabels : (F.toList.map Block.label).Nodup) {full : Block}
    {rest : List Line} (hfull : full ∈ F) (hlabel : full.label = ⟨.entry, 0⟩)
    (hlines : prologueLines ++ rest = full.lines.toList) {system : System} {input : List UInt8}
    (hserves : system.fetch.Serves input) :
    At F .ready .ready 0 (.start .initial 0 input)
      ⟨none, ⟨.entry, 0⟩, rest, .ready system input⟩ where
  stands := ⟨_, full, rfl, hfull, fun other hother hsame =>
    eq_of_label_eq hlabels hother hfull (hsame.trans hlabel.symm), hlabel, rfl, by rw [← hlines]; rfl⟩
  taken _ _ h := Builder.taken_ready h
  knows _ _ h := Process.knows_ready system input h
  shows := Process.shows_ready hserves

/-! ## The end -/

namespace Builder

variable {b b₁ b' : Builder} {label : Name} {lines : List Line}

/-- From one stage to another nothing was done but to fill a block, with these lines. -/
structure Fills (b : Builder) (label : Name) (lines : List Line) (b' : Builder) : Prop where
  current : b'.current = b.current
  labels : b'.labels = b.labels
  order : b'.order = b.order
  holds : b'.blocks[b.current]? = some ⟨label, lines.toArray⟩
  others : ∀ i, i ≠ b.current → b'.blocks[i]? = b.blocks[i]?

/-- A block that is entered and was empty has no lines. -/
theorem Empty.fills {r : BlockRef} (h : b.Empty r) :
    (b.entered r.index).Fills r.label [] (b.entered r.index) where
  current := rfl
  labels := rfl
  order := rfl
  holds := h
  others _ _ := rfl

theorem Fills.emitted (h : b.Fills label lines b₁) (s : Stem) (op : Op) :
    b.Fills label (lines ++ [⟨b₁.nextName s, op⟩]) (b₁.emitted s op) where
  current := h.current
  labels := (b₁.labels_emitted s op).trans h.labels
  order := h.order
  holds := by rw [getElem?_emitted, if_pos h.current, h.holds, Option.map_some, List.push_toArray]
  others i hi := by rw [getElem?_emitted, if_neg (h.current ▸ hi.symm), h.others i hi]

theorem Fills.emit (h : b.Fills label lines b₁) {s : Stem} {op : Op} {a : Operand}
    (hrun : Build.emit s op b₁ = .ok (a, b')) :
    ∃ i, a = .reg ⟨s, i⟩ ∧ b.Fills label (lines ++ [⟨⟨s, i⟩, op⟩]) b' := by
  obtain ⟨rfl, rfl⟩ := emit_eq_ok hrun
  exact ⟨_, rfl, h.emitted s op⟩

theorem Fills.emitUnused (h : b.Fills label lines b₁) {op : Op} {u : Unit}
    (hrun : Build.emitUnused op b₁ = .ok (u, b')) :
    ∃ i, b.Fills label (lines ++ [⟨⟨.unused, i⟩, op⟩]) b' := by
  obtain ⟨_, rfl⟩ := Prod.mk.inj (Except.ok.inj hrun)
  exact ⟨_, h.emitted .unused op⟩

/-- A block that is created leaves the empty ones empty, and it is empty itself. -/
theorem Empty.appended {r : BlockRef} (h : b.Empty r) (s : Stem) : (b.appended s).Empty r :=
  (b.getElem?_inserted _ s _).trans ((if_neg (Nat.ne_of_lt h.lt)).trans h)

theorem empty_appended (b : Builder) (s : Stem) :
    (b.appended s).Empty ⟨b.nextName s, b.blocks.size⟩ :=
  (b.getElem?_inserted _ s _).trans (if_pos rfl)

/-- The block that returns has been created, and the lowered sequence goes there. -/
def left (b : Builder) : Builder :=
  (b.appended .returnBlock).emitted .unused (.br (b.nextName .returnBlock))

theorem labels_left (b : Builder) : b.left.labels = b.labels ++ [b.nextName .returnBlock] :=
  (labels_emitted ..).trans (b.labels_inserted ..)

theorem contained_left (b : Builder) : Contained b.blocks b.left.blocks :=
  (Contained.push b.blocks _).trans ((b.appended .returnBlock).contained_emitted _ _)

theorem Empty.left {r : BlockRef} (h : (b.appended .returnBlock).Empty r) (hne : r.index ≠ b.current) :
    b.left.Empty r :=
  h.grows (grows_emitted ..) hne

/-- What is built behind a lowered sequence: a jump to a new block, and the lines of that block and of
the one that was created second. -/
structure Closed (b : Builder) (last : Name) (b' : Builder) : Prop where
  order : b'.order = b.order ++ [b.blocks.size]
  labels : b'.labels = b.labels ++ [b.nextName .returnBlock]
  fault : ∃ i j k l, b'.blocks[1]? =
    some ⟨errorLabel, (faultLines i j k l (b.nextName .returnBlock)).toArray⟩
  back : ∃ i j k l m n, b'.blocks[b.blocks.size]? =
    some ⟨b.nextName .returnBlock, (returnLines last i j k l m n).toArray⟩
  others : ∀ i, i ≠ 1 → i ≠ b.blocks.size → b'.blocks[i]? = b.left.blocks[i]?

end Builder

section End

variable {b b' : Builder} {label returnLabel last : Name} {u : Unit}

theorem Build.fills_of_reportFault (hb : b.Fills label [] b)
    (h : reportFault returnLabel b = .ok (u, b')) :
    ∃ i j k l, b.Fills label (faultLines i j k l returnLabel) b' := by
  obtain ⟨text, b₁, h₁, h⟩ := bind_eq_ok h
  obtain ⟨stream, b₂, h₂, h⟩ := bind_eq_ok h
  obtain ⟨_, b₃, h₃, h₄⟩ := bind_eq_ok h
  obtain ⟨i, rfl, hb₁⟩ := hb.emit h₁
  obtain ⟨j, rfl, hb₂⟩ := hb₁.emit h₂
  obtain ⟨k, hb₃⟩ := hb₂.emitUnused h₃
  obtain ⟨l, hb₄⟩ := hb₃.emitUnused h₄
  exact ⟨i, j, k, l, hb₄⟩

theorem Build.fills_of_epilogue (hb : b.Fills label [] b) (h : epilogue last b = .ok (u, b')) :
    ∃ i j k l m n, b.Fills label (returnLines last i j k l m n) b' := by
  obtain ⟨status, b₁, h₁, h⟩ := bind_eq_ok h
  obtain ⟨cells, b₂, h₂, h⟩ := bind_eq_ok h
  obtain ⟨_, b₃, h₃, h⟩ := bind_eq_ok h
  obtain ⟨buffer, b₄, h₄, h⟩ := bind_eq_ok h
  obtain ⟨_, b₅, h₅, h₆⟩ := bind_eq_ok h
  obtain ⟨i, rfl, hb₁⟩ := hb.emit h₁
  obtain ⟨j, rfl, hb₂⟩ := hb₁.emit h₂
  obtain ⟨k, hb₃⟩ := hb₂.emitUnused h₃
  obtain ⟨l, rfl, hb₄⟩ := hb₃.emit h₄
  obtain ⟨m, hb₅⟩ := hb₄.emitUnused h₅
  obtain ⟨n, hb₆⟩ := hb₅.emitUnused h₆
  exact ⟨i, j, k, l, m, n, hb₆⟩

theorem Build.currentLabel_eq_ok (hlabel : b.labels[b.current]? = some label)
    (h : currentLabel b = .ok (last, b')) : label = last ∧ b' = b := by
  obtain ⟨rfl, rfl⟩ := Prod.mk.inj (Except.ok.inj h)
  rw [Builder.labels, List.getElem?_map, Array.getElem?_toList] at hlabel
  rw [hlabel]
  exact ⟨rfl, rfl⟩

/-- The error block waits to be filled, and it is not the one that is being filled. -/
theorem error_of_ready_grows (h : Builder.ready.Grows b) :
    b.Empty ⟨errorLabel, 1⟩ ∧ b.current ≠ 1 := by
  have herror : Builder.ready.Empty ⟨errorLabel, 1⟩ := rfl
  exact ⟨herror.grows h Nat.one_ne_zero, (herror.ne_current h Nat.one_ne_zero).symm⟩

/-- The end is built as it should be. -/
theorem closed_of_close (hb : Builder.ready.Grows b) (h : close b = .ok (u, b')) :
    ∃ last, b.labels[b.current]? = some last ∧ b.Closed last b' := by
  have hlt : b.current < b.blocks.size := hb.valid Nat.zero_lt_two
  obtain ⟨herror, hne⟩ := error_of_ready_grows hb
  have hone : 1 < b.blocks.size := herror.lt
  obtain ⟨back, b₁, hback, h⟩ := bind_eq_ok h
  obtain ⟨_, b₂, hjump, h⟩ := bind_eq_ok h
  obtain ⟨last, b₃, hlast, h⟩ := bind_eq_ok h
  obtain ⟨_, b₄, henter, h⟩ := bind_eq_ok h
  obtain ⟨_, b₅, hreport, h⟩ := bind_eq_ok h
  obtain ⟨_, b₆, henter', hepilogue⟩ := bind_eq_ok h
  obtain ⟨rfl, rfl⟩ := appendBlock_eq_ok hback
  obtain ⟨_, rfl⟩ : () = () ∧ b.left = b₂ := Prod.mk.inj (Except.ok.inj hjump)
  have hlabel := List.getElem?_eq_getElem (b.length_labels.symm ▸ hlt)
  refine ⟨_, hlabel, ?_⟩
  rw [← List.getElem?_append_left (b.length_labels.symm ▸ hlt), ← b.labels_left] at hlabel
  obtain ⟨rfl, rfl⟩ := currentLabel_eq_ok hlabel hlast
  obtain rfl := enter_eq_ok henter
  obtain rfl := enter_eq_ok henter'
  -- neither of the two blocks is the one that the jump is in
  have herror₂ : b.left.Empty ⟨errorLabel, 1⟩ := (herror.appended _).left hne.symm
  have hback₂ : b.left.Empty ⟨b.nextName .returnBlock, b.blocks.size⟩ :=
    (b.empty_appended _).left (Nat.ne_of_gt hlt)
  obtain ⟨i, j, k, l, hfault⟩ := fills_of_reportFault herror₂.fills hreport
  have hback₅ : b₅.Empty ⟨b.nextName .returnBlock, b.blocks.size⟩ :=
    (hfault.others _ (Nat.ne_of_gt hone)).trans hback₂
  obtain ⟨i', j', k', l', m, n, hend⟩ := fills_of_epilogue hback₅.fills hepilogue
  refine ⟨?_, ?_, ⟨i, j, k, l, ?_⟩, ⟨i', j', k', l', m, n, ?_⟩, fun index hindex hindex' => ?_⟩
  · refine hend.order.trans (hfault.order.trans ?_)
    exact List.insertIdx_length_self ..
  · exact hend.labels.trans (hfault.labels.trans b.labels_left)
  · exact (hend.others 1 (Nat.ne_of_lt hone)).trans hfault.holds
  · exact hend.holds
  · exact (hend.others index hindex').trans (hfault.others index hindex)

namespace Builder.Closed

theorem size_eq (h : b.Closed last b') : b'.blocks.size = b.blocks.size + 1 := by
  rw [← b'.length_labels, h.labels, List.length_append, b.length_labels, List.length_singleton]

/-- How the blocks stand: the two that are filled in the end behind all the others, which stand in the
order of their creation. -/
theorem order_eq (h : b.Closed last b') (hb : Builder.ready.Grows b) :
    b'.order = 0 :: List.range' 2 (b.blocks.size - 2) ++ [1, b.blocks.size] := by
  have hready : Builder.ready.order = [0] ++ [1] := rfl
  have horder : b.order = [0] ++ List.range' 2 (b.blocks.size - 2) ++ [1] := hb.order hready
  rw [h.order, horder, List.append_assoc]
  rfl

/-- The numbers of all blocks are there, and each of them once. -/
theorem order_perm (h : b.Closed last b') (hb : Builder.ready.Grows b) :
    b'.order.Perm (List.range b'.blocks.size) := by
  obtain ⟨n, hn⟩ : ∃ n, b.blocks.size = n + 2 :=
    ⟨b.blocks.size - 2, (Nat.sub_add_cancel hb.size_le).symm⟩
  have hrange : List.range (n + 3) = 0 :: 1 :: (List.range' 2 n ++ [n + 2]) := by
    rw [List.range_eq_range', List.range'_succ, List.range'_succ, List.range'_concat]
    simp [Nat.add_comm]
  rw [h.order_eq hb, h.size_eq, hn, Nat.add_sub_cancel, hrange]
  exact .cons 0 List.perm_middle

/-- The block that was created first stands first. -/
theorem first_eq (h : b.Closed last b') (hb : Builder.ready.Grows b) :
    b'.function[0]? = b'.blocks[0]? := by
  have hlt : 0 < b'.blocks.size := by
    rw [h.size_eq]
    exact Nat.succ_pos _
  have hfirst := Array.getElem?_eq_getElem hlt
  rw [Builder.function, h.order_eq hb, List.cons_append, List.filterMap_cons, hfirst]
  rfl

/-- What was there when the sequence was left is there in the end. -/
theorem contained (h : b.Closed last b') (hb : Builder.ready.Grows b) :
    Contained b.left.blocks b'.blocks := by
  obtain ⟨herror, hne⟩ := error_of_ready_grows hb
  have hlt : b.current < b.blocks.size := hb.valid (Nat.zero_lt_two)
  have hempty : ∀ {r : BlockRef} {block full : Block}, b.left.Empty r →
      b.left.blocks[r.index]? = some block → b'.blocks[r.index]? = some full →
      full.label = r.label → ∃ block' ∈ b'.blocks, block'.label = block.label ∧
        block.lines.toList <+: block'.lines.toList := by
    intro r block full hr hblock hfull hlabel
    obtain rfl := Option.some.inj (hr.symm.trans hblock)
    exact ⟨full, Array.mem_of_getElem? hfull, hlabel, List.nil_prefix⟩
  intro block hblock
  obtain ⟨i, hi⟩ := Array.mem_iff_getElem?.mp hblock
  by_cases hone : i = 1
  · subst hone
    obtain ⟨_, _, _, _, hfault⟩ := h.fault
    exact hempty ((herror.appended _).left hne.symm) hi hfault rfl
  · by_cases hback : i = b.blocks.size
    · subst hback
      obtain ⟨_, _, _, _, _, _, hreturn⟩ := h.back
      exact hempty ((b.empty_appended _).left (Nat.ne_of_gt hlt)) hi hreturn rfl
    · exact ⟨block, Array.mem_of_getElem? ((h.others i hone hback).trans hi), rfl, List.prefix_rfl⟩

/-- No two blocks have the same label: each label was free when it was taken. -/
theorem nodup_labels (h : b.Closed last b') (hb : Builder.ready.Grows b) : b'.labels.Nodup := by
  have hready : ∀ l ∈ Builder.ready.labels, Builder.ready.names.Taken l := by decide
  obtain ⟨extra, hlabels, hnodup, hfree⟩ := hb.labels
  have htaken : ∀ l ∈ b.labels, b.names.Taken l := by
    intro l hl
    rcases List.mem_append.mp (hlabels ▸ hl) with hl | hl
    · exact hb.names.taken (hready l hl)
    · exact (hfree l hl).2
  rw [h.labels, ← List.concat_eq_append]
  refine List.Nodup.concat (fun hmem => b.names.not_taken_take .returnBlock (htaken _ hmem)) ?_
  rw [hlabels]
  refine List.nodup_append.mpr ⟨by decide, hnodup, fun l hl l' hl' heq => ?_⟩
  exact (hfree l' hl').1 (heq ▸ hready l hl)

end Builder.Closed

/-- Numbers lead to the elements of a list. -/
theorem filterMap_getElem?_range {α : Type} (l : List α) :
    (List.range l.length).filterMap (l[·]?) = l := by
  induction l with
  | nil => rfl
  | cons a l ih =>
    rw [List.length_cons, List.range_succ_eq_map, List.filterMap_cons, List.getElem?_cons_zero,
      List.filterMap_map]
    exact congrArg (a :: ·) ih

/-- If the numbers of all blocks are there once, the blocks of the function are those that were
created. -/
theorem Builder.function_perm (h : b.order.Perm (List.range b.blocks.size)) :
    b.function.toList.Perm b.blocks.toList := by
  have hall := filterMap_getElem?_range b.blocks.toList
  simp only [Array.length_toList, Array.getElem?_toList] at hall
  rw [Builder.function, ← hall]
  exact h.filterMap _

/-- The end of the function behind a lowered sequence. -/
theorem Builder.Closed.closing (h : b.Closed last b') (hb : Builder.ready.Grows b)
    (hlast : b.labels[b.current]? = some last) :
    Closing b'.function last (b.nextName .returnBlock) ∧ Contained b.left.blocks b'.function := by
  have hperm := b'.function_perm (h.order_perm hb)
  have hmem {block : Block} (hblock : block ∈ b'.blocks) : block ∈ b'.function :=
    Array.mem_toList_iff.mp (hperm.mem_iff.mpr (Array.mem_toList_iff.mpr hblock))
  have hall : b'.labels.Nodup := h.nodup_labels hb
  have hnodup : (b'.function.toList.map Block.label).Nodup := (hperm.map Block.label).nodup_iff.mpr hall
  have htable {i : Nat} {block : Block} (hblock : b'.blocks[i]? = some block) :
      (blockTable b'.function)[block.label]? = some block.lines.toList :=
    getElem?_blockTable hnodup (hmem (Array.mem_of_getElem? hblock))
  have hne : last ≠ errorLabel := by
    rintro rfl
    obtain ⟨herror, hcurrent⟩ := error_of_ready_grows hb
    have hone : b.labels[1]? = some errorLabel := by
      rw [Builder.labels, List.getElem?_map, Array.getElem?_toList, show b.blocks[1]? = _ from herror]
      rfl
    have hlabels : b.labels.Nodup := (h.labels ▸ hall).of_append_left
    have hlt : b.current < b.labels.length := (List.getElem?_eq_some_iff.mp hlast).1
    exact hcurrent ((List.getElem?_inj hlt hlabels).mp (hlast.trans hone.symm))
  obtain ⟨i, j, k, l, hfault⟩ := h.fault
  obtain ⟨i', j', k', l', m, n, hback⟩ := h.back
  refine ⟨⟨hnodup, hne, ⟨i, j, k, l, htable hfault⟩, ⟨i', j', k', l', m, n, htable hback⟩⟩, ?_⟩
  intro block hblock
  obtain ⟨block', hblock', hsame⟩ := h.contained hb block hblock
  exact ⟨block', hmem hblock', hsame⟩

/-- Behind the lowered sequence the process ends with status zero. -/
theorem Closing.ends_of_at {F : Array Block} {regs : Frame} {k : Nat} {d : Config} {y : Point}
    (hclosing : Closing F last (b.nextName .returnBlock)) (hslots : regs.HasSlots)
    (hlast : b.labels[b.current]? = some last) (hF : Contained b.left.blocks F)
    (hy : At F b regs k d y) : Ends (Point.step F) y ⟨0, d.written, ""⟩ := by
  have hsame : (b.appended .returnBlock).blocks[b.current]? = b.blocks[b.current]? :=
    (b.getElem?_inserted ..).trans (if_neg (Nat.ne_of_lt hy.valid))
  have hopened : At F (b.appended .returnBlock) regs k d y :=
    hy.opened (b.names.within_take .returnBlock) rfl hsame
  obtain ⟨rest, hlines, _⟩ := hopened.stands.next hF
  have hname : y.label = last := by
    obtain ⟨block, _, hblock, _, _, _, hlabel, _⟩ := hy.stands
    rw [Builder.labels, List.getElem?_map, Array.getElem?_toList, hblock] at hlast
    exact hlabel.trans (Option.some.inj hlast)
  obtain ⟨lines, hback, hends⟩ := hclosing.ends_return (hy.canReturn hslots) (Or.inl ⟨rfl, rfl⟩)
  have hstep : y.step F = .next ⟨some last, b.nextName .returnBlock, lines, y.process⟩ := by
    rw [← y.eta hlines, ← hname]
    exact Point.step_block rfl hback
  rw [← hy.shows.stdout, ← hy.shows.stderr]
  exact .of_runs (.one hstep) hends

end End

end Brainfuck.IR
