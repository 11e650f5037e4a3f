import Brainfuck.IR.Module
import Brainfuck.Proofs.LoweredForm

/-!
# The form of a compiled function

The function of a program is in single-assignment form, and its shape is always the same.  It is a
draft that has been finished: it begins as `Draft.ready`, the program is lowered into it, and the end
is a jump and the lines of two blocks.

The error block is the second one that is created, and it waits until the lowered sequence is there.
All that it may rely on are the slots, since checks go to it from everywhere; that is enough, since the
return block, to which it goes, needs nothing else.

Blocks are numbered as they are created, and the order in which they stand is another one.  Every new
block has been put in front of the error block, and the return block behind it, so the lowered sequence
stands in order of creation and the two others come last (`Draft.function_eq`).

* `Draft.sound_ready`, `Draft.hosts_ready`: the beginning.
* `Draft.Hosts.exists_close`: the end.
* `MainForm`: the blocks of a function, and who goes where.
* `Program.mainBlocks_form`: the function of a program has this form.
-/

namespace Brainfuck

namespace IR

open Build

namespace Draft

variable {d : Draft}

/-! ## The beginning -/

/-- The draft when the state has been set up and nothing has been lowered. -/
def ready : Draft where
  toBuilder := .ready
  label := ⟨.entry, 0⟩
  lines := prologueLines
  isOpen := true
  waiting := [⟨errorLabel, 1⟩]
  scope l := if l = errorLabel then {n | n ∈ slotNames} else ∅

theorem scope_ready_errorLabel : ready.scope errorLabel = {n | n ∈ slotNames} := rfl

theorem scope_ready_of_ne {l : Name} (h : l ≠ errorLabel) : ready.scope l = ∅ := if_neg h

theorem eq_of_mem_blocks_ready {block : Block} (h : block ∈ ready.blocks) :
    block = ⟨⟨.entry, 0⟩, prologueLines.toArray⟩ ∨ block = ⟨errorLabel, #[]⟩ := by
  have hmem : block ∈ [⟨⟨.entry, 0⟩, prologueLines.toArray⟩, ⟨errorLabel, #[]⟩] :=
    Array.mem_toList_iff.mpr h
  simpa using hmem

theorem mem_values_of_mem_slotNames : ∀ n ∈ slotNames, n ∈ values prologueLines := by decide

/-- What a line of the beginning uses has been computed before. -/
theorem mem_values_of_prologueLines {before after : List Line} {line : Line}
    (h : prologueLines = before ++ line :: after) : ∀ n ∈ line.op.uses, n ∈ values before := by
  have hall : ∀ i : Fin prologueLines.length, ∀ n ∈ (prologueLines.get i).op.uses,
      n ∈ values (prologueLines.take i) := by decide
  have hlt : before.length < prologueLines.length := by simp [h]
  have hline : prologueLines.get ⟨before.length, hlt⟩ = line := List.getElem_of_append h rfl
  have htake : prologueLines.take before.length = before := by simp [h]
  rw [← htake, ← hline]
  exact hall ⟨before.length, hlt⟩

theorem filled_ready : ready.Filled where
  current := rfl
  going _ := by decide
  left h := nomatch h
  waiting r hr := by
    obtain rfl := List.mem_singleton.mp hr
    exact ⟨rfl, Nat.one_ne_zero⟩
  apart := List.nodup_singleton _
  others i block hblock hi hwaits := by
    have hlt : i < 2 := (Array.getElem?_eq_some_iff.mp hblock).1
    have hone : 1 ≠ i := hwaits ⟨errorLabel, 1⟩ (List.mem_singleton_self _)
    have hzero : i ≠ 0 := hi
    omega

theorem named_ready : ready.Named where
  nodup := by decide
  taken := by decide

theorem scoped_ready : ready.Scoped where
  lines block hblock before line after hlines := by
    rcases eq_of_mem_blocks_ready hblock with rfl | rfl
    · have hmem : line ∈ prologueLines := by
        rw [show prologueLines = before ++ line :: after from hlines]
        simp
      refine ⟨fun n hn => Or.inr (mem_values_of_prologueLines hlines n hn), fun l hl => ?_, ?_⟩
      · rw [Op.targets_eq_nil (filled_ready.going rfl line hmem)] at hl
        exact absurd hl List.not_mem_nil
      · rw [scope_ready_of_ne (by decide)]
        exact Set.notMem_empty _
    · simp at hlines
  known l _ n hn := by
    by_cases hl : l = errorLabel
    · subst hl
      exact ⟨_, filled_ready.mem, mem_values_of_mem_slotNames n hn⟩
    · rw [scope_ready_of_ne hl] at hn
      exact absurd hn (Set.notMem_empty n)
  start block hblock := by
    have hentry : (⟨⟨.entry, 0⟩, prologueLines.toArray⟩ : Block) = block := Option.some.inj hblock
    rw [← hentry]
    exact scope_ready_of_ne (by decide)

theorem sound_ready : ready.Sound [] where
  filled := filled_ready
  named := named_ready
  scoping := scoped_ready
  checked := by
    refine ⟨.refl _, fun block hblock hl => ?_⟩
    rcases eq_of_mem_blocks_ready hblock with rfl | rfl
    · exact absurd hl List.not_mem_nil
    · exact absurd hl List.not_mem_nil

theorem hosts_ready : ready.Hosts none where
  sound := ⟨[], sound_ready⟩
  going := rfl
  slots n hn := Or.inr (mem_values_of_mem_slotNames n hn)
  scale _ hx := nomatch hx
  error := List.mem_cons_of_mem _ List.mem_cons_self
  fault n hn := Or.inr (mem_values_of_mem_slotNames n hn)

theorem linesFit_ready : ready.LinesFit Lowers := by
  intro block hblock line hline
  have hall : ∀ line ∈ prologueLines, line.name.stem ∉ closingStems ∧ line.op.frees = false := by
    decide
  rcases eq_of_mem_blocks_ready hblock with rfl | rfl
  · exact lowers_some (hall line hline).1 (hall line hline).2
  · exact absurd hline List.not_mem_nil

/-! ## The end -/

/-- The end of a function may have any stems and operations. -/
def Unrestricted (_ : Stem) (_ : Option Op) : Prop := True

/-- A block has been filled to its end, and nothing else has been done. -/
structure Completes (d d' : Draft) : Prop where
  left : d'.isOpen = false
  waiting : d'.waiting = d.waiting

theorem exists_reportFault (d : Draft) {back : Name} (hgoing : d.isOpen = true)
    (hback : back ≠ errorLabel) (hknows : d.Knows back) (hscope : ∀ n ∈ d.scope back, d.Sees n) :
    ∃ d', Builds Unrestricted (reportFault back) [] d () d' ∧ d.Completes d' := by
  let d₁ := d.emit .errorString .errorText
  let d₂ := d₁.emit .stderr (.load (.ptr .i8) (.stream .stderr))
  let d₃ := d₂.emit .unused
    (.call .fputs [.reg (d.nextName .errorString), .reg (d₁.nextName .stderr)])
  have htext : d₁.SeesOperand (.reg (d.nextName .errorString)) := sees_nextName rfl
  have htext' : d₂.SeesOperand (.reg (d.nextName .errorString)) := htext.mono fun _ => sees_emit
  have hstream : d₂.SeesOperand (.reg (d₁.nextName .stderr)) := sees_nextName rfl
  have hemit : Builds Unrestricted (Build.emit .errorString .errorText) [] d _ d₁ :=
    builds_emit hgoing trivial rfl (by simp [Op.operands])
  have hload : Builds Unrestricted (Build.emit .stderr _) [] d₁ _ d₂ :=
    builds_emit hgoing trivial rfl (by simp [Op.operands, seesOperand_stream])
  have hcall : Builds Unrestricted (emitUnused _) [] d₂ () d₃ :=
    builds_emitUnused hgoing trivial rfl (by simp [Op.operands, htext', hstream])
  have hjump : Builds Unrestricted (emitUnused (.br back)) [] d₃ () (d₃.terminate (.br back)) := by
    refine builds_terminate hgoing trivial rfl (by simp [Op.operands])
      (by simpa [Op.targets] using hback.symm) fun l hl => ?_
    obtain rfl := List.mem_singleton.mp hl
    have hext := (hemit.steps.trans (hload.steps.trans hcall.steps)).extends
    exact ⟨hext.knows _ hknows, fun n hn => sees_emit (sees_emit (sees_emit (hscope n hn)))⟩
  exact ⟨_, hemit.bind (hload.bind (hcall.bind hjump)), rfl, rfl⟩

theorem exists_epilogue (d : Draft) (last : Name) (hgoing : d.isOpen = true)
    (hslots : ∀ n ∈ slotNames, d.Sees n) :
    ∃ d', Builds Unrestricted (epilogue last) [] d () d' ∧ d.Completes d' := by
  let d₁ := d.emit .returnValue (.phi [(0, last), (faultStatus, errorLabel)])
  let d₂ := d₁.emit .cells (.load (.ptr .i8) cellsSlot)
  let d₃ := d₂.emit .unused (.call .free [.reg (d₁.nextName .cells)])
  let d₄ := d₃.emit .inputBuffer (.load (.ptr .i8) inputSlot)
  let d₅ := d₄.emit .unused (.call .free [.reg (d₃.nextName .inputBuffer)])
  have hkeeps {n : Name} (hn : d₁.Sees n) : d₅.Sees n :=
    sees_emit (sees_emit (sees_emit (sees_emit hn)))
  have hstatus : d₁.SeesOperand (.reg (d.nextName .returnValue)) := sees_nextName rfl
  have hcells : d₁.SeesOperand cellsSlot := seesOperand_reg (sees_emit (hslots _ (by decide)))
  have hcells' : d₂.SeesOperand (.reg (d₁.nextName .cells)) := sees_nextName rfl
  have hinput : d₃.SeesOperand inputSlot :=
    seesOperand_reg (sees_emit (sees_emit (sees_emit (hslots _ (by decide)))))
  have hinput' : d₄.SeesOperand (.reg (d₃.nextName .inputBuffer)) := sees_nextName rfl
  have hphi : Builds Unrestricted (Build.emit .returnValue _) [] d _ d₁ :=
    builds_emit hgoing trivial rfl (by simp [Op.operands])
  have hload : Builds Unrestricted (Build.emit .cells _) [] d₁ _ d₂ :=
    builds_emit hgoing trivial rfl (by simpa [Op.operands] using hcells)
  have hfree : Builds Unrestricted (emitUnused _) [] d₂ () d₃ :=
    builds_emitUnused hgoing trivial rfl (by simpa [Op.operands] using hcells')
  have hload' : Builds Unrestricted (Build.emit .inputBuffer _) [] d₃ _ d₄ :=
    builds_emit hgoing trivial rfl (by simpa [Op.operands] using hinput)
  have hfree' : Builds Unrestricted (emitUnused _) [] d₄ () d₅ :=
    builds_emitUnused hgoing trivial rfl (by simpa [Op.operands] using hinput')
  have hret : Builds Unrestricted (emitUnused (.ret (.reg (d.nextName .returnValue)))) [] d₅ () _ :=
    builds_terminate hgoing trivial rfl
      (by simpa [Op.operands] using hstatus.mono fun _ => hkeeps) List.not_mem_nil
      fun _ hl => absurd hl List.not_mem_nil
  exact ⟨_, hphi.bind (hload.bind (hfree.bind (hload'.bind (hfree'.bind hret)))), rfl, rfl⟩

/-- The end of a function is a sequence of steps that leave nothing to do. -/
theorem Hosts.exists_close (h : d.Hosts none) (hwaiting : d.waiting = [⟨errorLabel, 1⟩])
    (hscope : d.scope errorLabel = {n | n ∈ slotNames}) :
    ∃ d', Builds Unrestricted close [] d () d' ∧ d'.isOpen = false ∧ d'.waiting = [] := by
  let back := d.nextBlock .returnBlock
  let d₁ := d.create d.order.length .returnBlock {n | n ∈ slotNames}
  let d₂ := d₁.terminate (.br back.label)
  let d₃ := d₂.enter ⟨errorLabel, 1⟩ [back]
  have hback : back.label ≠ errorLabel := by
    intro heq
    have hstem : Stem.returnBlock = .error := congrArg Name.stem heq
    cases hstem
  have htaken : d₁.names.Taken back.label := d.names.taken_take .returnBlock
  have hknows : d₁.Knows back.label := by
    unfold Knows
    rw [labels_create]
    exact List.mem_append_right _ (List.mem_singleton_self _)
  have hscope₁ : d₁.scope back.label = {n | n ∈ slotNames} := Function.update_self ..
  have hcreate : Builds Unrestricted (appendBlock .returnBlock) [] d back d₁ :=
    ⟨rfl, .one (.create trivial h.slots)⟩
  have hjump : Builds Unrestricted (emitUnused (.br back.label)) [] d₁ () d₂ := by
    refine builds_terminate h.going trivial rfl (by simp [Op.operands])
      (by simpa [Op.targets] using hback.symm) fun l hl => ?_
    obtain rfl := List.mem_singleton.mp hl
    have hlabel : d₁.scope d.label = d.scope d.label :=
      hcreate.steps.extends.scope _ (h.named.taken_of_knows h.knows_label)
    refine ⟨hknows, fun n hn => ?_⟩
    exact (h.slots n (hscope₁.subset hn)).imp_left fun hn => hlabel.superset hn
  have hlast : Builds Unrestricted currentLabel [] d₂ d.label d₂ := by
    obtain ⟨checks, hsound⟩ := h.sound
    have hcurrent := ((hcreate.steps.trans hjump.steps).sound hsound).filled.current
    refine ⟨?_, .refl d₂⟩
    change Except.ok (((d₂.blocks[d₂.current]?).map Block.label).getD _, d₂.toBuilder) = _
    rw [hcurrent]
    rfl
  have hwaits : d₂.waiting.Perm [⟨errorLabel, 1⟩, back] := by
    change (back :: d.waiting).Perm _
    rw [hwaiting]
    exact .swap ..
  have henter : Builds Unrestricted (Build.enter ⟨errorLabel, 1⟩) [] d₂ () d₃ := builds_enter rfl hwaits
  have hext₁ : d₁.Extends d₃ := (hjump.steps.trans henter.steps).extends
  -- the error block relies on the slots, and that is what the return block needs
  have herror₃ : d₃.scope errorLabel = {n | n ∈ slotNames} :=
    ((hcreate.steps.extends.trans hext₁).scope _ (h.named.taken_of_knows h.error)).trans hscope
  have hback₃ : d₃.scope back.label = {n | n ∈ slotNames} :=
    (hext₁.scope back.label htaken).trans hscope₁
  obtain ⟨d₄, hreport, hcompletes⟩ := d₃.exists_reportFault rfl hback (hext₁.knows back.label hknows)
    fun n hn => Or.inl (herror₃.superset (hback₃.subset hn))
  have henter' : Builds Unrestricted (Build.enter back) [] d₄ () (d₄.enter back []) :=
    builds_enter hcompletes.left (.of_eq hcompletes.waiting)
  have hback₄ := (hreport.steps.extends.scope back.label (hext₁.names.taken htaken)).trans hback₃
  obtain ⟨d₅, hepilogue, hcompletes'⟩ := (d₄.enter back []).exists_epilogue d.label rfl
    fun n hn => Or.inl (hback₄.superset hn)
  exact ⟨d₅, hcreate.bind (hjump.bind (hlast.bind (henter.bind (hreport.bind
    (henter'.bind hepilogue))))), hcompletes'.left, hcompletes'.waiting⟩

/-! ## The blocks of the lowered sequence -/

/-- The jump to the return block. -/
def lastLine (d : Draft) : Line :=
  ⟨(d.appended .returnBlock).nextName .unused, .br (d.nextName .returnBlock)⟩

/-- The block in which the lowered sequence ends, with the jump at its end. -/
def lastBlock (d : Draft) : Block := ⟨d.label, (d.lines ++ [d.lastLine]).toArray⟩

/-- The numbers of the blocks of the lowered sequence: of all but the error block. -/
def bodyNumbers (d : Draft) : List Nat := 0 :: List.range' 2 (d.blocks.size - 2)

/-- The blocks of the lowered sequence, with the jump at its end. -/
def bodyBlocks (d : Draft) : List Block := d.bodyNumbers.filterMap (d.left.blocks[·]?)

variable {checks : List Node} {block : Block} {i : Nat}

theorem mem_bodyNumbers (h : 2 ≤ d.blocks.size) : i ∈ d.bodyNumbers ↔ i ≠ 1 ∧ i < d.blocks.size := by
  rw [bodyNumbers, List.mem_cons, List.mem_range'_1]
  omega

theorem getElem?_left (h : d.Filled) (hi : i ≠ d.blocks.size) :
    d.left.blocks[i]? = if d.current = i then some d.lastBlock else d.blocks[i]? := by
  let d₁ := d.create d.order.length .returnBlock ∅
  have hjump : d.left.blocks[i]? = if d.current = i then some d.lastBlock else d₁.blocks[i]? :=
    getElem?_emit (h.create d.order.length .returnBlock ∅).current .unused
      (.br (d.nextName .returnBlock)) i
  have hsame : d₁.blocks[i]? = d.blocks[i]? := (d.getElem?_inserted ..).trans (if_neg hi)
  rw [hjump, hsame]

theorem mem_bodyBlocks (h : d.Filled) (hsize : 2 ≤ d.blocks.size) (hblock : block ∈ d.bodyBlocks) :
    block ∈ d.blocks ∨ block = d.lastBlock := by
  obtain ⟨i, hi, hleft⟩ := List.mem_filterMap.mp hblock
  rw [getElem?_left h (Nat.ne_of_lt ((mem_bodyNumbers hsize).mp hi).2)] at hleft
  split at hleft
  case isTrue => exact Or.inr (Option.some.inj hleft).symm
  case isFalse => exact Or.inl (Array.mem_of_getElem? hleft)

theorem lastBlock_mem_bodyBlocks (h : d.Filled) (hsize : 2 ≤ d.blocks.size) (hne : d.current ≠ 1) :
    d.lastBlock ∈ d.bodyBlocks := by
  have hlt : d.current < d.blocks.size := (Array.getElem?_eq_some_iff.mp h.current).1
  refine List.mem_filterMap.mpr ⟨d.current, (mem_bodyNumbers hsize).mpr ⟨hne, hlt⟩, ?_⟩
  rw [getElem?_left h (Nat.ne_of_lt hlt), if_pos rfl]

/-- All numbers but one lead to all elements but one. -/
theorem filterMap_getElem?_eraseIdx {α : Type} (a b : α) (l : List α) :
    (0 :: List.range' 2 l.length).filterMap ((a :: b :: l)[·]?) = a :: l := by
  have hshift : (fun i => (a :: b :: l)[2 + i]?) = (l[·]?) := by
    funext i
    rw [Nat.add_comm]
    rfl
  rw [List.filterMap_cons, List.getElem?_cons_zero, List.range'_eq_map_range, List.filterMap_map]
  exact congrArg (a :: ·) ((congrArg (List.filterMap · _) hshift).trans (filterMap_getElem?_range l))

/-- The lowered sequence stands in the order in which its blocks were created. -/
theorem labels_bodyBlocks (h : Builder.ready.Grows d.toBuilder) :
    d.bodyBlocks.map Block.label = d.labels.eraseIdx 1 := by
  obtain ⟨extra, hlabels, -⟩ := h.labels
  have hsize : d.blocks.size = extra.length + 2 := by
    rw [← d.length_labels, hlabels, List.length_append]
    exact Nat.add_comm _ _
  have hlabel : ∀ i ∈ d.bodyNumbers, (d.left.blocks[i]?).map Block.label = d.labels[i]? := by
    intro i hi
    have hlt := ((mem_bodyNumbers h.size_le).mp hi).2
    rw [← Array.getElem?_toList, ← List.getElem?_map]
    change d.left.labels[i]? = _
    rw [d.labels_left, List.getElem?_append_left (d.length_labels.symm ▸ hlt)]
  rw [bodyBlocks, List.map_filterMap, List.filterMap_congr hlabel, bodyNumbers, hlabels, hsize]
  exact filterMap_getElem?_eraseIdx _ _ extra

/-- The entry block comes first. -/
theorem head?_bodyBlocks (h : Builder.ready.Grows d.toBuilder) :
    d.bodyBlocks.head?.map (fun b => b.label.text) = some "entry" := by
  obtain ⟨extra, hlabels, -⟩ := h.labels
  have hhead : (d.bodyBlocks.map Block.label).head? = some ⟨.entry, 0⟩ := by
    rw [labels_bodyBlocks h, hlabels]
    rfl
  rw [List.head?_map] at hhead
  obtain ⟨entry, hentry, hname⟩ := Option.map_eq_some_iff.mp hhead
  rw [hentry, Option.map_some, hname]
  rfl

theorem Filled.getElem?_labels (h : d.Filled) : d.labels[d.current]? = some d.label := by
  rw [Builder.labels, List.getElem?_map, Array.getElem?_toList, h.current]
  rfl

/-- No block goes to a label that has not been given away. -/
theorem Sound.notMem_targets (h : d.Sound checks) {l : Name} (hl : ¬ d.names.Taken l)
    (hblock : block ∈ d.blocks) : l ∉ block.targets :=
  fun hmem => hl (h.named.taken_of_knows (h.knows_of_mem_targets hblock hmem).1)

theorem mem_targets_lastBlock (d : Draft) : d.nextName .returnBlock ∈ d.lastBlock.targets :=
  List.mem_flatMap.mpr ⟨d.lastLine, List.mem_append_right _ (List.mem_singleton_self _),
    List.mem_singleton_self _⟩

/-- Of the blocks of the lowered sequence, only the last one goes to the return block. -/
theorem Sound.eq_lastBlock (h : d.Sound checks) (hsize : 2 ≤ d.blocks.size)
    (hblock : block ∈ d.bodyBlocks) (hmem : d.nextName .returnBlock ∈ block.targets) :
    block = d.lastBlock := by
  rcases mem_bodyBlocks h.filled hsize hblock with hold | heq
  · exact absurd hmem (h.notMem_targets (d.names.not_taken_take .returnBlock) hold)
  · exact heq

/-- The blocks that go to the error block are the checks. -/
theorem Checked.mem_targets_iff (h : d.Checked checks) (hblock : block ∈ d.blocks) :
    errorLabel ∈ block.targets ↔ (check? block.lines.toList).isSome := by
  refine ⟨h.only block hblock, fun hcheck => ?_⟩
  obtain ⟨node, hnode⟩ := Option.isSome_iff_exists.mp hcheck
  obtain ⟨before, name, condition, rest, hlines, -⟩ := exists_branch_of_check? hnode
  refine List.mem_flatMap.mpr ⟨⟨name, .branch condition errorLabel rest⟩, ?_, List.mem_cons_self⟩
  rw [hlines]
  exact List.mem_append_right _ (List.mem_singleton_self _)

/-- The lowered sequence does not give memory back. -/
theorem LinesFit.frees_bodyBlocks (h : d.LinesFit Lowers) (hfilled : d.Filled)
    (hsize : 2 ≤ d.blocks.size) (hblock : block ∈ d.bodyBlocks) :
    ∀ line ∈ block.lines.toList, line.op.frees = false := by
  intro line hline
  rcases mem_bodyBlocks hfilled hsize hblock with hold | rfl
  · exact (h block hold line hline).2 _ rfl
  · rcases List.mem_append.mp hline with hline | hline
    · exact (h _ hfilled.mem line hline).2 _ rfl
    · rw [List.mem_singleton.mp hline]
      rfl

/-- Neither does the error block. -/
theorem frees_faultLines {i j k l : Nat} {back : Name} :
    ∀ line ∈ faultLines i j k l back, line.op.frees = false := by
  simp [faultLines, Op.frees]

end Draft

/-! ## The whole function -/

/-- The blocks of a program's function, and who goes where: a lowered sequence, the block that reports
a fault, and the block that returns. -/
structure MainForm (p : Program) (F : Array Block) (body : List Block) (last error back : Block) :
    Prop where
  blocks : F.toList = body ++ [error, back]
  entry_label : body.head?.map (fun b => b.label.text) = some "entry"
  error_label : error.label.text = "error"
  back_label : back.label.text = "return"
  /-- The lowered sequence stands in the order in which its blocks were created, the error block
  apart, and it ends in a certain one of them. -/
  lowered : ∃ b, Program.lower none p .ready = .ok ((), b) ∧
    body.map Block.label = b.labels.eraseIdx 1 ∧ last ∈ body ∧
    b.labels[b.current]? = some last.label
  /-- From there and from the error block one comes to the return block. -/
  enters_back : ∀ b ∈ F, back.label ∈ b.targets ↔ b = error ∨ b = last
  /-- In the return block, where one comes from decides the status, and the tape and the input buffer
  are given back. -/
  back_lines : ∃ status cells buffer n₁ n₂ n₃, back.lines.toList =
    [⟨status, .phi [(0, last.label), (1, error.label)]⟩, ⟨cells, .load (.ptr .i8) cellsSlot⟩,
      ⟨n₁, .call .free [.reg cells]⟩, ⟨buffer, .load (.ptr .i8) inputSlot⟩,
      ⟨n₂, .call .free [.reg buffer]⟩, ⟨n₃, .ret (.reg status)⟩]
  /-- Nothing is given back elsewhere. -/
  frees_only_in_back : ∀ b ∈ F, ∀ line ∈ b.lines.toList, line.op.frees = true → b = back
  /-- To the error block one comes by a branch that goes on elsewhere otherwise. -/
  enters_error : ∀ b ∈ F, error.label ∈ b.targets → ∃ before name condition rest,
    b.lines.toList = before ++ [⟨name, .branch condition error.label rest⟩] ∧ rest ≠ error.label
  /-- These branches are checks, one for each node that can leave the tape. -/
  error_iff_check : ∀ b ∈ F, error.label ∈ b.targets ↔ (check? b.lines.toList).isSome
  checks : (F.toList.filterMap fun b => check? b.lines.toList).Perm (Program.leftNodes p)

namespace Draft

variable {p : Program} {d d' : Draft}

/-- The name of the return block is taken only in the end. -/
theorem Reaches.nextName_returnBlock {checks : List Node} (h : ready.Reaches checks d) :
    d.nextName .returnBlock = ⟨.returnBlock, 0⟩ := by
  have hcount : d.names.count .returnBlock = 0 :=
    h.steps.count_eq fun _ hfit => hfit.1 (by decide)
  exact congrArg (Name.mk Stem.returnBlock) hcount

/-- The function when its end has been built. -/
theorem function_eq {last : Name} {b' : Builder} (hgrows : Builder.ready.Grows d.toBuilder)
    (h : d.Closed last b') : ∃ i j k l i' j' k' l' m n,
      b'.function.toList = d.bodyBlocks ++
        [⟨errorLabel, (faultLines i j k l (d.nextName .returnBlock)).toArray⟩,
          ⟨d.nextName .returnBlock, (returnLines last i' j' k' l' m n).toArray⟩] := by
  obtain ⟨i, j, k, l, hfault⟩ := h.fault
  obtain ⟨i', j', k', l', m, n, hback⟩ := h.back
  refine ⟨i, j, k, l, i', j', k', l', m, n, ?_⟩
  have hbody : ∀ i ∈ d.bodyNumbers, b'.blocks[i]? = d.left.blocks[i]? := by
    intro i hi
    obtain ⟨hne, hlt⟩ := (mem_bodyNumbers hgrows.size_le).mp hi
    exact h.others i hne (Nat.ne_of_lt hlt)
  change b'.order.filterMap (b'.blocks[·]?) = _
  rw [h.order_eq hgrows, List.filterMap_append]
  refine congrArg₂ _ (List.filterMap_congr hbody) ?_
  simp [hfault, hback]

/-- The form of a function whose sequence has been lowered and whose end has been built. -/
theorem exists_mainForm (hlower : Performs (Program.lower none p) (Program.leftNodes p) ready () d)
    (hclose : Builds Unrestricted close [] d () d') :
    ∃ body last error back, MainForm p d'.function body last error back := by
  have hgrows : Builder.ready.Grows d.toBuilder :=
    (growing_lower p none).grows Nat.zero_lt_two hlower.runs
  have hsize : 2 ≤ d.blocks.size := hgrows.size_le
  have hsound : d.Sound (Program.leftNodes p) := hlower.reaches.steps.sound sound_ready
  have hsound' := hclose.steps.sound hsound
  rw [List.append_nil] at hsound'
  have hlabel := hsound.filled.getElem?_labels
  obtain ⟨last, hlast, hclosed⟩ := closed_of_close hgrows hclose.runs
  obtain rfl : d.label = last := Option.some.inj (hlabel.symm.trans hlast)
  obtain ⟨i, j, k, l, i', j', k', l', m, n, hF⟩ := function_eq hgrows hclosed
  let error : Block := ⟨errorLabel, (faultLines i j k l (d.nextName .returnBlock)).toArray⟩
  let back : Block := ⟨d.nextName .returnBlock, (returnLines d.label i' j' k' l' m n).toArray⟩
  have hperm : d'.function.toList.Perm d'.blocks.toList :=
    d'.function_perm (hclosed.order_perm hgrows)
  have hmem {b : Block} : b ∈ d'.function ↔ b ∈ d.bodyBlocks ∨ b = error ∨ b = back := by
    rw [← Array.mem_toList_iff, hF]
    simp [error, back]
  have hthere {b : Block} (hb : b ∈ d'.function) : b ∈ d'.blocks :=
    Array.mem_toList_iff.mp (hperm.mem_iff.mp (Array.mem_toList_iff.mpr hb))
  refine ⟨d.bodyBlocks, d.lastBlock, error, back, ?_⟩
  constructor
  case blocks => exact hF
  case entry_label => exact head?_bodyBlocks hgrows
  case error_label => rfl
  case back_label =>
    change (d.nextName .returnBlock).text = _
    rw [hlower.reaches.nextName_returnBlock]
    rfl
  case lowered =>
    exact ⟨d.toBuilder, hlower.runs, labels_bodyBlocks hgrows,
      lastBlock_mem_bodyBlocks hsound.filled hsize (error_of_ready_grows hgrows).2, hlabel⟩
  case enters_back =>
    intro b hb
    constructor
    · intro htarget
      rcases hmem.mp hb with hb | rfl | rfl
      · exact Or.inr (hsound.eq_lastBlock hsize hb htarget)
      · exact Or.inl rfl
      · exact absurd htarget List.not_mem_nil
    · rintro (rfl | rfl)
      · exact List.mem_singleton_self _
      · exact d.mem_targets_lastBlock
  case back_lines => exact ⟨_, _, _, _, _, _, rfl⟩
  case frees_only_in_back =>
    intro b hb line hline hfrees
    rcases hmem.mp hb with hb | rfl | rfl
    · have hnot := (hlower.reaches.steps.linesFit sound_ready linesFit_ready).frees_bodyBlocks
        hsound.filled hsize hb line hline
      exact absurd (hnot.symm.trans hfrees) Bool.false_ne_true
    · exact absurd ((frees_faultLines line hline).symm.trans hfrees) Bool.false_ne_true
    · rfl
  case enters_error =>
    intro b hb htarget
    have hcheck := (hsound'.checked.mem_targets_iff (hthere hb)).mp htarget
    obtain ⟨node, hnode⟩ := Option.isSome_iff_exists.mp hcheck
    exact exists_branch_of_check? hnode
  case error_iff_check => exact fun b hb => hsound'.checked.mem_targets_iff (hthere hb)
  case checks =>
    rw [List.filterMap_eq_flatMap_toList]
    exact (hperm.flatMap_right _).trans hsound'.checked.all

end Draft

end IR

open IR IR.Draft

/-- **The function of a program is in single-assignment form, and always of the same shape.** -/
theorem Program.mainBlocks_form {p : Program} (hp : Program.every Node.isInstruction p = true) :
    ∃ F, (∀ name platform,
        Module.ofProgram name platform p = .ok ⟨name, .ofPlatform platform, F⟩) ∧
      SingleAssignment F ∧ ∃ body last error back, MainForm p F body last error back := by
  obtain ⟨d, hlower⟩ := Program.performs_lower p hp hosts_ready
  have hscope : d.scope errorLabel = {n | n ∈ slotNames} :=
    (hlower.reaches.steps.extends.scope errorLabel
      (named_ready.taken_of_knows hosts_ready.error)).trans scope_ready_errorLabel
  obtain ⟨d', hclose, hleft, hwaiting⟩ :=
    (hosts_ready.after hlower.reaches).exists_close hlower.reaches.waiting hscope
  have hsound := hclose.steps.sound (hlower.reaches.steps.sound sound_ready)
  have hgrows : Builder.ready.Grows d.toBuilder :=
    (growing_lower p none).grows Nat.zero_lt_two hlower.runs
  obtain ⟨last, _, hclosed⟩ := closed_of_close hgrows hclose.runs
  have hrun : p.mainBlocks = .ok d'.function := by
    have hbuilt : (Program.lower none p >>= fun _ => Build.close) .ready = .ok ((), d'.toBuilder) :=
      Build.bind_of_ok hlower.runs hclose.runs
    rw [Program.mainBlocks, StateT.run, IR.function_eq, hbuilt]
    rfl
  refine ⟨d'.function, fun name platform => ?_, ?_, exists_mainForm hlower hclose⟩
  · rw [Module.ofProgram, hrun]
    rfl
  · exact hsound.singleAssignment hleft hwaiting (d'.function_perm (hclosed.order_perm hgrows))
      (hclosed.first_eq hgrows)

/-- A multiplier is used behind an inner loop with a check. -/
theorem Program.mainBlocks_form_nested :
    Program.every Node.isInstruction
        [.loop [.moveLeft 1, .scaled [.loop [.scanLeft 2], .increment 5]], .carryLeft 3] = true ∧
      ∃ F, (∀ name platform, Module.ofProgram name platform
          [.loop [.moveLeft 1, .scaled [.loop [.scanLeft 2], .increment 5]], .carryLeft 3] =
            .ok ⟨name, .ofPlatform platform, F⟩) ∧
        SingleAssignment F ∧
        (F.toList.filterMap fun b => check? b.lines.toList).Perm
          [.moveLeft 1, .scanLeft 2, .carryLeft 3] := by
  have hp : Program.every Node.isInstruction
      [.loop [.moveLeft 1, .scaled [.loop [.scanLeft 2], .increment 5]], .carryLeft 3] = true := by
    decide
  obtain ⟨F, hmodule, hassignment, _, _, _, _, hform⟩ := Program.mainBlocks_form hp
  exact ⟨hp, F, hmodule, hassignment, hform.checks⟩

end Brainfuck
