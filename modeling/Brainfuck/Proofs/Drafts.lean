import Brainfuck.Proofs.MainFunction
import Brainfuck.Proofs.SingleAssignment

/-!
# Drafts of a function

A draft is a builder together with what a person would keep in mind who fills the blocks by hand: what
has been written in the current block so far, and whether it has been left; which blocks have been
created and still wait to be filled; and which values may be relied on where a block begins.

Everything that is done to a function under construction is one of four steps: a line is added, the
block is left, a block is created, a block that waits is entered.  What a step can do is said once, in
`Draft.Step`, with the conditions under which it is in order: an operation uses values that are there,
it goes to blocks that have been created, and the values that may be relied on in such a block are
there too.  `Draft.Sound` follows by induction over the steps.

In the end no block waits, and then the blocks are in single-assignment form, in whatever order they
stand as long as the first one comes first (`Draft.Sound.singleAssignment`).

* `Draft`, `Draft.Step`, `Draft.Steps`: drafts, and how they come about.
* `check?`: the node that the operation at the end of a block is a check for.
* `Draft.Sound`, `Draft.Steps.sound`: what is true of every draft.
-/

namespace Brainfuck.IR

/-! ## Checks -/

/-- The node whose failure a value says, from the lines up to that value, the last one first. -/
def failing? : List Line → Option Node
  | ⟨_, .call .moveLeftUntilZero [_, _, .int n]⟩ :: _ => some (.scanLeft n)
  | ⟨_, .call .moveValueLeft [_, _, .int n]⟩ :: _ => some (.carryLeft n)
  | ⟨_, .compare .slt .i64 (.reg target) (.int 0)⟩ :: ⟨name, .arith .sub .i64 _ (.int n)⟩ :: _ =>
    if target = name then some (.moveLeft n) else none
  | _ => none

/-- The node that the end of a block is a check for: it goes to the error block if what the line
before has computed says so, and elsewhere otherwise. -/
def check? (lines : List Line) : Option Node :=
  match lines.reverse with
  | ⟨_, .branch (.reg condition) yes no⟩ :: line :: before =>
    if yes = errorLabel ∧ no ≠ errorLabel ∧ line.name = condition then failing? (line :: before)
    else none
  | _ => none

/-- Only a branch to the error block is a check. -/
theorem exists_branch_of_check? {lines : List Line} {n : Node} (h : check? lines = some n) :
    ∃ before name condition rest,
      lines = before ++ [⟨name, .branch condition errorLabel rest⟩] ∧ rest ≠ errorLabel := by
  unfold check? at h
  split at h
  case h_1 name condition yes no line before hreverse =>
    split at h
    case isTrue hbranch =>
      obtain ⟨rfl, hno, -⟩ := hbranch
      refine ⟨(line :: before).reverse, name, .reg condition, no, ?_, hno⟩
      rw [← List.reverse_reverse lines, hreverse, List.reverse_cons]
    case isFalse => cases h
  case h_2 => cases h

/-- A block that has not been left is no check. -/
theorem check?_eq_none {lines : List Line} (h : ∀ l ∈ lines, l.op.isTerminator = false) :
    check? lines = none := by
  cases hcheck : check? lines with
  | none => rfl
  | some n =>
    obtain ⟨before, name, condition, rest, rfl, -⟩ := exists_branch_of_check? hcheck
    cases h _ (List.mem_append_right _ (List.mem_singleton_self _))

/-- What does not go to the error block is no check. -/
theorem check?_of_notMem_targets (lines : List Line) (name : Name) {op : Op}
    (h : errorLabel ∉ op.targets) : check? (lines ++ [⟨name, op⟩]) = none := by
  cases hcheck : check? (lines ++ [⟨name, op⟩]) with
  | none => rfl
  | some n =>
    obtain ⟨before, name', condition, rest, hlines, -⟩ := exists_branch_of_check? hcheck
    obtain ⟨-, hlast⟩ := List.append_inj' hlines rfl
    injection hlast with hline
    injection hline with _ hop
    subst hop
    exact absurd List.mem_cons_self h

/-- A branch to the error block on the value of the line before. -/
theorem check?_of_branch (lines : List Line) (line : Line) (name : Name) {rest : Name}
    (h : rest ≠ errorLabel) :
    check? (lines ++ [line] ++ [⟨name, .branch (.reg line.name) errorLabel rest⟩]) =
      failing? (line :: lines.reverse) := by
  unfold check?
  simp [h]

/-! ## Drafts -/

/-- A builder with what is known about its blocks. -/
structure Draft extends Builder where
  /-- The label of the block that is being filled. -/
  label : Name
  /-- The lines of the block that is being filled. -/
  lines : List Line
  /-- Whether that block has not been left yet. -/
  isOpen : Bool
  /-- Blocks that have been created and not been entered yet. -/
  waiting : List BlockRef
  /-- The values that may be relied on where a block begins. -/
  scope : Name → Set Name

namespace Draft

/-- A value that can be used in the next line. -/
def Sees (d : Draft) (n : Name) : Prop := n ∈ d.scope d.label ∨ n ∈ values d.lines

/-- A label of a block that has been created. -/
def Knows (d : Draft) (l : Name) : Prop := l ∈ d.labels

/-- A line has been added. -/
def emit (d : Draft) (s : Stem) (op : Op) : Draft where
  toBuilder := d.emitted s op
  label := d.label
  lines := d.lines ++ [⟨d.nextName s, op⟩]
  isOpen := d.isOpen
  waiting := d.waiting
  scope := d.scope

/-- The block has been left. -/
def terminate (d : Draft) (op : Op) : Draft := { d.emit .unused op with isOpen := false }

/-- A block has been created, behind so many of the others, in which the given values may be relied
on. -/
def create (d : Draft) (position : Nat) (s : Stem) (known : Set Name) : Draft where
  toBuilder := d.inserted position s
  label := d.label
  lines := d.lines
  isOpen := d.isOpen
  waiting := ⟨d.nextName s, d.blocks.size⟩ :: d.waiting
  scope := Function.update d.scope (d.nextName s) known

/-- A block has been entered. -/
def enter (d : Draft) (r : BlockRef) (waiting : List BlockRef) : Draft where
  toBuilder := d.entered r.index
  label := r.label
  lines := []
  isOpen := true
  waiting := waiting
  scope := d.scope

/-- A step in the construction of a function, with stems and operations of a certain kind, and the
checks that it adds. -/
inductive Step (fits : Stem → Option Op → Prop) : List Node → Draft → Draft → Prop where
  | emit {d : Draft} {s : Stem} {op : Op} (going : d.isOpen = true) (fit : fits s (some op))
      (stays : op.isTerminator = false) (uses : ∀ n ∈ op.uses, d.Sees n) :
      Step fits [] d (d.emit s op)
  | terminate {d : Draft} {op : Op} (going : d.isOpen = true) (fit : fits .unused (some op))
      (leaves : op.isTerminator = true) (uses : ∀ n ∈ op.uses, d.Sees n)
      (targets : ∀ l ∈ op.targets, d.Knows l ∧ ∀ n ∈ d.scope l, d.Sees n)
      (check : errorLabel ∈ op.targets → (check? (d.terminate op).lines).isSome) :
      Step fits (check? (d.terminate op).lines).toList d (d.terminate op)
  | create {d : Draft} {position : Nat} {s : Stem} {known : Set Name} (fit : fits s none)
      (sees : ∀ n ∈ known, d.Sees n) : Step fits [] d (d.create position s known)
  | enter {d : Draft} {r : BlockRef} {rest : List BlockRef} (left : d.isOpen = false)
      (waits : d.waiting.Perm (r :: rest)) : Step fits [] d (d.enter r rest)

/-- Steps one after another, and the checks that they add. -/
inductive Steps (fits : Stem → Option Op → Prop) : List Node → Draft → Draft → Prop where
  | refl (d : Draft) : Steps fits [] d d
  | tail {checks checks' : List Node} {d d₁ d' : Draft} (h : Steps fits checks d d₁)
      (last : Step fits checks' d₁ d') : Steps fits (checks ++ checks') d d'

variable {fits : Stem → Option Op → Prop} {checks checks' : List Node} {d d₁ d' : Draft}

namespace Steps

theorem one (h : Step fits checks d d') : Steps fits checks d d' := (refl d).tail h

theorem trans (h : Steps fits checks d d₁) (h' : Steps fits checks' d₁ d') :
    Steps fits (checks ++ checks') d d' := by
  induction h' with
  | refl => rwa [List.append_nil]
  | tail _ last ih =>
    rw [← List.append_assoc]
    exact (ih h).tail last

end Steps

/-! ## What is kept -/

/-- What was known of labels stays known. -/
structure Extends (d d' : Draft) : Prop where
  names : d.names.Within d'.names
  knows : ∀ l, d.Knows l → d'.Knows l
  scope : ∀ l, d.names.Taken l → d'.scope l = d.scope l

theorem Extends.refl (d : Draft) : d.Extends d := ⟨fun _ => Nat.le_refl _, fun _ h => h, fun _ _ => rfl⟩

theorem Extends.trans (h : d.Extends d₁) (h' : d₁.Extends d') : d.Extends d' where
  names s := Nat.le_trans (h.names s) (h'.names s)
  knows l hl := h'.knows l (h.knows l hl)
  scope l hl := (h'.scope l (h.names.taken hl)).trans (h.scope l hl)

theorem extends_emit (d : Draft) (s : Stem) (op : Op) : d.Extends (d.emit s op) where
  names := d.names.within_take s
  knows l hl := by
    unfold Knows
    rw [show (d.emit s op).labels = d.labels from d.labels_emitted s op]
    exact hl
  scope _ _ := rfl

theorem labels_create (d : Draft) (position : Nat) (s : Stem) (known : Set Name) :
    (d.create position s known).labels = d.labels ++ [d.nextName s] :=
  d.labels_inserted position s

theorem scope_create_of_ne {l : Name} {s : Stem} (h : l ≠ d.nextName s) (position : Nat)
    (known : Set Name) : (d.create position s known).scope l = d.scope l :=
  Function.update_of_ne h _ _

theorem extends_create (d : Draft) (position : Nat) (s : Stem) (known : Set Name) :
    d.Extends (d.create position s known) where
  names := d.names.within_take s
  knows l hl := by
    unfold Knows
    rw [labels_create]
    exact List.mem_append_left _ hl
  scope l hl := by
    refine scope_create_of_ne ?_ position known
    rintro rfl
    exact d.names.not_taken_take s hl

theorem Step.extends (h : Step fits checks d d') : d.Extends d' := by
  cases h with
  | emit => exact extends_emit d _ _
  | @terminate _ op =>
    have h := extends_emit d .unused op
    exact ⟨h.names, h.knows, h.scope⟩
  | create => exact extends_create d _ _ _
  | enter => exact ⟨fun _ => Nat.le_refl _, fun _ h => h, fun _ _ => rfl⟩

theorem Steps.extends (h : Steps fits checks d d') : d.Extends d' := by
  induction h with
  | refl d => exact .refl d
  | tail _ last ih => exact ih.trans last.extends

/-! ## Blocks -/

/-- Which blocks have been filled: the current one as far as it has been left, those that wait not at
all, and all others to the end. -/
structure Filled (d : Draft) : Prop where
  current : d.blocks[d.current]? = some ⟨d.label, d.lines.toArray⟩
  going : d.isOpen = true → ∀ l ∈ d.lines, l.op.isTerminator = false
  left : d.isOpen = false → Block.Terminated ⟨d.label, d.lines.toArray⟩
  waiting : ∀ r ∈ d.waiting, d.Empty r ∧ r.index ≠ d.current
  apart : (d.waiting.map BlockRef.index).Nodup
  others : ∀ (i : Nat) (block : Block), d.blocks[i]? = some block → i ≠ d.current →
    (∀ r ∈ d.waiting, r.index ≠ i) → block.Terminated

theorem getElem?_emit (h : d.blocks[d.current]? = some ⟨d.label, d.lines.toArray⟩) (s : Stem) (op : Op)
    (i : Nat) :
    (d.emit s op).blocks[i]? =
      if d.current = i then some ⟨d.label, (d.emit s op).lines.toArray⟩ else d.blocks[i]? := by
  change (d.emitted s op).blocks[i]? = _
  rw [Builder.getElem?_emitted]
  by_cases hi : d.current = i
  · subst hi
    rw [if_pos rfl, if_pos rfl, h, Option.map_some]
    simp only [emit, List.push_toArray]
  · rw [if_neg hi, if_neg hi]

namespace Filled

theorem emit (h : d.Filled) {s : Stem} {op : Op} (hgoing : d.isOpen = true)
    (hstays : op.isTerminator = false) : (d.emit s op).Filled where
  current := by
    rw [getElem?_emit h.current]
    exact if_pos rfl
  going _ l hl := by
    rcases List.mem_append.mp hl with hl | hl
    · exact h.going hgoing l hl
    · rwa [List.mem_singleton.mp hl]
  left hleft := absurd (hgoing.symm.trans hleft) (by decide)
  waiting r hr := by
    refine ⟨?_, (h.waiting r hr).2⟩
    rw [Builder.Empty, getElem?_emit h.current, if_neg (h.waiting r hr).2.symm]
    exact (h.waiting r hr).1
  apart := h.apart
  others i block hblock hi := by
    have hne : d.current ≠ i := Ne.symm hi
    rw [getElem?_emit h.current, if_neg hne] at hblock
    exact h.others i block hblock hi

theorem terminate (h : d.Filled) {op : Op} (hgoing : d.isOpen = true)
    (hleaves : op.isTerminator = true) : (d.terminate op).Filled where
  current := by
    change (d.emit .unused op).blocks[d.current]? = _
    rw [getElem?_emit h.current]
    exact if_pos rfl
  going hgoing := absurd hgoing Bool.false_ne_true
  left _ := ⟨d.lines, ⟨d.nextName .unused, op⟩, rfl, hleaves, h.going hgoing⟩
  waiting r hr := by
    refine ⟨?_, (h.waiting r hr).2⟩
    change (d.emit .unused op).blocks[r.index]? = _
    rw [getElem?_emit h.current, if_neg (h.waiting r hr).2.symm]
    exact (h.waiting r hr).1
  apart := h.apart
  others i block hblock hi := by
    have hne : d.current ≠ i := Ne.symm hi
    change (d.emit .unused op).blocks[i]? = _ at hblock
    rw [getElem?_emit h.current, if_neg hne] at hblock
    exact h.others i block hblock hi

theorem create (h : d.Filled) (position : Nat) (s : Stem) (known : Set Name) :
    (d.create position s known).Filled := by
  have hlt : d.current < d.blocks.size := (Array.getElem?_eq_some_iff.mp h.current).1
  have hget (i : Nat) : (d.create position s known).blocks[i]? =
      if i = d.blocks.size then some ⟨d.nextName s, #[]⟩ else d.blocks[i]? :=
    d.getElem?_inserted position s i
  constructor
  case current =>
    rw [hget]
    exact (if_neg (Nat.ne_of_lt hlt)).trans h.current
  case going => exact h.going
  case left => exact h.left
  case waiting =>
    intro r hr
    rcases List.mem_cons.mp hr with rfl | hr
    · exact ⟨(hget _).trans (if_pos rfl), Nat.ne_of_gt hlt⟩
    · obtain ⟨hempty, hne⟩ := h.waiting r hr
      exact ⟨(hget _).trans ((if_neg (Nat.ne_of_lt hempty.lt)).trans hempty), hne⟩
  case apart =>
    refine List.nodup_cons.mpr ⟨fun hmem => ?_, h.apart⟩
    obtain ⟨r, hr, hindex⟩ := List.mem_map.mp hmem
    exact absurd hindex (Nat.ne_of_lt (h.waiting r hr).1.lt)
  case others =>
    intro i block hblock hi hwaits
    have hne : i ≠ d.blocks.size := fun heq => hwaits _ List.mem_cons_self heq.symm
    rw [hget, if_neg hne] at hblock
    exact h.others i block hblock hi fun r hr => hwaits r (List.mem_cons_of_mem _ hr)

theorem enter (h : d.Filled) {r : BlockRef} {rest : List BlockRef} (hleft : d.isOpen = false)
    (hwaits : d.waiting.Perm (r :: rest)) : (d.enter r rest).Filled := by
  have hmem {r' : BlockRef} (hr' : r' ∈ r :: rest) := h.waiting r' (hwaits.mem_iff.mpr hr')
  have hapart := (hwaits.map BlockRef.index).nodup_iff.mp h.apart
  obtain ⟨hnot, hapart⟩ := List.nodup_cons.mp hapart
  constructor
  case current => exact (hmem List.mem_cons_self).1
  case going => exact fun _ l hl => absurd hl List.not_mem_nil
  case left => exact fun hleft => absurd hleft.symm Bool.false_ne_true
  case waiting =>
    intro r' hr'
    refine ⟨(hmem (List.mem_cons_of_mem _ hr')).1, fun heq => hnot ?_⟩
    exact List.mem_map.mpr ⟨r', hr', heq⟩
  case apart => exact hapart
  case others =>
    intro i block hblock hi hwaits'
    by_cases hcurrent : i = d.current
    · subst hcurrent
      obtain rfl := Option.some.inj (h.current.symm.trans hblock)
      exact h.left hleft
    · refine h.others i block hblock hcurrent fun r' hr' => ?_
      rcases List.mem_cons.mp (hwaits.mem_iff.mp hr') with rfl | hr'
      · exact Ne.symm hi
      · exact hwaits' r' hr'

end Filled

theorem Step.filled (h : Step fits checks d d') (hd : d.Filled) : d'.Filled := by
  cases h with
  | emit going _ stays _ => exact hd.emit going stays
  | terminate going _ leaves _ _ _ => exact hd.terminate going leaves
  | create => exact hd.create _ _ _
  | enter left waits => exact hd.enter left waits

/-- A block of the draft with one more line: one of those that were there, or the current one. -/
theorem mem_blocks_emit (hd : d.Filled) {s : Stem} {op : Op} {block : Block}
    (h : block ∈ (d.emit s op).blocks) :
    block ∈ d.blocks ∨ block = ⟨d.label, (d.emit s op).lines.toArray⟩ := by
  obtain ⟨i, hi⟩ := Array.mem_iff_getElem?.mp h
  rw [getElem?_emit hd.current] at hi
  split at hi
  case isTrue => exact Or.inr (Option.some.inj hi).symm
  case isFalse => exact Or.inl (Array.mem_of_getElem? hi)

theorem mem_blocks_create {position : Nat} {s : Stem} {known : Set Name} {block : Block}
    (h : block ∈ (d.create position s known).blocks) :
    block ∈ d.blocks ∨ block = ⟨d.nextName s, #[]⟩ :=
  Array.mem_push.mp h

/-! ## Names -/

/-- Something that is collected from all blocks, of which one is changed. -/
theorem perm_flatMap_modify {α β : Type} {g : α → List β} {f : α → α} {extra : List β} {a : α} :
    ∀ {l : List α} {i : Nat}, l[i]? = some a → (g (f a)).Perm (extra ++ g a) →
      ((l.modify i f).flatMap g).Perm (extra ++ l.flatMap g)
  | [], _, h, _ => nomatch h
  | x :: l, 0, h, hg => by
    obtain rfl := Option.some.inj h
    rw [List.modify_zero_cons, List.flatMap_cons, List.flatMap_cons, ← List.append_assoc]
    exact hg.append_right _
  | x :: l, i + 1, h, hg => by
    have htail : l[i]? = some a := h
    rw [List.modify_succ_cons, List.flatMap_cons, List.flatMap_cons]
    refine ((perm_flatMap_modify htail hg).append_left _).trans ?_
    rw [← List.append_assoc, ← List.append_assoc]
    exact List.perm_append_comm.append_right _

/-- The labels of the blocks and the names of their lines. -/
def allNames (d : Draft) : List Name := d.blocks.toList.flatMap Block.names

theorem allNames_emit (hd : d.Filled) (s : Stem) (op : Op) :
    (d.emit s op).allNames.Perm (d.nextName s :: d.allNames) := by
  have hcurrent : d.blocks.toList[d.current]? = some ⟨d.label, d.lines.toArray⟩ :=
    Array.getElem?_toList.trans hd.current
  have hblocks : (d.emit s op).blocks.toList = d.blocks.toList.modify d.current fun block =>
      { block with lines := block.lines.push ⟨d.nextName s, op⟩ } := Array.toList_modify ..
  have hname : (Block.names ⟨d.label, d.lines.toArray.push ⟨d.nextName s, op⟩⟩).Perm
      ([d.nextName s] ++ Block.names ⟨d.label, d.lines.toArray⟩) := by
    simp only [Block.names, List.push_toArray, List.map_append, List.map_cons, List.map_nil,
      ← List.cons_append]
    exact List.perm_append_comm
  rw [allNames, allNames, hblocks, ← List.singleton_append]
  exact perm_flatMap_modify hcurrent hname

theorem allNames_create (d : Draft) (position : Nat) (s : Stem) (known : Set Name) :
    (d.create position s known).allNames.Perm (d.nextName s :: d.allNames) := by
  change ((d.blocks.push ⟨d.nextName s, #[]⟩).toList.flatMap Block.names).Perm _
  rw [Array.toList_push, List.flatMap_append]
  exact List.perm_append_singleton _ _

/-- Every name has been given away once. -/
structure Named (d : Draft) : Prop where
  nodup : d.allNames.Nodup
  taken : ∀ n ∈ d.allNames, d.names.Taken n

namespace Named

/-- One more name, for whatever it is. -/
theorem take (h : d.Named) {s : Stem} (hnames : d'.names = (d.names.take s).2)
    (hall : d'.allNames.Perm (d.nextName s :: d.allNames)) : d'.Named where
  nodup := by
    refine hall.nodup_iff.mpr (List.nodup_cons.mpr ⟨fun hmem => ?_, h.nodup⟩)
    exact d.names.not_taken_take s (h.taken _ hmem)
  taken n hn := by
    rw [hnames]
    rcases List.mem_cons.mp (hall.mem_iff.mp hn) with rfl | hn
    · exact d.names.taken_take s
    · exact (d.names.within_take s).taken (h.taken n hn)

theorem taken_of_knows (h : d.Named) {l : Name} (hl : d.Knows l) : d.names.Taken l := by
  obtain ⟨block, hblock, rfl⟩ := List.mem_map.mp hl
  exact h.taken _ (List.mem_flatMap.mpr ⟨block, hblock, List.mem_cons_self⟩)

end Named

theorem Step.named (h : Step fits checks d d') (hfilled : d.Filled) (hd : d.Named) : d'.Named := by
  cases h with
  | @emit _ s op => exact hd.take rfl (allNames_emit hfilled s op)
  | @terminate _ op => exact hd.take rfl (allNames_emit hfilled .unused op)
  | create => exact hd.take rfl (allNames_create d _ _ _)
  | enter => exact ⟨hd.nodup, hd.taken⟩

/-! ## Values -/

/-- A line in a block, behind other lines, that uses what is there and goes where that is enough. -/
structure LineOk (d : Draft) (label : Name) (before : List Line) (line : Line) : Prop where
  uses : ∀ n ∈ line.op.uses, n ∈ d.scope label ∨ n ∈ values before
  targets : ∀ l ∈ line.op.targets,
    d.Knows l ∧ ∀ n ∈ d.scope l, n ∈ d.scope label ∨ n ∈ values before
  fresh : line.name ∉ d.scope label

theorem LineOk.extends {label : Name} {before : List Line} {line : Line}
    (h : d.LineOk label before line) (hext : d.Extends d') (hnamed : d.Named)
    (hlabel : d.Knows label) : d'.LineOk label before line := by
  have hscope : d'.scope label = d.scope label := hext.scope label (hnamed.taken_of_knows hlabel)
  constructor
  case uses =>
    rw [hscope]
    exact h.uses
  case targets =>
    intro l hl
    obtain ⟨hknows, hn⟩ := h.targets l hl
    rw [hscope, hext.scope l (hnamed.taken_of_knows hknows)]
    exact ⟨hext.knows l hknows, hn⟩
  case fresh =>
    rw [hscope]
    exact h.fresh

/-- Values are used where they are there. -/
structure Scoped (d : Draft) : Prop where
  lines : ∀ block ∈ d.blocks, ∀ before line after, block.lines.toList = before ++ line :: after →
    d.LineOk block.label before line
  known : ∀ l, d.Knows l → ∀ n ∈ d.scope l, ∃ block ∈ d.blocks, n ∈ values block.lines.toList
  start : ∀ block, d.blocks[0]? = some block → d.scope block.label = ∅

theorem knows_label {block : Block} (h : block ∈ d.blocks) : d.Knows block.label :=
  List.mem_map_of_mem (Array.mem_toList_iff.mpr h)

theorem Filled.mem (h : d.Filled) : (⟨d.label, d.lines.toArray⟩ : Block) ∈ d.blocks :=
  Array.mem_of_getElem? h.current

namespace Scoped

/-- Nothing of this depends on where the construction goes on. -/
theorem congr (h : d.Scoped) (hblocks : d'.blocks = d.blocks) (hscope : d'.scope = d.scope) :
    d'.Scoped := by
  have hknows (l : Name) : d'.Knows l ↔ d.Knows l := by
    unfold Knows Builder.labels
    rw [hblocks]
  constructor
  case lines =>
    intro block hblock before line after hlines
    have hok := h.lines block (hblocks ▸ hblock) before line after hlines
    refine ⟨hscope ▸ hok.uses, fun l hl => ?_, hscope ▸ hok.fresh⟩
    rw [hknows, hscope]
    exact hok.targets l hl
  case known =>
    intro l hl
    rw [hscope, hblocks]
    exact h.known l ((hknows l).mp hl)
  case start =>
    intro block hblock
    rw [hscope]
    exact h.start block (hblocks ▸ hblock)

/-- What can be used has been computed in some block. -/
theorem exists_of_sees (h : d.Scoped) (hfilled : d.Filled) {n : Name} (hn : d.Sees n) :
    ∃ block ∈ d.blocks, n ∈ values block.lines.toList := by
  rcases hn with hn | hn
  · exact h.known d.label (knows_label hfilled.mem) n hn
  · exact ⟨_, hfilled.mem, hn⟩

/-- The name of a new line is not that of a value one can rely on. -/
theorem nextName_notMem (h : d.Scoped) (hnamed : d.Named) {l : Name} (hl : d.Knows l) (s : Stem) :
    d.nextName s ∉ d.scope l := by
  intro hmem
  obtain ⟨block, hblock, hn⟩ := h.known l hl _ hmem
  refine d.names.not_taken_take s (hnamed.taken _ ?_)
  exact List.mem_flatMap.mpr ⟨block, Array.mem_toList_iff.mpr hblock, Block.mem_names_of_mem_values hn⟩

/-- A new line that is in order. -/
theorem emit (h : d.Scoped) (hfilled : d.Filled) (hnamed : d.Named) {s : Stem} {op : Op}
    (huses : ∀ n ∈ op.uses, d.Sees n)
    (htargets : ∀ l ∈ op.targets, d.Knows l ∧ ∀ n ∈ d.scope l, d.Sees n) :
    (d.emit s op).Scoped := by
  have hext := extends_emit d s op
  have hlabels : (d.emit s op).labels = d.labels := d.labels_emitted s op
  have hknows {l : Name} (hl : (d.emit s op).Knows l) : d.Knows l := by
    unfold Knows at hl
    rwa [hlabels] at hl
  constructor
  case lines =>
    intro block hblock before line after hlines
    rcases mem_blocks_emit hfilled hblock with hold | rfl
    · exact (h.lines block hold before line after hlines).extends hext hnamed (knows_label hold)
    · have hlabel := knows_label hfilled.mem
      -- the new line is the last one, or the line stood there before
      rcases List.eq_nil_or_concat after with rfl | ⟨after, last, rfl⟩
      · have hlast : d.lines ++ [⟨d.nextName s, op⟩] = before ++ [line] := hlines
        obtain ⟨rfl, hline⟩ := List.append_inj' hlast rfl
        obtain rfl := (List.cons.inj hline).1
        have hok : d.LineOk d.label d.lines ⟨d.nextName s, op⟩ :=
          ⟨huses, htargets, h.nextName_notMem hnamed hlabel s⟩
        exact hok.extends hext hnamed hlabel
      · rw [List.concat_eq_append, ← List.cons_append, ← List.append_assoc] at hlines
        have hold := (List.append_inj' hlines rfl).1
        exact (h.lines _ hfilled.mem before line after hold).extends hext hnamed hlabel
  case known =>
    intro l hl n hn
    obtain ⟨block, hblock, hvalue⟩ := h.known l (hknows hl) n hn
    obtain ⟨block', hblock', -, more, hmore⟩ := d.contained_emitted s op block hblock
    refine ⟨block', hblock', ?_⟩
    rw [← hmore, values_append]
    exact List.mem_append_left _ hvalue
  case start =>
    intro block hblock
    rw [getElem?_emit hfilled.current] at hblock
    split at hblock
    case isTrue heq =>
      obtain rfl := Option.some.inj hblock
      exact h.start ⟨d.label, d.lines.toArray⟩ (heq ▸ hfilled.current)
    case isFalse => exact h.start block hblock

theorem create (h : d.Scoped) (hfilled : d.Filled) (hnamed : d.Named) {position : Nat} {s : Stem}
    {known : Set Name} (hsees : ∀ n ∈ known, d.Sees n) : (d.create position s known).Scoped := by
  have hext := extends_create d position s known
  constructor
  case lines =>
    intro block hblock before line after hlines
    rcases mem_blocks_create hblock with hold | rfl
    · exact (h.lines block hold before line after hlines).extends hext hnamed (knows_label hold)
    · simp at hlines
  case known =>
    intro l hl n hn
    suffices hbefore : ∃ block ∈ d.blocks, n ∈ values block.lines.toList by
      obtain ⟨block, hblock, hvalue⟩ := hbefore
      exact ⟨block, Array.mem_push_of_mem _ hblock, hvalue⟩
    by_cases hnew : l = d.nextName s
    · subst hnew
      have hscope : (d.create position s known).scope (d.nextName s) = known :=
        Function.update_self ..
      rw [hscope] at hn
      exact h.exists_of_sees hfilled (hsees n hn)
    · rw [scope_create_of_ne hnew] at hn
      unfold Knows at hl
      rw [labels_create, List.mem_append, List.mem_singleton] at hl
      exact h.known l (hl.resolve_right hnew) n hn
  case start =>
    intro block hblock
    have hlt : 0 < d.blocks.size :=
      Nat.lt_of_le_of_lt (Nat.zero_le _) (Array.getElem?_eq_some_iff.mp hfilled.current).1
    have hold : d.blocks[0]? = some block := by
      rw [← hblock]
      exact ((d.getElem?_inserted position s 0).trans (if_neg (Nat.ne_of_lt hlt))).symm
    have htaken := hnamed.taken_of_knows (knows_label (Array.mem_of_getElem? hold))
    rw [hext.scope _ htaken]
    exact h.start block hold

end Scoped

theorem Step.scoped (h : Step fits checks d d') (hfilled : d.Filled) (hnamed : d.Named)
    (hd : d.Scoped) : d'.Scoped := by
  cases h with
  | emit _ _ stays uses =>
    refine hd.emit hfilled hnamed uses fun l hl => ?_
    rw [Op.targets_eq_nil stays] at hl
    exact absurd hl List.not_mem_nil
  | terminate _ _ _ uses targets _ =>
    exact (hd.emit (s := .unused) hfilled hnamed uses targets).congr rfl rfl
  | create _ sees => exact hd.create hfilled hnamed sees
  | enter => exact hd.congr rfl rfl

/-! ## Checks and lines -/

/-- Which blocks are checks, and that no other block goes to the error block. -/
structure Checked (checks : List Node) (d : Draft) : Prop where
  all : (d.blocks.toList.flatMap fun b => (check? b.lines.toList).toList).Perm checks
  only : ∀ block ∈ d.blocks, errorLabel ∈ block.targets → (check? block.lines.toList).isSome

/-- The nodes that the current block is a check for, with one more line. -/
theorem Checked.emit {known : List Node} (hd : d.Checked known) (hfilled : d.Filled)
    (hgoing : d.isOpen = true) {s : Stem} {op : Op}
    (hcheck : errorLabel ∈ op.targets → (check? (d.emit s op).lines).isSome) :
    (d.emit s op).Checked (known ++ (check? (d.emit s op).lines).toList) := by
  have hcurrent : d.blocks.toList[d.current]? = some ⟨d.label, d.lines.toArray⟩ :=
    Array.getElem?_toList.trans hfilled.current
  have hblocks : (d.emit s op).blocks.toList = d.blocks.toList.modify d.current fun block =>
      { block with lines := block.lines.push ⟨d.nextName s, op⟩ } := Array.toList_modify ..
  constructor
  case all =>
    have hnone : check? d.lines = none := check?_eq_none (hfilled.going hgoing)
    have hnew : (check? (d.lines.toArray.push ⟨d.nextName s, op⟩).toList).toList.Perm
        ((check? (d.emit s op).lines).toList ++ (check? d.lines.toArray.toList).toList) := by
      rw [hnone, Option.toList_none, List.append_nil, List.push_toArray]
      rfl
    rw [hblocks]
    exact ((perm_flatMap_modify hcurrent hnew).trans List.perm_append_comm).trans
      (hd.all.append_right _)
  case only =>
    intro block hblock htarget
    rcases mem_blocks_emit hfilled hblock with hold | rfl
    · exact hd.only block hold htarget
    · -- before the block is left, none of its lines goes anywhere
      obtain ⟨line, hline, hl⟩ := List.mem_flatMap.mp htarget
      rcases List.mem_append.mp hline with hline | hline
      · rw [Op.targets_eq_nil (hfilled.going hgoing line hline)] at hl
        exact absurd hl List.not_mem_nil
      · obtain rfl := List.mem_singleton.mp hline
        exact hcheck hl

theorem Step.checked {known : List Node} (h : Step fits checks d d') (hfilled : d.Filled)
    (hd : d.Checked known) : d'.Checked (known ++ checks) := by
  cases h with
  | @emit _ s op going _ stays _ =>
    have hnone : check? (d.emit s op).lines = none :=
      check?_eq_none ((hfilled.emit going stays).going going)
    have hemit : (d.emit s op).Checked _ := hd.emit hfilled going fun hl => by
      rw [Op.targets_eq_nil stays] at hl
      exact absurd hl List.not_mem_nil
    rwa [hnone] at hemit
  | terminate going _ _ _ _ check =>
    have hemit := hd.emit hfilled going check
    exact ⟨hemit.all, hemit.only⟩
  | @create _ _ s =>
    rw [List.append_nil]
    refine ⟨?_, fun block hblock htarget => ?_⟩
    · change ((d.blocks.push ⟨d.nextName s, #[]⟩).toList.flatMap _).Perm known
      rw [Array.toList_push, List.flatMap_append]
      refine .trans ?_ hd.all
      rw [show [(⟨d.nextName s, #[]⟩ : Block)].flatMap (fun b => (check? b.lines.toList).toList) = []
        from rfl, List.append_nil]
    · rcases mem_blocks_create hblock with hold | rfl
      · exact hd.only block hold htarget
      · exact absurd htarget List.not_mem_nil
  | enter =>
    rw [List.append_nil]
    exact ⟨hd.all, hd.only⟩

/-- All lines are of a certain kind. -/
def LinesFit (fits : Stem → Option Op → Prop) (d : Draft) : Prop :=
  ∀ block ∈ d.blocks, ∀ line ∈ block.lines.toList, fits line.name.stem (some line.op)

theorem LinesFit.emit (hd : d.LinesFit fits) (hfilled : d.Filled) {s : Stem} {op : Op}
    (hfit : fits s (some op)) : (d.emit s op).LinesFit fits := by
  intro block hblock line hline
  rcases mem_blocks_emit hfilled hblock with hold | rfl
  · exact hd block hold line hline
  · rcases List.mem_append.mp hline with hline | hline
    · exact hd _ hfilled.mem line hline
    · obtain rfl := List.mem_singleton.mp hline
      exact hfit

theorem Step.linesFit (h : Step fits checks d d') (hfilled : d.Filled) (hd : d.LinesFit fits) :
    d'.LinesFit fits := by
  cases h with
  | emit _ fit => exact hd.emit hfilled fit
  | terminate _ fit => exact hd.emit hfilled fit
  | enter => exact hd
  | create =>
    intro block hblock line hline
    rcases mem_blocks_create hblock with hold | rfl
    · exact hd block hold line hline
    · exact absurd hline List.not_mem_nil

/-! ## Soundness -/

/-- A draft whose blocks are in order as far as they have been filled, with certain checks. -/
structure Sound (checks : List Node) (d : Draft) : Prop where
  filled : d.Filled
  named : d.Named
  scoping : d.Scoped
  checked : d.Checked checks

theorem Step.sound {known : List Node} (h : Step fits checks d d') (hd : d.Sound known) :
    d'.Sound (known ++ checks) where
  filled := h.filled hd.filled
  named := h.named hd.filled hd.named
  scoping := h.scoped hd.filled hd.named hd.scoping
  checked := h.checked hd.filled hd.checked

theorem Steps.sound {known : List Node} (h : Steps fits checks d d') (hd : d.Sound known) :
    d'.Sound (known ++ checks) := by
  induction h with
  | refl => rwa [List.append_nil]
  | tail _ last ih =>
    rw [← List.append_assoc]
    exact last.sound (ih hd)

theorem Steps.linesFit {known : List Node} (h : Steps fits checks d d') (hsound : d.Sound known)
    (hd : d.LinesFit fits) : d'.LinesFit fits := by
  induction h with
  | refl => exact hd
  | tail h last ih => exact last.linesFit (h.sound hsound).filled (ih hsound hd)

/-- A stem of which no name has been taken. -/
theorem Steps.count_eq {s : Stem} (h : Steps fits checks d d') (hfits : ∀ op, ¬ fits s op) :
    d'.names.count s = d.names.count s := by
  have htake {d : Draft} {s' : Stem} {op : Option Op} (hfit : fits s' op) :
      (d.names.take s').2.count s = d.names.count s := by
    rw [NameTable.count_take, if_neg]
    rintro rfl
    exact hfits op hfit
  induction h with
  | refl => rfl
  | tail _ last ih =>
    cases last with
    | emit _ fit | terminate _ fit | create fit => exact (htake fit).trans ih
    | enter => exact ih

/-- What a line needs where it goes, as what its block needs. -/
theorem Sound.knows_of_mem_targets (h : d.Sound checks) {block : Block} (hblock : block ∈ d.blocks)
    {l : Name} (hl : l ∈ block.targets) :
    d.Knows l ∧ ∀ n ∈ d.scope l, n ∈ d.scope block.label ∨ n ∈ values block.lines.toList := by
  obtain ⟨line, hline, hl⟩ := List.mem_flatMap.mp hl
  obtain ⟨before, after, hlines⟩ := List.append_of_mem hline
  obtain ⟨hknows, hn⟩ := (h.scoping.lines block hblock before line after hlines).targets l hl
  refine ⟨hknows, fun n hmem => (hn n hmem).imp_right fun hvalue => ?_⟩
  rw [hlines, values_append]
  exact List.mem_append_left _ hvalue

/-- In a finished draft every block has been left. -/
theorem Filled.terminated (h : d.Filled) (hleft : d.isOpen = false) (hwaiting : d.waiting = [])
    {block : Block} (hblock : block ∈ d.blocks) : block.Terminated := by
  obtain ⟨i, hi⟩ := Array.mem_iff_getElem?.mp hblock
  by_cases hcurrent : i = d.current
  · subst hcurrent
    obtain rfl := Option.some.inj (h.current.symm.trans hi)
    exact h.left hleft
  · refine h.others i block hi hcurrent fun r hr => ?_
    rw [hwaiting] at hr
    exact absurd hr List.not_mem_nil

/-- **The blocks of a finished draft are in single-assignment form**, also in another order, if the
first one stays the first. -/
theorem Sound.singleAssignment (h : d.Sound checks) (hleft : d.isOpen = false)
    (hwaiting : d.waiting = []) {F : Array Block} (hperm : F.toList.Perm d.blocks.toList)
    (hfirst : F[0]? = d.blocks[0]?) : SingleAssignment F := by
  have hmem {block : Block} : block ∈ F ↔ block ∈ d.blocks := by
    rw [← Array.mem_toList_iff, hperm.mem_iff, Array.mem_toList_iff]
  have hnodup : (F.toList.flatMap Block.names).Nodup :=
    (hperm.flatMap_right _).nodup_iff.mpr h.named.nodup
  constructor
  case names => exact hnodup.map Name.text_injective
  case terminated => exact fun block hblock => h.filled.terminated hleft hwaiting (hmem.mp hblock)
  case targets =>
    intro block hblock l hl
    obtain ⟨target, htarget, rfl⟩ :=
      List.mem_map.mp (h.knows_of_mem_targets (hmem.mp hblock) hl).1
    exact ⟨target, hmem.mpr (Array.mem_toList_iff.mp htarget), rfl⟩
  case defined =>
    intro block hblock before line after hlines n hn
    have hok := h.scoping.lines block (hmem.mp hblock) before line after hlines
    refine (hok.uses n hn).symm.imp_right fun hscope => ?_
    obtain ⟨block', hblock', hvalue⟩ :=
      h.scoping.known block.label (knows_label (hmem.mp hblock)) n hscope
    refine ⟨block', hmem.mpr hblock', ?_, hvalue, ?_⟩
    · -- a block does not rely on its own values where it begins
      rintro rfl
      obtain ⟨line', hline', rfl⟩ := List.mem_map.mp hvalue
      obtain ⟨before', after', hlines'⟩ := List.append_of_mem (List.mem_of_mem_filter hline')
      exact (h.scoping.lines block' hblock' before' line' after' hlines').fresh hscope
    · exact dominates_of_scope hnodup (fun b hb => h.scoping.start b (hfirst ▸ hb))
        (fun b hb l hl => (h.knows_of_mem_targets (hmem.mp hb) hl).2) (hmem.mpr hblock') hvalue hscope

end Draft

end Brainfuck.IR
