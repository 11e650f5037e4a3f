import Brainfuck.Proofs.Drafts
import Brainfuck.Proofs.ScaleScopes

/-!
# The order in which lines are written

The blocks of a function do not show in which order their lines were written: a loop opens three blocks
at once and fills them one after the other, with everything that is nested in between.  The names show
it, since lines with the same stem are numbered as they are written.  `Builder.Writes` keeps the lines
that were written from one stage to another, in this order; in the blocks they are in some order.

Of all lines three kinds matter for the scales: those that store a byte that was computed, those that
multiply, and those that load a multiplier.  Most of a construction writes none of them, and is then
`Quiet`.  `Traced` counts what is written of each kind, and compares the stores with a list of changes.

* `linesOf`: the lines of blocks.
* `Builder.Writes`: what was written from one stage to another.
* `Traced`: stores, multiplications and multipliers that were written.
* `Quiet`: constructions that write none of them.
-/

namespace Brainfuck.IR

open Build

/-! ## Lines -/

/-- All lines of some blocks. -/
def linesOf (blocks : Array Block) : List Line := blocks.toList.flatMap fun block => block.lines.toList

theorem linesOf_push_empty (blocks : Array Block) (label : Name) :
    linesOf (blocks.push ⟨label, #[]⟩) = linesOf blocks := by
  rw [linesOf, linesOf, Array.toList_push, List.flatMap_append, List.flatMap_singleton,
    List.append_nil]

theorem Contained.mem_linesOf {blocks full : Array Block} (h : Contained blocks full) {line : Line}
    (hline : line ∈ linesOf blocks) : line ∈ linesOf full := by
  obtain ⟨block, hblock, hmem⟩ := List.mem_flatMap.mp hline
  obtain ⟨block', hblock', -, hlines⟩ := h block (Array.mem_toList_iff.mp hblock)
  exact List.mem_flatMap.mpr ⟨block', Array.mem_toList_iff.mpr hblock', hlines.subset hmem⟩

/-! ## What is written -/

namespace Builder

/-- From one stage to another these lines were written, in this order, with names that were free. -/
structure Writes (b : Builder) (log : List Line) (b' : Builder) : Prop where
  names : b.names.Within b'.names
  lines : (linesOf b'.blocks).Perm (linesOf b.blocks ++ log)
  fresh : ∀ line ∈ log, ¬ b.names.Taken line.name ∧ b'.names.Taken line.name
  ordered : log.Pairwise fun l l' => l.name.stem = l'.name.stem → l.name.copy < l'.name.copy

variable {b b₁ b' : Builder} {log log' : List Line}

/-- Stages with the same lines. -/
theorem Writes.nothing (hnames : b.names.Within b'.names)
    (hlines : linesOf b'.blocks = linesOf b.blocks) : b.Writes [] b' where
  names := hnames
  lines := by rw [hlines, List.append_nil]
  fresh _ h := absurd h List.not_mem_nil
  ordered := .nil

theorem Writes.trans (h : b.Writes log b₁) (h' : b₁.Writes log' b') : b.Writes (log ++ log') b' where
  names s := Nat.le_trans (h.names s) (h'.names s)
  lines := by
    rw [← List.append_assoc]
    exact h'.lines.trans (h.lines.append_right log')
  fresh line hline := by
    rcases List.mem_append.mp hline with hline | hline
    · exact ⟨(h.fresh line hline).1, h'.names.taken (h.fresh line hline).2⟩
    · exact ⟨fun htaken => (h'.fresh line hline).1 (h.names.taken htaken), (h'.fresh line hline).2⟩
  ordered := by
    refine List.pairwise_append.mpr ⟨h.ordered, h'.ordered, fun l hl l' hl' hstem => ?_⟩
    -- The first was taken in between and the second was not.
    have htaken : l.name.copy < b₁.names.count l.name.stem := (h.fresh l hl).2
    have hfree : ¬ l'.name.copy < b₁.names.count l'.name.stem := (h'.fresh l' hl').1
    rw [← hstem] at hfree
    omega

theorem perm_linesOf_emitted (hb : b.Valid) (s : Stem) (op : Op) :
    (linesOf (b.emitted s op).blocks).Perm (linesOf b.blocks ++ [⟨b.nextName s, op⟩]) := by
  have hblock : b.blocks.toList[b.current]? = some b.blocks[b.current] :=
    Array.getElem?_toList.trans (Array.getElem?_eq_getElem hb)
  have hlines : (b.blocks[b.current].lines.push ⟨b.nextName s, op⟩).toList.Perm
      ([⟨b.nextName s, op⟩] ++ b.blocks[b.current].lines.toList) := by
    rw [Array.toList_push]
    exact List.perm_append_comm
  rw [linesOf, emitted, Array.toList_modify]
  exact (Draft.perm_flatMap_modify hblock hlines).trans List.perm_append_comm

theorem writes_emitted (hb : b.Valid) (s : Stem) (op : Op) :
    b.Writes [⟨b.nextName s, op⟩] (b.emitted s op) where
  names := b.names.within_take s
  lines := perm_linesOf_emitted hb s op
  fresh line hline := by
    rw [List.mem_singleton.mp hline]
    exact ⟨b.names.not_taken_take s, b.names.taken_take s⟩
  ordered := List.pairwise_singleton _ _

theorem mem_linesOf_emitted (hb : b.Valid) (s : Stem) (op : Op) :
    ⟨b.nextName s, op⟩ ∈ linesOf (b.emitted s op).blocks :=
  (perm_linesOf_emitted hb s op).mem_iff.mpr (List.mem_append_right _ (List.mem_singleton_self _))

/-- The names of what was written are all different. -/
theorem Writes.nodup (h : b.Writes log b') : (log.map Line.name).Nodup := by
  refine List.pairwise_map.mpr (h.ordered.imp fun {l l'} hlt heq => ?_)
  have := hlt (congrArg Name.stem heq)
  rw [heq] at this
  exact Nat.lt_irrefl _ this

end Builder

/-! ## Stores, multiplications and multipliers -/

namespace Op

/-- Whether an operation stores a byte that was computed. -/
def isByteStore : Op → Bool
  | store .i8 (.reg _) _ => true
  | _ => false

/-- Whether an operation multiplies. -/
def isMul : Op → Bool
  | arith .mul _ _ _ => true
  | _ => false

end Op

/-- From one stage to another bytes were stored, one for each change, and so many multiplications and
multipliers were written. -/
structure Traced (R : Change → Line → Prop) (b : Builder) (changes : List Change)
    (muls multipliers : Nat) (b' : Builder) : Prop where
  written : ∃ log, b.Writes log b' ∧
    List.Forall₂ R changes (log.filter fun line => line.op.isByteStore) ∧
    log.countP (fun line => line.op.isMul) = muls
  multipliers_eq : b'.names.count .multiplier = b.names.count .multiplier + multipliers

namespace Traced

variable {R : Change → Line → Prop} {b b₁ b' : Builder} {changes changes' : List Change}
  {muls muls' multipliers multipliers' : Nat}

theorem trans (h : Traced R b changes muls multipliers b₁)
    (h' : Traced R b₁ changes' muls' multipliers' b') :
    Traced R b (changes ++ changes') (muls + muls') (multipliers + multipliers') b' := by
  obtain ⟨log, hlog, hchanges, hmuls⟩ := h.written
  obtain ⟨log', hlog', hchanges', hmuls'⟩ := h'.written
  refine ⟨⟨log ++ log', hlog.trans hlog', ?_, ?_⟩, ?_⟩
  · rw [List.filter_append]
    exact List.rel_append hchanges hchanges'
  · rw [List.countP_append, hmuls, hmuls']
  · rw [h'.multipliers_eq, h.multipliers_eq, Nat.add_assoc]

/-- Stages with the same lines. -/
theorem nothing (hnames : b.names.Within b'.names) (hlines : linesOf b'.blocks = linesOf b.blocks)
    (hcount : b'.names.count .multiplier = b.names.count .multiplier) : Traced R b [] 0 0 b' :=
  ⟨⟨[], .nothing hnames hlines, .nil, rfl⟩, hcount⟩

theorem entered (h : Traced R b changes muls multipliers b') (i : Nat) :
    Traced R b changes muls multipliers (b'.entered i) := by
  obtain ⟨log, hlog, hrest⟩ := h.written
  exact ⟨⟨log, ⟨hlog.names, hlog.lines, hlog.fresh, hlog.ordered⟩, hrest⟩, h.multipliers_eq⟩

/-- One line. -/
theorem emitted (hb : b.Valid) {s : Stem} {op : Op}
    (hchanges : List.Forall₂ R changes
      ([(⟨b.nextName s, op⟩ : Line)].filter fun line => line.op.isByteStore))
    (hmuls : [(⟨b.nextName s, op⟩ : Line)].countP (fun line => line.op.isMul) = muls)
    (hmultipliers : (if s = .multiplier then 1 else 0) = multipliers) :
    Traced R b changes muls multipliers (b.emitted s op) := by
  refine ⟨⟨_, b.writes_emitted hb s op, hchanges, hmuls⟩, ?_⟩
  rw [← hmultipliers]
  change (b.names.take s).2.count .multiplier = _
  rw [NameTable.count_take]
  split
  case isTrue h => rw [← h, if_pos rfl]
  case isFalse h => rw [if_neg (Ne.symm h), Nat.add_zero]

/-- A line of none of the three kinds. -/
theorem emitted_other (hb : b.Valid) {s : Stem} {op : Op} (hstem : s ≠ .multiplier)
    (hstore : op.isByteStore = false) (hmul : op.isMul = false) :
    Traced R b [] 0 0 (b.emitted s op) := by
  refine emitted hb ?_ ?_ (if_neg hstem)
  · rw [List.filter_singleton, hstore]
    exact .nil
  · rw [List.countP_singleton, hmul]
    rfl

/-- A new block has no lines. -/
theorem inserted (b : Builder) (position : Nat) {s : Stem} (hstem : s ≠ .multiplier) :
    Traced R b [] 0 0 (b.inserted position s) := by
  refine nothing (b.names.within_take s) (linesOf_push_empty _ _) ?_
  change (b.names.take s).2.count .multiplier = _
  rw [NameTable.count_take, if_neg hstem.symm]

theorem opened (b : Builder) {s : Stem} (hstem : s ≠ .multiplier) :
    Traced R b [] 0 0 (b.opened s) :=
  inserted b _ hstem

end Traced

/-! ## Quiet constructions -/

theorem Build.emitUnused_eq_ok {b b' : Builder} {op : Op} {u : Unit}
    (h : emitUnused op b = .ok (u, b')) : b' = b.emitted .unused op := by
  obtain ⟨-, rfl⟩ := Prod.mk.inj (Except.ok.inj h)
  rfl

/-- A construction that writes none of the three kinds of lines. -/
structure Quiet {α : Type} (m : Build α) : Prop where
  traced : ∀ (R : Change → Line → Prop) {b b' : Builder} {a : α},
    b.Valid → m b = .ok (a, b') → Traced R b [] 0 0 b'

namespace Quiet

variable {α β : Type} {m : Build α} {f : α → Build β}

theorem bind [Growing m] (h : Quiet m) (h' : ∀ a, Quiet (f a)) : Quiet (m >>= f) where
  traced R _ _ _ hb hrun := by
    obtain ⟨a, b₁, hm, hf⟩ := bind_eq_ok hrun
    have hvalid := (Growing.grows hb hm).valid hb
    exact (h.traced R hb hm).trans ((h' a).traced R hvalid hf)

/-- The next multiplier has the same name as before. -/
theorem nextName_multiplier (h : Quiet m) {b b' : Builder} {a : α} (hb : b.Valid)
    (hrun : m b = .ok (a, b')) : b'.nextName .multiplier = b.nextName .multiplier :=
  congrArg (Name.mk Stem.multiplier) (h.traced (fun _ _ => True) hb hrun).multipliers_eq

theorem emit {s : Stem} {op : Op} (hstem : s ≠ .multiplier) (hstore : op.isByteStore = false)
    (hmul : op.isMul = false) : Quiet (Build.emit s op) where
  traced _ _ _ _ hb hrun := by
    obtain ⟨-, rfl⟩ := emit_eq_ok hrun
    exact .emitted_other hb hstem hstore hmul

theorem emitUnused {op : Op} (hstore : op.isByteStore = false) (hmul : op.isMul = false) :
    Quiet (Build.emitUnused op) where
  traced _ _ _ _ hb hrun := by
    rw [emitUnused_eq_ok hrun]
    exact .emitted_other hb (by decide) hstore hmul

theorem newBlock {s : Stem} (hstem : s ≠ .multiplier) : Quiet (Build.newBlock s) where
  traced _ _ _ _ _ hrun := by
    obtain ⟨-, rfl⟩ := newBlock_eq_ok hrun
    exact .opened _ hstem

theorem load (ty : Ty) (address : Operand) : Quiet (Build.emit .load (.load ty address)) :=
  .emit (by decide) rfl rfl

theorem cellAddress : Quiet Build.cellAddress :=
  .bind (.load _ _) fun _ => .bind (.load _ _) fun _ => .emit (by decide) rfl rfl

theorem clearCell : Quiet Build.clearCell := .bind .cellAddress fun _ => .emitUnused rfl rfl

theorem testCell (yes no : Name) : Quiet (Build.testCell yes no) :=
  .bind .cellAddress fun _ => .bind (.load _ _) fun _ => .bind (.emit (by decide) rfl rfl) fun _ =>
    .emitUnused rfl rfl

theorem failIf (condition : Operand) {s : Stem} (hstem : s ≠ .multiplier) :
    Quiet (Build.failIf condition s) where
  traced R _ _ _ hb hrun := by
    obtain ⟨rest, b₁, hnew, hrun⟩ := bind_eq_ok hrun
    obtain ⟨_, b₂, hbranch, henter⟩ := bind_eq_ok hrun
    have hvalid := (Growing.grows hb hnew).valid hb
    have hopened := (newBlock hstem).traced R hb hnew
    have hbranched := (emitUnused rfl rfl).traced R hvalid hbranch
    rw [enter_eq_ok henter]
    exact (hopened.trans hbranched).entered rest.index

end Quiet

end Brainfuck.IR
