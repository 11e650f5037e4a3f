import Brainfuck.Proofs.Drafts

/-!
# Lowering in steps

Lowering a program is a sequence of the steps that drafts are made of.  That the steps are in order is
shown for each kind of node.  What makes it go through is the same everywhere: what can be used where
the construction of a node begins can be used where it ends, and the blocks that are created on the
way may rely on just that.  `Draft.Region` keeps track of such blocks while they are filled in turn.

A multiplier is a value like others.  It is loaded before the blocks of its body are created, so all of
them may rely on it, however they are nested.

* `Node.leftNodes`: the nodes that can leave the tape.
* `Draft.Hosts`: drafts that something can be lowered into.
* `Draft.Region`: blocks that are created together and go to one another.
* `Node.performs_lower`, `Program.performs_lower`: lowering, in steps.
-/

namespace Brainfuck

mutual

/-- The nodes that can leave the tape, those in the bodies of a node included. -/
def Node.leftNodes : Node → List Node
  | .moveLeft n => [.moveLeft n]
  | .scanLeft n => [.scanLeft n]
  | .carryLeft n => [.carryLeft n]
  | .loop body | .scaled body => Program.leftNodes body
  | .derived _ base => base.leftNodes
  | _ => []

/-- The nodes of a program that can leave the tape. -/
def Program.leftNodes : List Node → List Node
  | [] => []
  | n :: p => n.leftNodes ++ Program.leftNodes p

end

namespace IR

open Build

/-- Whether an operation gives memory back. -/
def Op.frees : Op → Bool
  | call .free _ => true
  | _ => false

/-- The stems of the labels of the last two blocks. -/
def closingStems : List Stem := [.error, .returnBlock]

/-- The stems and operations of a lowered sequence. -/
def Lowers (s : Stem) (op? : Option Op) : Prop :=
  s ∉ closingStems ∧ ∀ op, op? = some op → op.frees = false

theorem lowers_some {s : Stem} {op : Op} (hs : s ∉ closingStems) (hfrees : op.frees = false) :
    Lowers s (some op) :=
  ⟨hs, fun _ heq => Option.some.inj heq ▸ hfrees⟩

/-- The names of the slots that hold the state of a run. -/
def slotNames : List Name :=
  [⟨.cells, 0⟩, ⟨.cellsLength, 0⟩, ⟨.currentCell, 0⟩, ⟨.inputBuffer, 0⟩]

/-- A construction in two parts, of which the first is known. -/
theorem Build.bind_of_ok {α β : Type} {m : Build α} {f : α → Build β} {b b₁ : Builder} {a : α}
    {r : Except Node (β × Builder)} (h : m b = .ok (a, b₁)) (h' : f a b₁ = r) :
    (m >>= f) b = r := by
  change (m b).bind (fun x => f x.1 x.2) = r
  rw [h]
  exact h'

/-- Lowers a body that is entered if a condition holds and goes to the next block at its end, and
then turns to the block behind it. -/
def Build.guarded (condition : Operand) (inside behind : BlockRef) (next : Name) (body : Build Unit) :
    Build Unit := do
  emitUnused (.branch condition inside.label behind.label)
  enter inside
  body
  emitUnused (.br next)
  enter behind

theorem lower_scaled (scale : Option Operand) (body : List Node) :
    Node.lower scale (.scaled body) = (do
      let address ← cellAddress
      let multiplier ← emit .multiplier (.load .i8 address)
      let inside ← newBlock .multiply
      let behind ← newBlock .multiplyDone
      let nonzero ← emit .hasMultiplier (.compare .ne .i8 multiplier (.int 0))
      guarded nonzero inside behind behind.label (Program.lower (some multiplier) body)
      clearCell) := by
  rw [Node.lower]
  simp only [guarded, bind_assoc]

namespace Draft

variable {α β : Type} {fits : Stem → Option Op → Prop} {scale : Option Operand}
  {checks checks' : List Node} {d d₀ d₁ d' : Draft}

/-! ## Values at hand -/

/-- An operand that can be used in the next line. -/
def SeesOperand (d : Draft) (x : Operand) : Prop := ∀ n, x.name? = some n → d.Sees n

theorem seesOperand_int (d : Draft) (n : Int) : d.SeesOperand (.int n) := fun _ h => nomatch h

theorem seesOperand_stream (d : Draft) (s : Stream) : d.SeesOperand (.stream s) :=
  fun _ h => nomatch h

theorem seesOperand_reg {n : Name} (h : d.Sees n) : d.SeesOperand (.reg n) := by
  intro m hm
  rwa [← Option.some.inj hm]

theorem SeesOperand.mono {x : Operand} (h : d.SeesOperand x) (hsees : ∀ n, d.Sees n → d'.Sees n) :
    d'.SeesOperand x := fun n hn => hsees n (h n hn)

/-- What an operation uses can be used if its operands can. -/
theorem sees_of_mem_uses {op : Op} (h : ∀ x ∈ op.operands, d.SeesOperand x) :
    ∀ n ∈ op.uses, d.Sees n := by
  intro n hn
  obtain ⟨x, hx, hname⟩ := List.mem_filterMap.mp hn
  exact h x hx n hname

theorem sees_emit {s : Stem} {op : Op} {n : Name} (h : d.Sees n) : (d.emit s op).Sees n := by
  refine h.imp_right fun hn => ?_
  change n ∈ values (d.lines ++ [_])
  rw [values_append]
  exact List.mem_append_left _ hn

/-- A line with a value can be used in the next one. -/
theorem sees_nextName {s : Stem} {op : Op} (h : (op.ty != .void) = true) :
    (d.emit s op).SeesOperand (.reg (d.nextName s)) := by
  refine seesOperand_reg (Or.inr ?_)
  change d.nextName s ∈ values (d.lines ++ [⟨d.nextName s, op⟩])
  rw [values_append]
  refine List.mem_append_right _ (List.mem_map.mpr ⟨⟨d.nextName s, op⟩, ?_, rfl⟩)
  exact List.mem_filter.mpr ⟨List.mem_singleton_self _, h⟩

/-! ## Constructions in steps -/

/-- A construction is a sequence of steps. -/
structure Builds (fits : Stem → Option Op → Prop) (m : Build α) (checks : List Node) (d : Draft) (a : α)
    (d' : Draft) : Prop where
  runs : m d.toBuilder = .ok (a, d'.toBuilder)
  steps : Steps fits checks d d'

theorem Builds.bind {m : Build α} {f : α → Build β} {a : α} {a' : β}
    (h : Builds fits m checks d a d₁) (h' : Builds fits (f a) checks' d₁ a' d') :
    Builds fits (m >>= f) (checks ++ checks') d a' d' :=
  ⟨bind_of_ok h.runs h'.runs, h.steps.trans h'.steps⟩

theorem builds_emit {s : Stem} {op : Op} (hgoing : d.isOpen = true) (hfit : fits s (some op))
    (hstays : op.isTerminator = false) (hoperands : ∀ x ∈ op.operands, d.SeesOperand x) :
    Builds fits (Build.emit s op) [] d (.reg (d.nextName s)) (d.emit s op) :=
  ⟨rfl, .one (.emit hgoing hfit hstays (sees_of_mem_uses hoperands))⟩

theorem builds_emitUnused {op : Op} (hgoing : d.isOpen = true) (hfit : fits .unused (some op))
    (hstays : op.isTerminator = false) (hoperands : ∀ x ∈ op.operands, d.SeesOperand x) :
    Builds fits (emitUnused op) [] d () (d.emit .unused op) :=
  ⟨rfl, (builds_emit hgoing hfit hstays hoperands).steps⟩

/-- A block is left, not for the error block. -/
theorem builds_terminate {op : Op} (hgoing : d.isOpen = true) (hfit : fits .unused (some op))
    (hleaves : op.isTerminator = true) (hoperands : ∀ x ∈ op.operands, d.SeesOperand x)
    (herror : errorLabel ∉ op.targets)
    (htargets : ∀ l ∈ op.targets, d.Knows l ∧ ∀ n ∈ d.scope l, d.Sees n) :
    Builds fits (emitUnused op) [] d () (d.terminate op) := by
  have hnone : check? (d.terminate op).lines = none := check?_of_notMem_targets _ _ herror
  have hstep : Step fits _ d (d.terminate op) :=
    .terminate hgoing hfit hleaves (sees_of_mem_uses hoperands) htargets (absurd · herror)
  rw [hnone] at hstep
  exact ⟨rfl, .one hstep⟩

theorem builds_enter {r : BlockRef} {rest : List BlockRef} (hleft : d.isOpen = false)
    (hwaits : d.waiting.Perm (r :: rest)) : Builds fits (Build.enter r) [] d () (d.enter r rest) :=
  ⟨rfl, .one (.enter hleft hwaits)⟩

/-! ## Pieces of a lowered sequence -/

/-- From one draft to another something has been lowered, and the construction goes on. -/
structure Reaches (checks : List Node) (d d' : Draft) : Prop where
  steps : Steps Lowers checks d d'
  going : d'.isOpen = true
  waiting : d'.waiting = d.waiting
  sees : ∀ n, d.Sees n → d'.Sees n

theorem Reaches.trans (h : d.Reaches checks d₁) (h' : d₁.Reaches checks' d') :
    d.Reaches (checks ++ checks') d' where
  steps := h.steps.trans h'.steps
  going := h'.going
  waiting := h'.waiting.trans h.waiting
  sees n hn := h'.sees n (h.sees n hn)

/-- A construction lowers something into a draft. -/
structure Performs (m : Build α) (checks : List Node) (d : Draft) (a : α) (d' : Draft) : Prop where
  runs : m d.toBuilder = .ok (a, d'.toBuilder)
  reaches : d.Reaches checks d'

theorem Performs.bind {m : Build α} {f : α → Build β} {a : α} {a' : β}
    (h : Performs m checks d a d₁) (h' : Performs (f a) checks' d₁ a' d') :
    Performs (m >>= f) (checks ++ checks') d a' d' where
  runs := bind_of_ok h.runs h'.runs
  reaches := h.reaches.trans h'.reaches

theorem Performs.builds {m : Build α} {a : α} (h : Performs m checks d a d') :
    Builds Lowers m checks d a d' := ⟨h.runs, h.reaches.steps⟩

/-- A draft that a node with a scale can be lowered into. -/
structure Hosts (scale : Option Operand) (d : Draft) : Prop where
  sound : ∃ checks, d.Sound checks
  going : d.isOpen = true
  slots : ∀ n ∈ slotNames, d.Sees n
  scale : ∀ x, scale = some x → d.SeesOperand x
  error : d.Knows errorLabel
  /-- What the error block relies on is there, so a check can go to it. -/
  fault : ∀ n ∈ d.scope errorLabel, d.Sees n

namespace Hosts

theorem named (h : d.Hosts scale) : d.Named := h.sound.elim fun _ h => h.named

theorem knows_label (h : d.Hosts scale) : d.Knows d.label :=
  h.sound.elim fun _ h => Draft.knows_label h.filled.mem

/-- Wherever the same can be used, the same can be lowered. -/
theorem of_steps (h : d.Hosts scale) (hsteps : Steps Lowers checks d d') (hgoing : d'.isOpen = true)
    (hsees : ∀ n, d.Sees n → d'.Sees n) : d'.Hosts scale where
  sound := h.sound.elim fun _ hsound => ⟨_, hsteps.sound hsound⟩
  going := hgoing
  slots n hn := hsees n (h.slots n hn)
  scale x hx := (h.scale x hx).mono hsees
  error := hsteps.extends.knows _ h.error
  fault n hn := by
    rw [hsteps.extends.scope _ (h.named.taken_of_knows h.error)] at hn
    exact hsees n (h.fault n hn)

/-- Something else can be lowered behind what has been lowered. -/
theorem after (h : d.Hosts scale) (hreaches : d.Reaches checks d') : d'.Hosts scale :=
  h.of_steps hreaches.steps hreaches.going hreaches.sees

/-- The body of a loop has no scale. -/
theorem unscaled (h : d.Hosts scale) : d.Hosts none :=
  ⟨h.sound, h.going, h.slots, (fun _ hx => nomatch hx), h.error, h.fault⟩

/-- A value that is there can be the scale of a body. -/
theorem scaled (h : d.Hosts scale) {x : Operand} (hx : d.SeesOperand x) : d.Hosts (some x) :=
  ⟨h.sound, h.going, h.slots, fun _ heq => Option.some.inj heq ▸ hx, h.error, h.fault⟩

theorem cells (h : d.Hosts scale) : d.SeesOperand cellsSlot := seesOperand_reg (h.slots _ (by decide))

theorem length (h : d.Hosts scale) : d.SeesOperand lengthSlot :=
  seesOperand_reg (h.slots _ (by decide))

theorem index (h : d.Hosts scale) : d.SeesOperand indexSlot := seesOperand_reg (h.slots _ (by decide))

theorem input (h : d.Hosts scale) : d.SeesOperand inputSlot := seesOperand_reg (h.slots _ (by decide))

/-! ### Lines -/

theorem performs_emit (h : d.Hosts scale) (s : Stem) (op : Op) (hs : s ∉ closingStems)
    (hstays : op.isTerminator = false) (hfrees : op.frees = false)
    (hoperands : ∀ x ∈ op.operands, d.SeesOperand x) :
    Performs (Build.emit s op) [] d (.reg (d.nextName s)) (d.emit s op) where
  runs := rfl
  reaches :=
    { steps := (builds_emit h.going (lowers_some hs hfrees) hstays hoperands).steps
      going := h.going
      waiting := rfl
      sees := fun _ => sees_emit }

theorem performs_emitUnused (h : d.Hosts scale) (op : Op) (hstays : op.isTerminator = false)
    (hfrees : op.frees = false) (hoperands : ∀ x ∈ op.operands, d.SeesOperand x) :
    Performs (emitUnused op) [] d () (d.emit .unused op) where
  runs := rfl
  reaches := (h.performs_emit .unused op (by decide) hstays hfrees hoperands).reaches

theorem exists_loadCells (h : d.Hosts scale) :
    ∃ x d', Performs loadCells [] d x d' ∧ d'.SeesOperand x := by
  refine ⟨_, _, h.performs_emit .load _ (by decide) rfl rfl ?_, sees_nextName rfl⟩
  simp [Op.operands, h.cells]

theorem exists_loadIndex (h : d.Hosts scale) :
    ∃ x d', Performs loadIndex [] d x d' ∧ d'.SeesOperand x := by
  refine ⟨_, _, h.performs_emit .load _ (by decide) rfl rfl ?_, sees_nextName rfl⟩
  simp [Op.operands, h.index]

theorem exists_cellAddress (h : d.Hosts scale) :
    ∃ x d', Performs cellAddress [] d x d' ∧ d'.SeesOperand x := by
  obtain ⟨cells, d₁, hcells, hsees⟩ := h.exists_loadCells
  have h₁ := h.after hcells.reaches
  obtain ⟨index, d₂, hindex, hsees'⟩ := h₁.exists_loadIndex
  have h₂ := h₁.after hindex.reaches
  have haddress := h₂.performs_emit .currentCellPtr (.byteAt cells index) (by decide) rfl rfl
    (by simp [Op.operands, hsees.mono hindex.reaches.sees, hsees'])
  exact ⟨_, _, hcells.bind (hindex.bind haddress), sees_nextName rfl⟩

/-- The cell, loaded under a name with the given stem. -/
theorem exists_loadCell (h : d.Hosts scale) {s : Stem} (hs : s ∉ closingStems) :
    ∃ x address d₁ d', Performs cellAddress [] d address d₁ ∧
      Performs (Build.emit s (.load .i8 address)) [] d₁ x d' ∧ d'.SeesOperand address ∧
      d'.SeesOperand x := by
  obtain ⟨address, d₁, haddress, hsees⟩ := h.exists_cellAddress
  have hload := (h.after haddress.reaches).performs_emit s (.load .i8 address) hs rfl rfl
    (by simp [Op.operands, hsees])
  exact ⟨_, address, d₁, _, haddress, hload, hsees.mono hload.reaches.sees, sees_nextName rfl⟩

theorem exists_scaledAmount (h : d.Hosts scale) (amount : Int) :
    ∃ x d', Performs (scaledAmount amount scale) [] d x d' ∧ d'.SeesOperand x := by
  cases hscale : scale with
  | none =>
    refine ⟨.int (amount % 256), d, ⟨rfl, ?_⟩, seesOperand_int d _⟩
    exact ⟨.refl d, h.going, rfl, fun _ hn => hn⟩
  | some factor =>
    refine ⟨_, _, h.performs_emit .multipliedAmount _ (by decide) rfl rfl ?_, sees_nextName rfl⟩
    simp [Op.operands, seesOperand_int, h.scale factor hscale]

theorem exists_changeCell (h : d.Hosts scale) (f : Arith) {s : Stem} (hs : s ∉ closingStems)
    (amount : Int) : ∃ d', Performs (changeCell f s amount scale) [] d () d' := by
  rw [changeCell_eq]
  obtain ⟨old, address, d₁, d₂, haddress, hload, hsees, hsees'⟩ :=
    h.exists_loadCell (s := .load) (by decide)
  have h₂ := (h.after haddress.reaches).after hload.reaches
  obtain ⟨amount, d₃, hamount, hsees''⟩ := h₂.exists_scaledAmount amount
  have h₃ := h₂.after hamount.reaches
  have hnew := h₃.performs_emit s (.arith f .i8 old amount) hs rfl rfl
    (by simp [Op.operands, hsees'.mono hamount.reaches.sees, hsees''])
  have hvalue : (d₃.emit s (.arith f .i8 old amount)).SeesOperand (.reg (d₃.nextName s)) :=
    sees_nextName rfl
  have hstore := (h₃.after hnew.reaches).performs_emitUnused
    (.store .i8 (.reg (d₃.nextName s)) address) rfl rfl
    (by simp [Op.operands, (hsees.mono hamount.reaches.sees).mono hnew.reaches.sees, hvalue])
  exact ⟨_, haddress.bind (hload.bind (hamount.bind (hnew.bind hstore)))⟩

theorem exists_clearCell (h : d.Hosts scale) : ∃ d', Performs clearCell [] d () d' := by
  obtain ⟨address, d₁, haddress, hsees⟩ := h.exists_cellAddress
  have hstore := (h.after haddress.reaches).performs_emitUnused (.store .i8 (.int 0) address) rfl rfl
    (by simp [Op.operands, seesOperand_int, hsees])
  exact ⟨_, haddress.bind hstore⟩

end Hosts

/-! ### Blocks -/

/-- A block has been created, in front of the one that stands last, that may rely on what can be used
in a draft. -/
def openBlock (d : Draft) (s : Stem) (d₀ : Draft) : Draft :=
  d.create (d.order.length - 1) s {n | d₀.Sees n}

/-- The block that is created next. -/
def nextBlock (d : Draft) (s : Stem) : BlockRef := ⟨d.nextName s, d.blocks.size⟩

/-- The block has been left, and another one has been entered. -/
def leave (d : Draft) (op : Op) (r : BlockRef) (waiting : List BlockRef) : Draft :=
  (d.terminate op).enter r waiting

theorem builds_newBlock {s : Stem} (hs : s ∉ closingStems) (hsees : ∀ n, d₀.Sees n → d.Sees n) :
    Builds Lowers (newBlock s) [] d (d.nextBlock s) (d.openBlock s d₀) where
  runs := rfl
  steps := .one (.create ⟨hs, fun _ h => nomatch h⟩ hsees)

theorem builds_leave {op : Op} {r : BlockRef} {rest : List BlockRef}
    (hwaits : d.waiting.Perm (r :: rest)) :
    Builds fits (Build.enter r) [] (d.terminate op) () (d.leave op r rest) :=
  builds_enter rfl hwaits

/-- A label of a block, not the error block, that may rely on what can be used in a draft. -/
structure Offers (d : Draft) (l : Name) (d₀ : Draft) : Prop where
  elsewhere : l ≠ errorLabel
  knows : d.Knows l
  taken : d.names.Taken l
  scope : d.scope l = {n | d₀.Sees n}

theorem Offers.later {l : Name} (h : d.Offers l d₀) (hext : d.Extends d') : d'.Offers l d₀ where
  elsewhere := h.elsewhere
  knows := hext.knows l h.knows
  taken := hext.names.taken h.taken
  scope := (hext.scope l h.taken).trans h.scope

theorem offers_openBlock (d d₀ : Draft) {s : Stem} (hs : s ∉ closingStems) :
    (d.openBlock s d₀).Offers (d.nextName s) d₀ where
  elsewhere heq := by
    have hstem : s = .error := congrArg Name.stem heq
    exact hs (hstem ▸ List.mem_cons_self)
  knows := by
    unfold Knows openBlock
    rw [labels_create]
    exact List.mem_append_right _ (List.mem_singleton_self _)
  taken := d.names.taken_take s
  scope := Function.update_self ..

/-- A draft in the course of a construction that creates blocks with the given labels, all of which
may rely on what could be used in the beginning, and so can be entered from any of them. -/
structure Region (labels : List Name) (checks : List Node) (d₀ d : Draft) : Prop where
  steps : Steps Lowers checks d₀ d
  going : d.isOpen = true
  offers : ∀ l ∈ labels, d.Offers l d₀
  sees : ∀ n, d₀.Sees n → d.Sees n

namespace Region

variable {labels : List Name}

theorem start (hgoing : d.isOpen = true) : Region [] [] d d :=
  ⟨.refl d, hgoing, fun _ hl => absurd hl List.not_mem_nil, fun _ hn => hn⟩

theorem hosts (h : Region labels checks d₀ d) (h₀ : d₀.Hosts scale) : d.Hosts scale :=
  h₀.of_steps h.steps h.going h.sees

theorem openBlock (h : Region labels checks d₀ d) (h₀ : d₀.Hosts scale) {s : Stem}
    (hs : s ∉ closingStems) : Region (d.nextName s :: labels) checks d₀ (d.openBlock s d₀) := by
  have hext := (builds_newBlock hs h.sees).steps.extends
  have hlabel : (d.openBlock s d₀).scope d.label = d.scope d.label :=
    hext.scope d.label ((h.hosts h₀).named.taken_of_knows (h.hosts h₀).knows_label)
  constructor
  case steps =>
    have hsteps := h.steps.trans (builds_newBlock hs h.sees).steps
    rwa [List.append_nil] at hsteps
  case going => exact h.going
  case offers =>
    intro l hl
    rcases List.mem_cons.mp hl with rfl | hl
    · exact d.offers_openBlock d₀ hs
    · exact (h.offers l hl).later hext
  case sees => exact fun n hn => (h.sees n hn).imp_left fun hn => hlabel.symm ▸ hn

theorem reaches (h : Region labels checks d₀ d) (hreaches : d.Reaches checks' d') :
    Region labels (checks ++ checks') d₀ d' where
  steps := h.steps.trans hreaches.steps
  going := hreaches.going
  offers l hl := (h.offers l hl).later hreaches.steps.extends
  sees n hn := hreaches.sees n (h.sees n hn)

/-- A block is left for blocks of the region. -/
theorem builds_jump (h : Region labels checks d₀ d) (op : Op)
    (hleaves : op.isTerminator = true) (hfrees : op.frees = false)
    (hoperands : ∀ x ∈ op.operands, d.SeesOperand x) (htargets : ∀ l ∈ op.targets, l ∈ labels) :
    Builds Lowers (emitUnused op) [] d () (d.terminate op) := by
  have hoffers (l : Name) (hl : l ∈ op.targets) : d.Offers l d₀ := h.offers l (htargets l hl)
  refine builds_terminate h.going (lowers_some (by decide) hfrees) hleaves hoperands
    (fun hl => (hoffers _ hl).elsewhere rfl) fun l hl => ⟨(hoffers l hl).knows, fun n hn => ?_⟩
  exact h.sees n ((hoffers l hl).scope.subset hn)

/-- Another block of the region is entered. -/
theorem leave (h : Region labels checks d₀ d) {op : Op} {r : BlockRef} {rest : List BlockRef}
    (hjump : Builds Lowers (emitUnused op) checks' d () (d.terminate op))
    (hwaits : d.waiting.Perm (r :: rest)) (hr : r.label ∈ labels) :
    Region labels (checks ++ checks') d₀ (d.leave op r rest) := by
  have hsteps : Steps Lowers (checks' ++ []) d (d.leave op r rest) :=
    hjump.steps.trans (builds_leave hwaits).steps
  rw [List.append_nil] at hsteps
  have hoffers (l : Name) (hl : l ∈ labels) := (h.offers l hl).later hsteps.extends
  exact ⟨h.steps.trans hsteps, rfl, hoffers, fun n hn => Or.inl ((hoffers _ hr).scope.superset hn)⟩

/-- The construction is over when all blocks have been filled. -/
theorem finish (h : Region labels checks d₀ d) (hwaiting : d.waiting = d₀.waiting) :
    d₀.Reaches checks d :=
  ⟨h.steps, h.going, hwaiting, h.sees⟩

end Region

/-- A check: the construction goes on in a new block. -/
theorem Hosts.exists_failIf {s t : Stem} {op : Op} (h : (d.emit t op).Hosts scale) {node : Node}
    (hs : s ∉ closingStems) (hvalue : (op.ty != .void) = true)
    (hfailing : failing? (⟨d.nextName t, op⟩ :: d.lines.reverse) = some node) :
    ∃ d', Performs (failIf (.reg (d.nextName t)) s) [node] (d.emit t op) () d' := by
  let d₁ := d.emit t op
  let d₂ := d₁.openBlock s d₁
  let branch : Op := .branch (.reg (d.nextName t)) errorLabel (d₁.nextName s)
  have hregion : Region [d₁.nextName s] [] d₁ d₂ := (Region.start h.going).openBlock h hs
  have hoffers : d₂.Offers (d₁.nextName s) d₁ := hregion.offers _ List.mem_cons_self
  have hcheck : check? (d₂.terminate branch).lines = some node :=
    (check?_of_branch d.lines ⟨d.nextName t, op⟩ _ hoffers.elsewhere).trans hfailing
  have hjump : Builds Lowers (emitUnused branch) [node] d₂ () (d₂.terminate branch) := by
    have h₂ : d₂.Hosts scale := hregion.hosts h
    have hsees : ∀ n ∈ branch.uses, d₂.Sees n := sees_of_mem_uses
      (by simpa [branch, Op.operands] using (sees_nextName hvalue).mono hregion.sees)
    have htargets : ∀ l ∈ branch.targets, d₂.Knows l ∧ ∀ n ∈ d₂.scope l, d₂.Sees n := by
      intro l hl
      simp only [branch, Op.targets, List.mem_cons, List.not_mem_nil, or_false] at hl
      rcases hl with rfl | rfl
      · exact ⟨h₂.error, h₂.fault⟩
      · exact ⟨hoffers.knows, fun n hn => hregion.sees n (hoffers.scope.subset hn)⟩
    have hstep : Step Lowers _ d₂ (d₂.terminate branch) :=
      .terminate h₂.going (lowers_some (by decide) rfl) rfl hsees htargets fun _ => by rw [hcheck]; rfl
    rw [hcheck] at hstep
    exact ⟨rfl, .one hstep⟩
  have hwaits : d₂.waiting.Perm (d₁.nextBlock s :: d.waiting) := .refl _
  have hbuilds : Builds Lowers (failIf (.reg (d.nextName t)) s) [node] d₁ () _ :=
    (builds_newBlock hs fun _ hn => hn).bind (hjump.bind (builds_leave hwaits))
  exact ⟨_, hbuilds.runs, (hregion.leave hjump hwaits List.mem_cons_self).finish rfl⟩

/-! ## Nodes -/

namespace Hosts

theorem exists_moveLeft (h : d.Hosts scale) (n : Int) :
    ∃ d', Performs (Node.lower scale (.moveLeft n)) [.moveLeft n] d () d' := by
  rw [Node.lower]
  obtain ⟨index, d₁, hindex, hsees⟩ := h.exists_loadIndex
  have h₁ := h.after hindex.reaches
  let target := d₁.nextName .decrementedCurrentCell
  have htarget := h₁.performs_emit .decrementedCurrentCell (.arith .sub .i64 index (.int n))
    (by decide) rfl rfl (by simp [Op.operands, hsees, seesOperand_int])
  have h₂ := h₁.after htarget.reaches
  have hsees₂ : (d₁.emit .decrementedCurrentCell (.arith .sub .i64 index (.int n))).SeesOperand
      (.reg target) := sees_nextName rfl
  have hfailed := h₂.performs_emit .returnWithError (.compare .slt .i64 (.reg target) (.int 0))
    (by decide) rfl rfl (by simp [Op.operands, hsees₂, seesOperand_int])
  have h₃ := h₂.after hfailed.reaches
  obtain ⟨d₄, hcheck⟩ := h₃.exists_failIf (s := .moveLeft) (by decide) rfl
    (show _ = some (Node.moveLeft n) by simp [Draft.emit, failing?, target])
  have hstore := (h₃.after hcheck.reaches).performs_emitUnused (.store .i64 (.reg target) indexSlot)
    rfl rfl (by
      have hsees₄ := (hsees₂.mono hfailed.reaches.sees).mono hcheck.reaches.sees
      simp [Op.operands, hsees₄, (h₃.after hcheck.reaches).index])
  exact ⟨_, hindex.bind (htarget.bind (hfailed.bind (hcheck.bind hstore)))⟩

theorem exists_scanLeft (h : d.Hosts scale) (n : Int) :
    ∃ d', Performs (Node.lower scale (.scanLeft n)) [.scanLeft n] d () d' := by
  rw [Node.lower]
  obtain ⟨cells, d₁, hcells, hsees⟩ := h.exists_loadCells
  have h₁ := h.after hcells.reaches
  have hfailed := h₁.performs_emit .returnWithError
    (.call .moveLeftUntilZero [cells, indexSlot, .int n]) (by decide) rfl rfl
    (by simp [Op.operands, hsees, h₁.index, seesOperand_int])
  obtain ⟨d₂, hcheck⟩ := (h₁.after hfailed.reaches).exists_failIf (s := .continueBlock) (by decide)
    rfl rfl
  exact ⟨_, hcells.bind (hfailed.bind hcheck)⟩

theorem exists_carryLeft (h : d.Hosts scale) (n : Int) :
    ∃ d', Performs (Node.lower scale (.carryLeft n)) [.carryLeft n] d () d' := by
  rw [Node.lower]
  obtain ⟨cells, d₁, hcells, hsees⟩ := h.exists_loadCells
  have h₁ := h.after hcells.reaches
  obtain ⟨index, d₂, hindex, hsees'⟩ := h₁.exists_loadIndex
  have h₂ := h₁.after hindex.reaches
  have hfailed := h₂.performs_emit .returnWithError (.call .moveValueLeft [cells, index, .int n])
    (by decide) rfl rfl
    (by simp [Op.operands, hsees.mono hindex.reaches.sees, hsees', seesOperand_int])
  obtain ⟨d₃, hcheck⟩ := (h₂.after hfailed.reaches).exists_failIf (s := .continueBlock) (by decide)
    rfl rfl
  exact ⟨_, hcells.bind (hindex.bind (hfailed.bind hcheck))⟩

theorem exists_carryRight (h : d.Hosts scale) (n : Int) :
    ∃ d', Performs (Node.lower scale (.carryRight n)) [] d () d' := by
  rw [Node.lower]
  obtain ⟨index, d₁, hindex, hsees⟩ := h.exists_loadIndex
  have h₁ := h.after hindex.reaches
  have hcall := h₁.performs_emitUnused (.call .moveValueRight [cellsSlot, lengthSlot, index, .int n])
    rfl rfl (by simp [Op.operands, h₁.cells, h₁.length, hsees, seesOperand_int])
  exact ⟨_, hindex.bind hcall⟩

theorem exists_input (h : d.Hosts scale) : ∃ d', Performs (Node.lower scale .input) [] d () d' := by
  rw [Node.lower]
  obtain ⟨cells, d₁, hcells, hsees⟩ := h.exists_loadCells
  have h₁ := h.after hcells.reaches
  obtain ⟨index, d₂, hindex, hsees'⟩ := h₁.exists_loadIndex
  have h₂ := h₁.after hindex.reaches
  have hcall := h₂.performs_emitUnused (.call .input [cells, index, inputSlot]) rfl rfl
    (by simp [Op.operands, hsees.mono hindex.reaches.sees, hsees', h₂.input])
  exact ⟨_, hcells.bind (hindex.bind hcall)⟩

theorem exists_output (h : d.Hosts scale) : ∃ d', Performs (Node.lower scale .output) [] d () d' := by
  rw [Node.lower]
  obtain ⟨value, address, d₁, d₂, haddress, hload, -, hsees⟩ :=
    h.exists_loadCell (s := .load) (by decide)
  have h₂ := (h.after haddress.reaches).after hload.reaches
  have hwide := h₂.performs_emit .extendedCurrentCellValue (.zext value) (by decide) rfl rfl
    (by simp [Op.operands, hsees])
  have h₃ := h₂.after hwide.reaches
  have hput := h₃.performs_emitUnused (.call .putchar [.reg (d₂.nextName .extendedCurrentCellValue)])
    rfl rfl (by
      intro x hx
      obtain rfl := List.mem_singleton.mp hx
      exact sees_nextName rfl)
  have h₄ := h₃.after hput.reaches
  have hstream := h₄.performs_emit .stdout (.load (.ptr .i8) (.stream .stdout)) (by decide) rfl rfl
    (by simp [Op.operands, seesOperand_stream])
  have hflush := (h₄.after hstream.reaches).performs_emitUnused
    (.call .fflush [.reg (Builder.nextName _ .stdout)]) rfl rfl (by
      intro x hx
      obtain rfl := List.mem_singleton.mp hx
      exact sees_nextName rfl)
  exact ⟨_, haddress.bind (hload.bind (hwide.bind (hput.bind (hstream.bind hflush))))⟩

end Hosts

/-- A body in a region: its own blocks are entered from there and left for there. -/
theorem Region.exists_guarded {labels : List Name} (h : Region labels [] d₀ d)
    (h₀ : d₀.Hosts scale) {condition : Operand} (hcondition : d.SeesOperand condition)
    (inside behind : BlockRef) (next : Name) {rest : List BlockRef}
    (hlabels : [inside.label, behind.label, next] ⊆ labels)
    (hwaits : d.waiting.Perm (inside :: behind :: rest)) {body : Build Unit}
    (hbody : ∀ {d : Draft}, d.Hosts scale → ∃ d', Performs body checks d () d') :
    ∃ d', Builds Lowers (guarded condition inside behind next body) checks d () d' ∧
      Region labels checks d₀ d' ∧ d'.waiting = rest := by
  have hinside : inside.label ∈ labels := hlabels (by simp)
  have hbehind : behind.label ∈ labels := hlabels (by simp)
  have hbranch := h.builds_jump (.branch condition inside.label behind.label) rfl rfl
    (by simpa [Op.operands] using hcondition) (by simp [Op.targets, hinside, hbehind])
  have hregion := h.leave hbranch hwaits hinside
  obtain ⟨d₁, hfill⟩ := hbody (hregion.hosts h₀)
  have hregion₁ : Region labels checks d₀ d₁ := hregion.reaches hfill.reaches
  have hgo := hregion₁.builds_jump (.br next) rfl rfl (by simp [Op.operands])
    (by simpa [Op.targets] using hlabels (by simp))
  have hwaits₁ : d₁.waiting.Perm (behind :: rest) := by rw [hfill.reaches.waiting]; rfl
  have hbuilds : Builds Lowers (guarded condition inside behind next body) (checks ++ []) d () _ :=
    hbranch.bind ((builds_leave hwaits).bind (hfill.builds.bind (hgo.bind (builds_leave hwaits₁))))
  have hregion₂ := hregion₁.leave hgo hwaits₁ hbehind
  rw [List.append_nil] at hbuilds hregion₂
  exact ⟨_, hbuilds, hregion₂, rfl⟩

namespace Hosts

/-- A loop, if its body can be lowered wherever there is no scale. -/
theorem exists_loop (h : d.Hosts scale) {body : List Node}
    (hbody : ∀ {d : Draft}, d.Hosts none → ∃ d', Performs (Program.lower none body) checks d () d') :
    ∃ d', Performs (Node.lower scale (.loop body)) checks d () d' := by
  let d₁ := d.openBlock .loop d
  let d₂ := d₁.openBlock .thenBlock d
  let d₃ := d₂.openBlock .merge d
  let head := d.nextBlock .loop
  let inside := d₁.nextBlock .thenBlock
  let behind := d₂.nextBlock .merge
  have hregion₁ : Region [head.label] [] d d₁ := (Region.start h.going).openBlock h (by decide)
  have hregion₂ : Region [inside.label, head.label] [] d d₂ := hregion₁.openBlock h (by decide)
  have hregion₃ : Region [behind.label, inside.label, head.label] [] d d₃ :=
    hregion₂.openBlock h (by decide)
  have hhead : Builds Lowers (newBlock .loop) [] d head d₁ :=
    builds_newBlock (by decide) fun _ hn => hn
  have hinside : Builds Lowers (newBlock .thenBlock) [] d₁ inside d₂ :=
    builds_newBlock (by decide) hregion₁.sees
  have hbehind : Builds Lowers (newBlock .merge) [] d₂ behind d₃ :=
    builds_newBlock (by decide) hregion₂.sees
  have hgo := hregion₃.builds_jump (.br head.label) rfl rfl (by simp [Op.operands])
    (by simp [Op.targets])
  have hwaits : ([behind, inside] ++ head :: d.waiting).Perm (head :: [behind, inside] ++ d.waiting) :=
    List.perm_middle
  have hregion₄ := hregion₃.leave hgo hwaits (by simp)
  have h₄ := hregion₄.hosts h
  -- in the head, the test
  obtain ⟨value, address, d₅, d₆, haddress, hload, -, hsees⟩ :=
    h₄.exists_loadCell (s := .load) (by decide)
  have h₆ := (h₄.after haddress.reaches).after hload.reaches
  have hagain := h₆.performs_emit .continueLoop (.compare .ne .i8 value (.int 0)) (by decide) rfl rfl
    (by simp [Op.operands, hsees, seesOperand_int])
  have hregion₇ := ((hregion₄.reaches haddress.reaches).reaches hload.reaches).reaches hagain.reaches
  have hwaiting := hagain.reaches.waiting.trans (hload.reaches.waiting.trans haddress.reaches.waiting)
  obtain ⟨d₈, hguarded, hregion₈, hwaiting₈⟩ := hregion₇.exists_guarded h.unscaled
    (sees_nextName rfl) inside behind head.label (by simp) (by rw [hwaiting]; exact .swap ..) hbody
  have hbuilds : Builds Lowers (Node.lower scale (.loop body)) checks d () d₈ := by
    rw [Node.lower]
    exact hhead.bind (hinside.bind (hbehind.bind (hgo.bind ((builds_leave hwaits).bind
      (haddress.builds.bind (hload.builds.bind (hagain.builds.bind hguarded)))))))
  exact ⟨d₈, hbuilds.runs, hregion₈.finish hwaiting₈⟩

/-- A scaled body, if it can be lowered wherever there is a scale. -/
theorem exists_scaled (h : d.Hosts scale) {body : List Node}
    (hbody : ∀ {x : Operand} {d : Draft}, d.Hosts (some x) →
      ∃ d', Performs (Program.lower (some x) body) checks d () d') :
    ∃ d', Performs (Node.lower scale (.scaled body)) checks d () d' := by
  obtain ⟨multiplier, address, d₁, d₀, haddress, hload, -, hsees⟩ :=
    h.exists_loadCell (s := .multiplier) (by decide)
  have h₀ := (h.after haddress.reaches).after hload.reaches
  let d₂ := d₀.openBlock .multiply d₀
  let d₃ := d₂.openBlock .multiplyDone d₀
  let inside := d₀.nextBlock .multiply
  let behind := d₂.nextBlock .multiplyDone
  have hregion₂ : Region [inside.label] [] d₀ d₂ := (Region.start h₀.going).openBlock h₀ (by decide)
  have hregion₃ : Region [behind.label, inside.label] [] d₀ d₃ := hregion₂.openBlock h₀ (by decide)
  have hinside : Builds Lowers (newBlock .multiply) [] d₀ inside d₂ :=
    builds_newBlock (by decide) fun _ hn => hn
  have hbehind : Builds Lowers (newBlock .multiplyDone) [] d₂ behind d₃ :=
    builds_newBlock (by decide) hregion₂.sees
  have hnonzero := (hregion₃.hosts h₀).performs_emit .hasMultiplier
    (.compare .ne .i8 multiplier (.int 0)) (by decide) rfl rfl
    (by simp [Op.operands, hsees.mono hregion₃.sees, seesOperand_int])
  have hregion₄ := hregion₃.reaches hnonzero.reaches
  obtain ⟨d₅, hguarded, hregion₅, hwaiting⟩ := hregion₄.exists_guarded (h₀.scaled hsees)
    (sees_nextName rfl) inside behind behind.label (by simp) (.swap ..) hbody
  obtain ⟨d₆, hclear⟩ := (hregion₅.hosts h₀).exists_clearCell
  have hbuilds : Builds Lowers (Node.lower scale (.scaled body)) (checks ++ []) d () d₆ := by
    rw [lower_scaled]
    exact haddress.builds.bind (hload.builds.bind (hinside.bind (hbehind.bind
      (hnonzero.builds.bind (hguarded.bind hclear.builds)))))
  have hreaches := haddress.reaches.trans (hload.reaches.trans
    ((hregion₅.finish hwaiting).trans hclear.reaches))
  have hperforms : Performs (Node.lower scale (.scaled body)) (checks ++ []) d () d₆ :=
    ⟨hbuilds.runs, hreaches⟩
  rw [List.append_nil] at hperforms
  exact ⟨d₆, hperforms⟩

end Hosts

end Draft

end IR

open IR IR.Draft

/-! ## Lowering -/

mutual

/-- A node is lowered in steps, with a check for each node in it that can leave the tape. -/
theorem Node.performs_lower : (n : Node) → n.every Node.isInstruction = true →
    ∀ {scale : Option Operand} {d : Draft}, d.Hosts scale →
      ∃ d', Performs (n.lower scale) n.leftNodes d () d'
  | .moveRight n, _, _, _, h | .scanRight n, _, _, _, h => by
    rw [Node.lower]
    refine ⟨_, h.performs_emitUnused _ rfl rfl ?_⟩
    simp [Op.operands, h.cells, h.length, h.index, seesOperand_int]
  | .moveLeft n, _, _, _, h => h.exists_moveLeft n
  | .increment n, _, _, _, h => by
    rw [Node.lower]
    exact h.exists_changeCell .add (by decide) n
  | .decrement n, _, _, _, h => by
    rw [Node.lower]
    exact h.exists_changeCell .sub (by decide) n
  | .output, _, _, _, h => h.exists_output
  | .input, _, _, _, h => h.exists_input
  | .loop body, hok, _, _, h => by
    rw [Node.every, Bool.and_eq_true] at hok
    exact h.exists_loop fun h => Program.performs_lower body hok.2 h
  | .scanLeft n, _, _, _, h => h.exists_scanLeft n
  | .clear, _, _, _, h => by
    rw [Node.lower]
    exact h.exists_clearCell
  | .scaled body, hok, _, _, h => by
    rw [Node.every, Bool.and_eq_true] at hok
    exact h.exists_scaled fun h => Program.performs_lower body hok.2 h
  | .carryRight n, _, _, _, h => h.exists_carryRight n
  | .carryLeft n, _, _, _, h => h.exists_carryLeft n
  | .derived .., hok, _, _, _ | .foreign _, hok, _, _, _ => nomatch hok

/-- A program is lowered in steps, with a check for each of its nodes that can leave the tape. -/
theorem Program.performs_lower : (p : List Node) → Program.every Node.isInstruction p = true →
    ∀ {scale : Option Operand} {d : Draft}, d.Hosts scale →
      ∃ d', Performs (Program.lower scale p) (Program.leftNodes p) d () d'
  | [], _, _, d, h => ⟨d, rfl, .refl d, h.going, rfl, fun _ hn => hn⟩
  | n :: p, hok, _, _, h => by
    rw [Program.every, Bool.and_eq_true] at hok
    obtain ⟨d₁, hfirst⟩ := Node.performs_lower n hok.1 h
    obtain ⟨d₂, hrest⟩ := Program.performs_lower p hok.2 (h.after hfirst.reaches)
    rw [Program.lower]
    exact ⟨d₂, hfirst.bind hrest⟩

end

end Brainfuck
