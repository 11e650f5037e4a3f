import Brainfuck.IR.Lowering
import Brainfuck.Proofs.Meaning

/-!
# Blocks under construction

A construction only ever adds: it takes names that were free, it puts lines behind the lines of the
block that is being filled, and it creates blocks.  `Builder.Grows` says this of two builders, and
`Growing` of a construction.  The rest of the theory needs four things of it.

* The final blocks contain those of every stage on the way, lines as a beginning of lines.  This is
  `Contained`; whoever knows where in a block a stage ended knows what comes next in the final block.
* A block that was created and not entered is still empty, however much was built meanwhile.
* No two blocks have the same label, since each label was free when it was taken.
* The block that stands last stays there, and in front of it the new blocks come to stand in the order
  of their creation.

Entering a block is the one thing that does not grow by itself, since it may go back to a block that
is finished; from the point of view of a stage before the block existed it does.

* `NameTable.Taken`, `Builder.nextName`: names that are taken, and the next one.
* `Builder.emitted`, `Builder.opened`, `Builder.appended`, `Builder.entered`: what the steps of a
  construction do.
* `Builder.Grows`, `Growing`: growth of builders, and constructions that only let them grow.
-/

namespace Brainfuck.IR

/-! ## Names -/

namespace NameTable

theorem lookup_cons_stem (r k : Stem) (n : Nat) (rest : List (Stem × Nat)) :
    ((k, n) :: rest).lookup r = if r = k then some n else rest.lookup r := by
  rw [List.lookup_cons]
  by_cases h : r = k
  · rw [if_pos h, beq_iff_eq.mpr h]
  · rw [if_neg h, beq_false_of_ne h]

theorem lookup_bump (s r : Stem) (counts : List (Stem × Nat)) :
    (bump s counts).lookup r =
      if r = s then some ((counts.lookup s).getD 0 + 1) else counts.lookup r := by
  induction counts with
  | nil => rw [bump, lookup_cons_stem]; rfl
  | cons e rest ih =>
    obtain ⟨k, n⟩ := e
    rw [bump]
    by_cases hk : k = s
    · subst hk
      rw [if_pos rfl, lookup_cons_stem, lookup_cons_stem, lookup_cons_stem, if_pos rfl,
        Option.getD_some]
      split <;> rfl
    · rw [if_neg hk, lookup_cons_stem, lookup_cons_stem, lookup_cons_stem, if_neg (Ne.symm hk), ih]
      by_cases hr : r = s
      · rw [if_pos hr, if_pos hr, if_neg fun h => hk (h.symm.trans hr)]
      · rw [if_neg hr, if_neg hr]

/-- Taking a name counts it. -/
theorem count_take (t : NameTable) (s r : Stem) :
    (t.take s).2.count r = if r = s then t.count s + 1 else t.count r := by
  rw [take, count, lookup_bump]
  split <;> rfl

/-- The name has been taken. -/
def Taken (t : NameTable) (n : Name) : Prop := n.copy < t.count n.stem

instance (t : NameTable) (n : Name) : Decidable (t.Taken n) :=
  inferInstanceAs (Decidable (n.copy < t.count n.stem))

/-- Every name that is taken in one table is taken in another. -/
def Within (t t' : NameTable) : Prop := ∀ s, t.count s ≤ t'.count s

theorem Within.taken {t t' : NameTable} (h : Within t t') {n : Name} (hn : t.Taken n) :
    t'.Taken n :=
  Nat.lt_of_lt_of_le hn (h n.stem)

theorem within_take (t : NameTable) (s : Stem) : Within t (t.take s).2 := by
  intro r
  rw [count_take]
  split
  case isTrue h => rw [h]; exact Nat.le_succ _
  case isFalse => exact Nat.le_refl _

/-- The next name is free. -/
theorem not_taken_take (t : NameTable) (s : Stem) : ¬ t.Taken (t.take s).1 :=
  Nat.lt_irrefl _

theorem taken_take (t : NameTable) (s : Stem) : (t.take s).2.Taken (t.take s).1 := by
  change t.count s < (t.take s).2.count s
  rw [count_take, if_pos rfl]
  exact Nat.lt_succ_self _

end NameTable

/-! ## Steps of a construction -/

namespace Builder

/-- The name that a line or block with the given stem gets. -/
def nextName (b : Builder) (s : Stem) : Name := (b.names.take s).1

/-- A line has been added to the block that is being filled. -/
def emitted (b : Builder) (s : Stem) (op : Op) : Builder where
  names := (b.names.take s).2
  blocks := b.blocks.modify b.current fun block =>
    { block with lines := block.lines.push ⟨b.nextName s, op⟩ }
  order := b.order
  current := b.current

/-- An empty block has been created and put behind so many of the others. -/
def inserted (b : Builder) (position : Nat) (s : Stem) : Builder where
  names := (b.names.take s).2
  blocks := b.blocks.push ⟨b.nextName s, #[]⟩
  order := b.order.insertIdx position b.blocks.size
  current := b.current

/-- An empty block has been created in front of the one that stands last. -/
def opened (b : Builder) (s : Stem) : Builder := b.inserted (b.order.length - 1) s

/-- An empty block has been created behind the others. -/
def appended (b : Builder) (s : Stem) : Builder := b.inserted b.order.length s

/-- Another block is being filled. -/
def entered (b : Builder) (index : Nat) : Builder := { b with current := index }

/-- The block that is being filled exists. -/
def Valid (b : Builder) : Prop := b.current < b.blocks.size

/-- The labels of the blocks, in order of creation. -/
def labels (b : Builder) : List Name := b.blocks.toList.map Block.label

theorem length_labels (b : Builder) : b.labels.length = b.blocks.size := by
  rw [labels, List.length_map, Array.length_toList]

theorem getElem?_emitted (b : Builder) (s : Stem) (op : Op) (i : Nat) :
    (b.emitted s op).blocks[i]? =
      if b.current = i then
        b.blocks[i]?.map fun block => { block with lines := block.lines.push ⟨b.nextName s, op⟩ }
      else b.blocks[i]? :=
  Array.getElem?_modify

theorem getElem?_inserted (b : Builder) (position : Nat) (s : Stem) (i : Nat) :
    (b.inserted position s).blocks[i]? =
      if i = b.blocks.size then some ⟨b.nextName s, #[]⟩ else b.blocks[i]? :=
  Array.getElem?_push

theorem getElem?_opened (b : Builder) (s : Stem) (i : Nat) :
    (b.opened s).blocks[i]? =
      if i = b.blocks.size then some ⟨b.nextName s, #[]⟩ else b.blocks[i]? :=
  b.getElem?_inserted _ s i

/-- A new line gives no block another label. -/
theorem labels_emitted (b : Builder) (s : Stem) (op : Op) : (b.emitted s op).labels = b.labels := by
  refine List.ext_getElem? fun i => ?_
  rw [labels, labels, List.getElem?_map, List.getElem?_map, Array.getElem?_toList,
    Array.getElem?_toList, getElem?_emitted]
  split
  · cases b.blocks[i]? <;> rfl
  · rfl

theorem labels_inserted (b : Builder) (position : Nat) (s : Stem) :
    (b.inserted position s).labels = b.labels ++ [b.nextName s] := by
  rw [labels, inserted, Array.toList_push, List.map_append]
  rfl

theorem insertIdx_length_append_singleton {α : Type} (before : List α) (last a : α) :
    (before ++ [last]).insertIdx ((before ++ [last]).length - 1) a = before ++ [a, last] := by
  rw [List.length_append, List.length_singleton, Nat.add_sub_cancel]
  induction before with
  | nil => rfl
  | cons x before ih =>
    rw [List.cons_append, List.length_cons, List.insertIdx_succ_cons, ih, List.cons_append]

/-- A block that is created comes to stand in front of the last one. -/
theorem order_opened {b : Builder} {before : List Nat} {last : Nat} (h : b.order = before ++ [last])
    (s : Stem) : (b.opened s).order = before ++ [b.blocks.size, last] := by
  rw [opened, inserted, h]
  exact insertIdx_length_append_singleton before last _

end Builder

namespace Build

variable {α β : Type} {b b' : Builder}

/-- A construction in two parts. -/
theorem bind_eq_ok {m : Build α} {f : α → Build β} {a' : β} (h : (m >>= f) b = .ok (a', b')) :
    ∃ a b₁, m b = .ok (a, b₁) ∧ f a b₁ = .ok (a', b') := by
  change (m b).bind (fun r => f r.1 r.2) = _ at h
  cases hm : m b with
  | error v => rw [hm] at h; cases h
  | ok r =>
    rw [hm] at h
    exact ⟨r.1, r.2, rfl, h⟩

theorem emit_eq_ok {s : Stem} {op : Op} {a : Operand} (h : emit s op b = .ok (a, b')) :
    a = .reg (b.nextName s) ∧ b' = b.emitted s op := by
  obtain ⟨rfl, rfl⟩ := Prod.mk.inj (Except.ok.inj h)
  exact ⟨rfl, rfl⟩

theorem newBlock_eq_ok {s : Stem} {r : BlockRef} (h : newBlock s b = .ok (r, b')) :
    r = ⟨b.nextName s, b.blocks.size⟩ ∧ b' = b.opened s := by
  obtain ⟨rfl, rfl⟩ := Prod.mk.inj (Except.ok.inj h)
  exact ⟨rfl, rfl⟩

theorem appendBlock_eq_ok {s : Stem} {r : BlockRef} (h : appendBlock s b = .ok (r, b')) :
    r = ⟨b.nextName s, b.blocks.size⟩ ∧ b' = b.appended s := by
  obtain ⟨rfl, rfl⟩ := Prod.mk.inj (Except.ok.inj h)
  exact ⟨rfl, rfl⟩

theorem enter_eq_ok {r : BlockRef} {u : Unit} (h : enter r b = .ok (u, b')) :
    b' = b.entered r.index := by
  obtain ⟨_, rfl⟩ := Prod.mk.inj (Except.ok.inj h)
  rfl

end Build

/-! ## Contained blocks -/

/-- Blocks that are there among other ones with the same labels and with their lines as a beginning. -/
def Contained (blocks full : Array Block) : Prop :=
  ∀ block ∈ blocks, ∃ block' ∈ full, block'.label = block.label ∧
    block.lines.toList <+: block'.lines.toList

namespace Contained

variable {blocks blocks' full : Array Block}

theorem refl (blocks : Array Block) : Contained blocks blocks :=
  fun block h => ⟨block, h, rfl, List.prefix_rfl⟩

theorem trans (h : Contained blocks blocks') (h' : Contained blocks' full) :
    Contained blocks full := by
  intro block hblock
  obtain ⟨block₁, hblock₁, hlabel₁, hlines₁⟩ := h block hblock
  obtain ⟨block₂, hblock₂, hlabel₂, hlines₂⟩ := h' block₁ hblock₁
  exact ⟨block₂, hblock₂, hlabel₂.trans hlabel₁, hlines₁.trans hlines₂⟩

theorem push (blocks : Array Block) (new : Block) : Contained blocks (blocks.push new) :=
  fun block hblock => ⟨block, Array.mem_push_of_mem new hblock, rfl, List.prefix_rfl⟩

end Contained

theorem Builder.contained_emitted (b : Builder) (s : Stem) (op : Op) :
    Contained b.blocks (b.emitted s op).blocks := by
  intro block hblock
  obtain ⟨i, hi⟩ := Array.mem_iff_getElem?.mp hblock
  have hthere := b.getElem?_emitted s op i
  rw [hi] at hthere
  split at hthere
  · refine ⟨_, Array.mem_of_getElem? hthere, rfl, ?_⟩
    rw [Array.toList_push]
    exact List.prefix_append _ _
  · exact ⟨block, Array.mem_of_getElem? hthere, rfl, List.prefix_rfl⟩

/-! ## Growth -/

/-- What a construction can do to a builder. -/
structure Builder.Grows (b b' : Builder) : Prop where
  names : b.names.Within b'.names
  contained : Contained b.blocks b'.blocks
  /-- Only the block that is being filled gets lines. -/
  others : ∀ i, i < b.blocks.size → i ≠ b.current → b'.blocks[i]? = b.blocks[i]?
  /-- The block that is being filled afterwards is the same or a new one. -/
  current : b'.current = b.current ∨ b.blocks.size ≤ b'.current
  valid : b.Valid → b'.Valid
  /-- New blocks have labels that were free. -/
  labels : ∃ extra, b'.labels = b.labels ++ extra ∧ extra.Nodup ∧
    ∀ l ∈ extra, ¬ b.names.Taken l ∧ b'.names.Taken l
  /-- New blocks stand in front of the last one, in the order of their creation. -/
  order : ∀ {before : List Nat} {last : Nat}, b.order = before ++ [last] →
    b'.order = before ++ List.range' b.blocks.size (b'.blocks.size - b.blocks.size) ++ [last]

namespace Builder

variable {b b₁ b' : Builder}

theorem Grows.size_le (h : b.Grows b') : b.blocks.size ≤ b'.blocks.size := by
  obtain ⟨extra, hlabels, _⟩ := h.labels
  rw [← b.length_labels, ← b'.length_labels, hlabels, List.length_append]
  omega

theorem Grows.refl (b : Builder) : b.Grows b where
  names _ := Nat.le_refl _
  contained := .refl _
  others _ _ _ := rfl
  current := Or.inl rfl
  valid h := h
  labels := ⟨[], (List.append_nil _).symm, List.nodup_nil, fun _ hl => absurd hl List.not_mem_nil⟩
  order h := by rw [h, Nat.sub_self, List.range'_zero, List.append_nil]

theorem Grows.trans (h : b.Grows b₁) (h' : b₁.Grows b') : b.Grows b' where
  names s := Nat.le_trans (h.names s) (h'.names s)
  contained := h.contained.trans h'.contained
  others i hi hne := by
    have hi₁ : i < b₁.blocks.size := Nat.lt_of_lt_of_le hi h.size_le
    have hne₁ : i ≠ b₁.current := by
      rcases h.current with hcurrent | hcurrent
      · rwa [hcurrent]
      · omega
    rw [h'.others i hi₁ hne₁, h.others i hi hne]
  current := by
    have hsize := h.size_le
    rcases h'.current with hcurrent | hcurrent
    · rw [hcurrent]
      exact h.current
    · exact Or.inr (Nat.le_trans hsize hcurrent)
  valid hb := h'.valid (h.valid hb)
  labels := by
    obtain ⟨extra, hlabels, hnodup, hfree⟩ := h.labels
    obtain ⟨extra', hlabels', hnodup', hfree'⟩ := h'.labels
    refine ⟨extra ++ extra', by rw [hlabels', hlabels, List.append_assoc], ?_, fun l hl => ?_⟩
    · refine List.nodup_append.mpr ⟨hnodup, hnodup', fun l hl l' hl' heq => ?_⟩
      rw [heq] at hl
      exact (hfree' l' hl').1 (hfree l' hl).2
    · rcases List.mem_append.mp hl with hl | hl
      · exact ⟨(hfree l hl).1, h'.names.taken (hfree l hl).2⟩
      · exact ⟨fun htaken => (hfree' l hl).1 (h.names.taken htaken), (hfree' l hl).2⟩
  order {before last} hb := by
    have hsize := h.size_le
    have hsize' := h'.size_le
    have hnumbers : List.range' b.blocks.size (b₁.blocks.size - b.blocks.size) ++
        List.range' (b.blocks.size + 1 * (b₁.blocks.size - b.blocks.size))
          (b'.blocks.size - b₁.blocks.size) = _ :=
      List.range'_append
    rw [show b.blocks.size + 1 * (b₁.blocks.size - b.blocks.size) = b₁.blocks.size by omega,
      show b₁.blocks.size - b.blocks.size + (b'.blocks.size - b₁.blocks.size) =
        b'.blocks.size - b.blocks.size by omega] at hnumbers
    rw [h'.order (h.order hb), List.append_assoc before, hnumbers]

/-- Entering a block that did not exist at a stage is growth since that stage. -/
theorem Grows.entered (h : b.Grows b₁) {i : Nat} (hnew : b.blocks.size ≤ i)
    (hi : i < b₁.blocks.size) : b.Grows (b₁.entered i) where
  names := h.names
  contained := h.contained
  others := h.others
  current := Or.inr hnew
  valid _ := hi
  labels := h.labels
  order := h.order

theorem grows_emitted (b : Builder) (s : Stem) (op : Op) : b.Grows (b.emitted s op) where
  names := b.names.within_take s
  contained := b.contained_emitted s op
  others i _ hne := by rw [getElem?_emitted, if_neg (Ne.symm hne)]
  current := Or.inl rfl
  valid h := by
    change b.current < (b.blocks.modify _ _).size
    rwa [Array.size_modify]
  labels := ⟨[], by rw [labels_emitted, List.append_nil], List.nodup_nil,
    fun l hl => absurd hl List.not_mem_nil⟩
  order h := by
    have hsize : (b.emitted s op).blocks.size = b.blocks.size := Array.size_modify
    rw [hsize, Nat.sub_self, List.range'_zero, List.append_nil]
    exact h

theorem size_opened (b : Builder) (s : Stem) : (b.opened s).blocks.size = b.blocks.size + 1 :=
  Array.size_push _

theorem grows_opened (b : Builder) (s : Stem) : b.Grows (b.opened s) where
  names := b.names.within_take s
  contained := .push _ _
  others i hi _ := by rw [getElem?_opened, if_neg (Nat.ne_of_lt hi)]
  current := Or.inl rfl
  valid h := by
    rw [Valid, size_opened]
    exact Nat.lt_succ_of_lt h
  labels := by
    have hone : [b.nextName s].Nodup := List.nodup_cons.mpr ⟨List.not_mem_nil, List.nodup_nil⟩
    refine ⟨[b.nextName s], b.labels_inserted _ s, hone, fun l hl => ?_⟩
    rw [List.mem_singleton.mp hl]
    exact ⟨b.names.not_taken_take s, b.names.taken_take s⟩
  order h := by
    rw [order_opened h, size_opened, Nat.add_sub_cancel_left, List.range'_one, List.append_assoc]
    rfl

/-- A block that has been created and has no line yet. -/
def Empty (b : Builder) (r : BlockRef) : Prop := b.blocks[r.index]? = some ⟨r.label, #[]⟩

theorem Empty.lt {r : BlockRef} (h : b.Empty r) : r.index < b.blocks.size :=
  (Array.getElem?_eq_some_iff.mp h).1

/-- A block that is not being filled stays empty. -/
theorem Empty.grows {r : BlockRef} (h : b.Empty r) (hb : b.Grows b') (hne : r.index ≠ b.current) :
    b'.Empty r :=
  (hb.others r.index h.lt hne).trans h

/-- It is not being filled later either: construction goes on in the same block or in a new one. -/
theorem Empty.ne_current {r : BlockRef} (h : b.Empty r) (hb : b.Grows b')
    (hne : r.index ≠ b.current) : r.index ≠ b'.current := by
  rcases hb.current with heq | hnew
  · rwa [heq]
  · exact Nat.ne_of_lt (Nat.lt_of_lt_of_le h.lt hnew)

end Builder

/-! ## Constructions that only add -/

/-- A construction under which every builder grows. -/
class Growing {α : Type} (m : Build α) : Prop where
  grows : ∀ {b : Builder} {a : α} {b' : Builder}, b.Valid → m b = .ok (a, b') → b.Grows b'

namespace Build

variable {α β : Type} {b b' : Builder}

instance (a : α) : Growing (pure a : Build α) where
  grows _ h := by
    obtain ⟨_, rfl⟩ := Prod.mk.inj (Except.ok.inj h)
    exact .refl _

instance (m : Build α) (f : α → Build β) [Growing m] [∀ a, Growing (f a)] : Growing (m >>= f) where
  grows hb h := by
    obtain ⟨a, b₁, hm, hf⟩ := bind_eq_ok h
    have hgrows := Growing.grows hb hm
    exact hgrows.trans (Growing.grows (hgrows.valid hb) hf)

instance (s : Stem) (op : Op) : Growing (emit s op) where
  grows _ h := by
    obtain ⟨_, rfl⟩ := emit_eq_ok h
    exact Builder.grows_emitted _ s op

instance (op : Op) : Growing (emitUnused op) :=
  inferInstanceAs (Growing (emit .unused op >>= fun _ => pure ()))

instance (s : Stem) : Growing (newBlock s) where
  grows _ h := by
    obtain ⟨_, rfl⟩ := newBlock_eq_ok h
    exact Builder.grows_opened _ s

instance : Growing loadCells := inferInstanceAs (Growing (emit _ _))

instance : Growing loadIndex := inferInstanceAs (Growing (emit _ _))

instance : Growing cellAddress := by
  unfold cellAddress
  infer_instance

instance : Growing clearCell := by
  unfold clearCell
  infer_instance

/-- The amount of a change, multiplied by a scale if there is one. -/
def scaledAmount (amount : Int) : Option Operand → Build Operand
  | some factor => emit .multipliedAmount (.arith .mul .i8 (.int (amount % 256)) factor)
  | none => pure (.int (amount % 256))

instance (amount : Int) (scale : Option Operand) : Growing (scaledAmount amount scale) := by
  cases scale with
  | none => exact inferInstanceAs (Growing (pure _))
  | some factor => exact inferInstanceAs (Growing (emit _ _))

theorem changeCell_eq (f : Arith) (s : Stem) (amount : Int) (scale : Option Operand) :
    changeCell f s amount scale = (do
      let address ← cellAddress
      let old ← emit .load (.load .i8 address)
      let amount ← scaledAmount amount scale
      let new ← emit s (.arith f .i8 old amount)
      emitUnused (.store .i8 new address)) := by
  cases scale <;> rfl

instance (f : Arith) (s : Stem) (amount : Int) (scale : Option Operand) :
    Growing (changeCell f s amount scale) := by
  rw [changeCell_eq]
  infer_instance

/-- A block that has just been created. -/
theorem empty_of_newBlock {s : Stem} {r : BlockRef} (h : newBlock s b = .ok (r, b')) :
    b'.Empty r ∧ r.index = b.blocks.size ∧ b'.current = b.current := by
  obtain ⟨rfl, rfl⟩ := newBlock_eq_ok h
  refine ⟨?_, rfl, rfl⟩
  rw [Builder.Empty, Builder.getElem?_opened, if_pos rfl]

theorem size_of_newBlock {s : Stem} {r : BlockRef} (h : newBlock s b = .ok (r, b')) :
    b'.blocks.size = b.blocks.size + 1 := by
  obtain ⟨_, rfl⟩ := newBlock_eq_ok h
  exact b.size_opened s

instance (condition : Operand) (s : Stem) : Growing (failIf condition s) where
  grows {b a b'} hb h := by
    obtain ⟨rest, b₁, hnew, h⟩ := bind_eq_ok h
    obtain ⟨_, b₂, hbranch, henter⟩ := bind_eq_ok h
    obtain ⟨hempty, hindex, _⟩ := empty_of_newBlock hnew
    have hopened : b.Grows b₁ := Growing.grows hb hnew
    have hgrows : b₁.Grows b₂ := Growing.grows (hopened.valid hb) hbranch
    rw [enter_eq_ok henter]
    exact (hopened.trans hgrows).entered (Nat.le_of_eq hindex.symm)
      (Nat.lt_of_lt_of_le hempty.lt hgrows.size_le)

/-- Goes to one block if the current cell is not zero, and to another one if it is. -/
def testCell (yes no : Name) : Build Unit := do
  let address ← cellAddress
  let value ← emit .load (.load .i8 address)
  let again ← emit .continueLoop (.compare .ne .i8 value (.int 0))
  emitUnused (.branch again yes no)

instance (yes no : Name) : Growing (testCell yes no) := by
  unfold testCell
  infer_instance

end Build

open Build

/-! ## Loops and scaled bodies -/

/-- The stages in the construction of a loop: its three blocks are opened, the block in front of it
goes to the test, the test is built, the body is lowered, and goes back to the test. -/
structure LoopStages (body : List Node) (b b' : Builder) where
  head : BlockRef
  inside : BlockRef
  behind : BlockRef
  opened : Builder
  jumped : Builder
  tested : Builder
  filled : Builder
  closed : Builder
  valid : b.Valid
  opened_eq : opened = ((b.opened .loop).opened .thenBlock).opened .merge
  grows : b.Grows opened
  current : opened.current = b.current
  unfilled : opened.blocks[b.current]? = b.blocks[b.current]?
  head_index : head.index = b.blocks.size
  inside_index : inside.index = b.blocks.size + 1
  behind_index : behind.index = b.blocks.size + 2
  head_empty : opened.Empty head
  inside_empty : opened.Empty inside
  behind_empty : opened.Empty behind
  jump : emitUnused (.br head.label) opened = .ok ((), jumped)
  test : testCell inside.label behind.label (jumped.entered head.index) = .ok ((), tested)
  fill : Program.lower none body (tested.entered inside.index) = .ok ((), filled)
  close : emitUnused (.br head.label) filled = .ok ((), closed)
  last : b' = closed.entered behind.index

variable {scale : Option Operand} {body : List Node} {b b' : Builder} {u : Unit}

/-- Creating a block does not touch those that exist. -/
theorem Build.getElem?_of_newBlock {s : Stem} {r : BlockRef} (h : newBlock s b = .ok (r, b'))
    {i : Nat} (hi : i < b.blocks.size) : b'.blocks[i]? = b.blocks[i]? := by
  obtain ⟨_, rfl⟩ := newBlock_eq_ok h
  rw [Builder.getElem?_opened, if_neg (Nat.ne_of_lt hi)]

theorem exists_loopStages (hb : b.Valid)
    (h : (Node.loop body).lower scale b = .ok (u, b')) : Nonempty (LoopStages body b b') := by
  rw [Node.lower] at h
  obtain ⟨head, b₁, hhead, h⟩ := bind_eq_ok h
  obtain ⟨inside, b₂, hinside, h⟩ := bind_eq_ok h
  obtain ⟨behind, b₃, hbehind, h⟩ := bind_eq_ok h
  obtain ⟨_, b₄, hjump, h⟩ := bind_eq_ok h
  obtain ⟨_, b₅, henter, h⟩ := bind_eq_ok h
  have htest : (testCell inside.label behind.label >>= fun _ => do
      enter inside
      Program.lower none body
      emitUnused (.br head.label)
      enter behind) b₅ = .ok (u, b') := by
    simp only [testCell, bind_assoc]
    exact h
  obtain ⟨_, b₆, htest, h⟩ := bind_eq_ok htest
  obtain ⟨_, b₇, henter', h⟩ := bind_eq_ok h
  obtain ⟨_, b₈, hfill, h⟩ := bind_eq_ok h
  obtain ⟨_, b₉, hclose, hlast⟩ := bind_eq_ok h
  obtain rfl := enter_eq_ok henter
  obtain rfl := enter_eq_ok henter'
  obtain ⟨hempty₁, hindex₁, hcurrent₁⟩ := empty_of_newBlock hhead
  obtain ⟨hempty₂, hindex₂, hcurrent₂⟩ := empty_of_newBlock hinside
  obtain ⟨hempty₃, hindex₃, hcurrent₃⟩ := empty_of_newBlock hbehind
  have hgrows₁ : b.Grows b₁ := Growing.grows hb hhead
  have hgrows₂ : b₁.Grows b₂ := Growing.grows (hgrows₁.valid hb) hinside
  have hgrows₃ : b₂.Grows b₃ := Growing.grows (hgrows₂.valid (hgrows₁.valid hb)) hbehind
  have hlt : b.current < b.blocks.size := hb
  have hsize₁ := size_of_newBlock hhead
  have hsize₂ : b₂.blocks.size = b.blocks.size + 2 := by rw [size_of_newBlock hinside, hsize₁]
  exact ⟨{
    head := head
    inside := inside
    behind := behind
    opened := b₃
    jumped := b₄
    tested := b₆
    filled := b₈
    closed := b₉
    valid := hb
    opened_eq := by
      rw [(newBlock_eq_ok hbehind).2, (newBlock_eq_ok hinside).2, (newBlock_eq_ok hhead).2]
    grows := (hgrows₁.trans hgrows₂).trans hgrows₃
    current := hcurrent₃.trans (hcurrent₂.trans hcurrent₁)
    unfilled := by
      rw [getElem?_of_newBlock hbehind (by omega), getElem?_of_newBlock hinside (by omega),
        getElem?_of_newBlock hhead hb]
    head_index := hindex₁
    inside_index := hindex₂.trans hsize₁
    behind_index := hindex₃.trans hsize₂
    head_empty := (hempty₁.grows hgrows₂ (by omega)).grows hgrows₃ (by omega)
    inside_empty := hempty₂.grows hgrows₃ (by omega)
    behind_empty := hempty₃
    jump := hjump
    test := htest
    fill := hfill
    close := hclose
    last := enter_eq_ok hlast }⟩

namespace LoopStages

variable (st : LoopStages body b b')

theorem grows_jumped : st.opened.Grows st.jumped :=
  Growing.grows (st.grows.valid st.valid) st.jump

/-- The test is still empty when it is entered. -/
theorem jumped_head : st.jumped.Empty st.head := by
  have hcurrent : st.opened.current < b.blocks.size := st.current ▸ st.valid
  have := st.head_index
  exact st.head_empty.grows st.grows_jumped (by omega)

theorem grows_tested : (st.jumped.entered st.head.index).Grows st.tested :=
  Growing.grows st.jumped_head.lt st.test

/-- A block other than the test is still empty when the test is built. -/
theorem tested_empty {r : BlockRef} (h : st.opened.Empty r) (hr : st.head.index < r.index) :
    st.tested.Empty r := by
  have hcurrent : st.opened.current < b.blocks.size := st.current ▸ st.valid
  have := st.head_index
  have hjumped : st.jumped.Empty r := h.grows st.grows_jumped (by omega)
  have hentered : (st.jumped.entered st.head.index).Empty r := hjumped
  exact hentered.grows st.grows_tested (Nat.ne_of_gt hr)

/-- The inside of the loop is still empty when it is entered. -/
theorem tested_inside : st.tested.Empty st.inside := by
  have := st.head_index
  have := st.inside_index
  exact st.tested_empty st.inside_empty (by omega)

theorem grows_filled [Growing (Program.lower none body)] :
    (st.tested.entered st.inside.index).Grows st.filled :=
  Growing.grows st.tested_inside.lt st.fill

theorem grows_closed [Growing (Program.lower none body)] : st.filled.Grows st.closed :=
  Growing.grows (st.grows_filled.valid st.tested_inside.lt) st.close

/-- What comes behind the loop is still empty when it is entered, whatever the body was. -/
theorem closed_behind [Growing (Program.lower none body)] : st.closed.Empty st.behind := by
  have := st.head_index
  have := st.inside_index
  have := st.behind_index
  have hbehind : (st.tested.entered st.inside.index).Empty st.behind :=
    st.tested_empty st.behind_empty (by omega)
  have hne : st.behind.index ≠ st.inside.index := by omega
  exact (hbehind.grows st.grows_filled hne).grows st.grows_closed
    (hbehind.ne_current st.grows_filled hne)

/-- From the point of view of the stage before the loop, its inside is growth. -/
theorem grows_inside : b.Grows (st.tested.entered st.inside.index) := by
  have := st.head_index
  have := st.inside_index
  have htest : b.Grows (st.jumped.entered st.head.index) :=
    (st.grows.trans st.grows_jumped).entered (by omega) st.jumped_head.lt
  exact (htest.trans st.grows_tested).entered (by omega) st.tested_inside.lt

theorem grows_loop (st : LoopStages body b b') [Growing (Program.lower none body)] : b.Grows b' := by
  have := st.behind_index
  rw [st.last]
  exact ((st.grows_inside.trans st.grows_filled).trans st.grows_closed).entered (by omega)
    st.closed_behind.lt

end LoopStages

/-- The stages in the construction of a scaled body: the multiplier is loaded, the two blocks are
opened, the multiplier is tested, the body is lowered and goes on behind, where the cell is
cleared. -/
structure ScaledStages (body : List Node) (b b' : Builder) where
  address : Operand
  multiplier : Operand
  nonzero : Operand
  inside : BlockRef
  behind : BlockRef
  addressed : Builder
  loaded : Builder
  opened : Builder
  compared : Builder
  branched : Builder
  filled : Builder
  closed : Builder
  valid : b.Valid
  locate : cellAddress b = .ok (address, addressed)
  load : emit .multiplier (.load .i8 address) addressed = .ok (multiplier, loaded)
  opened_eq : opened = (loaded.opened .multiply).opened .multiplyDone
  grows : loaded.Grows opened
  current : opened.current = loaded.current
  unfilled : opened.blocks[loaded.current]? = loaded.blocks[loaded.current]?
  inside_index : inside.index = loaded.blocks.size
  behind_index : behind.index = loaded.blocks.size + 1
  inside_empty : opened.Empty inside
  behind_empty : opened.Empty behind
  compare : emit .hasMultiplier (.compare .ne .i8 multiplier (.int 0)) opened = .ok (nonzero, compared)
  branch : emitUnused (.branch nonzero inside.label behind.label) compared = .ok ((), branched)
  fill : Program.lower (some multiplier) body (branched.entered inside.index) = .ok ((), filled)
  close : emitUnused (.br behind.label) filled = .ok ((), closed)
  last : clearCell (closed.entered behind.index) = .ok ((), b')

theorem exists_scaledStages (hb : b.Valid)
    (h : (Node.scaled body).lower scale b = .ok (u, b')) : Nonempty (ScaledStages body b b') := by
  rw [Node.lower] at h
  obtain ⟨address, b₁, hlocate, h⟩ := bind_eq_ok h
  obtain ⟨multiplier, b₂, hload, h⟩ := bind_eq_ok h
  obtain ⟨inside, b₃, hinside, h⟩ := bind_eq_ok h
  obtain ⟨behind, b₄, hbehind, h⟩ := bind_eq_ok h
  obtain ⟨nonzero, b₅, hcompare, h⟩ := bind_eq_ok h
  obtain ⟨_, b₆, hbranch, h⟩ := bind_eq_ok h
  obtain ⟨_, b₇, henter, h⟩ := bind_eq_ok h
  obtain ⟨_, b₈, hfill, h⟩ := bind_eq_ok h
  obtain ⟨_, b₉, hclose, h⟩ := bind_eq_ok h
  obtain ⟨_, b₁₀, henter', hlast⟩ := bind_eq_ok h
  obtain rfl := enter_eq_ok henter
  obtain rfl := enter_eq_ok henter'
  obtain ⟨hempty₁, hindex₁, hcurrent₁⟩ := empty_of_newBlock hinside
  obtain ⟨hempty₂, hindex₂, hcurrent₂⟩ := empty_of_newBlock hbehind
  have hgrows₁ : b.Grows b₁ := Growing.grows hb hlocate
  have hgrows₂ : b₁.Grows b₂ := Growing.grows (hgrows₁.valid hb) hload
  have hvalid : b₂.Valid := hgrows₂.valid (hgrows₁.valid hb)
  have hgrows₃ : b₂.Grows b₃ := Growing.grows hvalid hinside
  have hgrows₄ : b₃.Grows b₄ := Growing.grows (hgrows₃.valid hvalid) hbehind
  have hlt : b₂.current < b₂.blocks.size := hvalid
  have hsize := size_of_newBlock hinside
  exact ⟨{
    address := address
    multiplier := multiplier
    nonzero := nonzero
    inside := inside
    behind := behind
    addressed := b₁
    loaded := b₂
    opened := b₄
    compared := b₅
    branched := b₆
    filled := b₈
    closed := b₉
    valid := hb
    locate := hlocate
    load := hload
    opened_eq := by rw [(newBlock_eq_ok hbehind).2, (newBlock_eq_ok hinside).2]
    grows := hgrows₃.trans hgrows₄
    current := hcurrent₂.trans hcurrent₁
    unfilled := by
      rw [getElem?_of_newBlock hbehind (by omega), getElem?_of_newBlock hinside hlt]
    inside_index := hindex₁
    behind_index := hindex₂.trans hsize
    inside_empty := hempty₁.grows hgrows₄ (by omega)
    behind_empty := hempty₂
    compare := hcompare
    branch := hbranch
    fill := hfill
    close := hclose
    last := hlast }⟩

namespace ScaledStages

variable (st : ScaledStages body b b')

theorem grows_addressed : b.Grows st.addressed := Growing.grows st.valid st.locate

theorem grows_loaded : st.addressed.Grows st.loaded :=
  Growing.grows (st.grows_addressed.valid st.valid) st.load

theorem loaded_valid : st.loaded.Valid := st.grows_loaded.valid (st.grows_addressed.valid st.valid)

theorem grows_compared : st.opened.Grows st.compared :=
  Growing.grows (st.grows.valid st.loaded_valid) st.compare

theorem grows_branched : st.compared.Grows st.branched :=
  Growing.grows (st.grows_compared.valid (st.grows.valid st.loaded_valid)) st.branch

/-- A block that was opened is still empty at the branch. -/
theorem branched_empty {r : BlockRef} (h : st.opened.Empty r) (hr : st.loaded.blocks.size ≤ r.index) :
    st.branched.Empty r := by
  have hcurrent : st.opened.current < st.loaded.blocks.size := st.current ▸ st.loaded_valid
  exact h.grows (st.grows_compared.trans st.grows_branched) (by omega)

/-- The body's block is still empty when it is entered. -/
theorem branched_inside : st.branched.Empty st.inside :=
  st.branched_empty st.inside_empty (Nat.le_of_eq st.inside_index.symm)

theorem grows_filled [Growing (Program.lower (some st.multiplier) body)] :
    (st.branched.entered st.inside.index).Grows st.filled :=
  Growing.grows st.branched_inside.lt st.fill

theorem grows_closed [Growing (Program.lower (some st.multiplier) body)] :
    st.filled.Grows st.closed :=
  Growing.grows (st.grows_filled.valid st.branched_inside.lt) st.close

/-- What comes behind the body is still empty when it is entered. -/
theorem closed_behind [Growing (Program.lower (some st.multiplier) body)] :
    st.closed.Empty st.behind := by
  have := st.inside_index
  have := st.behind_index
  have hbehind : (st.branched.entered st.inside.index).Empty st.behind :=
    st.branched_empty st.behind_empty (by omega)
  have hne : st.behind.index ≠ st.inside.index := by omega
  exact (hbehind.grows st.grows_filled hne).grows st.grows_closed
    (hbehind.ne_current st.grows_filled hne)

theorem grows_last [Growing (Program.lower (some st.multiplier) body)] :
    (st.closed.entered st.behind.index).Grows b' :=
  Growing.grows st.closed_behind.lt st.last

theorem grows_loaded' : b.Grows st.loaded := st.grows_addressed.trans st.grows_loaded

theorem grows_inside : b.Grows (st.branched.entered st.inside.index) := by
  have := st.inside_index
  have hsize := st.grows_loaded'.size_le
  exact (((st.grows_loaded'.trans st.grows).trans st.grows_compared).trans
    st.grows_branched).entered (by omega) st.branched_inside.lt

theorem grows_scaled [Growing (Program.lower (some st.multiplier) body)] : b.Grows b' := by
  have := st.behind_index
  have hsize := st.grows_loaded'.size_le
  exact (((st.grows_inside.trans st.grows_filled).trans st.grows_closed).entered (by omega)
    st.closed_behind.lt).trans st.grows_last

end ScaledStages

/-! ## Trees -/

mutual

theorem growing_lower_node : (n : Node) → ∀ scale, Growing (n.lower scale)
  | .moveRight _, _ | .scanRight _, _ => by
    rw [Node.lower]
    infer_instance
  | .moveLeft _, _ | .output, _ | .input, _ | .scanLeft _, _ | .carryRight _, _
  | .carryLeft _, _ => by
    rw [Node.lower]
    infer_instance
  | .increment _, _ | .decrement _, _ | .clear, _ => by
    rw [Node.lower]
    infer_instance
  | .loop body, _ => by
    have := growing_lower body none
    refine ⟨fun hb h => ?_⟩
    obtain ⟨st⟩ := exists_loopStages hb h
    exact st.grows_loop
  | .scaled body, _ => by
    refine ⟨fun hb h => ?_⟩
    obtain ⟨st⟩ := exists_scaledStages hb h
    have := growing_lower body (some st.multiplier)
    exact st.grows_scaled
  | .foreign _, _ | .derived _ _, _ => ⟨fun _ h => by cases h⟩

/-- Lowering a sequence only adds to what is there. -/
theorem growing_lower : (p : List Node) → ∀ scale, Growing (Program.lower scale p)
  | [], _ => by
    rw [Program.lower]
    infer_instance
  | n :: p, scale => by
    have := growing_lower_node n scale
    have := growing_lower p scale
    rw [Program.lower]
    infer_instance

end

instance (n : Node) (scale : Option Operand) : Growing (n.lower scale) := growing_lower_node n scale

instance (p : List Node) (scale : Option Operand) : Growing (Program.lower scale p) :=
  growing_lower p scale

/-! ## Constructions that succeed -/

/-- A construction that meets nothing but instructions. -/
class Succeeding {α : Type} (m : Build α) : Prop where
  succeeds : ∀ b, ∃ r, m b = .ok r

namespace Build

variable {α β : Type}

instance (a : α) : Succeeding (pure a : Build α) := ⟨fun _ => ⟨_, rfl⟩⟩

instance (m : Build α) (f : α → Build β) [Succeeding m] [∀ a, Succeeding (f a)] :
    Succeeding (m >>= f) where
  succeeds b := by
    obtain ⟨r, hr⟩ := Succeeding.succeeds (m := m) b
    obtain ⟨r', hr'⟩ := Succeeding.succeeds (m := f r.1) r.2
    refine ⟨r', ?_⟩
    change (m b).bind (fun r => f r.1 r.2) = _
    rw [hr]
    exact hr'

instance (s : Stem) (op : Op) : Succeeding (emit s op) := ⟨fun _ => ⟨_, rfl⟩⟩

instance (s : Stem) : Succeeding (newBlock s) := ⟨fun _ => ⟨_, rfl⟩⟩

instance (s : Stem) : Succeeding (appendBlock s) := ⟨fun _ => ⟨_, rfl⟩⟩

instance (r : BlockRef) : Succeeding (enter r) := ⟨fun _ => ⟨_, rfl⟩⟩

instance (op : Op) : Succeeding (emitUnused op) := ⟨fun _ => ⟨_, rfl⟩⟩

instance : Succeeding loadCells := ⟨fun _ => ⟨_, rfl⟩⟩

instance : Succeeding loadIndex := ⟨fun _ => ⟨_, rfl⟩⟩

instance : Succeeding cellAddress := ⟨fun _ => ⟨_, rfl⟩⟩

instance : Succeeding clearCell := ⟨fun _ => ⟨_, rfl⟩⟩

instance (condition : Operand) (s : Stem) : Succeeding (failIf condition s) := ⟨fun _ => ⟨_, rfl⟩⟩

instance (f : Arith) (s : Stem) (amount : Int) (scale : Option Operand) :
    Succeeding (changeCell f s amount scale) := by
  unfold changeCell
  cases scale <;> infer_instance

end Build

mutual

theorem succeeding_lower_node :
    (n : Node) → n.every Node.isInstruction = true → ∀ scale, Succeeding (n.lower scale)
  | .moveRight _, _, _ | .moveLeft _, _, _ | .increment _, _, _ | .decrement _, _, _
  | .output, _, _ | .input, _, _ | .scanRight _, _, _ | .scanLeft _, _, _ | .clear, _, _
  | .carryRight _, _, _ | .carryLeft _, _, _ => by
    rw [Node.lower]
    infer_instance
  | .loop body, h, _ => by
    rw [Node.every, Bool.and_eq_true] at h
    have := succeeding_lower body h.2 none
    have (head inside behind : BlockRef) (again : Operand) : Succeeding (do
        emitUnused (.branch again inside.label behind.label)
        enter inside
        Program.lower none body
        emitUnused (.br head.label)
        enter behind) := inferInstance
    rw [Node.lower]
    infer_instance
  | .scaled body, h, _ => by
    rw [Node.every, Bool.and_eq_true] at h
    have (inside behind : BlockRef) (multiplier : Operand) : Succeeding (do
        enter inside
        Program.lower (some multiplier) body
        emitUnused (.br behind.label)
        enter behind
        clearCell) := by
      have := succeeding_lower body h.2 (some multiplier)
      infer_instance
    rw [Node.lower]
    infer_instance
  | .foreign _, h, _ | .derived _ _, h, _ => nomatch h

/-- Lowering succeeds on a tree of instructions. -/
theorem succeeding_lower :
    (p : List Node) → Program.every Node.isInstruction p = true →
      ∀ scale, Succeeding (Program.lower scale p)
  | [], _, _ => by
    rw [Program.lower]
    infer_instance
  | n :: p, h, scale => by
    rw [Program.every, Bool.and_eq_true] at h
    have := succeeding_lower_node n h.1 scale
    have := succeeding_lower p h.2 scale
    rw [Program.lower]
    infer_instance

end

end Brainfuck.IR
