import Brainfuck.IR.Module
import Brainfuck.Proofs.LoweredScopes

/-!
# Flat code and compiled functions agree on scales

The two ways to run a tree find the scale of a change in their own manner: flat code counts the scaled
bodies around it and names a register, lowering hands down the value of a line.  For every change the
two mean the same scaled body.

In a function the changes are found by the stores of computed bytes, put in the order of their names.
From a store one reads back what is done to the cell; since no name is given away twice, there is only
one way to do so.

* `byteStores`, `storedChanges`: the changes of a function, read back from its lines.
* `Program.exists_writing`: what the function of a program was written as.
* `ScopesAgree`, `ScopedAlike`: one change and what has become of it, and all of them.
* `Program.scopes_agree`: flat code and functions agree on the scales of all changes.
-/

namespace Brainfuck

namespace IR

open Build

/-! ## Reading changes back -/

/-- The stores of computed bytes, in the order of their names. -/
def byteStores (F : Array Block) : List Line :=
  ((linesOf F).filter fun line => line.op.isByteStore).mergeSort
    fun l l' => l.name.copy ≤ l'.name.copy

/-- The operation whose value has a name. -/
def opOf? (lines : List Line) (n : Name) : Option Op :=
  (lines.find? fun line => line.name == n).map Line.op

/-- A change of the cell in a function: what is done, the amount, and the value that it is multiplied
by if there is one. -/
structure StoredChange where
  f : Arith
  amount : Int
  factor : Option Operand
deriving DecidableEq, Repr

/-- The change whose result a line stores. -/
def storedChange? (lines : List Line) (store : Line) : Option StoredChange :=
  match store.op with
  | .store .i8 (.reg v) _ =>
    match opOf? lines v with
    | some (.arith f .i8 _ (.int n)) => some ⟨f, n, none⟩
    | some (.arith f .i8 _ (.reg m)) =>
      match opOf? lines m with
      | some (.arith .mul .i8 (.int n) factor) => some ⟨f, n, some factor⟩
      | _ => none
    | _ => none
  | _ => none

/-- The changes of a function, in the order of writing. -/
def storedChanges (F : Array Block) : List StoredChange :=
  (byteStores F).filterMap (storedChange? (linesOf F))

theorem opOf?_of_mem {lines : List Line} (hnodup : (lines.map Line.name).Nodup) {n : Name} {op : Op}
    (h : ⟨n, op⟩ ∈ lines) : opOf? lines n = some op := by
  have hfound : lines.find? (fun line => line.name == n) = some ⟨n, op⟩ := by
    cases hfind : lines.find? fun line => line.name == n with
    | none =>
      have := List.find?_eq_none.mp hfind ⟨n, op⟩ h
      exact absurd (beq_self_eq_true n) this
    | some line =>
      have hname := List.find?_some hfind
      exact congrArg some (List.inj_on_of_nodup_map hnodup (List.mem_of_find?_eq_some hfind) h
        (beq_iff_eq.mp hname))
  rw [opOf?, hfound]
  rfl

/-- The store of a change is read back as the change. -/
theorem storedChange?_of_storedBy {F : Array Block} {bodies : List (List Node)} {c : Change}
    {store : Line} (hnodup : ((linesOf F).map Line.name).Nodup) (h : c.StoredBy F bodies store) :
    ∃ factor, storedChange? (linesOf F) store = some ⟨c.arith, c.amount % 256, factor⟩ ∧
      c.holder.HasFactor F bodies factor := by
  obtain ⟨factor, copy, v, address, old, x, hfactor, rfl, hv, hx⟩ := h
  refine ⟨factor, ?_, hfactor⟩
  have hvalue := opOf?_of_mem hnodup hv
  cases factor with
  | none =>
    obtain rfl : x = .int (c.amount % 256) := hx
    simp only [storedChange?, hvalue]
  | some factor =>
    obtain ⟨m, rfl, hm⟩ := hx
    simp only [storedChange?, hvalue, opOf?_of_mem hnodup hm]

/-- Stores that were written in an order are put in that order. -/
theorem byteStores_eq {F : Array Block} {stores : List Line}
    (hnodup : ((linesOf F).map Line.name).Nodup)
    (hperm : ((linesOf F).filter fun line => line.op.isByteStore).Perm stores)
    (hstem : ∀ line ∈ stores, line.name.stem = .unused)
    (hordered : stores.Pairwise fun l l' => l.name.stem = l'.name.stem → l.name.copy < l'.name.copy) :
    byteStores F = stores := by
  have hsorted : (byteStores F).Perm stores := (List.mergeSort_perm _ _).trans hperm
  have hmem {line : Line} (h : line ∈ stores) : line ∈ linesOf F :=
    (List.mem_filter.mp (hperm.mem_iff.mpr h)).1
  refine List.Perm.eq_of_pairwise ?_ (List.pairwise_mergeSort ?_ ?_ _) ?_ hsorted
  · -- Two stores with the same number have the same name.
    intro l l' hl hl' hle hge
    have hl := hsorted.mem_iff.mp hl
    have hcopy : l.name.copy = l'.name.copy :=
      Nat.le_antisymm (of_decide_eq_true hle) (of_decide_eq_true hge)
    have hname : l.name = l'.name :=
      congrArg₂ Name.mk ((hstem l hl).trans (hstem l' hl').symm) hcopy
    exact List.inj_on_of_nodup_map hnodup (hmem hl) (hmem hl') hname
  · intro l₁ l₂ l₃ h h'
    exact decide_eq_true (Nat.le_trans (of_decide_eq_true h) (of_decide_eq_true h'))
  · intro l l'
    rw [Bool.or_eq_true, decide_eq_true_iff, decide_eq_true_iff]
    exact Nat.le_total _ _
  · refine hordered.imp_of_mem fun {l l'} hl hl' hlt => decide_eq_true (Nat.le_of_lt (hlt ?_))
    rw [hstem l hl, hstem l' hl']

/-! ## The end of a function -/

theorem Quiet.reportFault (returnLabel : Name) : Quiet (Build.reportFault returnLabel) :=
  .bind (.emit (by decide) rfl rfl) fun _ => .bind (.emit (by decide) rfl rfl) fun _ =>
    .bind (.emitUnused rfl rfl) fun _ => .emitUnused rfl rfl

instance (returnLabel : Name) : Growing (reportFault returnLabel) := by
  unfold reportFault
  infer_instance

theorem Quiet.epilogue (last : Name) : Quiet (Build.epilogue last) :=
  .bind (.emit (by decide) rfl rfl) fun _ => .bind (.emit (by decide) rfl rfl) fun _ =>
    .bind (.emitUnused rfl rfl) fun _ => .bind (.emit (by decide) rfl rfl) fun _ =>
    .bind (.emitUnused rfl rfl) fun _ => .emitUnused rfl rfl

/-- Behind the lowered sequence nothing of interest is written. -/
theorem traced_close {R : Change → Line → Prop} {b b' : Builder} {u : Unit}
    (hb : Builder.ready.Grows b) (h : close b = .ok (u, b')) : Traced R b [] 0 0 b' := by
  have hvalid : b.Valid := hb.valid Nat.zero_lt_two
  obtain ⟨back, b₁, hback, h⟩ := bind_eq_ok h
  obtain ⟨_, b₂, hjump, h⟩ := bind_eq_ok h
  obtain ⟨last, b₃, hlast, h⟩ := bind_eq_ok h
  obtain ⟨_, b₄, henter, h⟩ := bind_eq_ok h
  obtain ⟨_, b₅, hreport, h⟩ := bind_eq_ok h
  obtain ⟨_, b₆, henter', hepilogue⟩ := bind_eq_ok h
  obtain ⟨rfl, rfl⟩ := appendBlock_eq_ok hback
  obtain ⟨_, rfl⟩ := Prod.mk.inj (Except.ok.inj hlast)
  obtain rfl := enter_eq_ok henter
  obtain rfl := enter_eq_ok henter'
  have hsize₁ : (b.appended .returnBlock).blocks.size = b.blocks.size + 1 := Array.size_push _
  have hvalid₁ : (b.appended .returnBlock).Valid := by
    change b.current < _
    rw [hsize₁]
    exact Nat.lt_succ_of_lt hvalid
  have hgrows₂ := Growing.grows hvalid₁ hjump
  -- both blocks are there when they are entered
  have hvalid₂ : (b₂.entered 1).Valid :=
    Nat.lt_of_lt_of_le (hsize₁ ▸ Nat.lt_succ_of_lt hb.size_le) hgrows₂.size_le
  have hgrows₅ := Growing.grows hvalid₂ hreport
  have hvalid₅ : (b₅.entered b.blocks.size).Valid :=
    Nat.lt_of_lt_of_le (hsize₁ ▸ Nat.lt_succ_self _) (Nat.le_trans hgrows₂.size_le hgrows₅.size_le)
  have hcreated : Traced R b [] 0 0 (b.appended .returnBlock) := .inserted b _ (by decide)
  have hjumped := (Quiet.emitUnused rfl rfl).traced R hvalid₁ hjump
  have hreported := (Quiet.reportFault _).traced R hvalid₂ hreport
  have hended := (Quiet.epilogue _).traced R hvalid₅ hepilogue
  exact ((((hcreated.trans hjumped).entered 1).trans hreported).entered _).trans hended

end IR

/-! ## Whole functions -/

open IR IR.Build

/-- What a function was written as: behind the lines of the beginning, the stores of all changes in
order, and as many multiplications as there are changes with a scale. -/
theorem Program.exists_writing {p : Program} {F : Array Block} (hF : p.mainBlocks = .ok F) :
    ∃ log b', Builder.ready.Writes log b' ∧ (linesOf F).Perm (linesOf b'.blocks) ∧
      List.Forall₂ (Change.StoredBy F (Program.scaledBodies p)) (Program.changes 0 .program p)
        (log.filter fun line => line.op.isByteStore) ∧
      log.countP (fun line => line.op.isMul) =
        (Program.changes 0 .program p).countP Change.isScaled := by
  obtain ⟨b, b', hlower, hclose, rfl⟩ := Program.exists_stages_of_mainBlocks hF
  have hready : Builder.ready.Valid := Nat.zero_lt_two
  have hgrows := Growing.grows hready hlower
  obtain ⟨last, hlast, hclosed⟩ := closed_of_close hgrows hclose
  have hb : Contained b.blocks b'.function :=
    b.contained_left.trans (hclosed.closing hgrows hlast).2
  have hbodies : BodiesAt (Program.scaledBodies p) 0 (Program.scaledBodies p) :=
    ⟨[], [], (List.append_nil _).symm, rfl⟩
  have hfactor : Holder.program.HasFactor b'.function (Program.scaledBodies p) none := rfl
  have hlowered := Program.traced_lower p hready hlower hb hbodies hfactor
  obtain ⟨log, hwrites, hstores, hmuls⟩ := (hlowered.trans (traced_close hgrows hclose)).written
  rw [List.append_nil] at hstores
  exact ⟨log, b', hwrites, (b'.function_perm (hclosed.order_perm hgrows)).flatMap_right _, hstores,
    hmuls⟩

/-- No two lines of a function have the same name. -/
theorem IR.Builder.Writes.nodup_linesOf {log : List Line} {b' : Builder}
    (h : Builder.ready.Writes log b') : ((linesOf b'.blocks).map Line.name).Nodup := by
  rw [(h.lines.map Line.name).nodup_iff, List.map_append]
  refine List.Nodup.append (by decide) h.nodup ?_
  -- The names of the beginning are taken, those of the rest were free.
  have htaken : ∀ n ∈ (linesOf Builder.ready.blocks).map Line.name, Builder.ready.names.Taken n := by
    decide
  intro n hn hn'
  obtain ⟨line, hline, rfl⟩ := List.mem_map.mp hn'
  exact (h.fresh line hline).1 (htaken _ hn)

/-- A change of a function is that of a tree and has the right factor. -/
def Change.ReadAs (F : Array Block) (bodies : List (List Node)) (c : Change) (s : StoredChange) :
    Prop :=
  s.f = c.arith ∧ s.amount = c.amount % 256 ∧ c.holder.HasFactor F bodies s.factor

theorem stem_of_forall₂_storedBy {F : Array Block} {bodies : List (List Node)}
    {changes : List Change} {stores : List Line}
    (h : List.Forall₂ (Change.StoredBy F bodies) changes stores) :
    ∀ line ∈ stores, line.name.stem = .unused := by
  induction h with
  | nil => exact fun _ hline => absurd hline List.not_mem_nil
  | cons hfirst _ ih =>
    obtain ⟨factor, copy, v, address, old, x, -, rfl, -⟩ := hfirst
    exact List.forall_mem_cons.mpr ⟨rfl, ih⟩

/-- What is read back from stores of changes is a change for each of them. -/
theorem forall₂_filterMap_storedChange? {F : Array Block} {bodies : List (List Node)}
    (hnodup : ((linesOf F).map Line.name).Nodup) {changes : List Change} {stores : List Line}
    (h : List.Forall₂ (Change.StoredBy F bodies) changes stores) :
    List.Forall₂ (Change.ReadAs F bodies) changes
      (stores.filterMap (storedChange? (linesOf F))) := by
  induction h with
  | nil => exact .nil
  | cons hfirst _ ih =>
    obtain ⟨factor, hread, hfactor⟩ := storedChange?_of_storedBy hnodup hfirst
    rw [List.filterMap_cons_some hread]
    exact .cons ⟨rfl, rfl, hfactor⟩ ih

/-- The changes that are read back from a function are those of its tree, and it multiplies nothing
else than their amounts. -/
theorem Program.storedChanges_mainBlocks {p : Program} {F : Array Block} (hF : p.mainBlocks = .ok F) :
    List.Forall₂ (Change.ReadAs F (Program.scaledBodies p)) (Program.changes 0 .program p)
        (storedChanges F) ∧
      (linesOf F).countP (fun line => line.op.isMul) =
        (Program.changes 0 .program p).countP Change.isScaled := by
  obtain ⟨log, b', hwrites, hsame, hstores, hmuls⟩ := Program.exists_writing hF
  have hlines := hsame.trans hwrites.lines
  have hnodup : ((linesOf F).map Line.name).Nodup :=
    (hsame.map Line.name).nodup_iff.mpr hwrites.nodup_linesOf
  have hperm : ((linesOf F).filter fun line => line.op.isByteStore).Perm
      (log.filter fun line => line.op.isByteStore) := by
    have hall := hlines.filter fun line => line.op.isByteStore
    rw [List.filter_append] at hall
    exact hall
  refine ⟨?_, ?_⟩
  · rw [storedChanges, byteStores_eq hnodup hperm (stem_of_forall₂_storedBy hstores)
      (hwrites.ordered.filter _)]
    exact forall₂_filterMap_storedChange? hnodup hstores
  · rw [hlines.countP_eq, List.countP_append, hmuls]
    exact Nat.zero_add _

/-! ## The two compared -/

/-- A change, its instruction in flat code and what a function does for it mean the same scaled body.
There is a register in the instruction if and only if there is a multiplication, namely if the
innermost loop or scaled body around the change is a scaled body.  Then the register is that of its
region, and nothing inside loads it; and the factor is the multiplier that was loaded for it. -/
structure ScopesAgree (p : Program) (code : List Instr) (F : Array Block) (c : Change) (i : Instr)
    (s : StoredChange) : Prop where
  instr : i = c.instr i.slot?
  stored : s.f = c.arith ∧ s.amount = c.amount % 256
  slot_isSome : i.slot?.isSome = c.isScaled
  factor_isSome : s.factor.isSome = c.isScaled
  region : ∀ number, c.holder = .scaled number → ∃ body slot,
    (Program.scaledBodies p)[number]? = some body ∧
      i.slot? = some slot ∧ ScaleRegion code number slot body ∧
      s.factor = some (.reg ⟨.multiplier, number⟩) ∧ LoadsMultiplier F number body

/-- Flat code and a function have the changes of a tree in order, and agree on the scale of each. -/
structure ScopedAlike (p : Program) (code : List Instr) (F : Array Block) : Prop where
  instrs : (code.filter Instr.isChange).length = (Program.changes 0 .program p).length
  stores : (storedChanges F).length = (Program.changes 0 .program p).length
  muls : (linesOf F).countP (fun line => line.op.isMul) =
    (Program.changes 0 .program p).countP Change.isScaled
  agree : ∀ (k : Nat) (c : Change) (i : Instr) (s : StoredChange),
    (Program.changes 0 .program p)[k]? = some c → (code.filter Instr.isChange)[k]? = some i →
      (storedChanges F)[k]? = some s → ScopesAgree p code F c i s

theorem scopesAgree_of {p : Program} {code : List Instr} {F : Array Block} {c : Change} {i : Instr}
    {s : StoredChange} (hflat : c.FlatIn code (Program.scaledBodies p) i)
    (hread : c.ReadAs F (Program.scaledBodies p) s) : ScopesAgree p code F c i s := by
  obtain ⟨slot, rfl, hslot⟩ := hflat
  obtain ⟨hf, hamount, hfactor⟩ := hread
  have hown := c.slot?_instr slot
  refine ⟨?_, ⟨hf, hamount⟩, ?_, hfactor.isSome_eq, ?_⟩
  · rw [hown]
  · rw [hown]
    exact hslot.isSome_eq
  · intro number hholder
    rw [hholder] at hslot hfactor
    obtain ⟨register, body, rfl, hbody, hregion⟩ := hslot
    obtain ⟨body', hfactor, hbody', hloads⟩ := hfactor
    obtain rfl : body = body' := Option.some.inj (hbody.symm.trans hbody')
    exact ⟨body, register, hbody, hown, hregion, hfactor, hloads⟩

theorem scopedAlike_of {p : Program} {code : List Instr} {F : Array Block}
    (hcode : Program.code 0 0 none p = .ok code) (hF : p.mainBlocks = .ok F) :
    ScopedAlike p code F := by
  have hpart : Part code (Program.scaledBodies p) 0 0 code (Program.scaledBodies p) :=
    ⟨⟨[], [], (List.append_nil _).symm, rfl, rfl⟩, [], [], (List.append_nil _).symm, rfl⟩
  have hslot : Holder.program.HasSlot code (Program.scaledBodies p) none := rfl
  have hflat := Program.flat_changes p hcode hpart hslot
  obtain ⟨hread, hmuls⟩ := Program.storedChanges_mainBlocks hF
  refine ⟨hflat.length_eq.symm, hread.length_eq.symm, hmuls, fun k c i s hc hi hs => ?_⟩
  obtain ⟨hk, rfl⟩ := List.getElem?_eq_some_iff.mp hc
  obtain ⟨hk', rfl⟩ := List.getElem?_eq_some_iff.mp hi
  obtain ⟨hk'', rfl⟩ := List.getElem?_eq_some_iff.mp hs
  exact scopesAgree_of (hflat.get hk hk') (hread.get hk hk'')

/-- **Flat code and functions agree on scales.**  A tree of instructions has flat code, which is
refused only for arguments that do not fit, and a module.  In both, its changes come in order, and
for each of them the two mean the same scaled body or none. -/
theorem Program.scopes_agree {p : Program} (hp : Program.every Node.isInstruction p = true) :
    ∃ code F, Program.code 0 0 none p = .ok code ∧
      p.flatten = (if code.all Instr.fits then .ok ⟨code.toArray, Program.scaleDepth p⟩
        else .error .wideArgument) ∧
      (∀ name platform, Module.ofProgram name platform p = .ok ⟨name, .ofPlatform platform, F⟩) ∧
      ScopedAlike p code F := by
  obtain ⟨code, hcode⟩ := Program.exists_code_of_isInstruction 0 0 none p hp
  obtain ⟨F, hF⟩ := Program.exists_mainBlocks hp
  refine ⟨code, F, hcode, ?_, fun name platform => ?_, scopedAlike_of hcode hF⟩
  · rw [Program.flatten, hcode]
  · rw [Module.ofProgram, hF]
    rfl

/-- A change next to a scaled body, changes in it, in a loop inside of it, and in further scaled
bodies inside of both, where the two inner ones load the same register. -/
theorem Program.scopes_agree_nested :
    ∃ p : Program, p = [.increment 3, .scaled [.decrement 1,
        .loop [.increment 2, .scaled [.increment 4]], .scaled [.decrement 5]]] ∧
      Program.every Node.isInstruction p = true ∧
      Program.changes 0 .program p = [⟨false, 3, .program⟩, ⟨true, 1, .scaled 0⟩, ⟨false, 2, .loop⟩,
        ⟨false, 4, .scaled 1⟩, ⟨true, 5, .scaled 2⟩] ∧
      ∃ code F, Program.code 0 0 none p = .ok code ∧
        p.flatten = (if code.all Instr.fits then .ok ⟨code.toArray, Program.scaleDepth p⟩
          else .error .wideArgument) ∧
        (∀ name platform, Module.ofProgram name platform p =
          .ok ⟨name, .ofPlatform platform, F⟩) ∧
        ScopedAlike p code F :=
  ⟨_, rfl, by decide, by decide, Program.scopes_agree (by decide)⟩

end Brainfuck
