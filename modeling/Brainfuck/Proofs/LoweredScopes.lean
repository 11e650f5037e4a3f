import Brainfuck.Proofs.Compilation
import Brainfuck.Proofs.WrittenLines

/-!
# The scales of lowered changes

Lowering has no registers for scales.  The value that a change is multiplied by is the value of the
line that loads the cell where the scaled body begins, and it is handed down to the changes that stand
directly in the body.  The names of these lines are numbered in the order of writing, which is the
order in which the scaled bodies begin; so the number of a scaled body is again that of its
multiplier.

A lowered change is a store of a byte that was computed, and it is found from the store backwards: the
store names the arithmetic, that names the amount, and the amount is a number or names a
multiplication.

* `LoadsMultiplier`: a scaled body in a function, lowered with its multiplier.
* `Change.StoredBy`: the store of a change, and what leads to it.
* `Program.traced_lower`: lowering writes a store for each change, and multiplies those that have a
  scale.
-/

namespace Brainfuck

open IR IR.Build

/-! ## Lowered changes -/

/-- What is done to the cell. -/
def Change.arith (c : Change) : Arith := if c.subtracts then .sub else .add

/-- A scaled body is lowered in a function when a number of multipliers are there: the next one is
loaded for it, and what is inside is lowered with that one. -/
structure LoadsMultiplier (F : Array Block) (number : Nat) (body : List Node) : Prop where
  loaded : ∃ address, ⟨⟨.multiplier, number⟩, .load .i8 address⟩ ∈ linesOf F
  lowered : ∃ outer b b₁ b₂ b', b.names.count .multiplier = number ∧
    (Node.scaled body).lower outer b = .ok ((), b') ∧
    Program.lower (some (.reg ⟨.multiplier, number⟩)) body b₁ = .ok ((), b₂) ∧
    Contained b₂.blocks b'.blocks ∧ Contained b'.blocks F

/-- The factor of a change with the given holder: the multiplier of the scaled body, if it is one. -/
def Holder.HasFactor (F : Array Block) (bodies : List (List Node)) :
    Holder → Option Operand → Prop
  | .program, factor | .loop, factor => factor = none
  | .scaled number, factor => ∃ body, factor = some (.reg ⟨.multiplier, number⟩) ∧
    bodies[number]? = some body ∧ LoadsMultiplier F number body

/-- An operand is an amount, multiplied by a factor if there is one. -/
def IsAmount (F : Array Block) (amount : Int) : Option Operand → Operand → Prop
  | none, x => x = .int (amount % 256)
  | some factor, x => ∃ m, x = .reg m ∧
    ⟨m, .arith .mul .i8 (.int (amount % 256)) factor⟩ ∈ linesOf F

/-- A line stores what a change computes. -/
def Change.StoredBy (F : Array Block) (bodies : List (List Node)) (c : Change) (store : Line) : Prop :=
  ∃ factor copy v address old x, c.holder.HasFactor F bodies factor ∧
    store = ⟨⟨.unused, copy⟩, .store .i8 (.reg v) address⟩ ∧
    ⟨v, .arith c.arith .i8 old x⟩ ∈ linesOf F ∧ IsAmount F c.amount factor x

/-! ## One change -/

section Changes

variable {F : Array Block} {bodies : List (List Node)} {b b' : Builder} {scale : Option Operand}
  {u : Unit}

/-- A change has a factor if it is scaled. -/
theorem Holder.HasFactor.isSome_eq {c : Change} (h : c.holder.HasFactor F bodies scale) :
    scale.isSome = c.isScaled := by
  rw [Change.isScaled]
  cases hholder : c.holder with
  | program | loop =>
    rw [hholder] at h
    obtain rfl : scale = none := h
    rfl
  | scaled number =>
    rw [hholder] at h
    obtain ⟨body, rfl, -⟩ := h
    rfl

theorem traced_scaledAmount (R : Change → Line → Prop) {amount : Int} {x : Operand} (hb : b.Valid)
    (h : scaledAmount amount scale b = .ok (x, b')) (hF : Contained b'.blocks F) :
    Traced R b [] scale.isSome.toNat 0 b' ∧ IsAmount F amount scale x := by
  cases scale with
  | none =>
    obtain ⟨rfl, rfl⟩ := Prod.mk.inj (Except.ok.inj h)
    exact ⟨.nothing (fun _ => Nat.le_refl _) rfl rfl, rfl⟩
  | some factor =>
    obtain ⟨rfl, rfl⟩ := emit_eq_ok h
    exact ⟨.emitted hb .nil rfl rfl, _, rfl, hF.mem_linesOf (Builder.mem_linesOf_emitted hb _ _)⟩

/-- Lowering a change writes a store, and a multiplication if it has a scale. -/
theorem traced_changeCell {c : Change} {s : Stem} (hs : s ≠ .multiplier) (hb : b.Valid)
    (h : changeCell c.arith s c.amount scale b = .ok (u, b')) (hF : Contained b'.blocks F)
    (hfactor : c.holder.HasFactor F bodies scale) :
    Traced (Change.StoredBy F bodies) b [c] ([c].countP Change.isScaled) 0 b' := by
  rw [changeCell_eq] at h
  obtain ⟨address, b₁, haddress, h⟩ := bind_eq_ok h
  obtain ⟨old, b₂, hold, h⟩ := bind_eq_ok h
  obtain ⟨x, b₃, hamount, h⟩ := bind_eq_ok h
  obtain ⟨new, b₄, hnew, hstore⟩ := bind_eq_ok h
  have hb₁ := (Growing.grows hb haddress).valid hb
  have hb₂ := (Growing.grows hb₁ hold).valid hb₁
  have hb₃ := (Growing.grows hb₂ hamount).valid hb₂
  have hnew₄ := Growing.grows hb₃ hnew
  have hF₄ : Contained b₄.blocks F := (Growing.grows (hnew₄.valid hb₃) hstore).contained.trans hF
  obtain ⟨hmul, hx⟩ := traced_scaledAmount (Change.StoredBy F bodies) hb₂ hamount
    (hnew₄.contained.trans hF₄)
  obtain ⟨rfl, rfl⟩ := emit_eq_ok hnew
  obtain rfl := emitUnused_eq_ok hstore
  have hlocated := Quiet.cellAddress.traced (Change.StoredBy F bodies) hb haddress
  have hloaded := (Quiet.load _ _).traced (Change.StoredBy F bodies) hb₁ hold
  have harith : (Op.arith c.arith .i8 old x).isMul = false := by
    rw [Change.arith]
    split <;> rfl
  have hstored : c.StoredBy F bodies
      ⟨(b₃.emitted s (.arith c.arith .i8 old x)).nextName .unused,
        .store .i8 (.reg (b₃.nextName s)) address⟩ :=
    ⟨scale, _, _, address, old, x, hfactor, rfl,
      hF₄.mem_linesOf (Builder.mem_linesOf_emitted hb₃ _ _), hx⟩
  have hcount : [c].countP Change.isScaled = scale.isSome.toNat := by
    rw [List.countP_singleton, hfactor.isSome_eq]
    cases c.isScaled <;> rfl
  rw [hcount]
  have hstores : Traced (Change.StoredBy F bodies) (b₃.emitted s (.arith c.arith .i8 old x)) [c] 0 0
      ((b₃.emitted s (.arith c.arith .i8 old x)).emitted .unused
        (.store .i8 (.reg (b₃.nextName s)) address)) :=
    .emitted (hnew₄.valid hb₃) (.cons hstored .nil) rfl rfl
  have hall := (((hlocated.trans hloaded).trans hmul).trans
    (.emitted_other hb₃ hs rfl harith)).trans hstores
  simpa only [List.nil_append, Nat.zero_add, Nat.add_zero] using hall

end Changes

/-! ## Loops and scaled bodies -/

namespace IR

variable {F : Array Block} {body : List Node} {R : Change → Line → Prop} {b b' : Builder}
  {changes : List Change} {muls multipliers : Nat}

namespace LoopStages

variable (st : LoopStages body b b')

theorem valid_inside : (st.tested.entered st.inside.index).Valid := st.tested_inside.lt

/-- What is written in front of the body. -/
theorem traced_inside : Traced R b [] 0 0 (st.tested.entered st.inside.index) := by
  have hopened : Traced R b [] 0 0 st.opened := by
    rw [st.opened_eq]
    exact ((Traced.opened b (by decide)).trans (.opened _ (by decide))).trans (.opened _ (by decide))
  have hstart : (st.jumped.entered st.head.index).Valid := st.jumped_head.lt
  have hjumped := (Quiet.emitUnused rfl rfl).traced R (st.grows.valid st.valid) st.jump
  have htested := (Quiet.testCell _ _).traced R hstart st.test
  exact (((hopened.trans hjumped).entered st.head.index).trans htested).entered st.inside.index

/-- Around the body of a loop nothing of interest is written. -/
theorem traced
    (hbody : Traced R (st.tested.entered st.inside.index) changes muls multipliers st.filled) :
    Traced R b changes muls multipliers b' := by
  have hclosed :=
    (Quiet.emitUnused rfl rfl).traced R (st.grows_filled.valid st.valid_inside) st.close
  have hall := st.traced_inside.trans (hbody.trans hclosed)
  rw [st.last]
  simpa only [List.nil_append, List.append_nil, Nat.zero_add, Nat.add_zero] using
    hall.entered st.behind.index

theorem contained_filled : Contained st.filled.blocks b'.blocks := by
  have hlast : b'.blocks = (st.closed.entered st.behind.index).blocks :=
    congrArg Builder.blocks st.last
  rw [hlast]
  exact st.grows_closed.contained

end LoopStages

namespace ScaledStages

variable (st : ScaledStages body b b')

theorem valid_inside : (st.branched.entered st.inside.index).Valid := st.branched_inside.lt

theorem multiplier_eq : st.multiplier = .reg (b.nextName .multiplier) := by
  rw [(emit_eq_ok st.load).1, Quiet.cellAddress.nextName_multiplier st.valid st.locate]

/-- What is written in front of the body: its multiplier. -/
theorem traced_inside : Traced R b [] 0 1 (st.branched.entered st.inside.index) := by
  have haddressed := Quiet.cellAddress.traced R st.valid st.locate
  have hloaded : Traced R st.addressed [] 0 1 st.loaded := by
    rw [(emit_eq_ok st.load).2]
    exact .emitted (st.grows_addressed.valid st.valid) .nil rfl rfl
  have hopened : Traced R st.loaded [] 0 0 st.opened := by
    rw [st.opened_eq]
    exact (Traced.opened _ (by decide)).trans (.opened _ (by decide))
  have hvalid := st.grows.valid st.loaded_valid
  have hcompared := (Quiet.emit (by decide) rfl rfl).traced R hvalid st.compare
  have hbranched :=
    (Quiet.emitUnused rfl rfl).traced R (st.grows_compared.valid hvalid) st.branch
  exact ((((haddressed.trans hloaded).trans hopened).trans hcompared).trans hbranched).entered
    st.inside.index

/-- Around a scaled body only its multiplier is written. -/
theorem traced
    (hbody : Traced R (st.branched.entered st.inside.index) changes muls multipliers st.filled) :
    Traced R b changes muls (1 + multipliers) b' := by
  have hbehind : (st.closed.entered st.behind.index).Valid := st.closed_behind.lt
  have hclosed :=
    (Quiet.emitUnused rfl rfl).traced R (st.grows_filled.valid st.valid_inside) st.close
  have hcleared := Quiet.clearCell.traced R hbehind st.last
  have hall := st.traced_inside.trans (((hbody.trans hclosed).entered st.behind.index).trans hcleared)
  simpa only [List.nil_append, List.append_nil, Nat.zero_add, Nat.add_zero] using hall

theorem contained_filled : Contained st.filled.blocks b'.blocks :=
  st.grows_closed.contained.trans st.grows_last.contained

theorem loadsMultiplier (st : ScaledStages body b b') {outer : Option Operand}
    (h : (Node.scaled body).lower outer b = .ok ((), b')) (hF : Contained b'.blocks F) :
    LoadsMultiplier F (b.names.count .multiplier) body := by
  have hloaded : Contained st.loaded.blocks F :=
    (((st.grows.trans st.grows_compared).trans st.grows_branched).contained.trans
      st.grows_filled.contained).trans (st.contained_filled.trans hF)
  refine ⟨⟨st.address, hloaded.mem_linesOf ?_⟩, outer, b, st.branched.entered st.inside.index,
    st.filled, b', rfl, h, ?_, st.contained_filled, hF⟩
  · have hmem := Builder.mem_linesOf_emitted (st.grows_addressed.valid st.valid) .multiplier
      (.load .i8 st.address)
    rw [Quiet.cellAddress.nextName_multiplier st.valid st.locate] at hmem
    rw [(emit_eq_ok st.load).2]
    exact hmem
  · have hfill := st.fill
    rw [st.multiplier_eq] at hfill
    exact hfill

end ScaledStages

end IR

/-! ## Trees -/

/-- Whether a node is lowered without stores of computed bytes, multiplications and multipliers. -/
def Node.isQuiet : Node → Bool
  | .increment _ | .decrement _ | .loop _ | .scaled _ | .foreign _ | .derived _ _ => false
  | _ => true

theorem Node.quiet_lower (scale : Option Operand) :
    (n : Node) → n.isQuiet = true → Quiet (n.lower scale)
  | .moveRight _, _ | .scanRight _, _ => by
    rw [Node.lower]
    exact .emitUnused rfl rfl
  | .moveLeft _, _ => by
    rw [Node.lower]
    exact .bind (.load _ _) fun _ => .bind (.emit (by decide) rfl rfl) fun _ =>
      .bind (.emit (by decide) rfl rfl) fun _ => .bind (.failIf _ (by decide)) fun _ =>
      .emitUnused rfl rfl
  | .output, _ => by
    rw [Node.lower]
    exact .bind .cellAddress fun _ => .bind (.load _ _) fun _ =>
      .bind (.emit (by decide) rfl rfl) fun _ => .bind (.emitUnused rfl rfl) fun _ =>
      .bind (.emit (by decide) rfl rfl) fun _ => .emitUnused rfl rfl
  | .input, _ => by
    rw [Node.lower]
    exact .bind (.load _ _) fun _ => .bind (.load _ _) fun _ => .emitUnused rfl rfl
  | .scanLeft _, _ => by
    rw [Node.lower]
    exact .bind (.load _ _) fun _ => .bind (.emit (by decide) rfl rfl) fun _ =>
      .failIf _ (by decide)
  | .clear, _ => by
    rw [Node.lower]
    exact .clearCell
  | .carryRight _, _ => by
    rw [Node.lower]
    exact .bind (.load _ _) fun _ => .emitUnused rfl rfl
  | .carryLeft _, _ => by
    rw [Node.lower]
    exact .bind (.load _ _) fun _ => .bind (.load _ _) fun _ =>
      .bind (.emit (by decide) rfl rfl) fun _ => .failIf _ (by decide)
  | .increment _, h | .decrement _, h | .loop _, h | .scaled _, h | .foreign _, h
  | .derived _ _, h => by cases h

mutual

theorem Node.traced_lower {F : Array Block} {bodies : List (List Node)} {holder : Holder}
    {scale : Option Operand} {b b' : Builder} {u : Unit} :
    (n : Node) → b.Valid → n.lower scale b = .ok (u, b') → Contained b'.blocks F →
      BodiesAt bodies (b.names.count .multiplier) n.scaledBodies →
      holder.HasFactor F bodies scale →
      Traced (Change.StoredBy F bodies) b (n.changes (b.names.count .multiplier) holder)
        ((n.changes (b.names.count .multiplier) holder).countP Change.isScaled)
        n.scaledBodies.length b'
  | .increment n, hb, h, hF, _, hfactor =>
    traced_changeCell (c := ⟨false, n, holder⟩) (by decide) hb h hF hfactor
  | .decrement n, hb, h, hF, _, hfactor =>
    traced_changeCell (c := ⟨true, n, holder⟩) (by decide) hb h hF hfactor
  | .loop body, hb, h, hF, hbodies, _ => by
    obtain ⟨st⟩ := exists_loopStages hb h
    have hcount := (st.traced_inside (R := Change.StoredBy F bodies)).multipliers_eq
    have hfactor : Holder.loop.HasFactor F bodies none := rfl
    have hbody := Program.traced_lower body st.valid_inside st.fill
      (st.contained_filled.trans hF) (by rwa [hcount]) hfactor
    rw [hcount] at hbody
    exact st.traced hbody
  | .scaled body, hb, h, hF, hbodies, _ => by
    obtain ⟨st⟩ := exists_scaledStages hb h
    have hcount := (st.traced_inside (R := Change.StoredBy F bodies)).multipliers_eq
    have hfactor : (Holder.scaled (b.names.count .multiplier)).HasFactor F bodies
        (some st.multiplier) :=
      ⟨body, congrArg some st.multiplier_eq, hbodies.getElem?_eq, st.loadsMultiplier h hF⟩
    have hown : BodiesAt bodies (b.names.count .multiplier) ([body] ++ Program.scaledBodies body) :=
      hbodies
    have hbody := Program.traced_lower body st.valid_inside st.fill
      (st.contained_filled.trans hF) (by rw [hcount]; exact hown.right) hfactor
    rw [hcount] at hbody
    rw [Node.scaledBodies, List.length_cons, Nat.add_comm]
    exact st.traced hbody
  | .foreign _, _, h, _, _, _ | .derived _ _, _, h, _, _, _ => by cases h
  | .moveRight _, hb, h, _, _, _ | .moveLeft _, hb, h, _, _, _ | .output, hb, h, _, _, _
  | .input, hb, h, _, _, _ | .scanRight _, hb, h, _, _, _ | .scanLeft _, hb, h, _, _, _
  | .clear, hb, h, _, _, _ | .carryRight _, hb, h, _, _, _ | .carryLeft _, hb, h, _, _, _ =>
    (Node.quiet_lower _ _ rfl).traced _ hb h

/-- Lowering a sequence writes a store for each of its changes, in order, and multiplies those that
have a scale, by the right multiplier. -/
theorem Program.traced_lower {F : Array Block} {bodies : List (List Node)} {holder : Holder}
    {scale : Option Operand} {b b' : Builder} {u : Unit} :
    (p : List Node) → b.Valid → Program.lower scale p b = .ok (u, b') → Contained b'.blocks F →
      BodiesAt bodies (b.names.count .multiplier) (Program.scaledBodies p) →
      holder.HasFactor F bodies scale →
      Traced (Change.StoredBy F bodies) b (Program.changes (b.names.count .multiplier) holder p)
        ((Program.changes (b.names.count .multiplier) holder p).countP Change.isScaled)
        (Program.scaledBodies p).length b'
  | [], hb, h, _, _, _ => by
    obtain ⟨-, rfl⟩ := Prod.mk.inj (Except.ok.inj h)
    exact .nothing (fun _ => Nat.le_refl _) rfl rfl
  | n :: p, hb, h, hF, hbodies, hfactor => by
    rw [Program.lower] at h
    obtain ⟨_, b₁, hn, hp⟩ := bind_eq_ok h
    have hgrows := Growing.grows hb hn
    have hb₁ := hgrows.valid hb
    have hF₁ := (Growing.grows hb₁ hp).contained.trans hF
    have hfirst := Node.traced_lower n hb hn hF₁ hbodies.left hfactor
    have hcount := hfirst.multipliers_eq
    have hrest := Program.traced_lower p hb₁ hp hF (by rw [hcount]; exact hbodies.right) hfactor
    rw [hcount] at hrest
    rw [Program.changes, Program.scaledBodies, List.countP_append, List.length_append]
    exact hfirst.trans hrest

end

end Brainfuck
