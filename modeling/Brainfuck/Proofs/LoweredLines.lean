import Brainfuck.Proofs.Construction
import Brainfuck.Proofs.Processes
import Brainfuck.Proofs.ProcessMemory

/-!
# Running the lines of a construction

A stage of a construction is also a place in the finished module: behind the last line that the block
under construction has at that stage.  What the process is like at such a place is said by
`Point.At`: it shows a configuration, with the tape in a certain block, and certain registers have
known values.  Those registers were taken before, so no line that is built later gives them another
value, in whatever order and however often the lines are run.  A register with an address is of use as
long as the tape stays in its block.

`Does` follows a construction and the run of its lines together, so that the proofs about single
nodes read like the constructions themselves.

* `Point.At`: the invariant.
* `Does`, `Does.bind`: running what a construction has built.
* `At.emit`, `At.emitUnused`: one line.
* `At.cellAddress`, `At.changeCell`, `At.clearCell`: the constructions that nodes share.
-/

namespace Brainfuck.IR

open Build

/-! ## Words -/

theorem toNat_ofNat_of_lt {n : Nat} (h : n < 2 ^ 63) : (UInt64.ofNat n).toNat = n := by
  rw [UInt64.toNat_ofNat']
  omega

theorem toNat_ofInt_of_lt {n : Int} (h0 : 0 ≤ n) (h : n < 2 ^ 63) :
    (UInt64.ofInt n).toNat = n.toNat := by
  rw [UInt64.ofInt, UInt64.toNat_ofNat']
  omega

theorem toNat_ofInt_natCast {n : Nat} (h : n < 2 ^ 63) : (UInt64.ofInt n).toNat = n := by
  rw [toNat_ofInt_of_lt (Int.natCast_nonneg n) (by omega), Int.toNat_natCast]

/-- As signed numbers, the difference of two small words is what it is as integers. -/
theorem toInt_sub_of_lt {i : Nat} {n : Int} (hi : i < 2 ^ 63) (h0 : 0 ≤ n) (h : n < 2 ^ 63) :
    (UInt64.ofNat i - UInt64.ofInt n).toInt64.toInt = (i : Int) - n := by
  have hleft := toNat_ofNat_of_lt hi
  have hright := toNat_ofInt_of_lt h0 h
  rw [← Int64.toInt_toBitVec]
  simp only [UInt64.toBitVec_toInt64, UInt64.toBitVec_sub]
  rw [BitVec.toInt_eq_toNat_bmod, BitVec.toNat_sub]
  simp only [UInt64.toNat_toBitVec, hleft, hright]
  rw [Int.bmod_def]
  omega

theorem toInt_ofNat_of_lt {i : Nat} (hi : i < 2 ^ 63) : (UInt64.ofNat i).toInt64.toInt = i := by
  have hsub := toInt_sub_of_lt hi (Int.le_refl 0) (by omega)
  have hzero : UInt64.ofInt 0 = 0 := rfl
  rwa [hzero, UInt64.sub_zero, Int.sub_zero] at hsub

/-- A signed comparison finds out whether a small number is greater than another. -/
theorem sub_toInt64_lt_zero_iff {i : Nat} {n : Int} (hi : i < 2 ^ 63) (h0 : 0 ≤ n)
    (h : n < 2 ^ 63) :
    (UInt64.ofNat i - UInt64.ofInt n).toInt64 < (UInt64.ofInt 0).toInt64 ↔ i < n.toNat := by
  have hzero : (UInt64.ofInt 0).toInt64.toInt = 0 := rfl
  rw [Int64.lt_iff_toInt_lt, toInt_sub_of_lt hi h0 h, hzero]
  omega

theorem ofNat_sub_ofInt {i : Nat} {n : Int} (hi : i < 2 ^ 63) (h0 : 0 ≤ n) (h : n.toNat ≤ i) :
    UInt64.ofNat i - UInt64.ofInt n = UInt64.ofNat (i - n.toNat) := by
  rw [← UInt64.toNat_inj, UInt64.toNat_sub, toNat_ofNat_of_lt hi,
    toNat_ofInt_of_lt h0 (by omega), toNat_ofNat_of_lt (by omega)]
  omega

/-! ## Calls -/

namespace Process

variable {s : Process} {from? : Option Name} {name : Name} {ty : Ty}

theorem call_fputs (s : Process) :
    s.call .fputs [.errorText, .stream .stderr] =
      some (some (.int 1), { s with stderr := s.stderr ++ faultMessage }) :=
  rfl

theorem call_putchar (s : Process) (v : UInt8) :
    s.call .putchar [.int v.toUInt32] =
      some (some (.int v.toUInt32), { s with stdout := s.stdout.push v }) := by
  change some (some (Value.int v.toUInt32),
    { s with stdout := s.stdout.push v.toUInt32.toUInt8 }) = _
  rw [UInt8.toUInt8_toUInt32]

/-! ## Operations -/

theorem execute_load {address : Operand} {v w : Value} (ha : s.eval (.ptr ty) address = some v)
    (hv : s.fetch v = some w) :
    s.execute from? ⟨name, .load ty address⟩ = some (s.define name w) := by
  simp [execute, ha, hv]

theorem execute_store {value address : Operand} {v w : Value} {s' : Process}
    (hv : s.eval ty value = some v) (ha : s.eval (.ptr ty) address = some w)
    (hput : s.put v w = some s') :
    s.execute from? ⟨name, .store ty value address⟩ = some (.line s') := by
  simp [execute, hv, ha, hput]

theorem execute_byteAt {base index : Operand} {k : Nat} {offset : Int} {n : UInt64}
    (hbase : s.eval (.ptr .i8) base = some (.address k offset))
    (hindex : s.eval .i64 index = some (.word n)) :
    s.execute from? ⟨name, .byteAt base index⟩ =
      some (s.define name (.address k (offset + n.toInt64.toInt))) := by
  simp [execute, hbase, hindex]

theorem execute_arith {f : Arith} {left right : Operand} {v w r : Value}
    (hleft : s.eval ty left = some v) (hright : s.eval ty right = some w)
    (hr : arith f v w = some r) :
    s.execute from? ⟨name, .arith f ty left right⟩ = some (s.define name r) := by
  simp [execute, hleft, hright, hr]

theorem execute_compare {r : Relation} {left right : Operand} {v w : Value} {b : Bool}
    (hleft : s.eval ty left = some v) (hright : s.eval ty right = some w)
    (hb : compare r v w = some b) :
    s.execute from? ⟨name, .compare r ty left right⟩ = some (s.define name (.bit b)) := by
  simp [execute, hleft, hright, hb]

theorem execute_zext {value : Operand} {v : UInt8} (hv : s.eval .i8 value = some (.byte v)) :
    s.execute from? ⟨name, .zext value⟩ = some (s.define name (.int v.toUInt32)) := by
  simp [execute, hv]

theorem execute_call {f : Callee} {xs : List Operand} {vs : List Value} {v : Value} {s' : Process}
    (hxs : s.arguments f xs = some vs) (hcall : s.call f vs = some (some v, s')) :
    s.execute from? ⟨name, .call f xs⟩ = some (s'.define name v) := by
  simp [execute, hxs, hcall]

theorem execute_call_void {f : Callee} {xs : List Operand} {vs : List Value} {s' : Process}
    (hxs : s.arguments f xs = some vs) (hcall : s.call f vs = some (none, s')) :
    s.execute from? ⟨name, .call f xs⟩ = some (.line s') := by
  simp [execute, hxs, hcall]

theorem execute_phi {incoming : List (Int × Name)} {e : Int × Name}
    (h : incoming.find? (fun e => some e.2 = from?) = some e) :
    s.execute from? ⟨name, .phi incoming⟩ = some (s.define name (.int (.ofInt e.1))) := by
  simp only [execute, h]
  rfl

theorem execute_ret {value : Operand} {v : UInt32} (h : s.eval .i32 value = some (.int v)) :
    s.execute from? ⟨name, .ret value⟩ = some (.exit v.toNat s) := by
  simp [execute, h]

theorem execute_branch {condition : Operand} {yes no : Name} {b : Bool}
    (h : s.eval .i1 condition = some (.bit b)) :
    s.execute from? ⟨name, .branch condition yes no⟩ =
      some (.block (if b then yes else no) s) := by
  simp [execute, h]

end Process

/-! ## Places -/

/-- Registers with known values. -/
abbrev Frame := Name → Option Value

/-- What one frame knows, another one knows too. -/
def Frame.Within (regs regs' : Frame) : Prop := ∀ n v, regs n = some v → regs' n = some v

theorem Frame.Within.refl (regs : Frame) : regs.Within regs := fun _ _ h => h

theorem Frame.Within.trans {regs regs₁ regs' : Frame} (h : regs.Within regs₁)
    (h' : regs₁.Within regs') : regs.Within regs' :=
  fun n v hn => h' n v (h n v hn)

/-- An operand is a register that is known to have a value. -/
def Frame.Gives (regs : Frame) : Operand → Value → Prop
  | .reg name, v => regs name = some v
  | _, _ => False

theorem Frame.Gives.mono {regs regs' : Frame} (hle : regs.Within regs') {a : Operand} {v : Value}
    (h : regs.Gives a v) : regs'.Gives a v := by
  cases a with
  | reg name => exact hle name v h
  | _ => exact h

/-- A scale is a register that is known to have the value, or there is none and the value is one. -/
def Frame.GivesScale (regs : Frame) : Option Operand → UInt8 → Prop
  | none, scale => scale = 1
  | some a, scale => regs.Gives a (.byte scale)

theorem Frame.GivesScale.mono {regs regs' : Frame} (hle : regs.Within regs') {a? : Option Operand}
    {scale : UInt8} (h : regs.GivesScale a? scale) : regs'.GivesScale a? scale := by
  cases a? with
  | none => exact h
  | some a => exact Frame.Gives.mono hle h

/-- The registers with the addresses of the slots are known. -/
structure Frame.HasSlots (regs : Frame) : Prop where
  cells : regs.Gives cellsSlot (.slot ⟨.cells, 0⟩)
  length : regs.Gives lengthSlot (.slot ⟨.cellsLength, 0⟩)
  index : regs.Gives indexSlot (.slot ⟨.currentCell, 0⟩)
  input : regs.Gives inputSlot (.slot ⟨.inputBuffer, 0⟩)

theorem Frame.HasSlots.mono {regs regs' : Frame} (hle : regs.Within regs') (h : regs.HasSlots) :
    regs'.HasSlots :=
  ⟨h.cells.mono hle, h.length.mono hle, h.index.mono hle, h.input.mono hle⟩

namespace Point

/-- The point is behind the last line that the block under construction has at a stage.  That block is
found among the finished ones by its label. -/
def Stands (F : Array Block) (b : Builder) (x : Point) : Prop :=
  ∃ block full : Block, b.blocks[b.current]? = some block ∧ full ∈ F ∧
    (∀ other ∈ F, other.label = block.label → other = full) ∧ full.label = block.label ∧
    x.label = block.label ∧ x.lines = full.lines.toList.drop block.lines.size

/-- The point is at a stage of the construction, the process shows a configuration with the tape in a
block, and known registers, which have all been taken, have their values. -/
structure At (F : Array Block) (b : Builder) (regs : Frame) (k : Nat) (c : Config) (x : Point) :
    Prop where
  stands : Stands F b x
  taken : ∀ n v, regs n = some v → b.names.Taken n
  knows : ∀ n v, regs n = some v → x.process.registers[n]? = some v
  shows : x.process.Shows k c

variable {F : Array Block} {b b' : Builder} {regs regs' : Frame} {k : Nat} {c d : Config} {x : Point}

theorem eta {lines : List Line} (x : Point) (h : x.lines = lines) :
    (⟨x.from?, x.label, lines, x.process⟩ : Point) = x := by
  rw [← h]

/-- A line that stays in its block. -/
theorem step_line {from? : Option Name} {label : Name} {l : Line} {rest : List Line}
    {s s' : Process} (h : s.execute from? l = some (.line s')) :
    step F ⟨from?, label, l :: rest, s⟩ = .next ⟨from?, label, rest, s'⟩ := by
  simp only [step, h]

/-- A line that goes on in a block. -/
theorem step_block {from? : Option Name} {label target : Name} {l : Line} {rest lines : List Line}
    {s s' : Process} (h : s.execute from? l = some (.block target s'))
    (hlines : (blockTable F)[target]? = some lines) :
    step F ⟨from?, label, l :: rest, s⟩ = .next ⟨some label, target, lines, s'⟩ := by
  simp only [step, h, hlines]

/-- A line that leaves the function. -/
theorem step_exit {from? : Option Name} {label : Name} {l : Line} {rest : List Line}
    {s s' : Process} {status : Nat} (h : s.execute from? l = some (.exit status s')) :
    step F ⟨from?, label, l :: rest, s⟩ = .final ⟨status, s'.stdout, s'.stderr⟩ := by
  simp only [step, h]

theorem Stands.valid (h : Stands F b x) : b.Valid := by
  obtain ⟨block, _, hblock, _⟩ := h
  exact (Array.getElem?_eq_some_iff.mp hblock).1

/-- The line that was added next is the one that is run next. -/
theorem Stands.next {s : Stem} {op : Op} (h : Stands F b x)
    (hF : Contained (b.emitted s op).blocks F) :
    ∃ rest, x.lines = ⟨b.nextName s, op⟩ :: rest ∧
      ∀ from? process, Stands F (b.emitted s op) ⟨from?, x.label, rest, process⟩ := by
  obtain ⟨block, full, hblock, hfull, hunique, hlabel, hname, hlines⟩ := h
  have hemitted : (b.emitted s op).blocks[b.current]? =
      some { block with lines := block.lines.push ⟨b.nextName s, op⟩ } := by
    rw [Builder.getElem?_emitted, if_pos rfl, hblock]
    rfl
  obtain ⟨full', hfull', hlabel', rest, hrest⟩ := hF _ (Array.mem_of_getElem? hemitted)
  obtain rfl := hunique full' hfull' hlabel'
  rw [Array.toList_push, List.append_assoc] at hrest
  refine ⟨rest, ?_, fun from? process =>
    ⟨_, full', hemitted, hfull, hunique, hlabel, hname, ?_⟩⟩
  · rw [hlines, ← hrest, ← Array.length_toList, List.drop_left]
    rfl
  · rw [← hrest, Array.size_push, ← Array.length_toList, ← List.append_assoc]
    exact (List.drop_left' (by rw [List.length_append]; rfl)).symm

theorem At.valid (hx : At F b regs k c x) : b.Valid := hx.stands.valid

/-- One may forget what one knows. -/
theorem At.mono (hle : regs.Within regs') (hx : At F b regs' k c x) : At F b regs k c x where
  stands := hx.stands
  taken n v h := hx.taken n v (hle n v h)
  knows n v h := hx.knows n v (hle n v h)
  shows := hx.shows

theorem At.eval (hx : At F b regs k c x) {a : Operand} {v : Value} (h : regs.Gives a v) (ty : Ty) :
    x.process.eval ty a = some v := by
  cases a with
  | reg name => exact hx.knows name v h
  | _ => exact h.elim

/-- A stage that differs in blocks that are not being filled. -/
theorem At.opened (hx : At F b regs k c x) (hnames : b.names.Within b'.names)
    (hcurrent : b'.current = b.current) (hsame : b'.blocks[b.current]? = b.blocks[b.current]?) :
    At F b' regs k c x where
  stands := by
    obtain ⟨block, full, hblock, hfull⟩ := hx.stands
    exact ⟨block, full, by rw [hcurrent, hsame, hblock], hfull⟩
  taken n v h := hnames.taken (hx.taken n v h)
  knows := hx.knows
  shows := hx.shows

end Point

/-! ## Constructions and the run of their lines -/

/-- Something holds of the value and of the builder once the construction has been carried out and the
module contains what it has built. -/
def Once {α : Type} (F : Array Block) (m : Build α) (b : Builder) (Φ : α → Builder → Prop) : Prop :=
  ∀ a b', m b = .ok (a, b') → Contained b'.blocks F → Φ a b'

/-- What the construction has built leads from a point to one with a certain property. -/
def Does {α : Type} (F : Array Block) (m : Build α) (b : Builder) (x : Point)
    (Q : α → Builder → Point → Prop) : Prop :=
  Once F m b fun a b' => ∃ k y, Runs (Point.step F) k x y ∧ Q a b' y

namespace Does

variable {α β : Type} {F : Array Block} {b : Builder} {x : Point}

theorem mono {m : Build α} {Q Q' : α → Builder → Point → Prop} (h : Does F m b x Q)
    (himp : ∀ a b' y, Q a b' y → Q' a b' y) : Does F m b x Q' := by
  intro a b' hm hF
  obtain ⟨k, y, hy, hQ⟩ := h a b' hm hF
  exact ⟨k, y, hy, himp a b' y hQ⟩

theorem pure {a : α} {Q : α → Builder → Point → Prop} (h : Q a b x) :
    Does F (Pure.pure a) b x Q := by
  intro a' b' hm _
  obtain ⟨rfl, rfl⟩ := Prod.mk.inj (Except.ok.inj hm)
  exact ⟨0, x, .zero x, h⟩

/-- One construction before another, for anything that steps in front of it do not change. -/
theorem before {m : Build α} {f : α → Build β} [Growing m] [∀ a, Growing (f a)] (hb : b.Valid)
    {Q : α → Builder → Point → Prop} (Φ : Point → β → Builder → Prop)
    (hΦ : ∀ {k y a b'}, Runs (Point.step F) k x y → Φ y a b' → Φ x a b') (hm : Does F m b x Q)
    (hf : ∀ a b₁ y, Q a b₁ y → Once F (f a) b₁ (Φ y)) : Once F (m >>= f) b (Φ x) := by
  intro a' b' h hF
  obtain ⟨a, b₁, hrun, hrest⟩ := bind_eq_ok h
  have hvalid := (Growing.grows hb hrun).valid hb
  obtain ⟨k, y, hy, hQ⟩ := hm a b₁ hrun ((Growing.grows hvalid hrest).contained.trans hF)
  exact hΦ hy (hf a b₁ y hQ a' b' hrest hF)

/-- One construction after another. -/
theorem bind {m : Build α} {f : α → Build β} [Growing m] [∀ a, Growing (f a)] (hb : b.Valid)
    {Q : α → Builder → Point → Prop} {Q' : β → Builder → Point → Prop} (hm : Does F m b x Q)
    (hf : ∀ a b₁ y, Q a b₁ y → Does F (f a) b₁ y Q') : Does F (m >>= f) b x Q' := by
  refine before hb (fun y a b' => ∃ k z, Runs (Point.step F) k y z ∧ Q' a b' z) ?_ hm hf
  rintro k y a b' hy ⟨l, z, hz, hQ'⟩
  exact ⟨k + l, z, hy.trans hz, hQ'⟩

end Does

/-- A construction has given a value, in a register, and the process shows a configuration. -/
def Known (F : Array Block) (regs : Frame) (k : Nat) (c : Config) (v : Value) (a : Operand)
    (b : Builder) (x : Point) : Prop :=
  ∃ regs', regs.Within regs' ∧ regs'.Gives a v ∧ Point.At F b regs' k c x

namespace Point.At

variable {F : Array Block} {b : Builder} {regs : Frame} {k k' : Nat} {c d : Config} {x : Point}
  {s : Stem} {op : Op} {p : Process}

/-- A line with a value.  Its register was free, so what was known is known. -/
theorem emit (hx : At F b regs k c x) {v : Value}
    (hexec : ∀ name, x.process.execute x.from? ⟨name, op⟩ = some (p.define name v))
    (hregs : p.registers = x.process.registers) (hshows : p.Shows k' d) :
    Does F (emit s op) b x (Known F regs k' d v) := by
  intro a b' hrun hF
  obtain ⟨rfl, rfl⟩ := emit_eq_ok hrun
  obtain ⟨rest, hlines, hstands⟩ := hx.stands.next hF
  have hstep : x.step F = .next ⟨x.from?, x.label, rest,
      { p with registers := p.registers.insert (b.nextName s) v }⟩ := by
    rw [← x.eta hlines]
    exact step_line (hexec _)
  have hfresh : ∀ n w, regs n = some w → n ≠ b.nextName s := by
    rintro n w hn rfl
    exact b.names.not_taken_take s (hx.taken _ w hn)
  refine ⟨1, _, .one hstep, Function.update regs (b.nextName s) (some v), fun n w hn => ?_,
    Function.update_self .., hstands _ _, fun n w hn => ?_, fun n w hn => ?_, hshows.registers _⟩
  · rw [Function.update_of_ne (hfresh n w hn)]
    exact hn
  · rw [Function.update_apply] at hn
    split at hn
    case isTrue heq =>
      rw [heq]
      exact b.names.taken_take s
    case isFalse => exact (b.names.within_take s).taken (hx.taken n w hn)
  · rw [Function.update_apply] at hn
    change (p.registers.insert (b.nextName s) v)[n]? = some w
    rw [Std.HashMap.getElem?_insert]
    split at hn
    case isTrue heq => rw [if_pos (beq_iff_eq.mpr heq.symm), hn]
    case isFalse hne =>
      rw [if_neg fun h => hne (beq_iff_eq.mp h).symm, hregs]
      exact hx.knows n w hn

/-- A line with a value, in a process that does not change otherwise. -/
theorem compute (hx : At F b regs k c x) {v : Value}
    (hexec : ∀ name, x.process.execute x.from? ⟨name, op⟩ = some (x.process.define name v)) :
    Does F (Build.emit s op) b x (Known F regs k c v) :=
  hx.emit hexec rfl hx.shows

/-- A line without a value. -/
theorem emitUnused (hx : At F b regs k c x)
    (hexec : ∀ name, x.process.execute x.from? ⟨name, op⟩ = some (.line p))
    (hregs : p.registers = x.process.registers) (hshows : p.Shows k' d) :
    Does F (emitUnused op) b x fun _ b' y => At F b' regs k' d y := by
  intro u b' hrun hF
  obtain ⟨_, rfl⟩ := Prod.mk.inj (Except.ok.inj hrun)
  change Contained (b.emitted .unused op).blocks F at hF
  obtain ⟨rest, hlines, hstands⟩ := hx.stands.next hF
  have hstep : x.step F = .next ⟨x.from?, x.label, rest, p⟩ := by
    rw [← x.eta hlines]
    exact step_line (hexec _)
  refine ⟨1, _, .one hstep, hstands _ _, fun n w hn => ?_, fun n w hn => ?_, hshows⟩
  · exact (b.names.within_take .unused).taken (hx.taken n w hn)
  · rw [hregs]
    exact hx.knows n w hn

/-- A line whose value is not used. -/
theorem emitIgnored (hx : At F b regs k c x) {v : Value}
    (hexec : ∀ name, x.process.execute x.from? ⟨name, op⟩ = some (p.define name v))
    (hregs : p.registers = x.process.registers) (hshows : p.Shows k' d) :
    Does F (Build.emitUnused op) b x fun _ b' y => At F b' regs k' d y := by
  refine Does.bind hx.valid (hx.emit hexec hregs hshows) fun a b₁ y hy => Does.pure ?_
  obtain ⟨regs', hle, _, hat⟩ := hy
  exact hat.mono hle

/-! ## The current cell -/

theorem loadCells (hx : At F b regs k c x) (hslots : regs.HasSlots) :
    Does F loadCells b x (Known F regs k c (.address k 0)) :=
  hx.compute fun _ => Process.execute_load (hx.eval hslots.cells _) hx.shows.base

theorem loadIndex (hx : At F b regs k c x) (hslots : regs.HasSlots) :
    Does F loadIndex b x (Known F regs k c (.word (.ofNat c.index))) :=
  hx.compute fun _ => Process.execute_load (hx.eval hslots.index _) hx.shows.index

theorem cellAddress (hx : At F b regs k c x) (hslots : regs.HasSlots) :
    Does F cellAddress b x (Known F regs k c (.address k c.index)) := by
  refine Does.bind hx.valid (hx.loadCells hslots) ?_
  rintro cells b₁ y ⟨regs₁, hle₁, hcells, hy⟩
  refine Does.bind hy.valid (hy.loadIndex (hslots.mono hle₁)) ?_
  rintro index b₂ z ⟨regs₂, hle₂, hindex, hz⟩
  have hexec : ∀ name, z.process.execute z.from? ⟨name, .byteAt cells index⟩ =
      some (z.process.define name (.address k c.index)) := by
    intro name
    rw [Process.execute_byteAt (hz.eval (hcells.mono hle₂) _) (hz.eval hindex _),
      toInt_ofNat_of_lt hz.shows.bound, Int.zero_add]
  refine (hz.compute hexec).mono ?_
  rintro a b₃ w ⟨regs₃, hle₃, ha, hw⟩
  exact ⟨regs₃, (hle₁.trans hle₂).trans hle₃, ha, hw⟩

/-- The byte at the address of the current cell. -/
theorem loadByte (hx : At F b regs k c x) {address : Operand}
    (haddress : regs.Gives address (.address k c.index)) (s : Stem) :
    Does F (Build.emit s (.load .i8 address)) b x (Known F regs k c (.byte c.cell)) :=
  hx.compute fun _ => Process.execute_load (hx.eval haddress _) hx.shows.fetch_cell

/-- Writing to the address of the current cell. -/
theorem storeByte (hx : At F b regs k c x) {address value : Operand} {v : UInt8}
    (haddress : regs.Gives address (.address k c.index))
    (hvalue : x.process.eval .i8 value = some (.byte v)) :
    Does F (Build.emitUnused (.store .i8 value address)) b x fun _ b' y =>
      At F b' regs k (c.store v) y := by
  obtain ⟨p, hput, hregs, hshows⟩ := hx.shows.exists_put v
  exact hx.emitUnused (fun _ => Process.execute_store hvalue (hx.eval haddress _) hput) hregs hshows

theorem clearCell (hx : At F b regs k c x) (hslots : regs.HasSlots) :
    Does F clearCell b x fun _ b' y => At F b' regs k (c.store 0) y := by
  refine Does.bind hx.valid (hx.cellAddress hslots) ?_
  rintro address b₁ y ⟨regs₁, hle₁, haddress, hy⟩
  exact (hy.storeByte haddress rfl).mono fun _ _ _ hz => hz.mono hle₁

theorem scaledAmount (hx : At F b regs k c x) {a? : Option Operand} {scale : UInt8}
    (hscale : regs.GivesScale a? scale) (amount : Int) :
    Does F (scaledAmount amount a?) b x fun a b' y =>
      y.process.eval .i8 a = some (.byte (.ofInt amount * scale)) ∧
        ∃ regs', regs.Within regs' ∧ At F b' regs' k c y := by
  have hamount : ∀ z : Point, z.process.eval .i8 (.int (amount % 256)) =
      some (.byte (.ofInt amount)) := by
    intro z
    rw [Process.eval, ofInt_emod]
  cases a? with
  | none =>
    obtain rfl : scale = 1 := hscale
    refine Does.pure ⟨?_, regs, .refl regs, hx⟩
    rw [hamount, UInt8.mul_one]
  | some factor =>
    have hfactor : regs.Gives factor (.byte scale) := hscale
    refine (hx.compute fun _ => Process.execute_arith (hamount x) (hx.eval hfactor _) rfl).mono ?_
    rintro a b' y ⟨regs', hle, ha, hy⟩
    exact ⟨hy.eval ha _, regs', hle, hy⟩

/-- A change of the current cell. -/
theorem changeCell (hx : At F b regs k c x) (hslots : regs.HasSlots) {a? : Option Operand}
    {scale v : UInt8} (hscale : regs.GivesScale a? scale) {f : Arith} {amount : Int}
    (hv : Process.arith f (.byte c.cell) (.byte (.ofInt amount * scale)) = some (.byte v))
    (s : Stem) :
    Does F (changeCell f s amount a?) b x fun _ b' y => At F b' regs k (c.store v) y := by
  rw [changeCell_eq]
  refine Does.bind hx.valid (hx.cellAddress hslots) ?_
  rintro address b₁ y₁ ⟨regs₁, hle₁, haddress, hy₁⟩
  refine Does.bind hy₁.valid (hy₁.loadByte haddress _) ?_
  rintro old b₂ y₂ ⟨regs₂, hle₂, hold, hy₂⟩
  refine Does.bind hy₂.valid (hy₂.scaledAmount (hscale.mono (hle₁.trans hle₂)) amount) ?_
  rintro amount' b₃ y₃ ⟨hamount, regs₃, hle₃, hy₃⟩
  have hsum : ∀ name, y₃.process.execute y₃.from? ⟨name, .arith f .i8 old amount'⟩ =
      some (y₃.process.define name (.byte v)) :=
    fun _ => Process.execute_arith (hy₃.eval (hold.mono hle₃) _) hamount hv
  refine Does.bind hy₃.valid (hy₃.compute hsum) ?_
  rintro new b₄ y₄ ⟨regs₄, hle₄, hnew, hy₄⟩
  have hle : regs₁.Within regs₄ := (hle₂.trans hle₃).trans hle₄
  refine (hy₄.storeByte (haddress.mono hle) (hy₄.eval hnew _)).mono fun _ _ _ hz => ?_
  exact hz.mono (hle₁.trans hle)

end Point.At

end Brainfuck.IR
