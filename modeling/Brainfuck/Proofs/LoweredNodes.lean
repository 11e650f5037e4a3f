import Brainfuck.Proofs.LoweredLines

/-!
# Lowered nodes

What the lines of each node do in a finished module: they realize the meaning of the node.  Lines
that come to the end of what was built are handled by `Does`; here are the lines that leave a block,
the fault that ends the process, and the nodes themselves.

A jump leads to a block that was empty at some stage of the construction, and from there one goes on
as at that stage.  The stage need not be the present one: the body of a loop jumps back to a stage
before the body was built.  All that is asked of the stage is that the known registers were taken.

Every fault goes through the same two blocks, and these are all that has to be known of the module
apart from the construction itself; `Closing` says what they are.

* `Leaves`, `Fails`, `Implements`: constructions whose lines go elsewhere, fail, realize a behaviour.
* `Point.At.jump`, `Point.At.failIf_pass`, `Point.At.failIf_fault`: leaving a block.
* `implements_moveLeft`, `implements_output`, …: single nodes.
* `implements_loop`, `implements_scaled`: loops and scaled bodies, given their bodies.
-/

namespace Brainfuck.IR

open Build Behaviour

/-! ## The end of a function -/

/-- The lines that report a fault; their names may have any numbers. -/
def faultLines (i j k l : Nat) (returnLabel : Name) : List Line :=
  [⟨⟨.errorString, i⟩, .errorText⟩, ⟨⟨.stderr, j⟩, .load (.ptr .i8) (.stream .stderr)⟩,
    ⟨⟨.unused, k⟩, .call .fputs [.reg ⟨.errorString, i⟩, .reg ⟨.stderr, j⟩]⟩,
    ⟨⟨.unused, l⟩, .br returnLabel⟩]

/-- The lines that return, with zero if one comes from a certain block. -/
def returnLines (last : Name) (i j k l m n : Nat) : List Line :=
  [⟨⟨.returnValue, i⟩, .phi [(0, last), (faultStatus, errorLabel)]⟩,
    ⟨⟨.cells, j⟩, .load (.ptr .i8) cellsSlot⟩, ⟨⟨.unused, k⟩, .call .free [.reg ⟨.cells, j⟩]⟩,
    ⟨⟨.inputBuffer, l⟩, .load (.ptr .i8) inputSlot⟩,
    ⟨⟨.unused, m⟩, .call .free [.reg ⟨.inputBuffer, l⟩]⟩,
    ⟨⟨.unused, n⟩, .ret (.reg ⟨.returnValue, i⟩)⟩]

/-- The blocks of a finished function: no two have the same label, and among them are the one that
reports a fault and the one that returns. -/
structure Closing (F : Array Block) (last returnLabel : Name) : Prop where
  labels : (F.toList.map Block.label).Nodup
  last_ne : last ≠ errorLabel
  fault : ∃ i j k l, (blockTable F)[errorLabel]? = some (faultLines i j k l returnLabel)
  back : ∃ i j k l m n, (blockTable F)[returnLabel]? = some (returnLines last i j k l m n)

/-- An exit that reports a fault. -/
def Exit.Failed (d : Config) (r : Exit) : Prop :=
  r.status = faultStatus ∧ r.stdout = d.written ∧ r.stderr = faultMessage

section Closing

variable {F : Array Block} {last returnLabel : Name} {s : Process}

/-- What is needed to return: the tape and the line are found and can be given back. -/
structure Process.CanReturn (s : Process) : Prop where
  cells : s.registers[(⟨.cells, 0⟩ : Name)]? = some (.slot ⟨.cells, 0⟩)
  input : s.registers[(⟨.inputBuffer, 0⟩ : Name)]? = some (.slot ⟨.inputBuffer, 0⟩)
  memory : ∃ k j? m, s.Holds k j? m

/-- From its last block a function returns zero, and from the block that reports a fault the status
of a fault. -/
theorem Closing.ends_return (h : Closing F last returnLabel) (hs : s.CanReturn) {origin : Name}
    {status : Nat}
    (hstatus : origin = last ∧ status = 0 ∨ origin = errorLabel ∧ status = faultStatus) :
    ∃ lines, (blockTable F)[returnLabel]? = some lines ∧
      Ends (Point.step F) ⟨some origin, returnLabel, lines, s⟩ ⟨status, s.stdout, s.stderr⟩ := by
  obtain ⟨i, j, k, l, m, n, hlines⟩ := h.back
  obtain ⟨block, line?, memory, hholds⟩ := hs.memory
  have hphi : ∃ label, [((0 : Int), last), (faultStatus, errorLabel)].find?
      (fun e => some e.2 = some origin) = some ((status : Int), label) := by
    rcases hstatus with ⟨rfl, rfl⟩ | ⟨rfl, rfl⟩
    · simp
    · simp [h.last_ne]
  have hword : (UInt32.ofInt (status : Int)).toNat = status := by
    rcases hstatus with ⟨_, rfl⟩ | ⟨_, rfl⟩ <;> rfl
  obtain ⟨label, hphi⟩ := hphi
  let r₁ := s.registers.insert ⟨.returnValue, i⟩ (.int (.ofInt status))
  let r₂ := r₁.insert ⟨.cells, j⟩ (.address block 0)
  let r₃ := r₂.insert ⟨.inputBuffer, l⟩ (.pointer line?)
  have hcells : r₁[(⟨.cells, 0⟩ : Name)]? = some (.slot ⟨.cells, 0⟩) := by
    rw [getElem?_insert_of_stem_ne (by simp), hs.cells]
  have hinput : r₂[(⟨.inputBuffer, 0⟩ : Name)]? = some (.slot ⟨.inputBuffer, 0⟩) := by
    rw [getElem?_insert_of_stem_ne (by simp), getElem?_insert_of_stem_ne (by simp), hs.input]
  have hargs : ∀ {p : Process} {name : Name} {a : Value}, p.registers[name]? = some a →
      p.arguments .free [.reg name] = some [a] := by
    intro p name a ha
    simp [Process.arguments, Callee.parameters, Process.eval, ha]
  obtain ⟨heap, hfree⟩ := hholds.exists_call_free_line r₃
  have hvalue : Process.eval { s with registers := r₃, heap := heap } .i32 (.reg ⟨.returnValue, i⟩) =
      some (.int (.ofInt status)) := by
    change r₃[_]? = _
    rw [getElem?_insert_of_stem_ne (by simp), getElem?_insert_of_stem_ne (by simp),
      Std.HashMap.getElem?_insert_self]
  refine ⟨_, hlines, 5, _, .succ (Point.step_line (Process.execute_phi hphi))
    (.succ (Point.step_line (Process.execute_load hcells hholds.cells))
    (.succ (Point.step_line (Process.execute_call_void (hargs Std.HashMap.getElem?_insert_self)
      (hholds.call_free_cells r₂)))
    (.succ (Point.step_line (Process.execute_load hinput hholds.line))
    (.succ (Point.step_line (Process.execute_call_void (hargs Std.HashMap.getElem?_insert_self) hfree))
      (.zero _))))), ?_⟩
  exact (Point.step_exit (Process.execute_ret hvalue)).trans (by rw [hword])

/-- Once the block that reports a fault is entered, the process ends with a report. -/
theorem Closing.ends_fault (h : Closing F last returnLabel) (hs : s.CanReturn)
    (hstderr : s.stderr = "") :
    ∃ lines, (blockTable F)[errorLabel]? = some lines ∧ ∀ origin,
      Ends (Point.step F) ⟨some origin, errorLabel, lines, s⟩
        ⟨faultStatus, s.stdout, faultMessage⟩ := by
  obtain ⟨i, j, k, l, hlines⟩ := h.fault
  let r₁ := s.registers.insert ⟨.errorString, i⟩ .errorText
  let r₂ := r₁.insert ⟨.stderr, j⟩ (.stream .stderr)
  let r₃ := r₂.insert ⟨.unused, k⟩ (.int 1)
  have htext : r₂[(⟨.errorString, i⟩ : Name)]? = some .errorText := by
    rw [getElem?_insert_of_stem_ne (by simp), Std.HashMap.getElem?_insert_self]
  have hstream : r₂[(⟨.stderr, j⟩ : Name)]? = some (.stream .stderr) :=
    Std.HashMap.getElem?_insert_self
  let s₃ : Process := { s with registers := r₃, stderr := faultMessage }
  have hfputs : ∀ from?, Process.execute { s with registers := r₂ } from?
      ⟨⟨.unused, k⟩, .call .fputs [.reg ⟨.errorString, i⟩, .reg ⟨.stderr, j⟩]⟩ =
        some (.line s₃) := by
    intro from?
    have hargs : Process.arguments { s with registers := r₂ } .fputs
        [.reg ⟨.errorString, i⟩, .reg ⟨.stderr, j⟩] = some [.errorText, .stream .stderr] := by
      simp [Process.arguments, Callee.parameters, Process.eval, htext, hstream]
    have hcall : Process.call { s with registers := r₂ } .fputs [.errorText, .stream .stderr] =
        some (some (.int 1), { s with registers := r₂, stderr := faultMessage }) := by
      rw [Process.call_fputs, hstderr, String.empty_append]
    rw [Process.execute_call hargs hcall]
    rfl
  have hkept : ∀ n : Name, n.stem = .cells ∨ n.stem = .inputBuffer → r₃[n]? = s.registers[n]? := by
    intro n hn
    rw [getElem?_insert_of_stem_ne, getElem?_insert_of_stem_ne, getElem?_insert_of_stem_ne] <;>
      rcases hn with hn | hn <;> simp [hn]
  obtain ⟨block, line?, memory, hholds⟩ := hs.memory
  have hcan : s₃.CanReturn :=
    ⟨(hkept _ (Or.inl rfl)).trans hs.cells, (hkept _ (Or.inr rfl)).trans hs.input,
      block, line?, memory, hholds.unseen r₃ s.stdout faultMessage⟩
  obtain ⟨lines, hback, hends⟩ := h.ends_return hcan (Or.inr ⟨rfl, rfl⟩)
  refine ⟨_, hlines, fun origin => .of_runs (.succ (Point.step_line rfl)
    (.succ (Point.step_line (Process.execute_load rfl rfl)) (.succ (Point.step_line (hfputs _))
    (.one (Point.step_block rfl hback))))) hends⟩

end Closing

/-! ## Constructions that lead elsewhere -/

section Judgements

variable {α : Type} {F : Array Block} {b : Builder} {x : Point}

/-- The lines of a construction lead, with at least one step, to a point with a certain property. -/
def Leaves (F : Array Block) (m : Build Unit) (b : Builder) (x : Point) (P : Point → Prop) : Prop :=
  Once F m b fun _ _ => ∃ k y, Runs (Point.step F) (k + 1) x y ∧ P y

/-- The lines of a construction end the process with a report about a fault. -/
def Fails (F : Array Block) (m : Build Unit) (b : Builder) (c : Config) (x : Point) : Prop :=
  Once F m b fun _ _ => ∃ r, Ends (Point.step F) x r ∧ Exit.Failed c r

/-- The lines of a construction realize a behaviour, and known registers keep their values.  The tape
may be in another block afterwards. -/
def Implements (F : Array Block) (m : Build Unit) (b : Builder) (regs : Frame) (R : Behaviour)
    (c : Config) (x : Point) : Prop :=
  Once F m b fun _ b' =>
    Realizes (Point.step F) Exit.Failed R c x fun d y => ∃ k, Point.At F b' regs k d y

variable {m : Build α} {f : α → Build Unit} [Growing m] [∀ a, Growing (f a)]
  {Q : α → Builder → Point → Prop}

theorem Leaves.after (hb : b.Valid) {P : Point → Prop} (hm : Does F m b x Q)
    (hf : ∀ a b₁ y, Q a b₁ y → Leaves F (f a) b₁ y P) : Leaves F (m >>= f) b x P := by
  refine Does.before hb (fun y _ _ => ∃ k z, Runs (Point.step F) (k + 1) y z ∧ P z) ?_ hm hf
  rintro k y _ _ hy ⟨l, z, hz, hP⟩
  exact ⟨k + l, z, hy.trans hz, hP⟩

theorem Implements.after (hb : b.Valid) {regs : Frame} {R : Behaviour} {c : Config}
    (hm : Does F m b x Q) (hf : ∀ a b₁ y, Q a b₁ y → Implements F (f a) b₁ regs R c y) :
    Implements F (m >>= f) b regs R c x :=
  Does.before hb
    (fun y _ b' => Realizes (Point.step F) Exit.Failed R c y fun d z => ∃ k, Point.At F b' regs k d z)
    (fun hy h => .of_runs hy h) hm hf

/-- What fails at the beginning fails. -/
theorem Fails.bind {m : Build Unit} {f : Unit → Build Unit} [Growing m] [∀ a, Growing (f a)]
    (hb : b.Valid) {c : Config} (hm : Fails F m b c x) : Fails F (m >>= f) b c x := by
  intro u b' h hF
  obtain ⟨a, b₁, hrun, hrest⟩ := bind_eq_ok h
  have hvalid := (Growing.grows hb hrun).valid hb
  exact hm a b₁ hrun ((Growing.grows hvalid hrest).contained.trans hF)

namespace Implements

variable {m : Build Unit} {regs : Frame} {k : Nat} {R : Behaviour} {c d : Config}

theorem of_does (hR : ∀ e, R c e ↔ e = .done d)
    (h : Does F m b x fun _ b' y => Point.At F b' regs k d y) : Implements F m b regs R c x := by
  intro u b' hm hF
  obtain ⟨_, y, hy, hat⟩ := h u b' hm hF
  exact .of_done hR hy ⟨k, hat⟩

theorem of_fails (hR : ∀ e, R c e ↔ e = .fault c) (h : Fails F m b c x) :
    Implements F m b regs R c x := by
  intro u b' hm hF
  obtain ⟨r, hr, hfailed⟩ := h u b' hm hF
  exact .of_fault hR hr hfailed

end Implements

end Judgements

/-! ## Leaving a block -/

namespace Point.At

variable {F : Array Block} {b b' : Builder} {regs : Frame} {k : Nat} {c : Config} {x : Point}
  {r : BlockRef} {op : Op} {last returnLabel : Name}

/-- A line that leads to a block which is empty at some stage: one goes on as at that stage. -/
theorem jump (hx : At F b regs k c x) (hlabels : (F.toList.map Block.label).Nodup)
    (hexec : ∀ name, x.process.execute x.from? ⟨name, op⟩ = some (.block r.label x.process))
    (hempty : b'.Empty r) (hF : Contained b'.blocks F)
    (htaken : ∀ n v, regs n = some v → b'.names.Taken n) :
    Leaves F (Build.emitUnused op) b x (At F (b'.entered r.index) regs k c) := by
  intro u b₁ hrun hF₁
  obtain ⟨_, rfl⟩ := Prod.mk.inj (Except.ok.inj hrun)
  change Contained (b.emitted .unused op).blocks F at hF₁
  obtain ⟨rest, hlines, _⟩ := hx.stands.next hF₁
  obtain ⟨full, hfull, hlabel, _⟩ := hF _ (Array.mem_of_getElem? hempty)
  have hfound : (blockTable F)[r.label]? = some full.lines.toList := by
    rw [← getElem?_blockTable hlabels hfull, hlabel]
  have hstep : x.step F = .next ⟨some x.label, r.label, full.lines.toList, x.process⟩ := by
    rw [← x.eta hlines]
    exact step_block (hexec _) hfound
  have hunique : ∀ other ∈ F, other.label = r.label → other = full := fun other hother hsame =>
    eq_of_label_eq hlabels hother hfull (hsame.trans hlabel.symm)
  exact ⟨0, _, .one hstep, ⟨_, full, hempty, hfull, hunique, hlabel, rfl, rfl⟩, htaken, hx.knows,
    hx.shows⟩

/-- The stage of a check at which its new block has been created. -/
theorem atBranch (hx : At F b regs k c x) {s : Stem} {rest : BlockRef} {b₁ : Builder}
    (hnew : newBlock s b = .ok (rest, b₁)) : At F b₁ regs k c x :=
  hx.opened (Growing.grows hx.valid hnew).names (empty_of_newBlock hnew).2.2
    (getElem?_of_newBlock hnew hx.valid)

/-- A check that finds nothing wrong goes on. -/
theorem failIf_pass (hx : At F b regs k c x) (hlabels : (F.toList.map Block.label).Nodup)
    {condition : Operand} (hfalse : regs.Gives condition (.bit false)) (s : Stem) :
    Does F (failIf condition s) b x fun _ b' y => At F b' regs k c y := by
  intro u b' hrun hF
  obtain ⟨rest, b₁, hnew, hrun⟩ := bind_eq_ok hrun
  obtain ⟨_, b₂, hbranch, henter⟩ := bind_eq_ok hrun
  obtain rfl := enter_eq_ok henter
  obtain ⟨hempty, hindex, hcurrent⟩ := empty_of_newBlock hnew
  have hlt : b.current < b.blocks.size := hx.valid
  have hx₁ := hx.atBranch hnew
  have hgrows : b₁.Grows b₂ := Growing.grows hx₁.valid hbranch
  have hempty₂ : b₂.Empty rest := hempty.grows hgrows (by omega)
  obtain ⟨l, y, hy, hat⟩ := hx₁.jump (r := rest) hlabels
    (fun _ => Process.execute_branch (hx₁.eval hfalse _)) hempty₂ hF
    (fun n v hn => hgrows.names.taken (hx₁.taken n v hn)) _ b₂ hbranch hF
  exact ⟨l + 1, y, hy, hat⟩

theorem canReturn (hx : At F b regs k c x) (hslots : regs.HasSlots) : x.process.CanReturn := by
  obtain ⟨j?, m, _, hholds, _⟩ := hx.shows
  exact ⟨hx.knows _ _ hslots.cells, hx.knows _ _ hslots.input, k, j?, m, hholds⟩

/-- A check that finds something wrong ends the process. -/
theorem failIf_fault (hx : At F b regs k c x) (hclosing : Closing F last returnLabel)
    (hslots : regs.HasSlots) {condition : Operand} (htrue : regs.Gives condition (.bit true))
    (s : Stem) : Fails F (failIf condition s) b c x := by
  intro u b' hrun hF
  obtain ⟨rest, b₁, hnew, hrun⟩ := bind_eq_ok hrun
  obtain ⟨_, b₂, hbranch, henter⟩ := bind_eq_ok hrun
  obtain rfl := enter_eq_ok henter
  obtain ⟨_, rfl⟩ := Prod.mk.inj (Except.ok.inj hbranch)
  have hx₁ := hx.atBranch hnew
  obtain ⟨lines, hlines, _⟩ := hx₁.stands.next hF
  obtain ⟨target, htarget, hends⟩ := hclosing.ends_fault (hx.canReturn hslots) hx.shows.stderr
  have hstep : x.step F = .next ⟨some x.label, errorLabel, target, x.process⟩ := by
    rw [← x.eta hlines]
    exact step_block (Process.execute_branch (hx.eval htrue _)) htarget
  exact ⟨_, .of_runs (.one hstep) (hends x.label), rfl, hx.shows.stdout, rfl⟩

end Point.At

/-! ## Single nodes -/

section Nodes

open Point (At)

variable {F : Array Block} {b : Builder} {regs : Frame} {k : Nat} {c : Config} {x : Point} {n : Int}
  {last returnLabel : Name} {a? : Option Operand} {scale : UInt8} {R : Behaviour}

/-- A call that moves the head and may give the tape another size. -/
theorem implements_move (hx : At F b regs k c x) (hslots : regs.HasSlots) {f : Callee} {r : Routine}
    {n : Nat} (hn : n < 2 ^ 63) (hr : r.answers = false) (hscan : r.scans = true → n ≠ 0)
    (hf : f.parameters = Callee.moveRight.parameters)
    (hcall : ∀ (s : Process) w, s.call f [.slot ⟨.cells, 0⟩, .slot ⟨.cellsLength, 0⟩,
      .slot ⟨.currentCell, 0⟩, .word w] = (do
        let i ← s.wordAt ⟨.currentCell, 0⟩
        let (i, s) ← s.callOnSlots r ⟨.cells, 0⟩ ⟨.cellsLength, 0⟩ i w
        return (none, s.setWord ⟨.currentCell, 0⟩ i)))
    (hstays : (r.node n).Stays (2 ^ 63) scale c) :
    Implements F (emitUnused (.call f [cellsSlot, lengthSlot, indexSlot, .int n])) b regs
      ((r.node n).Means scale) c x := by
  have hword := toNat_ofInt_natCast hn
  have hargs : x.process.arguments f [cellsSlot, lengthSlot, indexSlot, .int n] =
      some [.slot ⟨.cells, 0⟩, .slot ⟨.cellsLength, 0⟩, .slot ⟨.currentCell, 0⟩,
        .word (.ofInt n)] := by
    have hint : x.process.eval .i64 (.int n) = some (.word (.ofInt n)) := rfl
    rw [Process.arguments, hf]
    simp [Callee.parameters, hx.eval hslots.cells, hx.eval hslots.length, hx.eval hslots.index, hint]
  rw [← hword] at hstays hscan
  obtain ⟨k', i, s, d, hcalled, hregs, hmeans, hshows, _⟩ := hx.shows.exists_callOnSlots hr
    (fun h hzero => hscan h (congrArg UInt64.toNat hzero)) hstays
  rw [hword] at hmeans
  refine .of_does ((Node.means_deterministic scale _).iff_eq hmeans)
    (hx.emitUnused (p := s.setWord ⟨.currentCell, 0⟩ i)
      (fun _ => Process.execute_call_void hargs ?_) hregs hshows)
  have hindex : x.process.wordAt ⟨.currentCell, 0⟩ = some (.ofNat c.index) := by
    rw [Process.wordAt, hx.shows.index]
  simp only [hcall, hindex, hcalled, bind, Option.bind, pure]

theorem implements_moveRight (hx : At F b regs k c x) (hslots : regs.HasSlots) (h0 : 0 ≤ n)
    (hn : n < 2 ^ 63) (hstays : (Node.moveRight n).Stays (2 ^ 63) scale c) :
    Implements F ((Node.moveRight n).lower a?) b regs ((Node.moveRight n).Means scale) c x := by
  obtain ⟨n, rfl⟩ := Int.eq_ofNat_of_zero_le h0
  rw [Node.lower]
  exact implements_move (r := .moveRight) hx hslots (by omega) rfl (by exact nofun) rfl
    (fun _ _ => rfl) hstays

theorem implements_scanRight (hx : At F b regs k c x) (hslots : regs.HasSlots) (h1 : 1 ≤ n)
    (hn : n < 2 ^ 63) (hstays : (Node.scanRight n).Stays (2 ^ 63) scale c) :
    Implements F ((Node.scanRight n).lower a?) b regs ((Node.scanRight n).Means scale) c x := by
  obtain ⟨n, rfl⟩ := Int.eq_ofNat_of_zero_le (Int.le_trans Int.one_nonneg h1)
  rw [Node.lower]
  exact implements_move (r := .scanRight) hx hslots (by omega) rfl (by omega) rfl
    (fun _ _ => rfl) hstays

/-- A move to the left.  The difference of the two words is negative as a signed number exactly if
the move would leave the tape. -/
theorem implements_moveLeft (hclosing : Closing F last returnLabel) (hx : At F b regs k c x)
    (hslots : regs.HasSlots) (h0 : 0 ≤ n) (hn : n < 2 ^ 63) :
    Implements F ((Node.moveLeft n).lower a?) b regs ((Node.moveLeft n).Means scale) c x := by
  have hindex := hx.shows.bound
  rw [Node.lower]
  refine .after hx.valid (hx.loadIndex hslots) ?_
  rintro index b₁ y₁ ⟨regs₁, hle₁, hindex₁, hy₁⟩
  refine .after hy₁.valid
    (hy₁.compute fun _ => Process.execute_arith (hy₁.eval hindex₁ _) rfl rfl) ?_
  rintro target b₂ y₂ ⟨regs₂, hle₂, htarget, hy₂⟩
  have hcompare : ∀ name, y₂.process.execute y₂.from? ⟨name, .compare .slt .i64 target (.int 0)⟩ =
      some (y₂.process.define name (.bit (decide (c.index < n.toNat)))) := by
    intro name
    rw [Process.execute_compare (hy₂.eval htarget _) rfl rfl]
    simp only [sub_toInt64_lt_zero_iff hindex h0 hn]
  refine .after hy₂.valid (hy₂.compute hcompare) ?_
  rintro failed b₃ y₃ ⟨regs₃, hle₃, hfailed, hy₃⟩
  have hle : regs.Within regs₃ := (hle₁.trans hle₂).trans hle₃
  by_cases hlt : c.index < n.toNat
  · have hR : ∀ e, (Node.moveLeft n).Means scale c e ↔ e = .fault c := by
      intro e
      simp only [Node.Means, Config.moveLeft, if_pos hlt]
    rw [decide_eq_true hlt] at hfailed
    exact .of_fails hR (.bind hy₃.valid (hy₃.failIf_fault hclosing (hslots.mono hle) hfailed _))
  · have hR : ∀ e, (Node.moveLeft n).Means scale c e ↔ e = .done (c.goTo (c.index - n.toNat)) := by
      intro e
      simp only [Node.Means, Config.moveLeft, if_neg hlt]
    rw [decide_eq_false hlt] at hfailed
    refine .of_does (k := k) hR (.bind hy₃.valid (hy₃.failIf_pass hclosing.labels hfailed _) ?_)
    intro _ b₄ y₄ hy₄
    have hstore : ∀ name, y₄.process.execute y₄.from? ⟨name, .store .i64 target indexSlot⟩ =
        some (.line (y₄.process.setWord ⟨.currentCell, 0⟩ (.ofNat (c.index - n.toNat)))) := by
      intro name
      rw [Process.execute_store (hy₄.eval (htarget.mono hle₃) _)
        (hy₄.eval (hslots.mono hle).index _) rfl, ofNat_sub_ofInt hindex h0 (by omega)]
      rfl
    exact (hy₄.emitUnused hstore rfl (hy₄.shows.goTo (Nat.sub_le ..))).mono
      fun _ _ _ hz => hz.mono hle

theorem implements_increment (hx : At F b regs k c x) (hslots : regs.HasSlots)
    (hscale : regs.GivesScale a? scale) :
    Implements F ((Node.increment n).lower a?) b regs ((Node.increment n).Means scale) c x := by
  rw [Node.lower]
  exact .of_does (fun e => Iff.rfl) (hx.changeCell hslots hscale rfl _)

theorem implements_decrement (hx : At F b regs k c x) (hslots : regs.HasSlots)
    (hscale : regs.GivesScale a? scale) :
    Implements F ((Node.decrement n).lower a?) b regs ((Node.decrement n).Means scale) c x := by
  rw [Node.lower]
  exact .of_does (fun e => Iff.rfl) (hx.changeCell hslots hscale rfl _)

theorem implements_clear (hx : At F b regs k c x) (hslots : regs.HasSlots) :
    Implements F (Node.clear.lower a?) b regs (Node.clear.Means scale) c x := by
  rw [Node.lower]
  exact .of_does (fun e => Iff.rfl) (hx.clearCell hslots)

theorem implements_output (hx : At F b regs k c x) (hslots : regs.HasSlots) :
    Implements F (Node.output.lower a?) b regs (Node.output.Means scale) c x := by
  rw [Node.lower]
  refine .of_does (k := k) (d := c.write) (fun e => Iff.rfl) ?_
  refine .bind hx.valid (hx.cellAddress hslots) ?_
  rintro address b₁ y₁ ⟨regs₁, hle₁, haddress, hy₁⟩
  refine .bind hy₁.valid (hy₁.loadByte haddress _) ?_
  rintro value b₂ y₂ ⟨regs₂, hle₂, hvalue, hy₂⟩
  refine .bind hy₂.valid (hy₂.compute fun _ => Process.execute_zext (hy₂.eval hvalue _)) ?_
  rintro wide b₃ y₃ ⟨regs₃, hle₃, hwide, hy₃⟩
  have hputchar : ∀ name, y₃.process.execute y₃.from? ⟨name, .call .putchar [wide]⟩ =
      some (Process.define { y₃.process with stdout := y₃.process.stdout.push c.cell } name
        (.int c.cell.toUInt32)) := by
    intro name
    have hargs : y₃.process.arguments .putchar [wide] = some [.int c.cell.toUInt32] := by
      simp [Process.arguments, Callee.parameters, hy₃.eval hwide]
    exact Process.execute_call hargs (Process.call_putchar _ _)
  refine .bind hy₃.valid (hy₃.emitIgnored hputchar rfl hy₃.shows.write) ?_
  intro _ b₄ y₄ hy₄
  refine .bind hy₄.valid (hy₄.compute fun _ => Process.execute_load rfl rfl) ?_
  rintro stream b₅ y₅ ⟨regs₅, hle₅, hstream, hy₅⟩
  have hflush : ∀ name, y₅.process.execute y₅.from? ⟨name, .call .fflush [stream]⟩ =
      some (y₅.process.define name (.int 0)) := by
    intro name
    have hargs : y₅.process.arguments .fflush [stream] = some [.stream .stdout] := by
      simp [Process.arguments, Callee.parameters, hy₅.eval hstream]
    exact Process.execute_call hargs rfl
  refine (hy₅.emitIgnored hflush rfl hy₅.shows).mono fun _ _ _ hz => hz.mono ?_
  exact ((hle₁.trans hle₂).trans hle₃).trans hle₅

/-! ### Calls that are given the tape or the index -/

namespace Process

variable {s s' : Process} {cells : Value} {i j n : UInt64} {slot length line : Name}
  {answer : Option Bool}

theorem call_input (h : s.readInto cells i line = some s') :
    s.call .input [cells, .word i, .slot line] = some (none, s') := by
  change (s.readInto cells i line).bind (fun s => some (none, s)) = _
  rw [h]
  rfl

theorem call_moveValueRight (h : s.callOnSlots .carryRight slot length i n = some (j, s')) :
    s.call .moveValueRight [.slot slot, .slot length, .word i, .word n] = some (none, s') := by
  change (s.callOnSlots .carryRight slot length i n).bind (fun r => some (none, r.2)) = _
  rw [h]
  rfl

theorem call_moveValueLeft (h : s.callOnBlock .carryLeft cells i n = some (answer, j, s')) :
    s.call .moveValueLeft [cells, .word i, .word n] = some (answer.map .bit, s') := by
  change (s.callOnBlock .carryLeft cells i n).bind (fun r => some (r.1.map Value.bit, r.2.2)) = _
  rw [h]
  rfl

theorem call_moveLeftUntilZero (hindex : s.wordAt slot = some i)
    (h : s.callOnBlock .scanLeft cells i n = some (answer, j, s')) :
    s.call .moveLeftUntilZero [cells, .slot slot, .word n] =
      some (answer.map .bit, s'.setWord slot j) := by
  change (s.wordAt slot).bind (fun i => (s.callOnBlock .scanLeft cells i n).bind fun r =>
    some (r.1.map Value.bit, r.2.2.setWord slot r.2.1)) = _
  rw [hindex, Option.bind_some, h]
  rfl

end Process

theorem implements_input (hx : At F b regs k c x) (hslots : regs.HasSlots) :
    Implements F (Node.input.lower a?) b regs (Node.input.Means scale) c x := by
  rw [Node.lower]
  refine .of_does (k := k) (d := c.read) (fun e => Iff.rfl) ?_
  refine .bind hx.valid (hx.loadCells hslots) ?_
  rintro cells b₁ y₁ ⟨regs₁, hle₁, hcells, hy₁⟩
  refine .bind hy₁.valid (hy₁.loadIndex (hslots.mono hle₁)) ?_
  rintro index b₂ y₂ ⟨regs₂, hle₂, hindex, hy₂⟩
  have hle : regs.Within regs₂ := hle₁.trans hle₂
  have hargs : y₂.process.arguments .input [cells, index, inputSlot] =
      some [.address k 0, .word (.ofNat c.index), .slot ⟨.inputBuffer, 0⟩] := by
    simp [Process.arguments, Callee.parameters, hy₂.eval (hcells.mono hle₂), hy₂.eval hindex,
      hy₂.eval (hslots.mono hle).input]
  obtain ⟨s, hread, hregs, hshows⟩ := hy₂.shows.exists_read
  have hcall := Process.call_input hread
  exact (hy₂.emitUnused (fun _ => Process.execute_call_void hargs hcall) hregs hshows).mono
    fun _ _ _ hz => hz.mono hle

theorem implements_carryRight (hx : At F b regs k c x) (hslots : regs.HasSlots) (h0 : 0 ≤ n)
    (hn : n < 2 ^ 63) (hstays : (Node.carryRight n).Stays (2 ^ 63) scale c) :
    Implements F ((Node.carryRight n).lower a?) b regs ((Node.carryRight n).Means scale) c x := by
  obtain ⟨n, rfl⟩ := Int.eq_ofNat_of_zero_le h0
  have hword := toNat_ofInt_natCast (n := n) (by omega)
  rw [Node.lower]
  refine .after hx.valid (hx.loadIndex hslots) ?_
  rintro index b₁ y ⟨regs₁, hle, hindex, hy⟩
  have hint : y.process.eval .i64 (.int n) = some (.word (.ofInt n)) := rfl
  have hargs : y.process.arguments .moveValueRight [cellsSlot, lengthSlot, index, .int n] =
      some [.slot ⟨.cells, 0⟩, .slot ⟨.cellsLength, 0⟩, .word (.ofNat c.index),
        .word (.ofInt n)] := by
    simp [Process.arguments, Callee.parameters, hy.eval (hslots.mono hle).cells,
      hy.eval (hslots.mono hle).length, hy.eval hindex, hint]
  rw [← hword] at hstays
  obtain ⟨k', i, s, d, hcalled, hregs, hmeans, _, hshows⟩ := hy.shows.exists_callOnSlots
    (r := .carryRight) rfl (by exact nofun) hstays
  rw [hword] at hmeans
  have hdone : Ending.done d = .done (c.carryTo (c.index + n)) := hmeans
  have hsame : d.index = c.index := by
    rw [Ending.done.inj hdone]
    rfl
  have hcall := Process.call_moveValueRight hcalled
  exact .of_does ((Node.means_deterministic scale (.carryRight n)).iff_eq hmeans)
    ((hy.emitUnused (fun _ => Process.execute_call_void hargs hcall) hregs (hshows hsame)).mono
      fun _ _ _ hz => hz.mono hle)

/-- A call that says whether it failed, and the check behind it. -/
theorem implements_check {regs₁ : Frame} {op : Op} {p : Process} {failed : Bool} {d : Config}
    (hx : At F b regs₁ k c x) (hle : regs.Within regs₁) (hslots : regs.HasSlots)
    (hclosing : Closing F last returnLabel) (hR : Deterministic R)
    (hmeans : R c (if failed then .fault c else .done d))
    (hexec : ∀ name, x.process.execute x.from? ⟨name, op⟩ = some (p.define name (.bit failed)))
    (hregs : p.registers = x.process.registers) (hsame : failed = true → d = c) (hshows : p.Shows k d) :
    Implements F (emit .returnWithError op >>= fun failed => failIf failed .continueBlock) b regs R c
      x := by
  cases failed with
  | false =>
    refine .of_does (k := k) (hR.iff_eq hmeans) (.bind hx.valid (hx.emit hexec hregs hshows) ?_)
    rintro failed b₁ y ⟨regs₂, hle₂, hfailed, hy⟩
    exact (hy.failIf_pass hclosing.labels hfailed _).mono fun _ _ _ hz => hz.mono (hle.trans hle₂)
  | true =>
    obtain rfl := hsame rfl
    refine .after hx.valid (hx.emit hexec hregs hshows) ?_
    rintro failed b₁ y ⟨regs₂, hle₂, hfailed, hy⟩
    exact .of_fails (hR.iff_eq hmeans)
      (hy.failIf_fault hclosing (hslots.mono (hle.trans hle₂)) hfailed _)

theorem implements_scanLeft (hclosing : Closing F last returnLabel) (hx : At F b regs k c x)
    (hslots : regs.HasSlots) (h1 : 1 ≤ n) (hn : n < 2 ^ 63) :
    Implements F ((Node.scanLeft n).lower a?) b regs ((Node.scanLeft n).Means scale) c x := by
  obtain ⟨n, rfl⟩ := Int.eq_ofNat_of_zero_le (Int.le_trans Int.one_nonneg h1)
  have hword := toNat_ofInt_natCast (n := n) (by omega)
  have hpos : n ≠ 0 := by omega
  rw [Node.lower]
  refine .after hx.valid (hx.loadCells hslots) ?_
  rintro cells b₁ y ⟨regs₁, hle, hcells, hy⟩
  have hint : y.process.eval .i64 (.int n) = some (.word (.ofInt n)) := rfl
  have hargs : y.process.arguments .moveLeftUntilZero [cells, indexSlot, .int n] =
      some [.address k 0, .slot ⟨.currentCell, 0⟩, .word (.ofInt n)] := by
    simp [Process.arguments, Callee.parameters, hy.eval hcells, hy.eval (hslots.mono hle).index, hint]
  have hindex : y.process.wordAt ⟨.currentCell, 0⟩ = some (.ofNat c.index) := by
    rw [Process.wordAt, hy.shows.index]
  have hstays : (Routine.scanLeft.node (UInt64.ofInt n).toNat).Stays (2 ^ 63) scale c := trivial
  obtain ⟨failed, i, s, d, hcalled, hregs, hmeans, hsame, hshows, _⟩ := hy.shows.exists_callOnBlock
    (r := .scanLeft) rfl
    (fun _ hzero => hpos (hword.symm.trans (congrArg UInt64.toNat hzero))) hstays
  rw [hword] at hmeans
  have hcall := Process.call_moveLeftUntilZero hindex hcalled
  exact implements_check hy hle hslots hclosing (Node.means_deterministic scale _) hmeans
    (fun _ => Process.execute_call hargs hcall) hregs hsame hshows

theorem implements_carryLeft (hclosing : Closing F last returnLabel) (hx : At F b regs k c x)
    (hslots : regs.HasSlots) (h0 : 0 ≤ n) (hn : n < 2 ^ 63) :
    Implements F ((Node.carryLeft n).lower a?) b regs ((Node.carryLeft n).Means scale) c x := by
  obtain ⟨n, rfl⟩ := Int.eq_ofNat_of_zero_le h0
  have hword := toNat_ofInt_natCast (n := n) (by omega)
  rw [Node.lower]
  refine .after hx.valid (hx.loadCells hslots) ?_
  rintro cells b₁ y₁ ⟨regs₁, hle₁, hcells, hy₁⟩
  refine .after hy₁.valid (hy₁.loadIndex (hslots.mono hle₁)) ?_
  rintro index b₂ y ⟨regs₂, hle₂, hindex, hy⟩
  have hle : regs.Within regs₂ := hle₁.trans hle₂
  have hint : y.process.eval .i64 (.int n) = some (.word (.ofInt n)) := rfl
  have hargs : y.process.arguments .moveValueLeft [cells, index, .int n] =
      some [.address k 0, .word (.ofNat c.index), .word (.ofInt n)] := by
    simp [Process.arguments, Callee.parameters, hy.eval (hcells.mono hle₂), hy.eval hindex, hint]
  have hstays : (Routine.carryLeft.node (UInt64.ofInt n).toNat).Stays (2 ^ 63) scale c := trivial
  obtain ⟨failed, i, s, d, hcalled, hregs, hmeans, hsame, _, hshows⟩ := hy.shows.exists_callOnBlock
    (r := .carryLeft) rfl (by exact nofun) hstays
  rw [hword] at hmeans
  have hindex : d.index = c.index := by
    cases failed with
    | true => rw [hsame rfl]
    | false => exact Config.index_of_carryLeft hmeans.symm
  have hcall := Process.call_moveValueLeft hcalled
  exact implements_check hy hle hslots hclosing (Node.means_deterministic scale _) hmeans
    (fun _ => Process.execute_call hargs hcall) hregs hsame (hshows hindex)

/-! ## Loops and scaled bodies -/

/-- A branch on whether the current cell is zero. -/
theorem leaves_branch {b' : Builder} {regs₁ : Frame} (hx : At F b regs₁ k c x)
    (hle : regs.Within regs₁) (hlabels : (F.toList.map Block.label).Nodup) {nonzero : Operand}
    (hnonzero : regs₁.Gives nonzero (.bit (c.cell != 0))) {yes no r : BlockRef}
    (hr : r = if c.cell = 0 then no else yes) (hempty : b'.Empty r) (hF : Contained b'.blocks F)
    (htaken : ∀ n v, regs n = some v → b'.names.Taken n) :
    Leaves F (emitUnused (.branch nonzero yes.label no.label)) b x
      (At F (b'.entered r.index) regs k c) := by
  refine (hx.mono hle).jump hlabels (fun name => ?_) hempty hF htaken
  rw [Process.execute_branch (hx.eval hnonzero _), hr]
  by_cases hzero : c.cell = 0
  · simp [hzero]
  · simp [hzero]

/-- The test of a loop. -/
theorem leaves_testCell {b' : Builder} (hx : At F b regs k c x) (hslots : regs.HasSlots)
    (hlabels : (F.toList.map Block.label).Nodup) {yes no r : BlockRef}
    (hr : r = if c.cell = 0 then no else yes) (hempty : b'.Empty r) (hF : Contained b'.blocks F)
    (htaken : ∀ n v, regs n = some v → b'.names.Taken n) :
    Leaves F (testCell yes.label no.label) b x (At F (b'.entered r.index) regs k c) := by
  refine .after hx.valid (hx.cellAddress hslots) ?_
  rintro address b₁ y₁ ⟨regs₁, hle₁, haddress, hy₁⟩
  refine .after hy₁.valid (hy₁.loadByte haddress _) ?_
  rintro value b₂ y₂ ⟨regs₂, hle₂, hvalue, hy₂⟩
  refine .after hy₂.valid
    (hy₂.compute fun _ => Process.execute_compare (hy₂.eval hvalue _) rfl rfl) ?_
  rintro again b₃ y₃ ⟨regs₃, hle₃, hagain, hy₃⟩
  exact leaves_branch hy₃ ((hle₁.trans hle₂).trans hle₃) hlabels hagain hr hempty hF htaken

/-- A loop, given its body at every configuration that a pass can begin with. -/
theorem implements_loop {body : List Node} (inv : Config → Prop)
    (hlabels : (F.toList.map Block.label).Nodup) (hslots : regs.HasSlots)
    (hbody : ∀ b₁ k d y, inv d → d.cell ≠ 0 → At F b₁ regs k d y →
      Implements F (Program.lower none body) b₁ regs R d y)
    (hinv : ∀ d e, inv d → d.cell ≠ 0 → R d (.done e) → inv e) (hx : At F b regs k c x) (hc : inv c) :
    Implements F ((Node.loop body).lower a?) b regs (repeated R) c x := by
  intro u b' hrun hF
  obtain ⟨st⟩ := exists_loopStages hx.valid hrun
  -- every stage is contained in the finished module, and what is known was taken before all of them
  have hclosed : Contained st.closed.blocks F := by
    rw [st.last] at hF
    exact hF
  have hfilled : Contained st.filled.blocks F := st.grows_closed.contained.trans hclosed
  have htested : Contained st.tested.blocks F := st.grows_filled.contained.trans hfilled
  have hjumped : Contained st.jumped.blocks F := st.grows_tested.contained.trans htested
  have htaken : ∀ {b₁ : Builder}, b.names.Within b₁.names →
      ∀ n v, regs n = some v → b₁.names.Taken n :=
    fun hnames n v hn => hnames.taken (hx.taken n v hn)
  have hhead := (st.grows.trans st.grows_jumped).names
  have hbehind := ((st.grows_inside.trans st.grows_filled).trans st.grows_closed).names
  obtain ⟨_, y, hy, hat⟩ := (hx.opened st.grows.names st.current st.unfilled).jump hlabels (fun _ => rfl)
    st.jumped_head hjumped (htaken hhead) _ _ st.jump hjumped
  refine .of_runs hy (Realizes.repeated
    (fun d z => (∃ k, At F (st.jumped.entered st.head.index) regs k d z) ∧ inv d) ?_ ?_ ⟨⟨k, hat⟩, hc⟩)
  · rintro d z ⟨⟨k, hz⟩, _⟩ hzero
    obtain ⟨l, w, hw, hleft⟩ := leaves_testCell hz hslots hlabels (if_pos hzero).symm
      st.closed_behind hclosed (htaken hbehind) _ _ st.test htested
    rw [st.last]
    exact ⟨l + 1, w, hw, k, hleft⟩
  · rintro d z ⟨⟨k, hz⟩, hd⟩ hnonzero
    obtain ⟨l, w, hw, hinside⟩ := leaves_testCell hz hslots hlabels (if_neg hnonzero).symm
      st.tested_inside htested (htaken st.grows_inside.names) _ _ st.test htested
    refine ⟨l, w, hw, (hbody _ k d w hd hnonzero hinside _ _ st.fill hfilled).mono ?_⟩
    rintro e v he ⟨k', hv⟩
    obtain ⟨i, z', hz', hback⟩ := hv.jump hlabels (fun _ => rfl) st.jumped_head hjumped
      (htaken hhead) _ _ st.close hclosed
    exact ⟨i + 1, z', hz', ⟨k', hback⟩, hinv d e hd hnonzero he⟩

/-- A scaled body, given the body with the register that the multiplier was loaded into.  That
register was free before, and it is not known any more behind the body. -/
theorem implements_scaled {body : List Node} {R : UInt8 → Behaviour}
    (hlabels : (F.toList.map Block.label).Nodup) (hslots : regs.HasSlots)
    (hbody : c.cell ≠ 0 → ∀ {b₁ regs₁ multiplier y}, regs.Within regs₁ →
      regs₁.Gives multiplier (.byte c.cell) → At F b₁ regs₁ k c y →
      Implements F (Program.lower (some multiplier) body) b₁ regs₁ (R c.cell) c y)
    (hx : At F b regs k c x) :
    Implements F ((Node.scaled body).lower a?) b regs
      (andThen (unlessZero R) (fun c e => e = .done (c.store 0))) c x := by
  intro u b' hrun hF
  obtain ⟨st⟩ := exists_scaledStages hx.valid hrun
  have hclosed : Contained st.closed.blocks F := st.grows_last.contained.trans hF
  have hfilled : Contained st.filled.blocks F := st.grows_closed.contained.trans hclosed
  have hbranched : Contained st.branched.blocks F := st.grows_filled.contained.trans hfilled
  have hcompared : Contained st.compared.blocks F := st.grows_branched.contained.trans hbranched
  have hloaded : Contained st.loaded.blocks F :=
    (st.grows.trans st.grows_compared).contained.trans hcompared
  have hbehind : ∀ n v, regs n = some v → st.closed.names.Taken n := fun n v hn =>
    ((st.grows_inside.trans st.grows_filled).trans st.grows_closed).names.taken (hx.taken n v hn)
  obtain ⟨k₁, y₁, hy₁, regs₁, hle₁, haddress, hat₁⟩ :=
    hx.cellAddress hslots _ _ st.locate (st.grows_loaded.contained.trans hloaded)
  obtain ⟨k₂, y₂, hy₂, regs₂, hle₂, hmultiplier, hloadedAt⟩ :=
    hat₁.loadByte haddress _ _ _ st.load hloaded
  have hat₂ : At F st.opened regs₂ k c y₂ :=
    hloadedAt.opened st.grows.names st.current st.unfilled
  obtain ⟨k₃, y₃, hy₃, regs₃, hle₃, hnonzero, hat₃⟩ := (hat₂.compute fun _ =>
    Process.execute_compare (hat₂.eval hmultiplier _) rfl rfl) _ _ st.compare hcompared
  have hle : regs.Within regs₃ := (hle₁.trans hle₂).trans hle₃
  have hfirst : Realizes (Point.step F) Exit.Failed (unlessZero R) c y₃
      fun d z => ∃ k, At F (st.closed.entered st.behind.index) regs k d z := by
    by_cases hzero : c.cell = 0
    · obtain ⟨l, w, hw, hat⟩ := leaves_branch hat₃ hle hlabels hnonzero (if_pos hzero).symm
        st.closed_behind hclosed hbehind _ _ st.branch hbranched
      exact .of_done (unlessZero_of_zero hzero) hw ⟨k, hat⟩
    · obtain ⟨l, w, hw, hat⟩ := leaves_branch hat₃ (.refl regs₃) hlabels hnonzero
        (if_neg hzero).symm st.branched_inside hbranched
        (fun n v hn => st.grows_branched.names.taken (hat₃.taken n v hn)) _ _ st.branch hbranched
      have hinside := hbody hzero hle (hmultiplier.mono hle₃) hat _ _ st.fill hfilled
      refine .of_runs hw ((hinside.followed ?_).congr (unlessZero_of_ne_zero hzero))
      rintro d z ⟨k', hz⟩
      obtain ⟨i, z', hz', hleft⟩ := (hz.mono hle).jump hlabels (fun _ => rfl) st.closed_behind
        hclosed hbehind _ _ st.close hclosed
      exact ⟨i + 1, z', hz', k', hleft⟩
  refine .of_runs ((hy₁.trans hy₂).trans hy₃) (hfirst.andThen ?_)
  rintro d y _ ⟨k', hy⟩
  obtain ⟨_, z, hz, hat⟩ := hy.clearCell hslots _ _ st.last hF
  exact .of_done (fun e => Iff.rfl) hz ⟨k', hat⟩

end Nodes

end Brainfuck.IR
