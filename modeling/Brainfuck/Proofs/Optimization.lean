import Brainfuck.Proofs.Flattening
import Brainfuck.Proofs.Idioms

/-!
# Optimized programs

A program with every loop in final form refines the program that it was made from: one step for each
kind of node, then induction over the tree.  Through flat code this becomes a statement about
executions, in which only what can be observed is left.

* `Node.optimize_loop`, `Node.optimize_scaled`, `Program.optimize_cons`: final forms, by parts.
* `Program.every_movesOn_optimize`: the final form moves on, if the program does.
* `Program.refines_optimize`: trees.
* `Program.optimize_keeps_runs`: executions that do not fault, and those that never stop.
-/

namespace Brainfuck

open Behaviour

/-! ## Final forms -/

variable {n n' : Node} {p q body : List Node}

/-- The final form of a loop. -/
theorem Node.optimize_loop (h : (Node.loop body).optimize = .ok n') :
    ∃ body', Program.optimize body = .ok body' ∧ n' = closeLoop body' := by
  rw [Node.optimize] at h
  cases hbody : Program.optimize body with
  | error v => rw [hbody] at h; cases h
  | ok body' =>
    rw [hbody] at h
    exact ⟨body', rfl, (Except.ok.inj h).symm⟩

/-- The final form of a scaled body. -/
theorem Node.optimize_scaled (h : (Node.scaled body).optimize = .ok n') :
    ∃ body', Program.optimize body = .ok body' ∧ n' = .scaled body' := by
  rw [Node.optimize] at h
  cases hbody : Program.optimize body with
  | error v => rw [hbody] at h; cases h
  | ok body' =>
    rw [hbody] at h
    exact ⟨body', rfl, (Except.ok.inj h).symm⟩

/-- The final form of a sequence. -/
theorem Program.optimize_cons (h : Program.optimize (n :: p) = .ok q) :
    ∃ n' p', n.optimize = .ok n' ∧ Program.optimize p = .ok p' ∧ q = n' :: p' := by
  rw [Program.optimize] at h
  cases hn : n.optimize with
  | error v => rw [hn] at h; cases h
  | ok n' =>
    rw [hn] at h
    cases hp : Program.optimize p with
    | error v => simp only [bind, Except.bind, hp] at h; cases h
    | ok p' =>
      simp only [bind, Except.bind, hp] at h
      exact ⟨n', p', rfl, rfl, (Except.ok.inj h).symm⟩

mutual

theorem Node.exists_final :
    (n : Node) → n.every Node.isInstruction = true → ∃ n', n.optimize = .ok n'
  | .loop body, h => by
    rw [Node.every, Bool.and_eq_true] at h
    obtain ⟨body', hbody⟩ := Program.exists_final body h.2
    exact ⟨closeLoop body', by rw [Node.optimize, hbody]; rfl⟩
  | .scaled body, h => by
    rw [Node.every, Bool.and_eq_true] at h
    obtain ⟨body', hbody⟩ := Program.exists_final body h.2
    exact ⟨.scaled body', by rw [Node.optimize, hbody]; rfl⟩
  | .foreign _, h | .derived _ _, h => absurd h Bool.false_ne_true
  | .moveRight _, _ | .moveLeft _, _ | .increment _, _ | .decrement _, _ | .output, _ | .input, _
  | .scanRight _, _ | .scanLeft _, _ | .clear, _ | .carryRight _, _ | .carryLeft _, _ => ⟨_, rfl⟩

/-- A program of instructions has a final form. -/
theorem Program.exists_final :
    (p : List Node) → Program.every Node.isInstruction p = true → ∃ q, Program.optimize p = .ok q
  | [], _ => ⟨[], rfl⟩
  | n :: p, h => by
    rw [Program.every, Bool.and_eq_true] at h
    obtain ⟨n', hn⟩ := Node.exists_final n h.1
    obtain ⟨p', hp⟩ := Program.exists_final p h.2
    exact ⟨n' :: p', by rw [Program.optimize, hn, hp]; rfl⟩

end

theorem Program.exists_optimize (p : List Node) (h : Program.every Node.movesOn p = true) :
    ∃ q, Program.optimize p = .ok q :=
  Program.exists_final p (Program.every_mono Node.isInstruction_of_movesOn p h)

/-! ## Moves of final forms -/

/-- No idiom moves by zero, if its loop does not. -/
theorem every_movesOn_closeLoop (hok : Program.every Node.movesOn body = true) :
    (closeLoop body).every Node.movesOn = true := by
  have hloop : (Node.loop body).every Node.movesOn = true := by
    rw [Node.every, hok]
    rfl
  rw [closeLoop_eq (Program.every_mono Node.isInstruction_of_movesOn body hok)]
  cases hidiom : loopIdiom? body with
  | none => exact hloop
  | some n =>
    rw [Option.getD_some]
    rw [loopIdiom?.eq_def] at hidiom
    split at hidiom
    case h_1 n₀ =>
      rw [Program.every, Bool.and_eq_true] at hok
      rw [singleIdiom?.eq_def] at hidiom
      split at hidiom
      case h_1 | h_2 =>
        obtain rfl := Option.some.inj hidiom
        exact hok.1
      case h_3 | h_4 =>
        split at hidiom
        · obtain rfl := Option.some.inj hidiom
          rfl
        · cases hidiom
      case h_5 => cases hidiom
    case h_2 =>
      obtain ⟨m, _, _, rfl⟩ := linearIdiom?_eq_some hidiom
      rw [multiplyIdiom]
      split
      · rfl
      · -- a carry goes the distance of the one offset, to its side
        split
        case isTrue hright => exact decide_eq_true (Int.le_of_lt hright)
        case isFalse hleft => exact decide_eq_true (by omega)
      · rw [Node.every, DeltaMap.emit, DeltaMap.every_movesOn_emitFrom]
        rfl

mutual

theorem Node.every_movesOn_optimize : (n : Node) → ∀ {n'}, n.optimize = .ok n' →
    n.every Node.movesOn = true → n'.every Node.movesOn = true
  | .loop body, _, h, hok => by
    obtain ⟨body', hbody, rfl⟩ := Node.optimize_loop h
    rw [Node.every, Bool.and_eq_true] at hok
    exact every_movesOn_closeLoop (Program.every_movesOn_optimize body hbody hok.2)
  | .scaled body, _, h, hok => by
    obtain ⟨body', hbody, rfl⟩ := Node.optimize_scaled h
    rw [Node.every, Bool.and_eq_true] at hok
    rw [Node.every, Program.every_movesOn_optimize body hbody hok.2]
    rfl
  | .foreign _, _, h, _ => nomatch h
  | .derived _ _, _, _, hok => nomatch hok
  | .moveRight _, _, rfl, hok | .moveLeft _, _, rfl, hok | .increment _, _, rfl, hok
  | .decrement _, _, rfl, hok | .output, _, rfl, hok | .input, _, rfl, hok
  | .scanRight _, _, rfl, hok | .scanLeft _, _, rfl, hok | .clear, _, rfl, hok
  | .carryRight _, _, rfl, hok | .carryLeft _, _, rfl, hok => hok

/-- The final form of a program has no move or scan by zero, if the program has none. -/
theorem Program.every_movesOn_optimize : (p : List Node) → ∀ {q}, Program.optimize p = .ok q →
    Program.every Node.movesOn p = true → Program.every Node.movesOn q = true
  | [], _, rfl, _ => rfl
  | n :: p, _, h, hok => by
    obtain ⟨n', p', hn, hp, rfl⟩ := Program.optimize_cons h
    rw [Program.every, Bool.and_eq_true] at hok ⊢
    exact ⟨Node.every_movesOn_optimize n hn hok.1, Program.every_movesOn_optimize p hp hok.2⟩

end

/-! ## Trees -/

mutual

theorem Node.refines_optimize (scale : UInt8) : (n : Node) → ∀ {n'}, n.optimize = .ok n' →
    n.every Node.movesOn = true → Refines (n.Means scale) (n'.Means scale)
  | .loop body, _, h, hok => by
    obtain ⟨body', hbody, rfl⟩ := Node.optimize_loop h
    rw [Node.every, Bool.and_eq_true] at hok
    have hrepeated := (Program.refines_optimize 1 body hbody hok.2).repeated
      (Program.means_deterministic 1 body')
    exact hrepeated.trans (refines_closeLoop (Program.every_movesOn_optimize body hbody hok.2) scale)
  | .scaled body, _, h, hok => by
    obtain ⟨body', hbody, rfl⟩ := Node.optimize_scaled h
    rw [Node.every, Bool.and_eq_true] at hok
    exact (Refines.unlessZero fun value => Program.refines_optimize value body hbody hok.2).andThen
      (.unlessZero fun value => Program.means_deterministic value body') (.refl _)
  | .foreign _, _, h, _ => nomatch h
  | .derived _ _, _, _, hok => nomatch hok
  | .moveRight _, _, rfl, _ | .moveLeft _, _, rfl, _ | .increment _, _, rfl, _
  | .decrement _, _, rfl, _ | .output, _, rfl, _ | .input, _, rfl, _ | .scanRight _, _, rfl, _
  | .scanLeft _, _, rfl, _ | .clear, _, rfl, _ | .carryRight _, _, rfl, _
  | .carryLeft _, _, rfl, _ => .refl _

/-- The final form of a program refines it. -/
theorem Program.refines_optimize (scale : UInt8) : (p : List Node) → ∀ {q},
    Program.optimize p = .ok q → Program.every Node.movesOn p = true →
    Refines (Program.Means scale p) (Program.Means scale q)
  | [], _, rfl, _ => .refl _
  | n :: p, _, h, hok => by
    obtain ⟨n', p', hn, hp, rfl⟩ := Program.optimize_cons h
    rw [Program.every, Bool.and_eq_true] at hok
    exact (Node.refines_optimize scale n hn hok.1).andThen (Node.means_deterministic scale n')
      (Program.refines_optimize scale p hp hok.2)

end

/-! ## Executions that do not fault -/

variable {code code' : FlatCode} {tape : Tape} {index : Nat} {input : List UInt8} {r : Result}

theorem Program.every_hasSoundDistance_optimize (hopt : Program.optimize p = .ok q)
    (hok : Program.every Node.movesOn p = true) : Program.every Node.hasSoundDistance q = true :=
  Program.every_mono Node.hasSoundDistance_of_movesOn q (Program.every_movesOn_optimize p hopt hok)

/-- Results that show one configuration are the same, as far as can be seen. -/
theorem Result.same_of_config? {r r' : Result} {c : Config} (h : r.config? = some c)
    (h' : r'.config? = some c) :
    r'.output = r.output ∧ r'.index = r.index ∧ ∀ i, r'.tape.get i = r.tape.get i := by
  obtain ⟨hcells, hindex, houtput⟩ := Result.of_config? h
  obtain ⟨hcells', hindex', houtput'⟩ := Result.of_config? h'
  exact ⟨houtput'.trans houtput.symm, hindex'.trans hindex.symm, congrFun (hcells'.trans hcells.symm)⟩

/-- **Optimizing keeps every execution that does not fault.**  A program whose moves and scans go on
has an optimized form.  Let both executions keep to words.  If the program stops without a fault, so
does the optimized one, with the same output, the same index and the same zero-padded tape; if it never
stops, the optimized one never stops; and the optimized one faults only where the program does. -/
theorem Program.optimize_keeps_runs (hok : Program.every Node.movesOn p = true)
    (hp : Program.flatten p = .ok code) :
    ∃ q, Program.optimize p = .ok q ∧ ∀ code', Program.flatten q = .ok code' →
      ∀ (tape : Tape) (index : Nat) (input : List UInt8),
        code.KeepsToWords tape index input → code'.KeepsToWords tape index input →
        (∀ r, code.Yields tape index input r → r.status = 0 →
          ∃ r', code'.Yields tape index input r' ∧ r'.status = 0 ∧ r'.output = r.output ∧
            r'.index = r.index ∧ ∀ i, r'.tape.get i = r.tape.get i) ∧
        (code.NeverStops tape index input → code'.NeverStops tape index input) ∧
        (∀ r', code'.Yields tape index input r' → r'.status = faultStatus →
          ∃ r, code.Yields tape index input r ∧ r.status = faultStatus) := by
  obtain ⟨q, hopt⟩ := Program.exists_optimize p hok
  refine ⟨q, hopt, fun code' hq tape index input hwords hwords' => ?_⟩
  have hscans := Program.every_mono Node.hasSoundDistance_of_movesOn p hok
  have hscans' := Program.every_hasSoundDistance_optimize hopt hok
  have hrefines := Program.refines_optimize 1 p hopt hok
  refine ⟨fun r hr hstatus => ?_, fun hnever => ?_, fun r' hr' hstatus => ?_⟩
  · obtain ⟨c, hconfig, hmeans⟩ := Program.means_of_yields_done hp hscans hwords hr hstatus
    obtain ⟨r', hr', hending⟩ :=
      Program.exists_yields_of_means hq hscans' hwords' (hrefines.done hmeans)
    obtain ⟨hstatus', hconfig'⟩ := Result.ending?_eq_done_iff.mp hending
    exact ⟨r', hr', hstatus', Result.same_of_config? hconfig hconfig'⟩
  · rw [Program.neverStops_iff hp hscans hwords] at hnever
    rw [Program.neverStops_iff hq hscans' hwords']
    intro e he
    obtain ⟨e', he'⟩ := hrefines.stops he
    exact hnever e' he'
  · obtain ⟨c, -, hmeans⟩ := Program.means_of_yields_fault hq hscans' hwords' hr' hstatus
    obtain ⟨d, hd⟩ := hrefines.fault_of_fault (Program.means_deterministic 1 q) hmeans
    obtain ⟨r, hr, hending⟩ := Program.exists_yields_of_means hp hscans hwords hd
    exact ⟨r, hr, (Result.ending?_eq_fault_iff.mp hending).1⟩

/-- A loop that doubles a cell and a loop that scans, inside another loop. -/
theorem Program.optimize_keeps_runs_doubling :
    ∃ code code', Program.flatten [.input, .loop [.loop [.decrement 1, .moveRight 1, .increment 2,
        .moveLeft 1], .loop [.moveLeft 1]], .output] = .ok code ∧
      Program.flatten [.input, .loop [.scaled [.moveRight 1, .increment 2, .moveLeft 1],
        .scanLeft 1], .output] = .ok code' ∧
      ∀ tape (index : Nat) input r, code.Yields tape index input r → r.status = 0 →
        ∃ r', code'.Yields tape index input r' ∧ r'.status = 0 ∧ r'.output = r.output ∧
          r'.index = r.index ∧ ∀ i, r'.tape.get i = r.tape.get i := by
  obtain ⟨q, hopt, hkeeps⟩ := Program.optimize_keeps_runs (p := [.input, .loop [.loop [.decrement 1,
    .moveRight 1, .increment 2, .moveLeft 1], .loop [.moveLeft 1]], .output]) rfl rfl
  obtain rfl : [.input, .loop [.scaled [.moveRight 1, .increment 2, .moveLeft 1], .scanLeft 1],
    .output] = q := Except.ok.inj hopt
  refine ⟨_, _, rfl, rfl, fun tape index input => (hkeeps _ rfl tape index input ?_ ?_).1⟩ <;>
    exact FlatCode.keepsToWords_of_argument_le (by decide) (by decide) tape index input

/-- Two moves to the right whose sum is no word, and a loop that is skipped.  The program leaves its
tape as long as it was.  The carry that is made of the loop makes the tape grow although it carries
nothing, and an index that counts from the end of the tape is that of another cell then. -/
theorem Program.optimize_changes_run_beyond_words :
    ∃ p q code code' r r', p = [.moveRight 1, .moveRight (2 ^ 63 - 1), .moveRight (2 ^ 63 - 1),
        .loop [.decrement 1, .moveRight 3, .increment 1, .moveLeft 3], .increment 1] ∧
      Program.every Node.movesOn p = true ∧ Program.optimize p = .ok q ∧
      Program.flatten p = .ok code ∧ Program.flatten q = .ok code' ∧
      code.Yields (.blank 2) 0 [] r ∧ r.status = 0 ∧ r.tape.get 1 = 1 ∧
      code'.Yields (.blank 2) 0 [] r' ∧ r'.tape.get 1 = 0 :=
  ⟨_, _, _, _, ⟨#[], [], ⟨#[0, 1]⟩, -1, 5, none⟩, ⟨#[], [], ⟨#[0, 0, 0, 1]⟩, -1, 6, none⟩,
    rfl, rfl, rfl, rfl, rfl, ⟨1, by decide +kernel⟩, rfl, rfl, ⟨2, by decide +kernel⟩, rfl⟩

end Brainfuck
