import Brainfuck.Proofs.TextLength

/-!
# Faults that an idiom hides

A loop like `[-<>]` faults at the left end of the tape, and the idiom that replaces it does not: the
cell to the left is passed and left as it was, so the idiom has no reason to go there.  Optimizing
therefore does not keep all faults.  It keeps those of a program none of whose loops is of this kind.

The test looks at the final bodies of loops.  For a single loop it is exact: a loop that hides a
fault loses it on every tape that has a nonzero cell at one certain index, as close to the left end
as the cells allow that the idiom changes.

* `Program.hidesFault`: the test on trees.
* `Program.keepsFaults_optimize`: trees that pass it.
* `exists_hidden_fault`: loops that do not.
* `Program.optimize_keeps_exposed_faults`: executions of a text that fault.
-/

namespace Brainfuck

open Behaviour

/-! ## Trees that hide no fault -/

mutual

/-- Whether a loop of a node hides a fault. -/
def Node.hidesFault : Node → Bool
  | .loop body =>
    Program.hidesFault body ||
      match Program.optimize body with
      | .ok body => loopHidesFault body
      | .error _ => false
  | .scaled body => Program.hidesFault body
  | _ => false

/-- Whether a loop of a program hides a fault. -/
def Program.hidesFault : List Node → Bool
  | [] => false
  | n :: p => n.hidesFault || Program.hidesFault p

end

mutual

theorem Node.keepsFaults_optimize (scale : UInt8) : (n : Node) → ∀ {n'}, n.optimize = .ok n' →
    n.every Node.movesOn = true → n.hidesFault = false → KeepsFaults (n.Means scale) (n'.Means scale)
  | .loop body, _, h, hok, hkeeps => by
    obtain ⟨body', hbody, rfl⟩ := Node.optimize_loop h
    rw [Node.every, Bool.and_eq_true] at hok
    rw [Node.hidesFault, hbody, Bool.or_eq_false_iff] at hkeeps
    have hrepeated := KeepsFaults.repeated (Program.refines_optimize 1 body hbody hok.2)
      (Program.keepsFaults_optimize 1 body hbody hok.2 hkeeps.1)
    exact hrepeated.trans
      (keepsFaults_closeLoop (Program.every_movesOn_optimize body hbody hok.2) hkeeps.2 scale)
  | .scaled body, _, h, hok, hkeeps => by
    obtain ⟨body', hbody, rfl⟩ := Node.optimize_scaled h
    rw [Node.every, Bool.and_eq_true] at hok
    rw [Node.hidesFault] at hkeeps
    exact KeepsFaults.andThen
      (.unlessZero fun value => Program.refines_optimize value body hbody hok.2)
      (.unlessZero fun value => Program.keepsFaults_optimize value body hbody hok.2 hkeeps) (.refl _)
  | .foreign _, _, _, hok, _ | .derived _ _, _, _, hok, _ => nomatch hok
  | .moveRight _, _, rfl, _, _ | .moveLeft _, _, rfl, _, _ | .increment _, _, rfl, _, _
  | .decrement _, _, rfl, _, _ | .output, _, rfl, _, _ | .input, _, rfl, _, _
  | .scanRight _, _, rfl, _, _ | .scanLeft _, _, rfl, _, _ | .clear, _, rfl, _, _
  | .carryRight _, _, rfl, _, _ | .carryLeft _, _, rfl, _, _ => .refl _

/-- The final form of a program that hides no fault faults wherever the program does. -/
theorem Program.keepsFaults_optimize (scale : UInt8) : (p : List Node) → ∀ {q},
    Program.optimize p = .ok q → Program.every Node.movesOn p = true →
    Program.hidesFault p = false → KeepsFaults (Program.Means scale p) (Program.Means scale q)
  | [], _, rfl, _, _ => .refl _
  | n :: p, _, h, hok, hkeeps => by
    obtain ⟨n', p', hn, hp, rfl⟩ := Program.optimize_cons h
    rw [Program.every, Bool.and_eq_true] at hok
    rw [Program.hidesFault, Bool.or_eq_false_iff] at hkeeps
    exact KeepsFaults.andThen (Node.refines_optimize scale n hn hok.1)
      (Node.keepsFaults_optimize scale n hn hok.1 hkeeps.1)
      (Program.keepsFaults_optimize scale p hp hok.2 hkeeps.2)

end


/-! ## Loops that hide a fault -/

variable {m : DeltaMap} {body : List Node}

/-- What it takes for a loop to hide a fault. -/
theorem loopHidesFault_eq_true (h : loopHidesFault body = true) :
    ∃ m, deltas? body = some m ∧ m.get 0 = 255 ∧ leftmost 0 body < 0 ∧
      m.get (leftmost 0 body) = 0 := by
  rw [loopHidesFault] at h
  split at h
  case h_1 m hm =>
    rw [Bool.and_eq_true, Bool.and_eq_true, beq_iff_eq, beq_iff_eq, decide_eq_true_iff] at h
    exact ⟨m, hm, h.1.1, h.1.2, h.2⟩
  case h_2 => cases h

/-- A single move does not return, so a loop around it hides nothing. -/
theorem leftmost_singleton {n : Node} (h : deltas? [n] = some m) : leftmost 0 [n] = 0 := by
  have hwalk := walk_of_deltas h
  cases n with
  | moveRight k | moveLeft k =>
    rw [walk?, walk?] at hwalk
    have := (Prod.mk.inj (Option.some.inj hwalk)).1
    rw [leftmost, leftmost]
    omega
  | _ => rfl

/-- The final form of a loop that hides a fault. -/
theorem closeLoop_of_hidesFault (hok : Program.every Node.movesOn body = true)
    (hbody : deltas? body = some m) (horigin : m.get 0 = 255) (hleft : leftmost 0 body < 0) :
    closeLoop body = multiplyIdiom m.others := by
  have hlinear : linearIdiom? body = some (multiplyIdiom m.others) := by
    rw [linearIdiom?, hbody]
    exact if_pos horigin
  rw [closeLoop_eq (Program.every_mono Node.isInstruction_of_movesOn body hok), loopIdiom?.eq_def]
  split
  case h_1 n => exact absurd (leftmost_singleton hbody) (Int.ne_of_lt hleft)
  case h_2 => rw [hlinear, Option.getD_some]

/-- A loop that hides a fault does so where its body just leaves the tape: the loop faults there on
every nonzero cell, and its idiom does not. -/
theorem exists_hidden_fault (hhides : loopHidesFault body = true)
    (hok : Program.every Node.movesOn body = true) :
    ∃ index : Nat, ∀ c : Config, c.index = index → c.cell ≠ 0 →
      (∃ d, repeated (Program.Means 1 body) c (.fault d)) ∧
        ∀ scale, ∃ d, (closeLoop body).Means scale c (.done d) := by
  obtain ⟨m, hbody, horigin, hleft, hsame⟩ := loopHidesFault_eq_true hhides
  refine ⟨(-leftmost 0 body - 1).toNat, fun c hindex hnonzero => ⟨?_, fun scale => ?_⟩⟩
  · obtain ⟨d, hd, _⟩ := repeated_linear_fault hbody hok hnonzero (by omega)
    exact ⟨d, hd⟩
  · rw [closeLoop_of_hidesFault hok hbody horigin hleft]
    refine ⟨_, means_multiplyIdiom fun _ e he => ?_⟩
    -- the leftmost offset is not changed, so what is changed lies to the right of it
    have hpassed := leftmost_le_of_mem_others hbody he
    obtain ⟨hmem, _, hchanged⟩ := DeltaMap.mem_others.mp he
    have hne : e.1 ≠ leftmost 0 body := by
      intro heq
      rw [← DeltaMap.get_of_mem hmem, heq] at hchanged
      exact hchanged hsame
    omega

/-! ## Executions that fault -/

variable {p q : List Node} {code code' : FlatCode}

/-- The final form of a program that hides no fault keeps the faults of executions. -/
theorem Program.yields_fault_optimize (hopt : Program.optimize p = .ok q)
    (hok : Program.every Node.movesOn p = true) (hkeeps : Program.hidesFault p = false)
    (hp : Program.flatten p = .ok code) (hq : Program.flatten q = .ok code') {tape : Tape}
    {index : Nat} {input : List UInt8} (hwords : code.KeepsToWords tape index input)
    (hwords' : code'.KeepsToWords tape index input) {r : Result}
    (hr : code.Yields tape index input r) (hstatus : r.status = faultStatus) :
    ∃ r', code'.Yields tape index input r' ∧ r'.status = faultStatus ∧ r'.output = r.output := by
  obtain ⟨c, hconfig, hmeans⟩ := Program.means_of_yields_fault hp
    (Program.every_mono Node.hasSoundDistance_of_movesOn p hok) hwords hr hstatus
  obtain ⟨d, hd, hwritten⟩ := Program.keepsFaults_optimize 1 p hopt hok hkeeps hmeans
  obtain ⟨r', hr', hending⟩ :=
    Program.exists_yields_of_means hq (Program.every_hasSoundDistance_optimize hopt hok) hwords' hd
  obtain ⟨hstatus', hconfig'⟩ := Result.ending?_eq_fault_iff.mp hending
  refine ⟨r', hr', hstatus', ?_⟩
  rw [(Result.of_config? hconfig').2.2, (Result.of_config? hconfig).2.2, hwritten]

/-- A loop that hides a fault loses it. -/
theorem Program.exists_lost_fault {body' : List Node}
    (hok : Program.every Node.movesOn [.loop body] = true)
    (hbody : Program.optimize body = .ok body') (hhides : loopHidesFault body' = true)
    (hp : Program.flatten [.loop body] = .ok code)
    (hq : Program.flatten [closeLoop body'] = .ok code') :
    ∃ index : Nat, ∀ (tape : Tape) (input : List UInt8), tape.get index ≠ 0 →
      code.KeepsToWords tape index input → code'.KeepsToWords tape index input →
      (∃ r, code.Yields tape index input r ∧ r.status = faultStatus) ∧
        ∃ r', code'.Yields tape index input r' ∧ r'.status = 0 := by
  have hopt : Program.optimize [.loop body] = .ok [closeLoop body'] := by
    rw [Program.optimize, Node.optimize, hbody]
    rfl
  have hinner : Program.every Node.movesOn body = true := by
    rw [Program.every, Bool.and_eq_true, Node.every, Bool.and_eq_true] at hok
    exact hok.1.2
  obtain ⟨index, hhidden⟩ :=
    exists_hidden_fault hhides (Program.every_movesOn_optimize body hbody hinner)
  refine ⟨index, fun tape input hnonzero hwords hwords' => ?_⟩
  obtain ⟨⟨d, hd⟩, hdone⟩ := hhidden (.start tape index input) rfl hnonzero
  have hfault := ((Program.refines_optimize 1 body hbody hinner).repeated
    (Program.means_deterministic 1 body')).fault_of_fault
      (Program.means_deterministic 1 body').repeated hd
  constructor
  · obtain ⟨d', hd'⟩ := hfault
    have hmeans : Program.Means 1 [.loop body] (.start tape index input) (.fault d') := .fault hd'
    obtain ⟨r, hr, hending⟩ := Program.exists_yields_of_means hp
      (Program.every_mono Node.hasSoundDistance_of_movesOn _ hok) hwords hmeans
    exact ⟨r, hr, (Result.ending?_eq_fault_iff.mp hending).1⟩
  · obtain ⟨d', hd'⟩ := hdone 1
    have hmeans : Program.Means 1 [closeLoop body'] (.start tape index input) (.done d') :=
      .pass hd' rfl
    obtain ⟨r', hr', hending⟩ := Program.exists_yields_of_means hq
      (Program.every_hasSoundDistance_optimize hopt hok) hwords' hmeans
    exact ⟨r', hr', (Result.ending?_eq_done_iff.mp hending).1⟩

/-- **Which faults optimizing keeps.**  The program of a text of at most `2 ^ 62` characters has an
optimized form.  If no loop of the program hides a fault, the optimized program faults wherever the
program does, with the same output.  The condition cannot be dropped: a text that is a single loop, and
hides a fault, loses it on every tape with a nonzero cell at some index, whatever the input. -/
theorem Program.optimize_keeps_exposed_faults {source : String} {p : Program}
    (hparse : Program.parse source = .ok p) (hlength : source.length ≤ 2 ^ 62) :
    ∃ q, Program.optimize p = .ok q ∧
      ∀ code code', p.flatten = .ok code → Program.flatten q = .ok code' →
        (Program.hidesFault p = false →
          ∀ (tape : Tape) (index : Nat) (input : List UInt8) (r : Result),
            code.Yields tape index input r → r.status = faultStatus →
            ∃ r', code'.Yields tape index input r' ∧ r'.status = faultStatus ∧
              r'.output = r.output) ∧
        (∀ body body', p = [.loop body] → Program.optimize body = .ok body' →
          loopHidesFault body' = true →
          ∃ index : Nat, ∀ (tape : Tape) (input : List UInt8), tape.get index ≠ 0 →
            (∃ r, code.Yields tape index input r ∧ r.status = faultStatus) ∧
              ∃ r', code'.Yields tape index input r' ∧ r'.status = 0) := by
  have hok := Program.every_movesOn_of_parse hparse
  obtain ⟨q, hopt⟩ := Program.exists_optimize p hok
  refine ⟨q, hopt, fun code code' hp hq => ⟨?_, ?_⟩⟩
  · intro hkeeps tape index input r hr hstatus
    obtain ⟨hwords, hwords'⟩ :=
      Program.keepsToWords_of_parse hparse hlength hopt hp hq tape index input
    exact Program.yields_fault_optimize hopt hok hkeeps hp hq hwords hwords' hr hstatus
  · rintro body body' rfl hbody hhides
    have hlast : Program.optimize [.loop body] = .ok [closeLoop body'] := by
      rw [Program.optimize, Node.optimize, hbody]
      rfl
    obtain rfl : q = [closeLoop body'] := Except.ok.inj (hopt.symm.trans hlast)
    obtain ⟨index, hlost⟩ := Program.exists_lost_fault hok hbody hhides hp hq
    refine ⟨index, fun tape input hnonzero => ?_⟩
    obtain ⟨hwords, hwords'⟩ :=
      Program.keepsToWords_of_parse hparse hlength hopt hp hq tape index input
    exact hlost tape input hnonzero hwords hwords'

/-- The loop `[-<>]` on a tape that begins with a one: the loop faults, and what it is optimized to
does not. -/
theorem Program.optimize_loses_fault_of_excursion :
    ∃ p code code', Program.parse "[-<>]" = .ok p ∧ p.flatten = .ok code ∧
      Program.flatten [.clear] = .ok code' ∧ Program.optimize p = .ok [.clear] ∧
      ∃ index : Nat, ∀ (tape : Tape) (input : List UInt8), tape.get index ≠ 0 →
        (∃ r, code.Yields tape index input r ∧ r.status = faultStatus) ∧
          ∃ r', code'.Yields tape index input r' ∧ r'.status = 0 := by
  have hparse : Program.parse "[-<>]" = .ok [.loop [.decrement 1, .moveLeft 1, .moveRight 1]] := rfl
  obtain ⟨q, hopt, hfaults⟩ := Program.optimize_keeps_exposed_faults hparse (by decide)
  obtain rfl : [.clear] = q := Except.ok.inj hopt
  exact ⟨_, _, _, hparse, rfl, rfl, rfl, (hfaults _ _ rfl rfl).2 _ _ rfl rfl rfl⟩

end Brainfuck
