import Brainfuck.Program.Parse
import Brainfuck.Proofs.Meaning
import Mathlib.Data.List.SplitBy
import Mathlib.Data.Set.Function

/-!
# Texts and trees

Reading a text forgets the comments and folds each run of equal moves or changes into one node.
Nothing else is lost.  The trees that come out are those whose runs are folded, at every depth, and
each of them can be written down again: a move by `n` is `n` commands, and so is a change, with 256
commands for the amount zero, which is what a full round of the byte leaves.  Writing down and reading
are inverse to each other, up to shortening the runs of changes to at most one round.

The maximal runs of a text are said by splitting the list of its commands wherever two neighbours
differ.  The reader is followed run by run and not command by command: between two runs everything
that has been read is as it would be written, while in the middle of a run of changes it is not.

* `Program.commands`, `Program.text`: a tree written down.
* `Program.Canonical`: the trees whose runs are folded.
* `shortened`: commands with each run of changes cut to one round.
* `Reading.Canonical.runs`: reading runs.
* `Program.read_commands`: reading a tree that was written down.
* `Program.parse_inverts_text`: reading and writing down are inverse to each other.
-/

namespace Brainfuck

/-! ## Writing a tree down -/

/-- How many commands a change by an amount is written as. -/
def changeLength (amount : Int) : Nat := if amount = 0 then 256 else amount.toNat

mutual

/-- The commands of a node; none for a node that no text can say. -/
def Node.commands : Node → List Command
  | .moveRight n => List.replicate n.toNat .right
  | .moveLeft n => List.replicate n.toNat .left
  | .increment n => List.replicate (changeLength n) .plus
  | .decrement n => List.replicate (changeLength n) .minus
  | .output => [.output]
  | .input => [.input]
  | .loop body => .loopStart :: (Program.commands body ++ [.loopEnd])
  | _ => []

/-- The commands of a program. -/
def Program.commands : List Node → List Command
  | [] => []
  | n :: p => n.commands ++ Program.commands p

end

/-- A program as a text. -/
def Program.text (p : Program) : String := String.ofList ((Program.commands p).map Command.char)

theorem Program.commands_append (p q : List Node) :
    commands (p ++ q) = commands p ++ commands q := by
  induction p with
  | nil => rfl
  | cons n p ih => rw [List.cons_append, commands, commands, ih, List.append_assoc]

/-- One more node, of nodes kept latest first. -/
theorem Program.commands_reverse_cons (n : Node) (done : List Node) :
    commands (n :: done).reverse = commands done.reverse ++ n.commands := by
  rw [List.reverse_cons, commands_append, commands, commands, List.append_nil]

/-! ## Canonical trees -/

namespace Node

/-- The command that a node stands for a run of. -/
def runOf? : Node → Option Command
  | .moveRight _ => some .right
  | .moveLeft _ => some .left
  | .increment _ => some .plus
  | .decrement _ => some .minus
  | _ => none

/-- Whether two nodes are not runs of the same command. -/
def apart (a b : Node) : Bool := a.runOf?.isNone || a.runOf? != b.runOf?

theorem apart_iff {a b : Node} : a.apart b = true ↔ ∀ k, a.runOf? = some k → b.runOf? ≠ some k := by
  rw [apart]
  cases a.runOf? with
  | none => simp
  | some k =>
    simp only [Option.isNone_some, Bool.false_or, bne_iff_ne, Option.some.injEq, forall_eq']
    exact ne_comm

theorem apart_comm (a b : Node) : a.apart b = b.apart a := by
  rw [Bool.eq_iff_iff, apart_iff, apart_iff]
  exact ⟨fun h k hb ha => h k ha hb, fun h k ha hb => h k hb ha⟩

end Node

/-- No two neighbours are runs of the same command. -/
def Separate (p : List Node) : Prop := p.IsChain fun a b => a.apart b = true

instance (p : List Node) : Decidable (Separate p) := inferInstanceAs (Decidable (List.IsChain _ p))

/-- Whether a node is one that a text can say, with an amount in its range and, for a loop, with the
runs of its body folded. -/
def Node.isPlain : Node → Bool
  | .moveRight n | .moveLeft n => 1 ≤ n
  | .increment n | .decrement n => 0 ≤ n && n ≤ 255
  | .output | .input => true
  | .loop body => decide (Separate body)
  | _ => false

/-- The runs are folded, at every depth. -/
structure Program.Canonical (p : List Node) : Prop where
  plain : Program.every Node.isPlain p = true
  separate : Separate p

namespace Program.Canonical

variable {p body : List Node} {n : Node}

theorem nil : Canonical [] := ⟨rfl, List.isChain_nil⟩

theorem cons_iff : Canonical (n :: p) ↔
    n.every Node.isPlain = true ∧ (∀ a ∈ p.head?, n.apart a = true) ∧ Canonical p := by
  constructor
  · rintro ⟨hplain, hseparate⟩
    rw [Program.every, Bool.and_eq_true] at hplain
    obtain ⟨hhead, htail⟩ := List.isChain_cons.mp hseparate
    exact ⟨hplain.1, hhead, hplain.2, htail⟩
  · rintro ⟨hn, hhead, hplain, hseparate⟩
    refine ⟨?_, List.isChain_cons.mpr ⟨hhead, hseparate⟩⟩
    rw [Program.every, hn, hplain]
    rfl

theorem reverse (h : Canonical p) : Canonical p.reverse where
  plain := Program.every_iff.mpr fun n hn =>
    Program.every_iff.mp h.plain n (List.mem_reverse.mp hn)
  separate := by
    rw [Separate, List.isChain_reverse]
    refine h.separate.imp fun a b hab => ?_
    rwa [Node.apart_comm]

/-- A loop may stand in a canonical tree if its body is canonical. -/
theorem loop_iff : (Node.loop body).every Node.isPlain = true ↔ Canonical body := by
  rw [Node.every, Node.isPlain, Bool.and_eq_true, decide_eq_true_eq]
  exact ⟨fun h => ⟨h.2, h.1⟩, fun h => ⟨h.separate, h.plain⟩⟩

end Program.Canonical

/-! ## Shortening runs -/

/-- The length that a run of changes is cut to: at most one round of the byte. -/
def shortLength (n : Nat) : Nat := (n - 1) % 256 + 1

/-- It is the only length of one round at most that does the same to a byte. -/
theorem eq_shortLength_iff {n m : Nat} (hn : 1 ≤ n) :
    m = shortLength n ↔ 1 ≤ m ∧ m ≤ 256 ∧ m % 256 = n % 256 := by
  rw [shortLength]
  omega

/-- A run of commands, cut to one round if they are changes. -/
def shortRun (run : List Command) : List Command :=
  match run.head? with
  | some .plus | some .minus => run.take (shortLength run.length)
  | _ => run

/-- Commands with each maximal run of changes cut to one round. -/
def shortened (commands : List Command) : List Command :=
  (commands.splitBy (· == ·)).flatMap shortRun

/-- The commands of a text, with their runs of changes cut to one round, and no comments. -/
def foldedText (source : String) : String :=
  String.ofList ((shortened (source.toList.filterMap Command.ofChar?)).map Command.char)

/-! ## Runs as nodes -/

/-- The node of a run of a command, by its length, if such runs are folded. -/
def Command.runNode? : Command → Option (Nat → Node)
  | .right => some fun n => .moveRight n
  | .left => some fun n => .moveLeft n
  | .plus => some fun n => .increment (n % 256 : Nat)
  | .minus => some fun n => .decrement (n % 256 : Nat)
  | _ => none

section RunNodes

variable {k : Command} {run : Nat → Node}

theorem runOf?_run (hk : k.runNode? = some run) (n : Nat) : (run n).runOf? = some k := by
  cases k <;> cases hk <;> rfl

theorem isPlain_run (hk : k.runNode? = some run) {n : Nat} (hn : 1 ≤ n) :
    (run n).every Node.isPlain = true := by
  cases k <;> cases hk <;> simp [Node.every, Node.isPlain] <;> omega

theorem changeLength_emod {n : Nat} (hn : 1 ≤ n) :
    changeLength (n % 256 : Nat) = shortLength n := by
  rw [eq_shortLength_iff hn, changeLength]
  split
  · omega
  · omega

/-- The node of a run is written down as the run, shortened. -/
theorem commands_run (hk : k.runNode? = some run) {n : Nat} (hn : 1 ≤ n) :
    (run n).commands = shortRun (List.replicate n k) := by
  have hle : shortLength n ≤ n := by
    rw [shortLength]
    omega
  have hhead : (List.replicate n k).head? = some k := by
    rw [List.head?_replicate, if_neg (by omega)]
  rw [shortRun, hhead, List.length_replicate, List.take_replicate, Nat.min_eq_left hle]
  cases k with
  | right | left =>
    obtain rfl := Option.some.inj hk
    rfl
  | plus | minus =>
    obtain rfl := Option.some.inj hk
    rw [Node.commands, changeLength_emod hn]
  | output | input | loopStart | loopEnd => cases hk

theorem exists_changeLength {amount : Int} (hpos : 0 ≤ amount) (hle : amount ≤ 255) :
    ∃ n : Nat, changeLength amount = n + 1 ∧ ((n + 1) % 256 : Nat) = amount := by
  rw [changeLength]
  split
  · exact ⟨255, rfl, by omega⟩
  · exact ⟨amount.toNat - 1, by omega, by omega⟩

/-- A plain node of a run is that of its commands. -/
theorem Node.exists_run {a : Node} (ha : a.every isPlain = true) (hk : a.runOf? = some k) :
    ∃ run n, k.runNode? = some run ∧ run (n + 1) = a ∧ a.commands = List.replicate (n + 1) k := by
  cases a with
  | moveRight amount | moveLeft amount =>
    obtain rfl := Option.some.inj hk
    have hpos : 1 ≤ amount := of_decide_eq_true ha
    obtain ⟨n, rfl⟩ : ∃ n : Nat, amount = (n + 1 : Nat) := ⟨amount.toNat - 1, by omega⟩
    exact ⟨_, n, rfl, rfl, rfl⟩
  | increment amount | decrement amount =>
    obtain rfl := Option.some.inj hk
    obtain ⟨hpos, hle⟩ := Bool.and_eq_true_iff.mp ha
    obtain ⟨n, hlength, hamount⟩ :=
      exists_changeLength (of_decide_eq_true hpos) (of_decide_eq_true hle)
    exact ⟨_, n, rfl, by rw [hamount], by rw [commands, hlength]⟩
  | _ => cases hk

end RunNodes

/-! ## Reading runs -/

theorem Token.commands_scanFrom (place : Position) (text : List Char) :
    (scanFrom place text).map Token.command = text.filterMap Command.ofChar? := by
  induction text generalizing place with
  | nil => rfl
  | cons c text ih =>
    rw [scanFrom, List.filterMap_cons]
    cases Command.ofChar? c with
    | none => exact ih _
    | some k => exact congrArg (k :: ·) (ih _)

namespace Reading

variable {r r' : Reading} {k : Command} {tokens : List Token}

theorem bind_eq_ok {first : Except BracketError Reading}
    {second : Reading → Except BracketError Reading} :
    (first >>= second) = .ok r' ↔ ∃ r₁, first = .ok r₁ ∧ second r₁ = .ok r' := by
  cases first with
  | error e =>
    constructor
    · intro h
      cases h
    · rintro ⟨r₁, h, -⟩
      cases h
  | ok r₁ =>
    constructor
    · intro h
      exact ⟨r₁, rfl, h⟩
    · rintro ⟨_, ⟨⟩, h⟩
      exact h

section Runs

variable {run : Nat → Node} (hk : k.runNode? = some run)
include hk

/-- A command behind a run of it makes the run longer. -/
theorem step_run (loops : List OpenLoop) (n : Nat) (done : List Node) (place : Position) :
    step ⟨loops, run n :: done⟩ ⟨k, place⟩ = .ok ⟨loops, run (n + 1) :: done⟩ := by
  have hcount : (((n % 256 : Nat) : Int) + 1) % 256 = ((n + 1) % 256 : Nat) := by omega
  cases k with
  | right | left =>
    obtain rfl := Option.some.inj hk
    rfl
  | plus =>
    obtain rfl := Option.some.inj hk
    simp only [step, foldPlus, hcount]
  | minus =>
    obtain rfl := Option.some.inj hk
    simp only [step, foldMinus, hcount]
  | output | input | loopStart | loopEnd => cases hk

/-- A command behind anything else begins a run. -/
theorem step_first (hr : ∀ a ∈ r.done.head?, a.runOf? ≠ some k) (place : Position) :
    r.step ⟨k, place⟩ = .ok ⟨r.loops, run 1 :: r.done⟩ := by
  obtain ⟨loops, done⟩ := r
  have hhead {a : Node} {rest : List Node} (h : done = a :: rest) : a.runOf? ≠ some k :=
    hr a (by rw [h]; rfl)
  cases k with
  | right =>
    obtain rfl := Option.some.inj hk
    simp only [step, foldRight.eq_def]
    split
    · exact absurd rfl (hhead rfl)
    · rfl
  | left =>
    obtain rfl := Option.some.inj hk
    simp only [step, foldLeft.eq_def]
    split
    · exact absurd rfl (hhead rfl)
    · rfl
  | plus =>
    obtain rfl := Option.some.inj hk
    simp only [step, foldPlus.eq_def]
    split
    · exact absurd rfl (hhead rfl)
    · rfl
  | minus =>
    obtain rfl := Option.some.inj hk
    simp only [step, foldMinus.eq_def]
    split
    · exact absurd rfl (hhead rfl)
    · rfl
  | output | input | loopStart | loopEnd => cases hk

theorem read_more {n : Nat} (htokens : tokens.map Token.command = List.replicate n k)
    (loops : List OpenLoop) (m : Nat) (done : List Node) :
    tokens.foldlM step ⟨loops, run m :: done⟩ = .ok ⟨loops, run (m + n) :: done⟩ := by
  induction n generalizing tokens m with
  | zero =>
    obtain rfl := List.map_eq_nil_iff.mp htokens
    rfl
  | succ n ih =>
    obtain ⟨⟨_, place⟩, rest, rfl, rfl, hrest⟩ := List.map_eq_cons_iff.mp htokens
    rw [List.foldlM_cons, step_run hk, Nat.add_comm n, ← Nat.add_assoc]
    exact ih hrest (m + 1)

/-- A run that nothing in front belongs to is read as one node. -/
theorem read_run {n : Nat} (htokens : tokens.map Token.command = List.replicate (n + 1) k)
    (hr : ∀ a ∈ r.done.head?, a.runOf? ≠ some k) :
    tokens.foldlM step r = .ok ⟨r.loops, run (n + 1) :: r.done⟩ := by
  obtain ⟨⟨_, place⟩, rest, rfl, rfl, hrest⟩ := List.map_eq_cons_iff.mp htokens
  rw [List.foldlM_cons, step_first hk hr, Nat.add_comm]
  exact read_more hk hrest r.loops 1 r.done

end Runs

/-! ## What has been read -/

/-- The commands up to the innermost loop that is open. -/
def openCommands : List OpenLoop → List Command
  | [] => []
  | l :: loops => openCommands loops ++ Program.commands l.before.reverse ++ [.loopStart]

/-- The commands of what has been read. -/
def written (r : Reading) : List Command :=
  openCommands r.loops ++ Program.commands r.done.reverse

theorem written_push (loops : List OpenLoop) (a : Node) (done : List Node) :
    written ⟨loops, a :: done⟩ = written ⟨loops, done⟩ ++ a.commands := by
  rw [written, written, Program.commands_reverse_cons, List.append_assoc]

/-- In all that has been read, the runs are folded. -/
structure Canonical (r : Reading) : Prop where
  done : Program.Canonical r.done
  loops : ∀ l ∈ r.loops, Program.Canonical l.before

namespace Canonical

/-- A node that is no run. -/
theorem push {a : Node} (h : r.Canonical) (ha : a.every Node.isPlain = true)
    (hnone : a.runOf? = none) : Canonical ⟨r.loops, a :: r.done⟩ where
  done := Program.Canonical.cons_iff.mpr ⟨ha, fun b _ => by rw [Node.apart, hnone]; rfl, h.done⟩
  loops := h.loops

/-- Reading a command that makes no run. -/
theorem step_other (h : r.Canonical) (hk : k.runNode? = none) {place : Position}
    (hstep : r.step ⟨k, place⟩ = .ok r') :
    r'.Canonical ∧ r'.written = r.written ++ [k] ∧ ∀ a ∈ r'.done.head?, a.runOf? = none := by
  cases k with
  | right | left | plus | minus => cases hk
  | output | input =>
    obtain rfl := Except.ok.inj hstep
    refine ⟨h.push rfl rfl, written_push .., ?_⟩
    rintro a ⟨⟩
    rfl
  | loopStart =>
    obtain rfl := Except.ok.inj hstep
    refine ⟨⟨.nil, List.forall_mem_cons.mpr ⟨h.done, h.loops⟩⟩, ?_, ?_⟩
    · rw [written, written, openCommands, List.reverse_nil, Program.commands, List.append_nil]
    · rintro a ⟨⟩
  | loopEnd =>
    cases hloops : r.loops with
    | nil =>
      simp only [step, hloops] at hstep
      cases hstep
    | cons outer loops =>
      simp only [step, hloops] at hstep
      obtain rfl := Except.ok.inj hstep
      obtain ⟨houter, hrest⟩ := List.forall_mem_cons.mp (hloops ▸ h.loops)
      have hloop := Program.Canonical.loop_iff.mpr h.done.reverse
      refine ⟨push (r := ⟨loops, outer.before⟩) ⟨houter, hrest⟩ hloop rfl, ?_, ?_⟩
      · rw [written_push, written, written, hloops, openCommands, Node.commands]
        simp only [List.append_assoc, List.cons_append, List.nil_append]
      · rintro a ⟨⟩
        rfl

theorem others (h : r.Canonical) (hhead : ∀ a ∈ r.done.head?, a.runOf? = none)
    (hk : k.runNode? = none) {n : Nat} (htokens : tokens.map Token.command = List.replicate n k)
    (hread : tokens.foldlM step r = .ok r') :
    r'.Canonical ∧ r'.written = r.written ++ List.replicate n k ∧
      ∀ a ∈ r'.done.head?, a.runOf? = none := by
  induction n generalizing r tokens with
  | zero =>
    obtain rfl := List.map_eq_nil_iff.mp htokens
    obtain rfl := Except.ok.inj hread
    exact ⟨h, (List.append_nil _).symm, hhead⟩
  | succ n ih =>
    obtain ⟨⟨_, place⟩, rest, rfl, rfl, hrest⟩ := List.map_eq_cons_iff.mp htokens
    rw [List.foldlM_cons, bind_eq_ok] at hread
    obtain ⟨r₁, hstep, hread⟩ := hread
    obtain ⟨h₁, hwritten, hhead₁⟩ := h.step_other hk hstep
    obtain ⟨h', hwritten', hhead'⟩ := ih h₁ hhead₁ hrest hread
    refine ⟨h', ?_, hhead'⟩
    rw [hwritten', hwritten, List.append_assoc]
    rfl

/-- Reading a whole run leaves the run, shortened, and what comes next can only be joined to it. -/
theorem run (h : r.Canonical) (hr : ∀ a ∈ r.done.head?, a.runOf? ≠ some k) {n : Nat}
    (htokens : tokens.map Token.command = List.replicate (n + 1) k)
    (hread : tokens.foldlM step r = .ok r') :
    r'.Canonical ∧ r'.written = r.written ++ shortRun (List.replicate (n + 1) k) ∧
      ∀ a ∈ r'.done.head?, ∀ k', a.runOf? = some k' → k' = k := by
  cases hk : k.runNode? with
  | some run =>
    rw [read_run hk htokens hr] at hread
    obtain rfl := Except.ok.inj hread
    have hpos : 1 ≤ n + 1 := Nat.le_add_left 1 n
    refine ⟨⟨Program.Canonical.cons_iff.mpr ⟨isPlain_run hk hpos, ?_, h.done⟩, h.loops⟩, ?_, ?_⟩
    · intro a ha
      rw [Node.apart_iff, runOf?_run hk]
      rintro _ ⟨⟩
      exact hr a ha
    · rw [written_push, commands_run hk hpos]
    · rintro a ⟨⟩ k' hk'
      rw [runOf?_run hk] at hk'
      exact (Option.some.inj hk').symm
  | none =>
    have hshort : shortRun (List.replicate (n + 1) k) = List.replicate (n + 1) k := by
      cases k with
      | right | left | plus | minus => cases hk
      | output | input | loopStart | loopEnd => rfl
    obtain ⟨⟨_, place⟩, rest, rfl, rfl, hrest⟩ := List.map_eq_cons_iff.mp htokens
    rw [List.foldlM_cons, bind_eq_ok] at hread
    obtain ⟨r₁, hstep, hread⟩ := hread
    obtain ⟨h₁, hwritten, hhead⟩ := h.step_other hk hstep
    obtain ⟨h', hwritten', hhead'⟩ := h₁.others hhead hk hrest hread
    refine ⟨h', ?_, fun a ha k' hk' => ?_⟩
    · rw [hwritten', hwritten, hshort, List.append_assoc]
      rfl
    · rw [hhead' a ha] at hk'
      cases hk'

/-- Reading runs one after the other. -/
theorem runs {runs : List (List Command)}
    (hruns : ∀ run ∈ runs, ∃ k n, run = List.replicate (n + 1) k)
    (hchain : runs.IsChain fun a b => ∀ k ∈ a.getLast?, k ∉ b.head?) (h : r.Canonical)
    (hr : ∀ run ∈ runs.head?, ∀ k ∈ run.head?, ∀ a ∈ r.done.head?, a.runOf? ≠ some k)
    (htokens : tokens.map Token.command = runs.flatten)
    (hread : tokens.foldlM step r = .ok r') :
    r'.Canonical ∧ r'.written = r.written ++ runs.flatMap shortRun := by
  induction runs generalizing r tokens with
  | nil =>
    obtain rfl := List.map_eq_nil_iff.mp htokens
    obtain rfl := Except.ok.inj hread
    exact ⟨h, (List.append_nil _).symm⟩
  | cons run runs ih =>
    obtain ⟨⟨k, n, rfl⟩, hmore⟩ := List.forall_mem_cons.mp hruns
    obtain ⟨hnext, hchain⟩ := List.isChain_cons.mp hchain
    rw [List.flatten_cons, List.map_eq_append_iff] at htokens
    obtain ⟨front, rest, rfl, hfront, hrest⟩ := htokens
    rw [List.foldlM_append, bind_eq_ok] at hread
    obtain ⟨r₁, hread₁, hread⟩ := hread
    obtain ⟨h₁, hwritten, hlast⟩ := h.run (hr _ rfl k rfl) hfront hread₁
    have hr₁ : ∀ run ∈ runs.head?, ∀ k ∈ run.head?, ∀ a ∈ r₁.done.head?, a.runOf? ≠ some k := by
      -- What the next run begins with differs from what this one consists of.
      intro run hrun k' hk' a ha hka
      obtain rfl := hlast a ha k' hka
      refine hnext run hrun k' ?_ hk'
      rw [List.getLast?_replicate, if_neg (Nat.succ_ne_zero n)]
      rfl
    obtain ⟨h', hwritten'⟩ := ih hmore hchain h₁ hr₁ hrest hread
    refine ⟨h', ?_⟩
    rw [hwritten', hwritten, List.append_assoc, List.flatMap_cons]

end Canonical

end Reading

section MaximalRuns

variable {commands : List Command}

theorem exists_replicate_of_mem_splitBy {run : List Command}
    (h : run ∈ commands.splitBy (· == ·)) : ∃ k n, run = List.replicate (n + 1) k := by
  have hchain := List.isChain_of_mem_splitBy h
  obtain ⟨k, rest, rfl⟩ := List.exists_cons_of_ne_nil (List.ne_nil_of_mem_splitBy h)
  simp only [beq_iff_eq] at hchain
  refine ⟨k, rest.length, ?_⟩
  rw [List.replicate_succ, ← List.isChain_cons_eq_iff_eq_replicate.mp hchain]

/-- A maximal run is not continued by the next one. -/
theorem isChain_splitBy (commands : List Command) :
    (commands.splitBy (· == ·)).IsChain fun a b => ∀ k ∈ a.getLast?, k ∉ b.head? := by
  refine (List.isChain_getLast_head_splitBy _ commands).imp ?_
  rintro a b ⟨ha, hb, hne⟩ k hk hk'
  rw [List.getLast?_eq_some_getLast ha] at hk
  rw [List.head?_eq_some_head hb] at hk'
  rw [Option.some.inj hk, Option.some.inj hk', beq_self_eq_true] at hne
  cases hne

end MaximalRuns

/-! ## Reading a tree that was written down -/

/-- A run that was written down is read as one node. -/
theorem Node.read_run {a : Node} {k : Command} {r : Reading} {tokens : List Token}
    (hk : a.runOf? = some k) (ha : a.every isPlain = true)
    (hr : ∀ b ∈ r.done.head?, a.apart b = true) (htokens : tokens.map Token.command = a.commands) :
    tokens.foldlM Reading.step r = .ok ⟨r.loops, a :: r.done⟩ := by
  obtain ⟨run, n, hrun, rfl, hcommands⟩ := exists_run ha hk
  exact Reading.read_run hrun (htokens.trans hcommands) fun b hb => apart_iff.mp (hr b hb) k hk

mutual

theorem Node.read_commands : (a : Node) → ∀ {r : Reading} {tokens : List Token},
    a.every Node.isPlain = true → (∀ b ∈ r.done.head?, a.apart b = true) →
    tokens.map Token.command = a.commands →
    tokens.foldlM Reading.step r = .ok ⟨r.loops, a :: r.done⟩
  | .moveRight _, _, _, ha, hr, htokens => Node.read_run rfl ha hr htokens
  | .moveLeft _, _, _, ha, hr, htokens => Node.read_run rfl ha hr htokens
  | .increment _, _, _, ha, hr, htokens => Node.read_run rfl ha hr htokens
  | .decrement _, _, _, ha, hr, htokens => Node.read_run rfl ha hr htokens
  | .output, _, _, _, _, htokens => by
    obtain ⟨⟨_, place⟩, rfl, rfl⟩ := List.map_eq_singleton_iff.mp htokens
    rfl
  | .input, _, _, _, _, htokens => by
    obtain ⟨⟨_, place⟩, rfl, rfl⟩ := List.map_eq_singleton_iff.mp htokens
    rfl
  | .loop body, r, tokens, ha, _, htokens => by
    rw [Node.commands, List.map_eq_cons_iff] at htokens
    obtain ⟨⟨_, place⟩, rest, rfl, rfl, hrest⟩ := htokens
    obtain ⟨inner, last, rfl, hinner, hlast⟩ := List.map_eq_append_iff.mp hrest
    obtain ⟨⟨_, place'⟩, rfl, rfl⟩ := List.map_eq_singleton_iff.mp hlast
    have hbody := Program.read_commands body (r := ⟨⟨r.done, place⟩ :: r.loops, []⟩)
      (Program.Canonical.loop_iff.mp ha) (fun _ _ _ hb => by cases hb) hinner
    have hclose : Reading.step ⟨⟨r.done, place⟩ :: r.loops, body.reverse⟩ ⟨.loopEnd, place'⟩ =
        .ok ⟨r.loops, .loop body :: r.done⟩ := by
      rw [Reading.step, List.reverse_reverse]
    rw [List.append_nil] at hbody
    rw [List.foldlM_cons, Reading.bind_eq_ok]
    refine ⟨_, rfl, ?_⟩
    rw [List.foldlM_append, Reading.bind_eq_ok]
    refine ⟨_, hbody, ?_⟩
    rw [List.foldlM_cons, hclose]
    rfl
  | .scanRight _, _, _, ha, _, _ => by cases ha
  | .scanLeft _, _, _, ha, _, _ => by cases ha
  | .clear, _, _, ha, _, _ => by cases ha
  | .scaled _, _, _, ha, _, _ => by cases ha
  | .carryRight _, _, _, ha, _, _ => by cases ha
  | .carryLeft _, _, _, ha, _, _ => by cases ha
  | .foreign _, _, _, ha, _, _ => by cases ha
  | .derived _ _, _, _, ha, _, _ => by cases ha

/-- Reading the commands of a canonical tree behind anything that is not joined to it. -/
theorem Program.read_commands : (p : List Node) → ∀ {r : Reading} {tokens : List Token},
    Program.Canonical p → (∀ a ∈ p.head?, ∀ b ∈ r.done.head?, a.apart b = true) →
    tokens.map Token.command = Program.commands p →
    tokens.foldlM Reading.step r = .ok ⟨r.loops, p.reverse ++ r.done⟩
  | [], r, tokens, _, _, htokens => by
    obtain rfl := List.map_eq_nil_iff.mp htokens
    rfl
  | a :: p, r, tokens, hp, hr, htokens => by
    obtain ⟨ha, hnext, hp⟩ := Program.Canonical.cons_iff.mp hp
    rw [Program.commands, List.map_eq_append_iff] at htokens
    obtain ⟨front, rest, rfl, hfront, hrest⟩ := htokens
    have hfirst := Node.read_commands a ha (hr a rfl) hfront
    have hmore := Program.read_commands p (r := ⟨r.loops, a :: r.done⟩) hp
      (fun b hb c hc => by
        obtain rfl := Option.some.inj hc
        rw [Node.apart_comm]
        exact hnext b hb) hrest
    rw [List.foldlM_append, Reading.bind_eq_ok]
    refine ⟨_, hfirst, ?_⟩
    rw [hmore, List.reverse_cons, List.append_assoc]
    rfl

end

/-- A text that is read gives a canonical tree, which is written down as the text, folded. -/
theorem Program.text_of_parse {source : String} {p : Program} (hp : Program.parse source = .ok p) :
    Program.Canonical p ∧ p.text = foldedText source := by
  have hcommands := Token.commands_scanFrom .start source.toList
  rw [← List.flatten_splitBy (· == ·) (source.toList.filterMap Command.ofChar?)] at hcommands
  rw [Program.parse, Program.ofTokens] at hp
  cases hread : (Token.scan source).foldlM Reading.step .start with
  | error e =>
    rw [hread] at hp
    cases hp
  | ok r =>
    rw [hread] at hp
    obtain ⟨hcanonical, hwritten⟩ := Reading.Canonical.runs
      (fun _ => exists_replicate_of_mem_splitBy) (isChain_splitBy _)
      ⟨.nil, fun l hl => absurd hl List.not_mem_nil⟩ (fun _ _ _ _ _ ha => by cases ha) hcommands
      hread
    obtain ⟨loops, done⟩ := r
    cases loops with
    | cons innermost loops => cases hp
    | nil =>
      obtain rfl := Except.ok.inj hp
      exact ⟨hcanonical.done.reverse,
        congrArg (fun l => String.ofList (List.map Command.char l)) hwritten⟩

/-- A canonical tree is read from what it is written down as. -/
theorem Program.parse_text {p : Program} (hp : Program.Canonical p) :
    Program.parse p.text = .ok p := by
  have htokens : (Token.scan p.text).map Token.command = Program.commands p := by
    rw [Token.scan, Token.commands_scanFrom, Program.text, String.toList_ofList,
      List.filterMap_map]
    simp only [Function.comp_def, Command.ofChar?_char, List.filterMap_some]
  have hread := Program.read_commands p (r := .start) hp (fun _ _ _ hb => by cases hb) htokens
  rw [Program.parse, Program.ofTokens, hread]
  simp only [Reading.start, List.append_nil]
  exact congrArg Except.ok (List.reverse_reverse p)

/-- **Reading and writing down.**  Every text that is read gives a canonical tree, every canonical
tree is read from what it is written down as, and a text that is read is written down as its commands
with the runs of changes shortened.  So canonical trees and folded texts correspond to each other.
The length of a shortened run is the only one from `1` to `256` that does the same to a byte. -/
theorem Program.parse_inverts_text :
    (∀ (source : String) (p : Program), Program.parse source = .ok p → Program.Canonical p) ∧
      (∀ p : Program, Program.Canonical p → Program.parse p.text = .ok p) ∧
      (∀ (source : String) (p : Program), Program.parse source = .ok p →
        p.text = foldedText source) ∧
      Set.BijOn Program.text {p | Program.Canonical p}
        {source | foldedText source = source ∧ ∃ p, Program.parse source = .ok p} ∧
      ∀ n m : Nat, 1 ≤ n → (m = shortLength n ↔ 1 ≤ m ∧ m ≤ 256 ∧ m % 256 = n % 256) := by
  refine ⟨fun _ _ h => (text_of_parse h).1, fun _ => parse_text, fun _ _ h => (text_of_parse h).2,
    ⟨fun p hp => ?_, fun p hp q hq heq => ?_, ?_⟩, fun _ _ => eq_shortLength_iff⟩
  · have hparse := parse_text hp
    exact ⟨(text_of_parse hparse).2.symm, p, hparse⟩
  · have hparse := parse_text hp
    rw [heq, parse_text hq] at hparse
    exact (Except.ok.inj hparse).symm
  · rintro source ⟨hfolded, p, hparse⟩
    obtain ⟨hcanonical, htext⟩ := text_of_parse hparse
    exact ⟨p, hcanonical, htext.trans hfolded⟩

/-- Comments inside a run, and one full round of the byte in a loop. -/
theorem Program.parse_inverts_text_round :
    Program.Canonical [.moveRight 2, .loop [.increment 0, .decrement 1], .input] ∧
      Program.parse (Program.text [.moveRight 2, .loop [.increment 0, .decrement 1], .input]) =
        .ok [.moveRight 2, .loop [.increment 0, .decrement 1], .input] ∧
      Program.parse "> a\n>[-]" = .ok [.moveRight 2, .loop [.decrement 1]] ∧
      Program.text [.moveRight 2, .loop [.decrement 1]] = foldedText "> a\n>[-]" := by
  have hcanonical : Program.Canonical [.moveRight 2, .loop [.increment 0, .decrement 1], .input] :=
    ⟨by decide, by decide⟩
  have hparse : Program.parse "> a\n>[-]" = .ok [.moveRight 2, .loop [.decrement 1]] := by decide
  exact ⟨hcanonical, parse_inverts_text.2.1 _ hcanonical, hparse,
    parse_inverts_text.2.2.1 _ _ hparse⟩

end Brainfuck
