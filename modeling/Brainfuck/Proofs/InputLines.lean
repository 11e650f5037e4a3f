import Brainfuck.LineBuffer
import Brainfuck.Proofs.Buffers
import Brainfuck.Proofs.Visits

/-!
# Input by lines is the input byte by byte

A compiled program fetches its input a line at a time.  What it hands out are nevertheless the bytes
of the input one after another, whatever the lines are: empty ones, lines with zero bytes in them, a
last line without newline; and zeros when there are no more.

The invariant relates the block and its words to the part of the input that has not been handed out.
That part is what stands in the block between the position and the length, and behind it what has not
been fetched.  Neither the rest of the block nor its capacity matters.  When a line has been used up
there is nothing left in the block, and fetching moves the next line from the second part to the first.

* `FirstLine`, `Fetch.Serves`: what is asked of the system.
* `LineBuffer.remaining`, `LineBuffer.exists_next`: reading one byte.
* `Memory.Holds`, `Memory.holds_serveAll`: any number of requests.
* `Execution.unread_of_runs`: what an execution has read of its input.
* `Memory.input_stores_stream`: each byte that is read is the next one of the input.
-/

namespace Brainfuck

/-! ## Systems -/

/-- A line is the first one of an input: it ends with the first newline, or it is all there is. -/
structure FirstLine (input line rest : List UInt8) : Prop where
  append : line ++ rest = input
  ends : (∃ text, 10 ∉ text ∧ line = text ++ [10]) ∨ 10 ∉ line ∧ rest = []

/-- There is a line as long as there is input. -/
theorem FirstLine.ne_nil {input line rest : List UInt8} (h : FirstLine input line rest)
    (hinput : input ≠ []) : line ≠ [] := by
  rintro rfl
  obtain ⟨text, -, htext⟩ | ⟨-, hrest⟩ := h.ends
  · exact absurd htext.symm (by simp)
  · exact hinput (h.append.symm.trans hrest)

/-- A system fetches the lines of an input.  As long as something is left it puts the first line of
that into a block and says how long the line is; when nothing is left, it says so whenever it is
asked. -/
structure Fetch.Serves (fetch : Fetch) (input : List UInt8) : Prop where
  line : ∀ block capacity rest, rest <:+ input → rest ≠ [] →
    ∃ text content, FirstLine rest text (fetch block capacity rest).rest ∧
      (fetch block capacity rest).count.toInt = text.length ∧
      (fetch block capacity rest).block = some content ∧ text <+: content.toList
  none : ∀ block capacity,
    (fetch block capacity []).count ≤ 0 ∧ (fetch block capacity []).rest = []

theorem firstLine_spec (input : List UInt8) :
    FirstLine input (firstLine input).1 (firstLine input).2 := by
  induction input with
  | nil => exact ⟨rfl, Or.inr ⟨List.not_mem_nil, rfl⟩⟩
  | cons b bs ih =>
    rw [firstLine]
    by_cases hb : b = 10
    · rw [if_pos hb]
      exact ⟨rfl, Or.inl ⟨[], List.not_mem_nil, congrArg (· :: []) hb⟩⟩
    · rw [if_neg hb]
      refine ⟨congrArg (b :: ·) ih.append, ?_⟩
      obtain ⟨text, htext, hline⟩ | ⟨hline, hrest⟩ := ih.ends
      · refine Or.inl ⟨b :: text, ?_, congrArg (b :: ·) hline⟩
        exact fun hmem => (List.mem_cons.mp hmem).elim (fun h => hb h.symm) htext
      · exact Or.inr ⟨fun hmem => (List.mem_cons.mp hmem).elim (fun h => hb h.symm) hline, hrest⟩

/-- The plain system serves every input whose lines it can count. -/
theorem Fetch.serves_plain {input : List UInt8} (hlength : input.length < 2 ^ 63) :
    Fetch.plain.Serves input where
  line := by
    intro block capacity rest hsuffix hrest
    have hfirst := firstLine_spec rest
    have hne := hfirst.ne_nil hrest
    have hle : (firstLine rest).1.length ≤ input.length := by
      have := hsuffix.length_le
      have happend := congrArg List.length hfirst.append
      rw [List.length_append] at happend
      omega
    unfold Fetch.plain
    generalize firstLine rest = fetched at hfirst hne hle
    obtain ⟨text, after⟩ := fetched
    cases text with
    | nil => exact absurd rfl hne
    | cons b text =>
      refine ⟨b :: text, _, hfirst, ?_, rfl, List.prefix_append ..⟩
      exact Int64.toInt_ofNat_of_lt (Nat.lt_of_le_of_lt hle hlength)
  none := by
    intro block capacity
    have hcount : (-1 : Int64) ≤ 0 := by decide
    exact ⟨hcount, rfl⟩

/-! ## One byte -/

theorem toNat_toUInt64_of_toInt {count : Int64} {n : Nat} (h : count.toInt = n) :
    count.toUInt64.toNat = n := by
  have hnat : count.toUInt64.toNat = count.toBitVec.toNat := rfl
  have hint : count.toInt = count.toBitVec.toInt := rfl
  rw [hint, BitVec.toInt_eq_toNat_cond] at h
  have := count.toBitVec.isLt
  split at h <;> omega

namespace LineBuffer

variable {l : LineBuffer} {input : List UInt8} {fetch : Fetch}

/-- What is in the block. -/
def content (l : LineBuffer) : List UInt8 := (l.block.getD #[]).toList

/-- The input that has not been handed out. -/
def remaining (l : LineBuffer) : List UInt8 :=
  (l.content.take l.length.toNat).drop l.position.toNat ++ l.rest

/-- The line is in the block, and what has not been fetched is the end of the input. -/
structure Sound (input : List UInt8) (l : LineBuffer) : Prop where
  length_le : l.length.toNat ≤ l.content.length
  suffix : l.rest <:+ input

/-- Where the position is within the line, the byte there is the next one. -/
theorem drop_take_content {b : UInt8} (hlt : l.position.toNat < l.length.toNat)
    (hb : l.content[l.position.toNat]? = some b) :
    (l.content.take l.length.toNat).drop l.position.toNat =
      b :: (l.content.take l.length.toNat).drop (l.position.toNat + 1) := by
  rw [List.drop_eq_getElem?_toList_append, List.getElem?_take_of_lt hlt, hb]
  rfl

/-- Hands out a byte of the line. -/
theorem exists_take (hl : l.Sound input) (hlt : l.position.toNat < l.length.toNat) :
    ∃ l' : LineBuffer, l.take = some (l.remaining.headD 0, l') ∧ l'.Sound input ∧
      l'.remaining = l.remaining.tail := by
  have hle := hl.length_le
  obtain ⟨b, hb⟩ : ∃ b, l.content[l.position.toNat]? = some b :=
    ⟨_, List.getElem?_eq_getElem (by omega)⟩
  have htake : l.take = some (b, { l with position := l.position + 1 }) := by
    unfold take
    unfold content at hb
    cases hblock : l.block with
    | none => rw [hblock] at hb; cases hb
    | some block =>
      rw [hblock, Option.getD_some, Array.getElem?_toList] at hb
      simp only [bind, Option.bind, hb, pure]
  have hposition : (l.position + 1).toNat = l.position.toNat + 1 := by
    have := l.length.toNat_lt
    rw [UInt64.toNat_add]
    change (l.position.toNat + 1) % 2 ^ 64 = l.position.toNat + 1
    omega
  have hremaining : l.remaining =
      b :: remaining { l with position := l.position + 1 } := by
    rw [remaining, drop_take_content hlt hb, remaining, List.cons_append]
    show b :: _ = b :: ((l.content.take l.length.toNat).drop (l.position + 1).toNat ++ l.rest)
    rw [hposition]
  refine ⟨{ l with position := l.position + 1 }, ?_, ⟨hl.length_le, hl.suffix⟩,
    congrArg List.tail hremaining.symm⟩
  rw [htake, hremaining, List.headD_cons]

/-- Hands out a byte, of the line or of the next one. -/
theorem exists_next (hfetch : fetch.Serves input) (hl : l.Sound input) :
    ∃ l' : LineBuffer, l.next fetch = some (l.remaining.headD 0, l') ∧ l'.Sound input ∧
      l'.remaining = l.remaining.tail := by
  unfold next
  by_cases hused : l.length ≤ l.position
  · have hremaining : l.remaining = l.rest := by
      have hle := UInt64.le_iff_toNat_le.mp hused
      rw [remaining, List.drop_eq_nil_of_le, List.nil_append]
      exact Nat.le_trans (List.length_take_le ..) hle
    rw [if_pos hused, hremaining]
    by_cases hrest : l.rest = []
    · have hnone := hfetch.none l.block l.capacity
      rw [hrest]
      generalize fetch l.block l.capacity [] = fetched at hnone
      obtain ⟨count, block, capacity, rest⟩ := fetched
      obtain ⟨hcount, rfl⟩ := hnone
      exact ⟨_, if_pos hcount, ⟨Nat.zero_le _, List.nil_suffix⟩, rfl⟩
    · obtain ⟨text, content, hfirst, hcount, hblock, hprefix⟩ :=
        hfetch.line l.block l.capacity l.rest hl.suffix hrest
      generalize fetch l.block l.capacity l.rest = fetched at hfirst hcount hblock
      obtain ⟨count, block, capacity, rest⟩ := fetched
      obtain rfl : block = some content := hblock
      have hlength : count.toUInt64.toNat = text.length := toNat_toUInt64_of_toInt hcount
      have hpos : 0 < text.length := List.length_pos_iff.mpr (hfirst.ne_nil hrest)
      have hsome : ¬ count ≤ 0 := by
        rw [Int64.le_iff_toInt_le, hcount, Int64.toInt_zero]
        omega
      have hfetched : Sound input ⟨count.toUInt64, capacity, 0, some content, rest⟩ :=
        ⟨hlength.symm ▸ hprefix.length_le, (hfirst.append ▸ List.suffix_append ..).trans hl.suffix⟩
      have hsame : remaining ⟨count.toUInt64, capacity, 0, some content, rest⟩ = l.rest := by
        show (content.toList.take count.toUInt64.toNat).drop 0 ++ rest = l.rest
        rw [List.drop_zero, hlength, ← List.prefix_iff_eq_take.mp hprefix]
        exact hfirst.append
      rw [if_neg hsome, ← hsame]
      exact exists_take hfetched (hlength.symm ▸ hpos)
  · rw [if_neg hused]
    exact exists_take hl (by rw [UInt64.le_iff_toNat_le] at hused; omega)

end LineBuffer

/-! ## Any number of requests -/

/-- Whether a request is to read a byte. -/
def Request.isInput : Request → Bool
  | .input _ _ => true
  | .call _ => false

/-- The system that a request goes to serves an input. -/
def Request.Serves (input : List UInt8) : Request → Prop
  | .input _ fetch => fetch.Serves input
  | .call _ => True

namespace Memory

variable {input : List UInt8} {k : Nat} {m after : Memory}

/-- So many bytes of an input have been handed out. -/
structure Holds (input : List UInt8) (k : Nat) (m : Memory) : Prop where
  sound : m.lines.Sound input
  remaining : m.lines.remaining = input.drop k

theorem holds_start (tape : Buffer) (input : List UInt8) : (start tape input).Holds input 0 :=
  ⟨⟨Nat.le_refl 0, List.suffix_refl input⟩, rfl⟩

/-- The first byte behind so many is the one with that number. -/
theorem headD_drop (input : List UInt8) (k : Nat) : (input.drop k).headD 0 = input.getD k 0 := by
  rw [List.headD_eq_head?_getD, List.head?_drop, List.getD_eq_getElem?_getD]

/-- The next byte that is handed out is the next one of the input. -/
theorem Holds.exists_next {fetch : Fetch} (hm : m.Holds input k) (hfetch : fetch.Serves input) :
    ∃ lines, m.lines.next fetch = some (input.getD k 0, lines) ∧
      ∀ tape, Holds input (k + 1) ⟨tape, lines⟩ := by
  obtain ⟨lines, hnext, hsound, hremaining⟩ := LineBuffer.exists_next hfetch hm.sound
  rw [hm.remaining, headD_drop] at hnext
  rw [hm.remaining, List.tail_drop] at hremaining
  exact ⟨lines, hnext, fun tape => ⟨hsound, hremaining⟩⟩

/-- Reading stores the byte that is handed out. -/
theorem input_of_next {cell : UInt64} {fetch : Fetch} {b : UInt8} {lines : LineBuffer}
    (h : m.lines.next fetch = some (b, lines)) :
    m.input cell fetch = (m.tape.storeAt cell b).map (Memory.mk · lines) := by
  simp only [Memory.input, h, bind, Option.bind]
  cases m.tape.storeAt cell b <;> rfl

/-- Only a request to read hands out a byte. -/
theorem Holds.serve {q : Request} {answer : Option Bool} (hm : m.Holds input k)
    (hq : q.Serves input) (h : m.serve q = some (answer, after)) :
    after.Holds input (k + [q].countP Request.isInput) := by
  cases q with
  | call c =>
    obtain ⟨⟨answer', tape⟩, -, hafter⟩ := Option.map_eq_some_iff.mp h
    obtain rfl := (Prod.mk.inj hafter).2
    exact ⟨hm.sound, hm.remaining⟩
  | input cell fetch =>
    obtain ⟨lines, hnext, hholds⟩ := hm.exists_next hq
    obtain ⟨after', hafter', hafter⟩ := Option.map_eq_some_iff.mp h
    obtain rfl := (Prod.mk.inj hafter).2
    rw [input_of_next hnext] at hafter'
    obtain ⟨tape, -, rfl⟩ := Option.map_eq_some_iff.mp hafter'
    exact hholds tape

/-- After any requests as many bytes have been handed out as there were requests to read. -/
theorem Holds.serveAll {requests : List Request} (hm : m.Holds input k)
    (hrequests : ∀ q ∈ requests, q.Serves input) (h : m.serveAll requests = some after) :
    after.Holds input (k + requests.countP Request.isInput) := by
  induction requests generalizing m k with
  | nil =>
    obtain rfl := Option.some.inj h
    exact hm
  | cons q requests ih =>
    rw [Memory.serveAll] at h
    obtain ⟨⟨answer, next⟩, hserve, hrest⟩ := Option.bind_eq_some_iff.mp h
    have hnext := hm.serve (hrequests q List.mem_cons_self) hserve
    have hafter := ih hnext (fun q' hq' => hrequests q' (List.mem_cons_of_mem q hq')) hrest
    rwa [Nat.add_assoc, ← List.countP_append] at hafter

end Memory

/-! ## What an execution reads -/

/-- No effect on a cell asks for a byte, and neither does the end of a scan. -/
theorem Machine.touch_ne_input {m m' : Machine} {index : Int} {act : Nat → Effect}
    (hact : ∀ place, act place ≠ .input m') : m.touch index act ≠ .input m' := by
  rw [touch]
  split
  · exact hact _
  · exact Effect.noConfusion

theorem Machine.land_ne_input {m m' : Machine} (scan : Scan) : m.land scan ≠ .input m' := by
  cases scan <;> exact Effect.noConfusion

/-- There is one instruction that asks for a byte. -/
theorem Machine.eq_input_of_exec {i : Instr} {m m' : Machine} (h : m.exec i = .input m') :
    i = .input := by
  cases i with
  | input => rfl
  | output | loopEnd => cases h
  | right | left =>
    rw [exec] at h
    split at h <;> cases h
  | add | sub | loopStart | clear | unscale =>
    exact absurd h (touch_ne_input fun place => Effect.noConfusion)
  | scanRight | scanLeft => exact absurd h (land_ne_input _)
  | scale =>
    refine absurd h (touch_ne_input fun place => ?_)
    dsimp only
    split <;> exact Effect.noConfusion
  | carryRight =>
    rw [exec] at h
    split at h
    · exact absurd h (touch_ne_input fun _ => touch_ne_input fun _ => Effect.noConfusion)
    · cases h
  | carryLeft =>
    refine absurd h (touch_ne_input fun place => ?_)
    split
    · exact Effect.noConfusion
    · split
      · exact Effect.noConfusion
      · exact touch_ne_input fun _ => Effect.noConfusion

namespace Execution

variable {p : FlatCode} {x y : Execution}

/-- Whether the next step reads a byte. -/
def reads (p : FlatCode) (x : Execution) : Bool := p.code[x.machine.pc]? == some .input

/-- Reading a byte, into the cell that the pointer names. -/
theorem single_of_reads (h : x.reads p = true) {here : Nat}
    (hplace : x.machine.tape.place? x.machine.pointer = some here) :
    x.single p = .next ⟨x.machine.advance.put here (x.unread.headD 0), x.unread.tail, x.written,
      x.steps + 1⟩ := by
  have hplace' : x.machine.advance.tape.place? x.machine.advance.pointer = some here := hplace
  rw [single, stepBy_of_fetch (beq_iff_eq.mp h), Machine.exec, meet, hplace']

/-- A step takes a byte from the input if it is to read, and none otherwise. -/
theorem unread_of_single (h : x.single p = .next y) :
    y.unread = x.unread.drop ([x].countP (reads p)) := by
  cases hreads : x.reads p with
  | true =>
    rw [single, stepBy_of_fetch (beq_iff_eq.mp hreads), Machine.exec, meet] at h
    split at h
    · obtain rfl := Advance.next.inj h
      rw [List.countP_singleton, if_pos hreads, List.drop_one]
    · cases h
  | false =>
    rw [List.countP_singleton, hreads, if_neg Bool.false_ne_true, List.drop_zero]
    cases hfetch : p.code[x.machine.pc]? with
    | none =>
      rw [single, stepBy_of_end hfetch] at h
      cases h
    | some i =>
      rw [single, stepBy_of_fetch hfetch] at h
      cases hexec : x.machine.exec i with
      | next m | grow needed m =>
        rw [hexec] at h
        obtain rfl := Advance.next.inj h
        rfl
      | output m =>
        rw [hexec, meet] at h
        split at h
        · obtain rfl := Advance.next.inj h
          rfl
        · cases h
      | input m =>
        rw [reads, hfetch, Machine.eq_input_of_exec hexec] at hreads
        exact absurd hreads (by decide)
      | fault m | astray index m =>
        rw [hexec] at h
        cases h

/-- An execution has read as many bytes of its input as it has carried out instructions to read. -/
theorem unread_of_runs {n : Nat} (h : Runs (single p) n x y) :
    y.unread = x.unread.drop ((x.visited p n).countP (reads p)) := by
  induction h with
  | zero x => rfl
  | @succ n x z y first _ ih =>
    rw [ih, unread_of_single first, List.drop_drop, visited_succ first, ← List.countP_append,
      List.singleton_append]

end Execution

/-! ## The stream -/

/-- **Input by lines is the input byte by byte.**  Let the system serve an input.  After any requests,
some of them to read a byte, the next request to read returns.  It stores the byte of the input whose
number is the number of those that have been read, zero if there is none, and changes nothing else on
the tape.  An execution of flat code with the same input that has read as many bytes, and is to read
another one, stores the same byte in the cell that the pointer names.  If the execution keeps to words,
that is the cell that the pointer is on. -/
theorem Memory.input_stores_stream {tape : Buffer} {input : List UInt8} {done : List Request}
    {before : Memory} {cell : UInt64} {fetch : Fetch} {k : Nat}
    (hdone : ∀ q ∈ done, q.Serves input) (hfetch : fetch.Serves input)
    (hbefore : (Memory.start tape input).serveAll done = some before)
    (hcell : cell < before.tape.count) (hk : done.countP Request.isInput = k) :
    (∃ after, before.serve (.input cell fetch) = some (none, after) ∧
      after.tape.count = before.tape.count ∧ after.tape.index = before.tape.index ∧
      ∀ j, after.tape.tape.get j =
        if j = cell.toNat then input.getD k 0 else before.tape.tape.get j) ∧
    ∀ (p : FlatCode) (tape : Tape) (index n : Nat) (x : Execution),
      Runs (Execution.single p) n (p.start tape index input) x →
      ((p.start tape index input).visited p n).countP (Execution.reads p) = k →
      x.reads p = true →
        (∀ here, x.machine.tape.place? x.machine.pointer = some here →
          x.single p = .next ⟨x.machine.advance.put here (input.getD k 0), input.drop (k + 1),
            x.written, x.steps + 1⟩) ∧
        (p.HasSoundDistances → p.KeepsToWords tape index input →
          ∃ here : Nat, x.machine.pointer = here ∧
            x.machine.tape.place? x.machine.pointer = some here) := by
  have hholds := (Memory.holds_start tape input).serveAll hdone hbefore
  rw [Nat.zero_add, hk] at hholds
  refine ⟨?_, fun p tape index n x hruns hcount hreads => ?_⟩
  · obtain ⟨lines, hnext, -⟩ := hholds.exists_next hfetch
    have hserve : before.serve (.input cell fetch) = some (none, ⟨{ before.tape with
        cells := before.tape.cells.setIfInBounds cell.toNat (input.getD k 0) }, lines⟩) := by
      rw [Memory.serve, Memory.input_of_next hnext, Buffer.storeAt, if_pos hcell]
      rfl
    refine ⟨_, hserve, rfl, rfl, fun j => ?_⟩
    have hlt : cell.toNat < before.tape.tape.size := by
      rw [Buffer.size_tape]
      exact UInt64.lt_iff_toNat_lt.mp hcell
    exact (congrFun (Tape.get_set_eq_update hlt _) j).trans (Function.update_apply ..)
  · have hunread : x.unread = input.drop k := by
      rw [Execution.unread_of_runs hruns, hcount, FlatCode.start]
    refine ⟨fun here hplace => ?_, fun hdistances hwords => ?_⟩
    · rw [Execution.single_of_reads hreads hplace, hunread, List.tail_drop, Memory.headD_drop]
    · have honTape := (FlatCode.ready_of_runs hdistances (p.onTape_start tape index input)
        (fun n y hy _ => hwords n y hy) hruns).onTape
      exact ⟨x.machine.place, honTape.pointer_eq, honTape.place?⟩

/-- Requests to read and a move between them. -/
def mixedRequests : List Request :=
  [.input 0 .plain, .call ⟨.moveRight, 2, fun _ => 7⟩, .input 3 .plain, .input 1 .plain,
    .input 0 .plain]

/-- Code that reads five bytes. -/
def fiveReads : FlatCode := ⟨#[.input, .input, .input, .input, .input], 0⟩

/-- An empty line, a line that begins with a zero byte and has no newline, and the fifth byte of the
input, read by a routine and by an instruction. -/
theorem Memory.input_stores_stream_lines :
    (∃ before after,
      (Memory.start ⟨4, #v[1, 2, 3, 4], 0⟩ [97, 10, 10, 0, 98]).serveAll mixedRequests = some before ∧
      before.serve (.input 2 .plain) = some (none, after) ∧
      after.tape.tape.get 2 = 98 ∧ after.tape.tape.get 3 = before.tape.tape.get 3) ∧
    ∃ x, Runs (Execution.single fiveReads) 4 (fiveReads.start ⟨#[0]⟩ 0 [97, 10, 10, 0, 98]) x ∧
      x.single fiveReads = .next ⟨x.machine.advance.put 0 98, [], x.written, x.steps + 1⟩ := by
  have hplain : Fetch.plain.Serves [97, 10, 10, 0, 98] := Fetch.serves_plain (by decide)
  have hdone : ∀ q ∈ mixedRequests, q.Serves [97, 10, 10, 0, 98] := by
    simp [mixedRequests, Request.Serves, hplain]
  obtain ⟨x, hruns, hreads, hplace⟩ : ∃ x, Runs (Execution.single fiveReads) 4
      (fiveReads.start ⟨#[0]⟩ 0 [97, 10, 10, 0, 98]) x ∧ x.reads fiveReads = true ∧
      x.machine.tape.place? x.machine.pointer = some 0 :=
    ⟨_, .succ rfl (.succ rfl (.succ rfl (.succ rfl (.zero _)))), rfl, rfl⟩
  obtain ⟨⟨after, hserve, -, -, hcells⟩, hexecutions⟩ := @Memory.input_stores_stream
    ⟨4, #v[1, 2, 3, 4], 0⟩ _ mixedRequests _ 2 .plain 4 hdone hplain rfl (by decide) rfl
  exact ⟨⟨_, after, rfl, hserve, hcells 2, hcells 3⟩, x, hruns,
    (hexecutions fiveReads ⟨#[0]⟩ 0 4 x hruns rfl hreads).1 0 hplace⟩

end Brainfuck
