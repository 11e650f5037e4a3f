import Brainfuck.Program.Listing
import Brainfuck.Proofs.Excerpts
import Brainfuck.Proofs.TreeShape
import Std.Data.String.ToInt

/-!
# Listings can be read back

A listing determines the tree that it was made from.  The blanks in front of its lines do not matter
for that, and with a negative indentation there are fewer of them than levels; what counts is that a
body ends with a line of its own.

Two things have to be seen.  The first line of a node says everything about the node but its body: the
word in front of the parenthesis tells the kinds of nodes apart (`Node.ofWord`), and a number stands
behind the parenthesis unless a body follows.  And the lines of a body come to an end where a line
has no letter in it, since the first line of a node always has one.  So a listing can be read from
the front, whatever stands behind it; this is how `Program.listing_append_inj` is put, and its proof
goes through two trees at once.

* `Node.heading`, `Node.heading_inj`: the first line of a node.
* `Program.listing_append_inj`: lines of two trees, each with something behind them.
* `Program.lines_render`: the lines of the text are the lines of the listing.
* `Program.render_determines`: the text determines the tree, and has a line for each node and one for
  each end of a body.
-/

namespace Brainfuck

namespace Node

/-! ## The first line of a node -/

/-- What stands behind the word for a node in its first line. -/
def payload (n : Node) : String :=
  match n.amount? with
  | some amount => "(" ++ toString amount ++ ")"
  | none => if n.hasBody then "(" else ""

/-- The first line of a node, without the blanks in front. -/
def heading (n : Node) : String := n.kind ++ n.payload

theorem listing_eq (level : Int) (word : String) (n : Node) :
    n.listing level word = (indentation level ++ (word ++ n.payload)) ::
      if n.hasBody then Program.listing (level + 1) n.body ++ [indentation level ++ ")"]
      else [] := by
  cases n with
  | derived name base =>
    rw [listing]
    exact listing_eq level word base
  | _ => simp [listing, payload, amount?, hasBody, body, String.append_assoc]

/-- The node without a body that a word and a number stand for. -/
def ofWord (word : String) (amount : Int) : Node :=
  match word with
  | "MoveRight" => moveRight amount
  | "MoveLeft" => moveLeft amount
  | "Increment" => increment amount
  | "Decrement" => decrement amount
  | "Output" => output
  | "Input" => input
  | "Loop" => loop []
  | "MoveRightUntilZero" => scanRight amount
  | "MoveLeftUntilZero" => scanLeft amount
  | "SetToZero" => clear
  | "WithMultiplier" => scaled []
  | "MoveValueRight" => carryRight amount
  | _ => carryLeft amount

theorem ofWord_kind {n : Node} (h : n.isInstruction = true) :
    ofWord n.kind (n.amount?.getD 0) = n.withBody [] := by
  cases n with
  | foreign _ | derived _ _ => cases h
  | _ => rfl

/-- The word for an instruction has only letters. -/
theorem all_isAlpha_kind {n : Node} (h : n.isInstruction = true) :
    n.kind.toList.all Char.isAlpha = true := by
  cases n with
  | foreign _ | derived _ _ => cases h
  | _ => simp [kind]

theorem isAlpha_of_mem_kind {n : Node} (h : n.isInstruction = true) {c : Char}
    (hc : c ∈ n.kind.toList) : c.isAlpha = true :=
  List.all_eq_true.mp (all_isAlpha_kind h) c hc

theorem exists_mem_kind {n : Node} (h : n.isInstruction = true) : ∃ c, c ∈ n.kind.toList := by
  refine List.exists_mem_of_ne_nil _ ?_
  cases n with
  | foreign _ | derived _ _ => cases h
  | _ => simp [kind]

/-- The word in the first line of a node ends where the letters end. -/
theorem takeWhile_heading {n : Node} (h : n.isInstruction = true) :
    n.heading.toList.takeWhile Char.isAlpha = n.kind.toList := by
  have hpayload : n.payload.toList.takeWhile Char.isAlpha = [] := by
    rw [payload]
    split
    · simp
    · split <;> simp
  rw [heading, String.toList_append, List.takeWhile_append_of_pos fun c => isAlpha_of_mem_kind h,
    hpayload, List.append_nil]

/-- The number in the first line of a node can be read. -/
theorem amount?_of_payload {n m : Node} (h : n.payload = m.payload) : n.amount? = m.amount? := by
  -- What ends with a closing parenthesis has a number in it.
  have hends (k : Node) : k.payload.toList.getLast? = some ')' ↔ k.amount?.isSome = true := by
    rw [payload]
    split
    case h_1 amount hamount => simp [hamount, List.getLast?_cons]
    case h_2 hamount => split <;> simp [hamount]
  have hsome := (hends n).symm.trans (h ▸ hends m)
  cases hn : n.amount? with
  | some a =>
    rw [hn] at hsome
    obtain ⟨b, hm⟩ := Option.isSome_iff_exists.mp (hsome.mp rfl)
    rw [payload, payload, hn, hm] at h
    have htext := (String.append_right_inj _).mp ((String.append_left_inj _).mp h)
    rw [hm, Int.repr_inj.mp htext]
  | none =>
    rw [hn] at hsome
    exact (Option.not_isSome_iff_eq_none.mp fun hm => Bool.noConfusion (hsome.mpr hm)).symm

/-- The first line of a node says everything but its body. -/
theorem heading_inj {n m : Node} (hn : n.isInstruction = true) (hm : m.isInstruction = true)
    (h : n.heading = m.heading) : n.withBody [] = m.withBody [] := by
  have hkind : n.kind = m.kind := by
    rw [← String.toList_inj, ← takeWhile_heading hn, ← takeWhile_heading hm, h]
  have hpayload : n.payload = m.payload := by
    rw [heading, heading, hkind] at h
    exact (String.append_right_inj _).mp h
  rw [← ofWord_kind hn, ← ofWord_kind hm, hkind, amount?_of_payload hpayload]

end Node

/-! ## Lines of two trees -/

/-- The first line of an instruction is not the last line of a body. -/
theorem indentation_heading_ne (level level' : Int) {n : Node} (hn : n.isInstruction = true) :
    indentation level ++ n.heading ≠ indentation level' ++ ")" := by
  intro h
  obtain ⟨c, hc⟩ := Node.exists_mem_kind hn
  have halpha := Node.isAlpha_of_mem_kind hn hc
  have hmem : c ∈ (indentation level' ++ ")").toList := by
    rw [← h, Node.heading]
    simp [hc]
  have hblank : c = ' ' ∨ c = ')' := by
    rw [indentation, String.toList_append, String.toList_ofList, List.mem_append] at hmem
    exact hmem.imp List.eq_of_mem_replicate List.mem_singleton.mp
  rcases hblank with rfl | rfl
  · exact absurd halpha (by decide)
  · exact absurd halpha (by decide)

/-- Lines behind those of a tree: there are none, or the first of them ends a body. -/
def EndsBody (lines : List String) : Prop :=
  ∀ line ∈ lines.head?, ∃ level, line = indentation level ++ ")"

theorem EndsBody.nil : EndsBody [] := by
  intro line hline
  cases hline

theorem EndsBody.cons (level : Int) (lines : List String) :
    EndsBody ((indentation level ++ ")") :: lines) := by
  rintro line hline
  exact ⟨level, (Option.some.inj hline).symm⟩

/-- A tree that is not empty begins with a line that ends no body. -/
theorem EndsBody.ne {s t : List String} (hs : EndsBody s) (level : Int) {n : Node} {p : List Node}
    (hp : Program.every Node.isInstruction (n :: p) = true) :
    s ≠ Program.listing level (n :: p) ++ t := by
  intro h
  rw [Program.listing, Node.listing_eq] at h
  obtain ⟨level', hlevel⟩ := hs (indentation level ++ n.heading) (by rw [h]; rfl)
  rw [Program.every, Bool.and_eq_true] at hp
  exact indentation_heading_ne level level' (Node.isInstruction_of_every hp.1) hlevel

/-- A node can be read from the front of some lines if its body can. -/
theorem Node.listing_append_inj_of_body {n m : Node} (hn : n.isInstruction = true)
    (hm : m.isInstruction = true) {level : Int} {s t : List String}
    (hbody : n.hasBody = true → ∀ {s t : List String}, EndsBody s → EndsBody t →
      Program.listing (level + 1) n.body ++ s = Program.listing (level + 1) m.body ++ t →
        n.body = m.body ∧ s = t)
    (h : n.listing level n.kind ++ s = m.listing level m.kind ++ t) : n = m ∧ s = t := by
  rw [listing_eq, listing_eq, List.cons_append, List.cons_append, List.cons.injEq,
    String.append_right_inj] at h
  obtain ⟨hheading, hrest⟩ := h
  have hsame := heading_inj hn hm hheading
  have hkinds : n.hasBody = m.hasBody := by
    rw [← hasBody_withBody n [], hsame, hasBody_withBody]
  have hparts : n.body = m.body ∧ s = t := by
    cases hhas : n.hasBody with
    | true =>
      rw [← hkinds, hhas, if_pos rfl, if_pos rfl, List.append_assoc, List.append_assoc] at hrest
      obtain ⟨hbodies, hbehind⟩ := hbody hhas (.cons level s) (.cons level t) hrest
      exact ⟨hbodies, (List.cons.inj hbehind).2⟩
    | false =>
      have hhas' := hkinds.symm.trans hhas
      rw [hhas, hhas'] at hrest
      exact ⟨(n.body_of_not_hasBody hhas).trans (m.body_of_not_hasBody hhas').symm, hrest⟩
  refine ⟨?_, hparts.2⟩
  rw [← n.withBody_withBody_body [], hsame, hparts.1, m.withBody_withBody_body]

mutual

theorem Node.listing_append_inj : (n m : Node) → n.every Node.isInstruction = true →
    m.every Node.isInstruction = true → ∀ {level : Int} {s t : List String},
    n.listing level n.kind ++ s = m.listing level m.kind ++ t → n = m ∧ s = t
  | .loop body, m, hn, hm, _, _, _, h | .scaled body, m, hn, hm, _, _, _, h => by
    rw [Node.every_eq _ rfl, Bool.and_eq_true] at hn
    rw [Node.every_eq _ (Node.isInstruction_of_every hm), Bool.and_eq_true] at hm
    exact Node.listing_append_inj_of_body hn.1 hm.1
      (fun _ => Program.listing_append_inj body m.body hn.2 hm.2) h
  | .moveRight _, m, hn, hm, _, _, _, h | .moveLeft _, m, hn, hm, _, _, _, h
  | .increment _, m, hn, hm, _, _, _, h | .decrement _, m, hn, hm, _, _, _, h
  | .output, m, hn, hm, _, _, _, h | .input, m, hn, hm, _, _, _, h
  | .scanRight _, m, hn, hm, _, _, _, h | .scanLeft _, m, hn, hm, _, _, _, h
  | .clear, m, hn, hm, _, _, _, h | .carryRight _, m, hn, hm, _, _, _, h
  | .carryLeft _, m, hn, hm, _, _, _, h => by
    rw [Node.every_eq _ rfl, Bool.and_eq_true] at hn
    rw [Node.every_eq _ (Node.isInstruction_of_every hm), Bool.and_eq_true] at hm
    exact Node.listing_append_inj_of_body hn.1 hm.1 (fun hhas => by cases hhas) h
  | .foreign _, _, hn, _, _, _, _, _ | .derived _ _, _, hn, _, _, _, _, _ => by cases hn

/-- The lines of two trees are the same, with something behind them that begins with no node: then
the trees are the same, and so is what stands behind them. -/
theorem Program.listing_append_inj : (p q : List Node) → Program.every Node.isInstruction p = true →
    Program.every Node.isInstruction q = true → ∀ {level : Int} {s t : List String},
    EndsBody s → EndsBody t → Program.listing level p ++ s = Program.listing level q ++ t →
      p = q ∧ s = t
  | [], [], _, _, _, _, _, _, _, h => ⟨rfl, h⟩
  | [], _ :: _, _, hq, level, _, _, hs, _, h => absurd h (hs.ne level hq)
  | _ :: _, [], hp, _, level, _, _, _, ht, h => absurd h.symm (ht.ne level hp)
  | n :: p, m :: q, hp, hq, _, _, _, hs, ht, h => by
    rw [Program.every, Bool.and_eq_true] at hp hq
    rw [Program.listing, Program.listing, List.append_assoc, List.append_assoc] at h
    obtain ⟨rfl, hrest⟩ := Node.listing_append_inj n m hp.1 hq.1 h
    obtain ⟨rfl, hbehind⟩ := Program.listing_append_inj p q hp.2 hq.2 hs ht hrest
    exact ⟨rfl, hbehind⟩

end

/-! ## The text -/

/-- A line as it may stand in a listing: the first line of an instruction or the end of a body. -/
def IsListed (line : String) : Prop :=
  ∃ level, (∃ n : Node, n.isInstruction = true ∧ line = indentation level ++ n.heading) ∨
    line = indentation level ++ ")"

mutual

theorem Node.isListed_of_mem : (n : Node) → n.every Node.isInstruction = true →
    ∀ {level : Int}, ∀ line ∈ n.listing level n.kind, IsListed line
  | .loop body, hn, level, line, hline | .scaled body, hn, level, line, hline => by
    rw [Node.every, Bool.and_eq_true] at hn
    rw [Node.listing_eq] at hline
    rcases List.mem_cons.mp hline with rfl | hline
    · exact ⟨level, Or.inl ⟨_, hn.1, rfl⟩⟩
    · rcases List.mem_append.mp hline with hline | hline
      · exact Program.isListed_of_mem body hn.2 line hline
      · exact ⟨level, Or.inr (List.mem_singleton.mp hline)⟩
  | .moveRight _, hn, level, line, hline | .moveLeft _, hn, level, line, hline
  | .increment _, hn, level, line, hline | .decrement _, hn, level, line, hline
  | .output, hn, level, line, hline | .input, hn, level, line, hline
  | .scanRight _, hn, level, line, hline | .scanLeft _, hn, level, line, hline
  | .clear, hn, level, line, hline | .carryRight _, hn, level, line, hline
  | .carryLeft _, hn, level, line, hline => by
    rw [Node.listing_eq] at hline
    exact ⟨level, Or.inl ⟨_, hn, List.mem_singleton.mp hline⟩⟩
  | .foreign _, hn, _, _, _ | .derived _ _, hn, _, _, _ => by cases hn

theorem Program.isListed_of_mem : (p : List Node) → Program.every Node.isInstruction p = true →
    ∀ {level : Int}, ∀ line ∈ Program.listing level p, IsListed line
  | [], _, _, _, hline => by cases hline
  | n :: p, hp, _, line, hline => by
    rw [Program.every, Bool.and_eq_true] at hp
    rcases List.mem_append.mp hline with hline | hline
    · exact Node.isListed_of_mem n hp.1 line hline
    · exact Program.isListed_of_mem p hp.2 line hline

end

theorem newline_notMem_toString (amount : Int) : '\n' ∉ (toString amount).toList := by
  have hdigits (k : Nat) : '\n' ∉ Nat.toDigits 10 k := by
    intro hmem
    have hdigit := Nat.isDigit_of_mem_toDigits (by decide) (Nat.le_refl 10) hmem
    exact absurd hdigit (by decide)
  cases amount with
  | ofNat k =>
    rw [show toString (Int.ofNat k) = k.repr from rfl]
    simp [hdigits]
  | negSucc k =>
    rw [show toString (Int.negSucc k) = "-" ++ (k + 1).repr from rfl]
    simp [hdigits]

/-- There is no newline in a line of a listing. -/
theorem IsListed.newline_notMem {line : String} (h : IsListed line) : '\n' ∉ line.toList := by
  have hindent (level : Int) : '\n' ∉ (indentation level).toList := by simp [indentation]
  have hkind {n : Node} (hn : n.isInstruction = true) : '\n' ∉ n.kind.toList := fun hmem =>
    absurd (Node.isAlpha_of_mem_kind hn hmem) (by decide)
  have hpayload (n : Node) : '\n' ∉ n.payload.toList := by
    rw [Node.payload]
    split
    case h_1 amount _ =>
      have hamount := newline_notMem_toString amount
      simp at hamount ⊢
      exact hamount
    case h_2 => split <;> simp
  obtain ⟨level, ⟨n, hn, rfl⟩ | rfl⟩ := h
  · simp [Node.heading, hindent, hkind hn, hpayload]
  · simp [hindent]

mutual

theorem Node.length_listing : (n : Node) → ∀ (level : Int) (word : String),
    (n.listing level word).length = n.size + n.bodies
  | .loop body, level, _ | .scaled body, level, _ => by
    rw [Node.listing_eq, Node.size_add_bodies]
    simp only [Node.hasBody, if_true, Node.body, List.length_cons, List.length_append,
      Program.length_listing body, List.length_nil]
  | .derived _ base, level, word => by
    rw [Node.listing, Node.length_listing base, Node.size_add_bodies, Node.size_add_bodies]
    rfl
  | .moveRight _, _, _ | .moveLeft _, _, _ | .increment _, _, _ | .decrement _, _, _
  | .output, _, _ | .input, _, _ | .scanRight _, _, _ | .scanLeft _, _, _ | .clear, _, _
  | .carryRight _, _, _ | .carryLeft _, _, _ | .foreign _, _, _ => by
    rw [Node.listing_eq]
    rfl

/-- A listing has a line for each node and one for each end of a body. -/
theorem Program.length_listing : (p : List Node) → ∀ (level : Int),
    (Program.listing level p).length = Program.size p + Program.bodies p
  | [], _ => rfl
  | n :: p, level => by
    rw [Program.listing, List.length_append, Node.length_listing n, Program.length_listing p,
      Program.size, Program.bodies_cons]
    omega

end

/-- The lines of the text are those of the listing. -/
theorem Program.lines_render (level : Int) {p : Program}
    (hall : Program.every Node.isInstruction p = true) (hp : p ≠ []) :
    Text.lines (Program.render level p) = Program.listing level p := by
  have hne : (Program.listing level p).map String.toList ≠ [] := by
    obtain ⟨n, q, rfl⟩ := List.exists_cons_of_ne_nil hp
    rw [Program.listing, Node.listing_eq]
    exact List.cons_ne_nil _ _
  have hlines : ∀ l ∈ (Program.listing level p).map String.toList, '\n' ∉ l := by
    intro l hl
    obtain ⟨line, hline, rfl⟩ := List.mem_map.mp hl
    exact (Program.isListed_of_mem p hall line hline).newline_notMem
  rw [Text.lines_eq_splitOn, Program.render, Text.unlines, String.toList_intercalate]
  have hsplit := List.splitOn_intercalate '\n' hlines hne
  rw [show "\n".toList = ['\n'] from rfl, hsplit, List.map_map]
  exact List.map_id'' (fun _ => String.ofList_toList) _

/-- Only the empty tree has an empty text. -/
theorem Program.render_eq_empty {level : Int} {p : Program}
    (hall : Program.every Node.isInstruction p = true) (h : Program.render level p = "") :
    p = [] := by
  by_contra hp
  have hlines := Program.lines_render level hall hp
  obtain ⟨n, q, rfl⟩ := List.exists_cons_of_ne_nil hp
  rw [h, Program.listing, Node.listing_eq] at hlines
  have hfirst : "" = indentation level ++ n.heading := (List.cons.inj hlines).1
  rw [Program.every, Bool.and_eq_true] at hall
  obtain ⟨c, hc⟩ := Node.exists_mem_kind (Node.isInstruction_of_every hall.1)
  have hmem : c ∈ "".toList := by
    rw [hfirst, Node.heading]
    simp [hc]
  cases hmem

/-- **A listing can be read back.**  At any indentation, two trees of instructions have the same text
only if they are the same tree.  The text of a tree that is not empty has a line for each of its
nodes, and one more for each loop and scaled body. -/
theorem Program.render_determines (level : Int) {p q : Program}
    (hp : Program.every Node.isInstruction p = true)
    (hq : Program.every Node.isInstruction q = true) :
    (Program.render level p = Program.render level q ↔ p = q) ∧
      (p ≠ [] → (Text.lines (Program.render level p)).length =
        Program.size p + Program.bodies p) := by
  refine ⟨⟨fun h => ?_, fun h => by rw [h]⟩, fun hne => ?_⟩
  · by_cases hpn : p = []
    · subst hpn
      exact (Program.render_eq_empty hq h.symm).symm
    · by_cases hqn : q = []
      · subst hqn
        exact Program.render_eq_empty hp h
      · have hlines : Program.listing level p = Program.listing level q := by
          rw [← Program.lines_render level hp hpn, h, Program.lines_render level hq hqn]
        exact (Program.listing_append_inj p q hp hq .nil .nil (congrArg (· ++ []) hlines)).1
  · rw [Program.lines_render level hp hne, Program.length_listing]

/-- Without blanks in front, two texts with the same lines in another order: only the end of the
inner loop stands elsewhere. -/
theorem Program.render_determines_unindented :
    let p : Program := [.loop [], .scaled [.loop [], .increment (-3)], .moveRight 0]
    let q : Program := [.loop [], .scaled [.loop [.increment (-3)]], .moveRight 0]
    Program.render (-2) p ≠ Program.render (-2) q ∧
      (Text.lines (Program.render (-2) p)).length = 8 := by
  intro p q
  have h := Program.render_determines (-2) (p := p) (q := q) (by decide) (by decide)
  exact ⟨fun heq => absurd (h.1.mp heq) (by decide), h.2 (by decide)⟩

end Brainfuck
