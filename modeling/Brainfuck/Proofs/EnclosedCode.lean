import Brainfuck.Proofs.Accesses
import Brainfuck.Proofs.Enclosures
import Brainfuck.Proofs.TreeShape

/-!
# The code of a tree keeps its nesting

Code has addresses where a tree has bodies.  Every address in it is an end of an enclosure: a loop
names the address behind its last instruction and the one of its first, a scaled body the one of its
last.  Enclosures do not cross, so a jump that goes from one end of an enclosure to the other never
gets into the middle of a second one.

A slot is a depth.  The code of a node is computed with a number of scaled bodies around it, and that
number is what has been opened and not closed again on the way there from the beginning of the code,
loops or no loops between.

The step from a tree to its code is `Laid`, which speaks of a block that stands anywhere; the parts
of a tree have code that is laid out so, and a sequence or a body keeps it.

* `Program.length_code`: the length of the code of a tree.
* `Laid`, `Program.laid_of_code`: what the code of a tree looks like, wherever it stands.
* `WellEnclosed`, `WellEnclosed.jump_from_inside`: whole programs and their jumps.
* `Program.wellEnclosed_of_flatten`: the code of a program is well enclosed.
-/

namespace Brainfuck

variable {address depth : Nat} {block : List Instr}

/-! ## Length -/

mutual

theorem Node.length_code : (n : Node) → ∀ {address depth slot block},
    n.code address depth slot = .ok block → block.length = n.size + n.bodies
  | .moveRight _, _, _, _, _, rfl | .moveLeft _, _, _, _, _, rfl | .increment _, _, _, _, _, rfl
  | .decrement _, _, _, _, _, rfl | .output, _, _, _, _, rfl | .input, _, _, _, _, rfl
  | .scanRight _, _, _, _, _, rfl | .scanLeft _, _, _, _, _, rfl | .clear, _, _, _, _, rfl
  | .carryRight _, _, _, _, _, rfl | .carryLeft _, _, _, _, _, rfl => rfl
  | .loop body, _, _, _, _, hblock => by
    obtain ⟨inner, hinner, rfl⟩ := Node.code_loop hblock
    rw [Node.size_add_bodies, List.length_append, List.length_cons, Program.length_code body hinner]
    rfl
  | .scaled body, _, _, _, _, hblock => by
    obtain ⟨inner, hinner, rfl⟩ := Node.code_scaled hblock
    rw [Node.size_add_bodies, List.length_append, List.length_cons, Program.length_code body hinner]
    rfl
  | .derived _ base, _, _, _, _, hblock => by
    rw [Node.length_code base (Node.code_derived hblock), Node.size_add_bodies, Node.size_add_bodies]
    rfl
  | .foreign _, _, _, _, _, hblock => by cases hblock

/-- A tree has an instruction for every node, and one more for the end of every body. -/
theorem Program.length_code : (p : List Node) → ∀ {address depth slot block},
    Program.code address depth slot p = .ok block →
      block.length = Program.size p + Program.bodies p
  | [], _, _, _, _, rfl => rfl
  | n :: p, _, _, _, _, hblock => by
    obtain ⟨first, rest, hfirst, hrest, rfl⟩ := Program.code_cons hblock
    rw [List.length_append, Node.length_code n hfirst, Program.length_code p hrest, Program.size,
      Program.bodies_cons]
    omega

end

/-! ## The layout of a block -/

/-- How many enclosures of scaled bodies a list of instructions opens. -/
def scalesOpened (code : List Instr) : Nat := code.countP (·.opens? == some .scaled)

/-- How many enclosures of scaled bodies a list of instructions closes. -/
def scalesClosed (code : List Instr) : Nat := code.countP (·.closes? == some .scaled)

/-- Nested code closes as many enclosures as it opens. -/
theorem Nested.scalesClosed_eq (h : Nested block) : scalesClosed block = scalesOpened block := by
  have hcount := h.ncard_openAt .scaled (Nat.le_refl _)
  have hempty : openAt block .scaled block.length = ∅ :=
    Set.eq_empty_iff_forall_notMem.mpr fun _ hends =>
      Nat.not_lt_of_le hends.2.2 hends.1.last_lt
  rwa [hempty, Set.ncard_empty, Nat.zero_add, List.take_length] at hcount

/-- An instruction of a block is what the enclosures of the block want it to be.  The block stands at
an address, with a number of scaled bodies around it, and the instruction in a place of the block. -/
def Instr.Placed (block : List Instr) (address depth place : Nat) : Instr → Prop
  | .loopStart behind => ∃ last, Enclosure block .loop place last ∧ behind = address + last + 1
  | .loopEnd start => ∃ first, Enclosure block .loop first place ∧ start = address + first
  | .scale stop slot => (∃ last, Enclosure block .scaled place last ∧ stop = address + last) ∧
      slot + scalesClosed (block.take place) = depth + scalesOpened (block.take place)
  | _ => True

/-- What is right in a block is right in a longer one, where the depth of the block is what it takes
from the outside. -/
theorem Instr.Placed.embed {i : Instr} {place depth' : Nat} (front back : List Instr)
    (h : i.Placed block (address + front.length) depth' place) (hplace : place ≤ block.length)
    (hdepth : depth' + scalesClosed front = depth + scalesOpened front) :
    i.Placed (front ++ (block ++ back)) address depth (front.length + place) := by
  have htake : (front ++ (block ++ back)).take (front.length + place) =
      front ++ block.take place := by
    rw [List.take_length_add_append, List.take_append_of_le_length hplace]
  cases i with
  | loopStart behind =>
    obtain ⟨last, hlast, rfl⟩ := h
    exact ⟨_, hlast.embed front back, by omega⟩
  | loopEnd start =>
    obtain ⟨first, hfirst, rfl⟩ := h
    exact ⟨_, hfirst.embed front back, by omega⟩
  | scale stop slot =>
    obtain ⟨⟨last, hlast, rfl⟩, hslot⟩ := h
    refine ⟨⟨_, hlast.embed front back, by omega⟩, ?_⟩
    rw [scalesClosed, scalesOpened] at hdepth hslot ⊢
    rw [htake, List.countP_append, List.countP_append]
    omega
  | _ => trivial

/-- A block that stands at an address, with a number of scaled bodies around it: it is nested, and
every instruction is what its enclosures want it to be. -/
structure Laid (address depth : Nat) (block : List Instr) : Prop where
  nested : Nested block
  placed : ∀ place (i : Instr), block[place]? = some i → i.Placed block address depth place

namespace Laid

variable {i j : Instr} {inner first rest : List Instr}

theorem nil : Laid address depth [] :=
  ⟨.nil, fun _ _ h => by cases h⟩

theorem single (ho : i.opens? = none) (hc : i.closes? = none) : Laid address depth [i] := by
  refine ⟨.plain ho hc .nil, fun place i' h => ?_⟩
  obtain rfl : i' = i := List.mem_singleton.mp (List.mem_of_getElem? h)
  cases i' with
  | loopStart _ | scale _ _ => cases ho
  | loopEnd _ => cases hc
  | _ => trivial

theorem append (hfirst : Laid address depth first)
    (hrest : Laid (address + first.length) depth rest) : Laid address depth (first ++ rest) := by
  refine ⟨hfirst.nested.append hrest.nested, fun place i h => ?_⟩
  rw [List.getElem?_append] at h
  split at h
  case isTrue hlt =>
    have hplaced := (hfirst.placed place i h).embed [] rest (Nat.le_of_lt hlt) rfl
    rwa [List.nil_append, List.length_nil, Nat.zero_add] at hplaced
  case isFalse hge =>
    have hlt := (List.getElem?_eq_some_iff.mp h).1
    have hplaced := (hrest.placed _ i h).embed first [] (Nat.le_of_lt hlt)
      (congrArg (depth + ·) hfirst.nested.scalesClosed_eq)
    rwa [List.append_nil, Nat.add_sub_cancel' (Nat.le_of_not_lt hge)] at hplaced

/-- A body between two instructions that open and close an enclosure.  Inside, one more scaled body
is around if the enclosure is one. -/
theorem enclosed (kind : EnclosureKind) (hi : i.opens? = some kind) (hj : j.closes? = some kind)
    (hinner : Laid (address + 1) (depth + if kind = .scaled then 1 else 0) inner)
    (hfirst : i.Placed (i :: (inner ++ [j])) address depth 0)
    (hlast : j.Placed (i :: (inner ++ [j])) address depth (inner.length + 1)) :
    Laid address depth (i :: (inner ++ [j])) := by
  refine ⟨.enclosed kind hi hj hinner.nested .nil, fun place i' h => ?_⟩
  rcases getElem?_enclosed h with ⟨rfl, rfl⟩ | ⟨k, rfl, hk⟩ | ⟨rfl, rfl⟩ | ⟨k, -, hk⟩
  · exact hfirst
  · have hlt := (List.getElem?_eq_some_iff.mp hk).1
    refine (hinner.placed k i' hk).embed [i] [j] (Nat.le_of_lt hlt) ?_
    simp only [scalesClosed, scalesOpened, List.countP_singleton, hi, Instr.closes?_of_opens? hi,
      beq_iff_eq, Option.some.injEq, reduceCtorEq, if_false, Nat.add_zero]
  · exact hlast
  · cases hk

end Laid

mutual

theorem Node.laid_of_code : (n : Node) → ∀ {address depth slot block},
    n.code address depth slot = .ok block → Laid address depth block
  | .moveRight _, _, _, _, _, rfl | .moveLeft _, _, _, _, _, rfl | .increment _, _, _, _, _, rfl
  | .decrement _, _, _, _, _, rfl | .output, _, _, _, _, rfl | .input, _, _, _, _, rfl
  | .scanRight _, _, _, _, _, rfl | .scanLeft _, _, _, _, _, rfl | .clear, _, _, _, _, rfl
  | .carryRight _, _, _, _, _, rfl | .carryLeft _, _, _, _, _, rfl => .single rfl rfl
  | .loop body, address, _, _, _, hblock => by
    obtain ⟨inner, hcode, rfl⟩ := Node.code_loop hblock
    have hinner := Program.laid_of_code body hcode
    have hends := Nested.enclosure_head (i := .loopStart (address + inner.length + 2))
      (j := .loopEnd address) rfl rfl hinner.nested []
    exact .enclosed .loop rfl rfl hinner ⟨_, hends, by omega⟩ ⟨0, hends, rfl⟩
  | .scaled body, address, depth, _, _, hblock => by
    obtain ⟨inner, hcode, rfl⟩ := Node.code_scaled hblock
    have hinner := Program.laid_of_code body hcode
    have hends := Nested.enclosure_head (i := .scale (address + inner.length + 1) depth)
      (j := .unscale) rfl rfl hinner.nested []
    exact .enclosed .scaled rfl rfl hinner ⟨⟨_, hends, by omega⟩, rfl⟩ trivial
  | .derived _ base, _, _, _, _, hblock => Node.laid_of_code base (Node.code_derived hblock)
  | .foreign _, _, _, _, _, hblock => by cases hblock

/-- The code of a tree is laid out as its enclosures want it to be. -/
theorem Program.laid_of_code : (p : List Node) → ∀ {address depth slot block},
    Program.code address depth slot p = .ok block → Laid address depth block
  | [], _, _, _, _, rfl => .nil
  | n :: p, _, _, _, _, hblock => by
    obtain ⟨first, rest, hfirst, hrest, rfl⟩ := Program.code_cons hblock
    exact .append (Node.laid_of_code n hfirst) (Program.laid_of_code p hrest)

end

/-! ## Whole programs -/

/-- Code from the first address on, in which the arguments of the instructions agree with the
enclosures: the start of a loop names the address behind its end, the end of a loop its start, and
the start of a scaled body its end.  The slot of a scaled body is the number of scaled bodies around
it. -/
structure WellEnclosed (code : List Instr) : Prop where
  nested : Nested code
  loopStart : ∀ first behind, code[first]? = some (.loopStart behind) →
    ∃ last, Enclosure code .loop first last ∧ behind = last + 1
  loopEnd : ∀ last start, code[last]? = some (.loopEnd start) → Enclosure code .loop start last
  scale : ∀ first stop slot, code[first]? = some (.scale stop slot) →
    Enclosure code .scaled first stop
  unscale : ∀ last, code[last]? = some .unscale → ∃ first, Enclosure code .scaled first last
  slot : ∀ first stop slot, code[first]? = some (.scale stop slot) →
    slot = Set.ncard {ends : Nat × Nat |
      Enclosure code .scaled ends.1 ends.2 ∧ ends.1 < first ∧ first < ends.2}

theorem Laid.wellEnclosed {code : List Instr} (h : Laid 0 0 code) : WellEnclosed code where
  nested := h.nested
  loopStart first behind hat := by
    obtain ⟨last, hlast, rfl⟩ := h.placed first _ hat
    exact ⟨last, hlast, by rw [Nat.zero_add]⟩
  loopEnd last start hat := by
    obtain ⟨first, hfirst, rfl⟩ := h.placed last _ hat
    rwa [Nat.zero_add]
  scale first stop slot hat := by
    obtain ⟨⟨last, hlast, rfl⟩, -⟩ := h.placed first _ hat
    rwa [Nat.zero_add]
  unscale last hat := h.nested.exists_first hat rfl
  slot first stop slot hat := by
    obtain ⟨⟨last, hends, -⟩, hslot⟩ := h.placed first _ hat
    have hcount := h.nested.ncard_openAt .scaled
      (Nat.le_of_lt (Nat.lt_trans hends.lt hends.last_lt))
    -- An address where an enclosure begins is not one where another ends.
    have haround : openAt code .scaled first = {ends : Nat × Nat |
        Enclosure code .scaled ends.1 ends.2 ∧ ends.1 < first ∧ first < ends.2} := by
      ext ends
      refine and_congr_right fun hother => and_congr_right fun _ => ?_
      have hne := hends.first_ne_last hother
      omega
    rw [← haround]
    rw [scalesClosed, scalesOpened] at hslot
    omega

namespace WellEnclosed

variable {code : List Instr} {i : Instr} {place target first last : Nat} {kind : EnclosureKind}

/-- A jump goes to an end of an enclosure or behind one. -/
theorem target_le (h : WellEnclosed code) (hat : code[place]? = some i)
    (htarget : i.target? = some target) : target ≤ code.length := by
  cases i with
  | loopStart behind =>
    obtain rfl : behind = target := Option.some.inj htarget
    obtain ⟨last, hends, rfl⟩ := h.loopStart place behind hat
    exact hends.last_lt
  | loopEnd start =>
    obtain rfl : start = target := Option.some.inj htarget
    have hends := h.loopEnd place start hat
    exact Nat.le_of_lt (Nat.lt_trans hends.lt hends.last_lt)
  | scale stop slot =>
    obtain rfl : stop = target := Option.some.inj htarget
    exact Nat.le_of_lt (h.scale place stop slot hat).last_lt
  | _ => cases htarget

/-- A jump to a place behind the first instruction of an enclosure, and not behind the last one,
comes from that first instruction or from between the two. -/
theorem jump_from_inside (h : WellEnclosed code) (hat : code[place]? = some i)
    (htarget : i.target? = some target) (hother : Enclosure code kind first last)
    (hlt : first < target) (hle : target ≤ last) :
    first = place ∨ first < place ∧ place < last := by
  -- The enclosure that the jump belongs to and the other one do not cross.
  cases i with
  | loopStart behind =>
    obtain rfl : behind = target := Option.some.inj htarget
    obtain ⟨stop, hends, rfl⟩ := h.loopStart place behind hat
    have hne := hother.first_ne_last hends
    exact hends.eq_or_around hother (by omega) (by omega)
  | loopEnd start =>
    obtain rfl : start = target := Option.some.inj htarget
    have hends := h.loopEnd place start hat
    have hlt' := hends.lt
    have hne := hends.first_ne_last hother
    have := hother.apart_or_inside hends hlt
    omega
  | scale stop slot =>
    obtain rfl : stop = target := Option.some.inj htarget
    exact (h.scale place stop slot hat).eq_or_around hother hlt hle
  | _ => cases htarget

end WellEnclosed

/-- **Flat code is well enclosed.**  The code of a program has an instruction for every node and one
more for every body, with an argument and a slot for each.  Its enclosures are properly nested, and
the addresses and slots in it are theirs.  Every jump goes to an address of the code or to its end,
and into the middle of no enclosure that it does not belong to or come from.  The number of slots is
the greatest number of scaled bodies on the way from the root to a node. -/
theorem Program.wellEnclosed_of_flatten {q : Program} {p : FlatCode} (hp : q.flatten = .ok p) :
    (p.code.map Instr.opcode).size = Program.size q + Program.bodies q ∧
    (p.code.map Instr.argument).size = Program.size q + Program.bodies q ∧
    (p.code.map Instr.slot?).size = Program.size q + Program.bodies q ∧
    WellEnclosed p.code.toList ∧
    (∀ place i target, p.code[place]? = some i → i.target? = some target →
      target ≤ p.code.size ∧
      ∀ kind first last, Enclosure p.code.toList kind first last →
        first < target → target ≤ last → first = place ∨ first < place ∧ place < last) ∧
    IsGreatest {k | ∃ way, Program.Lineage q way ∧ way.countP Node.isScaled = k} p.slots := by
  obtain ⟨block, hblock, rfl⟩ := Program.code_of_flatten hp
  have hlength := Program.length_code q hblock
  have henclosed := (Program.laid_of_code q hblock).wellEnclosed
  simp only [Array.size_map, List.size_toArray, List.getElem?_toArray]
  refine ⟨hlength, hlength, hlength, henclosed, fun place i target hat htarget => ?_,
    Program.isGreatest_scaleDepth q⟩
  exact ⟨henclosed.target_le hat htarget, fun kind first last hother =>
    henclosed.jump_from_inside hat htarget hother⟩

/-- A scaled body in a loop in a scaled body: the inner one has slot 1, its jump is to the end of its
own enclosure, and the loop ends behind that. -/
theorem Program.wellEnclosed_of_flatten_nested :
    ∃ p, Program.flatten
        [.scaled [.loop [.scaled [.increment 3], .moveLeft 1], .moveRight 1]] = .ok p ∧
      p.code[2]? = some (.scale 4 1) ∧ (p.code.map Instr.argument).size = 9 ∧
      Enclosure p.code.toList .scaled 2 4 ∧ Enclosure p.code.toList .loop 1 6 ∧
      Enclosure p.code.toList .scaled 0 8 ∧
      Set.ncard {ends : Nat × Nat |
        Enclosure p.code.toList .scaled ends.1 ends.2 ∧ ends.1 < 2 ∧ 2 < ends.2} = 1 := by
  obtain ⟨-, hlength, -, henclosed, -⟩ := Program.wellEnclosed_of_flatten
    (q := [.scaled [.loop [.scaled [.increment 3], .moveLeft 1], .moveRight 1]]) rfl
  exact ⟨_, rfl, rfl, hlength, henclosed.scale 2 4 1 rfl, henclosed.loopEnd 6 1 rfl,
    henclosed.scale 0 8 0 rfl, (henclosed.slot 2 4 1 rfl).symm⟩

end Brainfuck
