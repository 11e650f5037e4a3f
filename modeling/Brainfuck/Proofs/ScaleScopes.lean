import Brainfuck.Proofs.Flattening
import Mathlib.Data.List.Forall2

/-!
# Which scale a change has

A change of the cell is multiplied by the scale of the body that it stands in directly.  Whether there
is one, and which, can be read off the tree: the innermost loop or scaled body around the change
decides, and only if it is a scaled body there is a scale.  Scaled bodies are told apart by their
numbers, counted in the order in which they begin.

Flat code names a register instead.  The changes in it come in the order of the tree, and so do the
instructions that load a register; so the number of a scaled body is the number of its load.  The
registers are used again: a region may load the register that an earlier one has loaded, but inside of
a region only registers behind its own are loaded, so the value is there as long as it is needed.

A piece of code is looked at in its place in the whole code (`Part`), since the region of a change may
have begun long before.

* `Program.changes`: the changes of a tree, each with what holds it.
* `Program.scaledBodies`: the scaled bodies of a tree.
* `ScaleRegion`: the code of a scaled body in the whole code.
* `Program.flat_changes`: the changes in flat code name the registers of their regions.
-/

namespace Brainfuck

/-! ## Changes of a tree -/

/-- The innermost loop or scaled body around a node. -/
inductive Holder where
  /-- There is none. -/
  | program
  | loop
  /-- A scaled body, with the number of those that begin before it. -/
  | scaled (number : Nat)
deriving DecidableEq, Repr

/-- A change of the current cell in a tree. -/
structure Change where
  subtracts : Bool
  amount : Int
  holder : Holder
deriving DecidableEq, Repr

/-- Whether what holds a change is a scaled body. -/
def Change.isScaled (c : Change) : Bool :=
  match c.holder with
  | .scaled _ => true
  | .program | .loop => false

mutual

/-- The scaled bodies of a node, in the order in which they begin. -/
def Node.scaledBodies : Node → List (List Node)
  | .loop body => Program.scaledBodies body
  | .scaled body => body :: Program.scaledBodies body
  | .derived _ base => base.scaledBodies
  | _ => []

/-- The scaled bodies of a program, in the order in which they begin. -/
def Program.scaledBodies : List Node → List (List Node)
  | [] => []
  | n :: p => n.scaledBodies ++ Program.scaledBodies p

end

mutual

/-- The changes of a node in order, where a number of scaled bodies begin before the node. -/
def Node.changes (number : Nat) (holder : Holder) : Node → List Change
  | .increment n => [⟨false, n, holder⟩]
  | .decrement n => [⟨true, n, holder⟩]
  | .loop body => Program.changes number .loop body
  | .scaled body => Program.changes (number + 1) (.scaled number) body
  | .derived _ base => base.changes number holder
  | _ => []

/-- The changes of a sequence in order, where a number of scaled bodies begin before it. -/
def Program.changes (number : Nat) (holder : Holder) : List Node → List Change
  | [] => []
  | n :: p => n.changes number holder ++ Program.changes (number + n.scaledBodies.length) holder p

end

/-! ## Changes and regions in flat code -/

namespace Instr

/-- Whether an instruction changes the cell by an amount. -/
def isChange : Instr → Bool
  | add _ _ | sub _ _ => true
  | _ => false

/-- Whether an instruction loads a scale register. -/
def isScale : Instr → Bool
  | scale _ _ => true
  | _ => false

end Instr

/-- The instruction of a change, with a scale register or without. -/
def Change.instr (c : Change) (slot : Option Nat) : Instr :=
  if c.subtracts then .sub (.ofInt c.amount) slot else .add (.ofInt c.amount) slot

theorem Change.slot?_instr (c : Change) (slot : Option Nat) : (c.instr slot).slot? = slot := by
  rw [instr]
  split <;> rfl

/-- The instruction with a number among those that load a register is the beginning of a region: it
loads the given register, behind it stands the code of the given body, and then the region ends.
Inside the region nothing loads that register. -/
structure ScaleRegion (code : List Instr) (number slot : Nat) (body : List Node) : Prop where
  exists_region : ∃ front inner back,
    code = front ++ .scale (front.length + inner.length + 1) slot :: inner ++ .unscale :: back ∧
      front.countP Instr.isScale = number ∧
      Program.code (front.length + 1) (slot + 1) (some slot) body = .ok inner ∧
      ∀ i ∈ inner, i.isScale = true → i.slot? ≠ some slot

/-- The slot of a change with the given holder: that of the region of the scaled body, if it is one. -/
def Holder.HasSlot (code : List Instr) (bodies : List (List Node)) : Holder → Option Nat → Prop
  | .program, slot | .loop, slot => slot = none
  | .scaled number, slot => ∃ s body, slot = some s ∧ bodies[number]? = some body ∧
    ScaleRegion code number s body

/-- A change has a slot if it is scaled. -/
theorem Holder.HasSlot.isSome_eq {code : List Instr} {bodies : List (List Node)} {c : Change}
    {slot : Option Nat} (h : c.holder.HasSlot code bodies slot) : slot.isSome = c.isScaled := by
  rw [Change.isScaled]
  cases hholder : c.holder with
  | program | loop =>
    rw [hholder] at h
    obtain rfl : slot = none := h
    rfl
  | scaled number =>
    rw [hholder] at h
    obtain ⟨s, body, rfl, -⟩ := h
    rfl

/-- An instruction is that of a change and has the right slot. -/
def Change.FlatIn (code : List Instr) (bodies : List (List Node)) (c : Change) (i : Instr) : Prop :=
  ∃ slot, i = c.instr slot ∧ c.holder.HasSlot code bodies slot

/-! ## Loads of registers -/

/-- What a piece of code loads: as many registers as there are bodies, none before the given one. -/
structure Loads (depth : Nat) (bodies : List (List Node)) (block : List Instr) : Prop where
  count : block.countP Instr.isScale = bodies.length
  le_slot : ∀ i ∈ block, i.isScale = true → ∀ s, i.slot? = some s → depth ≤ s

namespace Loads

variable {depth depth' : Nat} {bodies bodies' : List (List Node)} {block block' : List Instr}

theorem nil (depth : Nat) : Loads depth [] [] := ⟨rfl, fun _ hi => absurd hi List.not_mem_nil⟩

theorem other {i : Instr} (hi : i.isScale = false) (depth : Nat) : Loads depth [] [i] where
  count := by rw [List.countP_singleton, if_neg (by rw [hi]; exact Bool.false_ne_true)]; rfl
  le_slot j hj hscale := by
    rw [List.mem_singleton.mp hj, hi] at hscale
    cases hscale

theorem scale (stop depth : Nat) (body : List Node) : Loads depth [body] [.scale stop depth] where
  count := rfl
  le_slot i hi _ s hs := by
    rw [List.mem_singleton.mp hi] at hs
    exact Nat.le_of_eq (Option.some.inj hs)

theorem append (h : Loads depth bodies block) (h' : Loads depth bodies' block') :
    Loads depth (bodies ++ bodies') (block ++ block') where
  count := by rw [List.countP_append, List.length_append, h.count, h'.count]
  le_slot i hi := (List.mem_append.mp hi).elim (h.le_slot i) (h'.le_slot i)

theorem mono (h : Loads depth' bodies block) (hle : depth ≤ depth') : Loads depth bodies block where
  count := h.count
  le_slot i hi hscale s hs := Nat.le_trans hle (h.le_slot i hi hscale s hs)

end Loads

mutual

theorem Node.loads_code {address depth : Nat} {slot : Option Nat} {block : List Instr} :
    (n : Node) → n.code address depth slot = .ok block → Loads depth n.scaledBodies block
  | .loop body, h => by
    obtain ⟨inner, hinner, rfl⟩ := Node.code_loop h
    have hbody := Program.loads_code body hinner
    rw [Node.scaledBodies, ← List.append_nil (Program.scaledBodies body)]
    exact ((Loads.other rfl depth).append hbody).append (.other rfl depth)
  | .scaled body, h => by
    obtain ⟨inner, hinner, rfl⟩ := Node.code_scaled h
    have hbody := (Program.loads_code body hinner).mono (Nat.le_succ depth)
    rw [Node.scaledBodies, ← List.append_nil (_ :: _)]
    exact ((Loads.scale _ depth body).append hbody).append (.other rfl depth)
  | .moveRight _, h | .moveLeft _, h | .increment _, h | .decrement _, h | .output, h | .input, h
  | .scanRight _, h | .scanLeft _, h | .clear, h | .carryRight _, h | .carryLeft _, h => by
    obtain rfl := Except.ok.inj h
    exact .other rfl depth
  | .foreign _, h => by cases h
  | .derived _ base, h => Node.loads_code base (Node.code_derived h)

/-- The code of a sequence loads a register for each scaled body, none of those around it. -/
theorem Program.loads_code {address depth : Nat} {slot : Option Nat} {block : List Instr} :
    (p : List Node) → Program.code address depth slot p = .ok block →
      Loads depth (Program.scaledBodies p) block
  | [], h => by
    obtain rfl := Except.ok.inj h
    exact .nil depth
  | n :: p, h => by
    obtain ⟨first, rest, hfirst, hrest, rfl⟩ := Program.code_cons h
    exact (Node.loads_code n hfirst).append (Program.loads_code p hrest)

end

/-! ## Code in its place -/

/-- The scaled bodies of a part of a tree among those of the whole tree, behind a number of others. -/
def BodiesAt (bodies : List (List Node)) (number : Nat) (own : List (List Node)) : Prop :=
  ∃ before after, bodies = before ++ own ++ after ∧ before.length = number

namespace BodiesAt

variable {bodies own own' : List (List Node)} {body : List Node} {number : Nat}

theorem left (h : BodiesAt bodies number (own ++ own')) : BodiesAt bodies number own := by
  obtain ⟨before, after, hbodies, hbefore⟩ := h
  refine ⟨before, own' ++ after, ?_, hbefore⟩
  rw [hbodies, List.append_assoc, List.append_assoc, List.append_assoc]

theorem right (h : BodiesAt bodies number (own ++ own')) :
    BodiesAt bodies (number + own.length) own' := by
  obtain ⟨before, after, hbodies, hbefore⟩ := h
  refine ⟨before ++ own, after, ?_, ?_⟩
  · rw [hbodies, ← List.append_assoc]
  · rw [List.length_append, hbefore]

theorem getElem?_eq (h : BodiesAt bodies number (body :: own)) : bodies[number]? = some body := by
  obtain ⟨before, after, hbodies, hbefore⟩ := h
  rw [hbodies, ← hbefore, List.append_assoc, List.getElem?_append_right (Nat.le_refl _), Nat.sub_self]
  rfl

end BodiesAt

/-- A piece of code in the whole code, at an address and behind a number of loads, with its scaled
bodies behind as many others. -/
structure Part (code : List Instr) (bodies : List (List Node)) (address number : Nat)
    (block : List Instr) (own : List (List Node)) : Prop where
  code_eq : ∃ front back, code = front ++ block ++ back ∧ front.length = address ∧
    front.countP Instr.isScale = number
  bodiesAt : BodiesAt bodies number own

namespace Part

variable {code block block' : List Instr} {bodies own own' : List (List Node)} {address number : Nat}

theorem left (h : Part code bodies address number (block ++ block') (own ++ own')) :
    Part code bodies address number block own := by
  obtain ⟨front, back, hcode, haddress, hnumber⟩ := h.code_eq
  refine ⟨⟨front, block' ++ back, ?_, haddress, hnumber⟩, h.bodiesAt.left⟩
  rw [hcode, List.append_assoc, List.append_assoc, List.append_assoc]

theorem right (h : Part code bodies address number (block ++ block') (own ++ own')) {depth : Nat}
    (hloads : Loads depth own block) :
    Part code bodies (address + block.length) (number + own.length) block' own' := by
  obtain ⟨front, back, hcode, haddress, hnumber⟩ := h.code_eq
  refine ⟨⟨front ++ block, back, ?_, ?_, ?_⟩, h.bodiesAt.right⟩
  · rw [hcode, ← List.append_assoc]
  · rw [List.length_append, haddress]
  · rw [List.countP_append, hnumber, hloads.count]

/-- The body of a loop. -/
theorem loop {i j : Instr} (h : Part code bodies address number (i :: block ++ [j]) own)
    (hi : i.isScale = false) : Part code bodies (address + 1) number block own := by
  rw [← List.append_nil own] at h
  have hfront : Part code bodies address number ([i] ++ block) ([] ++ own) := h.left
  exact hfront.right (Loads.other hi 0)

/-- A scaled body. -/
theorem scaled {stop slot : Nat} {body : List Node}
    (h : Part code bodies address number (.scale stop slot :: block ++ [.unscale]) (body :: own)) :
    Part code bodies (address + 1) (number + 1) block own := by
  rw [← List.append_nil (body :: own)] at h
  have hfront : Part code bodies address number ([.scale stop slot] ++ block) ([body] ++ own) :=
    h.left
  exact hfront.right (Loads.scale stop slot body)

/-- The region of a scaled body. -/
theorem hasSlot {depth : Nat} {body : List Node} {inner : List Instr}
    (h : Part code bodies address number
      (.scale (address + inner.length + 1) depth :: inner ++ [.unscale]) (body :: own))
    (hinner : Program.code (address + 1) (depth + 1) (some depth) body = .ok inner) :
    (Holder.scaled number).HasSlot code bodies (some depth) := by
  obtain ⟨front, back, hcode, rfl, hnumber⟩ := h.code_eq
  refine ⟨depth, body, rfl, h.bodiesAt.getElem?_eq, ⟨front, inner, back, ?_, hnumber, hinner, ?_⟩⟩
  · rw [hcode, List.append_assoc, List.append_assoc, List.append_assoc]
    rfl
  · -- What is inside has more scaled bodies around it.
    intro i hi hscale hslot
    have := (Program.loads_code body hinner).le_slot i hi hscale depth hslot
    omega

end Part

/-! ## The changes in flat code -/

/-- The changes of a body are those between the instructions around it. -/
theorem filter_isChange_enclosed {i j : Instr} (hi : i.isChange = false) (hj : j.isChange = false)
    (block : List Instr) :
    (i :: block ++ [j]).filter Instr.isChange = block.filter Instr.isChange := by
  simp [hi, hj]

mutual

theorem Node.flat_changes {code block : List Instr} {bodies : List (List Node)}
    {address number depth : Nat} {slot : Option Nat} {holder : Holder} :
    (n : Node) → n.code address depth slot = .ok block →
      Part code bodies address number block n.scaledBodies → holder.HasSlot code bodies slot →
      List.Forall₂ (Change.FlatIn code bodies) (n.changes number holder)
        (block.filter Instr.isChange)
  | .increment _, h, _, hslot | .decrement _, h, _, hslot => by
    obtain rfl := Except.ok.inj h
    exact .cons ⟨slot, rfl, hslot⟩ .nil
  | .loop body, h, hpart, _ => by
    obtain ⟨inner, hinner, rfl⟩ := Node.code_loop h
    have hslot : Holder.loop.HasSlot code bodies none := rfl
    rw [filter_isChange_enclosed rfl rfl]
    exact Program.flat_changes body hinner (hpart.loop rfl) hslot
  | .scaled body, h, hpart, _ => by
    obtain ⟨inner, hinner, rfl⟩ := Node.code_scaled h
    rw [filter_isChange_enclosed rfl rfl]
    exact Program.flat_changes body hinner hpart.scaled (hpart.hasSlot hinner)
  | .moveRight _, h, _, _ | .moveLeft _, h, _, _ | .output, h, _, _ | .input, h, _, _
  | .scanRight _, h, _, _ | .scanLeft _, h, _, _ | .clear, h, _, _ | .carryRight _, h, _, _
  | .carryLeft _, h, _, _ => by
    obtain rfl := Except.ok.inj h
    exact .nil
  | .foreign _, h, _, _ => by cases h
  | .derived _ base, h, hpart, hslot => Node.flat_changes base (Node.code_derived h) hpart hslot

/-- The changes of a sequence are in its code in order, each with the slot of its region. -/
theorem Program.flat_changes {code block : List Instr} {bodies : List (List Node)}
    {address number depth : Nat} {slot : Option Nat} {holder : Holder} :
    (p : List Node) → Program.code address depth slot p = .ok block →
      Part code bodies address number block (Program.scaledBodies p) →
      holder.HasSlot code bodies slot →
      List.Forall₂ (Change.FlatIn code bodies) (Program.changes number holder p)
        (block.filter Instr.isChange)
  | [], h, _, _ => by
    obtain rfl := Except.ok.inj h
    exact .nil
  | n :: p, h, hpart, hslot => by
    obtain ⟨first, rest, hfirst, hrest, rfl⟩ := Program.code_cons h
    rw [List.filter_append]
    exact List.rel_append (Node.flat_changes n hfirst hpart.left hslot)
      (Program.flat_changes p hrest (hpart.right (Node.loads_code n hfirst)) hslot)

end

/-! ## Trees of instructions -/

mutual

theorem Node.exists_code_of_isInstruction (address depth : Nat) (slot : Option Nat) :
    (n : Node) → n.every Node.isInstruction = true → ∃ block, n.code address depth slot = .ok block
  | .loop body, h => by
    rw [Node.every, Bool.and_eq_true] at h
    obtain ⟨inner, hinner⟩ :=
      Program.exists_code_of_isInstruction (address + 1) depth none body h.2
    rw [Node.code, hinner]
    exact ⟨_, rfl⟩
  | .scaled body, h => by
    rw [Node.every, Bool.and_eq_true] at h
    obtain ⟨inner, hinner⟩ :=
      Program.exists_code_of_isInstruction (address + 1) (depth + 1) (some depth) body h.2
    rw [Node.code, hinner]
    exact ⟨_, rfl⟩
  | .moveRight _, _ | .moveLeft _, _ | .increment _, _ | .decrement _, _ | .output, _ | .input, _
  | .scanRight _, _ | .scanLeft _, _ | .clear, _ | .carryRight _, _ | .carryLeft _, _ => ⟨_, rfl⟩
  | .foreign _, h | .derived _ _, h => by cases h

/-- A sequence has code at any address, whether its arguments fit or not. -/
theorem Program.exists_code_of_isInstruction (address depth : Nat) (slot : Option Nat) :
    (p : List Node) → Program.every Node.isInstruction p = true →
      ∃ block, Program.code address depth slot p = .ok block
  | [], _ => ⟨[], rfl⟩
  | n :: p, h => by
    rw [Program.every, Bool.and_eq_true] at h
    obtain ⟨first, hfirst⟩ := Node.exists_code_of_isInstruction address depth slot n h.1
    obtain ⟨rest, hrest⟩ :=
      Program.exists_code_of_isInstruction (address + first.length) depth slot p h.2
    refine ⟨first ++ rest, ?_⟩
    rw [Program.code, hfirst]
    show (Program.code (address + first.length) depth slot p >>= fun rest =>
      pure (first ++ rest)) = _
    rw [hrest]
    rfl

end

end Brainfuck
