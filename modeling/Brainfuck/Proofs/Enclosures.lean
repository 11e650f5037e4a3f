import Brainfuck.FlatCode
import Mathlib.Data.Set.Card

/-!
# Enclosures in a list of instructions

A list of instructions has no tree any more, but two kinds of instructions come in pairs: a loop
starts and ends, a scale register is loaded and its region ends.  Such a pair with properly nested
code between is an enclosure.

Which two instructions belong together is not written anywhere in the list, and need not be: the
first instruction of an enclosure fixes the last one, since properly nested code followed by an end
can be read in one way only.  All else comes from that.  Two enclosures never cross, the last
instruction fixes the first one, and how many enclosures are around an address is a difference of
two counts, of what has been opened and what has been closed before it.

* `Nested`: properly nested code.
* `Enclosure`: the two ends of an enclosure.
* `Enclosure.last_unique`, `Enclosure.first_unique`: an enclosure is fixed by either end.
* `Enclosure.apart_or_inside`: enclosures do not cross.
* `Nested.exists_last`, `Nested.exists_first`: in nested code, either end has another.
* `Nested.ncard_openAt`: the number of enclosures around an address.
-/

namespace Brainfuck

/-- The kinds of enclosures. -/
inductive EnclosureKind where
  | loop
  | scaled
deriving DecidableEq, Repr

namespace Instr

/-- The kind of enclosure that an instruction opens. -/
def opens? : Instr → Option EnclosureKind
  | loopStart _ => some .loop
  | scale _ _ => some .scaled
  | _ => none

/-- The kind of enclosure that an instruction closes. -/
def closes? : Instr → Option EnclosureKind
  | loopEnd _ => some .loop
  | unscale => some .scaled
  | _ => none

theorem closes?_of_opens? {i : Instr} {kind : EnclosureKind} (h : i.opens? = some kind) :
    i.closes? = none := by
  cases i with
  | loopStart _ | scale _ _ => rfl
  | _ => cases h

end Instr

/-- Code in which whatever is opened is closed again, the last opened first. -/
inductive Nested : List Instr → Prop where
  | nil : Nested []
  | plain {i : Instr} {rest : List Instr} (ho : i.opens? = none) (hc : i.closes? = none)
      (hrest : Nested rest) : Nested (i :: rest)
  | enclosed {i j : Instr} {inner rest : List Instr} (kind : EnclosureKind)
      (hi : i.opens? = some kind) (hj : j.closes? = some kind) (hinner : Nested inner)
      (hrest : Nested rest) : Nested (i :: (inner ++ j :: rest))

/-- The instruction at one address opens an enclosure, and the one at another address closes it. -/
def Enclosure (code : List Instr) (kind : EnclosureKind) (first last : Nat) : Prop :=
  ∃ front i inner j back, code = front ++ i :: (inner ++ j :: back) ∧ front.length = first ∧
    first + inner.length + 1 = last ∧ i.opens? = some kind ∧ j.closes? = some kind ∧ Nested inner

variable {code : List Instr} {kind kind' : EnclosureKind} {first last first' last' address : Nat}
  {i j : Instr}

namespace Nested

theorem append {a b : List Instr} (ha : Nested a) (hb : Nested b) : Nested (a ++ b) := by
  induction ha with
  | nil => exact hb
  | plain ho hc _ ih => exact .plain ho hc ih
  | enclosed kind hi hj hinner _ _ ih =>
    rw [List.cons_append, List.append_assoc, List.cons_append]
    exact .enclosed kind hi hj hinner ih

/-- Nested code followed by an end can be read in one way only. -/
theorem append_inj {a b s t : List Instr} (ha : Nested a) (hb : Nested b) (hi : i.closes? ≠ none)
    (hj : j.closes? ≠ none) (h : a ++ i :: s = b ++ j :: t) : a = b := by
  -- The first instruction says which of the three forms both lists have: an end if they are empty,
  -- a plain instruction, or one that opens.
  induction ha generalizing b i j s t with
  | nil =>
    cases hb with
    | nil => rfl
    | plain _ hc _ => exact absurd ((List.cons.inj h).1 ▸ hc) hi
    | enclosed _ ho _ _ _ =>
      exact absurd (Instr.closes?_of_opens? ((List.cons.inj h).1 ▸ ho)) hi
  | plain ho hc _ ih =>
    cases hb with
    | nil => exact absurd ((List.cons.inj h).1 ▸ hc) hj
    | plain _ _ hrest =>
      obtain ⟨rfl, hrests⟩ := List.cons.inj h
      rw [ih hrest hi hj hrests]
    | enclosed _ ho' _ _ _ =>
      rw [(List.cons.inj h).1, ho'] at ho
      cases ho
  | enclosed kind hopens hcloses _ _ ihinner ihrest =>
    cases hb with
    | nil => exact absurd (Instr.closes?_of_opens? ((List.cons.inj h).1 ▸ hopens)) hj
    | plain ho' _ _ =>
      rw [(List.cons.inj h).1, ho'] at hopens
      cases hopens
    | enclosed _ _ hcloses' hinner' hrest' =>
      simp only [List.cons_append, List.append_assoc] at h
      obtain ⟨rfl, htails⟩ := List.cons.inj h
      obtain rfl := ihinner hinner' (by rw [hcloses]; simp) (by rw [hcloses']; simp) htails
      obtain ⟨rfl, hrests⟩ := List.cons.inj (List.append_cancel_left htails)
      rw [ihrest hrest' hi hj hrests]

end Nested

/-! ## The ends of an enclosure -/

namespace Enclosure

theorem lt (h : Enclosure code kind first last) : first < last := by
  obtain ⟨_, _, _, _, _, _, _, rfl, _⟩ := h
  omega

theorem last_lt (h : Enclosure code kind first last) : last < code.length := by
  obtain ⟨_, _, _, _, _, rfl, rfl, rfl, _⟩ := h
  simp only [List.length_append, List.length_cons]
  omega

theorem opens (h : Enclosure code kind first last) :
    ∃ i, code[first]? = some i ∧ i.opens? = some kind := by
  obtain ⟨_, i, _, _, _, rfl, rfl, _, hi, _⟩ := h
  exact ⟨i, by simp, hi⟩

theorem closes (h : Enclosure code kind first last) :
    ∃ j, code[last]? = some j ∧ j.closes? = some kind := by
  obtain ⟨front, _, inner, j, _, rfl, rfl, rfl, _, hj, _⟩ := h
  refine ⟨j, ?_, hj⟩
  rw [Nat.add_assoc, List.getElem?_append_right (Nat.le_add_right _ _), Nat.add_sub_cancel_left,
    List.getElem?_cons_succ, List.getElem?_append_right (Nat.le_refl _), Nat.sub_self]
  rfl

/-- No instruction is at once the first one of an enclosure and the last one of another. -/
theorem first_ne_last (h : Enclosure code kind first last)
    (h' : Enclosure code kind' first' last') : first ≠ last' := by
  rintro rfl
  obtain ⟨i, hi, hopens⟩ := h.opens
  obtain ⟨j, hj, hcloses⟩ := h'.closes
  rw [hi] at hj
  cases hj
  rw [Instr.closes?_of_opens? hopens] at hcloses
  cases hcloses

/-- An enclosure stays one in longer code. -/
theorem embed (h : Enclosure code kind first last) (front back : List Instr) :
    Enclosure (front ++ (code ++ back)) kind (front.length + first) (front.length + last) := by
  obtain ⟨before, i, inner, j, after, rfl, rfl, rfl, hi, hj, hinner⟩ := h
  refine ⟨front ++ before, i, inner, j, after ++ back, ?_, List.length_append, by omega, hi, hj,
    hinner⟩
  simp only [List.append_assoc, List.cons_append]

/-- The first instruction of an enclosure fixes the last one. -/
theorem last_unique (h : Enclosure code kind first last) (h' : Enclosure code kind' first last') :
    last = last' := by
  obtain ⟨front, i, inner, j, back, rfl, rfl, rfl, -, hj, hinner⟩ := h
  obtain ⟨front', i', inner', j', back', hcode, hlength, rfl, -, hj', hinner'⟩ := h'
  obtain ⟨-, htails⟩ := List.append_inj hcode hlength.symm
  rw [hinner.append_inj hinner' (by rw [hj]; simp) (by rw [hj']; simp) (List.cons.inj htails).2]

end Enclosure

/-- Where an instruction can be in a list that begins with an enclosure. -/
theorem getElem?_enclosed {inner rest : List Instr} {opening closing : Instr}
    (h : (opening :: (inner ++ closing :: rest))[address]? = some i) :
    (address = 0 ∧ opening = i) ∨ (∃ k, address = 1 + k ∧ inner[k]? = some i) ∨
      (address = inner.length + 1 ∧ closing = i) ∨
        ∃ k, address = inner.length + 2 + k ∧ rest[k]? = some i := by
  cases address with
  | zero => exact .inl ⟨rfl, Option.some.inj h⟩
  | succ k =>
    rw [List.getElem?_cons_succ, List.getElem?_append] at h
    split at h
    · exact .inr (.inl ⟨k, Nat.add_comm k 1, h⟩)
    · obtain ⟨m, rfl⟩ : ∃ m, k = inner.length + m := ⟨k - inner.length, by omega⟩
      rw [Nat.add_sub_cancel_left] at h
      cases m with
      | zero => exact .inr (.inr (.inl ⟨rfl, Option.some.inj h⟩))
      | succ m => exact .inr (.inr (.inr ⟨m, by omega, h⟩))

namespace Nested

variable {inner rest : List Instr}

/-- What stands at the head of nested code is an enclosure of its own. -/
theorem enclosure_head (hi : i.opens? = some kind) (hj : j.closes? = some kind)
    (hinner : Nested inner) (rest : List Instr) :
    Enclosure (i :: (inner ++ j :: rest)) kind 0 (inner.length + 1) :=
  ⟨[], i, inner, j, rest, rfl, rfl, by omega, hi, hj, hinner⟩

/-- In nested code, whatever opens or closes is an end of an enclosure. -/
theorem exists_other_end (h : Nested code) (hat : code[address]? = some i)
    (hi : i.opens? = some kind ∨ i.closes? = some kind) :
    ∃ other, Enclosure code kind address other ∨ Enclosure code kind other address := by
  induction h generalizing address with
  | nil => cases hat
  | @plain i' rest ho hc _ ih =>
    cases address with
    | zero =>
      obtain rfl : i' = i := Option.some.inj hat
      rw [ho, hc] at hi
      rcases hi with hi | hi <;> cases hi
    | succ k =>
      obtain ⟨other, hends⟩ := ih hat
      have hends' := hends.imp (·.embed [i'] []) (·.embed [i'] [])
      rw [List.append_nil, List.length_singleton, Nat.add_comm 1 k] at hends'
      exact ⟨_, hends'⟩
  | @enclosed i' j inner rest kind' hopens hcloses hinner _ ihinner ihrest =>
    have hhead := enclosure_head hopens hcloses hinner rest
    rcases getElem?_enclosed hat with ⟨rfl, rfl⟩ | ⟨k, rfl, hk⟩ | ⟨rfl, rfl⟩ | ⟨k, rfl, hk⟩
    · rw [hopens, Instr.closes?_of_opens? hopens] at hi
      obtain rfl : kind' = kind := by simpa using hi
      exact ⟨_, .inl hhead⟩
    · obtain ⟨other, hends⟩ := ihinner hk
      exact ⟨_, hends.imp (·.embed [i'] (j :: rest)) (·.embed [i'] (j :: rest))⟩
    · rw [hcloses] at hi
      have hnone : j.opens? ≠ some kind := fun ho => by
        rw [Instr.closes?_of_opens? ho] at hcloses
        cases hcloses
      obtain rfl : kind' = kind := by simpa [hnone] using hi
      exact ⟨_, .inr hhead⟩
    · obtain ⟨other, hends⟩ := ihrest hk
      have hends' := hends.imp (·.embed (i' :: (inner ++ [j])) [])
        (·.embed (i' :: (inner ++ [j])) [])
      simp only [List.cons_append, List.append_assoc, List.nil_append, List.append_nil,
        List.length_cons, List.length_append, List.length_nil] at hends'
      exact ⟨_, hends'⟩

/-- In nested code, whatever is opened is closed. -/
theorem exists_last (h : Nested code) (hat : code[address]? = some i)
    (hi : i.opens? = some kind) : ∃ last, Enclosure code kind address last := by
  obtain ⟨other, hends | hends⟩ := h.exists_other_end hat (.inl hi)
  · exact ⟨other, hends⟩
  · obtain ⟨j, hj, hcloses⟩ := hends.closes
    rw [← Option.some.inj (hat.symm.trans hj), Instr.closes?_of_opens? hi] at hcloses
    cases hcloses

/-- In nested code, whatever is closed has been opened. -/
theorem exists_first (h : Nested code) (hat : code[address]? = some j)
    (hj : j.closes? = some kind) : ∃ first, Enclosure code kind first address := by
  obtain ⟨other, hends | hends⟩ := h.exists_other_end hat (.inr hj)
  · obtain ⟨i, hi, hopens⟩ := hends.opens
    rw [Option.some.inj (hat.symm.trans hi), Instr.closes?_of_opens? hopens] at hj
    cases hj
  · exact ⟨other, hends⟩

end Nested

namespace Enclosure

/-- Of two enclosures, the one that begins later is behind the other or inside it. -/
theorem apart_or_inside (h : Enclosure code kind first last)
    (h' : Enclosure code kind' first' last') (hlt : first < first') :
    last < first' ∨ last' < last := by
  have hne := h'.first_ne_last h
  by_cases hinside : first' < last
  · -- The code of the outer one is nested, so what is opened in it is closed in it.
    obtain ⟨i, hi, hopens⟩ := h'.opens
    obtain ⟨front, opening, inner, closing, back, rfl, rfl, rfl, _, _, hinner⟩ := h
    obtain ⟨k, rfl⟩ : ∃ k, first' = front.length + 1 + k := ⟨first' - (front.length + 1), by omega⟩
    have hk : inner[k]? = some i := by
      rw [← hi, Nat.add_assoc, List.getElem?_append_right (Nat.le_add_right _ _),
        Nat.add_sub_cancel_left, Nat.add_comm 1 k, List.getElem?_cons_succ,
        List.getElem?_append_left (by omega)]
    obtain ⟨stop, hstop⟩ := hinner.exists_last hk hopens
    have hwhole := hstop.embed (front ++ [opening]) (closing :: back)
    rw [List.length_append, List.length_singleton, List.append_assoc] at hwhole
    have hlast := h'.last_unique hwhole
    have hlt := hstop.last_lt
    exact .inr (by omega)
  · exact .inl (by omega)

/-- The last instruction of an enclosure is behind the first one of another, and not behind its
last one, only if they are the same or the other is around it. -/
theorem eq_or_around (h : Enclosure code kind first last)
    (h' : Enclosure code kind' first' last') (hlt : first' < last) (hle : last ≤ last') :
    first' = first ∨ first' < first ∧ first < last' := by
  have hlt' := h.lt
  rcases Nat.lt_trichotomy first' first with hless | heq | hgreater
  · exact .inr ⟨hless, by omega⟩
  · exact .inl heq
  · have := h.apart_or_inside h' hgreater
    omega

/-- The last instruction of an enclosure fixes the first one. -/
theorem first_unique (h : Enclosure code kind first last) (h' : Enclosure code kind' first' last) :
    first = first' := by
  have hlt := h.lt
  have hlt' := h'.lt
  rcases Nat.lt_trichotomy first first' with hless | heq | hgreater
  · have := h.apart_or_inside h' hless
    omega
  · exact heq
  · have := h'.apart_or_inside h hgreater
    omega

end Enclosure

/-! ## The enclosures around an address -/

/-- The enclosures of a kind that have been opened before an address and are not closed before it,
each by its two ends. -/
def openAt (code : List Instr) (kind : EnclosureKind) (address : Nat) : Set (Nat × Nat) :=
  {ends | Enclosure code kind ends.1 ends.2 ∧ ends.1 < address ∧ address ≤ ends.2}

theorem finite_openAt : (openAt code kind address).Finite := by
  refine ((Set.finite_lt_nat code.length).prod (Set.finite_lt_nat code.length)).subset ?_
  rintro ⟨first, last⟩ ⟨h, _, _⟩
  exact ⟨Nat.lt_trans h.lt h.last_lt, h.last_lt⟩

theorem openAt_succ_of_opens (h : Enclosure code kind address last) :
    openAt code kind (address + 1) = insert (address, last) (openAt code kind address) := by
  ext ⟨first', last'⟩
  simp only [openAt, Set.mem_ofPred_eq, Set.mem_insert_iff, Prod.mk.injEq]
  constructor
  · rintro ⟨h', hlt, hle⟩
    rcases Nat.lt_or_eq_of_le (Nat.le_of_lt_succ hlt) with hlt | rfl
    · exact .inr ⟨h', hlt, by omega⟩
    · exact .inl ⟨rfl, h'.last_unique h⟩
  · rintro (⟨rfl, rfl⟩ | ⟨h', hlt, hle⟩)
    · exact ⟨h, by omega, h.lt⟩
    · have hne := h.first_ne_last h'
      exact ⟨h', by omega, by omega⟩

theorem openAt_of_closes (h : Enclosure code kind first address) :
    openAt code kind address = insert (first, address) (openAt code kind (address + 1)) := by
  ext ⟨first', last'⟩
  simp only [openAt, Set.mem_ofPred_eq, Set.mem_insert_iff, Prod.mk.injEq]
  constructor
  · rintro ⟨h', hlt, hle⟩
    rcases Nat.lt_or_eq_of_le hle with hlt' | rfl
    · exact .inr ⟨h', by omega, hlt'⟩
    · exact .inl ⟨h'.first_unique h, rfl⟩
  · rintro (⟨rfl, rfl⟩ | ⟨h', hlt, hle⟩)
    · exact ⟨h, h.lt, Nat.le_refl _⟩
    · have hne := h'.first_ne_last h
      exact ⟨h', by omega, by omega⟩

theorem openAt_succ (hat : code[address]? = some i) (ho : i.opens? ≠ some kind)
    (hc : i.closes? ≠ some kind) : openAt code kind (address + 1) = openAt code kind address := by
  ext ⟨first', last'⟩
  simp only [openAt, Set.mem_ofPred_eq]
  refine and_congr_right fun h' => ?_
  have hfirst : first' ≠ address := by
    rintro rfl
    obtain ⟨i', hi', hopens⟩ := h'.opens
    exact ho (Option.some.inj (hat.symm.trans hi') ▸ hopens)
  have hlast : last' ≠ address := by
    rintro rfl
    obtain ⟨j', hj', hcloses⟩ := h'.closes
    exact hc (Option.some.inj (hat.symm.trans hj') ▸ hcloses)
  omega

/-- In nested code, the enclosures around an address are those that have been opened before it, less
those that have been closed. -/
theorem Nested.ncard_openAt (h : Nested code) (kind : EnclosureKind) (hle : address ≤ code.length) :
    (openAt code kind address).ncard + (code.take address).countP (·.closes? == some kind) =
      (code.take address).countP (·.opens? == some kind) := by
  induction address with
  | zero =>
    have hempty : openAt code kind 0 = ∅ :=
      Set.eq_empty_iff_forall_notMem.mpr fun _ hends => Nat.not_lt_zero _ hends.2.1
    rw [hempty, Set.ncard_empty]
    rfl
  | succ address ih =>
    have ih := ih (by omega)
    have hat : code[address]? = some (code[address]) := List.getElem?_eq_getElem hle
    simp only [List.take_succ_eq_append_getElem hle, List.countP_append, List.countP_singleton,
      beq_iff_eq]
    by_cases ho : code[address].opens? = some kind
    · obtain ⟨last, hlast⟩ := h.exists_last hat ho
      have hnew : (address, last) ∉ openAt code kind address := fun hends =>
        Nat.lt_irrefl address hends.2.1
      have hc : code[address].closes? ≠ some kind := by
        rw [Instr.closes?_of_opens? ho]
        simp
      rw [openAt_succ_of_opens hlast, Set.ncard_insert_of_notMem hnew finite_openAt, if_pos ho,
        if_neg hc]
      omega
    · by_cases hc : code[address].closes? = some kind
      · obtain ⟨first, hfirst⟩ := h.exists_first hat hc
        have hold : (first, address) ∉ openAt code kind (address + 1) := fun hends =>
          Nat.not_succ_le_self address hends.2.2
        rw [openAt_of_closes hfirst, Set.ncard_insert_of_notMem hold finite_openAt] at ih
        rw [if_neg ho, if_pos hc]
        omega
      · rw [openAt_succ hat ho hc, if_neg ho, if_neg hc]
        exact ih

end Brainfuck
