/-!
# Delta maps

A delta map says by how much a stretch of code changes the cells around the pointer: it is a finite
map from offsets to changes.  It is kept as a list of pairs in strictly ascending order of the
offset, so two maps are equal exactly when their lists are, and walking the list visits the cells
from left to right.

An offset that is in the map with change zero differs from one that is absent: the map records
where something was changed, even if the changes cancel.

* `DeltaMap`: the maps, with `DeltaMap.get` and `DeltaMap.adjust`, which go together by `get_adjust`.
* `DeltaMap.ofList`: the map of a list of pairs, of which the last one for an offset counts.
-/

namespace Brainfuck

/-- A finite map from offsets to changes. -/
structure DeltaMap where
  entries : List (Int × Int)
  ascending : entries.Pairwise fun a b => a.1 < b.1

namespace DeltaMap

/-- Replaces the change at an offset, zero if there is none, by a function of it. -/
def adjustEntries (offset : Int) (f : Int → Int) : List (Int × Int) → List (Int × Int)
  | [] => [(offset, f 0)]
  | (k, d) :: rest =>
    if offset < k then (offset, f 0) :: (k, d) :: rest
    else if offset = k then (k, f d) :: rest
    else (k, d) :: adjustEntries offset f rest

/-- An adjusted list has no offset but the old ones and the adjusted one. -/
theorem mem_adjustEntries {offset : Int} {f : Int → Int} {e : Int × Int} :
    ∀ {entries : List (Int × Int)}, e ∈ adjustEntries offset f entries →
      e.1 = offset ∨ ∃ e' ∈ entries, e'.1 = e.1
  | [], h => by
    rw [adjustEntries, List.mem_singleton] at h
    exact Or.inl (by rw [h])
  | (k, d) :: rest, h => by
    rw [adjustEntries] at h
    split at h
    · rcases List.mem_cons.mp h with rfl | h
      · exact Or.inl rfl
      · exact Or.inr ⟨e, h, rfl⟩
    · split at h
      · rcases List.mem_cons.mp h with rfl | h
        · exact Or.inr ⟨(k, d), List.mem_cons_self, rfl⟩
        · exact Or.inr ⟨e, List.mem_cons_of_mem _ h, rfl⟩
      · rcases List.mem_cons.mp h with rfl | h
        · exact Or.inr ⟨(k, d), List.mem_cons_self, rfl⟩
        · rcases mem_adjustEntries h with h | ⟨e', he', h⟩
          · exact Or.inl h
          · exact Or.inr ⟨e', List.mem_cons_of_mem _ he', h⟩

/-- Adjusting keeps the offsets in order. -/
theorem pairwise_adjustEntries (offset : Int) (f : Int → Int) :
    ∀ {entries : List (Int × Int)}, entries.Pairwise (fun a b => a.1 < b.1) →
      (adjustEntries offset f entries).Pairwise fun a b => a.1 < b.1
  | [], _ => List.pairwise_singleton _ _
  | (k, d) :: rest, h => by
    obtain ⟨hk, hrest⟩ := List.pairwise_cons.mp h
    rw [adjustEntries]
    split
    case isTrue hlt =>
      refine List.pairwise_cons.mpr ⟨fun e he => ?_, h⟩
      rcases List.mem_cons.mp he with rfl | he
      · exact hlt
      · exact Int.lt_trans hlt (hk e he)
    case isFalse hge =>
      split
      case isTrue => exact List.pairwise_cons.mpr ⟨hk, hrest⟩
      case isFalse hne =>
        refine List.pairwise_cons.mpr ⟨fun e he => ?_, pairwise_adjustEntries offset f hrest⟩
        rcases mem_adjustEntries he with h | ⟨e', he', h⟩
        · omega
        · rw [← h]; exact hk e' he'

/-- The map that changes nothing. -/
def empty : DeltaMap := ⟨[], List.Pairwise.nil⟩

/-- The change at an offset, zero where there is none. -/
def get (m : DeltaMap) (offset : Int) : Int :=
  (m.entries.lookup offset).getD 0

/-- Replaces the change at an offset by a function of it. -/
def adjust (m : DeltaMap) (offset : Int) (f : Int → Int) : DeltaMap :=
  ⟨adjustEntries offset f m.entries, pairwise_adjustEntries offset f m.ascending⟩

theorem lookup_cons_pair (k k' d : Int) (rest : List (Int × Int)) :
    ((k', d) :: rest).lookup k = if k = k' then some d else rest.lookup k := by
  rw [List.lookup_cons]
  by_cases h : k = k'
  · rw [if_pos h, beq_iff_eq.mpr h]
  · rw [if_neg h, beq_false_of_ne h]

/-- An offset before all others is not in the list. -/
theorem lookup_eq_none_of_lt {offset : Int} {entries : List (Int × Int)}
    (h : ∀ e ∈ entries, offset < e.1) : entries.lookup offset = none := by
  induction entries with
  | nil => rfl
  | cons e rest ih =>
    have he : offset < e.1 := h e List.mem_cons_self
    rw [lookup_cons_pair, if_neg (by omega), ih fun e' he' => h e' (List.mem_cons_of_mem _ he')]

/-- Looking up an offset in an adjusted list. -/
theorem lookup_adjustEntries (offset k : Int) (f : Int → Int) :
    ∀ {entries : List (Int × Int)}, entries.Pairwise (fun a b => a.1 < b.1) →
      (adjustEntries offset f entries).lookup k =
        if k = offset then some (f ((entries.lookup offset).getD 0)) else entries.lookup k
  | [], _ => by
    rw [adjustEntries, lookup_cons_pair]
    rfl
  | (k', d) :: rest, h => by
    obtain ⟨hk', hrest⟩ := List.pairwise_cons.mp h
    rw [adjustEntries]
    split
    case isTrue hlt =>
      have hbefore : ∀ e ∈ (k', d) :: rest, offset < e.1 := by
        intro e he
        rcases List.mem_cons.mp he with rfl | he
        · exact hlt
        · exact Int.lt_trans hlt (hk' e he)
      rw [lookup_cons_pair, lookup_eq_none_of_lt hbefore, Option.getD_none]
    case isFalse hge =>
      split
      case isTrue heq =>
        subst heq
        rw [lookup_cons_pair, lookup_cons_pair, lookup_cons_pair, if_pos rfl, Option.getD_some]
        split <;> rfl
      case isFalse hne =>
        rw [lookup_cons_pair, lookup_cons_pair, lookup_cons_pair, if_neg hne,
          lookup_adjustEntries offset k f hrest]
        by_cases hk : k = k'
        · have hk0 : k ≠ offset := fun h => hne (h.symm.trans hk)
          rw [if_pos hk, if_pos hk, if_neg hk0]
        · rw [if_neg hk, if_neg hk]

/-- Adjusting changes what the map says at one offset. -/
theorem get_adjust (m : DeltaMap) (offset k : Int) (f : Int → Int) :
    (m.adjust offset f).get k = if k = offset then f (m.get offset) else m.get k := by
  rw [get, adjust, lookup_adjustEntries offset k f m.ascending]
  split <;> rfl

/-- The part of a map with the entries that pass a test. -/
def filter (m : DeltaMap) (keep : Int → Int → Bool) : DeltaMap :=
  ⟨m.entries.filter fun e => keep e.1 e.2, m.ascending.filter _⟩

/-- The map of a list of pairs; a later pair replaces an earlier one with the same offset. -/
def ofList (pairs : List (Int × Int)) : DeltaMap :=
  pairs.foldl (fun m (offset, d) => m.adjust offset fun _ => d) empty

end DeltaMap

end Brainfuck
