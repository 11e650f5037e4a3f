import Brainfuck.Artefact
import Mathlib.Data.List.Basic
import Mathlib.Data.List.TakeWhile
import Mathlib.Logic.Basic

/-!
# When artefacts stand in each other's way

The paths of artefacts are made from the path of the source by taking suffixes off and putting others
on.  The executable never takes the place of the source: where there is no suffix to take off, one is
put on.  Objects have no such rule.  Their suffix replaces the one that the executable has left, and
the result may be the source again, or the executable.

Everything is decided by the last part of the path, and there by two suffixes: that of the name, and
that of what remains without it.  So the rules are stated for names first (`outputName`,
`objectName`) and then for paths.

* `splitName_cases`: how a name splits into stem and suffix.
* `defaultOutput?_eq`, `keptObject?_eq`: the paths of artefacts by their names.
* `defaultPaths_coincide_iff`: the sources for which two of the paths are the same.
-/

namespace Brainfuck

/-! ## Stems and suffixes -/

/-- A name with something in front of its last dot and something behind it splits there. -/
theorem splitName_append {stem extension : List Char} (hstem : stem ≠ []) (hext : extension ≠ [])
    (hdot : '.' ∉ extension) :
    splitName (stem ++ '.' :: extension) = (stem, '.' :: extension) := by
  have hrev : (stem ++ '.' :: extension).reverse = extension.reverse ++ '.' :: stem.reverse := by
    simp
  have hall : ∀ c ∈ extension.reverse, (c != '.') = true := by
    intro c hc
    rw [bne_iff_ne]
    rintro rfl
    exact hdot (List.mem_reverse.mp hc)
  have hafter : (extension.reverse ++ '.' :: stem.reverse).takeWhile (· != '.') =
      extension.reverse := by
    rw [List.takeWhile_append_of_pos hall, List.takeWhile_cons_of_neg (by simp), List.append_nil]
  have hbefore : (extension.reverse ++ '.' :: stem.reverse).dropWhile (· != '.') =
      '.' :: stem.reverse := by
    rw [List.dropWhile_append_of_pos hall, List.dropWhile_cons_of_neg (by simp)]
  simp [splitName, hrev, hafter, hbefore, hstem, hext]

/-- A name is its own stem, or it splits at its last dot. -/
theorem splitName_cases (name : List Char) :
    splitName name = (name, []) ∨ ∃ stem extension, name = stem ++ '.' :: extension ∧
      stem ≠ [] ∧ extension ≠ [] ∧ '.' ∉ extension := by
  have hparts := List.takeWhile_append_dropWhile (p := (· != '.')) (l := name.reverse)
  generalize hafter : name.reverse.takeWhile (· != '.') = after at hparts
  cases hrest : name.reverse.dropWhile (· != '.') with
  | nil =>
    left
    simp [splitName, hrest]
  | cons c before =>
    have hc : c = '.' := by
      have hhead := List.head?_dropWhile_not (· != '.') name.reverse
      simpa [hrest] using hhead
    by_cases hempty : after = [] ∨ before = []
    · left
      simp [splitName, hrest, hafter, hempty]
    · right
      rw [not_or] at hempty
      refine ⟨before.reverse, after.reverse, ?_, ?_, ?_, ?_⟩
      · rw [← List.reverse_inj, ← hparts, hrest, hc]
        simp
      · simpa using hempty.2
      · simpa using hempty.1
      · rw [List.mem_reverse, ← hafter]
        intro hdot
        exact absurd (List.mem_takeWhile_imp hdot) (by simp)

/-- The name without its suffix. -/
def stemOf (name : String) : String := String.ofList (splitName name.toList).1

/-- The suffix of a name, with its dot, or nothing. -/
def suffixOf (name : String) : String := String.ofList (splitName name.toList).2

/-- A suffix that has been put on can be taken off. -/
theorem splitName_append_suffix {name suffix : String} {extension : List Char} (hname : name ≠ "")
    (hsuffix : suffix.toList = '.' :: extension) (hext : extension ≠ []) (hdot : '.' ∉ extension) :
    stemOf (name ++ suffix) = name ∧ suffixOf (name ++ suffix) = suffix := by
  have hstem : name.toList ≠ [] := by simpa using hname
  rw [stemOf, suffixOf, String.toList_append, hsuffix, splitName_append hstem hext hdot, ← hsuffix,
    String.ofList_toList, String.ofList_toList]
  exact ⟨rfl, rfl⟩

/-- A name without a suffix, or a stem and a suffix of at least two characters. -/
theorem name_cases (name : String) :
    (stemOf name = name ∧ suffixOf name = "") ∨
      (stemOf name ++ suffixOf name = name ∧ 2 ≤ (suffixOf name).length) := by
  rw [stemOf, suffixOf]
  rcases splitName_cases name.toList with hsplit | ⟨stem, extension, hname, hstem, hext, hdot⟩
  · left
    rw [hsplit]
    simp
  · right
    rw [hname, splitName_append hstem hext hdot, ← String.ofList_append, ← hname,
      String.ofList_toList, String.length_ofList, List.length_cons]
    have := List.length_pos_iff.mpr hext
    exact ⟨rfl, by omega⟩

theorem stemOf_append_suffixOf (name : String) : stemOf name ++ suffixOf name = name := by
  rcases name_cases name with ⟨hstem, hsuffix⟩ | ⟨happend, -⟩
  · rw [hstem, hsuffix, String.append_empty]
  · exact happend

/-- A suffix is more than its dot. -/
theorem two_le_length_suffixOf {name : String} (h : suffixOf name ≠ "") :
    2 ≤ (suffixOf name).length := by
  rcases name_cases name with ⟨-, hsuffix⟩ | ⟨-, hlength⟩
  · exact absurd hsuffix h
  · exact hlength

theorem stemOf_eq_self_iff {name : String} : stemOf name = name ↔ suffixOf name = "" := by
  have happend := stemOf_append_suffixOf name
  constructor
  · intro hstem
    rw [hstem] at happend
    simpa using happend
  · intro hsuffix
    rwa [hsuffix, String.append_empty] at happend

/-! ## Names of artefacts -/

/-- The name of the executable. -/
def outputName (name : String) : String :=
  if suffixOf name = "" then name ++ ".out" else stemOf name

/-- The name of the object that is kept or asked for. -/
def objectName (name : String) : String := stemOf (outputName name) ++ ".o"

theorem outputName_ne (name : String) : outputName name ≠ name := by
  rw [outputName]
  split
  case isTrue => simp
  case isFalse hsuffix => exact fun h => hsuffix (stemOf_eq_self_iff.mp h)

/-- What the object of a source without a suffix is called. -/
theorem objectName_of_no_suffix {name : String} (hname : name ≠ "") (hsuffix : suffixOf name = "") :
    objectName name = name ++ ".o" := by
  have hdots : ".out".toList = '.' :: ['o', 'u', 't'] := rfl
  have hout := (splitName_append_suffix hname hdots (by simp) (by decide)).1
  rw [objectName, outputName, if_pos hsuffix, hout]

theorem objectName_eq_iff {name : String} (hname : name ≠ "") :
    objectName name = name ↔ suffixOf name = ".o" ∧ suffixOf (stemOf name) = "" := by
  by_cases hsuffix : suffixOf name = ""
  · rw [objectName_of_no_suffix hname hsuffix, hsuffix]
    simp
  · have hlength := two_le_length_suffixOf hsuffix
    have hstem := stemOf_append_suffixOf (stemOf name)
    have hwhole := stemOf_append_suffixOf name
    rw [objectName, outputName, if_neg hsuffix]
    constructor
    · -- What is taken off twice and put on once is too short, unless the second time takes nothing.
      intro h
      have hsame : ".o" = suffixOf (stemOf name) ++ suffixOf name := by
        rw [← String.append_right_inj (stemOf (stemOf name)), h, ← String.append_assoc, hstem,
          hwhole]
      have hempty : suffixOf (stemOf name) = "" := by
        have hcount := congrArg String.length hsame
        rw [String.length_append, show ".o".length = 2 from rfl] at hcount
        exact String.length_eq_zero_iff.mp (by omega)
      rw [hempty, String.empty_append] at hsame
      exact ⟨hsame.symm, hempty⟩
    · rintro ⟨hobject, hempty⟩
      rw [stemOf_eq_self_iff.mpr hempty, ← hobject, hwhole]

theorem objectName_eq_outputName_iff {name : String} (hname : name ≠ "") :
    objectName name = outputName name ↔ suffixOf (stemOf name) = ".o" := by
  by_cases hsuffix : suffixOf name = ""
  · rw [objectName_of_no_suffix hname hsuffix, outputName, if_pos hsuffix,
      stemOf_eq_self_iff.mpr hsuffix, hsuffix]
    simp
  · have hstem := stemOf_append_suffixOf (stemOf name)
    rw [objectName, outputName, if_neg hsuffix]
    constructor
    · intro h
      rw [← String.append_right_inj (stemOf (stemOf name)), hstem, h]
    · intro hobject
      rw [← hobject, hstem]

/-! ## Paths of artefacts -/

namespace Path

variable {p : Path}

theorem parts_ne_nil_of_name (h : p.name ≠ "") : p.parts ≠ [] := by
  intro hparts
  rw [name, hparts] at h
  exact h rfl

@[simp] theorem name_child (p : Path) (name : String) : (p.child name).name = name := by
  simp [child, Path.name]

@[simp] theorem parent_child (p : Path) (name : String) : (p.child name).parent = p := by
  simp [child, parent]

theorem child_inj {a b : String} : p.child a = p.child b ↔ a = b := by
  simp [child]

theorem child_parent_name (h : p.parts ≠ []) : p.parent.child p.name = p := by
  have hname : p.name = p.parts.getLast h := by
    rw [name, List.getLast?_eq_some_getLast h, Option.getD_some]
  show Path.mk p.root (p.parts.dropLast ++ [p.name]) = p
  rw [hname, List.dropLast_append_getLast h]

theorem withName?_eq (h : p.parts ≠ []) (name : String) :
    p.withName? name = some (p.parent.child name) :=
  if_neg (by simpa using h)

theorem withSuffix?_eq (h : p.parts ≠ []) (suffix : String) :
    p.withSuffix? suffix = some (p.parent.child (stemOf p.name ++ suffix)) :=
  withName?_eq h _

end Path

theorem defaultOutput?_eq {source : Path} (h : source.parts ≠ []) :
    defaultOutput? source = some (source.parent.child (outputName source.name)) := by
  have hsame : source.parent.child (stemOf source.name ++ "") = source ↔
      suffixOf source.name = "" := by
    rw [String.append_empty, ← stemOf_eq_self_iff, ← Path.child_inj (p := source.parent),
      Path.child_parent_name h]
  rw [defaultOutput?, Path.withSuffix?_eq h, outputName]
  show (if _ = source then _ else _) = _
  by_cases hsuffix : suffixOf source.name = ""
  · rw [if_pos (hsame.mpr hsuffix), if_pos hsuffix, Path.withName?_eq h]
  · rw [if_neg fun heq => hsuffix (hsame.mp heq), if_neg hsuffix, String.append_empty]
    rfl

theorem keptObject?_child (directory : Path) (name : String) :
    keptObject? (directory.child name) = some (directory.child (stemOf name ++ ".o")) := by
  have hparts : (directory.child name).parts ≠ [] := by simp [Path.child]
  rw [keptObject?, Path.withSuffix?_eq hparts, Path.name_child, Path.parent_child]

/-- **When artefacts stand in each other's way.**  For a source with a name, all paths of artefacts
exist, and the object that is asked for is the one that would be kept.  The executable never takes the
place of the source.  The object takes it exactly if the name of the source ends in `.o` and has no
other suffix in front of that; and it takes the place of the executable exactly if the name of the
source without its suffix still ends in `.o`. -/
theorem defaultPaths_coincide_iff (source : Path) (hname : source.name ≠ "") :
    ∃ out object, defaultOutput? source = some out ∧ defaultObject? source = some object ∧
      keptObject? out = some object ∧ out ≠ source ∧
      (object = source ↔ suffixOf source.name = ".o" ∧ suffixOf (stemOf source.name) = "") ∧
      (object = out ↔ suffixOf (stemOf source.name) = ".o") := by
  have hparts := Path.parts_ne_nil_of_name hname
  have hout := defaultOutput?_eq hparts
  have hkept : keptObject? (source.parent.child (outputName source.name)) =
      some (source.parent.child (objectName source.name)) := keptObject?_child _ _
  refine ⟨_, _, hout, ?_, hkept, ?_, ?_, ?_⟩
  · rw [defaultObject?, hout]
    exact hkept
  · intro heq
    rw [← Path.child_parent_name hparts, Path.name_child, Path.parent_child, Path.child_inj] at heq
    exact outputName_ne source.name heq
  · rw [← objectName_eq_iff hname, ← Path.child_inj (p := source.parent),
      Path.child_parent_name hparts]
  · rw [← objectName_eq_outputName_iff hname, Path.child_inj]

/-- The object of `prog.o` would take the place of its source, and the object of `prog.o.b` that of
its executable. -/
theorem defaultPaths_coincide_prog :
    (∃ out, defaultOutput? ⟨.slash, ["x", "prog.o"]⟩ = some out ∧
      keptObject? out = some ⟨.slash, ["x", "prog.o"]⟩) ∧
    ∃ out, defaultOutput? ⟨.slash, ["x", "prog.o.b"]⟩ = some out ∧ keptObject? out = some out := by
  constructor
  · obtain ⟨out, object, hout, -, hkept, -, hsource, -⟩ :=
      defaultPaths_coincide_iff ⟨.slash, ["x", "prog.o"]⟩ (by decide)
    exact ⟨out, hout, hsource.mpr ⟨by decide, by decide⟩ ▸ hkept⟩
  · obtain ⟨out, object, hout, -, hkept, -, -, hexecutable⟩ :=
      defaultPaths_coincide_iff ⟨.slash, ["x", "prog.o.b"]⟩ (by decide)
    exact ⟨out, hout, hexecutable.mpr (by decide) ▸ hkept⟩

end Brainfuck
