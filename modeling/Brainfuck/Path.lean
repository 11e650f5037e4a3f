/-!
# Paths

A path is a root and a list of parts.  Reading a path drops empty parts and single dots, so that
`a//b/./c/` is `a/b/c`, and keeps double dots.  A path may start at the root; exactly two slashes in
front are a root of their own, one or more than two are the usual one.

The last part is the name.  A name splits into a stem and a suffix at its last dot, if that dot is
neither the first nor the last character; otherwise the whole name is the stem.  Replacing a suffix
does not read the new name again, so a name may end up being a single dot.

* `Path.ofString`, `Path.text`: reading and writing.
* `splitName`, `Path.stem`, `Path.withSuffix?`: names, stems and suffixes.
-/

namespace Brainfuck

/-- Where a path starts. -/
inductive Root where
  /-- At the working directory. -/
  | relative
  | slash
  | doubleSlash
deriving DecidableEq, Repr

/-- How a root is written. -/
def Root.text : Root → String
  | relative => ""
  | slash => "/"
  | doubleSlash => "//"

/-- A root and parts. -/
structure Path where
  root : Root
  parts : List String
deriving DecidableEq, Repr

/-! ## Names -/

/-- The stem and the suffix of a name; the suffix starts with a dot or is empty. -/
def splitName (name : List Char) : List Char × List Char :=
  let after := name.reverse.takeWhile (· != '.')
  match name.reverse.dropWhile (· != '.') with
  | _ :: before =>
    if after.isEmpty || before.isEmpty then (name, [])
    else (before.reverse, '.' :: after.reverse)
  | [] => (name, [])

namespace Path

/-- The text between slashes, first part first. -/
def splitSlashes : List Char → List Char × List (List Char)
  | [] => ([], [])
  | c :: cs =>
    let (part, rest) := splitSlashes cs
    if c = '/' then ([], part :: rest) else (c :: part, rest)

/-- The root that a text starts with. -/
def rootOf (text : List Char) : Root :=
  match (text.takeWhile (· == '/')).length with
  | 0 => .relative
  | 2 => .doubleSlash
  | _ => .slash

/-- The path that a text says. -/
def ofString (text : String) : Path :=
  let cs := text.toList
  let (part, rest) := splitSlashes cs
  let parts := (part :: rest).filter fun p => !p.isEmpty && p != ['.']
  ⟨rootOf cs, parts.map String.ofList⟩

/-- How a path is written; the empty path is a dot. -/
def text (p : Path) : String :=
  if p.root = .relative && p.parts.isEmpty then "."
  else p.root.text ++ "/".intercalate p.parts

/-- The last part, empty if there is none. -/
def name (p : Path) : String := p.parts.getLast?.getD ""

/-- The name without its suffix. -/
def stem (p : Path) : String := String.ofList (splitName p.name.toList).1

/-- The directory that a path stands in. -/
def parent (p : Path) : Path := ⟨p.root, p.parts.dropLast⟩

/-- A path to something in a directory. -/
def child (p : Path) (name : String) : Path := ⟨p.root, p.parts ++ [name]⟩

/-- The path with another name; none if it has no name. -/
def withName? (p : Path) (name : String) : Option Path :=
  if p.parts.isEmpty then none else some (p.parent.child name)

/-- The path with another suffix, which is added if there is none; none if it has no name. -/
def withSuffix? (p : Path) (suffix : String) : Option Path :=
  p.withName? (p.stem ++ suffix)

end Path

end Brainfuck
