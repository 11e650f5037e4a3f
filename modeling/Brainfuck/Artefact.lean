import Brainfuck.Given
import Brainfuck.Path

/-!
# Artefacts and where they go

A program is turned into one of four things: an executable, the text of its module, an object file,
or a listing of its tree.

An executable stands next to its source, under the name of the source without its suffix; a source
without a suffix gets `.out` behind its name.  An object stands there too, with the suffix `.o`, when
it is what was asked for or when it is to be kept; otherwise it goes to a directory of its own.

* `Artefact`, `BuildOptions`: what to make and how.
* `defaultOutput?`: the path of the executable of a source.
* `defaultObject?`, `keptObject?`: the paths of objects.
* `linkCommand`: the command that links.
-/

namespace Brainfuck

/-- What a program is turned into. -/
inductive Artefact where
  | exe
  | llvm
  | obj
  | ir
deriving DecidableEq, Repr

namespace Artefact

/-- All artefacts, in the order in which they are listed. -/
def all : List Artefact := [exe, llvm, obj, ir]

/-- The word for an artefact. -/
def name : Artefact → String
  | exe => "exe"
  | llvm => "llvm"
  | obj => "obj"
  | ir => "ir"

/-- The artefact of a word. -/
def ofName? (word : String) : Option Artefact := all.find? fun a => a.name == word

end Artefact

/-- How to build. -/
structure BuildOptions where
  optimize : Bool
  /-- The C compiler that links. -/
  cc : Given String
  /-- Whether the object stays next to the executable. -/
  keepObject : Bool
  artefact : Artefact
deriving DecidableEq, Repr

/-- The names under which build options are set. -/
def BuildOptions.fields : List String := ["optimize", "cc", "keep_object", "emit"]

/-- The C compiler, given the one that the environment names. -/
def defaultCompiler (fromEnvironment : Option String) : String := fromEnvironment.getD "cc"

/-- The path of the executable of an absolute source path: without the suffix, or with `.out` behind
it if that changes nothing; none if the source has no name. -/
def defaultOutput? (source : Path) : Option Path := do
  let out ← source.withSuffix? ""
  if out = source then source.withName? (source.name ++ ".out") else return out

/-- The path of the object that is kept next to an executable. -/
def keptObject? (out : Path) : Option Path := out.withSuffix? ".o"

/-- The path of the object of an absolute source path, when the object is asked for. -/
def defaultObject? (source : Path) : Option Path := do
  (← defaultOutput? source).withSuffix? ".o"

/-- The path of an object that is not kept, in a directory for such objects. -/
def passingObject (directory out : Path) : Path :=
  directory.child ((if out.stem.isEmpty then "a" else out.stem) ++ ".o")

/-- The command that links an object and the runtime into an executable. -/
def linkCommand (cc : String) (object out runtime : Path) : List String :=
  [cc, "-O2", "-o", out.text, object.text, runtime.text]

end Brainfuck
