import Brainfuck.FileSystem

/-!
# Starting the C compiler

Linking is left to a C compiler, and which one is up to the user.  A name without a slash is looked
for in the directories of the search path.  What comes of the launch is up to the system: all that is
known here is how a launch can end.

* `Launch`, `LinkEnd`: the launch of a command, and how it can end.
* `Host`: the places that a build needs, and the launch.
-/

namespace Brainfuck

/-- The end of a link: the file system after it, or a status and what was said. -/
inductive LinkEnd where
  | done (fs : FileSystem)
  | failed (status : Nat) (stderr : String)
  | notStarted (cause : OsCause)

/-- The launch of a command, as a function of the files, the search path and the words of the
command. -/
abbrev Launch := FileSystem → List String → List String → LinkEnd

/-- The directories of a search path. -/
def readSearchPath (text : String) : List String := text.splitOn ":"

/-- Where things are, and how commands are launched. -/
structure Host where
  /-- The directory for objects that are not kept. -/
  objects : Path
  /-- The source of the runtime that is linked in. -/
  runtime : Path
  /-- The directories in which programs are looked for. -/
  searchPath : List String
  launch : Launch

end Brainfuck
