import Brainfuck.Path
import Brainfuck.Text.Quoted

/-!
# Files and directories

A file system is known by its files, by directories that were made, by links, and by the working
directory.  Places are lists of parts from the root.  Following a path starts at the root or at the
working directory and goes one step at a time.  A place has to be a directory to be left again, also
by a dot or a double dot; a slash at the end of a path is a last step to the place itself.  A place
that is a link stands for another place.  What is not known does not exist.

Names and paths have a greatest length, counted in bytes, and none has a null character in it.  The
length of a name is looked at only when its directory has been reached, the length of a path first of
all.

* `FileSystem`: what is known.
* `FileSystem.find`: what a path leads to.
* `FileSystem.read`, `FileSystem.write`: a file's bytes, or the reason why not.
* `FileSystem.resolve?`: the absolute path, without links and double dots.
* `FileSystem.fileNames`: the names of the files below the working directory, in order.
-/

namespace Brainfuck

/-! ## Failed accesses -/

/-- Why a file could not be opened. -/
inductive OsCause where
  | noEntry
  | permission
  | notADirectory
  | isADirectory
  | nameTooLong
deriving DecidableEq, Repr

/-- The system's number for a cause. -/
def OsCause.number : OsCause → Nat
  | noEntry => 2
  | permission => 13
  | notADirectory => 20
  | isADirectory => 21
  | nameTooLong => 36

/-- The system's words for a cause. -/
def OsCause.text : OsCause → String
  | noEntry => "No such file or directory"
  | permission => "Permission denied"
  | notADirectory => "Not a directory"
  | isADirectory => "Is a directory"
  | nameTooLong => "File name too long"

/-- A failed attempt to open a file. -/
structure OsError where
  cause : OsCause
  path : Path
deriving DecidableEq, Repr

/-- What is said about it. -/
def OsError.message (e : OsError) : String :=
  "[Errno " ++ toString e.cause.number ++ "] " ++ e.cause.text ++ ": " ++ Text.quote e.path.text

/-- Why a path is of no use. -/
inductive AccessError where
  /-- The system refuses it. -/
  | os (e : OsError)
  /-- It has a null character in it, so that the system cannot even be asked. -/
  | nullByte
deriving DecidableEq, Repr

/-- Whether a text has a null character in it. -/
def hasNull (text : String) : Bool := text.toList.contains '\x00'

/-! ## File systems -/

/-- A place, by its parts from the root. -/
abbrev Place := List String

/-- What a file is. -/
inductive File where
  | data (bytes : List UInt8)
  /-- A file that stays empty whatever is written to it. -/
  | sink
deriving DecidableEq, Repr

/-- The bytes of a file. -/
def File.bytes : File → List UInt8
  | data bytes => bytes
  | sink => []

/-- A file after bytes have been written to it. -/
def File.overwrite (bytes : List UInt8) : File → File
  | data _ => data bytes
  | sink => sink

/-- Known files, directories and links. -/
structure FileSystem where
  working : Path
  files : List (Place × File)
  /-- Directories that were made, whether or not there is something in them. -/
  directories : List Place
  /-- Places that stand for other ones. -/
  links : List (Place × Place)

/-- What a path leads to. -/
inductive Entry where
  | file (place : Place) (f : File)
  | directory
  /-- Nothing, in a directory that exists. -/
  | vacant (place : Place)
  /-- Nothing that could be reached. -/
  | unreachable (cause : OsCause)

namespace FileSystem

/-- Whether a place is a directory: one that was made, or one on the way to something. -/
def isDirectory (fs : FileSystem) (place : Place) : Bool :=
  place.isPrefixOf fs.working.parts || fs.directories.any (place.isPrefixOf ·) ||
    fs.files.any fun f => place.isPrefixOf f.1 && place.length < f.1.length

/-- The file at a place. -/
def file? (fs : FileSystem) (place : Place) : Option File := fs.files.lookup place

/-- The place that a place stands for. -/
def linked (fs : FileSystem) (place : Place) : Place := (fs.links.lookup place).getD place

/-- The greatest number of bytes in a name. -/
def maxName : Nat := 255

/-- The greatest number of bytes in a path. -/
def maxPath : Nat := 4095

/-- The steps that a text says, a slash at its end being a step to the place itself. -/
def stepsOf (text : String) : List String :=
  let (part, rest) := Path.splitSlashes text.toList
  let steps := ((part :: rest).filter fun p => !p.isEmpty).map String.ofList
  if text.toList.getLast? = some '/' && !steps.isEmpty then steps ++ ["."] else steps

/-- Follows steps from a place; every place that is left has to be a directory. -/
def walk (fs : FileSystem) : Place → List String → Except OsCause Place
  | here, [] => .ok here
  | here, step :: steps =>
    if fs.isDirectory here then
      if step = "." then fs.walk here steps
      else if step = ".." then fs.walk here.dropLast steps
      else if maxName < step.utf8ByteSize then .error .nameTooLong
      else fs.walk (fs.linked (here ++ [step])) steps
    else if (fs.file? here).isSome then .error .notADirectory
    else .error .noEntry

/-- Where the path of a text starts. -/
def startOf (fs : FileSystem) (text : String) : Place :=
  if text.startsWith "/" then [] else fs.working.parts

/-- What the path of a text leads to. -/
def find (fs : FileSystem) (text : String) : Entry :=
  if text.isEmpty then .unreachable .noEntry
  else if maxPath < text.utf8ByteSize then .unreachable .nameTooLong
  else
    match fs.walk (fs.startOf text) (stepsOf text) with
    | .error cause => .unreachable cause
    | .ok place =>
      if fs.isDirectory place then .directory
      else
        match fs.file? place with
        | some f => .file place f
        | none => .vacant place

/-- The bytes of a file. -/
def read (fs : FileSystem) (p : Path) : Except AccessError (List UInt8) :=
  if hasNull p.text then .error .nullByte
  else
    match fs.find p.text with
    | .file _ f => .ok f.bytes
    | .directory => .error (.os ⟨.isADirectory, p⟩)
    | .vacant _ => .error (.os ⟨.noEntry, p⟩)
    | .unreachable cause => .error (.os ⟨cause, p⟩)

/-- The file system with another file at a place. -/
def put (fs : FileSystem) (place : Place) (f : File) : FileSystem :=
  { fs with files := (place, f) :: fs.files.filter fun e => e.1 != place }

/-- The file system after a file has been written. -/
def write (fs : FileSystem) (p : Path) (bytes : List UInt8) : Except AccessError FileSystem :=
  if hasNull p.text then .error .nullByte
  else
    match fs.find p.text with
    | .file place f => .ok (fs.put place (f.overwrite bytes))
    | .vacant place => .ok (fs.put place (.data bytes))
    | .directory => .error (.os ⟨.isADirectory, p⟩)
    | .unreachable cause => .error (.os ⟨cause, p⟩)

/-- The file system with one more directory. -/
def makeDirectory (fs : FileSystem) (p : Path) : FileSystem :=
  { fs with directories := p.parts :: fs.directories }

/-- The file system without a directory and what is in it. -/
def removeDirectory (fs : FileSystem) (p : Path) : FileSystem :=
  { fs with
    files := fs.files.filter fun f => !p.parts.isPrefixOf f.1
    directories := fs.directories.filter fun d => !p.parts.isPrefixOf d }

/-- Follows parts from a place, through links, whether or not there is something. -/
def follow (fs : FileSystem) (place : Place) (parts : List String) : Place :=
  parts.foldl (fun here part => if part = ".." then here.dropLast else fs.linked (here ++ [part]))
    place

/-- The absolute form of a path; none if it has a null character in it. -/
def resolve? (fs : FileSystem) (p : Path) : Option Path :=
  if hasNull p.text then none
  else some ⟨.slash, fs.follow (fs.startOf p.text) p.parts⟩

/-- The names of the files below the working directory, in the order of their characters. -/
def fileNames (fs : FileSystem) : List String :=
  let here := fs.working.parts
  let below := fs.files.filter fun f => here.isPrefixOf f.1
  (below.map fun f => "/".intercalate (f.1.drop here.length)).mergeSort (· ≤ ·)

/-- The file system with a working directory that has the given files and directories in it. -/
def workIn (fs : FileSystem) (working : Path) (files : List (Path × List UInt8))
    (directories : List Path) : FileSystem where
  working := working
  files := files.map (fun (p, bytes) => (working.parts ++ p.parts, .data bytes)) ++ fs.files
  directories := directories.map (fun p => working.parts ++ p.parts) ++ fs.directories
  links := fs.links

/-- A file system with nothing in it but its working directory. -/
def bare (working : Path) : FileSystem := ⟨working, [], [], []⟩

/-- The places on the way along parts, the last one left out. -/
def placesAlong (here : Place) : List String → List Place
  | [] => []
  | part :: parts =>
    here :: placesAlong (if part = ".." then here.dropLast else here ++ [part]) parts

/-- A file system in which a path leads to a file with the given bytes. -/
def holding (working p : Path) (bytes : List UInt8) : FileSystem :=
  let fs := bare working
  let start := fs.startOf p.text
  { fs with
    files := [(fs.follow start p.parts, .data bytes)]
    directories := placesAlong start p.parts }

end FileSystem

end Brainfuck
