import Brainfuck.Artefact
import Brainfuck.Diagnostic
import Brainfuck.Execution
import Brainfuck.FileSystem
import Brainfuck.Log
import Brainfuck.Program.Parse
import Brainfuck.Text.Quoted

/-!
# Errors

Everything that can go wrong, by cause, and the text that is shown for it.

* `Error`, `Error.message`: the causes and their texts.
* `Error.report?`: what the command line reports about a cause, if it ends normally.
-/

namespace Brainfuck

/-- How a foreign value is shown. -/
def Foreign.show : Foreign → String
  | .text s => Text.quote s
  | .number n => toString n
  | .truth b => if b then "True" else "False"
  | .nothing => "None"

mutual

/-- How a node is shown, by a word for its class. -/
def Node.showAs (word : String) : Node → String
  | .moveRight n | .moveLeft n | .increment n | .decrement n | .carryRight n | .carryLeft n =>
    word ++ "(amount=" ++ toString n ++ ")"
  | .scanRight n | .scanLeft n => word ++ "(step=" ++ toString n ++ ")"
  | .output | .input | .clear => word ++ "()"
  | .loop body | .scaled body => word ++ "(body=[" ++ ", ".intercalate (Program.shows body) ++ "])"
  | .foreign v => v.show
  | .derived _ base => base.showAs word

/-- How the nodes of a program are shown. -/
def Program.shows : List Node → List String
  | [] => []
  | n :: p => n.showAs n.kind :: Program.shows p

end

/-- How a node is shown. -/
def Node.show (n : Node) : String := n.showAs n.kind

/-- How a path is shown. -/
def Path.show (p : Path) : String := "PosixPath(" ++ Text.quote p.text ++ ")"

/-- What an option was to give. -/
inductive Missing where
  | logLevel
  | artefact
  | output
  | compiler
deriving DecidableEq, Repr

/-- What can go wrong. -/
inductive Error where
  /-- A bracket without its partner, with the text around it. -/
  | parse (e : SourceError)
  /-- A tree holds something that is no instruction. -/
  | foreign (n : Node)
  /-- An amount does not fit in 64 bits. -/
  | wideArgument
  /-- A cell of a given tape is no byte. -/
  | cell (e : Tape.CellError)
  /-- The step limit was reached. -/
  | stepLimit (limit : Int) (steps : Nat)
  /-- There is no first node. -/
  | noNode
  /-- There is no cell at an index, on a tape of a certain size. -/
  | noCell (index : Int) (size : Nat)
  /-- A link command failed. -/
  | link (e : LinkError)
  /-- A module is not one that an assembler reads. -/
  | invalidModule
  /-- A file could not be opened. -/
  | os (e : OsError)
  /-- A null character stands in a path or a command. -/
  | nullByte
  /-- A file is no text in its encoding. -/
  | undecodable
  /-- A word that is no name of an encoding. -/
  | unknownEncoding (name : String)
  /-- An option without the value that is needed. -/
  | missing (what : Missing)
  /-- A word that names something else where a log level is asked for. -/
  | notALevel (e : NotALevel)
  /-- A word that is no name of a build option. -/
  | unknownOption (name : String)
  /-- Something that is no kind of artefact. -/
  | unknownArtefact (value : Foreign)
  /-- A path without a name, where a name is needed. -/
  | emptyName (p : Path)
deriving DecidableEq, Repr

namespace Error

/-- What is said about something that is no kind of artefact. -/
def artefactMessage (shown : String) : String :=
  "emit must be one of " ++ ", ".intercalate (Artefact.all.map Artefact.name) ++ ", got " ++ shown

/-- The text that is shown. -/
def message : Error → String
  | parse e => e.message
  | foreign n => "not an instruction: " ++ n.show
  | wideArgument => "Python int too large to convert to C long"
  | cell (.outOfRange v) => "Python integer " ++ toString v ++ " out of bounds for uint8"
  | cell (.wide _) => "Python int too large to convert to C long"
  | stepLimit limit _ => "ExecutionError: step limit of " ++ toString limit ++ " exceeded"
  | noNode => "list index out of range"
  | noCell index size =>
    "index " ++ toString index ++ " is out of bounds for axis 0 with size " ++ toString size
  | link e => e.message
  | invalidModule => "CodegenError: generated module failed verification: LLVM IR parsing error"
  | os e => e.message
  | nullByte => "embedded null byte"
  | undecodable => "the file is not text in its encoding"
  | unknownEncoding name => "unknown encoding: " ++ name
  | missing .logLevel => "'list' object has no attribute 'upper'"
  | missing .artefact => artefactMessage (Given.show Foreign.show .nothing)
  | missing .output => "expected str, bytes or os.PathLike object, not list"
  | missing .compiler => "sequence item 0: expected str instance, list found"
  | notALevel e => e.message
  | unknownOption name =>
    "CompileOptions.__init__() got an unexpected keyword argument " ++ Text.quote name
  | unknownArtefact v => artefactMessage v.show
  | emptyName p => p.show ++ " has an empty name"

/-- What the command line reports about a cause; none if it does not end normally. -/
def report? (e : Error) : Option String :=
  match e with
  | parse _ | stepLimit _ _ | link _ | invalidModule => some e.message
  | os _ => some ("error: " ++ e.message)
  | _ => none

/-- The cause of a failed access. -/
def ofAccess : AccessError → Error
  | .os e => os e
  | .nullByte => nullByte

/-- The cause of a failed flattening. -/
def ofFlatten : FlattenError → Error
  | .foreign n => foreign n
  | .wideArgument => wideArgument

end Error

end Brainfuck
