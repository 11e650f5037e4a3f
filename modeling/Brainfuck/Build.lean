import Brainfuck.IR.Module
import Brainfuck.Job
import Brainfuck.Program.Idiom
import Brainfuck.Text.Encoding
import Brainfuck.Toolchain

/-!
# Building

The stages from source text to executable, each with its log line: the text is parsed, its loop
idioms replaced if that is asked for, the tree lowered to a module, the module assembled, the object
linked.

What an assembler makes of a module is not modelled: an object has no content here.  Nor is the C
compiler: its launch is the host's.

* `parseText`, `optimizeTree`, `compileText`, `compileFile`: from text to module.
* `assemble`, `linkObject`: from module to object, from object to executable.
* `buildExecutable`: all of it.
-/

namespace Brainfuck

/-- How a truth value is shown. -/
def showBool (b : Bool) : String := Foreign.show (.truth b)

/-- A program and its module. -/
structure Compiled where
  program : Program
  module : IR.Module

/-- The tree of a text. -/
def parseText (source : String) : Job Program := do
  let p ← .ofExcept (fun e => .parse (BracketError.diagnose e source)) (Program.parse source)
  .debug .parser ("parsed " ++ toString (Token.scan source).length ++ " tokens into " ++
    toString p.length ++ " top-level instructions")
  return p

/-- The tree with loop idioms replaced. -/
def optimizeTree (p : Program) : Job Program := do
  let q ← .ofExcept .foreign (Program.optimize p)
  for u in Program.unrollings p do
    .debug .optimizer ("unrolled " ++ toString u.length ++ "-instruction loop into " ++ u.idiom.kind)
  .debug .optimizer ("optimized " ++ toString (Program.size p) ++ " nodes into " ++
    toString (Program.size q))
  return q

/-- The tree of a text, with loop idioms replaced if that is asked for. -/
def readProgram (source : String) (optimize : Bool) : Job Program := do
  let p ← parseText source
  if optimize then optimizeTree p else return p

/-- The module of a tree. -/
def generateModule (name platform : String) (p : Program) : Job IR.Module := do
  let m ← .ofExcept .foreign (IR.Module.ofProgram name platform p)
  .debug .codegen ("generated main with " ++ toString m.blocks.size ++ " basic blocks")
  return m

/-- Compiles a text. -/
def compileText (source : String) (optimize : Bool) (name : String) : Job Compiled := do
  let p ← readProgram source optimize
  let m ← generateModule name "linux" p
  .debug .compiler ("compiled " ++ name ++ " (optimize=" ++ showBool optimize ++ ")")
  return ⟨p, m⟩

/-- The text of a source file in an encoding, given by its name. -/
def readSource (path : Path) (encoding : String) : Job String := do
  let bytes ← .readFile path
  let encoding ← Job.ofOption (.unknownEncoding encoding) (Text.Encoding.ofName? encoding)
  .ofOption .undecodable (encoding.readText? bytes)

/-- The encoding of source files, unless another one is asked for. -/
def usualEncoding : String := "utf-8"

/-- The name of the module of a source file. -/
def moduleName (path : Path) : String := if path.stem.isEmpty then "bf" else path.stem

/-- Compiles a source file; its module is named after it. -/
def compileFile (path : Path) (optimize : Bool) (encoding : String) : Job Compiled := do
  compileText (← readSource path encoding) optimize (moduleName path)

/-- Checks that an assembler reads a module, and assembles it. -/
def assemble (m : IR.Module) (optimize : Bool) : Job Unit := do
  if !m.isValid then throw .invalidModule
  .debug .backend ("ran default<O" ++ (if optimize then "2" else "0") ++ "> pipeline on <string>")

/-- Makes a directory for the time of a job, whether the job fails or not. -/
def withDirectory (p : Path) (job : Job α) : Job α := do
  modify fun w => { w with files := w.files.makeDirectory p }
  tryFinally job (modify fun w => { w with files := w.files.removeDirectory p })

/-- Links an object that has been written into an executable.  A command with a null character in it
cannot be launched. -/
def linkWritten (host : Host) (options : BuildOptions) (object out : Path) : Job Unit := do
  let cc ← Job.ofOption (.missing .compiler) options.cc.value?
  let command := linkCommand cc object out host.runtime
  .debug .backend ("linking: " ++ " ".intercalate command)
  if command.any hasNull then throw .nullByte
  let w ← get
  match host.launch w.files host.searchPath command with
  | .done files => set { w with files := files }
  | .failed status stderr =>
    throw (.link (.of ("C compiler exited with status " ++ toString status) command stderr))
  | .notStarted cause =>
    throw (.link (.of ("could not run C compiler (" ++ cause.text ++ "; not found?)") command ""))

/-- Writes an object, next to the executable if it is to be kept and to a directory of its own
otherwise, and links it into an executable. -/
def linkObject (host : Host) (options : BuildOptions) (out : Path) : Job Unit := do
  withDirectory host.objects do
    let object ←
      if options.keepObject then Job.ofOption (.emptyName out) (keptObject? out)
      else pure (passingObject host.objects out)
    .writeFile object []
    linkWritten host options object out
  .log .info .backend ("wrote " ++ out.text)

/-- Compiles a source file into an executable, at the default place if none is given; its path and
the module that it runs. -/
def buildExecutable (host : Host) (options : BuildOptions) (path : Path)
    (output : Option (Given Path)) :
    Job (Path × IR.Module) := do
  let compiled ← compileFile path options.optimize usualEncoding
  let out ←
    match output with
    | some given => .resolve (← .ofOption (.missing .output) given.value?)
    | none =>
      let source ← .resolve path
      .ofOption (.emptyName source) (defaultOutput? source)
  assemble compiled.module options.optimize
  linkObject host options out
  return (out, compiled.module)

end Brainfuck
