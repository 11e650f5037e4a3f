import Brainfuck.Build
import Brainfuck.CommandLine.Usage
import Brainfuck.Program.Listing

/-!
# Answering a command line

A command line is answered by bytes on the two output streams, an exit status and the files that
are left.  Causes that are reported end with status two and their text on the error stream,
behind the log lines; any other cause is passed on.

The text of a module is left to the one who shows it, since an assembler may have its own way of
printing.

* `Request`, `Response`: question and answer.
* `respond`: the answer.
-/

namespace Brainfuck.CommandLine

/-- A command line and what it is run with. -/
structure Request where
  arguments : List String
  environment : Environment
  stdin : List UInt8
  files : FileSystem
  host : Host

/-- The host as the environment has it. -/
def Request.hostInUse (r : Request) : Host :=
  match r.environment.searchPath with
  | some text => { r.host with searchPath := readSearchPath text }
  | none => r.host

/-- How a command line ended. -/
inductive Ending where
  | exit (status : Nat)
  /-- A cause that is not reported. -/
  | failure (e : Error)

/-- The answer to a command line. -/
structure Response where
  ending : Ending
  stdout : List UInt8
  /-- A module whose text was asked for. -/
  module : Option IR.Module
  stderr : List UInt8
  files : FileSystem

/-- The status of a refused command line and of a reported cause. -/
def refusedStatus : Nat := 2

/-- What a job for a command line yields: a status and what it shows. -/
structure Shown where
  status : Nat
  stdout : List UInt8
  module : Option IR.Module
  stderr : String

/-- Shows a line of text. -/
def Shown.line (text : String) : Shown := ⟨0, (text ++ "\n").toUTF8.toList, none, ""⟩

/-- How an optional path is shown. -/
def showPath? : Option (Given Path) → String
  | some p => p.show Path.show
  | none => "None"

/-- How a command line is shown in the log. -/
def Invocation.show (i : Invocation) : String :=
  let s := i.settings
  "Namespace(input_file=" ++ i.inputFile.show ++ ", output_file=" ++ showPath? s.outputFile ++
    ", optimize=" ++ showBool s.optimize ++ ", emit=" ++
    s.artefact.show (fun a => Text.quote a.name) ++ ", cc=" ++ s.cc.show Text.quote ++
    ", keep_object=" ++ showBool s.keepObject ++ ", run=" ++ showBool s.run ++
    ", log_level=" ++ s.logLevel.show Text.quote ++ ")"

/-- Runs a source file on an input.  Running out of turns shows nothing. -/
def runFile (turns : Nat) (path : Path) (optimize : Bool) (stdin : List UInt8) : Job Shown := do
  let p ← readProgram (← readSource path usualEncoding) optimize
  let code ← Job.ofExcept .ofFlatten (Program.flatten p)
  match Execution.run code .unlimited turns (code.start .initial 0 stdin) with
  | some (.finished r) =>
    if let some address := r.faultAt then
      .debug .interpreter ("fault at pc=" ++ toString address ++ " pointer=" ++ toString r.index)
    return ⟨r.status, r.output.toList, none, r.errorText?.getD ""⟩
  | some (.overLimit limit steps) => throw (.stepLimit limit steps)
  | some (.astray index size _) => throw (.noCell index size)
  | none => return ⟨0, [], none, ""⟩

/-- The object path of a command line: as given, or the default one. -/
def objectPath (i : Invocation) : Job Path := do
  match i.settings.outputFile with
  | some (.value p) => return p
  | some .nothing | none =>
    let source ← .resolve i.inputFile
    .ofOption (.emptyName source) (defaultObject? source)

/-- Does what a command line asks for. -/
def perform (request : Request) (turns : Nat) (i : Invocation) : Job Shown := do
  let s := i.settings
  .debug .commandLine ("arguments: " ++ i.show)
  let artefact ← Job.ofOption (.missing .artefact) s.artefact.value?
  if s.run then runFile turns i.inputFile s.optimize request.stdin
  else
    match artefact with
    | .exe =>
      let options : BuildOptions := ⟨s.optimize, s.cc, s.keepObject, artefact⟩
      let (out, _) ← buildExecutable request.hostInUse options i.inputFile s.outputFile
      return .line ("Generated " ++ out.text)
    | .ir =>
      let compiled ← compileFile i.inputFile s.optimize usualEncoding
      return .line (Program.render 0 compiled.program)
    | .llvm =>
      let compiled ← compileFile i.inputFile s.optimize usualEncoding
      assemble compiled.module s.optimize
      return ⟨0, [], some compiled.module, ""⟩
    | .obj =>
      let compiled ← compileFile i.inputFile s.optimize usualEncoding
      let out ← objectPath i
      assemble compiled.module s.optimize
      .writeFile out []
      return .line ("Generated " ++ out.text)

/-- The log level that is asked for. -/
def Settings.level (s : Settings) : Except Error Level :=
  match s.logLevel with
  | .value word => (Level.read word).mapError .notALevel
  | .nothing => .error (.missing .logLevel)

/-- The bytes of the log lines that are shown. -/
def logText (level : Level) (log : List LogLine) : String :=
  String.join ((log.filter fun l => l.isShown level).map LogLine.text)

/-- Answers a command line; a program is run for at most a given number of turns. -/
def respond (turns : Nat) (request : Request) : Response :=
  let width := request.environment.width
  match Invocation.read request.environment request.arguments with
  | .error .help =>
    ⟨.exit 0, (helpText width).toUTF8.toList, none, [], request.files⟩
  | .error (.usage e) =>
    ⟨.exit refusedStatus, [], none, (e.text width).toUTF8.toList, request.files⟩
  | .ok i =>
    match i.settings.level with
    | .error e => ⟨.failure e, [], none, [], request.files⟩
    | .ok level =>
      let (result, w) := (perform request turns i).run.run ⟨request.files, []⟩
      let log := logText level w.log
      match result with
      | .ok shown =>
        ⟨.exit shown.status, shown.stdout, shown.module, (log ++ shown.stderr).toUTF8.toList,
          w.files⟩
      | .error e =>
        match e.report? with
        | some text =>
          ⟨.exit refusedStatus, [], none, (log ++ text ++ "\n").toUTF8.toList, w.files⟩
        | none => ⟨.failure e, [], none, log.toUTF8.toList, w.files⟩

end Brainfuck.CommandLine
