import Brainfuck.CommandLine.Response

/-!
# The command

The command reads its source file, its environment and, for a run, its whole input; everything else
is `CommandLine.respond`.  Making objects and executables needs an assembler, which this command does
not bring along: it says so and ends with the status of a reported error.

* `main`: the command.
-/

namespace Brainfuck.CommandLine

/-- More turns than an execution can make in practice. -/
def enoughTurns : Nat := 1 <<< 60

/-- Everything that can still be read from a stream. -/
partial def readToEnd (stream : IO.FS.Stream) (read : ByteArray) : IO ByteArray := do
  let chunk ← stream.read 65536
  if chunk.isEmpty then return read else readToEnd stream (read ++ chunk)

/-- The file system as far as the path of a source file shows it. -/
def look (source : Path) : IO FileSystem := do
  let here ← IO.currentDir
  let working := Path.ofString here.toString
  let bare : FileSystem := .bare working
  if ← (here / source.text).isDir then
    return { bare with directories := [bare.follow (bare.startOf source.text) source.parts] }
  try
    return .holding working source (← IO.FS.readBinFile source.text).toList
  catch _ => return bare

/-- Whether a command line asks for something that only an assembler can make. -/
def Invocation.needsAssembler (i : Invocation) : Bool :=
  !i.settings.run && (i.settings.artefact = .value .exe || i.settings.artefact = .value .obj)

/-- Shows an answer; its status. -/
def Response.show (r : Response) : IO UInt32 := do
  let stdout ← IO.getStdout
  stdout.write ⟨r.stdout.toArray⟩
  if let some m := r.module then stdout.putStrLn m.text
  stdout.flush
  (← IO.getStderr).write ⟨r.stderr.toArray⟩
  match r.ending with
  | .exit status => return status.toUInt32
  | .failure e =>
    (← IO.getStderr).putStrLn e.message
    return 1

end Brainfuck.CommandLine

open Brainfuck Brainfuck.CommandLine in
/-- The command. -/
def main (arguments : List String) : IO UInt32 := do
  let environment : Environment :=
    ⟨← IO.getEnv "BFC_CC", ← IO.getEnv "BFC_LOG", ← IO.getEnv "PATH", ← IO.getEnv "COLUMNS"⟩
  let (stdin, files) ←
    match Invocation.read environment arguments with
    | .ok i =>
      if i.needsAssembler then
        (← IO.getStderr).putStrLn "error: there is no assembler for objects and executables"
        return refusedStatus.toUInt32
      let stdin ← if i.settings.run then readToEnd (← IO.getStdin) .empty else pure .empty
      pure (stdin.toList, ← look i.inputFile)
    | .error _ => pure ([], .bare ⟨.slash, []⟩)
  -- without an assembler there is nothing to link
  let host : Host :=
    ⟨⟨.slash, ["tmp", "objects"]⟩, ⟨.slash, ["runtime"]⟩, [], fun _ _ _ => .notStarted .noEntry⟩
  (respond enoughTurns ⟨arguments, environment, stdin, files, host⟩).show
