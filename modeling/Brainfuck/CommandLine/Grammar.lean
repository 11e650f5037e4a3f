import Brainfuck.Artefact
import Brainfuck.Text.Digit
import Brainfuck.Text.Quoted

/-!
# The grammar of the command line

The arguments are first sorted, each by itself: options by their spelling, plain arguments, and the
separator `--`, behind which everything is plain.  A long option may be shortened as long as it stays
clear which one is meant, and takes a value behind an equals sign.  A short option takes what follows
it in the same argument as its value if it needs one; a short flag leaves the rest to be further
short options.  A word that begins with a dash but is no option is a plain argument if it is a
negative number or has a blank in it.

Then the arguments are gone through from left to right.  An option that needs a value takes the next
argument if that is plain; the first other plain argument is the input file; what is left over is
noted and refused at the end.  A separator that stands in one argument with an option, in the place
of its value, leaves the option with nothing.  Asking for help, and every error, ends the reading at
once, but an option that could be two things is found before all others.

* `Opt`: the options.
* `Argument.sort`: sorting one argument.
* `Invocation`, `Invocation.read`: what was asked for, or why it is refused.
-/

namespace Brainfuck.CommandLine

/-! ## Options -/

/-- The options. -/
inductive Opt where
  | help
  | outputFile
  | optimize
  | emit
  | cc
  | keepObject
  | run
  | logLevel
deriving DecidableEq, Repr

namespace Opt

/-- All options, in the order in which they are listed. -/
def all : List Opt := [help, outputFile, optimize, emit, cc, keepObject, run, logLevel]

/-- The spellings of an option, the short one first. -/
def spellings : Opt → List String
  | help => ["-h", "--help"]
  | outputFile => ["-o", "--output-file"]
  | optimize => ["-O", "--optimize"]
  | emit => ["--emit"]
  | cc => ["--cc"]
  | keepObject => ["--keep-object"]
  | run => ["--run"]
  | logLevel => ["--log-level"]

/-- Whether an option needs a value. -/
def takesValue : Opt → Bool
  | outputFile | emit | cc | logLevel => true
  | help | optimize | keepObject | run => false

/-- How an option is called in messages. -/
def name (o : Opt) : String := "/".intercalate o.spellings

/-- All spellings with their options, in order. -/
def table : List (String × Opt) := all.flatMap fun o => o.spellings.map fun s => (s, o)

/-- The option with exactly this spelling. -/
def find? (spelling : String) : Option Opt := table.lookup spelling

end Opt

/-! ## Errors -/

/-- Why a command line is refused. -/
inductive UsageError where
  | missingInput
  | unrecognized (arguments : List String)
  | expectedArgument (o : Opt)
  | invalidChoice (o : Opt) (value : String)
  | ignoredArgument (o : Opt) (value : String)
  | ambiguous (given : String) (candidates : List String)
deriving DecidableEq, Repr

/-- What is said about it. -/
def UsageError.message : UsageError → String
  | missingInput => "the following arguments are required: input_file"
  | unrecognized arguments => "unrecognized arguments: " ++ " ".intercalate arguments
  | expectedArgument o => "argument " ++ o.name ++ ": expected one argument"
  | invalidChoice o value =>
    "argument " ++ o.name ++ ": invalid choice: " ++ Text.quote value ++ " (choose from " ++
      ", ".intercalate (Artefact.all.map fun a => Text.quote a.name) ++ ")"
  | ignoredArgument o value =>
    "argument " ++ o.name ++ ": ignored explicit argument " ++ Text.quote value
  | ambiguous given candidates =>
    "ambiguous option: " ++ given ++ " could match " ++ ", ".intercalate candidates

/-- Why reading stops early. -/
inductive Refusal where
  /-- Help was asked for. -/
  | help
  | usage (e : UsageError)
deriving DecidableEq, Repr

/-! ## Sorting arguments -/

/-- An argument by its kind. -/
inductive Argument where
  | plain (text : String)
  | separator
  /-- An option, whether it is spelled short, and the value in the same argument. -/
  | option (o : Opt) (short : Bool) (value : Option (List Char))
  /-- A word that looks like an option and is none. -/
  | unknown (text : String)
deriving DecidableEq, Repr

/-- The text before the first equals sign, and the text after it if there is one. -/
def splitValue : List Char → List Char × Option (List Char)
  | [] => ([], none)
  | c :: cs =>
    if c = '=' then ([], some cs)
    else
      let (spelling, value) := splitValue cs
      (c :: spelling, value)

/-- Whether a text is some digits. -/
def isNumber (cs : List Char) : Bool := !cs.isEmpty && cs.all Text.isDigit

/-- Whether a text is a negative number, perhaps with a line end behind it. -/
def isNegativeNumber (text : List Char) : Bool :=
  let text := if text.getLast? = some '\n' then text.dropLast else text
  match text with
  | '-' :: cs =>
    isNumber cs ||
      match cs.dropWhile Text.isDigit with
      | '.' :: decimals => isNumber decimals
      | _ => false
  | _ => false

/-- The options that a shortened long spelling can stand for. -/
def candidates (beginning : List Char) : List (String × Opt) :=
  Opt.table.filter fun e => beginning.isPrefixOf e.1.toList

/-- Sorts a word that begins with a dash, is not just a dash, and is no option. -/
def sortOther (text : String) : Argument :=
  let cs := text.toList
  if isNegativeNumber cs || cs.contains ' ' then .plain text else .unknown text

/-- Sorts one argument that is not behind a separator. -/
def Argument.sort (text : String) : Except UsageError Argument :=
  match text.toList with
  | '-' :: c :: cs =>
    match Opt.find? text with
    | some o => .ok (.option o (c != '-') none)
    | none =>
      let (spelling, value) := splitValue ('-' :: c :: cs)
      match value, Opt.find? (String.ofList spelling) with
      | some v, some o => .ok (.option o (c != '-') (some v))
      | _, _ =>
        if c = '-' then
          match candidates spelling with
          | [] => .ok (sortOther text)
          | [(_, o)] => .ok (.option o false value)
          | several => .error (.ambiguous text (several.map Prod.fst))
        else
          match Opt.find? (String.ofList ['-', c]) with
          | some o => .ok (.option o true (some cs))
          | none => .ok (sortOther text)
  | _ => .ok (.plain text)

/-- Sorts all arguments. -/
def sortArguments : List String → Except UsageError (List Argument)
  | [] => .ok []
  | "--" :: rest => .ok (.separator :: rest.map .plain)
  | text :: rest => do
    let a ← Argument.sort text
    let as ← sortArguments rest
    return a :: as

/-! ## Reading -/

/-- What was asked for. -/
structure Settings where
  outputFile : Option (Given Path)
  optimize : Bool
  artefact : Given Artefact
  cc : Given String
  keepObject : Bool
  run : Bool
  logLevel : Given String
deriving DecidableEq, Repr

/-- A complete command line. -/
structure Invocation where
  inputFile : Path
  settings : Settings
deriving DecidableEq, Repr

/-- Sets a flag. -/
def Settings.setFlag (s : Settings) : Opt → Except Refusal Settings
  | .help => .error .help
  | .optimize => .ok { s with optimize := true }
  | .keepObject => .ok { s with keepObject := true }
  | .run => .ok { s with run := true }
  | _ => .ok s

/-- Sets an option to a value. -/
def Settings.setValue (s : Settings) (value : String) : Opt → Except Refusal Settings
  | .outputFile => .ok { s with outputFile := some (.value (Path.ofString value)) }
  | .emit =>
    match Artefact.ofName? value with
    | some a => .ok { s with artefact := .value a }
    | none => .error (.usage (.invalidChoice .emit value))
  | .cc => .ok { s with cc := .value value }
  | .logLevel => .ok { s with logLevel := .value value }
  | _ => .ok s

/-- Sets an option to nothing. -/
def Settings.setNothing (s : Settings) : Opt → Settings
  | .outputFile => { s with outputFile := some .nothing }
  | .emit => { s with artefact := .nothing }
  | .cc => { s with cc := .nothing }
  | .logLevel => { s with logLevel := .nothing }
  | _ => s

/-- Sets an option to what is given in its argument. -/
def Settings.set (s : Settings) (given : String) (o : Opt) : Except Refusal Settings :=
  if given = "--" then .ok (s.setNothing o) else s.setValue given o

/-- The options that one argument holds: flags, and perhaps an option that needs a value, with the
value if it is in the argument too. -/
structure Joined where
  flags : List Opt
  last : Option (Opt × Option String)

/-- Takes apart the short options that stand behind one in the same argument. -/
def unjoinShort (o : Opt) : List Char → Except UsageError Joined
  | [] => if o.takesValue then .ok ⟨[], some (o, none)⟩ else .ok ⟨[o], none⟩
  | c :: cs =>
    if o.takesValue then .ok ⟨[], some (o, some (String.ofList (c :: cs)))⟩
    else
      match Opt.find? (String.ofList ['-', c]) with
      | some next => do
        let joined ← unjoinShort next cs
        return { joined with flags := o :: joined.flags }
      | none => .error (.ignoredArgument o (String.ofList (c :: cs)))

/-- Takes apart an argument with options. -/
def unjoin (o : Opt) (short : Bool) : Option (List Char) → Except UsageError Joined
  | none => unjoinShort o []
  | some value =>
    if o.takesValue then .ok ⟨[], some (o, some (String.ofList value))⟩
    else if short && !value.isEmpty then unjoinShort o value
    else .error (.ignoredArgument o (String.ofList value))

/-- What has been read so far. -/
structure Progress where
  settings : Settings
  input : Option String
  /-- Arguments that nothing was done with. -/
  extras : List String

namespace Progress

/-- Takes a plain argument as the input file, or notes it. -/
def plain (s : Progress) (text : String) : Progress :=
  match s.input with
  | none => { s with input := some text }
  | some _ => { s with extras := s.extras ++ [text] }

/-- Goes through sorted arguments. -/
def read : List Argument → Progress → Except Refusal Progress
  | [], s => .ok s
  | .unknown text :: rest, s => read rest { s with extras := s.extras ++ [text] }
  -- a separator belongs to the plain argument that is taken next to it
  | .separator :: rest, s =>
    match s.input, rest with
    | none, .plain text :: rest => read rest (s.plain text)
    | _, rest => read rest { s with extras := s.extras ++ ["--"] }
  | .plain text :: rest, s =>
    match s.input, rest with
    | none, .separator :: rest => read rest (s.plain text)
    | _, rest => read rest (s.plain text)
  | .option o short value :: rest, s => do
    let joined ← (unjoin o short value).mapError .usage
    match joined.last, rest with
    | none, rest =>
      let settings ← joined.flags.foldlM Settings.setFlag s.settings
      read rest { s with settings := settings }
    | some (last, some value), rest =>
      let settings ← joined.flags.foldlM Settings.setFlag s.settings
      let settings ← settings.set value last
      read rest { s with settings := settings }
    | some (last, none), .plain value :: rest =>
      let settings ← joined.flags.foldlM Settings.setFlag s.settings
      let settings ← settings.setValue value last
      read rest { s with settings := settings }
    | some (last, none), _ => throw (.usage (.expectedArgument last))

end Progress

/-- What the environment says. -/
structure Environment where
  /-- The C compiler. -/
  cc : Option String
  logLevel : Option String
  /-- Where programs are looked for. -/
  searchPath : Option String
  /-- The width of the terminal. -/
  columns : Option String
deriving DecidableEq, Repr

/-- What is asked for when no option is given. -/
def Settings.default (env : Environment) : Settings where
  outputFile := none
  optimize := false
  artefact := .value .exe
  cc := .value (defaultCompiler env.cc)
  keepObject := false
  run := false
  logLevel := .value (env.logLevel.getD "WARNING")

/-- Reads a command line.  A missing input file is noticed before arguments that are left over. -/
def Invocation.read (env : Environment) (arguments : List String) : Except Refusal Invocation := do
  let sorted ← (sortArguments arguments).mapError .usage
  let progress ← Progress.read sorted ⟨.default env, none, []⟩
  match progress.input with
  | none => throw (.usage .missingInput)
  | some input =>
    if progress.extras.isEmpty then return ⟨.ofString input, progress.settings⟩
    else throw (.usage (.unrecognized progress.extras))

end Brainfuck.CommandLine
