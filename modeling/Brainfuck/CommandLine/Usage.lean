import Brainfuck.CommandLine.Grammar
import Brainfuck.Text.Lines

/-!
# Usage and help

The account of the options is laid out for the width of the terminal.  Words and options are filled
into lines: a line ends before a part that would take it past the width, and a line has at least one
part.

The usage stands in one line if it fits.  Otherwise it goes on under the first option, and the input
file starts a line of its own; on a terminal so narrow that the name of the command takes more than
three quarters of it, the name stands alone and the rest below it.  Help stands in a column of its
own behind the options, which gives way on a narrow terminal.  No word of it is longer than eleven
characters, and no column is narrower.

* `fill`: filling lines.
* `usageText`, `helpText`: the short and the long account.
-/

namespace Brainfuck.CommandLine

/-! ## Widths -/

/-- The width of a terminal about which nothing is known. -/
def usualColumns : Int := 80

/-- The width for text, two columns less than the terminal. -/
def Environment.width (env : Environment) : Int :=
  let columns := (env.columns.bind Text.readInt?).getD usualColumns
  (if 0 < columns then columns else usualColumns) - 2

/-- Fills lines with parts, one blank between two.  Of the current line, `filled` columns are taken,
its blank in front of the next part left out; the other lines begin at column `start`. -/
def fill (width start : Int) (line : List String) (filled : Int) : List String → List String
  | [] => if line.isEmpty then [] else [" ".intercalate line]
  | part :: parts =>
    if width < filled + 1 + part.length && !line.isEmpty then
      " ".intercalate line :: fill width start [part] (start + part.length) parts
    else fill width start (line ++ [part]) (filled + 1 + part.length) parts

/-- Fills lines that all begin at a column. -/
def fillFrom (width start : Int) (parts : List String) : List String :=
  fill width start [] (start - 1) parts

/-- Some blanks. -/
def blanks (n : Nat) : String := String.ofList (List.replicate n ' ')

/-! ## Options -/

namespace Opt

/-- What stands for the value of an option. -/
def placeholder? : Opt → Option String
  | outputFile => some "OUTPUT_FILE"
  | emit => some ("\x7b" ++ ",".intercalate (Artefact.all.map Artefact.name) ++ "\x7d")
  | cc => some "CC"
  | logLevel => some "LOG_LEVEL"
  | help | optimize | keepObject | run => none

/-- A spelling of an option with what stands for its value. -/
def withPlaceholder (o : Opt) (spelling : String) : String :=
  match o.placeholder? with
  | some word => spelling ++ " " ++ word
  | none => spelling

/-- An option in the usage, under its first spelling. -/
def usagePart (o : Opt) : String :=
  "[" ++ o.withPlaceholder (o.spellings.headD "") ++ "]"

/-- An option with all its spellings. -/
def heading (o : Opt) : String := ", ".intercalate (o.spellings.map o.withPlaceholder)

/-- What an option does. -/
def description : Opt → String
  | help => "show this help message and exit"
  | outputFile => "Output path (default: input without suffix)"
  | optimize => "Rewrite loop idioms and run LLVM at O2"
  | emit => "Artefact to produce (default exe)"
  | cc => "C compiler used for linking"
  | keepObject => "Keep the object file next to the output"
  | run => "Execute with the reference interpreter instead"
  | logLevel => "Logging level (default WARNING)"

end Opt

/-! ## The short account -/

/-- The name of the command. -/
def commandName : String := "bfc"

/-- The name of the input file in accounts. -/
def inputName : String := "input_file"

/-- What the usage begins with. -/
def usageWord : String := "usage: "

/-- The lines of the usage, what they begin with left out of the first. -/
def usageLines (width : Int) : List String :=
  let options := Opt.all.map Opt.usagePart
  let oneLine := " ".intercalate (commandName :: options ++ [inputName])
  if usageWord.length + oneLine.length ≤ width then [oneLine]
  else if 4 * (usageWord.length + commandName.length) ≤ 3 * width then
    let start := usageWord.length + commandName.length + 1
    match fill width start [] (usageWord.length - 1) (commandName :: options) with
    | [] => []
    | first :: rest =>
      first :: (rest ++ fillFrom width start [inputName]).map (blanks start ++ ·)
  else
    let start := usageWord.length
    let together := fillFrom width start (options ++ [inputName])
    let lines :=
      if together.length ≤ 1 then together
      else fillFrom width start options ++ fillFrom width start [inputName]
    commandName :: lines.map (blanks start ++ ·)

/-- The short account of the options. -/
def usageText (width : Int) : String := usageWord ++ Text.unlines (usageLines width) ++ "\n"

/-! ## The long account -/

/-- The words of a text. -/
def words (text : String) : List String := text.splitOn " "

/-- The least width of a column of text. -/
def leastColumn : Int := 11

/-- The column at which help begins. -/
def helpColumn (width : Int) : Nat := (min 24 (max (width - 20) 4)).toNat

/-- The lines about an option or about the input file: the help begins behind the heading if there is
room for it, and below otherwise. -/
def helpLines (width : Int) (heading help : String) : List String :=
  let column := helpColumn width
  let lines := fillFrom (max (width - column) leastColumn) 0 (words help)
  let below := lines.map (blanks column ++ ·)
  let room := column - 4
  if heading.length ≤ room then
    match lines, below with
    | first :: _, _ :: below =>
      ("  " ++ heading ++ blanks (room - heading.length) ++ "  " ++ first) :: below
    | _, _ => ["  " ++ heading]
  else ("  " ++ heading) :: below

/-- The long account of the options. -/
def helpText (width : Int) : String :=
  usageText width ++ Text.unlines
    ([""] ++ fillFrom (max width leastColumn) 0 (words "A Brainfuck to executable compiler") ++
      ["", "positional arguments:"] ++ helpLines width inputName "Brainfuck source file" ++
      ["", "options:"] ++ Opt.all.flatMap (fun o => helpLines width o.heading o.description) ++ [""])

/-- What is shown when a command line is refused. -/
def UsageError.text (width : Int) (e : UsageError) : String :=
  usageText width ++ commandName ++ ": error: " ++ e.message ++ "\n"

end Brainfuck.CommandLine
