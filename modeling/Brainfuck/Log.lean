/-!
# Log lines

Every stage of the compiler notes what it does.  A line has a level and the name of the part that
wrote it, and is shown if its level is at least the one asked for.  Levels are asked for by name, in
any letter case; a word that is no name stands for the usual level.  Two words name other things of
a log, its format and its styles, and are refused.

* `Level`, `Level.read`: levels and their names.
* `NotALevel`: the words that are refused.
* `LogLine.text`: how a line is shown.
-/

namespace Brainfuck

/-- How much a line matters. -/
inductive Level where
  | notset
  | debug
  | info
  | warning
  | error
  | critical
deriving DecidableEq, Repr

namespace Level

/-- The rank of a level. -/
def rank : Level → Nat
  | notset => 0
  | debug => 10
  | info => 20
  | warning => 30
  | error => 40
  | critical => 50

/-- The name of a level. -/
def name : Level → String
  | notset => "NOTSET"
  | debug => "DEBUG"
  | info => "INFO"
  | warning => "WARNING"
  | error => "ERROR"
  | critical => "CRITICAL"

/-- The capital form of a character, as far as it can be part of a level's name. -/
def capital (c : Char) : List Char :=
  match c.toNat with
  | 0xdf => ['S', 'S']
  | 0x131 => ['I']
  | 0x17f => ['S']
  | 0xfb00 => ['F', 'F']
  | 0xfb01 => ['F', 'I']
  | 0xfb02 => ['F', 'L']
  | 0xfb03 => ['F', 'F', 'I']
  | 0xfb04 => ['F', 'F', 'L']
  | 0xfb05 | 0xfb06 => ['S', 'T']
  | _ => [c.toUpper]

end Level

/-- What a word names that names no level. -/
inductive NotALevel where
  | format
  | styles
deriving DecidableEq, Repr

namespace NotALevel

/-- The format of a line, quoted. -/
def formatText : String := "'%(levelname)s:%(name)s:%(message)s'"

/-- The styles of formats: marks, kinds and the format in each. -/
def stylesText : String :=
  "\x7b'%': (<class 'logging.PercentStyle'>, " ++ formatText ++
    "), '\x7b': (<class 'logging.StrFormatStyle'>, " ++
    "'\x7blevelname\x7d:\x7bname\x7d:\x7bmessage\x7d'" ++
    "), '$': (<class 'logging.StringTemplateStyle'>, " ++
    "'$\x7blevelname\x7d:$\x7bname\x7d:$\x7bmessage\x7d')\x7d"

/-- What is said about it. -/
def message : NotALevel → String
  | format => "Unknown level: " ++ formatText
  | styles => "Level not an integer or a valid string: " ++ stylesText

end NotALevel

/-- The level of a word. -/
def Level.read (word : String) : Except NotALevel Level :=
  match String.ofList (word.toList.flatMap capital) with
  | "NOTSET" => .ok notset
  | "DEBUG" => .ok debug
  | "INFO" => .ok info
  | "ERROR" => .ok error
  | "CRITICAL" | "FATAL" => .ok critical
  | "BASIC_FORMAT" => .error .format
  | "_STYLES" => .error .styles
  | _ => .ok warning

/-- The parts of the compiler that write log lines. -/
inductive Component where
  | commandLine
  | parser
  | optimizer
  | interpreter
  | codegen
  | compiler
  | backend
deriving DecidableEq, Repr

/-- The name of a part. -/
def Component.name : Component → String
  | commandLine => "bfc.cli"
  | parser => "bfc.parser"
  | optimizer => "bfc.optimizer"
  | interpreter => "bfc.interpreter"
  | codegen => "bfc.codegen"
  | compiler => "bfc.api"
  | backend => "bfc.backend"

/-- A line of the log. -/
structure LogLine where
  level : Level
  component : Component
  message : String

/-- How a line is shown. -/
def LogLine.text (l : LogLine) : String :=
  l.level.name ++ " " ++ l.component.name ++ ": " ++ l.message ++ "\n"

/-- Whether a line is shown when a level is asked for. -/
def LogLine.isShown (l : LogLine) (level : Level) : Bool := level.rank ≤ l.level.rank

end Brainfuck
