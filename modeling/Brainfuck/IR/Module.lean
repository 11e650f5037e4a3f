import Brainfuck.IR.Lowering
import Brainfuck.Text.Lines
import Brainfuck.Text.Occurrence

/-!
# Modules and their text

A module has a name, declares the functions that can be called, the two output streams and the text
about a fault, and defines `main`.  This is the text form that assemblers read.

The streams are variables of the C library, and their symbols depend on the platform.  The name of
the module stands in a comment on the first line, exactly as it is, so a name with a line end spills
over into the code; such a module is refused unless every line of the rest is blank or itself a
comment.

* `StreamSymbols`: the symbols of the streams.
* `Module.ofProgram`: the module of a program.
* `Module.text`, `Module.mainText`: its text, and that of `main` alone.
* `Module.isValid`: whether an assembler reads it.
-/

namespace Brainfuck.IR

/-! ## Platforms -/

/-- The symbols of the output streams. -/
structure StreamSymbols where
  stdout : String
  stderr : String
deriving DecidableEq, Repr

namespace StreamSymbols

/-- The symbols on a platform: with `p` at the end on `darwin` and on every kind of `bsd`. -/
def ofPlatform (platform : String) : StreamSymbols :=
  if platform == "darwin" || Text.occursIn "bsd".toList platform.toList then ⟨"__stdoutp", "__stderrp"⟩
  else ⟨"stdout", "stderr"⟩

/-- The symbol of a stream. -/
def symbol (s : StreamSymbols) : Stream → String
  | .stdout => s.stdout
  | .stderr => s.stderr

end StreamSymbols

/-! ## Text of operations -/

/-- A name that is not a label, as it is written. -/
def quoteName (text : String) : String := "\"" ++ text ++ "\""

/-- How a type is written. -/
def Ty.text : Ty → String
  | void => "void"
  | i1 => "i1"
  | i8 => "i8"
  | i32 => "i32"
  | i64 => "i64"
  | ptr t => t.text ++ "*"

/-- How the value of a line is referred to. -/
def Name.reference (n : Name) : String := "%" ++ quoteName n.text

/-- How a block is referred to. -/
def Name.label (n : Name) : String := "label " ++ n.reference

/-- How an operand is written. -/
def Operand.text (streams : StreamSymbols) : Operand → String
  | reg name => name.reference
  | int n => toString n
  | null => "null"
  | stream s => "@" ++ quoteName (streams.symbol s)

/-- How an operand is written together with its type. -/
def Operand.typed (streams : StreamSymbols) (ty : Ty) (x : Operand) : String :=
  ty.text ++ " " ++ x.text streams

/-- How an arithmetic operation is written. -/
def Arith.text : Arith → String
  | add => "add"
  | sub => "sub"
  | mul => "mul"

/-- How a comparison is written. -/
def Relation.text : Relation → String
  | ne => "ne"
  | slt => "slt"

/-- The bytes of the text about a fault, with the zero byte that ends it. -/
def errorBytes : List UInt8 := faultMessage.toUTF8.toList ++ [0]

/-- The type of the text about a fault. -/
def errorTy : String := "[" ++ toString errorBytes.length ++ " x i8]"

/-- How an operation is written. -/
def Op.text (streams : StreamSymbols) : Op → String
  | alloca ty => "alloca " ++ ty.text
  | load ty address => "load " ++ ty.text ++ ", " ++ address.typed streams (.ptr ty)
  | store ty value address =>
    "store " ++ value.typed streams ty ++ ", " ++ address.typed streams (.ptr ty)
  | byteAt base index =>
    "getelementptr i8, " ++ base.typed streams (.ptr .i8) ++ ", " ++ index.typed streams .i64
  | errorText =>
    "getelementptr inbounds " ++ errorTy ++ ", " ++ errorTy ++ "* @\"errorString\", i32 0, i32 0"
  | arith f ty left right =>
    f.text ++ " " ++ left.typed streams ty ++ ", " ++ right.text streams
  | compare r ty left right =>
    "icmp " ++ r.text ++ " " ++ left.typed streams ty ++ ", " ++ right.text streams
  | zext value => "zext " ++ value.typed streams .i8 ++ " to i32"
  | call f arguments =>
    "call " ++ f.result.text ++ " @" ++ quoteName f.symbol ++ "(" ++
      ", ".intercalate ((f.parameters.zip arguments).map fun (ty, x) => x.typed streams ty) ++ ")"
  | phi incoming =>
    "phi  i32 " ++ ", ".intercalate (incoming.map fun (n, label) =>
      "[" ++ toString n ++ ", " ++ label.reference ++ "]")
  | br target => "br " ++ target.label
  | branch condition yes no =>
    "br " ++ condition.typed streams .i1 ++ ", " ++ yes.label ++ ", " ++ no.label
  | ret value => "ret " ++ value.typed streams .i32

/-- How a line is written: an operation without a value does not show its name. -/
def Line.text (streams : StreamSymbols) (l : Line) : String :=
  if l.op.ty = .void then "  " ++ l.op.text streams
  else "  " ++ l.name.reference ++ " = " ++ l.op.text streams

/-- The lines of a block's text. -/
def Block.textLines (streams : StreamSymbols) (b : Block) : List String :=
  (b.label.text ++ ":") :: b.lines.toList.map (Line.text streams)

/-! ## Modules -/

/-- A module: its name, the symbols of the streams, and the blocks of `main`. -/
structure Module where
  name : String
  streams : StreamSymbols
  blocks : Array Block

/-- The declaration of a function. -/
def Callee.declaration (f : Callee) : String :=
  "declare " ++ f.result.text ++ " @" ++ quoteName f.symbol ++ "(" ++
    ", ".intercalate (f.parameters.zipIdx.map fun (ty, i) =>
      ty.text ++ " %" ++ quoteName ("." ++ toString (i + 1))) ++ ")"

/-- How a byte of a constant text is written. -/
def constantByte (b : UInt8) : List Char :=
  if 0x20 ≤ b && b < 0x7f && b != 0x22 && b != 0x5c then [Char.ofNat b.toNat]
  else '\x5c' :: Text.padLeft '0' 2 (Nat.toDigits 16 b.toNat)

/-- The definition of the text about a fault. -/
def errorDefinition : String :=
  "@\"errorString\" = private unnamed_addr constant " ++ errorTy ++ " c\"" ++
    String.ofList (errorBytes.flatMap constantByte) ++ "\", align 1"

namespace Module

/-- The module that runs a program. -/
def ofProgram (name platform : String) (p : Program) : Except Node Module := do
  return ⟨name, .ofPlatform platform, ← Program.mainBlocks p⟩

/-- The declaration of a stream. -/
def streamDeclaration (m : Module) (s : Stream) : String :=
  "@" ++ quoteName (m.streams.symbol s) ++ " = external global i8*, align 8"

/-- The lines of the text of `main`, the last one empty. -/
def mainLines (m : Module) : List String :=
  "define i32 @\"main\"()" :: "\x7b" :: m.blocks.toList.flatMap (Block.textLines m.streams) ++
    ["\x7d", ""]

/-- The text of `main`. -/
def mainText (m : Module) : String := Text.unlines m.mainLines

/-- The text of a module. -/
def text (m : Module) : String :=
  Text.unlines <|
    ["; ModuleID = " ++ quoteName m.name, "target triple = \"unknown-unknown-unknown\"",
      "target datalayout = \"\"", ""] ++
    Callee.all.flatMap (fun f => [f.declaration, ""]) ++
    [m.streamDeclaration .stdout, m.streamDeclaration .stderr, errorDefinition] ++
    m.mainLines

/-! ## What an assembler makes of a module -/

/-- A comment, or nothing but blanks. -/
def isSkipped (line : List Char) : Bool :=
  match line.dropWhile fun c => c == ' ' || c == '\t' with
  | [] => true
  | c :: _ => c == ';'

/-- Whether an assembler reads a module: only its name can do harm.  A carriage return ends a
comment as well, and a null character ends the whole text. -/
def isValid (m : Module) : Bool :=
  let shown := (quoteName m.name).toList.takeWhile (· != '\x00')
  let (_, rest) := Text.breakLines (Text.unifyLineEnds shown)
  rest.all isSkipped

/-- The symbols of the functions that a module declares, in order. -/
def declares (_ : Module) : List String := Callee.all.map Callee.symbol

/-- The symbols of the functions that a module defines. -/
def defines (_ : Module) : List String := ["main"]

/-- The symbols of a module's variables, in order. -/
def globals (m : Module) : List String :=
  [m.streams.stdout, m.streams.stderr, "errorString"]

/-- The labels of the blocks of `main`, in order. -/
def labels (m : Module) : List String :=
  m.blocks.toList.map fun b => b.label.text

end Module

end Brainfuck.IR
