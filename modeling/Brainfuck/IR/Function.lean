import Brainfuck.IR.Name

/-!
# Functions in single-assignment form

A function is a list of blocks, a block a list of lines, and a line an operation together with the
name of its value.  Operations are those that compiled programs need: stack slots, loads and stores,
the address of a cell, arithmetic on bytes and words, comparisons, calls, and the ways to leave a
block.

Calls go to a fixed set of functions.  The first five are of the C library, the other six are the
operations on tape and input that the runtime brings along; the latter take what they may change by
reference.

* `Ty`, `Callee`, `Operand`, `Op`: types, callable functions, operands, operations.
* `Op.ty`: the type of an operation's value, `void` if it has none.
* `Op.isTerminator`: whether an operation leaves its block.
* `Line`, `Block`: named operations, and blocks of them.
-/

namespace Brainfuck.IR

/-- Types of values. -/
inductive Ty where
  | void
  | i1
  | i8
  | i32
  | i64
  | ptr (target : Ty)
deriving DecidableEq, Repr

/-- The functions that can be called. -/
inductive Callee where
  | calloc
  | free
  | fputs
  | putchar
  | fflush
  | moveRight
  | moveRightUntilZero
  | moveLeftUntilZero
  | input
  | moveValueRight
  | moveValueLeft
deriving DecidableEq, Repr

namespace Callee

/-- All callable functions, in the order of their declarations. -/
def all : List Callee :=
  [calloc, free, fputs, putchar, fflush, moveRight, moveRightUntilZero, moveLeftUntilZero, input,
    moveValueRight, moveValueLeft]

/-- The symbol of a function. -/
def symbol : Callee → String
  | calloc => "calloc"
  | free => "free"
  | fputs => "fputs"
  | putchar => "putchar"
  | fflush => "fflush"
  | moveRight => "moveRight"
  | moveRightUntilZero => "moveRightUntilZero"
  | moveLeftUntilZero => "moveLeftUntilZero"
  | input => "input"
  | moveValueRight => "moveValueRight"
  | moveValueLeft => "moveValueLeft"

/-- The type of a function's result. -/
def result : Callee → Ty
  | calloc => .ptr .i8
  | fputs | putchar | fflush => .i32
  | moveLeftUntilZero | moveValueLeft => .i1
  | free | moveRight | moveRightUntilZero | input | moveValueRight => .void

/-- The types of a function's parameters. -/
def parameters : Callee → List Ty
  | calloc => [.i64, .i64]
  | free => [.ptr .i8]
  | fputs => [.ptr .i8, .ptr .i8]
  | putchar => [.i32]
  | fflush => [.ptr .i8]
  | moveRight | moveRightUntilZero => [.ptr (.ptr .i8), .ptr .i64, .ptr .i64, .i64]
  | moveLeftUntilZero => [.ptr .i8, .ptr .i64, .i64]
  | input => [.ptr .i8, .i64, .ptr (.ptr .i8)]
  | moveValueRight => [.ptr (.ptr .i8), .ptr .i64, .i64, .i64]
  | moveValueLeft => [.ptr .i8, .i64, .i64]

end Callee

/-- The output streams of the C library. -/
inductive Stream where
  | stdout
  | stderr
deriving DecidableEq, Repr

/-- What an operation works on. -/
inductive Operand where
  /-- The value of a line. -/
  | reg (name : Name)
  /-- A number. -/
  | int (n : Int)
  /-- The null pointer. -/
  | null
  /-- The variable that holds a stream. -/
  | stream (s : Stream)
deriving DecidableEq, Repr

/-- Arithmetic. -/
inductive Arith where
  | add
  | sub
  | mul
deriving DecidableEq, Repr

/-- Comparisons. -/
inductive Relation where
  /-- Differs from. -/
  | ne
  /-- Is less than, as signed numbers. -/
  | slt
deriving DecidableEq, Repr

/-- An operation. -/
inductive Op where
  /-- A stack slot. -/
  | alloca (ty : Ty)
  | load (ty : Ty) (address : Operand)
  | store (ty : Ty) (value address : Operand)
  /-- The address of the byte at an index behind an address. -/
  | byteAt (base index : Operand)
  /-- The address of the text about a fault. -/
  | errorText
  | arith (f : Arith) (ty : Ty) (left right : Operand)
  | compare (r : Relation) (ty : Ty) (left right : Operand)
  /-- A byte as a number of 32 bits. -/
  | zext (value : Operand)
  | call (f : Callee) (arguments : List Operand)
  /-- A number that depends on the block one comes from. -/
  | phi (incoming : List (Int × Name))
  /-- Goes on in a block. -/
  | br (target : Name)
  /-- Goes on in one of two blocks. -/
  | branch (condition : Operand) (yes no : Name)
  /-- Leaves the function. -/
  | ret (value : Operand)
deriving DecidableEq, Repr

namespace Op

/-- The type of an operation's value. -/
def ty : Op → Ty
  | alloca t => .ptr t
  | load t _ => t
  | byteAt _ _ | errorText => .ptr .i8
  | arith _ t _ _ => t
  | compare _ _ _ _ => .i1
  | zext _ => .i32
  | call f _ => f.result
  | phi _ => .i32
  | store _ _ _ | br _ | branch _ _ _ | ret _ => .void

/-- Whether an operation leaves its block. -/
def isTerminator : Op → Bool
  | br _ | branch _ _ _ | ret _ => true
  | _ => false

end Op

/-- An operation and the name of its value, which it has even if there is no value. -/
structure Line where
  name : Name
  op : Op
deriving DecidableEq, Repr

/-- A block of lines. -/
structure Block where
  label : Name
  lines : Array Line
deriving DecidableEq, Repr

end Brainfuck.IR
