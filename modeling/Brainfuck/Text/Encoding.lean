import Brainfuck.Text.Lines

/-!
# Reading bytes as text

A source file is read in one of four encodings.  Decoding is strict: bytes that are not a text in
the encoding are refused as a whole.  A byte order mark is an ordinary character, except in the
encoding that is meant to carry it, which drops one at the front.

An encoding goes by several names.  Letter case does not matter, and whatever stands between letters,
digits and dots counts as one low line.

* `Encoding.ofName?`: the encoding of a name.

* `Encoding.decode?`: the text that the bytes stand for.
* `Encoding.readText?`: the same with line ends unified, as source files are read.
-/

namespace Brainfuck.Text

/-- The encodings of source files. -/
inductive Encoding where
  | utf8
  /-- UTF-8 after an optional byte order mark. -/
  | utf8Signed
  | latin1
  | ascii
deriving DecidableEq, Repr

namespace Encoding

/-- All encodings. -/
def all : List Encoding := [utf8, utf8Signed, latin1, ascii]

/-- The name of an encoding. -/
def name : Encoding → String
  | utf8 => "utf_8"
  | utf8Signed => "utf_8_sig"
  | latin1 => "latin_1"
  | ascii => "ascii"

/-- The other names of an encoding. -/
def aliases : Encoding → List String
  | utf8 => ["cp65001", "u8", "utf", "utf8", "utf8_ucs2", "utf8_ucs4"]
  | utf8Signed => []
  | latin1 =>
    ["8859", "cp819", "csisolatin1", "ibm819", "iso8859", "iso8859_1", "iso_8859_1",
      "iso_8859_1_1987", "iso_ir_100", "l1", "latin", "latin1"]
  | ascii =>
    ["646", "ansi_x3.4_1968", "ansi_x3.4_1986", "ansi_x3_4_1968", "cp367", "csascii", "ibm367",
      "iso646_us", "iso_646.irv_1991", "iso_ir_6", "us", "us_ascii"]

/-- Whether a character of a name counts by itself. -/
def isNamePart (c : Char) : Bool :=
  ('a' ≤ c && c ≤ 'z') || ('A' ≤ c && c ≤ 'Z') || ('0' ≤ c && c ≤ '9') || c == '.'

/-- The characters of a name in small letters, with one low line for each gap between two of them. -/
def plainName (gap : Bool) : List Char → List Char
  | [] => []
  | c :: cs =>
    if isNamePart c then (if gap then ['_'] else []) ++ c.toLower :: plainName false cs
    else plainName true cs

/-- The plain form of a name. -/
def normalName (word : String) : String :=
  -- a gap in front of all others is none
  String.ofList (plainName false (word.toList.dropWhile fun c => !isNamePart c))

/-- The encoding that a name stands for.  In another name than the main one, a dot counts as a low
line where the name itself has none. -/
def ofName? (word : String) : Option Encoding :=
  let plain := normalName word
  let undotted := plain.map fun c => if c = '.' then '_' else c
  all.find? fun e => e.aliases.contains plain || e.aliases.contains undotted || e.name == plain

/-- The bytes of the byte order mark. -/
def byteOrderMark : List UInt8 := [0xef, 0xbb, 0xbf]

/-- The text of UTF-8 bytes; overlong forms, surrogates and truncated characters are refused. -/
def decodeUtf8? (bytes : List UInt8) : Option String :=
  String.fromUTF8? ⟨bytes.toArray⟩

/-- The text of bytes that are code points themselves. -/
def decodeLatin1 (bytes : List UInt8) : String :=
  String.ofList (bytes.map fun b => Char.ofNat b.toNat)

/-- The text that bytes stand for, if they stand for one.  A file that ends inside the byte order
mark counts as the mark. -/
def decode? : Encoding → List UInt8 → Option String
  | .utf8, bytes => decodeUtf8? bytes
  | .utf8Signed, bytes =>
    if bytes.isPrefixOf byteOrderMark then some ""
    else if byteOrderMark.isPrefixOf bytes then decodeUtf8? (bytes.drop 3)
    else decodeUtf8? bytes
  | .latin1, bytes => some (decodeLatin1 bytes)
  | .ascii, bytes => if bytes.all (· < 0x80) then some (decodeLatin1 bytes) else none

/-- The text of a file: decoded, with every line end a newline. -/
def readText? (encoding : Encoding) (bytes : List UInt8) : Option String :=
  (encoding.decode? bytes).map fun text => String.ofList (unifyLineEnds text.toList)

end Encoding

end Brainfuck.Text
