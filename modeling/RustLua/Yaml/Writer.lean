import RustLua.Bytes.Utf8
import RustLua.Yaml.Node

/-!
Writing trees as block text with an indent of two. A scalar is plain if it can
be; a string that would be read as something else stands in double quotes, one
that cannot be plain in single quotes if those can hold it.
-/

namespace RustLua.Yaml

/-! ## Characters -/

def isBlankChar (c : Char) : Bool := c = ' ' || c = '\t'

/-- Line breaks: the two of ASCII, next line, line and paragraph separator. -/
def isBreak (c : Char) : Bool :=
  c = '\n' || c = '\r' || c.toNat = 0x85 || c.toNat = 0x2028 || c.toNat = 0x2029

/-- The characters that may stand for themselves. -/
def isWritable (c : Char) : Bool :=
  let n := c.toNat
  n = 0x0A || (0x20 ≤ n && n ≤ 0x7E) || (0xA0 ≤ n && n ≤ 0xFFFD && n ≠ 0xFEFF)

/-- The characters of valid text. -/
def charsOf (text : Bytes) : List Char :=
  (Utf8.chunks text).filterMap fun
    | .char c => some c
    | .stray _ => none

/-! ## Plain scalars -/

/-- Would a character, between its neighbours, start something else than text? In flow
sequences more characters do. -/
def isIndicator (inFlow : Bool) (before : Option Char) (c : Char) (behind : Option Char) : Bool :=
  let followed := (behind.map isBlankChar).getD true
  match before with
  | none =>
    "#,[]\x7b\x7d&*!|>'\"%@`".toList.contains c ||
      ((c = '?' || c = ':') && (inFlow || followed)) || (c = '-' && followed)
  | some b =>
    (inFlow && ",?[]\x7b\x7d".toList.contains c) || (c = ':' && (inFlow || followed)) ||
      (c = '#' && (isBlankChar b || isBreak b))

def hasIndicator (inFlow : Bool) (before : Option Char) : List Char → Bool
  | [] => false
  | c :: rest => isIndicator inFlow before c rest.head? || hasIndicator inFlow (some c) rest

/-- Does a text start like a mark between documents? -/
def startsDocument (chars : List Char) : Bool :=
  "---".toList.isPrefixOf chars || "...".toList.isPrefixOf chars

/-- Is there a blank right before a line break or right behind one? -/
def hasLooseBlank : List Char → Bool
  | c :: d :: rest =>
    (c = ' ' && isBreak d) || (isBreak c && d = ' ') || hasLooseBlank (d :: rest)
  | _ => false

/-- Can single quotes hold a text? -/
def fitsSingleQuotes (chars : List Char) : Bool :=
  chars.all isWritable && !hasLooseBlank chars

def isPlain (inFlow : Bool) (chars : List Char) : Bool :=
  fitsSingleQuotes chars && !chars.any isBreak && chars.head? != some ' ' &&
    chars.getLast? != some ' ' && !startsDocument chars && !hasIndicator inFlow none chars

/-! ## Quoted scalars -/

def upperHex (width n : Nat) : Bytes :=
  (Bytes.hexadecimal width n).map fun b => if Ascii.isLower b then b - 32 else b

def doubleQuotedChar (c : Char) : Bytes :=
  let n := c.toNat
  if n = 0x22 then "\\\"" else if n = 0x5C then "\\\\"
  else if isWritable c && !isBreak c then Utf8.encode c
  else if n = 0 then "\\0" else if n = 7 then "\\a" else if n = 8 then "\\b"
  else if n = 9 then "\\t" else if n = 10 then "\\n" else if n = 11 then "\\v"
  else if n = 12 then "\\f" else if n = 13 then "\\r" else if n = 0x1B then "\\e"
  else if n = 0x85 then "\\N" else if n = 0x2028 then "\\L" else if n = 0x2029 then "\\P"
  else if n ≤ 0xFF then "\\x" ++ upperHex 2 n
  else if n ≤ 0xFFFF then "\\u" ++ upperHex 4 n
  else "\\U" ++ upperHex 8 n

def doubleQuoted (chars : List Char) : Bytes := "\"" ++ chars.flatMap doubleQuotedChar ++ "\""

def blanks (n : Nat) : Bytes := List.replicate n Ascii.blank

/-- The inside of single quotes. Behind a line break the text goes on at the indent. -/
def singleQuotedFrom (indent : Nat) (behindBreak : Bool) : List Char → Bytes
  | [] => []
  | c :: rest =>
    if isBreak c then Utf8.encode c ++ singleQuotedFrom indent true rest
    else
      Bytes.onlyIf behindBreak (blanks indent) ++ Bytes.onlyIf (c = '\'') "'" ++ Utf8.encode c ++
        singleQuotedFrom indent false rest

def singleQuoted (indent : Nat) (chars : List Char) : Bytes :=
  "'" ++ singleQuotedFrom indent false chars ++ "'"

/-- The text of a scalar. Lines behind the first start at the indent. -/
def Scalar.write (inFlow : Bool) (indent : Nat) (s : Scalar) : Bytes :=
  let chars := charsOf s.text
  let misread : Bool := s.tag = .str && Meaning.ofPlain s.text ≠ .text
  if s.quoted || misread || chars.contains '\n' then doubleQuoted chars
  else if isPlain inFlow chars then s.text
  else if fitsSingleQuotes chars then singleQuoted indent chars
  else doubleQuoted chars

/-! ## Collections -/

mutual

/-- A node on one line. -/
def writeFlow (indent : Nat) : Node → Bytes
  | .scalar s => s.write true (indent + 2)
  | .seq _ items => "[" ++ Bytes.join ", " (writeFlowItems (indent + 2) items) ++ "]"
  | .map entries => "\x7b" ++ Bytes.join ", " (writeFlowEntries (indent + 2) entries) ++ "\x7d"

def writeFlowItems (indent : Nat) : List Node → List Bytes
  | [] => []
  | item :: items => writeFlow indent item :: writeFlowItems indent items

def writeFlowEntries (indent : Nat) : List Entry → List Bytes
  | [] => []
  | .mk key value :: entries =>
    ((Scalar.mk .str false key).write true (indent + 2) ++ ": " ++ writeFlow indent value) ::
      writeFlowEntries indent entries

end

/-- Does a node take lines of its own? -/
def Node.isBlock : Node → Bool
  | .scalar _ => false
  | .seq isFlow items => !isFlow && !items.isEmpty
  | .map entries => !entries.isEmpty

mutual

/-- The lines of a block collection whose items or keys stand at the indent, and of any
other node the one line that it takes. -/
def writeBlock (indent : Nat) : Node → Bytes
  | .scalar s => s.write false indent ++ "\n"
  | .seq isFlow items =>
    if isFlow || items.isEmpty then
      "[" ++ Bytes.join ", " (writeFlowItems indent items) ++ "]\n"
    else writeItems indent items
  | .map entries => if entries.isEmpty then "\x7b\x7d\n" else writeEntries indent entries

/-- The items of a sequence; a block inside starts on the line of its dash. -/
def writeItems (indent : Nat) : List Node → Bytes
  | [] => []
  | item :: items =>
    blanks indent ++ "- " ++ (writeBlock (indent + 2) item).dropWhile (· == Ascii.blank) ++
      writeItems indent items

/-- The entries of a mapping; a block inside starts on the next line. -/
def writeEntries (indent : Nat) : List Entry → Bytes
  | [] => []
  | .mk key value :: entries =>
    blanks indent ++ (Scalar.mk .str false key).write false (indent + 2) ++ ":" ++
      (if value.isBlock then "\n" else " ") ++ writeBlock (indent + 2) value ++
      writeEntries indent entries

end

/-- The document of a tree, if all of its scalars are valid text. -/
def Node.write? (node : Node) : Option Bytes :=
  if node.scalars.all Utf8.isValid then some (writeBlock 0 node) else none

end RustLua.Yaml
