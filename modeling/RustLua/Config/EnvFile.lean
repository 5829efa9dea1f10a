import RustLua.Bytes.Ascii
import RustLua.Bytes.Quoted

/-!
Files of environment variables: lines of a name, an equals sign or a colon, and
a value. Values may stand in quotes, and refer to variables further up.
-/

namespace RustLua.Config.EnvFile

abbrev Variables := List (Bytes × Bytes)

inductive ReadError where
  | unexpectedByte (b : UInt8) (near : Bytes)
  | emptyStatement
  | unterminated (value : Bytes)
deriving DecidableEq, Repr

def ReadError.message : ReadError → Bytes
  | .unexpectedByte b near =>
    "unexpected character " ++ Bytes.quoted (Utf8.encodeByte b) ++ " in variable name near " ++
      Bytes.quoted near
  | .emptyStatement => "zero length string"
  | .unterminated value => "unterminated quoted value " ++ value

/-! ## Blanks -/

/-- White space that does not end a line, by its code. -/
def isBlankCode (n : Nat) : Bool :=
  n = 9 || n = 11 || n = 12 || n = 13 || n = 32 || n = 0x85 || n = 0xA0

def isBlankChunk : Utf8.Chunk → Bool
  | .char c => isBlankCode c.toNat
  | .stray _ => false

def textOf (chunks : List Utf8.Chunk) : Bytes := chunks.flatMap Utf8.Chunk.bytes

def trimLeft (text : Bytes) : Bytes := textOf ((Utf8.chunks text).dropWhile isBlankChunk)

def trimBoth (chunks : List Utf8.Chunk) : List Utf8.Chunk :=
  ((chunks.dropWhile isBlankChunk).reverse.dropWhile isBlankChunk).reverse

def isLineEnd (b : UInt8) : Bool := b == Ascii.newline || b == Ascii.carriageReturn

/-- Line ends of two bytes become newlines. -/
def unixLines : Bytes → Bytes
  | a :: b :: rest =>
    if a = Ascii.carriageReturn ∧ b = Ascii.newline then b :: unixLines rest
    else a :: unixLines (b :: rest)
  | text => text

/-! ## Names -/

/-- Letters, digits, underscores and dots; bytes past ASCII count by the character with
their code. -/
def isNameByte (b : UInt8) : Bool :=
  Ascii.isWord b || b == Ascii.dot || b == 0xAA || b == 0xB5 || b == 0xBA || 0xF8 ≤ b ||
    (0xC0 ≤ b && b ≤ 0xF6 && b != 0xD7) || b == 0xB2 || b == 0xB3 || b == 0xB9 ||
    (0xBC ≤ b && b ≤ 0xBE)

/-- Without the word that may stand before a name. -/
def dropExport (text : Bytes) : Bytes :=
  let word : Bytes := "export"
  let behind := text.drop word.length
  if word.isPrefixOf text && (trimLeft behind).length < behind.length then trimLeft behind
  else text

/-- The length of a name up to its equals sign or colon, if there is one. -/
def nameLength (near : Bytes) : Bytes → Except ReadError (Option Nat)
  | [] => .ok none
  | b :: rest =>
    if b = Bytes.ofAscii '=' ∨ b = Ascii.colon then .ok (some 0)
    else if isBlankCode b.toNat || isNameByte b then
      (nameLength near rest).map (·.map (· + 1))
    else .error (.unexpectedByte b near)

/-- A name and what stands behind its sign. Without a sign the name is empty. -/
def splitName (text : Bytes) : Except ReadError (Bytes × Bytes) := do
  let text := dropExport (trimLeft text)
  if text.isEmpty then throw .emptyStatement
  match ← nameLength text text with
  | some n =>
    let name := (Utf8.chunks (text.take n)).reverse.dropWhile Unicode.isBlankChunk
    return (textOf name.reverse, trimLeft (text.drop (n + 1)))
  | none => return ([], trimLeft text)

/-! ## References -/

def isReferenceByte (b : UInt8) : Bool :=
  Ascii.isUpper b || Ascii.isDigit b || b == Ascii.underscore

/-- The end of a reference behind its dollar sign: an opening parenthesis, an opening
brace, a name and a closing brace, each of which may be missing. The name and the length. -/
def referenceEnd (text : Bytes) : Bytes × Nat :=
  let paren := if text.headD 0 = Bytes.ofAscii '(' then 1 else 0
  let brace := if (text.drop paren).headD 0 = Ascii.braceOpen then 1 else 0
  let name := (text.drop (paren + brace)).takeWhile isReferenceByte
  let n := paren + brace + name.length
  (name, if (text.drop n).headD 0 = Ascii.braceClose then n + 1 else n)

def dollar : UInt8 := 36

/-- Put the values of variables in the place of references. Behind a backslash a dollar
sign is one; the first `skip` bytes are done with. -/
def expandFrom (vars : Variables) : Nat → Bytes → Bytes
  | _, [] => []
  | skip + 1, _ :: rest => expandFrom vars skip rest
  | 0, b :: rest =>
    if b = Ascii.backslash ∧ rest.headD 0 = dollar then
      let n := (referenceEnd (rest.drop 1)).2
      rest.take (n + 1) ++ expandFrom vars (n + 1) rest
    else if b = dollar then
      let (name, n) := referenceEnd rest
      (if name.isEmpty then b :: rest.take n else (vars.lookup name).getD []) ++
        expandFrom vars n rest
    else b :: expandFrom vars 0 rest

def expand (vars : Variables) (text : Bytes) : Bytes := expandFrom vars 0 text

/-! ## Values -/

/-- `\n` and `\r` become what they stand for. -/
def expandEscapes : Bytes → Bytes
  | a :: b :: rest =>
    if a = Ascii.backslash then
      if b = Bytes.ofAscii 'n' then Ascii.newline :: expandEscapes rest
      else if b = Bytes.ofAscii 'r' then Ascii.carriageReturn :: expandEscapes rest
      else if b = Ascii.newline then a :: expandEscapes (b :: rest)
      else a :: b :: expandEscapes rest
    else a :: expandEscapes (b :: rest)
  | text => text

/-- A backslash before anything but a dollar sign goes. -/
def dropBackslashes : Bytes → Bytes
  | a :: b :: rest =>
    if a = Ascii.backslash ∧ b ≠ dollar then b :: dropBackslashes rest
    else a :: dropBackslashes (b :: rest)
  | text => text

/-- What stands before the last comment of a reversed line, if there is one: a hash sign
with a blank before it. -/
def beforeComment? : List Utf8.Chunk → Option (List Utf8.Chunk)
  | c :: blank :: rest =>
    if c = .char '#' && isBlankChunk blank then some (blank :: rest)
    else beforeComment? (blank :: rest)
  | _ => none

def withoutComment (line : List Utf8.Chunk) : List Utf8.Chunk :=
  match beforeComment? line.reverse with
  | some before => before.reverse
  | none => line

/-- Stray bytes become replacement characters. -/
def replaceStray : Utf8.Chunk → Utf8.Chunk
  | .char c => .char c
  | .stray _ => .char (Char.ofNat 0xFFFD)

def plainValue (vars : Variables) (text : Bytes) : Bytes × Bytes :=
  let line := text.takeWhile (!isLineEnd ·)
  let value := trimBoth (withoutComment ((Utf8.chunks line).map replaceStray))
  (expand vars (textOf value), text.drop line.length)

/-- The offset of the closing quote: the first one that no backslash stands before. -/
def closingQuote? (quote before : UInt8) : Bytes → Option Nat
  | [] => none
  | b :: rest =>
    if b = quote ∧ before ≠ Ascii.backslash then some 0
    else (closingQuote? quote b rest).map (· + 1)

def trimQuotes (quote : UInt8) (text : Bytes) : Bytes :=
  ((text.dropWhile (· == quote)).reverse.dropWhile (· == quote)).reverse

def quotedValue (vars : Variables) (quote : UInt8) (rest : Bytes) :
    Except ReadError (Bytes × Bytes) :=
  match closingQuote? quote quote rest with
  | none => .error (.unterminated (quote :: rest.takeWhile (· != Ascii.newline)))
  | some n =>
    let inside := trimQuotes quote (rest.take n)
    let value :=
      if quote = Ascii.quote then expand vars (dropBackslashes (expandEscapes inside))
      else inside
    .ok (value, rest.drop (n + 1))

def value (vars : Variables) (text : Bytes) : Except ReadError (Bytes × Bytes) :=
  match text with
  | [] => .ok ([], [])
  | b :: rest =>
    if b = Ascii.quote ∨ b = Ascii.apostrophe then quotedValue vars b rest
    else .ok (plainValue vars text)

/-! ## Statements -/

/-- What is left from the next statement on: blanks, lines and comments are skipped. -/
def statementStart (inComment : Bool) : List Utf8.Chunk → List Utf8.Chunk
  | [] => []
  | chunk :: rest =>
    if chunk = .char '\n' then statementStart false rest
    else if inComment || Unicode.isBlankChunk chunk then statementStart inComment rest
    else if chunk = .char '#' then statementStart true rest
    else chunk :: rest

/-- A later value takes the place of an earlier one. -/
def setVariable (vars : Variables) (name value : Bytes) : Variables :=
  (name, value) :: vars.filter (·.1 ≠ name)

/-- At most `fuel` statements. Each takes at least a byte. -/
def statements : Nat → Variables → Bytes → Except ReadError Variables
  | 0, vars, _ => .ok vars
  | fuel + 1, vars, text => do
    let start := textOf (statementStart false (Utf8.chunks text))
    if start.isEmpty then return vars
    let (name, rest) ← splitName start
    let (value, rest) ← value vars rest
    statements fuel (setVariable vars name value) rest

/-- The variables of a file. -/
def read (text : Bytes) : Except ReadError Variables :=
  let text := unixLines text
  statements (text.length + 1) [] text

/-- The environment with the variables of a file that it does not have. A value with a NUL
cannot be set. -/
def extend (env vars : Variables) : Variables :=
  env ++ vars.filter fun v =>
    !env.any (·.1 = v.1) && !v.1.isEmpty && !v.2.any (· == Ascii.nul)

end RustLua.Config.EnvFile
