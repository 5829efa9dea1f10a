import RustLua.Bytes.Ascii
import RustLua.Bytes.Utf8
import RustLua.Token.Basic

/-!
Literals. Each reader looks at the bytes behind an opening mark and says what
the literal stands for and how many bytes it takes. A width may be one more
than the bytes that are left: an escape cut off by the end of the source still
counts the byte that is missing.
-/

namespace RustLua.Token

inductive LiteralError where
  | unterminated
  | badHexEscape
  | badUnicodeEscape
  | openUnicodeEscape
  | unknownEscape (b : UInt8)
  | openRawString
  | badChar
  | openChar
deriving DecidableEq, Repr

def LiteralError.message : LiteralError → Bytes
  | .unterminated => "unterminated literal"
  | .badHexEscape => "invalid \\x escape"
  | .badUnicodeEscape => "invalid unicode escape"
  | .openUnicodeEscape => "unterminated unicode escape"
  | .unknownEscape b => "unknown escape \\" ++ Utf8.encodeByte b
  | .openRawString => "unterminated raw string"
  | .badChar => "invalid character literal"
  | .openChar => "unterminated character literal"

/-- What reading a literal, or a part of one, gives: its value or a fault, and
the bytes taken. -/
inductive Reading where
  | value (bytes : Bytes) (width : Nat)
  | fault (error : LiteralError) (width : Nat)
deriving DecidableEq, Repr

/-- The reading of a text that starts with an already read part. -/
def Reading.behind (part : Bytes) (width : Nat) : Reading → Reading
  | .value bytes n => .value (part ++ bytes) (width + n)
  | .fault error n => .fault error (width + n)

/-- The scalar value that a text of hexadecimal digits names. -/
def scalar? (digits : Bytes) : Option Char :=
  match Bytes.digitsValue? 16 digits with
  | some n => if n.isValidChar then some (Char.ofNat n) else none
  | none => none

/-- The two digits of a `\x` escape, at most 7F. -/
def hexEscape (text : Bytes) : Reading :=
  match Bytes.digitsValue? 16 (text.take 2) with
  | some n =>
    if text.length < 2 ∨ 0x7F < n then .fault .badHexEscape 1 else .value [n.toUInt8] 3
  | none => .fault .badHexEscape 1

/-- A `\u` escape: braces around digits, among which underscores do not count. -/
def unicodeEscape (text : Bytes) : Reading :=
  match text with
  | [] => .fault .badUnicodeEscape 1
  | b :: rest =>
    if b = Ascii.braceOpen then
      let inner := rest.takeWhile fun b =>
        b != Ascii.braceClose && b != Ascii.nul && b != Ascii.quote
      if rest.getD inner.length 0 = Ascii.braceClose then
        match scalar? (inner.filter (· != Ascii.underscore)) with
        | some c => .value (Utf8.encode c) (inner.length + 3)
        | none => .fault .badUnicodeEscape (inner.length + 3)
      else .fault .openUnicodeEscape (inner.length + 2)
    else .fault .badUnicodeEscape 1

/-- The escape whose backslash has just been read. -/
def escape (text : Bytes) : Reading :=
  let b := text.headD 0
  let rest := text.drop 1
  if b = Bytes.ofAscii 'n' then .value [10] 1
  else if b = Bytes.ofAscii 'r' then .value [13] 1
  else if b = Bytes.ofAscii 't' then .value [9] 1
  else if b = Bytes.ofAscii '0' then .value [0] 1
  else if b = Ascii.backslash ∨ b = Ascii.apostrophe ∨ b = Ascii.quote then .value [b] 1
  else if b = Ascii.newline then .value [] (1 + (rest.takeWhile Ascii.isLayout).length)
  else if b = Bytes.ofAscii 'x' then hexEscape rest
  else if b = Bytes.ofAscii 'u' then unicodeEscape rest
  else .fault (.unknownEscape b) 1

/-- A quoted literal behind its opening quote, after `skip` bytes of an escape
that is already decoded. -/
def quotedFrom : Nat → Bytes → Reading
  | _, [] => .fault .unterminated 0
  | skip + 1, _ :: rest => (quotedFrom skip rest).behind [] 1
  | 0, b :: rest =>
    if b = Ascii.quote then .value [] 1
    else if b = Ascii.nul then .fault .unterminated 0
    else if b = Ascii.backslash then
      match escape rest with
      | .value bytes n => (quotedFrom n rest).behind bytes 1
      | .fault error n => .fault error (1 + n)
    else (quotedFrom 0 rest).behind [b] 1

def quoted (text : Bytes) : Reading := quotedFrom 0 text

/-- Does a raw string start here: `r`, hashes, a quote? -/
def startsRawString (text : Bytes) : Bool :=
  text.headD 0 == Bytes.ofAscii 'r' &&
    ((text.drop 1).dropWhile (· == Ascii.hash)).headD 0 == Ascii.quote

/-- A raw string ends at the first quote that is followed by as many hashes as
stand before its opening quote. Nothing inside it is special. -/
def rawString (text : Bytes) : Reading :=
  let hashes := ((text.drop 1).takeWhile (· == Ascii.hash)).length
  let body := text.drop (hashes + 2)
  match Bytes.find? (Ascii.quote :: List.replicate hashes Ascii.hash) body with
  | some n => .value (body.take n) (hashes + 2 + n + (hashes + 1))
  | none => .fault .openRawString (hashes + 2 + body.length)

/-- Does the apostrophe that a text starts with begin a lifetime name? -/
def startsLifetime (text : Bytes) : Bool :=
  Ascii.isLetter (text.getD 1 0) && text.getD 2 0 != Ascii.apostrophe

/-- A character literal from its opening apostrophe on. -/
def charLiteral (text : Bytes) : Reading :=
  let body := text.drop 1
  let inner : Reading :=
    if body.headD 0 = Ascii.backslash then (escape (body.drop 1)).behind [] 2
    else match Utf8.head? body with
      | some (c, n) =>
        if c.toNat = 0xFFFD ∨ c.toNat = 0 then .fault .badChar 1
        else .value (body.take n) (1 + n)
      | none => .fault .badChar 1
  match inner with
  | .value bytes n =>
    if text.getD n 0 = Ascii.apostrophe then .value bytes (n + 1) else .fault .openChar n
  | .fault error n => .fault error n

def isDigitMark (b : UInt8) : Bool := Ascii.isDigit b || b == Ascii.underscore

def digitsWidth (text : Bytes) : Nat := (text.takeWhile isDigitMark).length

/-- The word glued to a number. -/
def suffix (text : Bytes) : Bytes :=
  if Ascii.isLetter (text.headD 0) then text.takeWhile Ascii.isWord else []

/-- Does a number with a base mark start here: `0x`, `0o` or `0b`? -/
def startsBased (text : Bytes) : Bool :=
  text.headD 0 == Bytes.ofAscii '0' && (text.getD 1 0 == Bytes.ofAscii 'x' ||
    text.getD 1 0 == Bytes.ofAscii 'o' || text.getD 1 0 == Bytes.ofAscii 'b')

/-- The width of a decimal point with digits behind it, 0 if there is none. -/
def fractionWidth (text : Bytes) : Nat :=
  if text.headD 0 = Ascii.dot ∧ Ascii.isDigit (text.getD 1 0) then
    1 + digitsWidth (text.drop 1)
  else 0

/-- The width of an exponent, 0 if there is none. -/
def exponentWidth (text : Bytes) : Nat :=
  let next := text.getD 1 0
  if (text.headD 0 = Bytes.ofAscii 'e' ∨ text.headD 0 = Bytes.ofAscii 'E') ∧
      (Ascii.isDigit next ∨
        ((next = Ascii.plus ∨ next = Ascii.minus) ∧ Ascii.isDigit (text.getD 2 0))) then
    2 + digitsWidth (text.drop 2)
  else 0

/-- The kind and the width of a number with its suffix. Behind a base mark every
hexadecimal digit counts, whatever the base, and the number is an integer. -/
def number (text : Bytes) : Kind × Nat :=
  if startsBased text then
    let digits := (text.drop 2).takeWhile fun b => Ascii.isHexDigit b || b == Ascii.underscore
    (.intLit, 2 + digits.length + (suffix (text.drop (2 + digits.length))).length)
  else
    let whole := digitsWidth text
    let fraction := fractionWidth (text.drop whole)
    let exponent := exponentWidth (text.drop (whole + fraction))
    let ending := suffix (text.drop (whole + fraction + exponent))
    let isFloat := 0 < fraction ∨ 0 < exponent ∨ ending.headD 0 = Bytes.ofAscii 'f'
    (if isFloat then .floatLit else .intLit, whole + fraction + exponent + ending.length)

end RustLua.Token
