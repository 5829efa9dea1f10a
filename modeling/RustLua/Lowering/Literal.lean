import RustLua.Ir.Basic
import RustLua.Lowering.Rejection

/-!
Literals. Integers may have a base mark, underscores and a type suffix, and must
fit in 64 bits with their sign; a format template is cut at its `{}` marks.
-/

namespace RustLua.Lowering

open RustLua.Tree

/-- The base that an integer's text is written in, and its text without the mark. -/
def basedText (text : Bytes) : Nat × Bytes :=
  if 2 < text.length ∧ text.headD 0 = Bytes.ofAscii '0' then
    let mark := text.getD 1 0
    if mark = Bytes.ofAscii 'x' then (16, text.drop 2)
    else if mark = Bytes.ofAscii 'o' then (8, text.drop 2)
    else if mark = Bytes.ofAscii 'b' then (2, text.drop 2)
    else (10, text)
  else (10, text)

/-- Without the type suffix. One that no digit precedes is left. -/
def withoutSuffix (text : Bytes) : Bytes :=
  let digits := text.takeWhile fun b => b != Bytes.ofAscii 'i' && b != Bytes.ofAscii 'u'
  if digits.isEmpty then text else digits

/-- The value of an integer literal, with or without a minus sign in front. -/
def integerValue? (text : Bytes) (negative : Bool) : Option Int64 :=
  let (base, digits) := basedText (text.filter (· != Ascii.underscore))
  match Bytes.digitsValue? base (withoutSuffix digits) with
  | some n =>
    if negative then
      if n ≤ Word.signedLimit then some (Int64.ofInt (-(n : Int))) else none
    else if n < Word.signedLimit then some (Int64.ofNat n) else none
  | none => none

/-- The text of a float without underscores and type suffix. -/
def floatDigits (text : Bytes) : Bytes :=
  Bytes.dropEnding "f64" (Bytes.dropEnding "f32" (text.filter (· != Ascii.underscore)))

/-- The node of a literal, a minus sign in front of a number counting as part of it. -/
def literal (l : Literal) (negative : Bool) : Except Rejection Ir.Item :=
  match l.kind with
  | .bool => .ok (.bool (l.value == Bytes.ofString "true"))
  | .string => .ok (.string l.value)
  | .int =>
    match integerValue? l.value negative with
    | some n => .ok (.integer n)
    | none => illFormed l.pos (.integerRange l.value)
  | .float =>
    match Double.read (floatDigits l.value) with
    | .ok d => .ok (.decimal (if negative then d.neg else d))
    | .error error => illFormed l.pos (.floatText l.value (floatDigits l.value) error)
  | .char => unsupported l.pos .charLiteral
  | .bytes => unsupported l.pos .byteStringLiteral

/-- Put a byte in front of the first fragment. -/
def prepend (b : UInt8) : List Bytes → List Bytes
  | [] => [[b]]
  | fragment :: rest => (b :: fragment) :: rest

/-- The fragments of a format template around its marks; a doubled brace stands
for one. There is always one fragment more than there are marks. -/
def splitFormat : Bytes → List Bytes
  | [] => [[]]
  | [b] => [[b]]
  | b :: c :: rest =>
    if b = Ascii.braceOpen ∧ c = Ascii.braceOpen then prepend b (splitFormat rest)
    else if b = Ascii.braceClose ∧ c = Ascii.braceClose then prepend b (splitFormat rest)
    else if b = Ascii.braceOpen ∧ c = Ascii.braceClose then [] :: splitFormat rest
    else prepend b (splitFormat (c :: rest))

/-- A format with as many slots as its template has marks, numbered in order. -/
def formatItem (template : Bytes) (values : List Ir.Item) : Ir.Item :=
  let fragments := splitFormat template
  .format fragments ((List.range (fragments.length - 1)).map fun (i : Nat) => (i : Int) + 1) values

end RustLua.Lowering
