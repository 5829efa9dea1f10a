import RustLua.Decimal.Reading
import RustLua.Yaml.Timestamp

/-!
What a plain scalar means: nothing, a truth value, a number, a timestamp, or
the text itself.
-/

namespace RustLua.Yaml

inductive Meaning where
  | null
  | bool (value : Bool)
  | integer (value : Int)
  | float (value : Double)
  | timestamp
  | text
deriving DecidableEq, Repr

/-- The words that stand for a value. -/
def words : List (String × Meaning) :=
  let infinity : Double := ⟨0x7FF0000000000000⟩
  [("true", .bool true), ("True", .bool true), ("TRUE", .bool true),
   ("false", .bool false), ("False", .bool false), ("FALSE", .bool false),
   ("", .null), ("~", .null), ("null", .null), ("Null", .null), ("NULL", .null),
   (".nan", .float ⟨0x7FF8000000000001⟩), (".NaN", .float ⟨0x7FF8000000000001⟩),
   (".NAN", .float ⟨0x7FF8000000000001⟩),
   (".inf", .float infinity), (".Inf", .float infinity), (".INF", .float infinity),
   ("+.inf", .float infinity), ("+.Inf", .float infinity), ("+.INF", .float infinity),
   ("-.inf", .float infinity.neg), ("-.Inf", .float infinity.neg),
   ("-.INF", .float infinity.neg)]

/-! ## Numbers -/

def isSign (b : UInt8) : Bool := b == Ascii.plus || b == Ascii.minus

/-- A number without a sign, in the base that its beginning announces: a zero alone
announces base eight. -/
def unsignedValue? (text : Bytes) : Option Nat :=
  match text with
  | first :: second :: rest =>
    if first = Bytes.ofAscii '0' then
      let letter := Ascii.toLower second
      if letter = Bytes.ofAscii 'b' ∧ !rest.isEmpty then Bytes.digitsValue? 2 rest
      else if letter = Bytes.ofAscii 'o' ∧ !rest.isEmpty then Bytes.digitsValue? 8 rest
      else if letter = Bytes.ofAscii 'x' ∧ !rest.isEmpty then Bytes.digitsValue? 16 rest
      else Bytes.digitsValue? 8 (second :: rest)
    else Bytes.digitsValue? 10 text
  | text => Bytes.digitsValue? 10 text

/-- An integer of 64 bits, signed; or unsigned, if it has no sign. -/
def wordValue? (value? : Bytes → Option Nat) (text : Bytes) : Option Int :=
  match text with
  | [] => none
  | first :: rest =>
    if first = Ascii.minus then
      ((value? rest).filter (· ≤ Word.signedLimit)).map fun n => -(n : Int)
    else if first = Ascii.plus then ((value? rest).filter (· < Word.signedLimit)).map Int.ofNat
    else ((value? text).filter (· < Word.unsignedLimit)).map Int.ofNat

/-- An integer. In binary and octal a sign may also stand behind the base. -/
def integer? (text : Bytes) : Option Int :=
  (wordValue? unsignedValue? text).or <|
    if (Bytes.ofString "0b").isPrefixOf text then wordValue? (Bytes.digitsValue? 2) (text.drop 2)
    else if (Bytes.ofString "0o").isPrefixOf text then
      wordValue? (Bytes.digitsValue? 8) (text.drop 2)
    else none

/-- A decimal with an optional sign. -/
def float? (text : Bytes) : Option Double :=
  match text with
  | [] => none
  | first :: rest =>
    if first = Ascii.minus then (Double.read rest).toOption.map Double.neg
    else if first = Ascii.plus then (Double.read rest).toOption
    else (Double.read text).toOption

/-- Does every underscore stand between digits? -/
def underscoresSeparate (before : Bool) : Bytes → Bool
  | [] => true
  | b :: rest =>
    if b = Ascii.underscore then before && Ascii.isDigit (rest.headD 0) &&
      underscoresSeparate false rest
    else underscoresSeparate (Ascii.isDigit b) rest

def withoutUnderscores (text : Bytes) : Bytes := text.filter (· != Ascii.underscore)

/-- What starts with a sign or a digit: a timestamp, an integer, a decimal or text. -/
def numberMeaning (text : Bytes) : Meaning :=
  if isTimestamp text then .timestamp
  else
    let plain := withoutUnderscores text
    match integer? plain, float? plain with
    | some n, _ => .integer n
    | none, some d => .float d
    | none, none => .text

/-- What starts with a point: a decimal or text. -/
def fractionMeaning (text : Bytes) : Meaning :=
  match underscoresSeparate false text, float? (withoutUnderscores text) with
  | true, some d => .float d
  | _, _ => .text

/-- The meaning of a plain scalar. -/
def Meaning.ofPlain (text : Bytes) : Meaning :=
  match words.find? fun (word, _) => Bytes.ofString word = text with
  | some (_, meaning) => meaning
  | none =>
    match text with
    | [] => .null
    | first :: _ =>
      if isSign first || Ascii.isDigit first then numberMeaning text
      else if first = Ascii.dot then fractionMeaning text
      else .text

end RustLua.Yaml
