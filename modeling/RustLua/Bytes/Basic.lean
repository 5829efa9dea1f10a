/-!
Byte strings. Source text, names, string literals and every produced text are
sequences of bytes, because a source need not be valid UTF-8. A string literal
stands for its UTF-8 bytes wherever bytes are expected.
-/

namespace RustLua

abbrev Bytes := List UInt8

namespace Bytes

/-- The UTF-8 bytes of a text. -/
def ofString (s : String) : Bytes := s.toUTF8.data.toList

instance : Coe String Bytes := ⟨ofString⟩

/-- The byte of an ASCII character. -/
def ofAscii (c : Char) : UInt8 := c.toNat.toUInt8

/-- A natural number in decimal, without leading zeros. -/
def decimal (n : Nat) : Bytes := (Nat.toDigits 10 n).map ofAscii

/-- An integer in decimal, a minus sign in front of a negative one. -/
def integer : Int → Bytes
  | .ofNat n => decimal n
  | .negSucc n => ofAscii '-' :: decimal (n + 1)

/-- A decimal number filled up with zeros to `width` digits. -/
def decimalPadded (width n : Nat) : Bytes :=
  List.replicate (width - (decimal n).length) (ofAscii '0') ++ decimal n

/-- The lower-case hexadecimal digits of a number, filled up with zeros to `width`. -/
def hexadecimal (width n : Nat) : Bytes :=
  let digits := (Nat.toDigits 16 n).map ofAscii
  List.replicate (width - digits.length) (ofAscii '0') ++ digits

/-- The parts with a separator between neighbours. -/
def join (separator : Bytes) (parts : List Bytes) : Bytes := separator.intercalate parts

/-- A text that is there only on a condition. -/
def onlyIf (condition : Bool) (text : Bytes) : Bytes := if condition then text else []

/-- The offset of the first occurrence of `needle`. -/
def find? (needle : Bytes) : Bytes → Option Nat
  | [] => if needle.isEmpty then some 0 else none
  | b :: rest =>
    if needle.isPrefixOf (b :: rest) then some 0 else (find? needle rest).map (· + 1)

def contains (needle text : Bytes) : Bool := (find? needle text).isSome

/-- Without the given ending, if the text has it. -/
def dropEnding (ending text : Bytes) : Bytes :=
  if ending.isSuffixOf text then text.take (text.length - ending.length) else text

/-- Split at every occurrence of one byte; there is always at least one part. -/
def splitOnByte (separator : UInt8) : Bytes → List Bytes
  | [] => [[]]
  | b :: rest =>
    match splitOnByte separator rest with
    | [] => [[b]]
    | part :: parts => if b = separator then [] :: part :: parts else (b :: part) :: parts

/-- The value of a text of digits in a base up to sixteen; none if the text is
empty or holds another byte. -/
def digitValue? (base : Nat) (b : UInt8) : Option Nat :=
  let n := b.toNat
  let value? :=
    if 48 ≤ n ∧ n ≤ 57 then some (n - 48)
    else if 97 ≤ n ∧ n ≤ 102 then some (n - 87)
    else if 65 ≤ n ∧ n ≤ 70 then some (n - 55)
    else none
  value?.filter (· < base)

def digitsValue? (base : Nat) (text : Bytes) : Option Nat :=
  if text.isEmpty then none
  else text.foldlM (fun acc b => (digitValue? base b).map (acc * base + ·)) 0

end Bytes

/-! ## The bounds of integers of 64 bits -/

namespace Word

/-- The first natural number that no signed word holds; its negative is the least one. -/
def signedLimit : Nat := 0x8000000000000000

/-- The first natural number that no unsigned word holds. -/
def unsignedLimit : Nat := 0x10000000000000000

/-- The least signed word. -/
def least : Int := -0x8000000000000000

end Word
end RustLua
