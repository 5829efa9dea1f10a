import RustLua.Bytes.Basic

/-!
Double precision numbers as bit patterns. A finite number is an integer
significand times a power of two, with a sign.
-/

namespace RustLua

structure Double where
  bits : UInt64
deriving DecidableEq, Repr

namespace Double

/-- The bit in front of the fraction: 2^52. -/
def leadingBit : Nat := 0x10000000000000

/-- The sign bit. -/
def isNegative (d : Double) : Bool := Word.signedLimit ≤ d.bits.toNat

/-- The eleven bits of the exponent. -/
def exponentBits (d : Double) : Nat := d.bits.toNat / leadingBit % 2048

/-- The fifty-two bits of the fraction. -/
def fractionBits (d : Double) : Nat := d.bits.toNat % leadingBit

def isNaN (d : Double) : Bool := d.exponentBits = 2047 ∧ d.fractionBits ≠ 0

def isInfinite (d : Double) : Bool := d.exponentBits = 2047 ∧ d.fractionBits = 0

/-- The number with the other sign. -/
def neg (d : Double) : Double := ⟨d.bits ^^^ 0x8000000000000000⟩

/-- The least exponent of the last place. -/
def minExponent : Int := -1074

/-- The significand of a finite number. -/
def significand (d : Double) : Nat :=
  if d.exponentBits = 0 then d.fractionBits else leadingBit + d.fractionBits

/-- The power of two of the last place of a finite number. -/
def exponent (d : Double) : Int :=
  if d.exponentBits = 0 then minExponent else (d.exponentBits : Int) - 1075

/-- The positive number with a significand below 2^53 and an exponent; the
significand is at least 2^52 unless the exponent is the least one. -/
def ofParts (significand : Nat) (exponent : Int) : Double :=
  if significand < leadingBit then ⟨significand.toUInt64⟩
  else ⟨((exponent + 1075).toNat * leadingBit + (significand - leadingBit)).toUInt64⟩

end Double
end RustLua
