import RustLua.Bytes.Ascii
import RustLua.Decimal.Shortest

/-!
Reading a decimal as a double: the nearest one, and of two equally near ones
the one with an even significand. A number too large for any double is refused.
-/

namespace RustLua.Double

open Decimal

inductive ReadError where
  | invalidSyntax
  | outOfRange
deriving DecidableEq, Repr

/-- A quotient rounded to the nearest natural, a half to the even one. -/
def roundedQuotient (num den : Nat) : Nat :=
  let q := num / den
  let twice := 2 * (num % den)
  if twice < den then q else if den < twice then q + 1 else if q % 2 = 0 then q else q + 1

/-- The greatest `x` with `2 ^ x ≤ r`, for a positive fraction. -/
def binaryPlace (r : Ratio) : Int :=
  let x : Int := (Nat.log2 r.num : Int) - Nat.log2 r.den
  if (Ratio.scaled 1 2 x).le r then x else x - 1

/-- The double nearest to a positive fraction. -/
def ofRatio (r : Ratio) : Except ReadError Double :=
  let e := max (binaryPlace r - 52) minExponent
  let step : Ratio := .scaled 1 2 e
  let m := roundedQuotient (r.num * step.den) (r.den * step.num)
  let (m, e) := if m = 2 * leadingBit then (leadingBit, e + 1) else (m, e)
  if 971 < e then .error .outOfRange else .ok (ofParts m e)

/-- The number `n * 10 ^ e`. Exponents that are out of question are not computed with. -/
def ofDecimal (n : Nat) (e : Int) : Except ReadError Double :=
  let point := e + (Bytes.decimal n).length
  if n = 0 ∨ point < -330 then .ok ⟨0⟩
  else if 310 < point then .error .outOfRange
  else ofRatio (.scaled n 10 e)

/-- The value of an exponent's digits. Past ten thousand further digits do not count. -/
def exponentValue (digits : Bytes) : Nat :=
  digits.foldl (fun acc b => if acc < 10000 then acc * 10 + (b.toNat - 48) else acc) 0

/-- The exponent behind a significand, 0 if there is none. -/
def readExponent? : Bytes → Option Int
  | [] => some 0
  | b :: rest =>
    if b = Bytes.ofAscii 'e' ∨ b = Bytes.ofAscii 'E' then
      let negative := rest.headD 0 = Ascii.minus
      let digits := if negative ∨ rest.headD 0 = Ascii.plus then rest.drop 1 else rest
      if digits.isEmpty ∨ !digits.all Ascii.isDigit then none
      else some (if negative then -(exponentValue digits : Int) else exponentValue digits)
    else none

/-- Digits, at most one point among them, and an exponent. -/
def read (text : Bytes) : Except ReadError Double :=
  let whole := text.takeWhile Ascii.isDigit
  let rest := text.drop whole.length
  let fraction := if rest.headD 0 = Ascii.dot then (rest.drop 1).takeWhile Ascii.isDigit else []
  let behind := if rest.headD 0 = Ascii.dot then rest.drop (1 + fraction.length) else rest
  match Bytes.digitsValue? 10 (whole ++ fraction), readExponent? behind with
  | some n, some e => ofDecimal n (e - fraction.length)
  | _, _ => .error .invalidSyntax

end RustLua.Double
