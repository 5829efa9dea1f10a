import RustLua.Bytes.Ascii
import RustLua.Decimal.Shortest

/-!
The text of a finite double: the shortest digits, positional when the first
digit stands between the ten-thousandths and the hundred-thousands, else with
an exponent of at least two digits; always with a point or an exponent.
-/

namespace RustLua.Double

open Decimal

/-- An exponent with its sign and at least two digits. -/
def exponentText (x : Int) : Bytes :=
  let digits := Bytes.decimal x.natAbs
  (if x < 0 then "-" else "+") ++ Bytes.onlyIf (digits.length < 2) "0" ++ digits

/-- One digit, the point and the other digits, the exponent. -/
def scientificText (d : Digits) : Bytes :=
  d.digits.take 1 ++ Bytes.onlyIf (1 < d.digits.length) ("." ++ d.digits.drop 1) ++
    "e" ++ exponentText (d.point - 1)

/-- The digits around the point, filled up with zeros, and no point without digits behind it. -/
def positionalText (d : Digits) : Bytes :=
  let zeros (n : Int) : Bytes := List.replicate n.toNat (Bytes.ofAscii '0')
  let whole := d.digits.take d.point.toNat ++ zeros (d.point - d.digits.length)
  let rest := zeros (-d.point) ++ d.digits.drop d.point.toNat
  (if whole.isEmpty then Bytes.ofString "0" else whole) ++
    Bytes.onlyIf (!rest.isEmpty) ("." ++ rest)

/-- The text of a positive number or zero, without the mark of a fraction if it has none. -/
def plainText (d : Double) : Bytes :=
  if d.significand = 0 then "0"
  else
    let digits := shortest d.significand d.exponent
    if digits.point - 1 < -4 ∨ 6 ≤ digits.point - 1 then scientificText digits
    else positionalText digits

/-- The text of a finite number. -/
def text (d : Double) : Bytes :=
  let plain := d.plainText
  let marked := plain.any fun b => b == Ascii.dot || b == Bytes.ofAscii 'e'
  Bytes.onlyIf d.isNegative "-" ++ plain ++ Bytes.onlyIf (!marked) ".0"

end RustLua.Double
