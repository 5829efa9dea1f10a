import RustLua.Decimal.Double

/-!
The shortest decimal that reads back as a given double: the fewest digits for
which some decimal lies between the neighbours' midpoints, of those the one
nearest to the number, and of two equally near ones the one with an even last
digit. All arithmetic is exact, on fractions of naturals.
-/

namespace RustLua.Decimal

/-- A fraction of naturals. -/
structure Ratio where
  num : Nat
  den : Nat

/-- The fraction `n * base ^ e`. -/
def Ratio.scaled (n base : Nat) (e : Int) : Ratio :=
  if 0 ≤ e then ⟨n * Nat.pow base e.toNat, 1⟩ else ⟨n, Nat.pow base (-e).toNat⟩

def Ratio.le (a b : Ratio) : Bool := a.num * b.den ≤ b.num * a.den
def Ratio.lt (a b : Ratio) : Bool := a.num * b.den < b.num * a.den

/-- Decimal digits with a point in front of them, times ten to `point`. -/
structure Digits where
  digits : Bytes
  point : Int

/-- What rounds to a double: all between the midpoints to its neighbours, and the
midpoints too if the significand is even. -/
structure Interval where
  low : Ratio
  high : Ratio
  closed : Bool

/-- The interval of a positive double. Below a power of two the neighbour is half
as far away. -/
def interval (m : Nat) (e : Int) : Interval :=
  let closer := m = Double.leadingBit ∧ Double.minExponent < e
  { low := if closer then .scaled (4 * m - 1) 2 (e - 2) else .scaled (2 * m - 1) 2 (e - 1)
    high := .scaled (2 * m + 1) 2 (e - 1)
    closed := m % 2 = 0 }

def Interval.contains (i : Interval) (r : Ratio) : Bool :=
  if i.closed then i.low.le r && r.le i.high else i.low.lt r && r.lt i.high

/-- Is `a` nearer to `v` than the next grid point `a + 1`, both in units of one
grid step, where `v` is a fraction between them? A tie goes to the even one. -/
def lowerIsNearer (v : Ratio) (a : Nat) : Bool :=
  let twice := 2 * (v.num - a * v.den)
  if twice < v.den then true else if v.den < twice then false else a % 2 = 0

/-- The best decimal with step `10 ^ e`, as a multiple of the step. -/
def onGrid? (i : Interval) (v : Ratio) (e : Int) : Option Nat :=
  let step : Ratio := .scaled 1 10 e
  let inSteps : Ratio := ⟨v.num * step.den, v.den * step.num⟩
  let a := inSteps.num / inSteps.den
  let lower := i.contains ⟨a * step.num, step.den⟩
  let upper := i.contains ⟨(a + 1) * step.num, step.den⟩
  match lower, upper with
  | true, true => some (if lowerIsNearer inSteps a then a else a + 1)
  | true, false => some a
  | false, true => some (a + 1)
  | false, false => none

/-- The place of the first digit of a positive fraction: the greatest `x` with
`10 ^ x ≤ v`, looked for from `x` downwards. -/
def firstPlace (v : Ratio) : Nat → Int → Int
  | 0, x => x
  | fuel + 1, x => if (Ratio.scaled 1 10 x).le v then x else firstPlace v fuel (x - 1)

/-- The grids are tried from the coarsest on. -/
def search (i : Interval) (v : Ratio) : Nat → Int → Nat × Int
  | 0, e => (v.num / v.den, e)
  | fuel + 1, e =>
    match onGrid? i v e with
    | some n => (n, e)
    | none => search i v fuel (e - 1)

/-- Digits without zeros at the end. -/
def trimZeros (digits : Bytes) : Bytes :=
  (digits.reverse.dropWhile (· == Bytes.ofAscii '0')).reverse

/-- The digits of a positive number `m * 2 ^ e`. No double has a first place above
308 or below -324, and seventeen digits always suffice. -/
def shortest (m : Nat) (e : Int) : Digits :=
  let v : Ratio := .scaled m 2 e
  let x := firstPlace v 633 308
  let (n, step) := search (interval m e) v 17 x
  let digits := Bytes.decimal n
  { digits := trimZeros digits, point := step + digits.length }

end RustLua.Decimal
