import ScriptCompiler.Number.Double

/-!
# The shortest decimal of a double

The decimal that stands for a finite double is the one with the fewest digits among those that read
back as the same double, and the nearest of these; of two equally near, the larger.

A decimal reads back exactly when it lies in the interval of reals that round to the double. Its
ends are half way to the two neighbours, and they belong to it when the significand is even. Below a
power of two the neighbour is only half as far. `shortest` looks for the coarsest grid of multiples
of a power of ten that has a point in the interval; only the two grid points next to the number have
to be tried. Two layouts then place the digits: `plain` never uses an exponent, `listing` uses one
for numbers that are very large or very small.
-/

namespace ScriptCompiler.Double

/-- The decimal `digits * 10 ^ exponent`. -/
structure Decimal where
  digits : Nat
  exponent : Int
deriving DecidableEq

/-- A positive number `mid / den` with the interval from `low / den` to `high / den` of reals that
round to it. -/
structure Interval where
  low : Nat
  mid : Nat
  high : Nat
  den : Nat
  /-- The ends themselves round to the number. -/
  closed : Bool

/-- The interval of a finite, nonzero double, in quarters of a unit in the last place. -/
def interval (d : Double) : Interval :=
  let unit := pow2 (d.scale - 2).toNat
  let mid := 4 * d.significand
  -- A normal number with no fraction is a power of two.
  let below := if d.fraction = 0 then 1 else 2
  { low := (mid - below) * unit, mid := mid * unit, high := (mid + 2) * unit,
    den := pow2 (2 - d.scale).toNat, closed := d.significand % 2 = 0 }

/-- Whether the decimal `digits * 10 ^ exponent` lies in the interval. -/
def Interval.has (i : Interval) (c : Decimal) : Bool :=
  let point := c.digits * pow10 c.exponent.toNat * i.den
  let unit := pow10 (-c.exponent).toNat
  if i.closed then i.low * unit ≤ point && point ≤ i.high * unit
  else i.low * unit < point && point < i.high * unit

/-- The point of the grid of multiples of `10 ^ exponent` to take: the nearer of the number's two
neighbours if both lie in the interval, a tie going up. -/
def Interval.pick? (i : Interval) (exponent : Int) : Option Decimal :=
  let num := i.mid * pow10 (-exponent).toNat
  let den := i.den * pow10 exponent.toNat
  let floor : Decimal := ⟨num / den, exponent⟩
  let ceiling : Decimal := ⟨num / den + 1, exponent⟩
  let up := decide (den ≤ 2 * (num % den))
  match i.has floor, i.has ceiling with
  | true, true => some (if up then ceiling else floor)
  | true, false => some floor
  | false, true => some ceiling
  | false, false => none

/-- The first hit on the grids from `10 ^ exponent` downwards, `steps` of them at most. -/
def Interval.search (i : Interval) : (steps : Nat) → (exponent : Int) → Decimal
  | 0, exponent => ⟨0, exponent⟩
  | steps + 1, exponent =>
    match i.pick? exponent with
    | some c => c
    | none => i.search steps (exponent - 1)

/-- The shortest decimal of a finite double. Seventeen digits always suffice, and the search starts
at most five grids above the leading digit. -/
def shortest (d : Double) : Decimal :=
  if d.significand = 0 then ⟨0, 0⟩
  else
    let i := d.interval
    i.search 25 ((floorLog2 i.mid i.den + 1) * 30103 / 100000 + 2)

/-- How a decimal is laid out. -/
structure Layout where
  /-- Least and greatest power of ten of the leading digit that is written without an exponent;
  `none` for all of them. -/
  positional : Option (Int × Int)
  /-- A whole number is followed by a point and a zero. -/
  pointZero : Bool

/-- Digits only, whatever the size: `10000000000000000`, `0.0000001`, `-0`. -/
def Layout.plain : Layout := ⟨none, false⟩

/-- A point always, and an exponent from `1e16` upwards and below `1e-4`: `1.0`, `1e16`, `1e-5`. -/
def Layout.listing : Layout := ⟨some (-4, 15), true⟩

/-- The text of a decimal's digits with the leading one at the power `lead` of ten. -/
def Layout.place (l : Layout) (digits : List Char) (lead : Int) : String :=
  let inPlace := match l.positional with
    | none => true
    | some (least, greatest) => decide (least ≤ lead ∧ lead ≤ greatest)
  if inPlace then
    if lead < 0 then
      "0." ++ String.ofList (List.replicate ((-lead).toNat - 1) '0' ++ digits)
    else
      let whole := lead.toNat + 1
      let front := digits.take whole ++ List.replicate (whole - digits.length) '0'
      let back := digits.drop whole
      let back := if back.isEmpty && l.pointZero then ['0'] else back
      String.ofList front ++ if back.isEmpty then "" else "." ++ String.ofList back
  else
    let front := digits.take 1
    let back := digits.drop 1
    String.ofList front ++ (if back.isEmpty then "" else "." ++ String.ofList back)
      ++ "e" ++ toString lead

/-- The text of a double in the given layout. -/
def format (l : Layout) (d : Double) : String :=
  if d.isNaN then "NaN"
  else
    let sign := if d.isNegative then "-" else ""
    if !d.isFinite then sign ++ "inf"
    else
      let c := d.shortest
      let digits := Nat.toDigits 10 c.digits
      sign ++ l.place digits (c.exponent + digits.length - 1)

end ScriptCompiler.Double
