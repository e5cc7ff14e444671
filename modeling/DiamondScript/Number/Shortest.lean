import DiamondScript.Number.Binary64

namespace DiamondScript

/-- The decimal `coefficient * 10 ^ exponent`. -/
structure Decimal where
  coefficient : Nat
  exponent : Int
  deriving DecidableEq, Repr

/-- Which of two equally close decimals is taken. -/
inductive Tie where
  | up
  | even
  deriving DecidableEq, Repr

namespace Shortest

/-- The reals that round to a finite number, as numerators over the common denominator
`den`: the ends lie halfway to the neighbours and belong to the interval when the
significand is even. Just above a power of two the gap below is half as wide. -/
structure Interval where
  low : Nat
  value : Nat
  high : Nat
  den : Nat
  closed : Bool

def interval (x : Binary64) : Interval :=
  let m := x.significand
  let q := x.scale - 2
  let narrow := m == Nat.pow 2 52 && x.scale != -1074
  let unit := Nat.pow 2 q.toNat
  { low := (4 * m - if narrow then 1 else 2) * unit
    value := 4 * m * unit
    high := (4 * m + 2) * unit
    den := Nat.pow 2 (-q).toNat
    closed := m % 2 == 0 }

def Interval.contains (i : Interval) (d : Decimal) : Bool :=
  let shown := d.coefficient * Nat.pow 10 d.exponent.toNat * i.den
  let unit := Nat.pow 10 (-d.exponent).toNat
  if i.closed then i.low * unit ≤ shown && shown ≤ i.high * unit
  else i.low * unit < shown && shown < i.high * unit

/-- The least `k` with `num / den < 10 ^ k`, for a quotient that is no power of ten below
one. -/
def magnitude (num den : Nat) : Int :=
  if den ≤ num then (Nat.toDigits 10 (num / den)).length
  else 1 - (Nat.toDigits 10 (den / num)).length

/-- Of the two neighbours of the value on the grid of step `10 ^ g`, the one that reads back
to the number; of two, the closer. -/
def onGrid (tie : Tie) (i : Interval) (g : Int) : Option Decimal :=
  let num := i.value * Nat.pow 10 (-g).toNat
  let den := i.den * Nat.pow 10 g.toNat
  let below : Decimal := ⟨num / den, g⟩
  let above : Decimal := ⟨num / den + 1, g⟩
  match i.contains below, i.contains above with
  | false, false => none
  | true, false => some below
  | false, true => some above
  | true, true =>
    match compare (2 * (num % den)) den, tie with
    | .lt, _ => some below
    | .gt, _ => some above
    | .eq, .up => some above
    | .eq, .even => some (if below.coefficient % 2 = 0 then below else above)

/-- Moves trailing zeros of the coefficient into the exponent, at most `n` of them. -/
def trim : Nat → Decimal → Decimal
  | 0, d => d
  | n + 1, d => if d.coefficient % 10 = 0 then trim n ⟨d.coefficient / 10, d.exponent + 1⟩ else d

end Shortest

open Shortest in
/-- The decimal of fewest digits that rounds to a finite number other than zero, and the
closest of these. Were none of up to seventeen digits found, the exact value is given. -/
def shortest (tie : Tie) (x : Binary64) : Decimal :=
  let i := interval x
  let k := magnitude i.value i.den
  match (List.range 17).findSome? fun (n : Nat) => onGrid tie i (k - 1 - n) with
  | some d => trim 20 d
  | none =>
    ⟨x.significand * Nat.pow 2 x.scale.toNat * Nat.pow 5 (-x.scale).toNat, min x.scale 0⟩

end DiamondScript
