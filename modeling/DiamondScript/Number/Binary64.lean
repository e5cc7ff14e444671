namespace DiamondScript

/-- A double-precision number, held as its sign and the 63 bits below it. Two numbers are
equal when their patterns are: zero and negative zero differ, and a NaN equals itself. -/
structure Binary64 where
  negative : Bool
  magnitude : BitVec 63
  deriving DecidableEq, Repr

/-- The quotient of two naturals rounded to the nearest natural, a half to the even one. -/
def roundQuotient (num den : Nat) : Nat :=
  let q := num / den
  match compare (2 * (num % den)) den with
  | .lt => q
  | .gt => q + 1
  | .eq => if q % 2 = 0 then q else q + 1

namespace Binary64

def infinitePattern : Nat := 2047 * Nat.pow 2 52

def ofPattern (negative : Bool) (pattern : Nat) : Binary64 :=
  ⟨negative, BitVec.ofNat 63 pattern⟩

def zero (negative : Bool) : Binary64 := ofPattern negative 0

def infinite (negative : Bool) : Binary64 := ofPattern negative infinitePattern

def nan : Binary64 := ofPattern false (infinitePattern + Nat.pow 2 51)

def neg (x : Binary64) : Binary64 := { x with negative := !x.negative }

def isZero (x : Binary64) : Bool := x.magnitude.toNat == 0

def isInfinite (x : Binary64) : Bool := x.magnitude.toNat == infinitePattern

def isNaN (x : Binary64) : Bool := infinitePattern < x.magnitude.toNat

def isFinite (x : Binary64) : Bool := x.magnitude.toNat < infinitePattern

/-- The significand of a finite number; its absolute value is `significand * 2 ^ scale`. -/
def significand (x : Binary64) : Nat :=
  if x.magnitude.toNat < Nat.pow 2 52 then x.magnitude.toNat
  else Nat.pow 2 52 + x.magnitude.toNat % Nat.pow 2 52

def scale (x : Binary64) : Int :=
  if x.magnitude.toNat < Nat.pow 2 52 then -1074
  else (x.magnitude.toNat / Nat.pow 2 52 : Nat) - 1075

/-- The absolute value of a finite number as a quotient of naturals. -/
def ratio (x : Binary64) : Nat × Nat :=
  (x.significand * Nat.pow 2 x.scale.toNat, Nat.pow 2 (-x.scale).toNat)

/-- The power of two that gives `num / den` a significand of 53 bits, or the least power
there is. -/
def scaleFor (num den : Nat) : Int :=
  let guess : Int := max ((num.log2 : Int) - den.log2 - 53) (-1074)
  let quotient := (num * Nat.pow 2 (-guess).toNat) / (den * Nat.pow 2 guess.toNat)
  if Nat.pow 2 53 ≤ quotient then guess + 1 else guess

/-- The number nearest to `num / den`, ties to even; beyond the range it is infinite. A
rounded significand that reaches the next power of two carries into the exponent field. -/
def ofRatio (negative : Bool) (num den : Nat) : Binary64 :=
  if num = 0 then zero negative
  else
    let e := scaleFor num den
    let m := roundQuotient (num * Nat.pow 2 (-e).toNat) (den * Nat.pow 2 e.toNat)
    let pattern := (e + 1074).toNat * Nat.pow 2 52 + m
    if infinitePattern ≤ pattern then infinite negative else ofPattern negative pattern

/-- The number nearest to `coefficient * 10 ^ exponent`. Exponents far outside the range are
settled by the count of digits, without computing the power. -/
def ofDecimal (negative : Bool) (coefficient : Nat) (exponent : Int) : Binary64 :=
  if coefficient = 0 then zero negative
  else
    let top : Int := (Nat.toDigits 10 coefficient).length + exponent
    if 400 < top then infinite negative
    else if top < -400 then zero negative
    else ofRatio negative (coefficient * Nat.pow 10 exponent.toNat) (Nat.pow 10 (-exponent).toNat)

/-- The rounded product of two finite numbers. -/
def mul (x y : Binary64) : Binary64 :=
  ofRatio (x.negative != y.negative) (x.ratio.1 * y.ratio.1) (x.ratio.2 * y.ratio.2)

/-- The rounded quotient of two finite numbers, the second not zero. -/
def div (x y : Binary64) : Binary64 :=
  ofRatio (x.negative != y.negative) (x.ratio.1 * y.ratio.2) (x.ratio.2 * y.ratio.1)

end Binary64
end DiamondScript
