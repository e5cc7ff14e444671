import DiamondScript.Number.Shortest

namespace DiamondScript

structure Layout where
  /-- Whether a leading digit at `10 ^ e` is written without an exponent. -/
  positional : Int → Bool
  /-- Whether a whole number keeps a final `.0`. -/
  pointZero : Bool
  /-- The least number of digits of an exponent, which always has a sign. -/
  exponentWidth : Nat
  tie : Tie
  notANumber : String
  infinite : String

namespace Layout

def digitsOf (n : Nat) : String := String.ofList (Nat.toDigits 10 n)

def zeros (n : Nat) : String := String.ofList (List.replicate n '0')

/-- Places the point inside, before or after the digits. -/
def positionalText (l : Layout) (d : Decimal) : String :=
  let digits := Nat.toDigits 10 d.coefficient
  let whole : Int := digits.length + d.exponent
  if 0 ≤ d.exponent then
    digitsOf d.coefficient ++ zeros d.exponent.toNat ++ if l.pointZero then ".0" else ""
  else if 0 < whole then
    String.ofList (digits.take whole.toNat) ++ "." ++ String.ofList (digits.drop whole.toNat)
  else "0." ++ zeros (-whole).toNat ++ digitsOf d.coefficient

def exponentText (l : Layout) (e : Int) : String :=
  let digits := digitsOf e.natAbs
  (if e < 0 then "e-" else "e+") ++ zeros (l.exponentWidth - digits.length) ++ digits

def scientificText (l : Layout) (d : Decimal) : String :=
  let digits := Nat.toDigits 10 d.coefficient
  let fraction := digits.drop 1
  String.ofList (digits.take 1)
    ++ (if fraction.isEmpty then "" else "." ++ String.ofList fraction)
    ++ l.exponentText (digits.length + d.exponent - 1)

def decimalText (l : Layout) (d : Decimal) : String :=
  if l.positional ((Nat.toDigits 10 d.coefficient).length + d.exponent - 1)
  then l.positionalText d else l.scientificText d

/-- The text of a number. Zero is positional and keeps its sign; a NaN has none. -/
def text (l : Layout) (x : Binary64) : String :=
  if x.isNaN then l.notANumber
  else
    let sign := if x.negative then "-" else ""
    if x.isInfinite then sign ++ l.infinite
    else if x.isZero then sign ++ l.positionalText ⟨0, 0⟩
    else sign ++ l.decimalText (shortest l.tie x)

end Layout
end DiamondScript
