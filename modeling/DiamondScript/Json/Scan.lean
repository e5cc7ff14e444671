import DiamondScript.Json.Value

namespace DiamondScript.Json

def isBlank (c : Char) : Bool := c = ' ' || c = '\n' || c = '\t' || c = '\r'

def skipBlank (cs : List Char) : List Char := cs.dropWhile isBlank

def afterWord : List Char → List Char → Option (List Char)
  | [], cs => some cs
  | w :: word, c :: cs => if c = w then afterWord word cs else none
  | _ :: _, [] => none

def hexValue (c : Char) : Option Nat :=
  if '0' ≤ c ∧ c ≤ '9' then some (c.toNat - 48)
  else if 'a' ≤ c ∧ c ≤ 'f' then some (c.toNat - 87)
  else if 'A' ≤ c ∧ c ≤ 'F' then some (c.toNat - 55)
  else none

def hexQuad : List Char → Option (Nat × List Char)
  | a :: b :: c :: d :: rest => do
    let a ← hexValue a
    let b ← hexValue b
    let c ← hexValue c
    let d ← hexValue d
    some (((a * 16 + b) * 16 + c) * 16 + d, rest)
  | _ => none

/-- The character of an escape, from the text after `\u`. A high surrogate needs its low
partner right behind it. -/
def unicodeEscape (cs : List Char) : Option (Char × List Char) := do
  let (n, rest) ← hexQuad cs
  if 0xDC00 ≤ n ∧ n ≤ 0xDFFF then none
  else if 0xD800 ≤ n ∧ n ≤ 0xDBFF then
    match rest with
    | '\\' :: 'u' :: rest => do
      let (low, rest) ← hexQuad rest
      if 0xDC00 ≤ low ∧ low ≤ 0xDFFF then
        some (Char.ofNat ((n - 0xD800) * 0x400 + (low - 0xDC00) + 0x10000), rest)
      else none
    | _ => none
  else some (Char.ofNat n, rest)

def simpleEscape (c : Char) : Option Char :=
  if c = '"' then some '"'
  else if c = '\\' then some '\\'
  else if c = '/' then some '/'
  else if c = 'b' then some (Char.ofNat 8)
  else if c = 'f' then some (Char.ofNat 12)
  else if c = 'n' then some '\n'
  else if c = 'r' then some '\r'
  else if c = 't' then some '\t'
  else none

/-- The characters up to the closing quote; the count bounds the characters read. -/
def stringBody : Nat → List Char → Option (List Char × List Char)
  | 0, _ => none
  | _ + 1, [] => none
  | _ + 1, '"' :: rest => some ([], rest)
  | n + 1, '\\' :: 'u' :: rest => do
    let (c, rest) ← unicodeEscape rest
    let (body, rest) ← stringBody n rest
    some (c :: body, rest)
  | n + 1, '\\' :: e :: rest => do
    let c ← simpleEscape e
    let (body, rest) ← stringBody n rest
    some (c :: body, rest)
  | n + 1, c :: rest =>
    if c.toNat < 32 ∨ c = '\\' then none
    else do
      let (body, rest) ← stringBody n rest
      some (c :: body, rest)

def scanString (cs : List Char) : Option (String × List Char) :=
  (stringBody (cs.length + 1) cs).map fun (body, rest) => (String.ofList body, rest)

/-- Steps over a string without deciding which characters its escapes stand for. -/
def skipString : List Char → Option (List Char)
  | '"' :: rest => some rest
  | '\\' :: 'u' :: a :: b :: c :: d :: rest =>
    if [a, b, c, d].all fun h => (hexValue h).isSome then skipString rest else none
  | '\\' :: e :: rest => if (simpleEscape e).isSome then skipString rest else none
  | c :: rest => if c.toNat < 32 ∨ c = '\\' then none else skipString rest
  | [] => none

structure Numeral where
  negative : Bool
  whole : List Char
  fraction : Option (List Char)
  exponent : Option (Bool × List Char)

def digitRun (cs : List Char) : List Char × List Char :=
  (cs.takeWhile Char.isDigit, cs.dropWhile Char.isDigit)

def scanFraction : List Char → Option (Option (List Char) × List Char)
  | '.' :: rest =>
    let (digits, rest) := digitRun rest
    if digits.isEmpty then none else some (some digits, rest)
  | rest => some (none, rest)

def scanExponent (cs : List Char) : Option (Option (Bool × List Char) × List Char) :=
  match cs with
  | c :: rest =>
    if c = 'e' ∨ c = 'E' then
      let (negative, rest) := match rest with
        | '+' :: rest => (false, rest)
        | '-' :: rest => (true, rest)
        | rest => (false, rest)
      let (digits, rest) := digitRun rest
      if digits.isEmpty then none else some (some (negative, digits), rest)
    else some (none, cs)
  | [] => some (none, [])

/-- A numeral; a leading zero stands alone before the point. -/
def scanNumeral (cs : List Char) : Option (Numeral × List Char) := do
  let (negative, cs) := match cs with
    | '-' :: rest => (true, rest)
    | rest => (false, rest)
  let (whole, rest) := digitRun cs
  match whole with
  | [] => none
  | '0' :: _ :: _ => none
  | _ => do
    let (fraction, rest) ← scanFraction rest
    let (exponent, rest) ← scanExponent rest
    some (⟨negative, whole, fraction, exponent⟩, rest)

namespace Numeral

def wordLimit : Nat := Nat.pow 2 64

/-- Appends digits to a 64-bit significand while they fit; the second part counts the digits
left over. -/
def absorb (significand : Nat) : List Char → Nat × Nat
  | [] => (significand, 0)
  | c :: rest =>
    let next := significand * 10 + (c.toNat - 48)
    if next < wordLimit then absorb next rest else (significand, (c :: rest).length)

def power (n : Nat) : Binary64 := Binary64.ofRatio false (Nat.pow 10 n) 1

/-- Divides by `10 ^ 308` as often as told, or until nothing is left. -/
def shrink (x : Binary64) : Nat → Binary64
  | 0 => x
  | n + 1 => if x.isZero then x else shrink (x.div (power 308)) n

/-- The significand, rounded to a float, is scaled by one power of ten with a second
rounding. A product beyond the range of floats is refused. -/
def scaled (significand : Nat) (exponent : Int) : Option Binary64 :=
  let f := Binary64.ofRatio false significand 1
  if 0 ≤ exponent then
    if f.isZero then some f
    else if 308 < exponent then none
    else
      let product := f.mul (power exponent.toNat)
      if product.isInfinite then none else some product
  else
    let down := (-exponent).toNat
    let steps := (down - 1) / 308
    some ((shrink f steps).div (power (down - 308 * steps)))

def natOfDigits (cs : List Char) : Nat := cs.foldl (fun n c => n * 10 + (c.toNat - 48)) 0

/-- The value of a numeral. Integers that fit 64 bits stay integers, except a negative zero;
digits beyond a 64-bit significand only count for its exponent, or not at all behind the
point. -/
def value (n : Numeral) : Option Json :=
  let (s, dropped) := absorb 0 n.whole
  match n.fraction, n.exponent, dropped with
  | none, none, 0 =>
    if n.negative then
      if s = 0 ∨ Nat.pow 2 63 < s then some (.float (Binary64.ofRatio true s 1))
      else some (.int (-s))
    else some (.int s)
  | _, _, _ => do
    let digits := n.fraction.getD []
    let (s, ignored) := absorb s digits
    let shift : Int := match n.exponent with
      | none => 0
      | some (true, e) => -(natOfDigits e : Int)
      | some (false, e) => natOfDigits e
    let x ← scaled s (dropped - (digits.length - ignored : Nat) + shift)
    some (.float { x with negative := n.negative })

end Numeral

def scanNumber (cs : List Char) : Option (Json × List Char) := do
  let (n, rest) ← scanNumeral cs
  let v ← n.value
  some (v, rest)

end DiamondScript.Json
