namespace DiamondScript.Base64

/-- Why bytes are no base64 text. Offsets count bytes. -/
inductive Error where
  | invalidSymbol (byte : UInt8) (offset : Nat)
  | invalidLength (length : Nat)
  | invalidLastSymbol (byte : UInt8) (offset : Nat)
  | invalidPadding
  deriving DecidableEq, Repr

def Error.message : Error → String
  | .invalidSymbol byte offset => s!"Invalid symbol {byte.toNat}, offset {offset}."
  | .invalidLength length => s!"Invalid input length: {length}"
  | .invalidLastSymbol byte offset => s!"Invalid last symbol {byte.toNat}, offset {offset}."
  | .invalidPadding => "Invalid padding"

def letter (n : Nat) : Char :=
  if n < 26 then Char.ofNat (65 + n)
  else if n < 52 then Char.ofNat (97 + (n - 26))
  else if n < 62 then Char.ofNat (48 + (n - 52))
  else if n = 62 then '+'
  else '/'

def value? (byte : UInt8) : Option Nat :=
  let n := byte.toNat
  if 65 ≤ n ∧ n ≤ 90 then some (n - 65)
  else if 97 ≤ n ∧ n ≤ 122 then some (n - 97 + 26)
  else if 48 ≤ n ∧ n ≤ 57 then some (n - 48 + 52)
  else if n = 43 then some 62
  else if n = 47 then some 63
  else none

def padding : UInt8 := 61

/-- Four letters for each three bytes; the last group is filled up with padding. -/
def encode : List UInt8 → List Char
  | [] => []
  | [a] =>
    let n := a.toNat * 16
    [letter (n / 64), letter (n % 64), '=', '=']
  | [a, b] =>
    let n := (a.toNat * 256 + b.toNat) * 4
    [letter (n / 4096), letter (n / 64 % 64), letter (n % 64), '=']
  | a :: b :: c :: rest =>
    let n := (a.toNat * 256 + b.toNat) * 256 + c.toNat
    letter (n / 262144) :: letter (n / 4096 % 64) :: letter (n / 64 % 64) :: letter (n % 64)
      :: encode rest

/-- The values of bytes from an offset on, none of which may be padding. -/
def values : Nat → List UInt8 → Except Error (List Nat)
  | _, [] => .ok []
  | offset, b :: rest =>
    match value? b with
    | none => .error (.invalidSymbol b offset)
    | some v => do
      let vs ← values (offset + 1) rest
      .ok (v :: vs)

/-- The bytes of values; two or three values at the end make one or two bytes. -/
def bytesOf : List Nat → List UInt8
  | a :: b :: c :: d :: rest =>
    let n := ((a * 64 + b) * 64 + c) * 64 + d
    UInt8.ofNat (n / 65536) :: UInt8.ofNat (n / 256) :: UInt8.ofNat n :: bytesOf rest
  | [a, b, c] =>
    let n := (a * 64 + b) * 64 + c
    [UInt8.ofNat (n / 1024), UInt8.ofNat (n / 4)]
  | [a, b] => [UInt8.ofNat ((a * 64 + b) / 16)]
  | _ => []

/-- The last group: its values, the last symbol among them, and how much padding follows. -/
structure Ending where
  values : List Nat
  last : UInt8
  padding : Nat

/-- Reads the last group, which starts at byte `base`. Padding may stand only behind two
symbols, and no symbol behind padding. -/
def ending (base : Nat) : Nat → Ending → List UInt8 → Except Error Ending
  | _, e, [] => .ok e
  | i, e, b :: rest =>
    if b = padding then
      if i < 2 then .error (.invalidSymbol b (base + i))
      else ending base (i + 1) { e with padding := e.padding + 1 } rest
    else if 0 < e.padding then .error (.invalidSymbol padding (base + i - e.padding))
    else
      match value? b with
      | none => .error (.invalidSymbol b (base + i))
      | some v => ending base (i + 1) { e with values := e.values ++ [v], last := b } rest

/-- Whether the bits behind the last whole byte are zero. -/
def cleanTail : List Nat → Bool
  | [_, b] => b % 16 == 0
  | [_, _, c] => c % 4 == 0
  | _ => true

def checkEnding (base length : Nat) (e : Ending) : Except Error Unit :=
  if length ≠ 0 ∧ e.values.length < 2 then .error (.invalidLength (base + e.values.length))
  else if (e.padding + e.values.length) % 4 ≠ 0 then .error .invalidPadding
  else if cleanTail e.values then .ok ()
  else .error (.invalidLastSymbol e.last (base + e.values.length - 1))

/-- A single byte behind the groups of four is looked at first, unless it is padding. -/
def checkLast (input : List UInt8) : Except Error Unit :=
  match input.getLast? with
  | some b =>
    if input.length % 4 = 1 ∧ b ≠ padding ∧ (value? b).isNone then
      .error (.invalidSymbol b (input.length - 1))
    else .ok ()
  | none => .ok ()

def decode (input : List UInt8) : Except Error (List UInt8) := do
  checkLast input
  let tail := if input.length % 4 = 0 then 4 else input.length % 4
  let base := input.length - tail
  let body ← values 0 (input.take base)
  let e ← ending base 0 ⟨[], 0, 0⟩ (input.drop base)
  checkEnding base input.length e
  .ok (bytesOf body ++ bytesOf e.values)

end DiamondScript.Base64
