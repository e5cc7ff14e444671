import DiamondScript.Json.Problem
import DiamondScript.Json.Reader

namespace DiamondScript.Json

/-- A reader takes a value of a known type off the front of a text, or tells what is wrong
with it. It looks at nothing behind the first problem. -/
abbrev Reader (α : Type) := List Char → Except Problem (α × List Char)

section

variable {α β σ : Type}

def orMalformed : Option α → Except Problem α
  | some a => .ok a
  | none => .error .malformed

def underStep (step : Step) : Except Problem α → Except Problem α
  | .ok a => .ok a
  | .error p => .error (p.under step)

def readNumber (cs : List Char) : Except Problem (Found × List Char) := do
  match ← orMalformed (scanNumber cs) with
  | (.int n, rest) => .ok (.int n, rest)
  | (.float x, rest) => .ok (.float x, rest)
  | _ => .error .malformed

/-- The start of a value of the wrong type. Arrays and objects are not looked into. -/
def found (cs : List Char) : Except Problem Found :=
  match skipBlank cs with
  | [] => .error .malformed
  | '[' :: _ => .ok .sequence
  | '{' :: _ => .ok .map
  | '"' :: rest => do
    let (s, _) ← orMalformed (scanString rest)
    .ok (.str s)
  | 'n' :: rest => do
    let _ ← orMalformed (afterWord "ull".toList rest)
    .ok .null
  | 't' :: rest => do
    let _ ← orMalformed (afterWord "rue".toList rest)
    .ok (.bool true)
  | 'f' :: rest => do
    let _ ← orMalformed (afterWord "alse".toList rest)
    .ok (.bool false)
  | cs => do
    let (n, _) ← readNumber cs
    .ok n

def mismatch (expected : String) (cs : List Char) : Except Problem α := do
  let f ← found cs
  .error ⟨[], .invalidType f expected⟩

def readStringAs (expected : String) : Reader String := fun cs =>
  match skipBlank cs with
  | '"' :: rest => orMalformed (scanString rest)
  | _ => mismatch expected cs

def readString : Reader String := readStringAs "a string"

def readBool : Reader Bool := fun cs =>
  match skipBlank cs with
  | 't' :: rest => orMalformed ((afterWord "rue".toList rest).map (true, ·))
  | 'f' :: rest => orMalformed ((afterWord "alse".toList rest).map (false, ·))
  | _ => mismatch "a boolean" cs

/-- A natural number below `2 ^ bits`; the type is named in complaints. -/
def readUnsigned (bits : Nat) (type : String) : Reader Nat := fun cs =>
  match skipBlank cs with
  | c :: rest =>
    if c = '-' ∨ c.isDigit then do
      let (n, rest) ← readNumber (c :: rest)
      match n with
      | .int n =>
        if 0 ≤ n ∧ n.toNat < Nat.pow 2 bits then .ok (n.toNat, rest)
        else .error ⟨[], .invalidValue (.int n) type⟩
      | other => .error ⟨[], .invalidType other type⟩
    else mismatch type cs
  | [] => .error .malformed

def readNullable (read : Reader α) : Reader (Option α) := fun cs =>
  match skipBlank cs with
  | 'n' :: rest => orMalformed ((afterWord "ull".toList rest).map (none, ·))
  | _ => do
    let (a, rest) ← read cs
    .ok (some a, rest)

/-- The start of the next element of an array, if there is one before the closing bracket. -/
def nextElement (first : Bool) (cs : List Char) : Except Problem (Option (List Char)) :=
  match skipBlank cs with
  | [] => .error .malformed
  | ']' :: _ => .ok none
  | c :: rest =>
    if first then .ok (some (c :: rest))
    else if c = ',' then
      match skipBlank rest with
      | [] => .error .malformed
      | ']' :: _ => .error .malformed
      | rest => .ok (some rest)
    else .error .malformed

def closeArray (cs : List Char) : Except Problem (List Char) :=
  match skipBlank cs with
  | ']' :: rest => .ok rest
  | _ => .error .malformed

def readElements (read : Reader α) : Nat → Nat → Reader (List α)
  | 0, _, _ => .error .malformed
  | n + 1, i, cs => do
    match ← nextElement (i == 0) cs with
    | none => .ok ([], cs)
    | some start =>
      let (a, rest) ← underStep (.index i) (read start)
      let (as, rest) ← readElements read n (i + 1) rest
      .ok (a :: as, rest)

def readList (read : Reader α) : Reader (List α) := fun cs =>
  match skipBlank cs with
  | '[' :: rest => do
    let (as, rest) ← readElements read (rest.length + 1) 0 rest
    let rest ← closeArray rest
    .ok (as, rest)
  | _ => mismatch "a sequence" cs

/-- One field of a record that is being read into a state `σ`. A field that may be left out
of an object may still be required when the record is written as an array. -/
structure FieldSpec (σ : Type) where
  name : String
  inArray : Bool
  filled : σ → Bool
  read : σ → Reader σ

/-- A record: its fields in order of declaration, and how the state of a finished reading
makes a value or lacks a field. -/
structure Shape (σ α : Type) where
  name : String
  fields : List (FieldSpec σ)
  blank : σ
  build : σ → Except String α

namespace Shape

/-- The position of the first field that an array had to hold and did not. -/
def firstAbsent (s : σ) : Nat → List (FieldSpec σ) → Option Nat
  | _, [] => none
  | i, f :: rest => if f.inArray && !f.filled s then some i else firstAbsent s (i + 1) rest

def readPositions (s : σ) : Nat → List (FieldSpec σ) → Reader σ
  | _, [], cs => .ok (s, cs)
  | i, f :: rest, cs => do
    match ← nextElement (i == 0) cs with
    | none => .ok (s, cs)
    | some start =>
      let (s, cs) ← underStep (.index i) (f.read s start)
      readPositions s (i + 1) rest cs

def finish (shape : Shape σ α) (s : σ) : Except Problem α :=
  match shape.build s with
  | .ok a => .ok a
  | .error name => .error ⟨[], .missingField name⟩

def readArray (shape : Shape σ α) : Reader α := fun cs => do
  let (s, rest) ← readPositions shape.blank 0 shape.fields cs
  match firstAbsent s 0 shape.fields with
  | some i => .error ⟨[], .invalidLength i shape.name shape.fields.length⟩
  | none =>
    let a ← shape.finish s
    let rest ← closeArray rest
    .ok (a, rest)

/-- The start of the next key of an object, if there is one before the closing brace. -/
def nextKey (first : Bool) (cs : List Char) : Except Problem (Option (List Char)) :=
  match skipBlank cs with
  | '}' :: _ => .ok none
  | c :: rest =>
    let start := if first then c :: rest else skipBlank rest
    if !first && c != ',' then .error .malformed
    else match start with
      | '"' :: rest => .ok (some rest)
      | _ => .error .malformed
  | [] => .error .malformed

end Shape

mutual

/-- Steps over a value that nobody asked for. It has to be written well, but its numbers may
have any size and its nesting any depth up to the count. -/
def skipValue : Nat → List Char → Option (List Char)
  | 0, _ => none
  | n + 1, cs =>
    match skipBlank cs with
    | 'n' :: rest => afterWord "ull".toList rest
    | 't' :: rest => afterWord "rue".toList rest
    | 'f' :: rest => afterWord "alse".toList rest
    | '"' :: rest => skipString rest
    | '[' :: rest => skipItems n true rest
    | '{' :: rest => skipFields n true rest
    | cs => (scanNumeral cs).map (·.2)

def skipItems : Nat → Bool → List Char → Option (List Char)
  | 0, _, _ => none
  | n + 1, first, cs =>
    match skipBlank cs with
    | ']' :: rest => some rest
    | c :: rest => do
      let start ← elementStart first c rest
      let rest ← if start.head? = some ']' then none else skipValue n start
      skipItems n false rest
    | [] => none

def skipFields : Nat → Bool → List Char → Option (List Char)
  | 0, _, _ => none
  | n + 1, first, cs =>
    match skipBlank cs with
    | '}' :: rest => some rest
    | c :: rest => do
      let start ← elementStart first c rest
      match start with
      | '"' :: rest => do
        let rest ← skipString rest
        let rest ← afterColon rest
        let rest ← skipValue n rest
        skipFields n false rest
      | _ => none
    | [] => none

end

namespace Shape

def readFields (shape : Shape σ α) : Nat → Bool → σ → Reader σ
  | 0, _, _, _ => .error .malformed
  | n + 1, first, s, cs => do
    match ← nextKey first cs with
    | none => .ok (s, cs)
    | some key =>
      let (name, rest) ← orMalformed (scanString key)
      match shape.fields.find? (·.name == name) with
      | none =>
        let rest ← orMalformed (afterColon rest)
        let rest ← orMalformed (skipValue (rest.length + 1) rest)
        readFields shape n false s rest
      | some f =>
        if f.filled s then .error ⟨[], .duplicateField name⟩
        else
          let rest ← orMalformed (afterColon rest)
          let (s, rest) ← underStep (.field name) (f.read s rest)
          readFields shape n false s rest

def closeObject (cs : List Char) : Except Problem (List Char) :=
  match skipBlank cs with
  | '}' :: rest => .ok rest
  | _ => .error .malformed

def readObject (shape : Shape σ α) : Reader α := fun cs => do
  let (s, rest) ← shape.readFields (cs.length + 1) true shape.blank cs
  let a ← shape.finish s
  let rest ← closeObject rest
  .ok (a, rest)

/-- A record, written as an object with its fields in any order or as an array of them. -/
def read (shape : Shape σ α) : Reader α := fun cs =>
  match skipBlank cs with
  | '[' :: rest => shape.readArray rest
  | '{' :: rest => shape.readObject rest
  | _ => mismatch ("struct " ++ shape.name) cs

end Shape

/-- Reads the value at the front of a text and leaves the rest unread. -/
def readFront (read : Reader α) (text : String) : Except Problem α := do
  let (a, _) ← read text.toList
  .ok a

end
end DiamondScript.Json
