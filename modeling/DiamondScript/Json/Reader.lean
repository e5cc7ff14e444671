import DiamondScript.Json.Scan

namespace DiamondScript.Json

section

variable {α : Type}

/-- Where the next element starts: behind a comma, unless it is the first one. -/
def elementStart (first : Bool) (c : Char) (rest : List Char) : Option (List Char) :=
  if first then some (c :: rest) else if c = ',' then some (skipBlank rest) else none

/-- Reads elements up to a closing character, with commas between them and none at the end.
The count bounds the elements read. -/
def readSeparated (close : Char) (element : List Char → Option (α × List Char)) :
    Nat → Bool → List Char → Option (List α × List Char)
  | 0, _, _ => none
  | n + 1, first, cs =>
    match skipBlank cs with
    | [] => none
    | c :: rest =>
      if c = close then some ([], rest)
      else do
        let start ← elementStart first c rest
        let (v, rest) ← if start.head? = some close then none else element start
        let (vs, rest) ← readSeparated close element n false rest
        some (v :: vs, rest)

end

def afterColon (cs : List Char) : Option (List Char) :=
  match skipBlank cs with
  | ':' :: rest => some rest
  | _ => none

def readField {α : Type} (value : List Char → Option (α × List Char)) :
    List Char → Option ((String × α) × List Char)
  | '"' :: rest => do
    let (name, rest) ← scanString rest
    let rest ← afterColon rest
    let (v, rest) ← value rest
    some ((name, v), rest)
  | _ => none

/-- A value whose arrays and objects are nested at most `depth` deep. -/
def readValue (depth : Nat) (cs : List Char) : Option (Json × List Char) :=
  match skipBlank cs with
  | 'n' :: rest => (afterWord "ull".toList rest).map (.null, ·)
  | 't' :: rest => (afterWord "rue".toList rest).map (.bool true, ·)
  | 'f' :: rest => (afterWord "alse".toList rest).map (.bool false, ·)
  | '"' :: rest => (scanString rest).map fun (s, rest) => (.str s, rest)
  | '[' :: rest =>
    match depth with
    | 0 => none
    | depth + 1 => (readSeparated ']' (readValue depth) (rest.length + 1) true rest).map
        fun (items, rest) => (.arr items, rest)
  | '{' :: rest =>
    match depth with
    | 0 => none
    | depth + 1 => (readSeparated '}' (readField (readValue depth)) (rest.length + 1) true rest).map
        fun (fields, rest) => (object fields, rest)
  | cs => scanNumber cs

def maxDepth : Nat := 127

/-- The value of a text that holds nothing else but blanks around it. -/
def parse? (text : String) : Option Json :=
  match readValue maxDepth text.toList with
  | some (v, rest) => if (skipBlank rest).isEmpty then some v else none
  | none => none

end DiamondScript.Json
