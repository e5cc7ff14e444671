import DiamondScript.Json.Value

namespace DiamondScript.Json

/-- A float always shows a point or an exponent; the exponent is signed and not padded. -/
def floatLayout : Layout where
  positional e := -5 ≤ e && e < 16
  pointZero := true
  exponentWidth := 1
  tie := .even
  notANumber := "null"
  infinite := "null"

def floatText (x : Binary64) : String :=
  if x.isFinite then floatLayout.text x else "null"

def intText (n : Int) : List Char :=
  if n < 0 then '-' :: Nat.toDigits 10 n.natAbs else Nat.toDigits 10 n.natAbs

def hexDigit (n : Nat) : Char := Nat.digitChar (n % 16)

/-- Only the quote, the backslash and control characters are escaped. -/
def escapeChar (c : Char) : List Char :=
  if c = '"' then ['\\', '"']
  else if c = '\\' then ['\\', '\\']
  else if c = '\n' then ['\\', 'n']
  else if c = '\r' then ['\\', 'r']
  else if c = '\t' then ['\\', 't']
  else if c.toNat = 8 then ['\\', 'b']
  else if c.toNat = 12 then ['\\', 'f']
  else if c.toNat < 32 then ['\\', 'u', '0', '0', hexDigit (c.toNat / 16), hexDigit c.toNat]
  else [c]

def quote (s : String) : List Char := '"' :: (s.toList.flatMap escapeChar ++ ['"'])

def scalar : Json → List Char
  | .null => "null".toList
  | .bool true => "true".toList
  | .bool false => "false".toList
  | .int n => intText n
  | .float x => (floatText x).toList
  | .str s => quote s
  | .arr _ | .obj _ => []

mutual

/-- The text of a value without blanks. -/
def compact : Json → List Char
  | .arr items => '[' :: (compactItems items ++ [']'])
  | .obj fields => '{' :: (compactFields fields ++ ['}'])
  | v => scalar v

def compactItems : List Json → List Char
  | [] => []
  | [v] => compact v
  | v :: w :: rest => compact v ++ ',' :: compactItems (w :: rest)

def compactFields : List (String × Json) → List Char
  | [] => []
  | [(n, v)] => quote n ++ ':' :: compact v
  | (n, v) :: f :: rest => quote n ++ ':' :: (compact v ++ ',' :: compactFields (f :: rest))

end

def newline (indent : Nat) : List Char := '\n' :: List.replicate (2 * indent) ' '

mutual

/-- The text of a value on several lines, two blanks for each level. -/
def pretty (indent : Nat) : Json → List Char
  | .arr [] => ['[', ']']
  | .arr (v :: vs) =>
    '[' :: (newline (indent + 1)
      ++ (prettyItems (indent + 1) (v :: vs) ++ (newline indent ++ [']'])))
  | .obj [] => ['{', '}']
  | .obj (f :: fs) =>
    '{' :: (newline (indent + 1)
      ++ (prettyFields (indent + 1) (f :: fs) ++ (newline indent ++ ['}'])))
  | v => scalar v

def prettyItems (indent : Nat) : List Json → List Char
  | [] => []
  | [v] => pretty indent v
  | v :: w :: rest => pretty indent v ++ ',' :: (newline indent ++ prettyItems indent (w :: rest))

def prettyFields (indent : Nat) : List (String × Json) → List Char
  | [] => []
  | [(n, v)] => quote n ++ ':' :: ' ' :: pretty indent v
  | (n, v) :: f :: rest =>
    quote n ++ ':' :: ' ' :: (pretty indent v
      ++ ',' :: (newline indent ++ prettyFields indent (f :: rest)))

end

def compactText (v : Json) : String := String.ofList v.compact

def prettyText (v : Json) : String := String.ofList (v.pretty 0)

end DiamondScript.Json
