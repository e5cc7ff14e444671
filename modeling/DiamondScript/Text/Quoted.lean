import DiamondScript.Text.Printable

namespace DiamondScript.Text

def hexText (n : Nat) : String := String.ofList (Nat.toDigits 16 n)

/-- A character inside quotes: the quote, the backslash and what is not shown as itself are
escaped. -/
def quotedChar (c : Char) : String :=
  if c = '"' then "\\\""
  else if c = '\\' then "\\\\"
  else if c = '\n' then "\\n"
  else if c = '\r' then "\\r"
  else if c = '\t' then "\\t"
  else if c.toNat = 0 then "\\0"
  else if isPrintable c then String.singleton c
  else "\\u\x7b" ++ hexText c.toNat ++ "\x7d"

def quoted (s : String) : String := "\"" ++ String.join (s.toList.map quotedChar) ++ "\""

end DiamondScript.Text
