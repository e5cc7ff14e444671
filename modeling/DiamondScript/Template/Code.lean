import DiamondScript.Codec.Base64
import DiamondScript.Codec.Gzip
import DiamondScript.Json.Printer
import DiamondScript.Json.Reader
import DiamondScript.Text.Blank
import DiamondScript.Text.Utf8

namespace DiamondScript.Code

inductive Error where
  | base64 (e : Base64.Error)
  | gzip (fault : Gzip.Fault)
  | json
  deriving DecidableEq, Repr

def Error.message : Error → String
  | .base64 e => s!"invalid base64: {e.message}"
  | .gzip fault => s!"gzip stream error: {fault.message}"
  | .json => "JSON error: <syntax>"

/-- The code of a value: its text, packed and spelled in printable letters. -/
def encode (v : Json) : String :=
  String.ofList (Base64.encode (Gzip.pack (Text.utf8Bytes v.compactText)))

def unpackText (bytes : List UInt8) : Except Gzip.Fault String := do
  let data ← Gzip.unpack bytes
  match Text.ofUtf8? data with
  | some text => .ok text
  | none => .error .notText

/-- The text inside a code. -/
def openText (code : String) : Except Error String := do
  let bytes ← (Base64.decode (Text.utf8Bytes code)).mapError .base64
  (unpackText bytes).mapError .gzip

/-- The value of a code; blanks around the code do not matter. -/
def decode (code : String) : Except Error Json := do
  let text ← openText (Text.trim code)
  match Json.parse? text with
  | some v => .ok v
  | none => .error .json

end DiamondScript.Code
