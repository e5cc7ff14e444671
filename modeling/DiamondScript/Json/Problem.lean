import DiamondScript.Json.Printer
import DiamondScript.Text.Quoted

namespace DiamondScript.Json

/-- One step from a value to a value inside it. -/
inductive Step where
  | field (name : String)
  | index (i : Nat)
  deriving DecidableEq, Repr

inductive Found where
  | null
  | bool (b : Bool)
  | int (n : Int)
  | float (x : Binary64)
  | str (s : String)
  | sequence
  | map
  deriving DecidableEq, Repr

/-- Why a document does not describe the value asked for. -/
inductive Cause where
  | malformed
  | invalidType (found : Found) (expected : String)
  | invalidValue (found : Found) (expected : String)
  | invalidLength (present : Nat) (record : String) (fields : Nat)
  | missingField (name : String)
  | duplicateField (name : String)
  deriving DecidableEq, Repr

structure Problem where
  path : List Step
  cause : Cause
  deriving DecidableEq, Repr

def Found.describe : Found → String
  | .null => "null"
  | .bool b => s!"boolean `{b}`"
  | .int n => s!"integer `{n}`"
  | .float x => s!"floating point `{floatText x}`"
  | .str s => s!"string {Text.quoted s}"
  | .sequence => "sequence"
  | .map => "map"

def Cause.describe : Cause → String
  | .malformed => "malformed JSON"
  | .invalidType found expected => s!"invalid type: {found.describe}, expected {expected}"
  | .invalidValue found expected => s!"invalid value: {found.describe}, expected {expected}"
  | .invalidLength present record fields =>
    let plural := if fields = 1 then "" else "s"
    s!"invalid length {present}, expected struct {record} with {fields} element{plural}"
  | .missingField name => s!"missing field `{name}`"
  | .duplicateField name => s!"duplicate field `{name}`"

def pathTail : List Step → String
  | [] => ""
  | .field name :: rest => "." ++ name ++ pathTail rest
  | .index i :: rest => s!"[{i}]" ++ pathTail rest

/-- The path as text; the root is a single point. -/
def pathText : List Step → String
  | [] => "."
  | .field name :: rest => name ++ pathTail rest
  | .index i :: rest => s!"[{i}]" ++ pathTail rest

namespace Problem

def malformed : Problem := ⟨[], .malformed⟩

def under (step : Step) (p : Problem) : Problem := { p with path := step :: p.path }

/-- The message about a document, which names its file when there is one. A text that is no
JSON at all has no place to point to. -/
def message (p : Problem) (file : Option String) : String :=
  match p.cause with
  | .malformed => "JSON error: <syntax>"
  | cause =>
    let place := match file with
      | some file => file ++ ": "
      | none => ""
    s!"JSON error at '{pathText p.path}': {place}{cause.describe}"

end Problem
end DiamondScript.Json
