import DiamondScript.Number.Layout

namespace DiamondScript

/-- A JSON value. Integers are kept apart from other numbers, and the fields of an object
are listed in the order they are written. -/
inductive Json where
  | null
  | bool (b : Bool)
  | int (n : Int)
  | float (x : Binary64)
  | str (s : String)
  | arr (items : List Json)
  | obj (fields : List (String × Json))
  deriving Repr, Inhabited

namespace Json

/-- Puts a field in its place among fields sorted by name; a field of the same name is
replaced. -/
def insertField (name : String) (value : Json) : List (String × Json) → List (String × Json)
  | [] => [(name, value)]
  | (n, v) :: rest =>
    if name < n then (name, value) :: (n, v) :: rest
    else if name = n then (name, value) :: rest
    else (n, v) :: insertField name value rest

/-- The object with these fields, sorted by name; of equal names the last one stands. -/
def object (fields : List (String × Json)) : Json :=
  .obj (fields.foldl (fun sorted (n, v) => insertField n v sorted) [])

def nat (n : Nat) : Json := .int n

end Json
end DiamondScript
