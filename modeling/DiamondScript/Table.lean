namespace DiamondScript

/-- A map from names that keeps the order in which they were first entered. -/
abbrev Table (α : Type) := List (String × α)

namespace Table

variable {α : Type}

def find? (t : Table α) (name : String) : Option α := t.lookup name

/-- Sets the value of a name; a name that is there keeps its position. -/
def insert (name : String) (a : α) : Table α → Table α
  | [] => [(name, a)]
  | (n, b) :: rest => if n = name then (name, a) :: rest else (n, b) :: insert name a rest

/-- Sets the value of a name only if it has none yet. -/
def insertNew (name : String) (a : α) (t : Table α) : Table α :=
  if (t.find? name).isSome then t else t.insert name a

/-- Drops a name; the others keep their order. -/
def erase (t : Table α) (name : String) : Table α := t.filter fun e => e.1 != name

end Table
end DiamondScript
