namespace DiamondScript

/-- A place in a named source text. Lines and columns count from one, and a column counts
characters. -/
structure Location where
  file : String
  line : Nat
  column : Nat
  deriving DecidableEq, Repr

namespace Location

/-- Walks over the characters that start before the byte offset. -/
def advance (offset : Nat) : Nat → Nat × Nat → List Char → Nat × Nat
  | _, place, [] => place
  | position, (line, column), c :: rest =>
    if offset ≤ position then (line, column)
    else advance offset (position + c.utf8Size)
      (if c = '\n' then (line + 1, 1) else (line, column + 1)) rest

/-- Line and column of a byte offset; past the end it is the place behind the last
character. -/
def lineColumn (source : String) (offset : Nat) : Nat × Nat :=
  advance offset 0 (1, 1) source.toList

def ofOffset (file source : String) (offset : Nat) : Location :=
  let (line, column) := lineColumn source offset
  ⟨file, line, column⟩

/-- The line shown to the user for an error at this place. -/
def report (l : Location) (message : String) : String :=
  s!"{l.file}:{l.line}:{l.column}: [ERROR]: {message}"

end Location
end DiamondScript
