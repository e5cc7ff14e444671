namespace DiamondScript

namespace Log

inductive Level where
  | info
  | debug
  | trace
  deriving DecidableEq, Repr

/-- A remark about the progress of the work, and the part of the program it comes from. -/
structure Record where
  level : Level
  source : String
  message : String
  deriving DecidableEq, Repr

def Level.name : Level → String
  | .info => "INFO"
  | .debug => "DEBUG"
  | .trace => "TRACE"

/-- How many times verbosity must be asked for to see a level. -/
def Level.verbosity : Level → Nat
  | .info => 1
  | .debug => 2
  | .trace => 3

namespace Record

def text (r : Record) : String := s!"{r.level.name} {r.source}: {r.message}"

/-- The line shown on a terminal, with the level padded to five characters. -/
def line (time : String) (r : Record) : String :=
  let name := r.level.name
  let padding := String.ofList (List.replicate (5 - name.length) ' ')
  s!"{time} {name}{padding} [{r.source}] {r.message}"

end Record
end Log
end DiamondScript
