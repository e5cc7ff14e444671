import DiamondScript.Files.Path
import DiamondScript.Log

namespace DiamondScript

/-- What the operating system answers when it refuses. -/
inductive OsError where
  | notFound
  | notDirectory
  | isDirectory
  | exists
  | notEmpty
  | busy
  | invalid
  | nameTooLong
  | zeroByte
  | notText
  | other (text : String)
  deriving DecidableEq, Repr

def OsError.message : OsError → String
  | .notFound => "No such file or directory (os error 2)"
  | .busy => "Device or resource busy (os error 16)"
  | .exists => "File exists (os error 17)"
  | .notDirectory => "Not a directory (os error 20)"
  | .isDirectory => "Is a directory (os error 21)"
  | .invalid => "Invalid argument (os error 22)"
  | .nameTooLong => "File name too long (os error 36)"
  | .notEmpty => "Directory not empty (os error 39)"
  | .zeroByte => "file name contained an unexpected NUL byte"
  | .notText => "stream did not contain valid UTF-8"
  | .other text => text

/-- One step of work outside the program. -/
inductive Effect where
  | create (path : Path)
  | write (path : Path) (data : List UInt8)
  | sync (path : Path)
  | probe (path : Path)
  | rename (source target : Path)
  | read (path : Path)
  | makeDirs (path : Path)
  | note (r : Log.Record)
  | print (line : String)

/-- What a step gives back. -/
abbrev Effect.Answer : Effect → Type
  | .probe _ => Bool
  | .read _ => Except OsError (List UInt8)
  | .note _ | .print _ => Unit
  | _ => Except OsError Unit

/-- A plan of steps, each depending on the answers before it. -/
inductive Script (α : Type) where
  | done (a : α)
  | step (e : Effect) (next : e.Answer → Script α)

namespace Script

variable {α β : Type}

def bind : Script α → (α → Script β) → Script β
  | .done a, f => f a
  | .step e next, f => .step e fun answer => bind (next answer) f

instance : Monad Script where
  pure := .done
  bind := bind

def perform (e : Effect) : Script e.Answer := .step e .done

/-- Carries out a plan with the given meaning of its steps. -/
def carryOut {m : Type → Type} [Monad m] (handle : (e : Effect) → m e.Answer) : Script α → m α
  | .done a => pure a
  | .step e next => do
    let answer ← handle e
    carryOut handle (next answer)

end Script
end DiamondScript
