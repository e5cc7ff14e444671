import DiamondScript.Files.Script

namespace DiamondScript.Files

variable {m : Type → Type} [Monad m]

/-- Makes a directory and those above it that are missing, given how to make a single one and
how to tell a directory. One that is there already is fine. The count bounds the steps upward. -/
def makeDirsWith (makeDir : Path → m (Except OsError Unit)) (isDirectory : Path → m Bool) :
    Nat → Path → m (Except OsError Unit)
  | 0, _ => return .error .notFound
  | n + 1, p => do
    if p.isEmpty then return .ok ()
    else
      let again (answer : Except OsError Unit) : m (Except OsError Unit) := do
        match answer with
        | .ok () => return .ok ()
        | .error e => if ← isDirectory p then return .ok () else return .error e
      match ← makeDir p with
      | .error .notFound =>
        match Path.parent? p with
        | none => return .error .notFound
        | some up =>
          match ← makeDirsWith makeDir isDirectory n up with
          | .error e => return .error e
          | .ok () => again (← makeDir p)
      | answer => again answer

/-- The steps upward that a path allows are fewer than its characters. -/
def makeDirsBound (p : Path) : Nat := p.length + 1

end DiamondScript.Files
