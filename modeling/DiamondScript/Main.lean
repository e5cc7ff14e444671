import DiamondScript.Command.Run
import DiamondScript.Files.Directories

namespace DiamondScript.Main

/-- The refusal behind an error of the operating system. Some calls give its number negated. -/
def osErrorOf : IO.Error → OsError
  | .noFileOrDirectory .. => .notFound
  | .alreadyExists .. => .exists
  | .inappropriateType _ code _ =>
    if code = 20 ∨ code = 0 - 20 then .notDirectory else .isDirectory
  | .unsatisfiedConstraints .. => .notEmpty
  | .resourceBusy .. => .busy
  | .invalidArgument _ code _ => if code = 36 ∨ code = 0 - 36 then .nameTooLong else .invalid
  | e => .other (toString e)

/-- Tries an action on paths; one with a zero byte is not passed on. -/
def attempt {α : Type} (paths : List Path) (action : IO α) : IO (Except OsError α) := do
  if paths.any Path.hasZero then return .error .zeroByte
  else
    try
      let a ← action
      return .ok a
    catch e => return .error (osErrorOf e)

def pathExists (path : Path) : IO Bool := do
  let found ← attempt [path] (IO.FS.realPath path)
  return found.toBool

def isDirectory (path : Path) : IO Bool := pathExists (path ++ "/")

/-- Carries out steps on the file system. -/
def handle (verbosity : Option Nat) : (e : Effect) → IO e.Answer
  | .create path => attempt [path] (IO.FS.writeFile path "")
  | .write path data => attempt [path] (IO.FS.writeBinFile path ⟨data.toArray⟩)
  | .sync _ => return .ok ()
  | .probe path => pathExists path
  | .rename source target => attempt [source, target] (IO.FS.rename source target)
  | .read path => attempt [path] do return (← IO.FS.readBinFile path).data.toList
  | .makeDirs path =>
    Files.makeDirsWith (fun p => attempt [p] (IO.FS.createDir p)) isDirectory
      (Files.makeDirsBound path) path
  | .note r => do
    if Command.isShown verbosity r then
      IO.println (r.line s!"{(← IO.monoMsNow)}")
  | .print line => IO.println line

end DiamondScript.Main

open DiamondScript in
def main (args : List String) : IO UInt32 := do
  let request := Command.Request.ofArgs args
  let (status, complaint) ← request.run.carryOut (Main.handle request.verbosity)
  IO.eprint complaint
  return UInt32.ofNat status
