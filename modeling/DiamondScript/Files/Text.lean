import DiamondScript.Failure
import DiamondScript.Text.Utf8

namespace DiamondScript.Files

def readText (path : Path) : Job String := do
  let data ← Job.onPath path (← Job.perform (.read path))
  match Text.ofUtf8? data with
  | some text => return text
  | none => throw (.io path .notText)

def makeDirs (path : Path) : Job Unit := do
  Job.onPath path (← Job.perform (.makeDirs path))

/-- Writes a file so that its old content is never lost: the data goes to a temporary file
beside it, an old file is kept as a backup if that is possible, and then the temporary file
takes its name. -/
def atomicWrite (path : Path) (data : List UInt8) : Job Unit := do
  let temporary := Path.sibling path ".tmp"
  Job.onPath temporary (← Job.perform (.create temporary))
  Job.onPath temporary (← Job.perform (.write temporary data))
  Job.onPath temporary (← Job.perform (.sync temporary))
  if ← Job.perform (.probe path) then
    let _ ← Job.perform (.rename path (Path.sibling path ".bak"))
  Job.onPath path (← Job.perform (.rename temporary path))

def writeText (path : Path) (text : String) : Job Unit := atomicWrite path (Text.utf8Bytes text)

end DiamondScript.Files
