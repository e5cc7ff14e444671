import DiamondScript.Compile
import DiamondScript.Files.Script

namespace DiamondScript

inductive Failure where
  | io (path : Path) (e : OsError)
  | json (problem : Json.Problem) (file : Option Path)
  | compile (location : Location) (d : Diagnostic)
  | block (e : BlockError)
  | code (e : Code.Error)
  | tooManyLines (lines limit : Nat)
  | newerSettings (file : Path) (version supported : Nat)
  | loadingCatalog (path : Path) (cause : Failure)

namespace Failure

def message : Failure → String
  | .io path e => s!"I/O error on {path}: {e.message}"
  | .json problem file => problem.message file
  | .compile location d => location.report d.message
  | .block e => e.message
  | .code e => e.message
  | .tooManyLines lines limit =>
    s!"Delivery error: Program has {lines} code lines but a container holds at most {limit}"
  | .newerSettings file version supported =>
    s!"{file} has version {version}, newer than supported version {supported}"
  | .loadingCatalog path _ => s!"loading action catalog {path}"

def report : Failure → String
  | .io path e => s!"{message (.io path e)}: {e.message}"
  | .code (.base64 e) => s!"{message (.code (.base64 e))}: {e.message}"
  | .code (.gzip e) => s!"{message (.code (.gzip e))}: {e.message}"
  | .loadingCatalog path cause => s!"{message (.loadingCatalog path cause)}: {report cause}"
  | f => f.message

end Failure

abbrev Job := ExceptT Failure Script

namespace Job

variable {α : Type}

def perform (e : Effect) : Job e.Answer := ExceptT.lift (Script.perform e)

def note (r : Log.Record) : Job Unit := perform (.note r)

def noteAll : List Log.Record → Job Unit
  | [] => return ()
  | r :: rest => do
    note r
    noteAll rest

def print (line : String) : Job Unit := perform (.print line)

def ofExcept : Except Failure α → Job α
  | .ok a => return a
  | .error f => throw f

/-- Turns a refusal about a path into a failure. -/
def onPath (path : Path) : Except OsError α → Job α
  | .ok a => return a
  | .error e => throw (.io path e)

end Job
end DiamondScript
