import DiamondScript.Command.Arguments
import DiamondScript.Delivery
import DiamondScript.Project

namespace DiamondScript.Command

def logSource : String := "dfc"

structure Loaded where
  settings : Settings
  schema : Schema
  program : Program

def loadingCatalog {α : Type} (path : Path) (job : Job α) : Job α :=
  tryCatch job fun f => throw (.loadingCatalog path f)

/-- Compiles a source file with the settings and the catalog that belong to it. -/
def compileProject (source : Path) (inputs : Inputs) : Job Loaded := do
  let config := inputs.config.getD (Path.configIn (Path.directoryOf source))
  let settings ← Settings.loadFile config
  let catalog := inputs.actiondump.getD (Path.resolve (Path.directoryOf config) settings.actiondump)
  let schema ← loadingCatalog catalog (Schema.load catalog)
  let text ← Files.readText source
  let program ← compileFile schema source text
  Job.note ⟨.info, logSource, s!"compiled {source} into {program.lines.length} code lines"⟩
  return ⟨settings, schema, program⟩

def ofBlock {α : Type} : Except BlockError α → Job α
  | .ok a => return a
  | .error e => throw (.block e)

def render (l : Loaded) : Format → Job String
  | .give => Delivery.give l.schema l.settings l.program
  | .templates => do
    let codes ← ofBlock (l.program.encodeAll l.schema)
    return String.intercalate "\n" codes
  | .json => do
    let v ← ofBlock (l.program.toJson l.schema)
    return v.prettyText

def printAll : List String → Job Unit
  | [] => return ()
  | line :: rest => do
    Job.print line
    printAll rest

def Action.run : Action → Job Unit
  | .build source inputs out format => do
    let loaded ← compileProject source inputs
    let output ← render loaded format
    match out with
    | some path =>
      Files.writeText path output
      Job.note ⟨.info, logSource, s!"wrote {path}"⟩
    | none => Job.print output
  | .check source inputs => do
    let loaded ← compileProject source inputs
    Job.print s!"{source}: ok ({loaded.program.lines.length} code lines)"
  | .decode template =>
    match Code.decode template with
    | .ok v => Job.print v.prettyText
    | .error e => throw (.code e)
  | .init directory => do
    let written ← Project.init directory
    printAll (written.map fun path => s!"created {path}")
  | .settings schema config =>
    if schema then Job.print Settings.jsonSchema.prettyText
    else do
      let settings ← Settings.loadFile (config.getD (Path.configIn "."))
      Job.print settings.toJson.prettyText

def versionText : String := "dfc 0.1.0"

def helpText : String :=
  "Compile dfc programs into DiamondFire code templates\n\n"
    ++ "Usage: dfc [-v...] [-q] <COMMAND>\n\n"
    ++ "Commands:\n"
    ++ "  build <SOURCE> [--actiondump <FILE>] [--config <FILE>] [--out <FILE>]"
    ++ " [--format give|templates|json]\n"
    ++ "  check <SOURCE> [--actiondump <FILE>] [--config <FILE>]\n"
    ++ "  decode <TEMPLATE>\n"
    ++ "  init [DIR]\n"
    ++ "  settings [--schema] [--config <FILE>]"

/-- Whether a record is shown at a verbosity. -/
def isShown (verbosity : Option Nat) (r : Log.Record) : Bool :=
  match verbosity with
  | some n => r.level.verbosity ≤ n
  | none => false

/-- The exit status of a request and what it says on the error channel. -/
def Request.run : Request → Script (Nat × String)
  | .usage => return (2, helpText ++ "\n")
  | .help => do
    Script.perform (.print helpText)
    return (0, "")
  | .version => do
    Script.perform (.print versionText)
    return (0, "")
  | .perform action _ => do
    match ← ExceptT.run action.run with
    | .ok () => return (0, "")
    | .error f => return (1, f.report ++ "\n")

def Request.verbosity : Request → Option Nat
  | .perform _ v => v
  | _ => none

end DiamondScript.Command
