import DiamondScript.Settings

namespace DiamondScript

namespace Schema

def load (path : Path) : Job Schema := do
  let text ← Files.readText path
  Job.note ⟨.debug, Catalog.logSource, s!"loading action catalog from {path}"⟩
  match Catalog.ofJson text with
  | .error problem => throw (.json problem none)
  | .ok catalog =>
    Job.noteAll catalog.records
    return ofCatalog catalog

end Schema

/-- Compiles a source text that came from a file. -/
def compileFile (schema : Schema) (file source : String) : Job Program := do
  Job.noteAll (compileRecords schema source)
  match compile schema source with
  | .ok program => return program
  | .error d => throw (.compile (d.locate file source) d)

namespace Project

def starterSource : String :=
  "// Sends a greeting to everyone when called.\n"
    ++ "func main() \x7b\n"
    ++ "    @all codeblock \"SendMessage\" <\"PLAYER ACTION\">(`Hello from dfc!`);\n"
    ++ "\x7d\n"

/-- Writes what is missing of a new project, and tells what was written. -/
def init (directory : Path) : Job (List Path) := do
  Files.makeDirs directory
  let config := Path.configIn directory
  let hasConfig ← Job.perform (.probe config)
  if !hasConfig then Settings.save directory Settings.default
  let source := Path.sourceIn directory
  let hasSource ← Job.perform (.probe source)
  if !hasSource then Files.writeText source starterSource
  let written := (if hasConfig then [] else [config]) ++ (if hasSource then [] else [source])
  Job.note ⟨.info, "dfc::project",
    s!"initialized project in {directory} ({written.length} new files)"⟩
  return written

end Project
end DiamondScript
