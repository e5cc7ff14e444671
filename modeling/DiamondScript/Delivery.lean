import DiamondScript.Settings

namespace DiamondScript.Delivery

/-- The number of templates that one container holds. -/
def capacity : Nat := 27

def templateDataVersion : Nat := 1

def templateData (settings : Settings) (code : String) : Json := .obj
  [("author", .str settings.author), ("name", .str settings.templateName),
    ("version", .nat templateDataVersion), ("code", .str code)]

/-- The item that holds a code, in the slot of its number. -/
def templateItem (settings : Settings) (slot : Nat) (code : String) : String :=
  "\x7bid: \"" ++ settings.templateItem ++ "\", Slot: " ++ toString slot
    ++ "b, Count:1b, tag:\x7bdisplay:\x7bName:'\x7b\"text\":\"Template #" ++ toString (slot + 1)
    ++ "\", \"color\": \"aqua\"\x7d'\x7d, PublicBukkitValues:\x7b\"hypercube:codetemplatedata\":'"
    ++ (templateData settings code).compactText ++ "'\x7d\x7d\x7d"

def templateItems (settings : Settings) (codes : List String) : List String :=
  codes.zipIdx.map fun (code, slot) => templateItem settings slot code

def command (settings : Settings) (codes : List String) : String :=
  "/give @p " ++ settings.containerItem ++ "\x7bBlockEntityTag:\x7bItems:["
    ++ String.intercalate "," (templateItems settings codes)
    ++ "]\x7d, display:\x7bName:'[\x7b\"text\": \"" ++ settings.programName
    ++ "\", \"color\": \"light_purple\", \"italic\": \"false\"\x7d]'\x7d\x7d"

def giveCommand (schema : Schema) (settings : Settings) (program : Program) :
    Except Failure String :=
  if capacity < program.lines.length then .error (.tooManyLines program.lines.length capacity)
  else
    match program.encodeAll schema with
    | .ok codes => .ok (command settings codes)
    | .error e => .error (.block e)

def packedRecord (settings : Settings) (program : Program) : Log.Record :=
  ⟨.debug, "dfc::delivery",
    s!"packed {program.lines.length} templates into {settings.containerItem}"⟩

/-- The same as a job, with a remark when the command is complete. -/
def give (schema : Schema) (settings : Settings) (program : Program) : Job String := do
  let text ← Job.ofExcept (giveCommand schema settings program)
  Job.note (packedRecord settings program)
  return text

end DiamondScript.Delivery
