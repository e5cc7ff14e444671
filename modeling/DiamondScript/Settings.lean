import DiamondScript.Catalog.Document
import DiamondScript.Files.Text

namespace DiamondScript

structure Settings where
  version : Nat
  actiondump : Path
  author : String
  templateName : String
  programName : String
  containerItem : String
  templateItem : String
  deriving DecidableEq, Repr

namespace Settings

def supportedVersion : Nat := 1

def default : Settings where
  version := supportedVersion
  actiondump := Path.catalogName
  author := "DFCompiler"
  templateName := "&bDFCompiler Template"
  programName := "DFCompiler Program"
  containerItem := "minecraft:shulker_box"
  templateItem := "minecraft:ender_chest"

/-- Whether nothing differs from the defaults; the catalog's path may be spelled otherwise. -/
def isDefault (s : Settings) : Bool :=
  Path.steps s.actiondump == Path.steps default.actiondump
    && { s with actiondump := default.actiondump } == default

/-- The settings as a document, in order of declaration. -/
def toJson (s : Settings) : Json := .obj
  [("version", .nat s.version), ("actiondump", .str s.actiondump), ("author", .str s.author),
    ("template_name", .str s.templateName), ("program_name", .str s.programName),
    ("container_item", .str s.containerItem), ("template_item", .str s.templateItem)]

/-- The fields of a document that were read so far. -/
structure Given where
  version : Option Nat := none
  actiondump : Option Path := none
  author : Option String := none
  templateName : Option String := none
  programName : Option String := none
  containerItem : Option String := none
  templateItem : Option String := none

open Json Catalog in
/-- Every field has a default. -/
def shape : Shape Given Settings where
  name := "CompilerSettings"
  fields := [
    field "version" false Given.version (fun s a => { s with version := some a })
      (readUnsigned 32 "u32"),
    field "actiondump" false Given.actiondump (fun s a => { s with actiondump := some a })
      (readStringAs "path string"),
    field "author" false Given.author (fun s a => { s with author := some a }) readString,
    field "template_name" false Given.templateName (fun s a => { s with templateName := some a })
      readString,
    field "program_name" false Given.programName (fun s a => { s with programName := some a })
      readString,
    field "container_item" false Given.containerItem
      (fun s a => { s with containerItem := some a }) readString,
    field "template_item" false Given.templateItem
      (fun s a => { s with templateItem := some a }) readString]
  blank := {}
  build s := .ok {
    version := s.version.getD default.version
    actiondump := s.actiondump.getD default.actiondump
    author := s.author.getD default.author
    templateName := s.templateName.getD default.templateName
    programName := s.programName.getD default.programName
    containerItem := s.containerItem.getD default.containerItem
    templateItem := s.templateItem.getD default.templateItem }

def logSource : String := "dfc::settings"

/-- Loads the settings of a file. A missing file stands for the defaults, and settings of a
newer version are refused. -/
def loadFile (path : Path) : Job Settings := do
  if ← Job.perform (.probe path) then
    let text ← Files.readText path
    match Json.readFront shape.read text with
    | .error problem => throw (.json problem (some path))
    | .ok s =>
      if supportedVersion < s.version then throw (.newerSettings path s.version supportedVersion)
      else
        Job.note ⟨.debug, logSource, s!"loaded settings from {path}"⟩
        return s
  else
    Job.note ⟨.debug, logSource, s!"no settings at {path}, using defaults"⟩
    return default

def load (directory : Path) : Job Settings := loadFile (Path.configIn directory)

def save (directory : Path) (s : Settings) : Job Unit := do
  Files.makeDirs directory
  Files.writeText (Path.configIn directory) s.toJson.prettyText

def textEntry (description value : String) : Json := .obj
  [("description", .str description), ("default", .str value), ("type", .str "string")]

def jsonSchema : Json := .obj
  [("$schema", .str "http://json-schema.org/draft-07/schema#"),
    ("title", .str "CompilerSettings"),
    ("description", .str ("Compiler settings stored in `dfc.json` beside the source.\n\n"
      ++ "Every field has a default, so a partial file is valid.")),
    ("type", .str "object"),
    ("properties", .obj
      [("actiondump", textEntry "Action catalog, relative to the config file's directory."
          default.actiondump),
        ("author", textEntry "Author recorded in every template." default.author),
        ("container_item", textEntry "Item id of the container in the give command."
          default.containerItem),
        ("program_name", textEntry "Display name of the container handed to the player."
          default.programName),
        ("template_item", textEntry "Item id of each template inside the container."
          default.templateItem),
        ("template_name", textEntry "Display name of each template item." default.templateName),
        ("version", .obj [("default", .nat default.version), ("type", .str "integer"),
          ("format", .str "uint32"), ("minimum", .float (.zero false))])])]

end Settings
end DiamondScript
