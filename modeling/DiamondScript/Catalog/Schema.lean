import DiamondScript.Catalog.Document
import DiamondScript.Log
import DiamondScript.Table

namespace DiamondScript

structure ArgumentSpec where
  type : String
  plural : Bool
  optional : Bool
  deriving DecidableEq, Repr

structure ActionSpec where
  name : String
  tags : List TagSpec
  arguments : List ArgumentSpec
  deriving DecidableEq, Repr

structure Category where
  name : String
  identifier : Option String
  actions : Table ActionSpec
  deriving DecidableEq, Repr

/-- A catalog prepared for look-ups: categories by name, and for each identifier the category
that was first to have it. -/
structure Schema where
  categories : Table Category
  identifiers : Table String
  deriving DecidableEq, Repr

inductive SchemaError where
  | unknownCategory (name : String)
  | unknownAction (category action : String)
  | unknownIdentifier (identifier : String)
  | missingIdentifier (category : String)
  deriving DecidableEq, Repr

def SchemaError.message : SchemaError → String
  | .unknownCategory name => s!"Unknown codeblock category '{name}'"
  | .unknownAction category action =>
    s!"Unknown action '{action}' in codeblock category '{category}'"
  | .unknownIdentifier identifier => s!"Unknown codeblock identifier '{identifier}'"
  | .missingIdentifier category => s!"Codeblock category '{category}' has no identifier"

namespace Schema

/-- The one action of the kinds of blocks that are named by the program itself. -/
def dynamicAction : String := "dynamic"

def isDynamic (identifier : String) : Bool :=
  ["func", "call_func", "process", "start_process"].contains identifier

def empty : Schema := ⟨[], []⟩

def ArgumentSpec.ofArgument? (a : Catalog.Argument) : Option ArgumentSpec :=
  a.type.map fun type => ⟨type, a.plural, a.optional⟩

def specOf (a : Catalog.Action) : ActionSpec :=
  ⟨a.name, a.tags, a.arguments.filterMap ArgumentSpec.ofArgument?⟩

def categoryOrNew (s : Schema) (name : String) : Category :=
  (s.categories.find? name).getD ⟨name, none, []⟩

/-- Enters an action into its category; an earlier one of the same name is replaced. -/
def addAction (s : Schema) (a : Catalog.Action) : Schema :=
  let old := s.categoryOrNew a.category
  let new := { old with actions := old.actions.insert a.name (specOf a) }
  { s with categories := s.categories.insert a.category new }

/-- Enters an identifier. A category of a dynamic kind gets the dynamic action if the catalog
does not describe it. -/
def addCodeblock (s : Schema) (c : Catalog.Codeblock) : Schema :=
  let old := s.categoryOrNew c.name
  let actions :=
    if isDynamic c.identifier then old.actions.insertNew dynamicAction ⟨dynamicAction, [], []⟩
    else old.actions
  let new := { old with identifier := some c.identifier, actions }
  ⟨s.categories.insert c.name new, s.identifiers.insertNew c.identifier c.name⟩

def ofCatalog (c : Catalog) : Schema :=
  c.codeblocks.foldl addCodeblock (c.actions.foldl addAction empty)

def ofJson (text : String) : Except Json.Problem Schema := do
  let catalog ← Catalog.ofJson text
  .ok (ofCatalog catalog)

def category (s : Schema) (name : String) : Except SchemaError Category :=
  match s.categories.find? name with
  | some c => .ok c
  | none => .error (.unknownCategory name)

def action (s : Schema) (category action : String) : Except SchemaError ActionSpec := do
  let c ← s.category category
  match c.actions.find? action with
  | some a => .ok a
  | none => .error (.unknownAction category action)

def identifierOf (s : Schema) (category : String) : Except SchemaError String := do
  let c ← s.category category
  match c.identifier with
  | some i => .ok i
  | none => .error (.missingIdentifier category)

def categoryOf (s : Schema) (identifier : String) : Except SchemaError String :=
  match s.identifiers.find? identifier with
  | some c => .ok c
  | none => .error (.unknownIdentifier identifier)

/-- The specification behind a block; dynamic kinds have one for all their blocks. -/
def blockAction (s : Schema) (identifier : String) (action : Option String) :
    Except SchemaError ActionSpec := do
  let category ← s.categoryOf identifier
  s.action category (if isDynamic identifier then dynamicAction else action.getD dynamicAction)

end Schema

namespace Catalog

def logSource : String := "dfc::schema"

/-- Remarks on the arguments that are dropped from an action. -/
def argumentRecords (a : Action) : List Log.Record :=
  (a.arguments.filter fun arg => arg.type.isNone).map fun _ =>
    ⟨.trace, logSource, s!"dropping untyped argument of '{a.name}'"⟩

/-- Remarks on the code blocks whose category is not known yet. -/
def codeblockRecords (s : Schema) : List Codeblock → List Log.Record
  | [] => []
  | c :: rest =>
    let later := codeblockRecords (s.addCodeblock c) rest
    if (s.categories.find? c.name).isSome then later
    else ⟨.trace, logSource, s!"codeblock '{c.name}' has no actions"⟩ :: later

/-- The remarks made while a schema is built from a catalog. -/
def records (c : Catalog) : List Log.Record :=
  let schema := Schema.ofCatalog c
  let actions := schema.categories.foldl (fun n e => n + e.2.actions.length) 0
  c.actions.flatMap argumentRecords
    ++ codeblockRecords (c.actions.foldl Schema.addAction Schema.empty) c.codeblocks
    ++ [⟨.debug, logSource,
      s!"action catalog: {schema.categories.length} categories, {actions} actions, "
        ++ s!"{schema.identifiers.length} identifiers"⟩]

end Catalog
end DiamondScript
