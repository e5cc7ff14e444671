import DiamondScript.Json.Typed

namespace DiamondScript

/-- A choice that an action offers: the option taken if nothing is said, and all options
there are. -/
structure TagSpec where
  name : String
  slot : Nat
  defaultOption : String
  options : List String
  deriving DecidableEq, Repr

def TagSpec.allows (t : TagSpec) (option : String) : Bool := t.options.contains option

namespace Catalog

/-- An argument as a catalog lists it; one without a type is only a remark. -/
structure Argument where
  type : Option String
  plural : Bool
  optional : Bool
  deriving DecidableEq, Repr

structure Action where
  category : String
  name : String
  tags : List TagSpec
  arguments : List Argument
  deriving DecidableEq, Repr

/-- The identifier by which the blocks of a category are known in templates. -/
structure Codeblock where
  name : String
  identifier : String
  deriving DecidableEq, Repr

end Catalog

/-- The actions and kinds of code blocks that programs may use. -/
structure Catalog where
  actions : List Catalog.Action
  codeblocks : List Catalog.Codeblock
  deriving DecidableEq, Repr

namespace Catalog

open Json

section

variable {σ α : Type}

def required (name : String) : Option α → Except String α
  | some a => .ok a
  | none => .error name

/-- A field whose value is kept by `set` until the record is complete. -/
def field (name : String) (inArray : Bool) (get : σ → Option α) (set : σ → α → σ)
    (read : Reader α) : FieldSpec σ where
  name := name
  inArray := inArray
  filled s := (get s).isSome
  read s cs := do
    let (a, rest) ← read cs
    .ok (set s a, rest)

end

def optionShape : Shape (Option String) String where
  name := "TagOption"
  fields := [field "name" true id (fun _ a => some a) readString]
  blank := none
  build := required "name"

structure TagState where
  name : Option String := none
  slot : Option Nat := none
  defaultOption : Option String := none
  options : Option (List String) := none

def tagShape : Shape TagState TagSpec where
  name := "TagSpec"
  fields := [
    field "name" true TagState.name (fun s a => { s with name := some a }) readString,
    field "slot" true TagState.slot (fun s a => { s with slot := some a })
      (readUnsigned 64 "usize"),
    field "defaultOption" true TagState.defaultOption
      (fun s a => { s with defaultOption := some a }) readString,
    field "options" false TagState.options (fun s a => { s with options := some a })
      (readList optionShape.read)]
  blank := {}
  build s := do
    let name ← required "name" s.name
    let slot ← required "slot" s.slot
    let defaultOption ← required "defaultOption" s.defaultOption
    .ok { name, slot, defaultOption, options := s.options.getD [] }

structure ArgumentState where
  type : Option (Option String) := none
  plural : Option Bool := none
  optional : Option Bool := none

def argumentShape : Shape ArgumentState Argument where
  name := "CatalogArgument"
  fields := [
    field "type" true ArgumentState.type (fun s a => { s with type := some a })
      (readNullable readString),
    field "plural" false ArgumentState.plural (fun s a => { s with plural := some a }) readBool,
    field "optional" false ArgumentState.optional (fun s a => { s with optional := some a })
      readBool]
  blank := {}
  build s := .ok {
    type := s.type.getD none
    plural := s.plural.getD false
    optional := s.optional.getD false }

def iconShape : Shape (Option (List Argument)) (List Argument) where
  name := "CatalogIcon"
  fields := [field "arguments" false id (fun _ a => some a) (readList argumentShape.read)]
  blank := none
  build s := .ok (s.getD [])

structure ActionState where
  category : Option String := none
  name : Option String := none
  tags : Option (List TagSpec) := none
  arguments : Option (List Argument) := none

def actionShape : Shape ActionState Action where
  name := "CatalogAction"
  fields := [
    field "codeblockName" true ActionState.category (fun s a => { s with category := some a })
      readString,
    field "name" true ActionState.name (fun s a => { s with name := some a }) readString,
    field "tags" false ActionState.tags (fun s a => { s with tags := some a })
      (readList tagShape.read),
    field "icon" false ActionState.arguments (fun s a => { s with arguments := some a })
      iconShape.read]
  blank := {}
  build s := do
    let category ← required "codeblockName" s.category
    let name ← required "name" s.name
    .ok { category, name, tags := s.tags.getD [], arguments := s.arguments.getD [] }

structure CodeblockState where
  name : Option String := none
  identifier : Option String := none

def codeblockShape : Shape CodeblockState Codeblock where
  name := "CatalogCodeblock"
  fields := [
    field "name" true CodeblockState.name (fun s a => { s with name := some a }) readString,
    field "identifier" true CodeblockState.identifier (fun s a => { s with identifier := some a })
      readString]
  blank := {}
  build s := do
    let name ← required "name" s.name
    let identifier ← required "identifier" s.identifier
    .ok { name, identifier }

structure State where
  actions : Option (List Action) := none
  codeblocks : Option (List Codeblock) := none

def shape : Shape State Catalog where
  name := "Catalog"
  fields := [
    field "actions" false State.actions (fun s a => { s with actions := some a })
      (readList actionShape.read),
    field "codeblocks" false State.codeblocks (fun s a => { s with codeblocks := some a })
      (readList codeblockShape.read)]
  blank := {}
  build s := .ok { actions := s.actions.getD [], codeblocks := s.codeblocks.getD [] }

def ofJson (text : String) : Except Problem Catalog := readFront shape.read text

end Catalog
end DiamondScript
