import DiamondScript.Catalog.Schema
import DiamondScript.Template.Item

namespace DiamondScript

inductive BlockError where
  | schema (e : SchemaError)
  | unknownTag (tag action : String)
  | invalidOption (option tag action category : String)
  deriving DecidableEq, Repr

def BlockError.message : BlockError → String
  | .schema e => e.message
  | .unknownTag tag action => s!"Unknown tag '{tag}' for action '{action}'"
  | .invalidOption option tag action category =>
    s!"Invalid value '{option}' of tag '{tag}' for action '{action}' in codeblock '{category}'"

/-- One instruction. Blocks of a dynamic kind carry a name as their data and no action. -/
structure Codeblock where
  kind : String
  data : Option String
  action : Option String
  args : List Item
  target : Option String
  tags : Table String
  deriving DecidableEq, Repr

namespace Codeblock

variable (schema : Schema)

def liftSchema {α : Type} : Except SchemaError α → Except BlockError α
  | .ok a => .ok a
  | .error e => .error (.schema e)

def defaultTags (tags : List TagSpec) : Table String :=
  tags.foldl (fun t tag => t.insert tag.name tag.defaultOption) []

/-- A block with every tag at its default. -/
def new (kind : String) (action : Option String) (args : List Item) :
    Except SchemaError Codeblock := do
  let spec ← schema.blockAction kind action
  .ok {
    kind
    data := none
    action := if Schema.isDynamic kind then none else action
    args
    target := none
    tags := defaultTags spec.tags }

def withData (data : String) (b : Codeblock) : Codeblock := { b with data := some data }

def withTarget (target : Option String) (b : Codeblock) : Codeblock := { b with target }

def spec (b : Codeblock) : Except BlockError ActionSpec :=
  liftSchema (schema.blockAction b.kind b.action)

def invalidOption {α : Type} (b : Codeblock) (option tag action : String) :
    Except BlockError α := do
  let category ← liftSchema (schema.categoryOf b.kind)
  .error (.invalidOption option tag action category)

/-- Chooses an option that the tag allows. -/
def setTag (tag option : String) (b : Codeblock) : Except BlockError Codeblock := do
  let spec ← b.spec schema
  match spec.tags.find? fun t => t.name == tag with
  | none => .error (.unknownTag tag spec.name)
  | some t =>
    if t.allows option then .ok { b with tags := b.tags.insert tag option }
    else b.invalidOption schema option tag spec.name

/-- The tags of a specification by ascending slot, in their own order where slots agree. -/
def sortTags (tags : List TagSpec) : List TagSpec := tags.mergeSort fun a b => a.slot ≤ b.slot

/-- The items of the given tags, in slots from `slot` on. -/
def tagItems (b : Codeblock) (action : String) : Nat → List TagSpec → Except BlockError (List Item)
  | _, [] => .ok []
  | slot, t :: rest =>
    let chosen := (b.tags.find? t.name).getD t.defaultOption
    if t.allows chosen then do
      let items ← tagItems b action (slot + 1) rest
      .ok (⟨slot, .tag b.kind action t.name chosen⟩ :: items)
    else b.invalidOption schema chosen t.name action

/-- The items as written: the arguments, then the tags in the slots behind them. -/
def items (b : Codeblock) : Except BlockError (List Item) := do
  let spec ← b.spec schema
  let tags ← b.tagItems schema spec.name b.args.length (sortTags spec.tags)
  .ok (b.args ++ tags)

def optionalField (name : String) : Option String → List (String × Json)
  | some s => [(name, .str s)]
  | none => []

def toJson (b : Codeblock) : Except BlockError Json := do
  let items ← b.items schema
  .ok (.object (
    [("id", .str "block"), ("block", .str b.kind),
      ("args", .object [("items", .arr (items.map Item.toJson))])]
    ++ optionalField "data" b.data
    ++ optionalField "action" b.action
    ++ optionalField "target" b.target))

end Codeblock
end DiamondScript
