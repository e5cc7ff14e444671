import DiamondScript.Codegen.Fault
import DiamondScript.Scope
import DiamondScript.Template.Program

namespace DiamondScript.Codegen

/-- What code is generated against: the catalog and the names in force. -/
structure Context where
  schema : Schema
  scope : Scope

/-- Where a computed value is written: a variable of the program, or the next temporary with
a name that starts with a hint. -/
inductive Dest where
  | var (name scope : String)
  | temp (hint : String)
  deriving DecidableEq, Repr

/-- A value's type, and the item that stands for it: a literal or a variable that holds it. -/
structure Value where
  type : ValueType
  item : Item

/-- A result, the blocks that have to run before it is there, and the number of the next
temporary. -/
structure Emitted (α : Type) where
  result : α
  blocks : List Codeblock
  next : Nat

abbrev Result := Except SemanticError

def fail {α : Type} (fault : SemanticFault) (span : Span) : Result α := .error ⟨fault, span⟩

def liftSchema {α : Type} (span : Span) : Except SchemaError α → Result α
  | .ok a => .ok a
  | .error e => fail (.schema e) span

def numberSlots : Nat → List Item → List Item
  | _, [] => []
  | slot, item :: rest => item.atSlot slot :: numberSlots (slot + 1) rest

/-- A block whose items are in consecutive slots. -/
def newBlock (schema : Schema) (kind : String) (action : Option String) (args : List Item)
    (span : Span) : Result Codeblock :=
  liftSchema span (Codeblock.new schema kind action (numberSlots 0 args))

def setVar (schema : Schema) (action : String) (args : List Item) (span : Span) :
    Result Codeblock :=
  newBlock schema "set_var" (some action) args span

def temporaryName (hint : String) (n : Nat) : String := s!"{hint}{n}"

/-- The variable that a computed value goes to, and the number of the next temporary. -/
def place (dest : Dest) (n : Nat) : Item × Nat :=
  match dest with
  | .var name scope => (Item.ofVariable name scope, n)
  | .temp hint => (Item.ofVariable (temporaryName hint n) Storage.line.wireName, n + 1)

def containerOf? (type : ValueType) : Option Container :=
  match type.base with
  | .dict => some .dictionary
  | .list => some .list
  | _ => none

def checkKey (container : Container) (key : ValueType) (span : Span) : Result Unit :=
  if key.base = container.key then .ok () else fail (.keyType container key) span

def getAction : Container → String
  | .dictionary => "GetDictValue"
  | .list => "GetListValue"

def setAction : Container → String
  | .dictionary => "SetDictValue"
  | .list => "SetListValue"

def fillDict (schema : Schema) (target : Item) (span : Span) :
    List (String × Item) → Result (List Codeblock)
  | [] => .ok []
  | (key, item) :: rest => do
    let block ← setVar schema "SetDictValue" [target, Item.ofKind (.string key), item] span
    let blocks ← fillDict schema target span rest
    .ok (block :: blocks)

mutual

/-- Code for the value of an expression. A computed value is written to the destination;
operands go to temporaries first. -/
def genValue (ctx : Context) (dest : Dest) (n : Nat) : Expr → Result (Emitted Value)
  | .number _ x => .ok ⟨⟨.num, Item.ofKind (.number x)⟩, [], n⟩
  | .str _ s => .ok ⟨⟨.simple .str, Item.ofKind (.string s)⟩, [], n⟩
  | .styledText _ s => .ok ⟨⟨.simple .txt, Item.ofKind (.styledText s)⟩, [], n⟩
  | .vector _ x y z => .ok ⟨⟨.simple .vec, Item.ofKind (.vector x y z)⟩, [], n⟩
  | .variable span name =>
    match ctx.scope.binding? name with
    | some b => .ok ⟨⟨b.type, Item.ofVariable name b.storage.wireName⟩, [], n⟩
    | none => fail (.undefinedVariable name) span
  | .dict span entries => do
    let values ← genEntries ctx n entries
    let (target, next) := place dest values.next
    let create ← setVar ctx.schema "CreateDict" [target] span
    let fill ← fillDict ctx.schema target span (values.result.map fun (k, v) => (k, v.item))
    let recorded := values.result.map fun (k, v) => (EntryKey.name k, v.type)
    .ok ⟨⟨.literal .dict [.any] recorded, target⟩, values.blocks ++ create :: fill, next⟩
  | .list span items => do
    let values ← genItems ctx n items
    let (target, next) := place dest values.next
    let create ← setVar ctx.schema "CreateList" (target :: values.result.map Value.item) span
    let recorded := values.result.zipIdx.map fun (v, i) => (EntryKey.position i, v.type)
    .ok ⟨⟨.literal .list [.any] recorded, target⟩, values.blocks ++ [create], next⟩
  | .binary span op opSpan left right => do
    let l ← genValue ctx (.temp "__bin_l") n left
    let r ← genValue ctx (.temp "__bin_r") l.next right
    if l.result.type.base = .num ∧ r.result.type.base = .num then
      let (target, next) := place dest r.next
      let block ← setVar ctx.schema op.action [target, l.result.item, r.result.item] span
      .ok ⟨⟨.num, target⟩, l.blocks ++ (r.blocks ++ [block]), next⟩
    else fail .operandType opSpan
  | .index span object index => do
    let o ← genValue ctx (.temp "__obj") n object
    match containerOf? o.result.type with
    | some container =>
      let i ← genValue ctx (.temp "__idx") o.next index
      checkKey container i.result.type index.span
      let (target, next) := place dest i.next
      let block ← setVar ctx.schema (getAction container)
        [target, o.result.item, i.result.item] span
      .ok ⟨⟨o.result.type.element, target⟩, o.blocks ++ (i.blocks ++ [block]), next⟩
    | none =>
      if o.result.type.base = .str then do
        let _ ← genValue ctx (.temp "__idx") o.next index
        fail (.indexNotImplemented o.result.type) span
      else fail (.notIndexable o.result.type) object.span
  | .cast _ type value => do
    let v ← genValue ctx dest n value
    .ok ⟨⟨type.withEntries v.result.type.entries?, v.result.item⟩, v.blocks, v.next⟩
  | .assign span _ _ | .setIndex span _ _ _ | .call span _ _ | .action span _ _ =>
    fail .noValue span

def genItems (ctx : Context) (n : Nat) : List Expr → Result (Emitted (List Value))
  | [] => .ok ⟨[], [], n⟩
  | e :: rest => do
    let v ← genValue ctx (.temp "__list") n e
    let vs ← genItems ctx v.next rest
    .ok ⟨v.result :: vs.result, v.blocks ++ vs.blocks, vs.next⟩

def genEntries (ctx : Context) (n : Nat) :
    List (String × Expr) → Result (Emitted (List (String × Value)))
  | [] => .ok ⟨[], [], n⟩
  | (key, e) :: rest => do
    let v ← genValue ctx (.temp "__dict") n e
    let vs ← genEntries ctx v.next rest
    .ok ⟨(key, v.result) :: vs.result, v.blocks ++ vs.blocks, vs.next⟩

end

end DiamondScript.Codegen
