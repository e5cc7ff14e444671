import DiamondScript.Codegen.Arguments

namespace DiamondScript.Codegen

def checkAssignment (declared actual : ValueType) (span : Span) : Result Unit :=
  match ValueType.compare declared actual with
  | .yes => .ok ()
  | .no => fail (.assignmentType actual declared) span
  | .entry key type => fail (.assignmentEntry actual declared key type) span

/-- Stores a value in a variable. The value is computed in place where that is possible, and
copied otherwise. -/
def assignInto (ctx : Context) (name : String) (storage : Storage) (declared : ValueType) (n : Nat)
    (value : Expr) (span : Span) : Result (Emitted Unit) := do
  let scope := storage.wireName
  let v ← genValue ctx (.var name scope) n value
  checkAssignment declared v.result.type span
  if v.result.item.asVariable? = some (name, scope) then .ok ⟨(), v.blocks, v.next⟩
  else
    let copy ← setVar ctx.schema "=" [Item.ofVariable name scope, v.result.item] span
    .ok ⟨(), v.blocks ++ [copy], v.next⟩

def genSetIndex (ctx : Context) (n : Nat) (object index value : Expr) (span : Span) :
    Result (Emitted Unit) := do
  let o ← genValue ctx (.temp "__obj") n object
  match containerOf? o.result.type with
  | none => fail (.notIndexable o.result.type) object.span
  | some container =>
    let i ← genValue ctx (.temp "__idx") o.next index
    let v ← genValue ctx (.temp "__value") i.next value
    checkKey container i.result.type index.span
    let element := o.result.type.element
    if element.accepts v.result.type then
      let block ← setVar ctx.schema (setAction container)
        [o.result.item, i.result.item, v.result.item] span
      .ok ⟨(), o.blocks ++ (i.blocks ++ (v.blocks ++ [block])), v.next⟩
    else fail (.elementType container element v.result.type) value.span

def genCall (ctx : Context) (n : Nat) (name : String) (args : List Expr) (span : Span) :
    Result (Emitted Unit) := do
  match ctx.scope.signature? name with
  | none => fail (.undefinedFunction name) span
  | some signature =>
    if signature.params.isEmpty && !args.isEmpty then fail (.functionTakesNone name) span
    else
      let params := signature.params.map Expectation.ofParam
      let items ← resolveArgs ctx .function span params n args
      let block ← newBlock ctx.schema "call_func" none items.result span
      .ok ⟨(), items.blocks ++ [block.withData name], items.next⟩

def genAction (ctx : Context) (n : Nat) (ref : ActionRef) (args : List Expr) (span : Span) :
    Result (Emitted Unit) := do
  let spec ← liftSchema span (ctx.schema.action ref.category ref.action)
  let identifier ← liftSchema span (ctx.schema.identifierOf ref.category)
  if spec.arguments.isEmpty && !args.isEmpty then fail (.actionTakesNone ref.action) span
  else
    let params := spec.arguments.map Expectation.ofArgument
    let items ← resolveArgs ctx .codeblock span params n args
    let block ← newBlock ctx.schema identifier (some ref.action) items.result span
    .ok ⟨(), items.blocks ++ [block.withTarget (ref.target.map Target.wireName)], items.next⟩

/-- Code for a statement, and the names in force after it. A variable is known in its own
initial value. -/
def genStmt (ctx : Context) (n : Nat) : Stmt → Result (Emitted Scope)
  | .var d => do
    let scope := ctx.scope.define d.name d.type d.storage
    match d.value with
    | none => .ok ⟨scope, [], n⟩
    | some value =>
      let e ← assignInto { ctx with scope } d.name d.storage d.type n value d.span
      .ok ⟨scope, e.blocks, e.next⟩
  | .expr e => do
    let emitted ← match e with
      | .assign span name value =>
        match ctx.scope.binding? name with
        | some b => assignInto ctx name b.storage b.type n value span
        | none => fail (.undefinedAssignment name) span
      | .setIndex span object index value => genSetIndex ctx n object index value span
      | .call span name args => genCall ctx n name args span
      | .action span ref args => genAction ctx n ref args span
      | other => fail .statementExpected other.span
    .ok ⟨ctx.scope, emitted.blocks, emitted.next⟩

def genBody (schema : Schema) : Scope → Nat → List Stmt → Result (List Codeblock)
  | _, _, [] => .ok []
  | scope, n, stmt :: rest => do
    let e ← genStmt ⟨schema, scope⟩ n stmt
    let blocks ← genBody schema e.result e.next rest
    .ok (e.blocks ++ blocks)

end DiamondScript.Codegen
