import DiamondScript.Codegen.Statement
import DiamondScript.Log

namespace DiamondScript

namespace Codegen

/-- The type of a parameter inside its function: a plural one is a list. -/
def innerType (p : Param) : ValueType := if p.plural then .listOf p.type else p.type

/-- The items that declare the parameters from the `i`-th on, and the names in force inside
the function. -/
def genParams (func : FuncDef) : Scope → Nat → List Param → Result (List Item × Scope)
  | scope, _, [] => .ok ([], scope)
  | scope, i, p :: rest =>
    match p.type.base.parameterCode with
    | none => fail (.parameterType p.name func.name p.type) func.span
    | some code => do
      let item := Item.ofKind (.parameter p.name (if p.output then "var" else code) p.optional
        p.plural (p.description.getD s!"Argument #{i + 1}"))
      let (items, scope) ← genParams func (scope.define p.name (innerType p) .line) (i + 1) rest
      .ok (item :: items, scope)

/-- The code line of a function. The scope already knows the function itself. -/
def genFunction (schema : Schema) (scope : Scope) (func : FuncDef) (body : List Stmt) :
    Result Codeline := do
  let (params, inner) ← genParams func scope.push 0 func.params
  let head ← newBlock schema "func" none params func.span
  let blocks ← genBody schema inner 0 body
  .ok ⟨head.withData func.name :: blocks⟩

/-- What the definitions so far have left: the global names and the finished lines. -/
structure State where
  scope : Scope
  lines : List Codeline

def State.start : State := ⟨.empty, []⟩

def genDefinition (schema : Schema) (s : State) : Definition → Result State
  | .var d =>
    match d.value with
    | some _ => fail (.globalInitializer d.name) d.span
    | none => .ok { s with scope := s.scope.define d.name d.type d.storage }
  | .func d => do
    let scope := s.scope.defineFunction ⟨d.name, d.params⟩
    match d.body with
    | none => .ok { s with scope }
    | some body =>
      let line ← genFunction schema scope d body
      .ok ⟨scope, s.lines ++ [line]⟩

/-- Works through the definitions until one fails; what was finished before stays. -/
def run (schema : Schema) : State → List Definition → State × Option SemanticError
  | s, [] => (s, none)
  | s, d :: rest =>
    match genDefinition schema s d with
    | .ok s => run schema s rest
    | .error e => (s, some e)

def lineRecord (l : Codeline) : Log.Record :=
  let name := (l.blocks.head?.bind Codeblock.data).getD ""
  ⟨.debug, "dfc::dsl::generator", s!"generated function '{name}' ({l.blocks.length} blocks)"⟩

end Codegen

open Codegen in
/-- The program of a list of definitions: one line for each function with a body. -/
def generate (schema : Schema) (definitions : List Definition) : Except SemanticError Program :=
  match Codegen.run schema .start definitions with
  | (s, none) => .ok ⟨s.lines⟩
  | (_, some e) => .error e

open Codegen in
/-- The remarks made while generating; lines finished before a failure are among them. -/
def generateRecords (schema : Schema) (definitions : List Definition) : List Log.Record :=
  (Codegen.run schema .start definitions).1.lines.map lineRecord

end DiamondScript
