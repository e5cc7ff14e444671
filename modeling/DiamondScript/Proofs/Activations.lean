import DiamondScript.Language.Parser

namespace DiamondScript.Parser

/-- The functions of the parser that call each other. A loop is called once for each round. -/
inductive Routine where
  | type
  | typeParams
  | expr
  | binary
  | operators
  | operand
  | indices
  | args
  | argsRest
  | primary
  | entries
  | items
  | params
  | body
  | definitions
  deriving DecidableEq, Repr

/-- A running call, and how many tokens were left where it began. -/
structure Activation where
  routine : Routine
  left : Nat
  deriving DecidableEq, Repr

/-- A parser that is told the calls it runs inside of, the innermost first, and that lists for
every call the calls running then, itself included. -/
def Traced (α : Type) :=
  List Activation → Cursor → Except ParseError (α × Cursor) × List (List Activation)

namespace Traced

variable {α : Type}

instance : Monad Traced where
  pure a := fun _ c => (.ok (a, c), [])
  bind p f := fun running c =>
    match p running c with
    | (.error e, calls) => (.error e, calls)
    | (.ok (a, d), calls) =>
      match f a running d with
      | (r, later) => (r, calls ++ later)

section

variable {β : Type} {p : Traced α} {f : α → Traced β} {running : List Activation} {c d : Cursor}
  {calls : List (List Activation)}

theorem bind_of_error {e : ParseError} (h : p running c = (.error e, calls)) :
    (p >>= f) running c = (.error e, calls) := by
  simp only [bind, h]

theorem bind_of_ok {a : α} (h : p running c = (.ok (a, d), calls)) :
    (p >>= f) running c = ((f a running d).1, calls ++ (f a running d).2) := by
  simp only [bind, h]

end

instance : MonadLift Parse Traced where
  monadLift p := fun _ c => (p c, [])

def cursor : Traced Cursor := fun _ c => (.ok (c, c), [])

def enter (routine : Routine) (p : Traced α) : Traced α := fun running c =>
  let running := ⟨routine, c.rest.length⟩ :: running
  match p running c with
  | (r, calls) => (r, running :: calls)

end Traced

open Traced

mutual

def traceType : Nat → Traced ValueType
  | 0 => exhausted
  | n + 1 => enter .type do
    match ← peek with
    | .type base =>
      advance
      if ← eat (.mark .less) then
        let params ← traceTypeParams n
        let _ ← expectMark .greater "'>' to close type parameters"
        return .declared base params
      else return .declared base []
    | _ => failHere "type"

def traceTypeParams : Nat → Traced (List ValueType)
  | 0 => exhausted
  | n + 1 => enter .typeParams do
    let type ← traceType n
    if ← eat (.mark .comma) then
      let types ← traceTypeParams n
      return type :: types
    else return [type]

end

mutual

def traceExpr (constants : Constants) : Nat → Traced Expr
  | 0 => exhausted
  | n + 1 => enter .expr do
    let left ← traceBinary constants 0 n
    let c ← cursor
    if c.token = .mark .equals then
      advance
      let value ← traceExpr constants n
      assignTo left value c.span
    else return left

def traceBinary (constants : Constants) (least : Nat) : Nat → Traced Expr
  | 0 => exhausted
  | n + 1 => enter .binary do
    let left ← tracePostfix constants n
    traceOperators constants least left n

def traceOperators (constants : Constants) (least : Nat) (left : Expr) : Nat → Traced Expr
  | 0 => exhausted
  | n + 1 => enter .operators do
    let c ← cursor
    match binaryOp? c.token with
    | none => return left
    | some (op, strength, leftward) =>
      if strength < least then return left
      else
        advance
        let right ← traceBinary constants (if leftward then strength + 1 else strength) n
        traceOperators constants least
          (.binary (left.span.merge right.span) op c.span left right) n

def tracePostfix (constants : Constants) : Nat → Traced Expr
  | 0 => exhausted
  | n + 1 => enter .operand do
    let operand ← tracePrimary constants n
    let called := (← peek) = .mark .leftParen
    match operand with
    | .action ref span =>
      let args ← if called then traceArgs constants n else pure []
      traceIndices constants (.action ⟨span.start, ← lastEnd⟩ ref args) n
    | .expr (.variable span name) =>
      if called then
        let args ← traceArgs constants n
        traceIndices constants (.call ⟨span.start, ← lastEnd⟩ name args) n
      else traceIndices constants (.variable span name) n
    | .expr e => traceIndices constants e n

def traceIndices (constants : Constants) (object : Expr) : Nat → Traced Expr
  | 0 => exhausted
  | n + 1 => enter .indices do
    if ← eat (.mark .leftBracket) then
      let index ← traceExpr constants n
      let _ ← expectMark .rightBracket "']' after index"
      traceIndices constants (.index ⟨object.span.start, ← lastEnd⟩ object index) n
    else if ← eat (.mark .dot) then
      let (key, span) ← expectIdent "key name after '.'"
      traceIndices constants (.index ⟨object.span.start, span.stop⟩ object (.str span key)) n
    else return object

def traceArgs (constants : Constants) : Nat → Traced (List Expr)
  | 0 => exhausted
  | n + 1 => enter .args do
    let _ ← expectMark .leftParen "'('"
    let args ← traceArgsRest constants n
    let _ ← expectMark .rightParen "')' after arguments"
    return args

def traceArgsRest (constants : Constants) : Nat → Traced (List Expr)
  | 0 => exhausted
  | n + 1 => enter .argsRest do
    if (← peek) = .mark .rightParen then return []
    else
      let arg ← traceExpr constants n
      if (← peek) = .mark .rightParen then return [arg]
      else
        let _ ← expectMark .comma "',' after argument"
        let args ← traceArgsRest constants n
        return arg :: args

def tracePrimary (constants : Constants) : Nat → Traced Operand
  | 0 => exhausted
  | n + 1 => enter .primary do
    let c ← cursor
    let start := c.span
    match c.token with
    | .target t => parseTargeted constants start t
    | .keyword .codeblock =>
      let ref ← parseActionRef
      return .action ref ⟨start.start, ← lastEnd⟩
    | .ident name | .varName name =>
      advance
      return (substitute constants name none start).getD (.expr (.variable start name))
    | .number _ | .mark .minus =>
      let x ← expectSignedNumber "expression"
      return .expr (.number ⟨start.start, ← lastEnd⟩ x)
    | .string s =>
      advance
      return .expr (.str start s)
    | .styledText s =>
      advance
      return .expr (.styledText start s)
    | .mark .less => parseVector start
    | .mark .leftParen =>
      advance
      match ← peek with
      | .type _ =>
        let type ← traceType n
        let _ ← expectMark .rightParen "')' after cast type"
        let value ← traceBinary constants 0 n
        return .expr (.cast ⟨start.start, value.span.stop⟩ type value)
      | _ =>
        let inner ← traceExpr constants n
        let _ ← expectMark .rightParen "')' after expression"
        return .expr inner
    | .mark .leftBrace =>
      advance
      let entries ← if (← peek) = .mark .rightBrace then pure [] else traceEntries constants n
      let _ ← expectMark .rightBrace "'\x7d' after dictionary"
      return .expr (.dict ⟨start.start, ← lastEnd⟩ entries)
    | .mark .leftBracket =>
      advance
      let items ← if (← peek) = .mark .rightBracket then pure [] else traceItems constants n
      let _ ← expectMark .rightBracket "']' after list"
      return .expr (.list ⟨start.start, ← lastEnd⟩ items)
    | _ => failHere "expression"

def traceEntries (constants : Constants) : Nat → Traced (List (String × Expr))
  | 0 => exhausted
  | n + 1 => enter .entries do
    let key ← expectString "dictionary key (string)"
    let _ ← expectMark .colon "':' after dictionary key"
    let value ← traceExpr constants n
    if (← peek) = .mark .rightBrace then return [(key, value)]
    else
      let _ ← expectMark .comma "',' after dictionary entry"
      let entries ← traceEntries constants n
      return (key, value) :: entries

def traceItems (constants : Constants) : Nat → Traced (List Expr)
  | 0 => exhausted
  | n + 1 => enter .items do
    let item ← traceExpr constants n
    if (← peek) = .mark .rightBracket then return [item]
    else
      let _ ← expectMark .comma "',' after list value"
      let items ← traceItems constants n
      return item :: items

end

def traceInitial (constants : Constants) (allowed : Bool) (n : Nat) : Traced (Option Expr) := do
  if allowed then
    if ← eat (.mark .equals) then return some (← traceExpr constants n)
    else return none
  else return none

def traceVarDef (constants : Constants) (withValue : Bool) (n : Nat) : Traced VarDef := do
  let start ← spanHere
  match storageOf? (← peek) with
  | none => failHere "variable definition"
  | some storage =>
    advance
    let name ← expectVarName
    let _ ← expectMark .colon "':' before variable type"
    let type ← traceType n
    let value ← traceInitial constants withValue n
    let _ ← expectMark .semicolon "';' after variable definition"
    return ⟨storage, name, type, value, ⟨start.start, ← lastEnd⟩⟩

def traceConstantValue (constants : Constants) (n : Nat) : Traced Constant := do
  let start ← spanHere
  match ← peek with
  | .target _ | .keyword .codeblock =>
    let ref ← parseActionRef
    if (← peek) = .mark .leftParen then
      let args ← traceArgs constants n
      return .expr (.action ⟨start.start, ← lastEnd⟩ ref args)
    else return .action ref
  | _ => return .expr (← traceExpr constants n)

def traceConst (constants : Constants) (n : Nat) : Traced Constants := do
  let _ ← expect (.keyword .const) "'const'"
  let (name, _) ← expectIdent "constant name"
  let _ ← expectMark .equals "'='"
  let constant ← traceConstantValue constants n
  let _ ← expectMark .semicolon "';' after constant"
  return (name, constant) :: constants

def traceParam (n : Nat) : Traced Param := do
  let output ← eat (.keyword .out)
  let (name, _) ← expectIdent "parameter name"
  let _ ← expectMark .colon "':' before parameter type"
  let type ← traceType n
  let plural ← eat (.mark .ellipsis)
  let optional ← eat (.mark .question)
  let description ← takeString
  return { name, type, optional, plural, output, description }

def traceParams : Nat → Traced (List Param)
  | 0 => exhausted
  | n + 1 => enter .params do
    if (← peek) = .mark .rightParen then return []
    else
      let param ← traceParam n
      if (← peek) = .mark .rightParen then return [param]
      else
        let _ ← expectMark .comma "',' or ')' after parameter"
        let params ← traceParams n
        return param :: params

def traceStmt (constants : Constants) (n : Nat) : Traced Stmt := do
  if (storageOf? (← peek)).isSome then return .var (← traceVarDef constants true n)
  else
    let start ← spanHere
    let e ← traceExpr constants n
    if e.isStatement then
      let _ ← expectMark .semicolon "';' after statement"
      return .expr e
    else failAt .statementExpected start

def traceBody (constants : Constants) : Nat → Traced (List Stmt)
  | 0 => exhausted
  | n + 1 => enter .body do
    match ← peek with
    | .mark .rightBrace => return []
    | .eof => failHere "'\x7d' to close function body"
    | _ =>
      let stmt ← traceStmt constants n
      let stmts ← traceBody constants n
      return stmt :: stmts

def traceFunc (constants : Constants) (n : Nat) : Traced FuncDef := do
  let _ ← expect (.keyword .func) "'func'"
  let (name, span) ← expectIdent "function name"
  let _ ← expectMark .leftParen "'(' after function name"
  let params ← traceParams n
  let _ ← expectMark .rightParen "')'"
  if ← eat (.mark .semicolon) then return ⟨name, params, none, span⟩
  else
    let _ ← expectMark .leftBrace "'\x7b' to start function body"
    let body ← traceBody constants n
    let _ ← expectMark .rightBrace "'\x7d' to close function body"
    return ⟨name, params, some body, span⟩

def traceDefinitions (constants : Constants) : Nat → Traced (List Definition)
  | 0 => exhausted
  | n + 1 => enter .definitions do
    match ← peek with
    | .eof => return []
    | .keyword .game | .keyword .save =>
      let d ← traceVarDef constants false n
      return .var d :: (← traceDefinitions constants n)
    | .keyword .func =>
      let d ← traceFunc constants n
      return .func d :: (← traceDefinitions constants n)
    | .keyword .const =>
      let constants ← traceConst constants n
      traceDefinitions constants n
    | _ => failHere "definition"

end DiamondScript.Parser
