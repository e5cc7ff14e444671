import DiamondScript.Language.Expr
import DiamondScript.Language.Token

namespace DiamondScript

/-- Why a sequence of tokens is no program. The last fault tells that the bound on nesting
was used up. -/
inductive ParseFault where
  | expected (what : String) (got : Token)
  | statementExpected
  | invalidAssignmentTarget
  | exhausted
  deriving DecidableEq, Repr

structure ParseError where
  fault : ParseFault
  span : Span
  deriving DecidableEq, Repr

def ParseFault.message : ParseFault → String
  | .expected what got => s!"Expected {what}, got {got.describe}"
  | .statementExpected => "Expected statement, got expression"
  | .invalidAssignmentTarget => "Invalid assignment target"
  | .exhausted => "Nesting is too deep"

/-- What a constant stands for: an expression, or an action still without arguments. -/
inductive Constant where
  | expr (e : Expr)
  | action (ref : ActionRef)

abbrev Constants := List (String × Constant)

/-- What an operand was read as, before arguments and indices are attached. -/
inductive Operand where
  | expr (e : Expr)
  | action (ref : ActionRef) (span : Span)

/-- The tokens still to be read, and where the one before them ended. -/
structure Cursor where
  lastEnd : Nat
  rest : List Lexeme

abbrev Parse := StateT Cursor (Except ParseError)

namespace Cursor

def token (c : Cursor) : Token :=
  match c.rest with
  | l :: _ => l.token
  | [] => .eof

def following (c : Cursor) : Token :=
  match c.rest with
  | _ :: l :: _ => l.token
  | _ => .eof

def span (c : Cursor) : Span :=
  match c.rest with
  | l :: _ => l.span
  | [] => ⟨0, 0⟩

/-- Steps over a token; the last one is never left. -/
def advance (c : Cursor) : Cursor :=
  match c.rest with
  | l :: next :: rest => ⟨l.span.stop, next :: rest⟩
  | _ => c

end Cursor

namespace Parser

def peek : Parse Token := do return (← get).token

def spanHere : Parse Span := do return (← get).span

def lastEnd : Parse Nat := do return (← get).lastEnd

def advance : Parse Unit := modify Cursor.advance

def failAt {α : Type} (fault : ParseFault) (span : Span) : Parse α := throw ⟨fault, span⟩

def failHere {α : Type} (what : String) : Parse α := do
  let c ← get
  failAt (.expected what c.token) c.span

def exhausted {α : Type} : Parse α := do failAt .exhausted (← spanHere)

def eat (token : Token) : Parse Bool := do
  if (← peek) = token then
    advance
    return true
  else return false

def expect (token : Token) (what : String) : Parse Span := do
  let c ← get
  if c.token = token then
    advance
    return c.span
  else failHere what

def expectMark (m : Mark) (what : String) : Parse Span := expect (.mark m) what

def expectIdent (what : String) : Parse (String × Span) := do
  let c ← get
  match c.token with
  | .ident name =>
    advance
    return (name, c.span)
  | _ => failHere what

def expectString (what : String) : Parse String := do
  match ← peek with
  | .string s =>
    advance
    return s
  | _ => failHere what

def expectVarName : Parse String := do
  match ← peek with
  | .ident name | .varName name =>
    advance
    return name
  | _ => failHere "variable name"

def takeTarget : Parse (Option Target) := do
  match ← peek with
  | .target t =>
    advance
    return some t
  | _ => return none

def takeString : Parse (Option String) := do
  match ← peek with
  | .string s =>
    advance
    return some s
  | _ => return none

def expectSignedNumber (what : String) : Parse Binary64 := do
  let negative ← eat (.mark .minus)
  match ← peek with
  | .number x =>
    advance
    return if negative then x.neg else x
  | _ => failHere what

mutual

def parseType : Nat → Parse ValueType
  | 0 => exhausted
  | n + 1 => do
    match ← peek with
    | .type base =>
      advance
      if ← eat (.mark .less) then
        let params ← parseTypeParams n
        let _ ← expectMark .greater "'>' to close type parameters"
        return .declared base params
      else return .declared base []
    | _ => failHere "type"

def parseTypeParams : Nat → Parse (List ValueType)
  | 0 => exhausted
  | n + 1 => do
    let type ← parseType n
    if ← eat (.mark .comma) then
      let types ← parseTypeParams n
      return type :: types
    else return [type]

end

def parseActionRef : Parse ActionRef := do
  let target ← takeTarget
  let _ ← expect (.keyword .codeblock) "'codeblock'"
  let action ← expectString "codeblock action (as string)"
  let _ ← expectMark .less "'<'"
  let category ← expectString "codeblock category (as string)"
  let _ ← expectMark .greater "'>'"
  return ⟨action, category, target⟩

/-- What the use of a constant stands for. An expression is seen at the place of its use; a
target written there goes before the one of the constant. -/
def substitute (constants : Constants) (name : String) (target : Option Target) (span : Span) :
    Option Operand :=
  match constants.lookup name with
  | some (.expr e) => some (.expr (e.moveTo span))
  | some (.action ref) => some (.action { ref with target := target <|> ref.target } span)
  | none => none

/-- Operator, binding strength and whether it groups to the left. -/
def binaryOp? : Token → Option (BinaryOp × Nat × Bool)
  | .mark .plus => some (.add, 10, true)
  | .mark .minus => some (.sub, 10, true)
  | .mark .star => some (.mul, 20, true)
  | .mark .slash => some (.div, 20, true)
  | .mark .caret => some (.pow, 30, false)
  | _ => none

def parseVector (start : Span) : Parse Operand := do
  advance
  let x ← expectSignedNumber "x component of vector"
  let _ ← expectMark .comma "','"
  let y ← expectSignedNumber "y component of vector"
  let _ ← expectMark .comma "','"
  let z ← expectSignedNumber "z component of vector"
  let _ ← expectMark .greater "'>' after vector components"
  return .expr (.vector ⟨start.start, ← lastEnd⟩ x y z)

/-- An operand that starts with a target: an action, written out or by its constant. -/
def parseTargeted (constants : Constants) (start : Span) (target : Target) : Parse Operand := do
  let c ← get
  match c.following with
  | .keyword .codeblock =>
    let ref ← parseActionRef
    return .action ref ⟨start.start, ← lastEnd⟩
  | .ident name | .varName name =>
    match constants.lookup name with
    | some (.action ref) =>
      advance
      advance
      return .action { ref with target := some target } ⟨start.start, ← lastEnd⟩
    | _ =>
      advance
      failHere "codeblock after target"
  | _ =>
    advance
    failHere "codeblock after target"

/-- The expression that an equals sign makes of its two sides. -/
def assignTo (left value : Expr) (equals : Span) : Parse Expr :=
  let span := left.span.merge value.span
  match left with
  | .variable _ name => return .assign span name value
  | .index _ object index => return .setIndex span object index value
  | _ => failAt .invalidAssignmentTarget equals

mutual

/-- An expression, which may be an assignment. The count bounds the nesting of the calls of
these functions. -/
def parseExpr (constants : Constants) : Nat → Parse Expr
  | 0 => exhausted
  | n + 1 => do
    let left ← parseBinary constants 0 n
    let c ← get
    if c.token = .mark .equals then
      advance
      let value ← parseExpr constants n
      assignTo left value c.span
    else return left

/-- Operands joined by operators that bind at least as strongly as `least`. -/
def parseBinary (constants : Constants) (least : Nat) : Nat → Parse Expr
  | 0 => exhausted
  | n + 1 => do
    let left ← parsePostfix constants n
    parseOperators constants least left n

def parseOperators (constants : Constants) (least : Nat) (left : Expr) : Nat → Parse Expr
  | 0 => exhausted
  | n + 1 => do
    let c ← get
    match binaryOp? c.token with
    | none => return left
    | some (op, strength, leftward) =>
      if strength < least then return left
      else
        advance
        let right ← parseBinary constants (if leftward then strength + 1 else strength) n
        parseOperators constants least
          (.binary (left.span.merge right.span) op c.span left right) n

/-- An operand with its arguments and the indices behind it. -/
def parsePostfix (constants : Constants) : Nat → Parse Expr
  | 0 => exhausted
  | n + 1 => do
    let operand ← parsePrimary constants n
    let called := (← peek) = .mark .leftParen
    match operand with
    | .action ref span =>
      let args ← if called then parseArgs constants n else pure []
      parseIndices constants (.action ⟨span.start, ← lastEnd⟩ ref args) n
    | .expr (.variable span name) =>
      if called then
        let args ← parseArgs constants n
        parseIndices constants (.call ⟨span.start, ← lastEnd⟩ name args) n
      else parseIndices constants (.variable span name) n
    | .expr e => parseIndices constants e n

def parseIndices (constants : Constants) (object : Expr) : Nat → Parse Expr
  | 0 => exhausted
  | n + 1 => do
    if ← eat (.mark .leftBracket) then
      let index ← parseExpr constants n
      let _ ← expectMark .rightBracket "']' after index"
      parseIndices constants (.index ⟨object.span.start, ← lastEnd⟩ object index) n
    else if ← eat (.mark .dot) then
      let (key, span) ← expectIdent "key name after '.'"
      parseIndices constants (.index ⟨object.span.start, span.stop⟩ object (.str span key)) n
    else return object

/-- Arguments in parentheses; a comma may follow the last one. -/
def parseArgs (constants : Constants) : Nat → Parse (List Expr)
  | 0 => exhausted
  | n + 1 => do
    let _ ← expectMark .leftParen "'('"
    let args ← parseArgsRest constants n
    let _ ← expectMark .rightParen "')' after arguments"
    return args

def parseArgsRest (constants : Constants) : Nat → Parse (List Expr)
  | 0 => exhausted
  | n + 1 => do
    if (← peek) = .mark .rightParen then return []
    else
      let arg ← parseExpr constants n
      if (← peek) = .mark .rightParen then return [arg]
      else
        let _ ← expectMark .comma "',' after argument"
        let args ← parseArgsRest constants n
        return arg :: args

def parsePrimary (constants : Constants) : Nat → Parse Operand
  | 0 => exhausted
  | n + 1 => do
    let c ← get
    let start := c.span
    match c.token with
    | .target t => parseTargeted constants start t
    | .keyword .codeblock =>
      let ref ← parseActionRef
      return .action ref ⟨start.start, ← lastEnd⟩
    | .ident name | .varName name =>
      advance
      return (substitute constants name none start).getD (.expr (.variable start name))
    | .number _ | .mark .minus =>
      let x ← expectSignedNumber "expression"
      return .expr (.number ⟨start.start, ← lastEnd⟩ x)
    | .string s =>
      advance
      return .expr (.str start s)
    | .styledText s =>
      advance
      return .expr (.styledText start s)
    | .mark .less => parseVector start
    | .mark .leftParen =>
      advance
      match ← peek with
      | .type _ =>
        let type ← parseType n
        let _ ← expectMark .rightParen "')' after cast type"
        let value ← parseBinary constants 0 n
        return .expr (.cast ⟨start.start, value.span.stop⟩ type value)
      | _ =>
        let inner ← parseExpr constants n
        let _ ← expectMark .rightParen "')' after expression"
        return .expr inner
    | .mark .leftBrace =>
      advance
      let entries ← if (← peek) = .mark .rightBrace then pure [] else parseEntries constants n
      let _ ← expectMark .rightBrace "'\x7d' after dictionary"
      return .expr (.dict ⟨start.start, ← lastEnd⟩ entries)
    | .mark .leftBracket =>
      advance
      let items ← if (← peek) = .mark .rightBracket then pure [] else parseItems constants n
      let _ ← expectMark .rightBracket "']' after list"
      return .expr (.list ⟨start.start, ← lastEnd⟩ items)
    | _ => failHere "expression"

/-- One or more dictionary entries, without a comma behind the last. -/
def parseEntries (constants : Constants) : Nat → Parse (List (String × Expr))
  | 0 => exhausted
  | n + 1 => do
    let key ← expectString "dictionary key (string)"
    let _ ← expectMark .colon "':' after dictionary key"
    let value ← parseExpr constants n
    if (← peek) = .mark .rightBrace then return [(key, value)]
    else
      let _ ← expectMark .comma "',' after dictionary entry"
      let entries ← parseEntries constants n
      return (key, value) :: entries

/-- One or more list items, without a comma behind the last. -/
def parseItems (constants : Constants) : Nat → Parse (List Expr)
  | 0 => exhausted
  | n + 1 => do
    let item ← parseExpr constants n
    if (← peek) = .mark .rightBracket then return [item]
    else
      let _ ← expectMark .comma "',' after list value"
      let items ← parseItems constants n
      return item :: items

end

def storageOf? : Token → Option Storage
  | .keyword .game => some .game
  | .keyword .save => some .save
  | .keyword .var => some .var
  | .keyword .local => some .local
  | _ => none

/-- The initial value of a variable, where one is allowed and given. -/
def parseInitial (constants : Constants) (allowed : Bool) (n : Nat) : Parse (Option Expr) := do
  if allowed then
    if ← eat (.mark .equals) then return some (← parseExpr constants n)
    else return none
  else return none

/-- A variable definition; only inside functions may it have an initial value. -/
def parseVarDef (constants : Constants) (withValue : Bool) (n : Nat) : Parse VarDef := do
  let start ← spanHere
  match storageOf? (← peek) with
  | none => failHere "variable definition"
  | some storage =>
    advance
    let name ← expectVarName
    let _ ← expectMark .colon "':' before variable type"
    let type ← parseType n
    let value ← parseInitial constants withValue n
    let _ ← expectMark .semicolon "';' after variable definition"
    return ⟨storage, name, type, value, ⟨start.start, ← lastEnd⟩⟩

def parseConstantValue (constants : Constants) (n : Nat) : Parse Constant := do
  let start ← spanHere
  match ← peek with
  | .target _ | .keyword .codeblock =>
    let ref ← parseActionRef
    if (← peek) = .mark .leftParen then
      let args ← parseArgs constants n
      return .expr (.action ⟨start.start, ← lastEnd⟩ ref args)
    else return .action ref
  | _ => return .expr (← parseExpr constants n)

def parseConst (constants : Constants) (n : Nat) : Parse Constants := do
  let _ ← expect (.keyword .const) "'const'"
  let (name, _) ← expectIdent "constant name"
  let _ ← expectMark .equals "'='"
  let constant ← parseConstantValue constants n
  let _ ← expectMark .semicolon "';' after constant"
  return (name, constant) :: constants

def parseParam (n : Nat) : Parse Param := do
  let output ← eat (.keyword .out)
  let (name, _) ← expectIdent "parameter name"
  let _ ← expectMark .colon "':' before parameter type"
  let type ← parseType n
  let plural ← eat (.mark .ellipsis)
  let optional ← eat (.mark .question)
  let description ← takeString
  return { name, type, optional, plural, output, description }

/-- Parameters up to the closing parenthesis; a comma may follow the last one. -/
def parseParams : Nat → Parse (List Param)
  | 0 => exhausted
  | n + 1 => do
    if (← peek) = .mark .rightParen then return []
    else
      let param ← parseParam n
      if (← peek) = .mark .rightParen then return [param]
      else
        let _ ← expectMark .comma "',' or ')' after parameter"
        let params ← parseParams n
        return param :: params

def parseStmt (constants : Constants) (n : Nat) : Parse Stmt := do
  if (storageOf? (← peek)).isSome then return .var (← parseVarDef constants true n)
  else
    let start ← spanHere
    let e ← parseExpr constants n
    if e.isStatement then
      let _ ← expectMark .semicolon "';' after statement"
      return .expr e
    else failAt .statementExpected start

def parseBody (constants : Constants) : Nat → Parse (List Stmt)
  | 0 => exhausted
  | n + 1 => do
    match ← peek with
    | .mark .rightBrace => return []
    | .eof => failHere "'\x7d' to close function body"
    | _ =>
      let stmt ← parseStmt constants n
      let stmts ← parseBody constants n
      return stmt :: stmts

def parseFunc (constants : Constants) (n : Nat) : Parse FuncDef := do
  let _ ← expect (.keyword .func) "'func'"
  let (name, span) ← expectIdent "function name"
  let _ ← expectMark .leftParen "'(' after function name"
  let params ← parseParams n
  let _ ← expectMark .rightParen "')'"
  if ← eat (.mark .semicolon) then return ⟨name, params, none, span⟩
  else
    let _ ← expectMark .leftBrace "'\x7b' to start function body"
    let body ← parseBody constants n
    let _ ← expectMark .rightBrace "'\x7d' to close function body"
    return ⟨name, params, some body, span⟩

/-- Definitions up to the end of file. A constant holds for what follows it. -/
def parseDefinitions (constants : Constants) : Nat → Parse (List Definition)
  | 0 => exhausted
  | n + 1 => do
    match ← peek with
    | .eof => return []
    | .keyword .game | .keyword .save =>
      let d ← parseVarDef constants false n
      return .var d :: (← parseDefinitions constants n)
    | .keyword .func =>
      let d ← parseFunc constants n
      return .func d :: (← parseDefinitions constants n)
    | .keyword .const =>
      let constants ← parseConst constants n
      parseDefinitions constants n
    | _ => failHere "definition"

/-- A bound on nesting that a sequence of tokens closed by the end of file cannot use up. -/
def bound (tokens : List Lexeme) : Nat := 8 * tokens.length + 8

end Parser

def parse (tokens : List Lexeme) : Except ParseError (List Definition) := do
  let (definitions, _) ← (Parser.parseDefinitions [] (Parser.bound tokens)).run ⟨0, tokens⟩
  return definitions

end DiamondScript
