import DiamondScript.Codegen.Value

namespace DiamondScript.Codegen

/-- What a parameter takes: a type of the language, or what a catalog code describes. -/
inductive Expected where
  | declared (type : ValueType)
  | native (code : String)

structure Expectation where
  expected : Expected
  plural : Bool
  optional : Bool

def isVariable : Expr → Bool
  | .variable .. => true
  | _ => false

namespace Expectation

def ofParam (p : Param) : Expectation := ⟨.declared p.type, p.plural, p.optional⟩

def ofArgument (a : ArgumentSpec) : Expectation := ⟨.native a.type, a.plural, a.optional⟩

def accepts (p : Expectation) (arg : Expr) (type : ValueType) : Bool :=
  match p.expected with
  | .declared t => t.accepts type
  | .native code =>
    (code == "VARIABLE" && isVariable arg) || codeAccepts code type.base.argumentCode

def describe (p : Expectation) : String :=
  match p.expected with
  | .declared t => t.display
  | .native code =>
    match BaseType.ofArgumentCode? code with
    | some t => t.keyword
    | none => code

end Expectation

/-- The parameter that the next argument is tried at. A plural or last parameter keeps taking
arguments, any other is left behind. -/
def tryAt (params : List Expectation) : Option Nat → Nat
  | none => 0
  | some c =>
    if c = params.length - 1 ∨ (params[c]?.any Expectation.plural) then c else c + 1

/-- The parameter that takes an argument: the one tried, or the next one if the tried one is
optional or plural and not the last. -/
def settle (callee : Callee) (span : Span) (params : List Expectation) (i pos : Nat) (arg : Expr)
    (type : ValueType) : Result Nat :=
  match params[pos]? with
  | none => fail (.calleeTakesNone callee) span
  | some p =>
    if p.accepts arg type then .ok pos
    else if (p.plural || p.optional) && pos != params.length - 1 then
      match params[pos + 1]? with
      | none => fail (.argumentType callee i p.describe type) span
      | some q =>
        if q.accepts arg type then .ok (pos + 1)
        else fail (.argumentType callee i q.describe type) span
    else fail (.argumentType callee i p.describe type) span

/-- The items of the arguments from the `i`-th on, and the last parameter that took one. -/
def matchArgs (ctx : Context) (callee : Callee) (span : Span) (params : List Expectation) :
    Nat → Option Nat → Nat → List Expr → Result (Emitted (List Item × Option Nat))
  | _, cursor, n, [] => .ok ⟨([], cursor), [], n⟩
  | i, cursor, n, arg :: rest => do
    let v ← genValue ctx (.temp "__carg") n arg
    let pos ← settle callee span params i (tryAt params cursor) arg v.result.type
    let vs ← matchArgs ctx callee span params (i + 1) (some pos) v.next rest
    .ok ⟨(v.result.item.atSlot i :: vs.result.1, vs.result.2), v.blocks ++ vs.blocks, vs.next⟩

def firstRequired (params : List Expectation) (start : Nat) : Option (Expectation × Nat) :=
  (params.zipIdx.drop start).find? fun e => !e.1.optional

/-- Matches arguments to parameters with a cursor that only moves forward. Parameters it did
not reach must be optional. -/
def resolveArgs (ctx : Context) (callee : Callee) (span : Span) (params : List Expectation)
    (n : Nat) (args : List Expr) : Result (Emitted (List Item)) := do
  let matched ← matchArgs ctx callee span params 0 none n args
  let (items, cursor) := matched.result
  match firstRequired params (match cursor with | some c => c + 1 | none => 0) with
  | some (p, j) => fail (.argumentMissing callee j p.describe) span
  | none => .ok ⟨items, matched.blocks, matched.next⟩

end DiamondScript.Codegen
