import DiamondScript.Language.Storage
import DiamondScript.Language.Target
import DiamondScript.Language.ValueType
import DiamondScript.Number.Binary64
import DiamondScript.Source.Span

namespace DiamondScript

inductive BinaryOp where
  | add
  | sub
  | mul
  | div
  | pow
  deriving DecidableEq, Repr

/-- The action that computes an operation. -/
def BinaryOp.action : BinaryOp → String
  | .add => "+"
  | .sub => "-"
  | .mul => "x"
  | .div => "/"
  | .pow => "Exponent"

/-- A native action, named within its category. -/
structure ActionRef where
  action : String
  category : String
  target : Option Target
  deriving DecidableEq, Repr

/-- An expression; every node carries its span. -/
inductive Expr where
  | number (span : Span) (x : Binary64)
  | str (span : Span) (s : String)
  | styledText (span : Span) (s : String)
  | vector (span : Span) (x y z : Binary64)
  | variable (span : Span) (name : String)
  | dict (span : Span) (entries : List (String × Expr))
  | list (span : Span) (items : List Expr)
  | binary (span : Span) (op : BinaryOp) (opSpan : Span) (left right : Expr)
  | index (span : Span) (object index : Expr)
  | setIndex (span : Span) (object index value : Expr)
  | assign (span : Span) (name : String) (value : Expr)
  | call (span : Span) (name : String) (args : List Expr)
  | action (span : Span) (ref : ActionRef) (args : List Expr)
  | cast (span : Span) (type : ValueType) (value : Expr)
  deriving Repr, Inhabited

namespace Expr

def span : Expr → Span
  | .number s _ | .str s _ | .styledText s _ | .vector s _ _ _ | .variable s _ | .dict s _
  | .list s _ | .binary s _ _ _ _ | .index s _ _ | .setIndex s _ _ _ | .assign s _ _
  | .call s _ _ | .action s _ _ | .cast s _ _ => s

/-- The same expression, seen at another place. -/
def moveTo (s : Span) : Expr → Expr
  | .number _ x => .number s x
  | .str _ t => .str s t
  | .styledText _ t => .styledText s t
  | .vector _ x y z => .vector s x y z
  | .variable _ n => .variable s n
  | .dict _ es => .dict s es
  | .list _ es => .list s es
  | .binary _ op o l r => .binary s op o l r
  | .index _ o i => .index s o i
  | .setIndex _ o i v => .setIndex s o i v
  | .assign _ n v => .assign s n v
  | .call _ n as => .call s n as
  | .action _ r as => .action s r as
  | .cast _ t v => .cast s t v

/-- Whether the expression may stand as a statement. -/
def isStatement : Expr → Bool
  | .assign .. | .setIndex .. | .call .. | .action .. => true
  | _ => false

end Expr

structure VarDef where
  storage : Storage
  name : String
  type : ValueType
  value : Option Expr
  span : Span
  deriving Repr

structure Param where
  name : String
  type : ValueType
  optional : Bool
  plural : Bool
  output : Bool
  description : Option String
  deriving Repr

inductive Stmt where
  | var (d : VarDef)
  | expr (e : Expr)
  deriving Repr

/-- A function, or only its signature when there is no body. -/
structure FuncDef where
  name : String
  params : List Param
  body : Option (List Stmt)
  span : Span
  deriving Repr

inductive Definition where
  | var (d : VarDef)
  | func (d : FuncDef)
  deriving Repr

end DiamondScript
