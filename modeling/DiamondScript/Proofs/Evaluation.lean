import DiamondScript.Proofs.Machine

namespace DiamondScript

namespace Expr

mutual

def names : Expr → List String
  | .variable _ name => [name]
  | .dict _ entries => entryNames entries
  | .list _ items => itemNames items
  | .binary _ _ _ left right => left.names ++ right.names
  | .index _ object key => object.names ++ key.names
  | .setIndex _ object key value => object.names ++ (key.names ++ value.names)
  | .assign _ name value => name :: value.names
  | .call _ _ args | .action _ _ args => itemNames args
  | .cast _ _ value => value.names
  | .number .. | .str .. | .styledText .. | .vector .. => []

def itemNames : List Expr → List String
  | [] => []
  | e :: rest => e.names ++ itemNames rest

def entryNames : List (String × Expr) → List String
  | [] => []
  | (_, e) :: rest => e.names ++ entryNames rest

end

end Expr

namespace Machine

open Codegen

def resolve? (scope : Scope) (name : String) : Option Var :=
  (scope.binding? name).map fun b => (name, b.storage.wireName)

def variablesOf (scope : Scope) (e : Expr) : List Var := e.names.filterMap (resolve? scope)

def typeOf (scope : Scope) : Expr → Option ValueType
  | .number .. | .binary .. => some .num
  | .str .. => some (.simple .str)
  | .styledText .. => some (.simple .txt)
  | .vector .. => some (.simple .vec)
  | .variable _ name => (scope.binding? name).map Binding.type
  | .dict .. => some (.declared .dict [.any])
  | .list .. => some (.declared .list [.any])
  | .index _ object _ => (typeOf scope object).map ValueType.element
  | .cast _ type _ => some type
  | .assign .. | .setIndex .. | .call .. | .action .. => none

variable {V : Type} (D : Domain V)

def Domain.enter (dict : V) (entries : List (String × V)) : V :=
  entries.foldl (fun d e => D.set .dictionary d (D.string e.1) e.2) dict

def Domain.dictOf (entries : List (String × V)) : V := D.enter D.emptyDict entries

variable (scope : Scope) (s : Store V)

mutual

/-- The value of an expression. Whether an index goes into a dictionary or a list is a matter of
the object's type. -/
def eval : Expr → Option V
  | .number _ x => some (D.number x)
  | .str _ t => some (D.string t)
  | .styledText _ t => some (D.styledText t)
  | .vector _ x y z => some (D.vector x y z)
  | .variable _ name => (resolve? scope name).map s
  | .dict _ entries => do
    let vs ← evalEntries entries
    some (D.dictOf ((entries.map Prod.fst).zip vs))
  | .list _ items => do
    let vs ← evalItems items
    some (D.mkList vs)
  | .binary _ op _ left right => do
    let l ← eval left
    let r ← eval right
    some (D.binary op l r)
  | .index _ object index => do
    let container ← (typeOf scope object).bind containerOf?
    let o ← eval object
    let i ← eval index
    some (D.get container o i)
  | .cast _ _ value => eval value
  | .assign .. | .setIndex .. | .call .. | .action .. => none

def evalItems : List Expr → Option (List V)
  | [] => some []
  | e :: rest => do
    let v ← eval e
    let vs ← evalItems rest
    some (v :: vs)

def evalEntries : List (String × Expr) → Option (List V)
  | [] => some []
  | (_, e) :: rest => do
    let v ← eval e
    let vs ← evalEntries rest
    some (v :: vs)

end

variable {scope s}

theorem evalItems_eq (items : List Expr) :
    evalItems D scope s items = items.mapM (eval D scope s) := by
  induction items with
  | nil => rfl
  | cons e rest ih => simp only [evalItems, ih, List.mapM_cons, pure]

theorem evalEntries_eq (entries : List (String × Expr)) :
    evalEntries D scope s entries = entries.mapM fun entry => eval D scope s entry.2 := by
  induction entries with
  | nil => rfl
  | cons entry rest ih => simp only [evalEntries, ih, List.mapM_cons, pure]

mutual

theorem eval_congr {s' : Store V} :
    ∀ e : Expr, (∀ x ∈ variablesOf scope e, s x = s' x) → eval D scope s e = eval D scope s' e
  | .number .., _ | .str .., _ | .styledText .., _ | .vector .., _ | .assign .., _
  | .setIndex .., _ | .call .., _ | .action .., _ => rfl
  | .variable _ name, h => by
      cases hx : resolve? scope name with
      | none => simp only [eval, hx, Option.map_none]
      | some x => simp [eval, hx, h x (by simp [variablesOf, Expr.names, hx])]
  | .dict _ entries, h => by
      simp only [eval, evalEntries_congr entries h]
  | .list _ items, h => by
      simp only [eval, evalItems_congr items h]
  | .binary _ _ _ left right, h => by
      simp only [variablesOf, Expr.names, List.filterMap_append, List.forall_mem_append] at h
      simp only [eval, eval_congr left h.1, eval_congr right h.2]
  | .index _ object index, h => by
      simp only [variablesOf, Expr.names, List.filterMap_append, List.forall_mem_append] at h
      simp only [eval, eval_congr object h.1, eval_congr index h.2]
  | .cast _ _ value, h => by
      simp only [eval, eval_congr value h]

theorem evalItems_congr {s' : Store V} :
    ∀ items : List Expr,
      (∀ x ∈ (Expr.itemNames items).filterMap (resolve? scope), s x = s' x) →
      evalItems D scope s items = evalItems D scope s' items
  | [], _ => rfl
  | e :: rest, h => by
      simp only [Expr.itemNames, List.filterMap_append, List.forall_mem_append] at h
      simp only [evalItems, eval_congr e h.1, evalItems_congr rest h.2]

theorem evalEntries_congr {s' : Store V} :
    ∀ entries : List (String × Expr),
      (∀ x ∈ (Expr.entryNames entries).filterMap (resolve? scope), s x = s' x) →
      evalEntries D scope s entries = evalEntries D scope s' entries
  | [], _ => rfl
  | (_, e) :: rest, h => by
      simp only [Expr.entryNames, List.filterMap_append, List.forall_mem_append] at h
      simp only [evalEntries, eval_congr e h.1, evalEntries_congr rest h.2]

end

end Machine
end DiamondScript
