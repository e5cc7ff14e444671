import DiamondScript.Proofs.Temporary
import Mathlib.Data.List.Forall2
import Mathlib.Logic.Function.Basic

namespace DiamondScript.Machine

open Codegen

inductive Operation where
  | copy
  | arithmetic (op : BinaryOp)
  | createDict
  | createList
  | get (container : Container)
  | set (container : Container)
  deriving DecidableEq, Repr

namespace Operation

def action : Operation → String
  | .copy => "="
  | .arithmetic op => op.action
  | .createDict => "CreateDict"
  | .createList => "CreateList"
  | .get container => getAction container
  | .set container => setAction container

def all : List Operation :=
  [.copy, .arithmetic .add, .arithmetic .sub, .arithmetic .mul, .arithmetic .div, .arithmetic .pow,
    .createDict, .createList, .get .dictionary, .get .list, .set .dictionary, .set .list]

def ofAction? (action : String) : Option Operation := all.find? fun op => op.action == action

@[simp] theorem ofAction?_action (op : Operation) : ofAction? op.action = some op := by
  cases op with
  | copy | createDict | createList => rfl
  | arithmetic op => cases op <;> rfl
  | get container | set container => cases container <;> rfl

end Operation

abbrev Store (V : Type) := Var → V

/-- Values with the operations that blocks and expressions need; nothing is asked of them. -/
structure Domain (V : Type) where
  number : Binary64 → V
  string : String → V
  styledText : String → V
  vector : Binary64 → Binary64 → Binary64 → V
  binary : BinaryOp → V → V → V
  emptyDict : V
  mkList : List V → V
  get : Container → V → V → V
  set : Container → V → V → V → V

/-- Values that only record how they were made, starting from what the variables held. -/
inductive Term where
  | initial (x : Var)
  | number (x : Binary64)
  | string (t : String)
  | styledText (t : String)
  | vector (x y z : Binary64)
  | binary (op : BinaryOp) (left right : Term)
  | emptyDict
  | mkList (items : List Term)
  | get (container : Container) (object key : Term)
  | set (container : Container) (object key value : Term)

def symbolic : Domain Term where
  number := .number
  string := .string
  styledText := .styledText
  vector := .vector
  binary := .binary
  emptyDict := .emptyDict
  mkList := .mkList
  get := .get
  set := .set

def leastSchema : Schema where
  categories :=
    [("SET VARIABLE", ⟨"SET VARIABLE", some "set_var",
      Operation.all.map fun op => (op.action, ⟨op.action, [], []⟩)⟩),
    ("FUNCTION", ⟨"FUNCTION", some "func",
      [(Schema.dynamicAction, ⟨Schema.dynamicAction, [], []⟩)]⟩)]
  identifiers := [("set_var", "SET VARIABLE"), ("func", "FUNCTION")]

/-- A block that sets a variable: the variable is in the first slot, the inputs in the others. -/
structure Instruction where
  operation : Operation
  target : Var
  inputs : List Item

def instruction? (b : Codeblock) : Option Instruction :=
  if b.kind = "set_var" then
    match b.action.bind Operation.ofAction?, b.args with
    | some operation, first :: inputs =>
      first.asVariable?.map fun target => ⟨operation, target, inputs⟩
    | _, _ => none
  else none

variable {V : Type} (D : Domain V)

namespace Domain

def read (s : Store V) (item : Item) : Option V :=
  match item.kind with
  | .number x => some (D.number x)
  | .string t => some (D.string t)
  | .styledText t => some (D.styledText t)
  | .vector x y z => some (D.vector x y z)
  | .variable name scope => some (s (name, scope))
  | .tag .. | .parameter .. => none

/-- The new value of a variable that holds `old`. Only an element that is set changes the old
value, everything else replaces it. -/
def apply (old : V) : Operation → List V → Option V
  | .copy, [v] => some v
  | .arithmetic op, [a, b] => some (D.binary op a b)
  | .createDict, [] => some D.emptyDict
  | .createList, vs => some (D.mkList vs)
  | .get container, [object, key] => some (D.get container object key)
  | .set container, [key, v] => some (D.set container old key v)
  | _, _ => none

end Domain

def Instruction.result (s : Store V) (i : Instruction) : Option V :=
  (i.inputs.mapM (D.read s)).bind (D.apply (s i.target) i.operation)

/-- Runs a block. All inputs are read before the target is written. -/
def step (s : Store V) (b : Codeblock) : Store V :=
  match instruction? b with
  | none => s
  | some i => (i.result D s).elim s (Function.update s i.target)

def exec (blocks : List Codeblock) (s : Store V) : Store V := blocks.foldl (step D) s

def targets (blocks : List Codeblock) : List Var :=
  blocks.filterMap fun b => (instruction? b).map Instruction.target

@[simp] theorem exec_nil (s : Store V) : exec D [] s = s := rfl

@[simp] theorem exec_cons (b : Codeblock) (bs : List Codeblock) (s : Store V) :
    exec D (b :: bs) s = exec D bs (step D s b) := rfl

@[simp] theorem exec_append (bs cs : List Codeblock) (s : Store V) :
    exec D (bs ++ cs) s = exec D cs (exec D bs s) := List.foldl_append

theorem step_of_not_target {s : Store V} {b : Codeblock} {x : Var} (h : x ∉ targets [b]) :
    step D s b x = s x := by
  unfold step
  cases hi : instruction? b with
  | none => rfl
  | some i =>
      have hx : x ≠ i.target := by simpa [targets, hi] using h
      cases hv : i.result D s with
      | none => simp only [hv, Option.elim_none]
      | some v => simp only [hv, Option.elim_some, Function.update_of_ne hx]

theorem exec_of_not_target {bs : List Codeblock} {x : Var} (h : x ∉ targets bs) (s : Store V) :
    exec D bs s x = s x := by
  induction bs generalizing s with
  | nil => rfl
  | cons b bs ih =>
      rw [targets, ← List.singleton_append, List.filterMap_append, List.mem_append, not_or] at h
      rw [exec_cons, ih h.2, step_of_not_target D h.1]

@[simp] theorem read_atSlot (s : Store V) (item : Item) (slot : Nat) :
    D.read s (item.atSlot slot) = D.read s item := rfl

theorem mapM_read_numberSlots (s : Store V) (items : List Item) (slot : Nat) :
    (numberSlots slot items).mapM (D.read s) = items.mapM (D.read s) := by
  induction items generalizing slot with
  | nil => rfl
  | cons item rest ih => simp only [numberSlots, List.mapM_cons, read_atSlot, ih]

theorem instruction?_setVar (op : Operation) {schema : Schema} {x : Var} {inputs : List Item}
    {span : Span} {b : Codeblock}
    (h : setVar schema op.action (.ofVariable x.1 x.2 :: inputs) span = .ok b) :
    instruction? b = some ⟨op, x, numberSlots 1 inputs⟩ := by
  obtain ⟨spec, -, rfl⟩ := newBlock_eq_ok.mp h
  have hdynamic : Schema.isDynamic "set_var" = false := by decide
  simp [instruction?, hdynamic, numberSlots, Item.atSlot, Item.asVariable?, Item.ofVariable,
    Item.ofKind]

def Reads (s : Store V) : List Item → List V → Prop :=
  List.Forall₂ fun item v => D.read s item = some v

theorem step_setVar (op : Operation) {schema : Schema} {x : Var} {inputs : List Item} {span : Span}
    {b : Codeblock} (h : setVar schema op.action (.ofVariable x.1 x.2 :: inputs) span = .ok b)
    {s : Store V} {vs : List V} {v : V} (hread : Reads D s inputs vs)
    (happly : D.apply (s x) op vs = some v) : step D s b = Function.update s x v := by
  simp only [step, instruction?_setVar op h, Instruction.result, mapM_read_numberSlots,
    mapM_eq_some_iff.mpr hread, Option.bind_some, happly, Option.elim_some]

theorem targets_setVar (op : Operation) {schema : Schema} {x : Var} {inputs : List Item}
    {span : Span} {b : Codeblock}
    (h : setVar schema op.action (.ofVariable x.1 x.2 :: inputs) span = .ok b) :
    targets [b] = [x] := by
  simp [targets, instruction?_setVar op h]

end DiamondScript.Machine
