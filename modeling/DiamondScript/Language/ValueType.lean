import DiamondScript.Language.BaseType

namespace DiamondScript

/-- What an entry of a literal is found by. -/
inductive EntryKey where
  | name (key : String)
  | position (i : Nat)
  deriving DecidableEq, Repr

/-- A type as declared, or the type of a dictionary or list literal, which records the type
of every entry. -/
inductive ValueType where
  | declared (base : BaseType) (params : List ValueType)
  | literal (base : BaseType) (params : List ValueType) (entries : List (EntryKey × ValueType))
  deriving Repr, Inhabited

/-- The outcome of holding a value's type against an expected one; for a literal, the first
entry that does not fit. -/
inductive Compatibility where
  | yes
  | no
  | entry (key : EntryKey) (type : ValueType)

def EntryKey.display : EntryKey → String
  | .name key => "\"" ++ key ++ "\""
  | .position i => s!"#{i + 1}"

def Compatibility.isYes : Compatibility → Bool
  | .yes => true
  | _ => false

namespace ValueType

def simple (base : BaseType) : ValueType := .declared base []

def any : ValueType := simple .any

def num : ValueType := simple .num

def listOf (element : ValueType) : ValueType := .declared .list [element]

def base : ValueType → BaseType
  | .declared b _ => b
  | .literal b _ _ => b

def params : ValueType → List ValueType
  | .declared _ ps => ps
  | .literal _ ps _ => ps

def entries? : ValueType → Option (List (EntryKey × ValueType))
  | .declared _ _ => none
  | .literal _ _ es => some es

/-- The same type with the recorded entries of another, or with none. -/
def withEntries (type : ValueType) : Option (List (EntryKey × ValueType)) → ValueType
  | none => .declared type.base type.params
  | some es => .literal type.base type.params es

/-- The first parameter of a container, or `any`. -/
def element (type : ValueType) : ValueType := type.params.head?.getD any

mutual

def display : ValueType → String
  | .declared b ps => b.keyword ++ displayParams ps
  | .literal b ps _ => b.keyword ++ displayParams ps

def displayParams : List ValueType → String
  | [] => ""
  | p :: ps => "<" ++ display p ++ displayRest ps ++ ">"

def displayRest : List ValueType → String
  | [] => ""
  | p :: ps => ", " ++ display p ++ displayRest ps

end

def isContainer (base : BaseType) : Bool := base == .dict || base == .list

/-- Holds an actual type against the base and the arity of an expected one. How the parameters
take a type is given: `head` is the first of them, `pairs` are all of them one by one. -/
def compareBase (base : BaseType) (arity : Nat) (head : ValueType → Compatibility)
    (pairs : List ValueType → Bool) (actual : ValueType) : Compatibility :=
  if base = .any then .yes
  else if base ≠ actual.base ∨ arity ≠ actual.params.length then .no
  else if isContainer base then
    match actual.entries? with
    | some entries =>
      match entries.find? fun e => !(head e.2).isYes with
      | some (key, type) => .entry key type
      | none => .yes
    | none => head actual.element
  else if pairs actual.params then .yes else .no

mutual

/-- Holds an actual type against an expected one. The type `any` takes everything, but is
taken only by itself. A container literal is judged entry by entry, another container by
its element type, and any other type by all its parameters. -/
def compare (expected actual : ValueType) : Compatibility :=
  match expected with
  | .declared b ps | .literal b ps _ =>
    compareBase b ps.length (fun a => compareHead ps a) (fun as => comparePairs ps as) actual

def compareHead (params : List ValueType) (actual : ValueType) : Compatibility :=
  match params with
  | [] => .yes
  | p :: _ => compare p actual

def comparePairs (params actual : List ValueType) : Bool :=
  match params, actual with
  | p :: ps, a :: as => (compare p a).isYes && comparePairs ps as
  | _, _ => true

end

def accepts (expected actual : ValueType) : Bool := (compare expected actual).isYes

end ValueType
end DiamondScript
