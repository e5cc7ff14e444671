namespace DiamondScript

inductive BaseType where
  | str
  | txt
  | num
  | list
  | dict
  | loc
  | par
  | pot
  | item
  | block
  | any
  | vec
  | gval
  deriving DecidableEq, Repr, Inhabited

namespace BaseType

def all : List BaseType :=
  [.str, .txt, .num, .list, .dict, .loc, .par, .pot, .item, .block, .any, .vec, .gval]

def keyword : BaseType → String
  | .str => "str"
  | .txt => "txt"
  | .num => "num"
  | .list => "list"
  | .dict => "dict"
  | .loc => "loc"
  | .par => "par"
  | .pot => "pot"
  | .item => "item"
  | .block => "block"
  | .any => "any"
  | .vec => "vec"
  | .gval => "gval"

/-- The code of a function parameter of this type; game values cannot be parameters. -/
def parameterCode : BaseType → Option String
  | .str => some "txt"
  | .txt => some "comp"
  | .num => some "num"
  | .list => some "list"
  | .dict => some "dict"
  | .loc => some "loc"
  | .par => some "part"
  | .pot => some "pot"
  | .item => some "item"
  | .block => some "block"
  | .any => some "any"
  | .vec => some "vec"
  | .gval => none

/-- The code by which an action catalog names this type. -/
def argumentCode : BaseType → String
  | .str => "TEXT"
  | .txt => "COMPONENT"
  | .num => "NUMBER"
  | .list => "LIST"
  | .dict => "DICT"
  | .loc => "LOCATION"
  | .par => "PARTICLE"
  | .pot => "POTION"
  | .item => "ITEM"
  | .block => "BLOCK"
  | .any => "ANY_TYPE"
  | .vec => "VECTOR"
  | .gval => "GAME_VALUE"

def ofKeyword? (word : String) : Option BaseType := all.find? fun t => t.keyword == word

def ofArgumentCode? (code : String) : Option BaseType := all.find? fun t => t.argumentCode == code

end BaseType

/-- Whether an argument described by a catalog code takes a value with another code. -/
def codeAccepts (expected actual : String) : Bool :=
  expected == "any" || expected == "ANY_TYPE" || expected == actual

end DiamondScript
