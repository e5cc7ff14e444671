import DiamondScript.Json.Printer

namespace DiamondScript

inductive ItemKind where
  | tag (block action tag option : String)
  | string (s : String)
  | number (x : Binary64)
  | styledText (s : String)
  | variable (name scope : String)
  | vector (x y z : Binary64)
  | parameter (name type : String) (optional plural : Bool) (description : String)
  deriving DecidableEq, Repr

structure Item where
  slot : Nat
  kind : ItemKind
  deriving DecidableEq, Repr

/-- A number item is written positionally from `0.0001` up to sixteen digits, otherwise with
a signed exponent of at least two digits. -/
def numberLayout : Layout where
  positional e := -4 ≤ e && e < 16
  pointZero := true
  exponentWidth := 2
  tie := .up
  notANumber := "NaN"
  infinite := "inf"

def numberText (x : Binary64) : String := numberLayout.text x

namespace ItemKind

def code : ItemKind → String
  | .tag .. => "bl_tag"
  | .string _ => "txt"
  | .number _ => "num"
  | .styledText _ => "comp"
  | .variable .. => "var"
  | .vector .. => "vec"
  | .parameter .. => "pn_el"

def component (x : Binary64) : Json := if x.isFinite then .float x else .null

def data : ItemKind → Json
  | .tag block action name option => .object
    [("block", .str block), ("action", .str action), ("option", .str option), ("tag", .str name)]
  | .string s | .styledText s => .object [("name", .str s)]
  | .number x => .object [("name", .str (numberText x))]
  | .variable name scope => .object [("name", .str name), ("scope", .str scope)]
  | .vector x y z => .object [("x", component x), ("y", component y), ("z", component z)]
  | .parameter name type optional plural description => .object
    [("name", .str name), ("type", .str type), ("optional", .bool optional),
      ("plural", .bool plural), ("description", .str description)]

end ItemKind

namespace Item

def ofKind (kind : ItemKind) : Item := ⟨0, kind⟩

def atSlot (slot : Nat) (item : Item) : Item := { item with slot }

def ofVariable (name scope : String) : Item := ofKind (.variable name scope)

/-- Name and scope of an item that is a variable. -/
def asVariable? (item : Item) : Option (String × String) :=
  match item.kind with
  | .variable name scope => some (name, scope)
  | _ => none

def toJson (item : Item) : Json := .object
  [("item", .object [("id", .str item.kind.code), ("data", item.kind.data)]),
    ("slot", .nat item.slot)]

end Item
end DiamondScript
