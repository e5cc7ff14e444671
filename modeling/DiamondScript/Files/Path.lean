namespace DiamondScript

/-- A path as it is written. Slashes separate names, and repeated slashes and single points
inside a path stand for nothing. -/
abbrev Path := String

namespace Path

def isAbsolute (p : Path) : Bool := p.toList.head? == some '/'

/-- Whether a zero byte stands in the path. No file can have such a name. -/
def hasZero (p : Path) : Bool := p.toList.any fun c => c.toNat == 0

/-- Appends a path with one slash between; an absolute one replaces the base. -/
def join (base p : Path) : Path :=
  if isAbsolute p then p
  else
    match base.toList.getLast? with
    | none => p
    | some c => if c = '/' then base ++ p else base ++ "/" ++ p

/-- The root, or the point that a relative path may start with, and what follows it. -/
def splitLead : List Char → List Char × List Char
  | '/' :: rest => (['/'], rest)
  | ['.'] => (['.'], [])
  | '.' :: '/' :: rest => (['.'], '/' :: rest)
  | cs => ([], cs)

/-- What stands before the last slash, and the name behind it. -/
def splitName (body : List Char) : List Char × List Char :=
  let backward := body.reverse
  ((backward.dropWhile (· ≠ '/')).tail.reverse, (backward.takeWhile (· ≠ '/')).reverse)

def isIdle (name : List Char) : Bool := name == [] || name == ['.']

/-- Drops slashes and points from the end; the count bounds the names dropped. -/
def trimBody : Nat → List Char → List Char
  | 0, body => body
  | n + 1, body =>
    if body.isEmpty then body
    else
      let (front, name) := splitName body
      if isIdle name then trimBody n front else body

def trimmed (body : List Char) : List Char := trimBody (body.length + 1) body

/-- The steps of a path, the root or the leading point among them. Paths with equal steps are
the same. -/
def steps (p : Path) : List (List Char) :=
  let (lead, body) := splitLead p.toList
  lead :: (body.splitOnP (· == '/')).filter fun name => !isIdle name

/-- The path without its last name; a root and an empty path have none. -/
def parent? (p : Path) : Option Path :=
  let (lead, body) := splitLead p.toList
  match trimmed body with
  | [] => if lead = ['.'] then some "" else none
  | body => some (String.ofList (lead ++ trimmed (splitName body).1))

/-- The last name of a path, if it is not a step upward. -/
def fileName? (p : Path) : Option String :=
  match trimmed (splitLead p.toList).2 with
  | [] => none
  | body =>
    let name := (splitName body).2
    if name = ['.', '.'] then none else some (String.ofList name)

/-- The path with another last name, or with that name appended if it has none. -/
def withFileName (p : Path) (name : String) : Path :=
  match fileName? p with
  | some _ => join ((parent? p).getD "") name
  | none => join p name

/-- The path beside this one whose name has something appended. -/
def sibling (p : Path) (ending : String) : Path :=
  withFileName p ((fileName? p).getD "" ++ ending)

def directoryOf (source : Path) : Path :=
  match parent? source with
  | some p => if p.isEmpty then "." else p
  | none => "."

def resolve (base p : Path) : Path := if isAbsolute p then p else join base p

def configName : String := "dfc.json"

def sourceName : String := "main.dfc"

def catalogName : String := "actiondump.json"

def configIn (directory : Path) : Path := join directory configName

def sourceIn (directory : Path) : Path := join directory sourceName

end Path
end DiamondScript
