import DiamondScript.Files.Directories

namespace DiamondScript

/-- The names from the top directory down to a place. The names of a place outside start with
steps upward, or with the slash of the root. -/
abbrev Place := List String

namespace Place

def root : Place := ["/"]

/-- Whether a place is the top directory or above it. -/
def isUpward (p : Place) : Bool := p.all (· == "..")

/-- The directory around a place; that of the root is the root. -/
def above (p : Place) : Place :=
  if p = root then root else if p.isUpward then p ++ [".."] else p.dropLast

/-- Whether a place is below the top directory. -/
def isInside (p : Place) : Bool := p.head? != some ".." && p.head? != some "/"

end Place

inductive Node where
  | file (data : List UInt8)
  | directory
  deriving DecidableEq, Repr

/-- Files and directories, most of them below a top directory, which is where relative paths
start. Of what is outside, only the directories above and the root are always there. -/
structure Tree where
  nodes : List (Place × Node)
  deriving Repr

namespace Tree

def empty : Tree := ⟨[]⟩

def node? (t : Tree) (p : Place) : Option Node :=
  if p.isUpward || p == Place.root then some .directory else t.nodes.lookup p

def put (t : Tree) (p : Place) (n : Node) : Tree :=
  ⟨(p, n) :: t.nodes.filter fun e => e.1 != p⟩

def move (t : Tree) (source target : Place) : Tree :=
  ⟨(t.nodes.filter fun e => e.1 != target).map fun (p, n) =>
    if source.isPrefixOf p then (target ++ p.drop source.length, n) else (p, n)⟩

def hasChildren (t : Tree) (p : Place) : Bool :=
  t.nodes.any fun e => p.isPrefixOf e.1 && e.1 != p

/-- The parts of a path between slashes. -/
def parts (p : Path) : List String := (p.toList.splitOnP (· == '/')).map String.ofList

def maxName : Nat := 255

def maxPath : Nat := 4095

/-- Refuses a path that leads nowhere, whatever the tree holds. -/
def checkPath (p : Path) : Except OsError Unit :=
  if Path.hasZero p then .error .zeroByte
  else if maxPath < p.utf8ByteSize then .error .nameTooLong
  else if p.isEmpty then .error .notFound
  else .ok ()

/-- Where the walk along a path starts. -/
def origin (p : Path) : Place := if Path.isAbsolute p then Place.root else []

def enter (t : Tree) (p : Place) (part : String) : Except OsError Place :=
  match t.node? p with
  | none => .error .notFound
  | some (.file _) => .error .notDirectory
  | some .directory =>
    if part = "" ∨ part = "." then .ok p
    else if part = ".." then .ok p.above
    else if maxName < part.utf8ByteSize then .error .nameTooLong
    else .ok (p ++ [part])

/-- The place a path leads to. All but the last part must be there, and be directories. -/
def locate (t : Tree) (p : Path) : Except OsError Place := do
  checkPath p
  (parts p).foldlM t.enter (origin p)

/-- The place of a path that is yet to be made; a slash at its end stands for nothing. -/
def locateNew (t : Tree) (p : Path) : Except OsError Place := do
  checkPath p
  ((parts p).filter (· ≠ "")).foldlM t.enter (origin p)

def find (t : Tree) (p : Path) : Except OsError (Place × Node) := do
  let place ← t.locate p
  match t.node? place with
  | some n => .ok (place, n)
  | none => .error .notFound

def exists? (t : Tree) (p : Path) : Bool :=
  match t.find p with
  | .ok _ => true
  | .error _ => false

def isDirectory (t : Tree) (p : Path) : Bool :=
  match t.find p with
  | .ok (_, .directory) => true
  | _ => false

def read (t : Tree) (p : Path) : Except OsError (List UInt8) := do
  match ← t.find p with
  | (_, .file data) => .ok data
  | (_, .directory) => .error .isDirectory

/-- Gives a file new content; it is made if it is not there. -/
def write (t : Tree) (p : Path) (data : List UInt8) : Except OsError Tree := do
  let place ← t.locate p
  match t.node? place with
  | some .directory => .error .isDirectory
  | _ => .ok (t.put place (.file data))

/-- Whether the last part that says anything is a name. -/
def endsInName (p : Path) : Bool :=
  match ((parts p).filter (· ≠ "")).getLast? with
  | some part => part != "." && part != ".."
  | none => false

def endsInSlash (p : Path) : Bool := (parts p).getLast? == some ""

/-- Renames a file or directory. A file takes the place of a file, a directory that of an
empty directory. -/
def rename (t : Tree) (source target : Path) : Except OsError Tree := do
  let dest ← t.locateNew target
  if !endsInName source || !endsInName target then .error .busy
  else
    let (place, n) ← t.find source
    match n, t.node? dest with
    | .file _, found =>
      if endsInSlash target then .error .notDirectory
      else if found = some .directory then .error .isDirectory
      else if place = dest then .ok t
      else .ok (t.move place dest)
    | .directory, some (.file _) => .error .notDirectory
    | .directory, found =>
      if place = dest then .ok t
      else if place.isPrefixOf dest then .error .invalid
      else if found.isSome && t.hasChildren dest then .error .notEmpty
      else .ok (t.move place dest)

def makeDir (t : Tree) (p : Path) : Except OsError Tree := do
  let place ← t.locateNew p
  match t.node? place with
  | some _ => .error .exists
  | none => .ok (t.put place .directory)

/-- Makes a directory and those above it that are missing. Those made before a failure stay. -/
def makeDirs (p : Path) : StateM Tree (Except OsError Unit) :=
  Files.makeDirsWith
    (fun p => do
      match (← get).makeDir p with
      | .ok t =>
        set t
        return .ok ()
      | .error e => return .error e)
    (fun p => return (← get).isDirectory p)
    (Files.makeDirsBound p) p

def placeText (p : Place) (n : Node) : String :=
  String.intercalate "/" p ++ match n with
    | .file _ => ""
    | .directory => "/"

/-- Everything below the top directory by name, directories with a slash behind them. -/
def listing (t : Tree) : List String :=
  let inside := t.nodes.filter fun e => e.1.isInside
  (inside.map fun (p, n) => placeText p n).mergeSort fun a b => a ≤ b

structure Session where
  tree : Tree
  records : List Log.Record
  printed : String

def Session.start (t : Tree) : Session := ⟨t, [], ""⟩

def update (f : Tree → Except OsError Tree) : StateM Session (Except OsError Unit) := do
  let s ← get
  match f s.tree with
  | .ok t =>
    set { s with tree := t }
    return .ok ()
  | .error e => return .error e

/-- The meaning of steps on a tree. Remarks are collected, and those that are to be shown are
also printed as they come. -/
def handle (shown : Log.Record → Option String) : (e : Effect) → StateM Session e.Answer
  | .create p => update fun t => t.write p []
  | .write p data => update fun t => t.write p data
  | .sync _ => return .ok ()
  | .probe p => return (← get).tree.exists? p
  | .rename source target => update fun t => t.rename source target
  | .read p => return (← get).tree.read p
  | .makeDirs p => do
    let s ← get
    let (answer, tree) := (makeDirs p).run s.tree
    set { s with tree }
    return answer
  | .note r => modify fun s => { s with
      records := s.records ++ [r]
      printed := s.printed ++ match shown r with
        | some line => line ++ "\n"
        | none => "" }
  | .print line => modify fun s => { s with printed := s.printed ++ line ++ "\n" }

end Tree
end DiamondScript
