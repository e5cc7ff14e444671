import DiamondScript.Language.Expr
import DiamondScript.Table

namespace DiamondScript

structure Binding where
  type : ValueType
  storage : Storage
  deriving Repr

structure Signature where
  name : String
  params : List Param
  deriving Repr

structure Frame where
  bindings : Table Binding
  signatures : Table Signature
  deriving Repr

/-- The names in force: the frames opened so far, the innermost first, over a root frame that
stays for good. -/
structure Scope where
  inner : List Frame
  root : Frame
  deriving Repr

def Frame.empty : Frame := ⟨[], []⟩

namespace Scope

def empty : Scope := ⟨[], .empty⟩

def frames (s : Scope) : List Frame := s.inner ++ [s.root]

def binding? (s : Scope) (name : String) : Option Binding :=
  s.frames.findSome? fun f => f.bindings.find? name

def signature? (s : Scope) (name : String) : Option Signature :=
  s.frames.findSome? fun f => f.signatures.find? name

def onTop (f : Frame → Frame) (s : Scope) : Scope :=
  match s.inner with
  | [] => { s with root := f s.root }
  | top :: rest => { s with inner := f top :: rest }

def define (name : String) (type : ValueType) (storage : Storage) : Scope → Scope :=
  onTop fun f => { f with bindings := f.bindings.insert name ⟨type, storage⟩ }

def defineFunction (signature : Signature) : Scope → Scope :=
  onTop fun f => { f with signatures := f.signatures.insert signature.name signature }

def push (s : Scope) : Scope := { s with inner := .empty :: s.inner }

def pop (s : Scope) : Scope := { s with inner := s.inner.tail }

end Scope
end DiamondScript
