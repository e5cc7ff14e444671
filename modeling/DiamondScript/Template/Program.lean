import DiamondScript.Template.Code
import DiamondScript.Template.Codeblock

namespace DiamondScript

structure Codeline where
  blocks : List Codeblock
  deriving DecidableEq, Repr

structure Program where
  lines : List Codeline
  deriving DecidableEq, Repr

namespace Codeline

variable (schema : Schema)

def toJson (l : Codeline) : Except BlockError Json := do
  let blocks ← l.blocks.mapM (Codeblock.toJson schema)
  .ok (.object [("blocks", .arr blocks)])

def encode (l : Codeline) : Except BlockError String := do
  let v ← l.toJson schema
  .ok (Code.encode v)

end Codeline

namespace Program

variable (schema : Schema)

def encodeAll (p : Program) : Except BlockError (List String) :=
  p.lines.mapM (Codeline.encode schema)

def toJson (p : Program) : Except BlockError Json := do
  let lines ← p.lines.mapM (Codeline.toJson schema)
  .ok (.arr lines)

end Program
end DiamondScript
