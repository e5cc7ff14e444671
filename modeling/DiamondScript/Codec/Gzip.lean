import DiamondScript.Codec.Crc32
import DiamondScript.Codec.Inflate

namespace DiamondScript.Gzip

inductive Fault where
  | header
  | truncated
  | corrupt
  | checksum
  | notText
  deriving DecidableEq, Repr

def Fault.message : Fault → String
  | .header => "invalid gzip header"
  | .truncated => "unexpected end of file"
  | .corrupt => "corrupt deflate stream"
  | .checksum => "corrupt gzip stream does not have a matching checksum"
  | .notText => "stream did not contain valid UTF-8"

/-- The low bytes of a number, least first. -/
def littleEndian : Nat → Nat → List UInt8
  | 0, _ => []
  | n + 1, v => UInt8.ofNat v :: littleEndian n (v / 256)

def natOfBytes : List UInt8 → Nat
  | [] => 0
  | b :: rest => b.toNat + 256 * natOfBytes rest

def maxStored : Nat := 65535

def storedBlock (final : Bool) (data : List UInt8) : List UInt8 :=
  (if final then 1 else 0)
    :: (littleEndian 2 data.length ++ littleEndian 2 (maxStored - data.length) ++ data)

/-- The data in uncompressed blocks; the count bounds them. -/
def storedBlocks : Nat → List UInt8 → List UInt8
  | 0, data => storedBlock true data
  | n + 1, data =>
    if data.length ≤ maxStored then storedBlock true data
    else storedBlock false (data.take maxStored) ++ storedBlocks n (data.drop maxStored)

def fixedHeader : List UInt8 := [0x1f, 0x8b, 8, 0, 0, 0, 0, 0, 0, 255]

def trailer (data : List UInt8) : List UInt8 :=
  littleEndian 4 (Crc32.checksum data).toNat ++ littleEndian 4 data.length

/-- A gzip stream that holds the data as it is. -/
def pack (data : List UInt8) : List UInt8 :=
  fixedHeader ++ storedBlocks data.length data ++ trailer data

abbrev Read (α : Type) := List UInt8 → Except Fault (α × List UInt8)

def takeBytes (n : Nat) : Read (List UInt8) := fun bytes =>
  if bytes.length < n then .error .truncated else .ok (bytes.take n, bytes.drop n)

def hasFlag (flags : UInt8) (flag : Nat) : Bool := flags.toNat / Nat.pow 2 flag % 2 == 1

def maxText : Nat := 65535

/-- A text of the header, up to and with its zero byte. -/
def headerText : Read (List UInt8) := fun bytes =>
  let text := bytes.takeWhile (· != 0)
  if maxText < text.length then .error .header
  else match bytes.drop text.length with
    | zero :: rest => .ok (text ++ [zero], rest)
    | [] => .error .truncated

def optional (present : Bool) (read : Read (List UInt8)) : Read (List UInt8) := fun bytes =>
  if present then read bytes else .ok ([], bytes)

def extraField : Read (List UInt8) := fun bytes => do
  let (size, rest) ← takeBytes 2 bytes
  let (extra, rest) ← takeBytes (natOfBytes size) rest
  .ok (size ++ extra, rest)

/-- Steps over the header. Its own checksum, when there is one, covers all bytes before it. -/
def readHeader (bytes : List UInt8) : Except Fault (List UInt8) := do
  let (start, rest) ← takeBytes 10 bytes
  match start with
  | 0x1f :: 0x8b :: 8 :: flags :: _ =>
    if 32 ≤ flags.toNat then .error .header
    else
      let (extra, rest) ← optional (hasFlag flags 2) extraField rest
      let (name, rest) ← optional (hasFlag flags 3) headerText rest
      let (comment, rest) ← optional (hasFlag flags 4) headerText rest
      let (check, rest) ← optional (hasFlag flags 1) (takeBytes 2) rest
      let covered := start ++ extra ++ name ++ comment
      if hasFlag flags 1 && natOfBytes check != (Crc32.checksum covered).toNat % 65536 then
        .error .checksum
      else .ok rest
  | _ => .error .header

def liftInflate {α : Type} : Except Inflate.Fault α → Except Fault α
  | .ok a => .ok a
  | .error .truncated => .error .truncated
  | .error .corrupt => .error .corrupt

/-- The data of the first stream in the bytes. -/
def unpack (bytes : List UInt8) : Except Fault (List UInt8) := do
  let body ← readHeader bytes
  let (data, rest) ← liftInflate (Inflate.inflate body)
  let (check, rest) ← takeBytes 4 rest
  let (size, _) ← takeBytes 4 rest
  if natOfBytes check = (Crc32.checksum data).toNat ∧ natOfBytes size = data.length % Nat.pow 2 32
  then .ok data
  else .error .checksum

end DiamondScript.Gzip
