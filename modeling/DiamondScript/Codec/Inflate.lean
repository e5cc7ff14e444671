namespace DiamondScript.Inflate

inductive Fault where
  | truncated
  | corrupt
  deriving DecidableEq, Repr

/-- Bytes still to be read, and how many bits of the first one are used up. -/
structure Bits where
  bytes : List UInt8
  used : Nat

abbrev Read := StateT Bits (Except Fault)

def corrupt {α : Type} : Read α := throw .corrupt

/-- The next bit; the low bits of a byte come first. -/
def bit : Read Nat := fun s =>
  match s.bytes with
  | [] => .error .truncated
  | b :: rest =>
    .ok (b.toNat / Nat.pow 2 s.used % 2, if s.used = 7 then ⟨rest, 0⟩ else ⟨b :: rest, s.used + 1⟩)

/-- A number of the given width, its lowest bit first. -/
def bits : Nat → Read Nat
  | 0 => return 0
  | n + 1 => do
    let low ← bit
    let high ← bits n
    return low + 2 * high

/-- Whole bytes, after the rest of a byte in use is dropped. -/
def wholeBytes (n : Nat) : Read (List UInt8) := fun s =>
  let bytes := if s.used = 0 then s.bytes else s.bytes.tail
  if bytes.length < n then .error .truncated else .ok (bytes.take n, ⟨bytes.drop n, 0⟩)

/-- A prefix code: how many codes there are of each length from one on, and the symbols by
length and value. -/
structure Code where
  counts : List Nat
  symbols : List Nat

/-- The code with the given length for each symbol; length zero leaves a symbol out. -/
def Code.ofLengths (lengths : List Nat) : Code :=
  let widths := (List.range 15).map (· + 1)
  let indexed := lengths.zipIdx
  { counts := widths.map fun w => lengths.countP (· == w)
    symbols := widths.flatMap fun w => (indexed.filter fun e => e.1 == w).map (·.2) }

/-- What is left of the code space of `room` after codes of the given counts; nothing if they
take more than there is. -/
def remaining : Nat → List Nat → Option Nat
  | room, [] => some room
  | room, n :: rest => if 2 * room < n then none else remaining (2 * room - n) rest

/-- Whether the codes fill their space exactly. -/
def Code.isComplete (c : Code) : Bool := remaining 1 c.counts == some 0

/-- Whether no code is longer than one bit. Such codes need not fill their space, so there may
be a single one, or none. -/
def Code.isStub (c : Code) : Bool :=
  c.counts.tail.all (· == 0) && (remaining 1 c.counts).isSome

/-- The code with the given lengths, which must fill its space unless it is a stub. -/
def checkedCode (lengths : List Nat) : Read Code :=
  let c := Code.ofLengths lengths
  if c.isComplete || c.isStub then return c else corrupt

/-- Reads a code bit by bit: `code` is the value so far, `first` the least code of the
current length and `index` the number of shorter codes. Bits that no code starts with are
refused at once. -/
def symbolFrom (symbols : List Nat) : List Nat → Nat → Nat → Nat → Read Nat
  | [], _, _, _ => corrupt
  | count :: rest, code, first, index => do
    let code := code + (← bit)
    if code < first + count then
      match symbols[index + (code - first)]? with
      | some s => return s
      | none => corrupt
    else if rest.all (· == 0) then corrupt
    else symbolFrom symbols rest (2 * code) (2 * (first + count)) (index + count)

def symbol (c : Code) : Read Nat := symbolFrom c.symbols c.counts 0 0 0

/-- Base value and extra bits of the length symbols from 257 on. -/
def lengthTable : List (Nat × Nat) :=
  [(3, 0), (4, 0), (5, 0), (6, 0), (7, 0), (8, 0), (9, 0), (10, 0), (11, 1), (13, 1), (15, 1),
    (17, 1), (19, 2), (23, 2), (27, 2), (31, 2), (35, 3), (43, 3), (51, 3), (59, 3), (67, 4),
    (83, 4), (99, 4), (115, 4), (131, 5), (163, 5), (195, 5), (227, 5), (258, 0)]

/-- Base value and extra bits of the distance symbols. -/
def distanceTable : List (Nat × Nat) :=
  [(1, 0), (2, 0), (3, 0), (4, 0), (5, 1), (7, 1), (9, 2), (13, 2), (17, 3), (25, 3), (33, 4),
    (49, 4), (65, 5), (97, 5), (129, 6), (193, 6), (257, 7), (385, 7), (513, 8), (769, 8),
    (1025, 9), (1537, 9), (2049, 10), (3073, 10), (4097, 11), (6145, 11), (8193, 12), (12289, 12),
    (16385, 13), (24577, 13)]

def tableValue (table : List (Nat × Nat)) (i : Nat) : Read Nat := do
  match table[i]? with
  | some (base, extra) => return base + (← bits extra)
  | none => corrupt

/-- The byte that stands `distance` back. The data is taken to follow zeros without end. -/
def byteBack (distance : Nat) (out : Array UInt8) : UInt8 :=
  if out.size < distance then 0 else out[out.size - distance]?.getD 0

/-- Repeats what stands `distance` bytes back. -/
def copyBack (distance : Nat) : Nat → Array UInt8 → Array UInt8
  | 0, out => out
  | n + 1, out => copyBack distance n (out.push (byteBack distance out))

/-- The symbols of a block up to its end; the count bounds them. -/
def block (literals distances : Code) : Nat → Array UInt8 → Read (Array UInt8)
  | 0, _ => corrupt
  | n + 1, out => do
    let s ← symbol literals
    if s < 256 then block literals distances n (out.push (UInt8.ofNat s))
    else if s = 256 then return out
    else
      let length ← tableValue lengthTable (s - 257)
      let distance ← tableValue distanceTable (← symbol distances)
      block literals distances n (copyBack distance length out)

def stored (out : Array UInt8) : Read (Array UInt8) := do
  match ← wholeBytes 4 with
  | [a, b, c, d] =>
    let length := a.toNat + 256 * b.toNat
    if length + (c.toNat + 256 * d.toNat) ≠ 65535 then corrupt
    else return out ++ (← wholeBytes length).toArray
  | _ => corrupt

def fixedLiterals : Code := Code.ofLengths
  (List.replicate 144 8 ++ List.replicate 112 9 ++ List.replicate 24 7 ++ List.replicate 8 8)

def fixedDistances : Code := Code.ofLengths (List.replicate 32 5)

/-- The order in which the lengths of the length code are listed. -/
def lengthOrder : List Nat := [16, 17, 18, 0, 8, 7, 9, 6, 10, 5, 11, 4, 12, 3, 13, 2, 14, 1, 15]

/-- The listed lengths, put in the order of their symbols. -/
def lengthCodeLengths (listed : List Nat) : List Nat :=
  (List.range 19).map fun s => (listed[lengthOrder.idxOf s]?).getD 0

def bitsEach (width : Nat) : Nat → Read (List Nat)
  | 0 => return []
  | n + 1 => do
    let v ← bits width
    let vs ← bitsEach width n
    return v :: vs

/-- Code lengths until `total` of them are known, collected in reverse; the count bounds the
symbols read. -/
def codeLengths (code : Code) (total : Nat) : Nat → List Nat → Read (List Nat)
  | 0, _ => corrupt
  | n + 1, known =>
    if known.length = total then return known.reverse
    else if total < known.length then corrupt
    else do
      let s ← symbol code
      if s < 16 then codeLengths code total n (s :: known)
      else if s = 16 then
        match known with
        | [] => corrupt
        | last :: _ => codeLengths code total n (List.replicate (3 + (← bits 2)) last ++ known)
      else if s = 17 then codeLengths code total n (List.replicate (3 + (← bits 3)) 0 ++ known)
      else codeLengths code total n (List.replicate (11 + (← bits 7)) 0 ++ known)

def maxLiterals : Nat := 286

def maxDistances : Nat := 30

/-- The code in which the lengths of the other two codes are written. -/
def lengthCode (listed : List Nat) : Read Code :=
  let c := Code.ofLengths (lengthCodeLengths listed)
  if c.isComplete then return c else corrupt

/-- The two codes that a block with its own codes starts with. -/
def dynamicCodes : Read (Code × Code) := do
  let literals := 257 + (← bits 5)
  let distances := 1 + (← bits 5)
  let listed := 4 + (← bits 4)
  if maxLiterals < literals || maxDistances < distances then corrupt
  else
    let code ← lengthCode (← bitsEach 3 listed)
    let lengths ← codeLengths code (literals + distances) (literals + distances + 1) []
    let literalCode ← checkedCode (lengths.take literals)
    let distanceCode ← checkedCode (lengths.drop literals)
    return (literalCode, distanceCode)

def blocks (limit : Nat) : Nat → Array UInt8 → Read (Array UInt8)
  | 0, _ => corrupt
  | n + 1, out => do
    let final ← bit
    let kind ← bits 2
    let out ← match kind with
      | 0 => stored out
      | 1 => block fixedLiterals fixedDistances limit out
      | 2 => do
        let (literals, distances) ← dynamicCodes
        block literals distances limit out
      | _ => corrupt
    if final = 1 then return out else blocks limit n out

/-- Unpacks compressed data and tells which bytes follow it. -/
def inflate (bytes : List UInt8) : Except Fault (List UInt8 × List UInt8) := do
  let limit := 8 * bytes.length + 1
  let (out, rest) ← (blocks limit limit #[]).run ⟨bytes, 0⟩
  .ok (out.toList, if rest.used = 0 then rest.bytes else rest.bytes.tail)

end DiamondScript.Inflate
