import IshaVectorDb.Format.Block
import IshaVectorDb.Index.Graph

/-!
# `Index.Snapshot` — saving and restoring a built graph

A snapshot holds a graph's structure without its vectors. Restoring takes the vectors from the source's rows and
checks all that it uses: the rows must be the source's, in its order, and every neighbour must be a node.
-/

namespace IshaVectorDb.Index

open Format Parsing

namespace Snapshot

/-- The layout's version. -/
def version : UInt16 := 1

/-- `HNSW`. -/
def magic : UInt32 := 0x484E5357

/-- The fewest bytes that a node takes. -/
def minBytesPerNode : Nat := 10

/-- The highest layer a node may be on. -/
def maxLevel : Nat := 16

def metricCode : Option Metric → UInt16
  | some .cosine => 1
  | some .l2 => 2
  | some .dot => 3
  | none => 0

def metricFrom (code : UInt16) : Option Metric :=
  if code = 1 then some .cosine else if code = 2 then some .l2 else if code = 3 then some .dot else none

/-- The entry point, and whether there is one. -/
def entryBytes : Option Nat → Bytes
  | some entry => 1 :: Writer.u32 (UInt32.ofNat entry)
  | none => 0 :: Writer.u32 0

def neighbourBytes (neighbours : List Nat) : Bytes :=
  Writer.u32 (UInt32.ofNat neighbours.length) ++ neighbours.flatMap (fun n => Writer.u32 (UInt32.ofNat n))

/-- Serialise a graph. -/
def encode (g : Graph) (params : HnswParams) : Bytes :=
  Writer.u32 magic ++ Writer.u16 version ++ Writer.u16 (metricCode g.metric) ++
    Writer.u32 (UInt32.ofNat g.dimension) ++ Writer.u32 (UInt32.ofNat params.m) ++
    Writer.u32 (UInt32.ofNat params.efConstruction) ++ Writer.u64 params.seed ++
    Writer.u32 (UInt32.ofNat g.len) ++ Writer.u32 (UInt32.ofNat g.layers.length) ++ entryBytes g.entry ++
    g.rows.flatMap (fun row => Writer.u64 row.value) ++ g.levels ++
    g.layers.flatMap (fun layer => layer.flatMap neighbourBytes)

/-! ## Reading -/

/-- A reader that only says whether it could read. -/
abbrev Cursor (α : Type) := Parser Unit α

namespace Cursor

def take (n : Nat) : Cursor Bytes := fun i =>
  if n ≤ i.rest.length then .ok (i.rest.take n, ⟨i.rest.drop n, i.offset + n⟩) else .error ()

def u8 : Cursor UInt8 := do return (← take 1).headD 0

def u16 : Cursor UInt16 := do return UInt16.ofNat (leNat (← take 2))

def u32 : Cursor UInt32 := do return UInt32.ofNat (leNat (← take 4))

def u64 : Cursor UInt64 := do return UInt64.ofNat (leNat (← take 8))

/-- Go on only if the condition holds. -/
def guard (ok : Bool) : Cursor Unit := if ok then return () else fail ()

/-- Go on only with a value. -/
def some? {α : Type} : Option α → Cursor α
  | some a => return a
  | none => fail ()

end Cursor

/-- What a snapshot says about itself; `body` is where its rows begin. -/
structure Header where
  metric : Metric
  dimension : Nat
  nodes : Nat
  layers : Nat
  entry : Option Nat
  paramsMatch : Bool
  body : Nat
deriving DecidableEq

/-- The entry point, which must be a node. -/
def readEntry (hasEntry : UInt8) (value : UInt32) (nodes : Nat) : Option (Option Nat) :=
  if hasEntry = 0 then some none
  else if hasEntry = 1 ∧ value.toNat < nodes then some (some value.toNat)
  else none

/-- Read a snapshot's header, `len` being the length of all its bytes. -/
def readHeader (params : HnswParams) (len : Nat) : Cursor Header := do
  let foundMagic ← Cursor.u32
  Cursor.guard (foundMagic = magic)
  let foundVersion ← Cursor.u16
  Cursor.guard (foundVersion = version)
  let metric ← Cursor.some? (metricFrom (← Cursor.u16))
  let dimension ← Cursor.u32
  let m ← Cursor.u32
  let efConstruction ← Cursor.u32
  let seed ← Cursor.u64
  let nodes ← Cursor.u32
  let layers ← Cursor.u32
  let hasEntry ← Cursor.u8
  let entryValue ← Cursor.u32
  Cursor.guard (nodes.toNat * minBytesPerNode ≤ len)
  Cursor.guard (layers.toNat ≤ maxLevel + 1)
  let entry ← Cursor.some? (readEntry hasEntry entryValue nodes.toNat)
  let body ← position
  return ⟨metric, dimension.toNat, nodes.toNat, layers.toNat, entry,
    m.toNat = params.m && efConstruction.toNat = params.efConstruction && seed = params.seed, body⟩

/-- What a cursor reads from the front of the bytes. -/
def runCursor {α : Type} (c : Cursor α) (bs : Bytes) : Option α := match c ⟨bs, 0⟩ with
  | .ok (a, _) => some a
  | .error () => none

/-- Read a snapshot's header, if it is one this build can use. -/
def decodeHeader (bs : Bytes) (params : HnswParams) : Option Header := runCursor (readHeader params bs.length) bs

/-- The rows must be the source's, in its order. -/
def readRows (dimension : Nat) : List DecodedRow → Cursor Unit
  | [] => return ()
  | r :: rest => do
      let value ← Cursor.u64
      Cursor.guard (value = r.1.value)
      Cursor.guard (r.2.1.length = dimension)
      readRows dimension rest

/-- One neighbour, which must be a node. -/
def readNeighbour (nodes : Nat) : Cursor Nat := do
  let n ← Cursor.u32
  Cursor.guard (n.toNat < nodes)
  return n.toNat

/-- One node's neighbours on one layer. -/
def readNeighbours (nodes : Nat) : Cursor (List Nat) := do
  let count ← Cursor.u32
  Cursor.guard (count.toNat ≤ nodes)
  times (readNeighbour nodes) count.toNat

/-- The part of a snapshot behind its header. -/
def readBody (header : Header) (rows : List DecodedRow) : Cursor Graph := do
  let _ ← Cursor.take header.body
  readRows header.dimension rows
  let levels ← Cursor.take header.nodes
  let layers ← times (times (readNeighbours header.nodes) header.nodes) header.layers
  Cursor.guard (levels.length = header.nodes && layers.all (fun layer => layer.length = header.nodes))
  Cursor.guard (header.entry.isSome = decide (0 < header.nodes))
  return ⟨rows.map Prod.fst, rows.flatMap (fun r => r.2.1), rows.map (fun r => r.2.2), levels, layers, header.entry,
    header.dimension, some header.metric⟩

/-- Rebuild a graph from a snapshot, given the rows it must describe. -/
def decode (bs : Bytes) (header : Header) (rows : List DecodedRow) : Option Graph :=
  if header.nodes ≠ rows.length then none else runCursor (readBody header rows) bs

end Snapshot

end IshaVectorDb.Index
