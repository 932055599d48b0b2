import IshaVectorDb.Format.Catalog

/-!
# `Index.Graph` — the **navigable graph** and how it grows

A graph numbers its nodes densely, in the order their rows were given to it, and keeps each node's row, a copy of
its vector and its neighbours on every layer. Which layer a node reaches and which neighbours it is linked to is
decided by floating-point comparisons (`Linking`); everything else about a graph is here.
-/

namespace IshaVectorDb.Index

open Format

/-- A row's handle: a segment's index in the high half, a row of it in the low half. -/
structure RowId where
  value : UInt64
deriving DecidableEq, Repr

namespace RowId

def new (segment row : UInt32) : RowId := ⟨(segment.toUInt64 <<< 32) ||| row.toUInt64⟩

def segment (r : RowId) : UInt32 := (r.value >>> 32).toUInt32

def row (r : RowId) : UInt32 := r.value.toUInt32

theorem value_new (segment row : UInt32) : (RowId.new segment row).value.toNat = 2 ^ 32 * segment.toNat + row.toNat := by
  show ((segment.toUInt64 <<< 32) ||| row.toUInt64).toNat = _
  have hs := segment.toNat_lt
  have hr := row.toNat_lt
  rw [UInt64.toNat_or, UInt64.toNat_shiftLeft, UInt32.toNat_toUInt64, UInt32.toNat_toUInt64]
  have hshift : (32 : UInt64).toNat % 64 = 32 := rfl
  rw [hshift, Nat.shiftLeft_eq, Nat.mod_eq_of_lt (by omega), Nat.mul_comm, Nat.two_pow_add_eq_or_of_lt hr]

@[simp] theorem segment_new (segment row : UInt32) : (RowId.new segment row).segment = segment := by
  apply UInt32.toNat_inj.mp
  have hr := row.toNat_lt
  have hs := segment.toNat_lt
  show ((RowId.new segment row).value >>> 32).toUInt32.toNat = _
  rw [UInt64.toNat_toUInt32, UInt64.toNat_shiftRight, value_new]
  have hshift : (32 : UInt64).toNat % 64 = 32 := rfl
  rw [hshift, Nat.shiftRight_eq_div_pow]
  omega

@[simp] theorem row_new (segment row : UInt32) : (RowId.new segment row).row = row := by
  apply UInt32.toNat_inj.mp
  have hr := row.toNat_lt
  show (RowId.new segment row).value.toUInt32.toNat = _
  rw [UInt64.toNat_toUInt32, value_new]
  omega

/-- A handle is the one of its two halves. -/
theorem new_segment_row (r : RowId) : RowId.new r.segment r.row = r := by
  have hv := r.value.toNat_lt
  have h : (RowId.new r.segment r.row).value = r.value := by
    apply UInt64.toNat_inj.mp
    rw [value_new]
    show 2 ^ 32 * (r.value >>> 32).toUInt32.toNat + r.value.toUInt32.toNat = _
    rw [UInt64.toNat_toUInt32, UInt64.toNat_toUInt32, UInt64.toNat_shiftRight]
    have hshift : (32 : UInt64).toNat % 64 = 32 := rfl
    rw [hshift, Nat.shiftRight_eq_div_pow]
    omega
  cases r
  exact congrArg RowId.mk h

end RowId

/-- A row as an index reads it: its handle, its components' bits, the bits of its reciprocal norm. -/
abbrev DecodedRow := RowId × List UInt32 × UInt32

/-- A row and the bits of its score. -/
structure Candidate where
  row : RowId
  score : UInt32
deriving DecidableEq, Repr

/-- Construction and search knobs. -/
structure HnswParams where
  m : Nat
  efConstruction : Nat
  efSearch : Nat
  seed : UInt64
deriving DecidableEq, Repr

namespace HnswParams

def default : HnswParams := ⟨16, 200, 64, 0x5EED1234ABCD0001⟩

def isValid (p : HnswParams) : Bool := 2 ≤ p.m && 1 ≤ p.efConstruction && 1 ≤ p.efSearch

/-- Parameters that cannot make a graph give way to the defaults. -/
def orDefault (p : HnswParams) : HnswParams := if p.isValid then p else default

end HnswParams

/-- A built graph; `layers[l][node]` are the neighbours of `node` on layer `l`. -/
structure Graph where
  rows : List RowId
  vectors : List UInt32
  invNorms : List UInt32
  levels : List UInt8
  layers : List (List (List Nat))
  entry : Option Nat
  dimension : Nat
  metric : Option Metric
deriving DecidableEq, Repr

/-- What the floating-point side of construction decides: the highest layer of a row's node, and the neighbour
    lists and entry point once a node is linked in. -/
structure Linking where
  levelFor : RowId → UInt8
  insert : Graph → Nat → List (List (List Nat)) × Option Nat

/-- A node's number is a `u32`. -/
def nodeOf (index : Nat) : Nat := index % 2 ^ 32

namespace Graph

/-- A graph without nodes, before it is built for anything. -/
def default : Graph := ⟨[], [], [], [], [], none, 0, none⟩

/-- Nodes held. -/
def len (g : Graph) : Nat := g.rows.length

/-- Layers up to `level`, a new one with as many empty lists as the number of the node that is to come. -/
def raiseLayers (g : Graph) (level : UInt8) : List (List (List Nat)) :=
  g.layers ++ List.replicate (level.toNat + 1 - g.layers.length) (List.replicate (nodeOf g.len) [])

/-- Add a node; every layer gets a list for it. -/
def pushNode (g : Graph) (row : RowId) (vector : List UInt32) (invNorm : UInt32) (level : UInt8) : Graph :=
  { g with
    rows := g.rows ++ [row]
    vectors := g.vectors ++ vector
    invNorms := g.invNorms ++ [invNorm]
    levels := g.levels ++ [level]
    layers := (g.raiseLayers level).map (fun layer => layer ++ [[]]) }

/-- Add a node for a row and link it in. -/
def insertRow (linking : Linking) (g : Graph) (r : DecodedRow) : Graph :=
  let pushed := g.pushNode r.1 r.2.1 r.2.2 (linking.levelFor r.1)
  let (layers, entry) := linking.insert pushed g.len
  { pushed with layers := layers, entry := entry }

/-- Add rows to a graph that covers everything before them. -/
def extend (linking : Linking) (g : Graph) (rows : List DecodedRow) : Graph := rows.foldl (insertRow linking) g

/-- Build a graph over rows in the source's order. -/
def buildFrom (linking : Linking) (rows : List DecodedRow) (dimension : Nat) (metric : Metric) : Graph :=
  extend linking { default with dimension := dimension, metric := some metric } rows

/-- Whether the graph covers the first of the rows, in the same order. -/
def isPrefixOf (g : Graph) (rows : List DecodedRow) (dimension : Nat) (metric : Metric) : Bool :=
  g.metric = some metric && g.dimension = dimension && g.len ≤ rows.length &&
    (g.rows.zip rows).all (fun p => p.1 = p.2.1)

/-- Whether the graph can answer a query over so many rows; only their number is compared. -/
def isValidFor (g : Graph) (rows dimension : Nat) (metric : Metric) : Bool :=
  g.metric = some metric && g.dimension = dimension && g.len = rows

end Graph

end IshaVectorDb.Index
