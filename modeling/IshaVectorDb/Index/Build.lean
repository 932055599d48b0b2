import IshaVectorDb.Beam.Descent
import IshaVectorDb.Beam.Select
import IshaVectorDb.Index.Snapshot
import IshaVectorDb.Parsing.Slices
import Mathlib.Data.List.Sort

/-!
# `Index.Build` — **linking a node** into the graph

A new node looks for its neighbours from the entry point: greedily through the layers above its own, then by a beam
search on each layer of its own, from the top down. On each it is linked both ways to a diverse choice of what was found,
and a neighbour with too many links is cut back to such a choice of its own.

Scores are floating-point numbers; how they are computed, and the layer that a hash draws, is a parameter (`Machine`), as
are the queues. Reading a vector that is not there has no result: `none` is where the code would panic.
-/

namespace IshaVectorDb.Index

open Format Parsing Beam

/-! ## Scores -/

namespace Score

/-- A number's place in the order: sign and magnitude, both zeroes the same. What is not a number has none. -/
def key (bits : UInt32) : Option Int :=
  let magnitude : Nat := bits.toNat % 2 ^ 31
  if 0x7F800000 < magnitude then none else some (if bits.toNat < 2 ^ 31 then (magnitude : Int) else -(magnitude : Int))

/-- `a > b` of `f32`. -/
def gt (a b : UInt32) : Bool := match key a, key b with
  | some x, some y => y < x
  | _, _ => false

theorem gt_iff {a b : UInt32} : gt a b = true ↔ ∃ x y, key a = some x ∧ key b = some y ∧ y < x := by
  unfold gt
  cases key a with
  | none => simp
  | some x => cases key b with
    | none => simp
    | some y => simp

theorem gt_strict : Strict gt := by
  refine ⟨fun a => ?_, fun a b c hab hbc => ?_⟩
  · rw [← Bool.not_eq_true, gt_iff]
    rintro ⟨x, y, hx, hy, hlt⟩
    rw [hx] at hy
    obtain rfl := Option.some.inj hy
    omega
  · obtain ⟨x, y, hx, hy, hxy⟩ := gt_iff.mp hab
    obtain ⟨y', z, hy', hz, hyz⟩ := gt_iff.mp hbc
    rw [hy] at hy'
    obtain rfl := Option.some.inj hy'
    exact gt_iff.mpr ⟨x, z, hx, hz, by omega⟩

end Score

/-- What a graph takes from floating-point arithmetic and from the standard library: the score of a stored vector, with
    its reciprocal norm, against a query; the layer `⌊-ln (z / 2 ^ 53) / ln m⌋` of a draw `z`; and the queues. -/
structure Machine where
  score : Metric → List UInt32 → List UInt32 → UInt32 → UInt32
  draw : UInt64 → Nat → Nat
  heaps : Heaps Nat UInt32

namespace Machine

/-- The order of `Candidate`: the better score first, of equal or incomparable ones the lower node. -/
def ahead (a b : Scored Nat UInt32) : Bool :=
  Score.gt a.score b.score || (!Score.gt b.score a.score && a.node < b.node)

/-- The queues by that order, and its opposite. -/
def scanning : Heaps Nat UInt32 :=
  ⟨.scan ahead, .scan (fun a b => ahead b a), fun l => l.insertionSort (fun a b => ahead b a = false),
    fun l => List.perm_insertionSort _ l⟩

/-- The whole number that an `f32` is, if it is one of at most 24 bits. -/
def wholeOf (bits : UInt32) : Int :=
  let exponent := bits.toNat / 2 ^ 23 % 2 ^ 8
  let magnitude : Nat := if exponent < 127 then 0 else (2 ^ 23 + bits.toNat % 2 ^ 23) * 2 ^ (exponent - 127) / 2 ^ 23
  if bits.toNat < 2 ^ 31 then magnitude else -magnitude

/-- The bits of the negative of a whole number of at most 24 bits. -/
def negated (n : Nat) : UInt32 :=
  if n = 0 then 0x80000000 else UInt32.ofNat (2 ^ 31 + (n.log2 + 127) * 2 ^ 23 + (n * 2 ^ 23 / 2 ^ n.log2 - 2 ^ 23))

/-- The machine for whole components and the squared distance, which it computes exactly; a draw is compared with the
    powers of `m`. -/
def whole : Machine where
  score _ query stored _ :=
    negated ((query.zip stored).map (fun p => (wholeOf p.1 - wholeOf p.2).natAbs ^ 2)).sum
  draw z m := (List.range Snapshot.maxLevel).countP (fun k => z.toNat * m ^ (k + 1) ≤ 2 ^ 53)
  heaps := scanning

end Machine

/-- SplitMix64 of a row's handle and the seed. -/
def levelHash (row : RowId) (seed : UInt64) : UInt64 :=
  let z := row.value + seed + 0x9E3779B97F4A7C15
  let z := (z ^^^ (z >>> 30)) * 0xBF58476D1CE4E5B9
  let z := (z ^^^ (z >>> 27)) * 0x94D049BB133111EB
  z ^^^ (z >>> 31)

/-- The layer a row's node belongs to. -/
def levelFor (M : Machine) (p : HnswParams) (row : RowId) : UInt8 :=
  UInt8.ofNat (min (M.draw (levelHash row p.seed >>> 11) p.m) Snapshot.maxLevel)

namespace HnswParams

/-- Neighbours kept for each node on layer 0: a product of `usize`, which comes round at `2 ^ 64`. -/
def m0 (p : HnswParams) : Nat := p.m * 2 % 2 ^ 64

/-- Neighbours kept for each node on a layer. -/
def maxAt (p : HnswParams) (layer : Nat) : Nat := if layer = 0 then p.m0 else p.m

end HnswParams

namespace Graph

/-! ## Reading a graph -/

/-- A node's vector. -/
def vector (g : Graph) (node : Nat) : Option (List UInt32) := slice g.vectors (node * g.dimension) g.dimension

/-- A node's neighbours on a layer, none if it is not there. -/
def neighbours (g : Graph) (layer node : Nat) : List Nat := ((g.layers[layer]?).bind (fun l => l[node]?)).getD []

section Build

variable (M : Machine) (metric : Metric)

/-- The score of a node against a query. -/
def scoreOf (g : Graph) (query : List UInt32) (node : Nat) : Option UInt32 := do
  let stored ← g.vector node
  let invNorm ← g.invNorms[node]?
  return M.score metric query stored invNorm

/-- One layer of a graph, as a query sees it. -/
def space (g : Graph) (query : List UInt32) (layer : Nat) : Space Nat UInt32 :=
  ⟨fun n => n < g.len, g.neighbours layer, g.scoreOf M metric query, Score.gt⟩

/-- The beam search on one layer: up to `ef` nodes, best first. -/
def searchLayer (g : Graph) (query : List UInt32) (layer ef : Nat) (entries : List Nat) :
    Option (List (Scored Nat UInt32)) :=
  search M.heaps (g.space M metric query layer) ef (g.len + 1) entries

/-- Descend greedily through so many layers, down to the one above `low`. -/
def descendTo (g : Graph) (query : List UInt32) (low : Nat) : Nat → Scored Nat UInt32 → Option (Scored Nat UInt32)
  | 0, current => some current
  | layers + 1, current => do
      let next ← descend (g.space M metric query (low + 1 + layers)) (g.len + 1) current
      descendTo g query low layers next

/-- How close one node is to another. -/
def closeness (g : Graph) (candidate other : Nat) : Option UInt32 := do
  let query ← g.vector candidate
  g.scoreOf M metric query other

/-- Which candidates to keep as neighbours. -/
def selectNeighbours (g : Graph) (candidates : List (Scored Nat UInt32)) (max : Nat) : Option (List Nat) :=
  select (g.closeness M metric) Score.gt max candidates

/-! ## Linking -/

/-- Change one node's neighbours on one layer, if it has a list there. -/
def modifyAt (g : Graph) (layer node : Nat) (f : List Nat → List Nat) : Graph :=
  { g with layers := g.layers.modify layer (fun l => l.modify node f) }

/-- An edge, unless it is there or would be a loop. -/
def connect (g : Graph) (layer src dst : Nat) : Graph :=
  if src = dst then g
  else g.modifyAt layer src (fun list => if list.contains dst then list else list ++ [dst])

/-- Cut a node's neighbours back to `max`. -/
def prune (g : Graph) (layer node max : Nat) : Option Graph :=
  if (g.neighbours layer node).length ≤ max then some g
  else do
    let query ← g.vector node
    let scored ← (g.neighbours layer node).mapM (fun n => (g.scoreOf M metric query n).map (fun s => ⟨s, n⟩))
    let kept ← g.selectNeighbours M metric (M.heaps.sort scored) max
    return g.modifyAt layer node (fun _ => kept)

/-- Link a node and one of its neighbours both ways. -/
def link (layer node max : Nat) (g : Graph) (neighbour : Nat) : Option Graph :=
  ((g.connect layer node neighbour).connect layer neighbour node).prune M metric layer neighbour max

/-- Link a node on so many layers, the topmost first; what a layer finds are the entries of the next. -/
def linkLayers (p : HnswParams) (node : Nat) (query : List UInt32) : Nat → Graph → List Nat → Option Graph
  | 0, g, _ => some g
  | layer + 1, g, entries => do
      let found ← g.searchLayer M metric query layer p.efConstruction entries
      let chosen ← g.selectNeighbours M metric found (p.maxAt layer)
      let linked ← chosen.foldlM (link M metric layer node (p.maxAt layer)) g
      linkLayers p node query layer linked (if found.isEmpty then entries else found.map Scored.node)

/-- **Link a newly pushed node** into the graph. -/
def insert (p : HnswParams) (g : Graph) (node : Nat) : Option Graph :=
  match g.entry with
  | none => some { g with entry := some node }
  | some entry => do
      let level ← g.levels[node]?
      let entryLevel ← g.levels[entry]?
      let query ← g.vector node
      let score ← g.scoreOf M metric query entry
      let current ← g.descendTo M metric query level.toNat (entryLevel.toNat - level.toNat) ⟨score, entry⟩
      let linked ← linkLayers M metric p node query (min level.toNat entryLevel.toNat + 1) g [current.node]
      return if entryLevel < level then { linked with entry := some node } else linked

end Build

end Graph

/-- Add a node for a row and link it in, as `Graph.insertRow` does. -/
def Graph.addRow (M : Machine) (metric : Metric) (p : HnswParams) (g : Graph) (r : DecodedRow) : Option Graph :=
  (g.pushNode r.1 r.2.1 r.2.2 (levelFor M p r.1)).insert M metric p (nodeOf g.len)

/-- **The linking of the navigable graph**, by the metric that the graph was built for. Where the code would panic, the
    graph stays as it is; `Graph.Sound.addRow` shows that it does not. -/
def hnswLinking (M : Machine) (p : HnswParams) : Linking where
  levelFor := levelFor M p
  insert g index := match g.metric.bind (fun metric => g.insert M metric p (nodeOf index)) with
    | some linked => (linked.layers, linked.entry)
    | none => (g.layers, g.entry)

end IshaVectorDb.Index
