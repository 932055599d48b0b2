import IshaVectorDb.Engine.Search
import IshaVectorDb.Index.Build

/-!
# `Engine.Query` — **answering a query**: the exact scan and the search of the graph

A search offers rows with their scores to a collector of the best `k`. The exact scan offers every row that is live and
matches the filter. The graph's search descends greedily to a node near the query, looks around it with a beam on layer
0, and offers what it found and may return; where the graph does not fit the rows, or gives too few of them, it scans.

A search that reads outside the graph's arrays has no result (`none`); one that is cancelled, or whose filter fails, has
an error.
-/

namespace IshaVectorDb.Index

open Format Beam Engine

/-! ## The best `k` -/

/-- `TopK`: the candidates kept, and how many were offered. -/
structure TopK where
  k : Nat
  heap : List Candidate
  minScore : Option UInt32
  considered : Nat

namespace TopK

/-- A candidate gives way before another: its score is lower in the total order, or it is the same and its row is the
    larger. -/
def worse (a b : Candidate) : Bool :=
  totalKey a.score < totalKey b.score || (totalKey a.score = totalKey b.score && b.row.value < a.row.value)

/-- Keep the best `k` of those not below the minimum. -/
def new (k : Nat) (minScore : Option UInt32) : TopK := ⟨k, [], minScore, 0⟩

/-- Offer a candidate; whether it was kept. -/
def offer (t : TopK) (c : Candidate) : TopK × Bool :=
  let t := { t with considered := t.considered + 1 }
  if t.k = 0 then (t, false)
  else if t.minScore.any (fun least => Score.gt least c.score) then (t, false)
  else if t.heap.length < t.k then ({ t with heap := c :: t.heap }, true)
  else match Queue.foremost worse t.heap with
    | some worst =>
        if worse worst c then ({ t with heap := c :: t.heap.erase worst }, true) else (t, false)
    | none => (t, false)

/-- What was kept, best first. -/
def intoSorted (t : TopK) : List Candidate := t.heap.insertionSort (fun a b => worse a b = false)

/-- Whether the collector is full, so the cut-off is meaningful. -/
def isFull (t : TopK) : Bool := t.k ≤ t.heap.length

/-- The lowest score currently kept, once full. -/
def cutoff (t : TopK) : Option UInt32 := if t.isFull then (Queue.foremost worse t.heap).map Candidate.score else none

/-- Offer one candidate after another. -/
def offerAll (t : TopK) (cs : List Candidate) : TopK := cs.foldl (fun t c => (t.offer c).1) t

end TopK

/-! ## A query -/

/-- A query as an index answers it, over any rows: those that the source visits, in its order, and the number that it
    says they are. -/
structure Query where
  vector : List UInt32
  topK : Nat
  metric : Metric
  rows : List (RowId × Bytes × UInt32)
  len : Nat
  isLive : RowId → Bool
  filter : Option (RowId → Except DbError Bool)
  params : SearchParams
  budget : Budget

namespace Query

/-- Whether a row may be returned: it is live and matches the filter. -/
def admits (q : Query) (row : RowId) : Except DbError Bool :=
  if !q.isLive row then .ok false
  else match q.filter with
    | some f => f row
    | none => .ok true

/-- Charge so many candidates, `scanned` being those before. -/
def charge (q : Query) (scanned candidates : Nat) : Except DbError Nat :=
  if q.budget.cancelled then .error .cancelled
  else if q.budget.maxScanned.any (fun most => most < scanned + candidates) then .error .cancelled
  else .ok (scanned + candidates)

end Query

/-- What a search has done: what it keeps, the candidates not charged yet and those that are. -/
structure Searched where
  top : TopK
  charged : Nat
  scanned : Nat

namespace ExactScan

/-- Candidates examined between two checks of the budget. -/
def budgetStride : Nat := 1024

section

variable (score : Bytes → UInt32 → UInt32) (q : Query)

/-- Score a row, if it may be returned. -/
def scanRow (s : Searched) (r : RowId × Bytes × UInt32) : Except DbError Searched := do
  if ← q.admits r.1 then
    let top := (s.top.offer ⟨r.1, score r.2.1 r.2.2⟩).1
    if budgetStride ≤ s.charged + 1 then return ⟨top, 0, ← q.charge s.scanned (s.charged + 1)⟩
    else return ⟨top, s.charged + 1, s.scanned⟩
  else return s

/-- **The exact scan**: every row that may be returned is offered. -/
def search (scanned : Nat) (out : TopK) : Except DbError (TopK × Nat) := do
  if q.topK = 0 then return (out, scanned)
  else
    let s ← q.rows.foldlM (scanRow score q) ⟨out, 0, scanned⟩
    return (s.top, ← q.charge s.scanned s.charged)

end

end ExactScan

/-- How a row's bytes and reciprocal norm are scored against a query: the floating-point side of a search. -/
abbrev RowScore := Metric → List UInt32 → Bytes → UInt32 → UInt32

/-- A collection's query, as one over rows. -/
def asQuery (ctx : SearchCtx) : Query :=
  ⟨ctx.query, ctx.topK, ctx.metric, ctx.source.forEach, ctx.source.len, ctx.source.isLive,
    ctx.filter.map (fun f => f.matchesRow ctx.source), ctx.params, ctx.budget⟩

/-- The exact scan of a collection, and the best that it keeps. -/
def exactScan (rowScore : RowScore) : Scan Unit := fun _ ctx => do
  let (top, _) ← ExactScan.search (rowScore ctx.metric ctx.query) (asQuery ctx) 0 (TopK.new ctx.topK ctx.minScore)
  return top.intoSorted

/-! ## Searching the graph -/

/-- A computation that may panic, as where it reads outside the graph, and then has no result, or fail. -/
abbrev Answering (α : Type) := ExceptT DbError Option α

namespace Answering

/-- What may read outside the graph. -/
def reads {α : Type} (o : Option α) : Answering α := o.map .ok

/-- What may fail. -/
def checks {α : Type} (e : Except DbError α) : Answering α := some e

end Answering

/-- Candidates charged and not charged so far. -/
structure Meter where
  charged : Nat
  scanned : Nat

namespace HnswIndex

/-- Candidates scored between two checks of the budget. -/
def budgetStride : Nat := 256

section

variable (M : Machine) (rowScore : Metric → List UInt32 → Bytes → UInt32 → UInt32) (p : HnswParams) (g : Graph) (q : Query)

/-- Charge what is due after a round. -/
def settle (m : Meter) : Except DbError Meter := do
  if budgetStride ≤ m.charged then return ⟨0, ← q.charge m.scanned m.charged⟩ else return m

/-- Descend greedily on one layer, a round after another. -/
def descendLayer (layer : Nat) : Nat → Scored Nat UInt32 → Meter → Answering (Scored Nat UInt32 × Meter)
  | 0, _, _ => .reads none
  | fuel + 1, current, m => do
      let list := g.neighbours layer current.node
      let (next, improved) ← .reads (improve (g.space M q.metric q.vector layer) current false list)
      let m ← .checks (settle q ⟨m.charged + list.length, m.scanned⟩)
      if improved then descendLayer layer fuel next m else return (next, m)

/-- Descend through so many layers, down to layer 1. -/
def descendLayers : Nat → Scored Nat UInt32 → Meter → Answering (Scored Nat UInt32 × Meter)
  | 0, current, m => return (current, m)
  | layers + 1, current, m => do
      let (next, m) ← descendLayer M g q (layers + 1) (g.len + 1) current m
      descendLayers layers next m

/-- How wide the beam is: at least as wide as the answer, wider under a filter. -/
def beamWidth : Nat :=
  let ef := max (q.params.efSearch.getD p.efSearch) q.topK
  if q.filter.isSome then min (ef * 4) (max g.len 1) else ef

/-- The rows found that may be returned, with their scores. -/
def admitted : List (Scored Nat UInt32) → Except DbError (List Candidate)
  | [] => .ok []
  | c :: rest => match g.rows[c.node]? with
    | none => admitted rest
    | some row => do
        let ok ← q.admits row
        let others ← admitted rest
        return if ok then ⟨row, c.score⟩ :: others else others

/-- Scan instead. -/
def fallback (scanned : Nat) (out : TopK) : Except DbError (TopK × Nat) :=
  ExactScan.search (rowScore q.metric q.vector) q scanned out

/-- Whether the graph is one over the query's rows. -/
def fits : Bool := g.len = q.len && 0 < g.len && g.metric = some q.metric && g.dimension = q.vector.length

/-- **The search of the graph**, by a search of its lowest layer, for so many nodes and from these. -/
def searchBy (lowest : Nat → List Nat → Option (List (Scored Nat UInt32))) (out : TopK) : Answering (TopK × Nat) :=
  if q.topK = 0 then return (out, 0)
  else if !fits g q then .checks (fallback rowScore q 0 out)
  else match g.entry with
    | none => .checks (fallback rowScore q 0 out)
    | some entry => do
        let score ← .reads (g.scoreOf M q.metric q.vector entry)
        let (current, m) ← descendLayers M g q (g.layers.length - 1) ⟨score, entry⟩ ⟨0, 0⟩
        let found ← .reads (lowest (beamWidth p g q) [current.node])
        let scanned ← .checks (q.charge m.scanned (m.charged + found.length))
        let rows ← .checks (admitted g q found)
        if rows.length < q.topK ∧ found.length < g.len then .checks (fallback rowScore q scanned out)
        else return (out.offerAll rows, scanned)

/-- **The search of the graph**, whose sort returns whatever it is given. -/
def search (out : TopK) : Answering (TopK × Nat) :=
  searchBy M rowScore p g q (g.searchLayer M q.metric q.vector 0) out

end

end HnswIndex

/-- The search of the graph of a collection, and the best that it keeps; `outside` stands for a read outside the graph's
    arrays, where the code would panic. -/
def graphScan (M : Machine) (rowScore : RowScore) (p : HnswParams) (outside : Except DbError (List Candidate)) : Scan Graph :=
  fun g ctx => match HnswIndex.search M rowScore p g (asQuery ctx) (TopK.new ctx.topK ctx.minScore) with
    | some r => r.map (fun found => found.1.intoSorted)
    | none => outside

end IshaVectorDb.Index
