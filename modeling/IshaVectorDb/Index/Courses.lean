import IshaVectorDb.Beam.Seen
import IshaVectorDb.Engine.Query
import IshaVectorDb.Metering.Course

/-!
# `Index.Courses` — a search as its **course**: rows and nodes one after the other, and the charges between them

`Engine.Query` says what a search answers under a budget that is as it is when the search begins. A budget can also be
cancelled while the search runs, which a search only sees when it next charges. Here a search is its course, so that it
can be cancelled before any item of it: each row that is visited, tested or scored is one deed, and each charge a check.
-/

namespace IshaVectorDb.Index

open Format Beam Engine Metering

/-- What is done with one row. -/
inductive Deed
  /-- It was visited or tested, and its score was not computed. -/
  | passed
  /-- Its score was computed. -/
  | scored
deriving DecidableEq

abbrev Searching (α : Type) := Course Deed DbError α

/-- Test whether a row may be returned; the scan scores it if it may. -/
def Query.visit (q : Query) (row : RowId) : Searching Bool :=
  ⟨[.deed (match q.admits row with
    | .ok true => .scored
    | _ => .passed)], some (q.admits row)⟩

/-- Test whether a row may be returned whose score is known. -/
def Query.test (q : Query) (row : RowId) : Searching Bool := ⟨[.deed .passed], some (q.admits row)⟩

/-- Compute so many scores. -/
def scores (n : Nat) : Searching Unit := Course.deeds (List.replicate n .scored)

namespace ExactScan

section

variable (score : Bytes → UInt32 → UInt32) (q : Query)

/-- One row: what was offered, and how many since the last charge. -/
def courseRow (s : TopK × Nat) (r : RowId × Bytes × UInt32) : Searching (TopK × Nat) := do
  if ← q.visit r.1 then
    let top := (s.1.offer ⟨r.1, score r.2.1 r.2.2⟩).1
    if budgetStride ≤ s.2 + 1 then do
      Course.check (s.2 + 1)
      return (top, 0)
    else return (top, s.2 + 1)
  else return s

/-- **The exact scan.** -/
def course (out : TopK) : Searching TopK :=
  if q.topK = 0 then return out
  else do
    let s ← q.rows.foldlM (courseRow score q) (out, 0)
    Course.check s.2
    return s.1

end

end ExactScan

namespace HnswIndex

section

variable (M : Machine) (rowScore : Metric → List UInt32 → Bytes → UInt32 → UInt32) (p : HnswParams) (g : Graph) (q : Query)

/-- Charge what is due after a round; what is left. -/
def courseSettle (charged : Nat) : Searching Nat :=
  if budgetStride ≤ charged then do
    Course.check charged
    return 0
  else return charged

/-- Descend greedily on one layer, a round after another. -/
def courseLayer (layer : Nat) : Nat → Scored Nat UInt32 → Nat → Searching (Scored Nat UInt32 × Nat)
  | 0, _, _ => .reads none
  | fuel + 1, current, charged => do
      let list := g.neighbours layer current.node
      let (next, improved) ← .reads (improve (g.space M q.metric q.vector layer) current false list)
      scores list.length
      let charged ← courseSettle (charged + list.length)
      if improved then courseLayer layer fuel next charged else return (next, charged)

/-- Descend through so many layers, down to layer 1. -/
def courseLayers : Nat → Scored Nat UInt32 → Nat → Searching (Scored Nat UInt32 × Nat)
  | 0, current, charged => return (current, charged)
  | layers + 1, current, charged => do
      let (next, charged) ← courseLayer M g q (layers + 1) (g.len + 1) current charged
      courseLayers layers next charged

/-- The rows found that may be returned, with their scores. -/
def courseAdmitted : List (Scored Nat UInt32) → Searching (List Candidate)
  | [] => return []
  | c :: rest => match g.rows[c.node]? with
    | none => courseAdmitted rest
    | some row => do
        let ok ← q.test row
        let others ← courseAdmitted rest
        return if ok then ⟨row, c.score⟩ :: others else others

/-- `search_layer`: what was found, and the nodes scored for it. -/
def layerSeen (layer ef : Nat) (entries : List Nat) : Option (List (Scored Nat UInt32) × List Nat) :=
  searchSeen M.heaps (g.space M q.metric q.vector layer) ef (g.len + 1) entries

/-- Scan instead. -/
def courseFallback (out : TopK) : Searching TopK := ExactScan.course (rowScore q.metric q.vector) q out

/-- **The search of the graph.** -/
def course (out : TopK) : Searching TopK :=
  if q.topK = 0 then return out
  else if !fits g q then courseFallback rowScore q out
  else match g.entry with
    | none => courseFallback rowScore q out
    | some entry => do
        let score ← .reads (g.scoreOf M q.metric q.vector entry)
        scores 1
        let (current, charged) ← courseLayers M g q (g.layers.length - 1) ⟨score, entry⟩ 0
        let (found, seen) ← .reads (layerSeen M g q 0 (beamWidth p g q) [current.node])
        scores seen.length
        Course.check (charged + found.length)
        let rows ← courseAdmitted g q found
        if rows.length < q.topK ∧ found.length < g.len then courseFallback rowScore q out
        else return out.offerAll rows

end

end HnswIndex

end IshaVectorDb.Index
