import IshaVectorDb.Beam.Marked
import IshaVectorDb.Index.Visited
import IshaVectorDb.Correctness.Graphs

/-!
# `Index.Scratch` — building and **extending** a graph with one set of marks

Construction shares its visited marks: each beam search of each insertion begins on the marks the one before it left, and
extending a graph starts with marks of its own where building it went on with those it had. `Build` is the construction
as it passes the marks along. `Build.insert_eq` says that an insertion is the linking of `Index.Build`, whatever the marks
were; so a graph is a function of its rows alone, and `extend_buildFrom` is that extending is rebuilding.
-/

namespace IshaVectorDb.Index

open Format Beam

namespace Visited

/-- The marks of a graph's nodes, once a traversal has begun on it. -/
def marking (g : Space Nat UInt32) (len : Nat) (hlen : ∀ n, g.has n = true → n < len) : Marking Visited Nat g.has where
  begin v := v.begin len
  seen := seen
  shows v nodes := len ≤ v.stamp.length ∧ Shows v v.stamp.length nodes
  begin_shows v := by
    rw [begin_length]
    exact ⟨Nat.le_max_right _ _, begin_shows v len⟩
  seen_answer {v nodes n} h hn := by
    have hin : n < v.stamp.length := Nat.lt_of_lt_of_le (hlen n hn) h.1
    rw [Bool.eq_iff_iff, seen_answer h.2 n, List.contains_iff_mem]
    exact or_iff_left (by omega)
  seen_old {v nodes n} h hn hmem := by
    have hshows := seen_shows h.2 n
    rw [hshows.length]
    exact ⟨h.1, hshows.length, fun i hi => by rw [hshows.marks i hi, List.mem_cons]; exact
      ⟨fun hor => hor.elim (fun he => he ▸ hmem) id, .inr⟩⟩
  seen_new {v nodes n} h hn _ := by
    have hshows := seen_shows h.2 n
    rw [hshows.length]
    exact ⟨h.1, hshows⟩

end Visited

/-! ## Construction -/

namespace Build

section Construction

variable (M : Machine) (metric : Metric)

/-- `search_layer`. -/
def searchLayer (g : Graph) (query : List UInt32) (entries : List Nat) (layer ef : Nat) (visited : Visited) :
    Option (List (Scored Nat UInt32) × Visited) :=
  searchMarked M.heaps (g.space M metric query layer)
    (Visited.marking (g.space M metric query layer) g.len (fun _ h => by simpa [Graph.space] using h)) ef (g.len + 1)
    entries visited

/-- The layers a node belongs to, from the top down. -/
def linkLayers (p : HnswParams) (node : Nat) (query : List UInt32) :
    Nat → Graph → List Nat → Visited → Option (Graph × Visited)
  | 0, g, _, visited => some (g, visited)
  | layer + 1, g, entries, visited => do
      let (found, visited) ← searchLayer M metric g query entries layer p.efConstruction visited
      let chosen ← g.selectNeighbours M metric found (p.maxAt layer)
      let linked ← chosen.foldlM (Graph.link M metric layer node (p.maxAt layer)) g
      linkLayers p node query layer linked (if found.isEmpty then entries else found.map Scored.node) visited

/-- `insert`. -/
def insert (p : HnswParams) (g : Graph) (node : Nat) (visited : Visited) : Option (Graph × Visited) :=
  match g.entry with
  | none => some ({ g with entry := some node }, visited)
  | some entry => do
      let level ← g.levels[node]?
      let entryLevel ← g.levels[entry]?
      let query ← g.vector node
      let score ← g.scoreOf M metric query entry
      let current ← g.descendTo M metric query level.toNat (entryLevel.toNat - level.toNat) ⟨score, entry⟩
      let (linked, visited) ←
        linkLayers M metric p node query (min level.toNat entryLevel.toNat + 1) g [current.node] visited
      return (if entryLevel < level then { linked with entry := some node } else linked, visited)

/-- One row of the loops of `build_from` and `extend`. -/
def addRow (p : HnswParams) (state : Graph × Visited) (r : DecodedRow) : Option (Graph × Visited) :=
  insert M metric p (state.1.pushNode r.1 r.2.1 r.2.2 (levelFor M p r.1)) (nodeOf state.1.len) state.2

/-- `extend`: add rows to a graph that already covers everything before them, with marks of its own. -/
def extend (p : HnswParams) (g : Graph) (rows : List DecodedRow) : Option Graph :=
  (rows.foldlM (addRow M metric p) (g, .default)).map Prod.fst

/-- `build_from`: build a graph over rows already decoded. -/
def buildFrom (p : HnswParams) (rows : List DecodedRow) (dimension : Nat) : Option Graph :=
  (rows.foldlM (addRow M metric p) ({ Graph.default with dimension := dimension, metric := some metric }, .default)).map
    Prod.fst

end Construction

/-! ## The marks leave no trace -/

variable {M : Machine} {metric : Metric} {p : HnswParams}

variable (M metric) in
theorem searchLayer_eq (g : Graph) (query : List UInt32) (entries : List Nat) (layer ef : Nat) (visited : Visited) :
    (searchLayer M metric g query entries layer ef visited).map Prod.fst = g.searchLayer M metric query layer ef entries :=
  searchMarked_eq ..

/-- A computation that carries marks along, by the one that does not. -/
theorem rel_fst {α : Type} {x : Option (α × Visited)} {y : Option α} (h : x.map Prod.fst = y) :
    Option.Rel (fun a b => a.1 = b) x y := by
  subst h
  cases x with
  | none => exact .none
  | some a => exact .some rfl

theorem map_fst {α : Type} {x : Option (α × Visited)} {y : Option α} (h : Option.Rel (fun a b => a.1 = b) x y) :
    x.map Prod.fst = y := by
  rw [rel_eq h, Option.map_id']

theorem linkLayers_eq (node : Nat) (query : List UInt32) (layers : Nat) (g : Graph) (entries : List Nat)
    (visited : Visited) :
    (linkLayers M metric p node query layers g entries visited).map Prod.fst =
      Graph.linkLayers M metric p node query layers g entries := by
  induction layers generalizing g entries visited with
  | zero => rfl
  | succ layer ih =>
    apply map_fst
    unfold linkLayers Graph.linkLayers
    refine rel_bind (rel_fst (searchLayer_eq M metric g query entries layer p.efConstruction visited)) ?_
    rintro ⟨found, visited⟩ _ rfl
    -- choosing and linking do not look at the marks
    refine rel_bind (rel_refl _) ?_
    rintro chosen _ rfl
    refine rel_bind (rel_refl _) ?_
    rintro linked _ rfl
    exact rel_fst (ih ..)

/-- **An insertion does not depend on the marks it starts with.** -/
theorem insert_eq (g : Graph) (node : Nat) (visited : Visited) :
    (insert M metric p g node visited).map Prod.fst = g.insert M metric p node := by
  apply map_fst
  unfold insert Graph.insert
  cases g.entry with
  | none => exact .some rfl
  | some entry =>
    refine rel_bind (rel_refl _) ?_
    rintro level _ rfl
    refine rel_bind (rel_refl _) ?_
    rintro entryLevel _ rfl
    refine rel_bind (rel_refl _) ?_
    rintro query _ rfl
    refine rel_bind (rel_refl _) ?_
    rintro score _ rfl
    refine rel_bind (rel_refl _) ?_
    rintro current _ rfl
    refine rel_bind (rel_fst (linkLayers_eq node query _ g [current.node] visited)) ?_
    rintro ⟨linked, visited⟩ _ rfl
    exact .some rfl

theorem addRow_rel {state : Graph × Visited} {g : Graph} (h : state.1 = g) (r : DecodedRow) :
    Option.Rel (fun a b => a.1 = b) (addRow M metric p state r) (g.addRow M metric p r) := by
  subst h
  exact rel_fst (insert_eq _ _ state.2)

/-- Whatever marks the rows are added with, the graph is the one that their rows make. -/
theorem addRows_eq (rows : List DecodedRow) (g : Graph) (visited : Visited) :
    (rows.foldlM (addRow M metric p) (g, visited)).map Prod.fst = rows.foldlM (Graph.addRow M metric p) g :=
  map_fst (rel_foldlM (fun _ _ r h => addRow_rel h r) rows rfl)

/-! ## Extending is rebuilding -/

theorem extend_eq (g : Graph) (rows : List DecodedRow) :
    extend M metric p g rows = rows.foldlM (Graph.addRow M metric p) g := addRows_eq rows g .default

theorem buildFrom_eq (rows : List DecodedRow) (dimension : Nat) :
    buildFrom M metric p rows dimension =
      rows.foldlM (Graph.addRow M metric p) { Graph.default with dimension := dimension, metric := some metric } :=
  addRows_eq rows _ .default

/-- Rows of the graph's dimension: construction ends, in the graph that an index keeps. -/
theorem buildFrom_runs {rows : List DecodedRow} {dimension : Nat} (hrows : ∀ r ∈ rows, r.2.1.length = dimension) :
    buildFrom M metric p rows dimension = some (Graph.buildFrom (hnswLinking M p) rows dimension metric) := by
  rw [buildFrom_eq]
  exact ((Graph.wellFormed_new p dimension metric).toSound.extend M metric p hrows rfl).1

variable (M metric p) in
/-- **Extending a graph equals rebuilding it.** The graph built from `a` and extended with `b` is the graph built from `a`
    followed by `b`: its nodes, their levels, the edges of every layer and the entry point, and where one construction
    would panic so would the other. Rows of the graph's dimension never do: both are then the graph that an index keeps,
    so that a search of the one is a search of the other. -/
theorem extend_buildFrom (a b : List DecodedRow) (dimension : Nat) :
    (buildFrom M metric p a dimension).bind (fun g => extend M metric p g b) =
      buildFrom M metric p (a ++ b) dimension ∧
    ((∀ r ∈ a ++ b, r.2.1.length = dimension) →
      buildFrom M metric p (a ++ b) dimension =
        some ((Graph.buildFrom (hnswLinking M p) a dimension metric).extend (hnswLinking M p) b)) := by
  refine ⟨?_, fun hrows => ?_⟩
  · rw [buildFrom_eq, buildFrom_eq, List.foldlM_append]
    exact congrArg _ (funext (fun g => extend_eq g b))
  · rw [buildFrom_runs hrows]
    exact congrArg some (List.foldl_append ..)

end Build

end IshaVectorDb.Index
