import IshaVectorDb.Engine.Collection
import IshaVectorDb.Index.Snapshot

/-!
# `Engine.Search` — finding the nearest documents through an index

A search presents the collection to the database's index as one sequence of rows, lets the index **prepare** (the
navigable graph builds, extends or restores itself and stores a snapshot of what it built), asks it for candidates and
makes hits of them. What scores a row is floating-point arithmetic, and so belongs to the index that is given.
-/

namespace IshaVectorDb.Engine

open Format Interaction Index

/-! ## The rows of a collection -/

/-- The segment index of a row in the memtable. -/
def memtableSegment : UInt32 := 0xFFFFFFFF

/-- A collection's segments and memtable as one sequence of rows. -/
structure CollectionSource where
  state : Session
  dimension : UInt32
  blocks : List VectorBlock
  memtableRows : List MemRow

namespace CollectionSource

/-- Whether the memtable holds a newer version of the document, or a tombstone for it. -/
def shadowed (state : Session) : Option DocId → Bool
  | some id => (state.memtable.get id).isSome
  | none => false

/-- Open every segment's vectors. -/
def build (state : Session) (dimension : UInt32) : Except DbError CollectionSource := do
  let blocks ← state.segments.mapM SegmentData.vectors
  return ⟨state, dimension, blocks, state.memtable.liveRows⟩

/-- Whether a segment's row is the current version of a document. -/
def current (state : Session) (seg : SegmentData) (row : Nat) : Bool :=
  seg.isLive row && !shadowed state (seg.idAt row)

/-- How many rows there are. -/
def len (c : CollectionSource) : Nat :=
  c.memtableRows.length +
    (c.state.segments.map (fun seg => (List.range seg.rows.toNat).countP (current c.state seg))).sum

/-- A segment's rows, as an index visits them. -/
def segmentRows (state : Session) (index : Nat) (seg : SegmentData) (block : VectorBlock) :
    List (RowId × Bytes × UInt32) :=
  (List.range seg.rows.toNat).filterMap (fun row =>
    if current state seg row then match block.row row, seg.invNorm row with
      | some bytes, some norm => some (RowId.new (UInt32.ofNat index) (UInt32.ofNat row), bytes, norm)
      | _, _ => none
    else none)

/-- The memtable's rows. -/
def bufferedRows (c : CollectionSource) : List (RowId × Bytes × UInt32) :=
  c.memtableRows.zipIdx.filterMap (fun p => (c.state.memtable.vectorBytes p.1).map (fun bytes =>
    (RowId.new memtableSegment (UInt32.ofNat p.2), bytes, p.1.invNorm.bits)))

/-- The rows in the order an index visits them: segment by segment, then the memtable. -/
def forEach (c : CollectionSource) : List (RowId × Bytes × UInt32) :=
  ((c.state.segments.zip c.blocks).zipIdx.flatMap (fun p => segmentRows c.state p.2 p.1.1 p.1.2)) ++ c.bufferedRows

/-- A row's vector and reciprocal norm. -/
def vector (c : CollectionSource) (row : RowId) : Option (Bytes × UInt32) :=
  if row.segment = memtableSegment then do
    let mem ← c.memtableRows[row.row.toNat]?
    let bytes ← c.state.memtable.vectorBytes mem
    return (bytes, mem.invNorm.bits)
  else do
    let seg ← c.state.segments[row.segment.toNat]?
    let block ← c.blocks[row.segment.toNat]?
    let bytes ← block.row row.row.toNat
    let norm ← seg.invNorm row.row.toNat
    return (bytes, norm)

/-- Whether a row may be returned; whether the memtable shadows it is not asked. -/
def isLive (c : CollectionSource) (row : RowId) : Bool :=
  if row.segment = memtableSegment then row.row.toNat < c.memtableRows.length
  else match c.state.segments[row.segment.toNat]? with
    | some seg => seg.isLive row.row.toNat
    | none => false

/-- The document a row belongs to. -/
def docId (c : CollectionSource) (row : RowId) : Option DocId :=
  if row.segment = memtableSegment then (c.memtableRows[row.row.toNat]?).map MemRow.id
  else (c.state.segments[row.segment.toNat]?).bind (fun seg => seg.idAt row.row.toNat)

/-- The document at a row, as far as the request wants it. -/
def document (c : CollectionSource) (row : RowId) (inc : Include) : Except DbError (Option Document) :=
  if row.segment = memtableSegment then match c.memtableRows[row.row.toNat]? with
    | none => .ok none
    | some mem => do
        let vector ← c.state.readMemVector mem inc
        return some ⟨mem.id, vector, if inc.metadata then mem.metadata.getD Metadata.new else Metadata.new,
          if inc.content then mem.content else none⟩
  else match c.state.segments[row.segment.toNat]? with
    | some seg => seg.document row.row.toNat inc
    | none => .ok none

/-- A row's bytes as components, cut or filled up with zeroes to the dimension. -/
def decodeRow (bytes : Bytes) (dimension : Nat) : List UInt32 :=
  (words32 bytes).take dimension ++ List.replicate (dimension - (words32 bytes).length) 0

/-- Every row, decoded once. -/
def decodeRows (c : CollectionSource) : List DecodedRow :=
  c.forEach.map (fun r => (r.1, decodeRow r.2.1 c.dimension.toNat, r.2.2))

end CollectionSource

/-- Rows as an index is built from them: what is said to be their number, and what a visit yields in order. -/
structure VectorSource where
  dimension : UInt32
  len : Nat
  forEach : List (RowId × Bytes × UInt32)

/-- Every row of a source, decoded once. -/
def VectorSource.decodeRows (source : VectorSource) : List DecodedRow :=
  source.forEach.map (fun r => (r.1, CollectionSource.decodeRow r.2.1 source.dimension.toNat, r.2.2))

/-- A collection as a source of rows. -/
def CollectionSource.asVectorSource (c : CollectionSource) : VectorSource := ⟨c.dimension, c.len, c.forEach⟩

/-! ## Snapshots of an index -/

variable {S G : Type}

/-- Where an index may keep a snapshot of itself. -/
structure Snapshots (S : Type) where
  load : Action S (Option Bytes)
  store : Bytes → Action S Unit

namespace StoredSnapshots

/-- A snapshot larger than this is refused. -/
def maxLen : Nat := 2 ^ 32

/-- The bytes of a snapshot's file, if it can be read whole and is not empty. -/
def read (path : DbPath) : Action S (Option Bytes) := do
  let opened ← Proc.attempt (call (.openFile path .read))
  match opened with
  | .error _ => return none
  | .ok file => do
      let found ← Proc.attempt (call (.len file))
      match found with
      | .error _ => return none
      | .ok len =>
          if len = 0 ∨ maxLen < len then return none
          else do
            let bytes ← Proc.attempt (call (.readAt file len 0))
            match bytes with
            | .error _ => return none
            | .ok bytes => return if bytes.length = len then some bytes else none

/-- The payload of a stored snapshot; whatever is wrong with it, there is then none. -/
def load (collection : Str) (kind : IndexKind) : Action S (Option Bytes) :=
  match Layout.indexFile collection kind 0 with
  | .error _ => return none
  | .ok path => do
      let found ← read path
      match found with
      | none => return none
      | some bytes => match openBlock bytes .index with
        | .ok payload => return some payload
        | .error _ => return none

/-- Write a snapshot over the one before. -/
def store (collection : Str) (kind : IndexKind) (bytes : Bytes) : Action S Unit := do
  let dir ← Proc.lift (Layout.indexDir collection)
  call (.createDirAll dir)
  let path ← Proc.lift (Layout.indexFile collection kind 0)
  writeFile path (encodeBlock .index bytes)

/-- One collection's snapshot slot. -/
def new (collection : Str) (kind : IndexKind) : Snapshots S := ⟨load collection kind, store collection kind⟩

end StoredSnapshots

/-! ## Indexes -/

/-- Per-query knobs. -/
structure SearchParams where
  efSearch : Option Nat
  nProbe : Option Nat

/-- What cancels a search: a flag, or a number of candidates. -/
structure Budget where
  cancelled : Bool
  maxScanned : Option Nat

/-- A filter, by the check that it is well formed and by the rows that it matches. -/
structure RowFilter where
  validate : Except DbError Unit
  matchesRow : CollectionSource → RowId → Except DbError Bool

/-- A query as an index gets it. -/
structure SearchCtx where
  query : List UInt32
  topK : Nat
  metric : Metric
  source : CollectionSource
  filter : Option RowFilter
  minScore : Option UInt32
  params : SearchParams
  budget : Budget

/-- An index with memory `G`, shared by the collections of a database. -/
structure VectorIndex (G : Type) where
  kind : IndexKind
  isExact : Bool
  prepare : CollectionSource → Metric → Snapshots G → Action G Unit
  search : G → SearchCtx → Except DbError (List Index.Candidate)

/-- How rows are scored and the best kept: the floating-point side of a search. -/
abbrev Scan (G : Type) := G → SearchCtx → Except DbError (List Index.Candidate)

/-- The exact scan prepares nothing. -/
def ExactScan (scan : Scan Unit) : VectorIndex Unit := ⟨.flat, true, fun _ _ _ => return (), scan⟩

namespace HnswIndex

/-- The graph a stored snapshot gives for the rows, if it is one for them. -/
def restore (params : HnswParams) (metric : Metric) (dimension rows : Nat) (decoded : List DecodedRow)
    (stored : Option Bytes) : Option Graph := do
  let bytes ← stored
  let header ← Snapshot.decodeHeader bytes params
  if header.metric = metric ∧ header.dimension = dimension ∧ header.nodes = rows ∧ header.paramsMatch then
    Snapshot.decode bytes header decoded
  else none

/-- Whether the graph in memory stays: it is valid, or covers more rows than the new one. -/
def keepsExisting (g new : Graph) (rows dimension : Nat) (metric : Metric) : Bool :=
  g.isValidFor rows dimension metric || (g.metric = some metric && g.dimension = dimension && new.len < g.len)

/-- Take a graph into use. -/
def adopt (new : Graph) (rows dimension : Nat) (metric : Metric) : Action Graph Unit :=
  Proc.modify (fun g => if keepsExisting g new rows dimension metric then g else new)

/-- Build what a query needs, unless the graph in memory already has as many rows. -/
def prepare (linking : Linking) (params : HnswParams) (source : VectorSource) (metric : Metric)
    (snapshots : Snapshots Graph) : Action Graph Unit := do
  let dimension := source.dimension.toNat
  let rows := source.len
  let g ← Proc.get
  if g.isValidFor rows dimension metric then return ()
  else do
    let decoded := source.decodeRows
    let stored ← snapshots.load
    match restore params metric dimension rows decoded stored with
    | some restored => adopt restored rows dimension metric
    | none =>
        if 0 < g.len && g.isPrefixOf decoded dimension metric then do
          let extended := g.extend linking (decoded.drop g.len)
          Proc.modify (fun _ => extended)
          let _ ← Proc.attempt (snapshots.store (Snapshot.encode extended params))
          return ()
        else do
          let built := Graph.buildFrom linking decoded dimension metric
          let _ ← Proc.attempt (snapshots.store (Snapshot.encode built params))
          adopt built rows dimension metric

end HnswIndex

/-- The navigable graph. -/
def HnswIndex (linking : Linking) (params : HnswParams) (scan : Scan Graph) : VectorIndex Graph :=
  ⟨.hnsw, false, fun source => HnswIndex.prepare linking params.orDefault source.asVectorSource, scan⟩

/-! ## Searching -/

/-- A similarity query. -/
structure SearchRequest where
  vector : VectorView
  topK : Nat
  metric : Option Metric
  filter : Option RowFilter
  minScore : Option UInt32
  inc : Include
  params : SearchParams

/-- One matching document. -/
structure Hit where
  id : DocId
  score : UInt32
  document : Option Document

/-- `f32::total_cmp` as an order on numbers. -/
def totalKey (bits : UInt32) : Nat :=
  if bits.toNat < 2 ^ 31 then bits.toNat + 2 ^ 31 else 2 ^ 32 - 1 - bits.toNat

/-- Best first; equal scores by id. -/
def Hit.before (a b : Hit) : Prop :=
  totalKey b.score < totalKey a.score ∨ totalKey a.score = totalKey b.score ∧ a.id ≤ b.id

instance (a b : Hit) : Decidable (a.before b) := by unfold Hit.before; infer_instance

def checkTopK (topK : Nat) : Except DbError Unit :=
  if topK = 0 ∨ Limits.maxTopK < topK then .error (.validation (.topKOutOfRange topK Limits.maxTopK)) else .ok ()

/-- The checks on a request, and what the index gets of it. -/
def planSearch (s : Session) (request : SearchRequest) (budget : Budget) : Except DbError SearchCtx := do
  checkTopK request.topK
  request.vector.checkDimension s.name.bytes s.catalog.dimension
  request.vector.checkFinite
  let source ← CollectionSource.build s s.catalog.dimension
  match request.filter with
  | some f => f.validate
  | none => .ok ()
  return ⟨request.vector.toF32, request.topK, request.metric.getD s.catalog.metric, source, request.filter,
    request.minScore, request.params, budget⟩

/-- The hit that a candidate makes; a row without a document makes none. -/
def hitOf (source : CollectionSource) (inc : Include) (c : Index.Candidate) : Except DbError (Option Hit) :=
  match source.docId c.row with
  | none => .ok none
  | some id => do
      let document ← if inc = ⟨false, false, false⟩ then .ok none else source.document c.row inc
      return some ⟨id, c.score, document⟩

/-- The hits, best first. -/
def hitsOf (source : CollectionSource) (inc : Include) (found : List Index.Candidate) : Except DbError (List Hit) := do
  let hits ← found.mapM (hitOf source inc)
  return (hits.filterMap id).insertionSort Hit.before

/-- A collection and the index it is searched with. -/
structure Searching (G : Type) where
  graph : G
  session : Session

/-- `Collection::search_with_budget`. -/
def search (index : VectorIndex G) (request : SearchRequest) (budget : Budget) : Action (Searching G) (List Hit) := do
  let x ← Proc.get
  let ctx ← Proc.lift (planSearch x.session request budget)
  Proc.zoom Searching.graph (fun g x => { x with graph := g })
    (index.prepare ctx.source ctx.metric (StoredSnapshots.new x.session.name index.kind))
  let x ← Proc.get
  let found ← Proc.lift (index.search x.graph ctx)
  Proc.lift (hitsOf ctx.source request.inc found)

end IshaVectorDb.Engine
