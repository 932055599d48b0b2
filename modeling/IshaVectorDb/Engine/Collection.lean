import IshaVectorDb.Engine.ManifestStore
import IshaVectorDb.Engine.Wal

/-!
# `Engine.Collection` — where documents are written, read, flushed and compacted

A write is logged, then applied to the memtable; a flush folds the memtable into a new segment, marks what it
supersedes dead in the older segments, commits the manifest and empties the log; a compaction rewrites the
live rows of some segments into one. Every operation runs under the collection's lock, so it is one process.
-/

namespace IshaVectorDb.Engine

open Format Interaction

variable {S : Type}

/-- How to open a database. -/
structure Config where
  createIfMissing : Bool
  readOnly : Bool
  durability : Durability
  flushThresholdBytes : Nat
deriving DecidableEq

/-- What the engine is given from outside: its configuration, the clock's reading and the norm. -/
structure Env where
  config : Config
  nowMs : UInt64
  invNorm : InvNorm

/-- Everything mutable about a collection. -/
structure CollState where
  memtable : Memtable
  segments : List SegmentData
  wal : WalWriter
  nextSegmentId : UInt64
  nextTxnHint : UInt64

/-- One open collection. -/
structure CollInner where
  catalog : Catalog
  state : CollState

/-- What an operation on a collection works on: the database's manifest store and the collection. -/
structure Session where
  store : ManifestStore
  coll : CollInner

namespace Session

def catalog (s : Session) : Catalog := s.coll.catalog

def name (s : Session) : Str := s.coll.catalog.name

def memtable (s : Session) : Memtable := s.coll.state.memtable

def segments (s : Session) : List SegmentData := s.coll.state.segments

def wal (s : Session) : WalWriter := s.coll.state.wal

def nextSegmentId (s : Session) : UInt64 := s.coll.state.nextSegmentId

def withStore (s : Session) (store : ManifestStore) : Session := { s with store := store }

def withState (s : Session) (f : CollState → CollState) : Session :=
  { s with coll := { s.coll with state := f s.coll.state } }

def withMemtable (s : Session) (memtable : Memtable) : Session :=
  s.withState (fun c => { c with memtable := memtable })

def withSegments (s : Session) (segments : List SegmentData) : Session :=
  s.withState (fun c => { c with segments := segments })

def withWal (s : Session) (wal : WalWriter) : Session := s.withState (fun c => { c with wal := wal })

end Session

/-- Run an action on the collection's log. -/
def onWal {α : Type} (m : Action WalWriter α) : Action Session α := Proc.zoom Session.wal (fun w s => s.withWal w) m

/-- Run an action on the manifest store. -/
def onStore {α : Type} (m : Action ManifestStore α) : Action Session α :=
  Proc.zoom Session.store (fun store s => s.withStore store) m

/-- Run an action on the list of segments. -/
def onSegments {α : Type} (m : Action (List SegmentData) α) : Action Session α :=
  Proc.zoom Session.segments (fun segments s => s.withSegments segments) m

/-! ## Reading -/

/-- Where a document currently lives. -/
inductive Located
  | memtable
  | segment (index row : Nat)
deriving DecidableEq, Repr

/-- A live row of the segment for the document. -/
def SegmentData.liveRowOf (seg : SegmentData) (id : DocId) : Option Nat :=
  match seg.rowOf id with
  | some row => if seg.isLive row then some row else none
  | none => none

/-- The newest segment first. -/
def locateIn : List SegmentData → DocId → Option (Nat × Nat)
  | [], _ => none
  | seg :: rest, id => match locateIn rest id with
    | some (index, row) => some (index + 1, row)
    | none => (seg.liveRowOf id).map (fun row => (0, row))

namespace Session

/-- Find where a document lives; the memtable holds the newest state, a tombstone there included. -/
def locate (s : Session) (id : DocId) : Option Located :=
  match s.memtable.get id with
  | some .deleted => none
  | some (.present _) => some .memtable
  | none => (locateIn s.segments id).map (fun p => .segment p.1 p.2)

/-- Whether any segment holds a live row for the document. -/
def segmentHasLive (s : Session) (id : DocId) : Bool := s.segments.any (fun seg => (seg.liveRowOf id).isSome)

/-- Live documents, counting the memtable's shadowing of segment rows. -/
def liveCount (s : Session) : Nat :=
  let onDisk := (s.segments.map SegmentData.liveCount).sum
  let shadowed := s.memtable.liveRows.countP (fun row => s.segmentHasLive row.id)
  let hidden := s.memtable.deletedIds.countP (fun id => s.segmentHasLive id)
  onDisk + s.memtable.len - shadowed - hidden

/-- `Collection::count`. -/
def count (s : Session) : Nat := s.liveCount

/-- `Collection::contains`. -/
def contains (s : Session) (id : DocId) : Bool := (s.locate id).isSome

/-- The vector of a memtable row, as a read wants it. -/
def readMemVector (s : Session) (row : MemRow) (inc : Include) : Except DbError (Option (List UInt32)) :=
  if inc.vector then
    match s.memtable.vectorBytes row with
    | none => .error (.internal "memtable row lost its vector")
    | some bytes => do
        let view ← VectorView.ofRaw .f32 bytes s.catalog.dimension
        return some view.toF32
  else .ok none

/-- `Collection::get_with`. -/
def getWith (s : Session) (id : DocId) (inc : Include) : Except DbError (Option Document) :=
  match s.locate id with
  | none => .ok none
  | some .memtable => match s.memtable.get id with
    | some (.present row) => do
        let vector ← s.readMemVector row inc
        return some ⟨row.id, vector, if inc.metadata then row.metadata.getD Metadata.new else Metadata.new,
          if inc.content then row.content else none⟩
    | _ => .ok none
  | some (.segment index row) => match s.segments[index]? with
    | some seg => seg.document row inc
    | none => .ok none

/-- A segment's live ids that the memtable says nothing about, in row order. -/
def segmentIds (s : Session) (seg : SegmentData) : List DocId :=
  (List.range seg.rows.toNat).filterMap (fun row =>
    if seg.isLive row then match seg.idAt row with
      | some id => if (s.memtable.get id).isNone then some id else none
      | none => none
    else none)

/-- `Collection::ids`: every live id, sorted. -/
def ids (s : Session) : List DocId :=
  let found := s.segments.flatMap s.segmentIds ++ s.memtable.liveRows.map MemRow.id
  (found.insertionSort (· ≤ ·)).destutter (· ≠ ·)

end Session

/-! ## Committing and flushing -/

/-- Refuse a write on a read-only database. -/
def checkWritable (env : Env) (operation : String) : Action S Unit :=
  if env.config.readOnly then Proc.throw (.readOnly operation) else return ()

/-- Rewrite the collection's manifest entry and commit. -/
def commitCollection (env : Env) (entry : CollectionEntry) : Action Session Unit := do
  let s ← Proc.get
  onStore (ManifestStore.commit (Manifest.withEntry s.store.current entry) env.nowMs)

namespace SegmentData

/-- Kill the rows of several documents, saying whether any changed. -/
def killIds (seg : SegmentData) : List DocId → Bool × SegmentData
  | [] => (false, seg)
  | id :: rest => match seg.rowOf id with
    | none => seg.killIds rest
    | some row =>
        let (changed, seg') := seg.kill row
        let (later, seg'') := seg'.killIds rest
        (changed || later, seg'')

/-- Mark superseded and deleted documents dead and, if any was live, rewrite the bitmap's file. -/
def supersede (collection : Str) (ids : List DocId) : Action SegmentData SegmentRef := do
  let seg ← Proc.get
  Proc.modify (fun seg => (seg.killIds ids).2)
  if (seg.killIds ids).1 then do
    let _ ← persistTombstones collection
    let seg ← Proc.get
    return seg.ref
  else do
    let seg ← Proc.get
    return seg.ref

end SegmentData

/-- The manifest entry for a list of segments. -/
def entryFor (s : Session) (refs : List SegmentRef) : CollectionEntry :=
  ⟨s.name, refs, none, s.wal.nextSequence, UInt64.ofNat (s.segments.map SegmentData.liveCount).sum,
    Manifest.sumRows refs⟩

/-- Open the segment just flushed and take it into the list; the files of an empty one are removed. -/
def adoptSegment (segment : SegmentRef) (refs : List SegmentRef) : Action Session (List SegmentRef) := do
  let s ← Proc.get
  if 0 < segment.rows then do
    let opened ← SegmentData.open s.catalog segment
    Proc.modify (fun s => s.withSegments (s.segments ++ [opened]))
    return refs ++ [segment]
  else do
    removeSegment s.name segment.id
    return refs

/-- Empty the log, and the memtable with it. -/
def checkpoint (env : Env) (segmentId : UInt64) : Action Session Unit := do
  let s ← Proc.get
  let walPath ← Proc.lift (Layout.walFile s.name 1)
  let file ← call (.openFile walPath .readWrite)
  call (.truncate file 0)
  call (.syncData file)
  Proc.modify (fun s => s.withState (fun c => { c with
    memtable := c.memtable.clear
    nextSegmentId := segmentId + 1 }))
  let wal ← WalWriter.open walPath s.wal.nextSequence env.config.durability
  Proc.modify (fun s => s.withWal wal)

/-- Fold the memtable into a new segment. -/
def doFlush (env : Env) : Action Session Unit := do
  let s ← Proc.get
  if s.memtable.isEmpty then return ()
  else do
    let result ← flushMemtable s.catalog s.nextSegmentId s.memtable
    let superseded := s.memtable.liveRows.map MemRow.id
    let refs ← onSegments (Proc.iterMut (SegmentData.supersede s.name (superseded ++ result.pendingDeletions)))
    let refs ← adoptSegment result.segment refs
    let now ← Proc.get
    commitCollection env (entryFor now refs)
    checkpoint env s.nextSegmentId

/-- Flush when the memtable has grown to the threshold. -/
def maybeFlush (env : Env) : Action Session Unit := do
  let s ← Proc.get
  if env.config.flushThresholdBytes ≤ s.memtable.byteSize then doFlush env else return ()

/-- `Collection::flush`. -/
def flush (env : Env) : Action Session Unit := if env.config.readOnly then return () else doFlush env

/-! ## Writing -/

/-- The metadata as it is logged; none is no bytes. -/
def encodeMetadata : Option Metadata → Except DbError Bytes
  | some m => m.encode
  | none => .ok []

/-- Log a document, then apply it. -/
def applyPut (env : Env) (doc : DocumentInput) : Action Session Unit := do
  let metadata ← Proc.lift (encodeMetadata doc.metadata)
  let _ ← onWal (WalWriter.append (.put doc.id.toBytes doc.vector.toBytes metadata doc.content))
  let s ← Proc.get
  let memtable ← Proc.lift (s.memtable.putView env.invNorm doc.id doc.vector doc.metadata doc.content)
  Proc.modify (fun s => s.withMemtable memtable)

/-- What a caller's document must satisfy here. -/
def validate (s : Session) (doc : DocumentInput) : Except DbError Unit :=
  doc.validate s.name.bytes s.catalog.dimension s.catalog.idKind

/-- `Collection::insert`. -/
def insert (env : Env) (doc : DocumentInput) : Action Session Unit := do
  checkWritable env "insert"
  let s ← Proc.get
  Proc.lift (validate s doc)
  if (s.locate doc.id).isSome then Proc.throw (.duplicateId s.name doc.id.display)
  else do
    applyPut env doc
    maybeFlush env

/-- What an upsert did. -/
inductive UpsertOutcome
  | inserted
  | updated
deriving DecidableEq, Repr

/-- `Collection::upsert`. -/
def upsert (env : Env) (doc : DocumentInput) : Action Session UpsertOutcome := do
  checkWritable env "upsert"
  let s ← Proc.get
  Proc.lift (validate s doc)
  applyPut env doc
  maybeFlush env
  return if (s.locate doc.id).isSome then .updated else .inserted

/-- `Collection::delete`; the id is not checked. -/
def delete (env : Env) (id : DocId) : Action Session Bool := do
  checkWritable env "delete"
  let s ← Proc.get
  let _ ← onWal (WalWriter.append (.delete id.toBytes))
  Proc.modify (fun s => s.withMemtable (s.memtable.delete id))
  maybeFlush env
  return (s.locate id).isSome

/-- The checks on one operation of a batch. -/
def validateOp (s : Session) : BatchOp → Except DbError Unit
  | .upsert id vector metadata _ => do
      id.validate s.catalog.idKind
      let view ← VectorView.ofRaw .f32 vector s.catalog.dimension
      view.validate s.name.bytes s.catalog.dimension
      DocumentInput.checkMetadata metadata
  | .delete id => id.validate s.catalog.idKind

/-- Check every operation, naming the first that fails. -/
def validateOps (s : Session) (total : Nat) : Nat → List BatchOp → Except DbError Unit
  | _, [] => .ok ()
  | index, op :: rest => match validateOp s op with
    | .ok () => validateOps s total (index + 1) rest
    | .error e => .error (.aborted index total e)

/-- Count one operation. -/
def BatchReport.countOp (s : Session) (r : BatchReport) (op : BatchOp) : BatchReport :=
  match op, (s.locate op.id).isSome with
  | .upsert _ _ _ _, true => { r with updated := r.updated + 1 }
  | .upsert _ _ _ _, false => { r with inserted := r.inserted + 1 }
  | .delete _, true => { r with deleted := r.deleted + 1 }
  | .delete _, false => { r with missingDeletes := r.missingDeletes + 1 }

/-- One operation as it is logged. -/
def BatchOp.toWal : BatchOp → Except DbError WalOp
  | .upsert id vector metadata content => do
      let encoded ← encodeMetadata metadata
      return .put id.toBytes vector encoded content
  | .delete id => .ok (.delete id.toBytes)

/-- Apply one operation of a batch to the memtable. -/
def BatchOp.apply (invNorm : InvNorm) (m : Memtable) : BatchOp → Except DbError Memtable
  | .upsert id vector metadata content => m.putBytes invNorm id vector metadata content
  | .delete id => .ok (m.delete id)

/-- `Collection::write_batch`: every operation, or none of them. -/
def writeBatch (env : Env) (batch : WriteBatch) : Action Session BatchReport := do
  checkWritable env "write a batch"
  Proc.lift batch.validate
  if batch.ops.isEmpty then return BatchReport.zero
  else do
    let s ← Proc.get
    Proc.lift (validateOps s batch.ops.length 0 batch.ops)
    let walOps ← Proc.lift (batch.ops.mapM BatchOp.toWal)
    let txn ← onWal (WalWriter.appendGroup walOps)
    Proc.modify (fun s => s.withState (fun c => { c with nextTxnHint := saturatingSucc txn }))
    let memtable ← Proc.lift (batch.ops.foldlM (BatchOp.apply env.invNorm) s.memtable)
    Proc.modify (fun s => s.withMemtable memtable)
    maybeFlush env
    return batch.ops.foldl (BatchReport.countOp s) BatchReport.zero

/-! ## Compacting -/

/-- Which share of dead rows makes a segment worth rewriting, as a test on the counts of dead and of all
    rows. -/
structure CompactOptions where
  meets : Nat → Nat → Bool

/-- What a compaction did. -/
structure CompactReport where
  segmentsRewritten : Nat
  segmentsCreated : Nat
  rowsReclaimed : Nat
deriving DecidableEq, Repr

def CompactReport.zero : CompactReport := ⟨0, 0, 0⟩

/-- Whether a compaction takes the segment. -/
def CompactOptions.chooses (options : CompactOptions) (seg : SegmentData) : Bool :=
  seg.rows = 0 || options.meets (seg.rows.toNat - seg.liveCount) seg.rows.toNat

/-- Open the rewritten segment, unless it has no rows. -/
def openRewritten (catalog : Catalog) (segment : SegmentRef) : Action S (List SegmentData) :=
  if 0 < segment.rows then do
    let opened ← SegmentData.open catalog segment
    return [opened]
  else do
    removeSegment catalog.name segment.id
    return []

/-- `Collection::compact`. -/
def compact (env : Env) (options : CompactOptions) : Action Session CompactReport := do
  checkWritable env "compact"
  let s ← Proc.get
  let sources := s.segments.filter options.chooses
  if sources.isEmpty then return CompactReport.zero
  else do
    let newId := s.nextSegmentId
    let result ← compactSegments s.catalog newId sources
    -- the list is emptied before the rewritten segment is opened
    Proc.modify (fun s => s.withSegments [])
    let rewritten ← openRewritten s.catalog result.segment
    let kept := s.segments.filter (fun seg => ¬ options.chooses seg) ++ rewritten
    let refs := (s.segments.filter (fun seg => ¬ options.chooses seg)).map SegmentData.ref ++
      (if 0 < result.segment.rows then [result.segment] else [])
    let refs := refs.insertionSort (fun a b => a.id.toNat ≤ b.id.toNat)
    Proc.modify (fun s => s.withState (fun c => { c with
      segments := kept.insertionSort (fun a b => a.id.toNat ≤ b.id.toNat)
      nextSegmentId := newId + 1 }))
    let now ← Proc.get
    commitCollection env (entryFor now refs)
    Proc.forList (fun seg => removeSegment s.name seg.id) sources
    return ⟨sources.length, if 0 < result.segment.rows then 1 else 0,
      (sources.map (fun seg => seg.rows.toNat - seg.liveCount)).sum⟩

end IshaVectorDb.Engine
