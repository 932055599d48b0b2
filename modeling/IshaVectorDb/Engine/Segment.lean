import IshaVectorDb.Engine.Memtable
import IshaVectorDb.Engine.Storage
import IshaVectorDb.Format.Segment
import IshaVectorDb.Format.Tombstones

/-!
# `Engine.Segment` — writing and reading segments

A flush writes a segment's four files, each synced, before any manifest names it; afterwards only the `.del`
file is ever rewritten, in place.
-/

namespace IshaVectorDb.Engine

open Format Interaction

/-- A computation over memory `S` that calls the storage. -/
abbrev Action (S α : Type) := Proc Call Call.Reply DbError S α

variable {S : Type}

/-! ## Whole files -/

/-- One storage call. -/
def call (c : Call) : Action S c.Reply := Proc.call c

/-- Read a file, if there is one. -/
def readFile (path : DbPath) : Action S (Option Bytes) := do
  let found ← call (.metadata path)
  match found with
  | none => return none
  | some len => do
      let file ← call (.openFile path .read)
      let bytes ← call (.readAt file len 0)
      return some bytes

/-- Replace a file's content: create, truncate, write, sync. -/
def writeFile (path : DbPath) (bytes : Bytes) : Action S Unit := do
  let file ← call (.openFile path .create)
  call (.truncate file 0)
  call (.writeAt file bytes 0)
  call (.syncData file)

/-! ## Catalogs -/

/-- Write a collection's specification. -/
def writeCatalog (catalog : Catalog) : Action S Unit := do
  let path ← Proc.lift (Layout.catalog catalog.name)
  let dir ← Proc.lift (Layout.collectionDir catalog.name)
  call (.createDirAll dir)
  let bytes ← Proc.lift (formatAt path catalog.encode)
  writeFile path bytes

/-- Read a collection's specification; a missing one is corruption, since the manifest promised it. -/
def readCatalog (name : Str) : Action S Catalog := do
  let path ← Proc.lift (Layout.catalog name)
  let found ← readFile path
  match found with
  | none => Proc.throw (.corruption (.missingSegment name 0))
  | some bytes => Proc.lift (formatAt path (Catalog.decode bytes))

/-! ## Segment files -/

/-- Read a file the manifest promised. -/
def require (collection : Str) (id : UInt64) (which : SegmentFile) : Action S Bytes := do
  let path ← Proc.lift (Layout.segmentFile collection id which)
  let found ← readFile path
  match found with
  | none => Proc.throw (.corruption (.missingSegment collection id))
  | some bytes => return bytes

def writeSegmentFile (collection : Str) (id : UInt64) (which : SegmentFile) (bytes : Bytes) :
    Action S Unit := do
  let path ← Proc.lift (Layout.segmentFile collection id which)
  writeFile path bytes

/-- Remove one of a segment's files, if it is there. -/
def removeSegmentFile (collection : Str) (id : UInt64) (which : SegmentFile) : Action S Unit := do
  let path ← Proc.lift (Layout.segmentFile collection id which)
  let found ← call (.metadata path)
  match found with
  | none => return ()
  | some _ => call (.removeFile path)

/-- Delete every file of a segment. -/
def removeSegment (collection : Str) (id : UInt64) : Action S Unit :=
  Proc.forList (removeSegmentFile collection id) SegmentFile.all

/-- The segment a path is a file of. -/
def DbPath.segmentId? : DbPath → Option UInt64
  | .segmentFile _ id _ => some id
  | _ => none

/-- Segment ids present on disk, ascending, whether or not the manifest names them. -/
def listSegmentIds (collection : Str) : Action S (List UInt64) := do
  let dir ← Proc.lift (Layout.segmentsDir collection)
  let found ← call (.metadata dir)
  match found with
  | none => return []
  | some _ => do
      let paths ← call (.listDir dir)
      return ((paths.filterMap DbPath.segmentId?).insertionSort (fun a b => a.toNat ≤ b.toNat)).destutter (· ≠ ·)

/-! ## Open segments -/

/-- An open segment, its blocks in memory. -/
structure SegmentData where
  id : UInt64
  stride : Nat
  dtype : VectorDType
  dimension : UInt32
  vecBytes : Bytes
  metaPayload : Bytes
  entries : List RowEntry
  ids : List DocId
  byId : AList (fun _ : DocId => UInt32)
  tombstones : Tombstones

namespace SegmentData

/-- The row table while it is being read. -/
structure RowTable where
  entries : List RowEntry
  ids : List DocId
  byId : AList (fun _ : DocId => UInt32)

/-- Read one row of the directory into the table. -/
def readRow (catalog : Catalog) (directory : Directory) (table : RowTable) (row : Nat) :
    Except DbError RowTable := do
  match directory.entry row, directory.id row with
  | some entry, some raw => do
      let id ← DocId.fromBytes catalog.idKind raw
      if (table.byId.lookup id).isSome then
        .error (.corruption (.inconsistentIndex catalog.name (.duplicateId id.display row)))
      else .ok ⟨table.entries ++ [entry], table.ids ++ [id], table.byId.insert id (UInt32.ofNat row)⟩
  | none, _ => .error (.internal "directory entry vanished after a successful open")
  | some _, none => .error (.internal "directory id vanished after a successful open")

/-- Decode the row table. -/
def readRows (catalog : Catalog) (directory : Directory) : Except DbError RowTable :=
  (List.range directory.rows.toNat).foldlM (readRow catalog directory) ⟨[], [], ∅⟩

/-- The directory, the bitmap and the manifest must agree about the rows. -/
def assemble (catalog : Catalog) (seg : SegmentRef) (vecBytes metaPayload : Bytes) (directory : Directory)
    (tombstones : Tombstones) : Except DbError SegmentData := do
  if directory.rows ≠ seg.rows ∨ tombstones.rows ≠ seg.rows then
    .error (.corruption (.inconsistentIndex catalog.name
      (.rowCounts seg.rows directory.rows tombstones.rows)))
  else do
    let table ← readRows catalog directory
    return ⟨seg.id, catalog.rowStride, catalog.dtype, catalog.dimension, vecBytes, metaPayload, table.entries,
      table.ids, table.byId, tombstones⟩

end SegmentData

/-- Open a segment named by a manifest entry. -/
def SegmentData.open (catalog : Catalog) (seg : SegmentRef) : Action S SegmentData := do
  let vecBytes ← require catalog.name seg.id .vectors
  let dirBytes ← require catalog.name seg.id .directory
  let metaBytes ← require catalog.name seg.id .metadata
  let metaBlock ← Proc.lift (formatAt (.segmentFile catalog.name seg.id .metadata) (MetaBlock.open metaBytes))
  let delBytes ← require catalog.name seg.id .tombstones
  let directory ← Proc.lift (formatAt (.segmentFile catalog.name seg.id .directory) (Directory.open dirBytes))
  let tombstones ← Proc.lift
    (formatAt (.segmentFile catalog.name seg.id .tombstones) (Tombstones.decode delBytes))
  Proc.lift (SegmentData.assemble catalog seg vecBytes metaBlock.payload directory tombstones)

namespace SegmentData

/-- Rows, live and dead alike. -/
def rows (s : SegmentData) : UInt32 := UInt32.ofNat s.entries.length

def liveCount (s : SegmentData) : Nat := s.tombstones.liveCount

def isLive (s : SegmentData) (row : Nat) : Bool := s.tombstones.isLive row

/-- A document's row, whether or not it is live. -/
def rowOf (s : SegmentData) (id : DocId) : Option Nat := (s.byId.lookup id).map UInt32.toNat

def idAt (s : SegmentData) (row : Nat) : Option DocId := s.ids[row]?

def invNorm (s : SegmentData) (row : Nat) : Option UInt32 := (s.entries[row]?).map RowEntry.invNorm

/-- The vector block. -/
def vectors (s : SegmentData) : Except DbError VectorBlock := formatAt .root (VectorBlock.open s.vecBytes s.stride)

/-- Mark a row dead, saying whether it changed. -/
def kill (s : SegmentData) (row : Nat) : Bool × SegmentData :=
  let (changed, tombstones) := s.tombstones.kill row
  (changed, { s with tombstones := tombstones })

/-- A row's encoded metadata, for a lookup of one field. -/
def metadataBytes (s : SegmentData) (row : Nat) : Except DbError (Option Bytes) :=
  match s.entries[row]? with
  | none => .ok none
  | some entry => formatAt .root (MetaBlock.metadataBytes ⟨s.metaPayload⟩ entry)

/-- A row's stored record, metadata and content together. -/
def metaRecord (s : SegmentData) (row : Nat) : Except DbError MetaRecord :=
  match s.entries[row]? with
  | none => .ok MetaRecord.default
  | some entry => formatAt .root (MetaBlock.record ⟨s.metaPayload⟩ entry)

theorem metaRecord_sorted {s : SegmentData} {row : Nat} {r : MetaRecord} (h : s.metaRecord row = .ok r) :
    ∀ v ∈ r.metadata, v.Sorted := by
  unfold metaRecord at h
  split at h
  · cases h
    exact fun _ hv => (Option.not_mem_none _ hv).elim
  · rename_i entry _
    cases hr : MetaBlock.record ⟨s.metaPayload⟩ entry with
    | error e => rw [hr] at h; cases h
    | ok r' =>
      rw [hr] at h
      obtain rfl : r' = r := Except.ok.inj h
      exact MetaBlock.record_sorted hr

/-- The metadata of a record, when it is a map. -/
def metadataOf (r : MetaRecord) (h : ∀ v ∈ r.metadata, v.Sorted) : Metadata :=
  match hm : r.metadata with
  | some (.map entries) => ⟨entries, h (.map entries) hm⟩
  | _ => Metadata.new

/-- What a read wants of a row's record. -/
def readRecord (s : SegmentData) (row : Nat) (inc : Include) : Except DbError (Metadata × Option Bytes) :=
  if inc.metadata || inc.content then
    match h : s.metaRecord row with
    | .error e => .error e
    | .ok r => .ok (if inc.metadata then metadataOf r (metaRecord_sorted h) else Metadata.new,
        if inc.content then r.content else none)
  else .ok (Metadata.new, none)

/-- What a read wants of a row's vector. -/
def readVector (s : SegmentData) (row : Nat) (inc : Include) : Except DbError (Option (List UInt32)) :=
  if inc.vector then do
    let block ← s.vectors
    match block.row row with
    | none => .error (.internal "row is in the directory but not the vector block")
    | some bytes => do
        let view ← VectorView.ofRaw s.dtype bytes s.dimension
        return some view.toF32
  else .ok none

/-- Read a document out of the segment; a dead row gives none. -/
def document (s : SegmentData) (row : Nat) (inc : Include) : Except DbError (Option Document) :=
  if s.isLive row = false then .ok none
  else match s.ids[row]?, s.entries[row]? with
    | some id, some _ => do
        let (metadata, content) ← s.readRecord row inc
        let vector ← s.readVector row inc
        return some ⟨id, vector, metadata, content⟩
    | _, _ => .ok none

/-- Rewrite the bitmap's file under the next generation. -/
def persistTombstones (collection : Str) : Action SegmentData UInt32 := do
  Proc.modify (fun s => { s with tombstones := { s.tombstones with
    generation := if s.tombstones.generation = 0xFFFFFFFF then 0xFFFFFFFF else s.tombstones.generation + 1 } })
  let s ← Proc.get
  writeSegmentFile collection s.id .tombstones s.tombstones.encode
  return s.tombstones.generation

/-- The manifest's entry for the segment. -/
def ref (s : SegmentData) : SegmentRef := ⟨s.id, s.rows, s.tombstones.generation⟩

end SegmentData

/-! ## Writing a segment -/

/-- What a flush produced. -/
structure FlushResult where
  segment : SegmentRef
  pendingDeletions : List DocId

/-- Write a segment's four files, all rows live. -/
def writeSegment (collection : Str) (id : UInt64) (w : SegmentWriter) : Action S SegmentRef := do
  let rows := w.vectors.rows
  writeSegmentFile collection id .vectors w.vectors.finish
  writeSegmentFile collection id .directory w.directory.finish
  writeSegmentFile collection id .metadata w.records.finish
  writeSegmentFile collection id .tombstones (Tombstones.allLive rows 0).encode
  return ⟨id, rows, 0⟩

/-- Hand one memtable row to the writers. -/
def flushRow (memtable : Memtable) (w : SegmentWriter) (row : MemRow) : Except DbError SegmentWriter :=
  match memtable.vectorBytes row with
  | none => .error (.internal "memtable row has no vector bytes")
  | some bytes => formatAt .root (w.push ⟨row.id.toBytes, bytes, row.invNorm.bits,
      ⟨row.metadata.map Metadata.toValue, row.content⟩⟩)

/-- Flush a memtable's live rows into a new segment. -/
def flushMemtable (catalog : Catalog) (segmentId : UInt64) (memtable : Memtable) : Action S FlushResult := do
  let dir ← Proc.lift (Layout.segmentsDir catalog.name)
  call (.createDirAll dir)
  let w ← Proc.lift (formatAt .root (SegmentWriter.new catalog.dimension catalog.rowStride))
  let w ← Proc.lift (memtable.liveRows.foldlM (flushRow memtable) w)
  let segment ← writeSegment catalog.name segmentId w
  return ⟨segment, memtable.deletedIds⟩

/-- Hand one live row of a segment to the writers, byte for byte. -/
def copyRow (seg : SegmentData) (block : VectorBlock) (w : SegmentWriter) (row : Nat) :
    Except DbError SegmentWriter :=
  if seg.isLive row = false then .ok w
  else match block.row row, seg.idAt row, seg.invNorm row with
    | some bytes, some id, some invNorm => do
        let w ← formatAt .root (w.pushVector bytes)
        let record ← seg.metaRecord row
        formatAt .root (w.pushRecord id.toBytes invNorm record)
    | _, _, _ => .error (.internal "segment row is live but incomplete")

/-- Hand a segment's live rows to the writers. -/
def copySegment (w : SegmentWriter) (seg : SegmentData) : Except DbError SegmentWriter := do
  let block ← seg.vectors
  (List.range seg.rows.toNat).foldlM (copyRow seg block) w

/-- Rewrite the live rows of several segments into one new segment. -/
def compactSegments (catalog : Catalog) (newId : UInt64) (sources : List SegmentData) :
    Action S FlushResult := do
  let dir ← Proc.lift (Layout.segmentsDir catalog.name)
  call (.createDirAll dir)
  let w ← Proc.lift (formatAt .root (SegmentWriter.new catalog.dimension catalog.rowStride))
  let w ← Proc.lift (sources.foldlM copySegment w)
  let segment ← writeSegment catalog.name newId w
  return ⟨segment, []⟩

end IshaVectorDb.Engine
