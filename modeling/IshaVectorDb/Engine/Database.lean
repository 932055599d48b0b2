import IshaVectorDb.Engine.Collection

/-!
# `Engine.Database` — opening, creating and closing

Opening adopts a manifest, then opens every collection it names: orphaned segment files are removed, the named
segments are read, and the log is replayed over them.
-/

namespace IshaVectorDb.Engine

open Format Interaction

variable {S : Type}

/-! ## Opening a collection -/

/-- Remove the segment files that the manifest does not name. -/
def removeOrphans (name : Str) (referenced : List UInt64) : Action S Unit := do
  let ids ← listSegmentIds name
  Proc.forList (fun id => if referenced.contains id then return () else removeSegment name id) ids

/-- The first segment id a collection may use. -/
def firstFreeId (segments : List SegmentRef) : UInt64 :=
  segments.foldl (fun best s => if best < s.id then s.id else best) 0 + 1

/-- On a writable database, remove what aborted flushes left. -/
def cleanUp (env : Env) (name : Str) (entry : CollectionEntry) : Action S Unit :=
  if env.config.readOnly then return () else removeOrphans name (entry.segments.map SegmentRef.id)

/-- On a writable database, discard a torn tail. -/
def repairTail (env : Env) (walPath : DbPath) (report : ReplayReport) : Action S Unit :=
  if report.truncatedTail && !env.config.readOnly then truncateTail walPath report.validBytes else return ()

/-- Open a collection: its segments, then its log replayed over them. -/
def CollInner.open (env : Env) (catalog : Catalog) (entry : CollectionEntry) : Action S CollInner := do
  cleanUp env catalog.name entry
  let segments ← Proc.mapList (SegmentData.open catalog) entry.segments
  let walPath ← Proc.lift (Layout.walFile catalog.name 1)
  let (report, memtable) ←
    replayInto env.invNorm walPath catalog.idKind (Memtable.new catalog.dimension .f32)
  repairTail env walPath report
  let wal ← WalWriter.open walPath (saturatingSucc report.lastSequence) env.config.durability
  return ⟨catalog, ⟨memtable, segments, wal, firstFreeId entry.segments, 1⟩⟩

/-! ## Databases -/

/-- An open database. -/
structure Database where
  store : ManifestStore
  collections : AList (fun _ : Str => CollInner)

/-- `DatabaseConfig::validate`. -/
def Config.validate (c : Config) : Except DbError Unit :=
  if c.flushThresholdBytes = 0 then .error (.invalidField "flush_threshold_bytes" "0" "at least 1")
  else if c.readOnly ∧ c.createIfMissing then
    .error (.invalidField "create_if_missing" "true" "false when read_only is set, since creating requires writing")
  else .ok ()

/-- A database's identity, made from the clock and a process-wide counter. -/
def newUuid (nowMs counter : UInt64) : Uuid :=
  let mixed := nowMs * 0x9E3779B97F4A7C15
  let rotated := (mixed <<< 31) ||| (mixed >>> 33)
  ⟨Writer.u64 nowMs ++ Writer.u64 (rotated + counter * 0xBF58476D1CE4E5B9), by simp⟩

/-- The collections on disk, whether or not a manifest names them. -/
def listCollectionDirs : Action S (List DbPath) := do
  let found ← call (.metadata .collectionsDir)
  match found with
  | none => return []
  | some _ => call (.listDir .collectionsDir)

/-- Make the first manifest, unless collections say that one was lost. -/
def createStore (env : Env) (counter : UInt64) : Action S ManifestStore :=
  if env.config.createIfMissing = false then Proc.throw .databaseNotFound
  else do
    let present ← listCollectionDirs
    if present.isEmpty then do
      call (.createDirAll .collectionsDir)
      ManifestStore.create (newUuid env.nowMs counter) env.nowMs
    else do
      let scan ← ManifestStore.scan
      Proc.throw (ManifestStore.noValidManifest .collectionsDir scan)

/-- Adopt the manifest on disk, or make the first. -/
def loadOrCreate (env : Env) (counter : UInt64) : Action S ManifestStore := do
  let loaded ← ManifestStore.load
  match loaded with
  | some store => return store
  | none => createStore env counter

/-- Open every collection the manifest names. -/
def openCollections (env : Env) : List CollectionEntry → Action S (AList (fun _ : Str => CollInner))
  | [] => return ∅
  | entry :: rest => do
      let catalog ← readCatalog entry.name
      let coll ← CollInner.open env catalog entry
      let others ← openCollections env rest
      return others.insert entry.name coll

/-- Open, or create, a database. -/
def Database.open (env : Env) (counter : UInt64) : Action S Database := do
  Proc.lift env.config.validate
  let store ← loadOrCreate env counter
  let collections ← openCollections env store.current.collections
  return ⟨store, collections⟩

namespace Database

/-- An open collection, as its operations see it. -/
def session (db : Database) (name : Str) : Option Session :=
  (db.collections.lookup name).map (fun coll => ⟨db.store, coll⟩)

/-- Take an open collection back after an operation on it. -/
def take (name : Str) (s : Session) (db : Database) : Database :=
  { db with store := s.store, collections := db.collections.insert name s.coll }

/-- Run an action on an open collection. -/
def onCollection {α : Type} (name : Str) (m : Action Session α) : Action Database α := do
  let db ← Proc.get
  match db.collections.lookup name with
  | none => Proc.throw (.collectionNotFound name)
  | some coll =>
      Proc.zoom (fun db : Database => (⟨db.store, coll⟩ : Session)) (Database.take name) m

/-- What a collection is created with. -/
structure CollectionSpec where
  name : Str
  dimension : UInt32
  metric : Metric
  dtype : VectorDType
  idKind : IdKind
  index : IndexSpec

def CollectionSpec.validate (spec : CollectionSpec) : Except DbError Unit := do
  checkCollectionName spec.name
  if spec.dimension = 0 ∨ maxDimension < spec.dimension then
    .error (.validation (.invalidDimension spec.dimension maxDimension))
  else .ok ()

/-- The manifest entry of a collection without segments. -/
def emptyEntry (name : Str) : CollectionEntry := ⟨name, [], none, 0, 0, 0⟩

/-- `Database::create_collection`. -/
def createCollection (env : Env) (spec : CollectionSpec) : Action Database Unit := do
  checkWritable env "create a collection"
  Proc.lift spec.validate
  let db ← Proc.get
  if (db.collections.lookup spec.name).isSome then Proc.throw (.collectionExists spec.name)
  else do
    let catalog : Catalog :=
      ⟨spec.name, spec.dimension, spec.metric, spec.dtype, spec.idKind, spec.index, env.nowMs⟩
    writeCatalog catalog
    let walDir ← Proc.lift (Layout.walDir spec.name)
    call (.createDirAll walDir)
    Proc.zoom Database.store (fun store db => { db with store := store })
      (ManifestStore.commit (Manifest.withEntry db.store.current (emptyEntry spec.name)) env.nowMs)
    let coll ← CollInner.open env catalog (emptyEntry spec.name)
    Proc.modify (fun db => { db with collections := db.collections.insert spec.name coll })

/-- `Database::drop_collection`: the manifest first, the files second. -/
def dropCollection (env : Env) (name : Str) : Action Database Unit := do
  checkWritable env "drop a collection"
  let db ← Proc.get
  if (db.collections.lookup name).isNone then Proc.throw (.collectionNotFound name)
  else do
    Proc.zoom Database.store (fun store db => { db with store := store })
      (ManifestStore.commit (Manifest.without db.store.current name) env.nowMs)
    Proc.modify (fun db => { db with collections := db.collections.erase name })
    let dir ← Proc.lift (Layout.collectionDir name)
    let found ← call (.metadata dir)
    match found with
    | none => return ()
    | some _ => call (.removeDirAll dir)

/-- `Database::flush`. -/
def flushAll (env : Env) : Action Database Unit :=
  if env.config.readOnly then return ()
  else do
    let db ← Proc.get
    Proc.forList (fun name => onCollection name (Engine.flush env)) db.collections.keys

/-- `Database::close`; what the flush fails with is the result. -/
def close (env : Env) : Action Database Unit := if env.config.readOnly then return () else flushAll env

/-- Compact collections one after the other, adding their reports up. -/
def compactEach (env : Env) (options : CompactOptions) : List Str → CompactReport → Action Database CompactReport
  | [], total => return total
  | name :: rest, total => do
      let report ← onCollection name (Engine.compact env options)
      compactEach env options rest ⟨total.segmentsRewritten + report.segmentsRewritten,
        total.segmentsCreated + report.segmentsCreated, total.rowsReclaimed + report.rowsReclaimed⟩

/-- `Database::compact`. -/
def compactAll (env : Env) (options : CompactOptions) : Action Database CompactReport := do
  checkWritable env "compact"
  let db ← Proc.get
  compactEach env options db.collections.keys CompactReport.zero

end Database

end IshaVectorDb.Engine
