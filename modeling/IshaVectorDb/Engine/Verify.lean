import IshaVectorDb.Engine.Database

/-!
# `Engine.Verify` — checking a database's integrity

Verification reports and never repairs: what it finds wrong is an error or a warning of the report, and only a
storage error keeps it from running.
-/

namespace IshaVectorDb.Engine

open Format Interaction

variable {S : Type}

/-- How thoroughly to check, in ascending order. -/
inductive VerifyLevel
  | quick
  | checksums
  | full
deriving DecidableEq, Repr

namespace VerifyLevel

/-- The level checks every block's checksum. -/
def readsFiles : VerifyLevel → Bool
  | quick => false
  | _ => true

/-- The level checks every row. -/
def readsRows : VerifyLevel → Bool
  | full => true
  | _ => false

end VerifyLevel

/-- Damage. -/
inductive Problem
  | checksum (collection : Str) (segment : UInt64) (cause : DbError)
  | liveTwice (collection : Str) (id : DocId)
  | noId (collection : Str) (segment : UInt64) (row : Nat)
  | unreadableMetadata (collection : Str) (segment : UInt64) (row : Nat) (cause : DbError)
  | totalRows (collection : Str) (manifest segments : UInt64)

/-- What is odd but not damage. -/
inductive Oddity
  | unreferenced (collection : Str) (segment : UInt64)
  | mostlyDead (collection : Str) (dead total : Nat)
  | liveDocuments (collection : Str) (manifest segments : UInt64)
  | unnamedDirectory (path : DbPath)

/-- One collection's results. -/
structure CollectionVerify where
  name : Str
  segmentsChecked : Nat
  liveDocuments : Nat
  totalRows : Nat

/-- What verification found. -/
structure VerifyReport where
  collections : List CollectionVerify
  errors : List Problem
  warnings : List Oddity

/-- The block a segment's file holds. -/
def SegmentFile.fileKind : SegmentFile → FileKind
  | .vectors => .vectors
  | .directory => .directory
  | .metadata => .metadata
  | .tombstones => .deleted

/-- Verify the checksums of a segment's four files. -/
def SegmentData.verifyChecksums (collection : Str) (seg : SegmentData) : Action S Unit :=
  Proc.forList (fun which => do
    let path ← Proc.lift (Layout.segmentFile collection seg.id which)
    let found ← readFile path
    match found with
    | none => Proc.throw (.corruption (.missingSegment collection seg.id))
    | some bytes => Proc.lift (formatAt path (verifyBlock bytes which.fileKind))) SegmentFile.all

/-- The error of a segment whose checksums do not hold, if the level looks at them. -/
def checksumProblem (level : VerifyLevel) (collection : Str) (seg : SegmentData) : Action S (List Problem) :=
  if level.readsFiles then do
    let checked ← Proc.attempt (seg.verifyChecksums collection)
    match checked with
    | .ok () => return []
    | .error e => return [.checksum collection seg.id e]
  else return []

/-- The errors of one row, and the ids seen with it. -/
def rowProblems (collection : Str) (seg : SegmentData) (acc : List DocId × List Problem) (row : Nat) :
    List DocId × List Problem :=
  if seg.isLive row = false then acc
  else
    let (seen, problems) := acc
    let (seen, found) : List DocId × List Problem := match seg.idAt row with
      | some id => if seen.contains id then (seen, [.liveTwice collection id]) else (id :: seen, [])
      | none => (seen, [.noId collection seg.id row])
    let unreadable : List Problem := match seg.metaRecord row with
      | .ok _ => []
      | .error e => [.unreadableMetadata collection seg.id row e]
    (seen, problems ++ found ++ unreadable)

/-- Check each segment in turn, with the ids seen so far. -/
def verifySegments (level : VerifyLevel) (collection : Str) :
    List SegmentData → List DocId × List Problem → Action S (List Problem)
  | [], acc => return acc.2
  | seg :: rest, (seen, problems) => do
      let damaged ← checksumProblem level collection seg
      let acc := (seen, problems ++ damaged)
      verifySegments level collection rest
        (if level.readsRows then (List.range seg.rows.toNat).foldl (rowProblems collection seg) acc else acc)

/-- `Collection::verify`. -/
def verifyCollection (level : VerifyLevel) : Action Session (CollectionVerify × List Problem × List Oddity) := do
  let s ← Proc.get
  let problems ← verifySegments level s.name s.segments ([], [])
  let onDisk ← listSegmentIds s.name
  let referenced := s.segments.map SegmentData.id
  let orphans := (onDisk.filter (fun id => ¬ referenced.contains id)).map (Oddity.unreferenced s.name)
  let total := (s.segments.map (fun seg => seg.rows.toNat)).sum
  let live := (s.segments.map SegmentData.liveCount).sum
  let dead : List Oddity := if total < 2 * (total - live) then [.mostlyDead s.name (total - live) total] else []
  return (⟨s.name, s.segments.length, s.liveCount, total⟩, problems, orphans ++ dead)

namespace Database

/-- Compare the manifest's counters with what the segments hold. -/
def compareCounters (entry : CollectionEntry) (found : CollectionVerify) : List Problem × List Oddity :=
  (if entry.totalRows ≠ UInt64.ofNat found.totalRows then
      [.totalRows entry.name entry.totalRows (UInt64.ofNat found.totalRows)] else [],
    if entry.liveCount ≠ UInt64.ofNat found.liveDocuments then
      [.liveDocuments entry.name entry.liveCount (UInt64.ofNat found.liveDocuments)] else [])

/-- Verify the collections that the manifest names. -/
def verifyEntries (level : VerifyLevel) : List CollectionEntry → Action Database VerifyReport
  | [] => return ⟨[], [], []⟩
  | entry :: rest => do
      let (found, problems, oddities) ← onCollection entry.name (verifyCollection level)
      let (wrong, odd) := compareCounters entry found
      let others ← verifyEntries level rest
      return ⟨found :: others.collections, problems ++ wrong ++ others.errors, oddities ++ odd ++ others.warnings⟩

/-- `Database::verify`. -/
def verify (level : VerifyLevel) : Action Database VerifyReport := do
  let db ← Proc.get
  let report ← verifyEntries level db.store.current.collections
  let dirs ← listCollectionDirs
  let named := db.store.current.collections.map (fun entry => DbPath.collectionDir entry.name)
  let unnamed := (dirs.filter (fun path => ¬ named.contains path)).map Oddity.unnamedDirectory
  return { report with warnings := report.warnings ++ unnamed }

end Database

end IshaVectorDb.Engine
