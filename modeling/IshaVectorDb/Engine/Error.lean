import IshaVectorDb.Format.Manifest

/-!
# `Engine.Error` — paths, limits and the errors of the engine

`DbPath` has one constructor for each kind of file or directory the engine names; the decimal file names of
logs and segments are the numbers themselves. The `layout` functions check the collection's name before they
make a path of it, as every one of them does in the source.
-/

namespace IshaVectorDb.Engine

open Format

/-! ## Paths -/

/-- Which of a segment's four files. -/
inductive SegmentFile
  | vectors
  | directory
  | metadata
  | tombstones
deriving DecidableEq, Repr

/-- Every kind, in the order the source lists them. -/
def SegmentFile.all : List SegmentFile := [.vectors, .directory, .metadata, .tombstones]

/-- Which index a snapshot belongs to. -/
inductive IndexKind
  | flat
  | hnsw
deriving DecidableEq, Repr

/-- A path within the database. -/
inductive DbPath
  | root
  | manifest (slot : Slot)
  | collectionsDir
  | collectionDir (name : Str)
  | catalog (name : Str)
  | walDir (name : Str)
  | walFile (name : Str) (id : UInt64)
  | segmentsDir (name : Str)
  | segmentFile (name : Str) (id : UInt64) (which : SegmentFile)
  | indexDir (name : Str)
  | indexFile (name : Str) (kind : IndexKind) (id : UInt64)
deriving DecidableEq

/-- The directory a path lies in. -/
def DbPath.parent : DbPath → DbPath
  | .root => .root
  | .manifest _ => .root
  | .collectionsDir => .root
  | .collectionDir _ => .collectionsDir
  | .catalog name => .collectionDir name
  | .walDir name => .collectionDir name
  | .walFile name _ => .walDir name
  | .segmentsDir name => .collectionDir name
  | .segmentFile name _ _ => .segmentsDir name
  | .indexDir name => .collectionDir name
  | .indexFile name _ _ => .indexDir name

/-- A path and the directories above it, outermost first, without the root. -/
def DbPath.ancestry : DbPath → List DbPath
  | .root => []
  | .manifest slot => [.manifest slot]
  | .collectionsDir => [.collectionsDir]
  | .collectionDir name => [.collectionsDir, .collectionDir name]
  | .catalog name => [.collectionsDir, .collectionDir name, .catalog name]
  | .walDir name => [.collectionsDir, .collectionDir name, .walDir name]
  | .walFile name id => [.collectionsDir, .collectionDir name, .walDir name, .walFile name id]
  | .segmentsDir name => [.collectionsDir, .collectionDir name, .segmentsDir name]
  | .segmentFile name id which =>
      [.collectionsDir, .collectionDir name, .segmentsDir name, .segmentFile name id which]
  | .indexDir name => [.collectionsDir, .collectionDir name, .indexDir name]
  | .indexFile name kind id => [.collectionsDir, .collectionDir name, .indexDir name, .indexFile name kind id]

/-! ## Limits -/

namespace Limits

/-- Longest document id, in bytes. -/
def maxDocIdLen : Nat := 512

/-- Longest collection name, in bytes. -/
def maxCollectionNameLen : Nat := 64

/-- Largest encoded metadata per document, in bytes. -/
def maxMetadataBytes : Nat := 64 * 1024

/-- Deepest metadata nesting. -/
def maxMetadataDepth : Nat := 16

/-- Largest opaque content payload per document, in bytes. -/
def maxContentBytes : Nat := 1024 * 1024

/-- Most operations in one atomic batch. -/
def maxBatchOps : Nat := 100000

/-- Largest result set a search may ask for. -/
def maxTopK : Nat := 10000

/-- Letters, digits, underscore and hyphen. -/
def isValidNameByte (b : UInt8) : Bool :=
  (0x30 ≤ b && b ≤ 0x39) || (0x41 ≤ b && b ≤ 0x5A) || (0x61 ≤ b && b ≤ 0x7A) || b == 0x5F || b == 0x2D

end Limits

/-! ## Errors -/

inductive NonFiniteKind
  | nan
  | posInf
  | negInf
deriving DecidableEq, Repr

inductive IdRejection
  | empty
  | tooLong
  | illegalCharacter
  | notUtf8
deriving DecidableEq, Repr

inductive NameRejection
  | empty
  | tooLong
  | illegalCharacter
  | reserved
deriving DecidableEq, Repr

/-- The caller's mistakes. A name or field that the source writes as a literal is its text's bytes. -/
inductive ValidationError
  | invalidVectorDimension (collection : Bytes) (expected actual : UInt32)
  | invalidVectorData (reason : NonFiniteKind) (index : Nat)
  | invalidDimension (dimension max : UInt32)
  | invalidDocumentId (reason : IdRejection) (len max : Nat)
  | invalidCollectionName (name : Str) (reason : NameRejection)
  | metadataTooLarge (field : Bytes) (size max : Nat)
  | metadataDepthExceeded (depth max : Nat)
  | batchTooLarge (ops max : Nat)
  | topKOutOfRange (requested max : Nat)
deriving DecidableEq

inductive StorageOp
  | open
  | read
  | write
  | append
  | sync
  | truncate
  | remove
  | createDir
  | listDir
deriving DecidableEq, Repr

inductive StorageError
  | io (path : DbPath) (operation : StorageOp) (detail : String)
  | permissionDenied (path : DbPath) (operation : StorageOp)
  | insufficientStorage
  | notFound (path : DbPath)
deriving DecidableEq

/-- What a corruption error says in words. -/
inductive Detail
  | kind (k : MalformedKind)
  | format (e : FormatError)
  | lengthField (claimed available : Nat)
  | rowCounts (manifest directory bitmap : UInt32)
  | duplicateId (id : Bytes) (row : Nat)
deriving DecidableEq

inductive CorruptionError
  | badMagic (path : DbPath) (expected found : Bytes)
  | checksumMismatch (path : DbPath) (offset : Nat) (expected found : UInt32)
  | truncatedFile (path : DbPath) (expectedLen actualLen : Nat)
  | noValidManifest (path : DbPath) (slotA slotB : SlotStatus)
  | missingSegment (collection : Str) (segment : UInt64)
  | unsupportedFormatVersion (path : DbPath) (found minReadable current : Nat)
  | malformedStructure (path : DbPath) (offset : Nat) (detail : Detail)
  | inconsistentIndex (collection : Str) (detail : Detail)
deriving DecidableEq

inductive DbError
  | invalidField (field value constraint : String)
  | databaseNotFound
  | databaseClosed
  | cancelled
  | readOnly (operation : String)
  | collectionNotFound (name : Str)
  | collectionExists (name : Str)
  | duplicateId (collection : Str) (id : Bytes)
  | validation (e : ValidationError)
  | storage (e : StorageError)
  | corruption (e : CorruptionError)
  | aborted (failedAt totalOps : Nat) (cause : DbError)
  | internal (message : String)
deriving DecidableEq

/-- The engine's own reading of a format error found in the file at `path`. -/
def fromFormatAt (path : DbPath) : FormatError → DbError
  | .badMagic expected found => .corruption (.badMagic path expected found)
  | .unsupportedVersion found minReadable current =>
      .corruption (.unsupportedFormatVersion path found minReadable current)
  | .checksumMismatch offset expected found => .corruption (.checksumMismatch path offset expected found)
  | .truncated offset needed available =>
      .corruption (.truncatedFile path (min (offset + needed) (2 ^ 64 - 1)) available)
  | .lengthExceedsInput offset claimed available =>
      .corruption (.malformedStructure path offset (.lengthField claimed available))
  | .malformed offset kind => .corruption (.malformedStructure path offset (.kind kind))

/-- A format result with its error placed at `path`. -/
def formatAt {α : Type} (path : DbPath) (r : Except FormatError α) : Except DbError α :=
  r.mapError (fromFormatAt path)

@[simp] theorem formatAt_ok {α : Type} (path : DbPath) (a : α) : formatAt path (.ok a) = .ok a := rfl

@[simp] theorem formatAt_error {α : Type} (path : DbPath) (e : FormatError) :
    formatAt path (.error e : Except FormatError α) = .error (fromFormatAt path e) := rfl

theorem formatAt_eq_ok {α : Type} {path : DbPath} {r : Except FormatError α} {a : α} :
    formatAt path r = .ok a ↔ r = .ok a := by
  cases r with
  | ok b => exact ⟨fun h => congrArg _ (Except.ok.inj h), fun h => congrArg _ (Except.ok.inj h)⟩
  | error e => exact ⟨nofun, nofun⟩

/-! ## Layout -/

/-- Check a collection name: it becomes a path component. -/
def checkCollectionName (name : Str) : Except DbError Unit :=
  let reject (reason : NameRejection) : Except DbError Unit :=
    .error (.validation (.invalidCollectionName name reason))
  if name.bytes.isEmpty then reject .empty
  else if Limits.maxCollectionNameLen < name.bytes.length then reject .tooLong
  else if name.bytes = [0x2E] ∨ name.bytes = [0x2E, 0x2E] then reject .reserved
  else if name.bytes.all Limits.isValidNameByte then .ok ()
  else reject .illegalCharacter

namespace Layout

/-- A path under a collection's directory, once the collection's name is checked. -/
def under (name : Str) (path : DbPath) : Except DbError DbPath := do
  checkCollectionName name
  return path

def collectionDir (name : Str) : Except DbError DbPath := under name (.collectionDir name)

def catalog (name : Str) : Except DbError DbPath := under name (.catalog name)

def walDir (name : Str) : Except DbError DbPath := under name (.walDir name)

def walFile (name : Str) (id : UInt64) : Except DbError DbPath := under name (.walFile name id)

def segmentsDir (name : Str) : Except DbError DbPath := under name (.segmentsDir name)

def segmentFile (name : Str) (id : UInt64) (which : SegmentFile) : Except DbError DbPath :=
  under name (.segmentFile name id which)

def indexDir (name : Str) : Except DbError DbPath := under name (.indexDir name)

def indexFile (name : Str) (kind : IndexKind) (id : UInt64) : Except DbError DbPath :=
  under name (.indexFile name kind id)

theorem under_ok {name : Str} (h : checkCollectionName name = .ok ()) (path : DbPath) :
    under name path = .ok path := by
  unfold under; rw [h]; rfl

end Layout

end IshaVectorDb.Engine
