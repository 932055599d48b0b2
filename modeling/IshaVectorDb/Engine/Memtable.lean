import IshaVectorDb.Engine.Document
import IshaVectorDb.Parsing.Slices
import Mathlib.Data.List.AList
import Mathlib.Data.List.Sort

/-!
# `Engine.Memtable` — the buffer of writes not yet in a segment

Vectors are appended to one arena and rows to one list; the index says, for each id the buffer has seen,
which row is current or that the document is deleted. Overwritten rows stay behind, dead, until the flush.
-/

namespace IshaVectorDb.Engine

open Format

/-- What the memtable knows about a document. -/
inductive MemSlot
  | row (index : UInt32)
  | deleted
deriving DecidableEq

/-- One buffered document; its vector is in the arena at `offset`. -/
structure MemRow where
  id : DocId
  offset : Nat
  invNorm : FiniteF32
  metadata : Option Metadata
  content : Option Bytes

/-- What a lookup found. -/
inductive Lookup
  | present (row : MemRow)
  | deleted

/-- A buffer of pending writes for one collection. -/
structure Memtable where
  dimension : UInt32
  dtype : VectorDType
  stride : Nat
  arena : Bytes
  rows : List MemRow
  index : AList (fun _ : DocId => MemSlot)
  tombstones : Nat
  metadataBytes : Nat

namespace Memtable

def new (dimension : UInt32) (dtype : VectorDType) : Memtable :=
  ⟨dimension, dtype, dtype.rowStride dimension, [], [], ∅, 0, 0⟩

/-- Live documents. -/
def len (m : Memtable) : Nat := m.index.keys.length - m.tombstones

/-- Whether the buffer mentions no document at all. -/
def isEmpty (m : Memtable) : Bool := m.index.keys.isEmpty

/-- Approximate memory in use. -/
def byteSize (m : Memtable) : Nat := m.arena.length + m.metadataBytes + m.rows.length * 64

/-- Put a document whose vector is given as a view. -/
def putView (invNorm : InvNorm) (m : Memtable) (id : DocId) (vector : VectorView)
    (metadata : Option Metadata) (content : Option Bytes) : Except DbError Memtable := do
  vector.checkDimension memtableLabel m.dimension
  let row : MemRow := ⟨id, m.arena.length, invNorm vector.toBytes, metadata, content⟩
  return { m with
    arena := m.arena ++ vector.toBytes
    rows := m.rows ++ [row]
    index := m.index.insert id (.row (UInt32.ofNat m.rows.length))
    -- a document put again clears its tombstone
    tombstones := if m.index.lookup id = some .deleted then m.tombstones - 1 else m.tombstones
    metadataBytes := m.metadataBytes + (metadata.elim 0 (fun md => md.len * 32)) +
      (content.elim 0 List.length) }

/-- Put a document whose vector is given as stored bytes. -/
def putBytes (invNorm : InvNorm) (m : Memtable) (id : DocId) (vector : Bytes) (metadata : Option Metadata)
    (content : Option Bytes) : Except DbError Memtable := do
  let view ← VectorView.ofRaw m.dtype vector m.dimension
  m.putView invNorm id view metadata content

/-- `put_view` in its own order, on the memtable itself: the check, and then the writes one after the other. It answers
    beside the memtable that it leaves. -/
def putViewIn (invNorm : InvNorm) (id : DocId) (vector : VectorView) (metadata : Option Metadata) (content : Option Bytes)
    (m : Memtable) : Except DbError Unit × Memtable :=
  match vector.checkDimension memtableLabel m.dimension with
  | .error e => (.error e, m)
  | .ok () =>
    let offset := m.arena.length
    let m := { m with arena := m.arena ++ vector.toBytes }
    let m := { m with metadataBytes := m.metadataBytes + metadata.elim 0 (fun md => md.len * 32) }
    let m := { m with metadataBytes := m.metadataBytes + content.elim 0 List.length }
    let row : MemRow := ⟨id, offset, invNorm vector.toBytes, metadata, content⟩
    let index := UInt32.ofNat m.rows.length
    let m := { m with rows := m.rows ++ [row] }
    let before := m.index.lookup id
    let m := { m with index := m.index.insert id (.row index) }
    (.ok (), if before = some .deleted then { m with tombstones := m.tombstones - 1 } else m)

/-- `put_bytes` on the memtable itself. -/
def putBytesIn (invNorm : InvNorm) (id : DocId) (vector : Bytes) (metadata : Option Metadata) (content : Option Bytes)
    (m : Memtable) : Except DbError Unit × Memtable :=
  match VectorView.ofRaw m.dtype vector m.dimension with
  | .error e => (.error e, m)
  | .ok view => putViewIn invNorm id view metadata content m

/-- What a put leaves where it is refused is the memtable before it. -/
def orUnchanged (m : Memtable) : Except DbError Memtable → Except DbError Unit × Memtable
  | .ok m' => (.ok (), m')
  | .error e => (.error e, m)

/-- **A put answers and leaves what `putView` says**, and one that is refused has written nothing. -/
theorem putViewIn_eq (invNorm : InvNorm) (id : DocId) (vector : VectorView) (metadata : Option Metadata)
    (content : Option Bytes) (m : Memtable) :
    putViewIn invNorm id vector metadata content m = m.orUnchanged (m.putView invNorm id vector metadata content) := by
  unfold putViewIn putView
  cases vector.checkDimension memtableLabel m.dimension with
  | error e => rfl
  | ok u =>
    by_cases hdeleted : m.index.lookup id = some .deleted
    · simp only [if_pos hdeleted, Nat.add_assoc]
      rfl
    · simp only [if_neg hdeleted, Nat.add_assoc]
      rfl

theorem putBytesIn_eq (invNorm : InvNorm) (id : DocId) (vector : Bytes) (metadata : Option Metadata)
    (content : Option Bytes) (m : Memtable) :
    putBytesIn invNorm id vector metadata content m = m.orUnchanged (m.putBytes invNorm id vector metadata content) := by
  unfold putBytesIn putBytes
  cases VectorView.ofRaw m.dtype vector m.dimension with
  | error e => rfl
  | ok view => exact putViewIn_eq invNorm id view metadata content m

/-- Record a deletion, whether or not the document was here. -/
def delete (m : Memtable) (id : DocId) : Memtable :=
  { m with
    index := m.index.insert id .deleted
    tombstones := if m.index.lookup id = some .deleted then m.tombstones else m.tombstones + 1 }

/-- Look a document up. -/
def get (m : Memtable) (id : DocId) : Option Lookup := do
  match ← m.index.lookup id with
  | .deleted => some .deleted
  | .row i => (m.rows[i.toNat]?).map .present

/-- The stored vector of a row. -/
def vectorBytes (m : Memtable) (row : MemRow) : Option Bytes := Parsing.slice m.arena row.offset m.stride

/-- The row numbers in use, ascending. -/
def liveIndices (m : Memtable) : List Nat :=
  (m.index.entries.filterMap (fun e => match e.2 with
    | .row i => some i.toNat
    | .deleted => none)).insertionSort (· ≤ ·)

/-- Live rows, in the order they were put. -/
def liveRows (m : Memtable) : List MemRow := m.liveIndices.filterMap (fun i => m.rows[i]?)

/-- Ids recorded as deleted, ascending. -/
def deletedIds (m : Memtable) : List DocId :=
  (m.index.entries.filterMap (fun e => match e.2 with
    | .row _ => none
    | .deleted => some e.1)).insertionSort (· ≤ ·)

/-- Forget everything. -/
def clear (m : Memtable) : Memtable :=
  { m with arena := [], rows := [], index := ∅, tombstones := 0, metadataBytes := 0 }

end Memtable

end IshaVectorDb.Engine
