import IshaVectorDb.Format.Block
import IshaVectorDb.Format.Value
import IshaVectorDb.Parsing.Slices
import Mathlib.Data.List.Flatten

/-!
# `Format.Segment` — the vector block, the row directory and the metadata records

A segment's three immutable files are written row by row, in step: `SegmentWriter.push` is one turn of that
loop and `SegmentWriter.of` is what the writers hold after any list of rows (`push_of`). The offsets a row's
directory entry stores are 32-bit and 64-bit fields; `SegFits` says that they hold the offsets they are given.
Under it every row reads back as it was written: `VectorBlock.row_of`, `Directory.id_of`,
`MetaBlock.record_of`.
-/

namespace IshaVectorDb.Format

open Parsing

/-- Byte offset at which vector data begins in a `.vec` file. -/
def vectorDataOffset : Nat := 64

/-- Bytes per directory entry. -/
def dirEntryLen : Nat := 24

/-- Fixed part of the directory payload, before the entries. -/
def dirPrefixLen : Nat := 16

/-! ## The vector block -/

/-- Builds a `.vec` file. -/
structure VectorBlockWriter where
  dimension : UInt32
  stride : Nat
  rows : UInt32
  data : Bytes

namespace VectorBlockWriter

def new (dimension : UInt32) (stride : Nat) : Except FormatError VectorBlockWriter :=
  if dimension = 0 then .error (.malformed 0 (.zeroNotAllowed "dimension"))
  else if stride = 0 then .error (.malformed 0 (.zeroNotAllowed "stride"))
  else .ok ⟨dimension, stride, 0, []⟩

/-- Append one row's raw bytes. -/
def pushRow (w : VectorBlockWriter) (row : Bytes) : Except FormatError (UInt32 × VectorBlockWriter) :=
  if row.length ≠ w.stride then .error (.malformed w.data.length (.inconsistent "row stride"))
  else .ok (w.rows, { w with
    data := w.data ++ row
    rows := UInt32.ofNat (min (w.rows.toNat + 1) (2 ^ 32 - 1)) })

/-- Finish the file: the padding up to the data counts as payload. -/
def finish (w : VectorBlockWriter) : Bytes :=
  encodeBlock .vectors (Writer.reserved (vectorDataOffset - headerLen) ++ w.data)

end VectorBlockWriter

/-- Read-only view over a `.vec` file. -/
structure VectorBlock where
  data : Bytes
  stride : Nat
  rows : UInt32
deriving DecidableEq, Repr

/-- Open a `.vec` file whose rows are `stride` bytes each; the checksum is not verified. -/
def VectorBlock.open (bs : Bytes) (stride : Nat) : Except FormatError VectorBlock := do
  if stride = 0 then throw (.malformed 0 (.zeroNotAllowed "stride"))
  let payload ← openBlock bs .vectors
  let pad := vectorDataOffset - headerLen
  if payload.length < pad then throw (.truncated headerLen pad payload.length)
  let data := payload.drop pad
  if data.length % stride ≠ 0 then
    throw (.malformed vectorDataOffset (.inconsistent "vector data length"))
  if 2 ^ 32 ≤ data.length / stride then throw (.malformed 0 (.inconsistent "row count"))
  return ⟨data, stride, UInt32.ofNat (data.length / stride)⟩

/-- Raw bytes of one row. -/
def VectorBlock.row (b : VectorBlock) (index : Nat) : Option Bytes := slice b.data (index * b.stride) b.stride

/-! ## The row directory -/

/-- One row's directory entry. -/
structure RowEntry where
  metaOffset : UInt64
  metaLen : UInt32
  invNorm : UInt32
  idOffset : UInt32
  idLen : UInt16
  flagBits : UInt16
deriving DecidableEq, Repr

namespace RowEntry

def encode (e : RowEntry) : Bytes :=
  Writer.u64 e.metaOffset ++ (Writer.u32 e.metaLen ++ (Writer.u32 e.invNorm ++ (Writer.u32 e.idOffset ++
    (Writer.u16 e.idLen ++ Writer.u16 e.flagBits))))

def read : Reader RowEntry := do
  let metaOffset ← Reader.u64
  let metaLen ← Reader.u32
  let invNorm ← Reader.f32
  let idOffset ← Reader.u32
  let idLen ← Reader.u16
  let flagBits ← Reader.u16
  return ⟨metaOffset, metaLen, invNorm, idOffset, idLen, flagBits⟩

@[simp] theorem encode_length (e : RowEntry) : e.encode.length = dirEntryLen := by simp [encode, dirEntryLen]

theorem reads_encode {e : RowEntry} (h : Reader.finite32 e.invNorm = true) : Reads read e.encode e :=
  (Reader.reads_u64 _).bind ((Reader.reads_u32 _).bind ((Reader.reads_f32 h).bind ((Reader.reads_u32 _).bind
    ((Reader.reads_u16 _).bind ((Reader.reads_u16 _).bind_nil (Reads.pure _))))))

end RowEntry

/-- Builds a `.dir` file. -/
structure DirectoryWriter where
  entries : List RowEntry
  heap : Bytes

namespace DirectoryWriter

/-- Append a row. -/
def push (w : DirectoryWriter) (id : Bytes) (metaOffset : UInt64) (metaLen invNorm : UInt32) :
    Except FormatError (UInt32 × DirectoryWriter) :=
  if 2 ^ 16 ≤ id.length then .error (.malformed w.heap.length (.inconsistent "id length"))
  else if 2 ^ 32 ≤ w.heap.length then .error (.malformed w.heap.length (.inconsistent "id heap size"))
  else if Reader.finite32 invNorm = false then .error (.malformed 0 .nonFiniteFloat)
  else if 2 ^ 32 ≤ w.entries.length then .error (.malformed 0 (.inconsistent "row count"))
  else .ok (UInt32.ofNat w.entries.length,
    ⟨w.entries ++ [⟨metaOffset, metaLen, invNorm, UInt32.ofNat w.heap.length, UInt16.ofNat id.length, 0⟩],
      w.heap ++ id⟩)

/-- The directory's payload; both counts are cut to 32 bits. -/
def payload (w : DirectoryWriter) : Bytes :=
  Writer.u32 (UInt32.ofNat w.entries.length) ++
    (Writer.u32 (UInt32.ofNat (dirPrefixLen + w.entries.length * dirEntryLen)) ++ (Writer.reserved 8 ++
      (w.entries.flatMap RowEntry.encode ++ w.heap)))

def finish (w : DirectoryWriter) : Bytes := encodeBlock .directory w.payload

end DirectoryWriter

/-- Read-only view over a `.dir` file. -/
structure Directory where
  entries : Bytes
  heap : Bytes
  rows : UInt32
deriving DecidableEq, Repr

namespace Directory

/-- One row's entry. -/
def entry (d : Directory) (index : Nat) : Option RowEntry := do
  let bs ← slice d.entries (index * dirEntryLen) dirEntryLen
  match RowEntry.read ⟨bs, 0⟩ with
  | .ok (e, _) => some e
  | .error _ => none

/-- One row's id. -/
def id (d : Directory) (index : Nat) : Option Bytes := do
  let e ← d.entry index
  slice d.heap e.idOffset.toNat e.idLen.toNat

/-- Check that row `index` has an entry and that its id lies within the heap. -/
def checkEntry (d : Directory) (index : Nat) : Except FormatError Unit :=
  match d.entry index with
  | none => .error (.malformed 0 (.inconsistent "entry table"))
  | some e =>
      let stop := e.idOffset.toNat + e.idLen.toNat
      if d.heap.length < stop then
        .error (.lengthExceedsInput (dirPrefixLen + index * dirEntryLen) stop d.heap.length)
      else .ok ()

/-- The three counts in front of the entries. -/
def readPrefix : Reader (UInt32 × UInt32) := do
  let rows ← Reader.u32
  let heapOffset ← Reader.u32
  Reader.reserved 8
  return (rows, heapOffset)

end Directory

/-- Open and fully validate a `.dir` file. -/
def Directory.open (bs : Bytes) : Except FormatError Directory := do
  let payload ← decodeBlock bs .directory
  let ((rows, heapOffset), _) ← Directory.readPrefix ⟨payload, 0⟩
  let expectedHeap := dirPrefixLen + rows.toNat * dirEntryLen
  if heapOffset.toNat ≠ expectedHeap then throw (.malformed 4 (.inconsistent "heap_offset"))
  if payload.length < expectedHeap then throw (.lengthExceedsInput 0 expectedHeap payload.length)
  let dir : Directory := ⟨(payload.drop dirPrefixLen).take (rows.toNat * dirEntryLen),
    payload.drop expectedHeap, rows⟩
  (List.range rows.toNat).forM dir.checkEntry
  return dir

/-! ## Metadata records -/

/-- One row's metadata and optional content. -/
structure MetaRecord where
  metadata : Option Value
  content : Option Bytes

namespace MetaRecord

/-- The record of a row with neither. -/
def default : MetaRecord := ⟨none, none⟩

def isEmpty (r : MetaRecord) : Bool := r.metadata.isNone && r.content.isNone

/-- Bit 0 says that metadata follows, bit 1 that content does. -/
def flagByte (r : MetaRecord) : UInt8 :=
  (if r.metadata.isSome then 1 else 0) ||| (if r.content.isSome then 2 else 0)

/-- The metadata blob, when there is metadata. -/
def encodeMetadata : Option Value → Except FormatError Bytes
  | some v => v.encode.map Writer.blob
  | none => .ok []

def encode (r : MetaRecord) : Except FormatError Bytes := do
  let metadata ← encodeMetadata r.metadata
  return r.flagByte :: (metadata ++ r.content.elim [] Writer.blob)

/-- The metadata, when the flags announce it. -/
def readMetadata (flagBits : UInt8) : Reader (Option Value) :=
  if flagBits &&& 1 ≠ 0 then do
    let encoded ← Reader.blob
    return some (← checked (Value.decode encoded))
  else pure none

/-- The content, when the flags announce it. -/
def readContent (flagBits : UInt8) : Reader (Option Bytes) :=
  if flagBits &&& 2 ≠ 0 then do return some (← Reader.blob) else pure none

def read : Reader MetaRecord := do
  let flagBits ← Reader.u8
  if flagBits &&& ~~~3 ≠ 0 then fail (.malformed 0 (.unknownFlags flagBits.toNat))
  else do
    let metadata ← readMetadata flagBits
    let content ← readContent flagBits
    Reader.expectEnd "meta record"
    return ⟨metadata, content⟩

def decode (bs : Bytes) : Except FormatError MetaRecord :=
  if bs.isEmpty then .ok default else (read ⟨bs, 0⟩).map Prod.fst

end MetaRecord

/-- Builds a `.meta` file. -/
structure MetaWriter where
  payload : Bytes

namespace MetaWriter

/-- Append a record, saying where it landed; an empty record takes no bytes. -/
def push (w : MetaWriter) (record : MetaRecord) : Except FormatError ((UInt64 × UInt32) × MetaWriter) :=
  let offset := UInt64.ofNat w.payload.length
  if record.isEmpty then .ok ((offset, 0), w)
  else do
    let encoded ← record.encode
    if 2 ^ 32 ≤ encoded.length then throw (.malformed w.payload.length (.inconsistent "record length"))
    return ((offset, UInt32.ofNat encoded.length), ⟨w.payload ++ encoded⟩)

def finish (w : MetaWriter) : Bytes := encodeBlock .metadata w.payload

end MetaWriter

/-- Read-only view over a `.meta` file. -/
structure MetaBlock where
  payload : Bytes
deriving DecidableEq, Repr

/-- Open a `.meta` file without verifying its checksum. -/
def MetaBlock.open (bs : Bytes) : Except FormatError MetaBlock := do
  let payload ← openBlock bs .metadata
  return ⟨payload⟩

/-- Read the record a directory entry points at. -/
def MetaBlock.record (b : MetaBlock) (e : RowEntry) : Except FormatError MetaRecord :=
  if e.metaLen = 0 then .ok MetaRecord.default
  else match slice b.payload e.metaOffset.toNat e.metaLen.toNat with
    | some bs => MetaRecord.decode bs
    | none => .error (.lengthExceedsInput e.metaOffset.toNat (e.metaOffset.toNat + e.metaLen.toNat)
        b.payload.length)

/-- A record's encoded metadata, left undecoded. -/
def MetaRecord.metadataBytes (at_ : Nat) : Reader (Option Bytes) := do
  let flagBits ← Reader.u8
  if flagBits &&& ~~~3 ≠ 0 then fail (.malformed at_ (.unknownFlags flagBits.toNat))
  else if flagBits &&& 1 = 0 then return none
  else return some (← Reader.blob)

/-- The encoded metadata of the record a directory entry points at. -/
def MetaBlock.metadataBytes (b : MetaBlock) (e : RowEntry) : Except FormatError (Option Bytes) :=
  if e.metaLen = 0 then .ok none
  else match slice b.payload e.metaOffset.toNat e.metaLen.toNat with
    | some bs => (MetaRecord.metadataBytes e.metaOffset.toNat ⟨bs, 0⟩).map Prod.fst
    | none => .error (.lengthExceedsInput e.metaOffset.toNat (e.metaOffset.toNat + e.metaLen.toNat)
        b.payload.length)

/-! ## A record's round trip -/

namespace MetaRecord

/-- A record that can be written into a segment: its metadata is a sorted value, and the encoded record's
    length fits the directory's 32-bit field. -/
structure Writable (r : MetaRecord) : Prop where
  sorted : ∀ v ∈ r.metadata, v.Sorted
  encodes : ∃ bs, r.encode = .ok bs ∧ bs.length < 2 ^ 32

theorem encode_eq_ok {r : MetaRecord} {bs : Bytes} (h : r.encode = .ok bs) :
    ∃ metadata : Option (Value × Bytes), r.metadata = metadata.map Prod.fst ∧
      (∀ m ∈ metadata, m.1.encode = .ok m.2) ∧
      bs = r.flagByte :: ((metadata.elim [] fun m => Writer.blob m.2) ++ (r.content.elim [] Writer.blob)) := by
  obtain ⟨menc, hmenc, hrest⟩ := except_bind_eq_ok.mp h
  cases hrest
  cases hm : r.metadata with
  | none =>
    rw [hm] at hmenc
    cases hmenc
    exact ⟨none, rfl, fun _ hmem => (Option.not_mem_none _ hmem).elim, rfl⟩
  | some v =>
    rw [hm] at hmenc
    cases hv : v.encode with
    | error e => simp [encodeMetadata, hv, Except.map] at hmenc
    | ok venc =>
      simp only [encodeMetadata, hv, Except.map, Except.ok.injEq] at hmenc
      subst hmenc
      refine ⟨some (v, venc), rfl, fun m hmem => ?_, rfl⟩
      obtain rfl := Option.mem_some.mp hmem
      exact hv

theorem encode_ne_nil {r : MetaRecord} {bs : Bytes} (h : r.encode = .ok bs) : 0 < bs.length := by
  obtain ⟨m, -, -, rfl⟩ := encode_eq_ok h
  exact Nat.succ_pos _

theorem flagByte_known (r : MetaRecord) : ¬ (r.flagByte &&& ~~~3 ≠ 0) := by
  unfold flagByte; cases r.metadata.isSome <;> cases r.content.isSome <;> decide

theorem flagByte_metadata (r : MetaRecord) : r.flagByte &&& 1 ≠ 0 ↔ r.metadata.isSome = true := by
  unfold flagByte; cases r.metadata.isSome <;> cases r.content.isSome <;> decide

theorem flagByte_content (r : MetaRecord) : r.flagByte &&& 2 ≠ 0 ↔ r.content.isSome = true := by
  unfold flagByte; cases r.metadata.isSome <;> cases r.content.isSome <;> decide

theorem reads_metadata {r : MetaRecord} {metadata : Option (Value × Bytes)}
    (hm : r.metadata = metadata.map Prod.fst) (hs : ∀ v ∈ r.metadata, v.Sorted)
    (he : ∀ m ∈ metadata, m.1.encode = .ok m.2) (hlen : ∀ m ∈ metadata, m.2.length < 2 ^ 64) :
    Reads (readMetadata r.flagByte) (metadata.elim [] fun m => Writer.blob m.2) r.metadata := by
  unfold readMetadata
  cases metadata with
  | none =>
    have hno : ¬ (r.flagByte &&& 1 ≠ 0) := by rw [flagByte_metadata, hm]; simp
    rw [if_neg hno, hm]
    exact Reads.pure none
  | some m =>
    have hv : r.metadata = some m.1 := hm
    rw [if_pos ((flagByte_metadata r).mpr (by rw [hv]; rfl)), hv]
    refine Reads.bind_nil (Reader.reads_blob (hlen m rfl)) (Reads.checked_bind ?_ (Reads.pure _))
    exact Value.decode_encode (hs m.1 hv) (he m rfl) (hlen m rfl)

theorem reads_content {r : MetaRecord} (hlen : ∀ c ∈ r.content, c.length < 2 ^ 64) :
    Reads (readContent r.flagByte) (r.content.elim [] Writer.blob) r.content := by
  unfold readContent
  cases hc : r.content with
  | none =>
    have hno : ¬ (r.flagByte &&& 2 ≠ 0) := by rw [flagByte_content, hc]; simp
    rw [if_neg hno]
    exact Reads.pure none
  | some c =>
    rw [if_pos ((flagByte_content r).mpr (by rw [hc]; rfl))]
    exact Reads.bind_nil (Reader.reads_blob (hlen c hc)) (Reads.pure _)

/-- **The round trip of a metadata record.** -/
theorem decode_encode {r : MetaRecord} {bs : Bytes} (hs : ∀ v ∈ r.metadata, v.Sorted) (h : r.encode = .ok bs)
    (hlen : bs.length < 2 ^ 64) : decode bs = .ok r := by
  obtain ⟨metadata, hm, he, rfl⟩ := encode_eq_ok h
  have hmlen : ∀ m ∈ metadata, m.2.length < 2 ^ 64 := by
    rintro m hmem
    cases hmem
    simp only [Option.elim_some, List.length_cons, List.length_append, Writer.blob_length] at hlen
    omega
  have hclen : ∀ c ∈ r.content, c.length < 2 ^ 64 := by
    intro c hc
    have hc' : r.content = some c := hc
    simp only [hc', Option.elim_some, List.length_cons, List.length_append, Writer.blob_length] at hlen
    omega
  have hread : ReadsAll read (r.flagByte :: ((metadata.elim [] fun m => Writer.blob m.2)
      ++ (r.content.elim [] Writer.blob))) r := by
    refine ReadsAll.bind (Reader.reads_u8 r.flagByte) ?_
    rw [if_neg (flagByte_known r)]
    refine ReadsAll.bind (reads_metadata hm hs he hmlen) ?_
    refine ReadsAll.bind_nil (ReadsAll.of_reads (reads_content hclen)) ?_
    exact ReadsAll.bind_nil (Reader.readsAll_expectEnd _) (ReadsAll.pure r)
  unfold decode
  rw [if_neg (by simp), hread 0]; rfl

/-- **What decodes has sorted metadata.** -/
theorem decode_sorted {bs : Bytes} {r : MetaRecord} (h : decode bs = .ok r) : ∀ v ∈ r.metadata, v.Sorted := by
  have hmeta : ∀ flagBits, Yields (readMetadata flagBits) (fun metadata => ∀ v ∈ metadata, v.Sorted) := by
    intro flagBits
    refine Yields.ite (fun _ => Yields.skip (fun encoded => ?_))
      (fun _ => Yields.pure (fun _ hv => (Option.not_mem_none _ hv).elim))
    intro i metadata j hd
    cases hv : Value.decode encoded with
    | error e => rw [hv] at hd; cases hd
    | ok v =>
      rw [hv] at hd
      obtain ⟨rfl, -⟩ := Prod.mk.inj (Except.ok.inj hd)
      intro w hw
      obtain rfl := Option.mem_some.mp hw
      exact Value.decode_sorted hv
  have hread : Yields read (fun r => ∀ v ∈ r.metadata, v.Sorted) :=
    Yields.skip (fun flagBits => Yields.ite (fun _ => Yields.fail _) (fun _ =>
      Yields.bind (hmeta flagBits) (fun _ hm => Yields.skip (fun _ => Yields.skip (fun _ => Yields.pure hm)))))
  unfold decode at h
  split at h
  · cases h
    exact fun _ hv => (Option.not_mem_none _ hv).elim
  · cases hr : read ⟨bs, 0⟩ with
    | error e => rw [hr] at h; cases h
    | ok a =>
      rw [hr] at h
      obtain rfl : a.1 = r := Except.ok.inj h
      exact hread _ a.1 a.2 hr

end MetaRecord

theorem MetaBlock.record_sorted {b : MetaBlock} {e : RowEntry} {r : MetaRecord} (h : b.record e = .ok r) :
    ∀ v ∈ r.metadata, v.Sorted := by
  unfold MetaBlock.record at h
  split at h
  · cases h
    exact fun _ hv => (Option.not_mem_none _ hv).elim
  · split at h
    · exact MetaRecord.decode_sorted h
    · cases h

/-! ## A finished directory -/

theorem SegmentWriter.ofNat_toNat_u32 {n : Nat} (h : n < 2 ^ 32) : (UInt32.ofNat n).toNat = n := by
  rw [UInt32.toNat_ofNat']; exact Nat.mod_eq_of_lt h

theorem SegmentWriter.ofNat_toNat_u16 {n : Nat} (h : n < 2 ^ 16) : (UInt16.ofNat n).toNat = n := by
  rw [UInt16.toNat_ofNat']; exact Nat.mod_eq_of_lt h

theorem forM_ok {α ε : Type} {f : α → Except ε Unit} {l : List α} (h : ∀ a ∈ l, f a = .ok ()) :
    l.forM f = .ok () := by
  induction l with
  | nil => rfl
  | cons a l ih =>
    show (do f a; l.forM f : Except ε Unit) = _
    rw [h a List.mem_cons_self]
    exact ih (fun b hb => h b (List.mem_cons_of_mem _ hb))

section FinishedDirectory

open SegmentWriter (ofNat_toNat_u32)

variable {w : DirectoryWriter}

theorem DirectoryWriter.table_length (w : DirectoryWriter) :
    (w.entries.flatMap RowEntry.encode).length = w.entries.length * dirEntryLen :=
  length_flatMap_stride (fun e _ => RowEntry.encode_length e)

theorem DirectoryWriter.payload_length (w : DirectoryWriter) :
    w.payload.length = dirPrefixLen + w.entries.length * dirEntryLen + w.heap.length := by
  simp only [DirectoryWriter.payload, List.length_append, Writer.u32_length, Writer.reserved_length, w.table_length,
    dirPrefixLen]
  omega

/-- A directory with no more rows than the writer takes fits a block. -/
theorem DirectoryWriter.decode_finish (hfew : w.entries.length ≤ 2 ^ 32) (hheap : w.heap.length < 2 ^ 60) :
    decodeBlock w.finish .directory = .ok w.payload := by
  have hlen := w.payload_length
  have hb : decodeBlock (encodeBlock .directory w.payload ++ []) .directory = .ok w.payload :=
    decodeBlock_encodeBlock (by rw [hlen]; unfold dirPrefixLen dirEntryLen; omega) []
  rwa [List.append_nil] at hb

/-- The view of a finished directory, when its counts are exact. -/
def DirectoryWriter.view (w : DirectoryWriter) : Directory :=
  ⟨w.entries.flatMap RowEntry.encode, w.heap, UInt32.ofNat w.entries.length⟩

theorem Directory.readPrefix_payload (w : DirectoryWriter) : Directory.readPrefix ⟨w.payload, 0⟩ =
    .ok ((UInt32.ofNat w.entries.length, UInt32.ofNat (dirPrefixLen + w.entries.length * dirEntryLen)),
      ⟨w.entries.flatMap RowEntry.encode ++ w.heap, 16⟩) := by
  have hr : Reads Directory.readPrefix (Writer.u32 (UInt32.ofNat w.entries.length) ++
      (Writer.u32 (UInt32.ofNat (dirPrefixLen + w.entries.length * dirEntryLen)) ++ Writer.reserved 8))
      (UInt32.ofNat w.entries.length, UInt32.ofNat (dirPrefixLen + w.entries.length * dirEntryLen)) :=
    (Reader.reads_u32 _).bind ((Reader.reads_u32 _).bind ((Reader.reads_reserved 8).bind_nil (Reads.pure _)))
  have happly := hr (w.entries.flatMap RowEntry.encode ++ w.heap) 0
  simpa [DirectoryWriter.payload] using happly

/-- Every entry reads back from the view. -/
theorem DirectoryWriter.view_entry {i : Nat} {e : RowEntry} (he : w.entries[i]? = some e)
    (hfinite : Reader.finite32 e.invNorm = true) : w.view.entry i = some e := by
  obtain ⟨hi, rfl⟩ := List.getElem?_eq_some_iff.mp he
  have hchunk : slice w.view.entries (i * dirEntryLen) dirEntryLen = some (w.entries[i].encode) :=
    slice_chunk (fun e _ => RowEntry.encode_length e) hi
  unfold Directory.entry
  rw [hchunk, Option.bind_eq_bind, Option.bind_some, ReadsAll.of_reads (RowEntry.reads_encode hfinite) 0]

/-- **A finished directory opens** as its writer's view, when the start of its heap fits the field that stores it and
    every entry checks. -/
theorem Directory.open_finish (hfit : dirPrefixLen + w.entries.length * dirEntryLen < 2 ^ 32)
    (hheap : w.heap.length < 2 ^ 60) (hcheck : ∀ i < w.entries.length, w.view.checkEntry i = .ok ()) :
    Directory.open w.finish = .ok w.view := by
  have hcount : w.entries.length < 2 ^ 28 := by
    unfold dirPrefixLen dirEntryLen at hfit
    omega
  have hrows : (UInt32.ofNat w.entries.length).toNat = w.entries.length := ofNat_toNat_u32 (by omega)
  have hstart : (UInt32.ofNat (dirPrefixLen + w.entries.length * dirEntryLen)).toNat =
      dirPrefixLen + w.entries.length * dirEntryLen := ofNat_toNat_u32 hfit
  have hsplit : w.payload = (Writer.u32 (UInt32.ofNat w.entries.length) ++
      (Writer.u32 (UInt32.ofNat (dirPrefixLen + w.entries.length * dirEntryLen)) ++ Writer.reserved 8)) ++
      (w.entries.flatMap RowEntry.encode ++ w.heap) := by simp [DirectoryWriter.payload]
  have htail : w.payload.drop dirPrefixLen = w.entries.flatMap RowEntry.encode ++ w.heap := by
    rw [hsplit]; exact List.drop_left' (by simp [dirPrefixLen])
  have htake : (w.payload.drop dirPrefixLen).take (w.entries.length * dirEntryLen) =
      w.entries.flatMap RowEntry.encode := by rw [htail]; exact List.take_left' w.table_length
  have hdrop : w.payload.drop (dirPrefixLen + w.entries.length * dirEntryLen) = w.heap := by
    rw [← List.drop_drop, htail]; exact List.drop_left' w.table_length
  have hsame : ¬ (dirPrefixLen + w.entries.length * dirEntryLen ≠ dirPrefixLen + w.entries.length * dirEntryLen) :=
    not_not.mpr rfl
  have hlong : ¬ (w.payload.length < dirPrefixLen + w.entries.length * dirEntryLen) := by
    rw [w.payload_length]; omega
  have hall : (List.range w.entries.length).forM w.view.checkEntry = .ok () :=
    forM_ok (fun i hi => hcheck i (List.mem_range.mp hi))
  simp only [Directory.open, DirectoryWriter.decode_finish (by omega : w.entries.length ≤ 2 ^ 32) hheap,
    except_ok_bind, Directory.readPrefix_payload, hrows, hstart, htake, hdrop, if_neg hsame, if_neg hlong]
  show (do (List.range w.entries.length).forM w.view.checkEntry
           return w.view : Except FormatError Directory) = _
  rw [hall]; rfl

/-- **A directory that opens** has its writer's rows, and its offset field was large enough; or it has so many that
    both fields have run over. -/
theorem Directory.rows_of_open_finish (hfew : w.entries.length ≤ 2 ^ 32) (hheap : w.heap.length < 2 ^ 60)
    {d : Directory} (hopen : Directory.open w.finish = .ok d) : d.rows = UInt32.ofNat w.entries.length ∧
      (dirPrefixLen + w.entries.length * dirEntryLen < 2 ^ 32 ∨ w.entries.length = 2 ^ 32) := by
  simp only [Directory.open, DirectoryWriter.decode_finish hfew hheap, except_ok_bind,
    Directory.readPrefix_payload] at hopen
  by_cases hsame : (UInt32.ofNat (dirPrefixLen + w.entries.length * dirEntryLen)).toNat =
      dirPrefixLen + (UInt32.ofNat w.entries.length).toNat * dirEntryLen
  · rw [if_neg (not_not.mpr hsame)] at hopen
    refine ⟨?_, ?_⟩
    · by_cases hlong : w.payload.length < dirPrefixLen + (UInt32.ofNat w.entries.length).toNat * dirEntryLen
      · rw [if_pos hlong] at hopen
        cases hopen
      · rw [if_neg hlong] at hopen
        obtain ⟨⟨⟩, -, hlast⟩ := except_bind_eq_ok.mp hopen
        rw [← Except.ok.inj hlast]
    · -- the field holds the offset modulo `2 ^ 32`
      rw [UInt32.toNat_ofNat', UInt32.toNat_ofNat'] at hsame
      unfold dirPrefixLen dirEntryLen at hsame ⊢
      omega
  · rw [if_pos hsame] at hopen
    cases hopen

end FinishedDirectory

/-! ## A vector block that opens -/

namespace VectorBlock

variable {bytes : Bytes} {stride : Nat} {block : VectorBlock}

/-- What a block that opens holds: whole rows. -/
theorem open_eq_ok (h : VectorBlock.open bytes stride = .ok block) :
    0 < stride ∧ block.stride = stride ∧ block.data.length = block.rows.toNat * stride := by
  unfold VectorBlock.open at h
  by_cases hzero : stride = 0
  · rw [if_pos hzero] at h
    cases h
  rw [if_neg hzero] at h
  obtain ⟨payload, -, h⟩ := except_bind_eq_ok.mp h
  by_cases hpad : payload.length < vectorDataOffset - headerLen
  · rw [if_pos hpad] at h
    cases h
  rw [if_neg hpad] at h
  by_cases hwhole : (payload.drop (vectorDataOffset - headerLen)).length % stride ≠ 0
  · simp only [if_pos hwhole] at h
    cases h
  simp only [if_neg hwhole] at h
  by_cases hmany : 2 ^ 32 ≤ (payload.drop (vectorDataOffset - headerLen)).length / stride
  · rw [if_pos hmany] at h
    cases h
  rw [if_neg hmany] at h
  obtain rfl := Except.ok.inj h
  rw [not_not] at hwhole
  refine ⟨Nat.pos_of_ne_zero hzero, rfl, ?_⟩
  rw [SegmentWriter.ofNat_toNat_u32 (by omega)]
  exact (Nat.div_mul_cancel (Nat.dvd_of_mod_eq_zero hwhole)).symm

/-- **The rows of a block that opens** are as long as they should be, and there are as many as it says. -/
theorem row_of_open (h : VectorBlock.open bytes stride = .ok block) {i : Nat} (hi : i < block.rows.toNat) :
    ∃ row, block.row i = some row ∧ row.length = stride := by
  obtain ⟨-, hstride, hdata⟩ := open_eq_ok h
  have hend : i * stride + stride ≤ block.data.length := by
    rw [hdata, ← Nat.succ_mul]
    exact Nat.mul_le_mul_right stride hi
  unfold row slice
  rw [hstride, if_pos hend]
  refine ⟨_, rfl, ?_⟩
  rw [List.length_take, List.length_drop]
  omega

theorem lt_rows_of_row (h : VectorBlock.open bytes stride = .ok block) {i : Nat} {row : Bytes}
    (hrow : block.row i = some row) : i < block.rows.toNat := by
  obtain ⟨hpos, hstride, hdata⟩ := open_eq_ok h
  unfold VectorBlock.row slice at hrow
  by_cases hend : i * block.stride + block.stride ≤ block.data.length
  · rw [hstride, hdata, ← Nat.succ_mul] at hend
    exact Nat.le_of_mul_le_mul_right hend hpos
  · rw [if_neg hend] at hrow
    cases hrow

end VectorBlock

/-! ## Writing rows in step -/

/-- One row as the three writers take it. -/
structure SegmentRow where
  id : Bytes
  vector : Bytes
  invNorm : UInt32
  record : MetaRecord

namespace SegmentRow

/-- The bytes the row's record takes in the metadata file. -/
def recordBytes (r : SegmentRow) : Bytes := if r.record.isEmpty then [] else r.record.encode.toOption.getD []

/-- The row's directory entry, given where its record and its id start. -/
def entry (metaOffset idOffset : Nat) (r : SegmentRow) : RowEntry :=
  ⟨UInt64.ofNat metaOffset, UInt32.ofNat r.recordBytes.length, r.invNorm, UInt32.ofNat idOffset,
    UInt16.ofNat r.id.length, 0⟩

/-- The directory entries of rows whose records and ids start where given. -/
def entriesFrom (metaOffset idOffset : Nat) : List SegmentRow → List RowEntry
  | [] => []
  | r :: rest => r.entry metaOffset idOffset ::
      entriesFrom (metaOffset + r.recordBytes.length) (idOffset + r.id.length) rest

/-- What a row must satisfy to be written into a segment of `stride`-byte vectors. -/
structure Fits (stride : Nat) (r : SegmentRow) : Prop where
  vector : r.vector.length = stride
  id : r.id.length < 2 ^ 16
  invNorm : Reader.finite32 r.invNorm = true
  record : r.record.Writable

theorem entriesFrom_append (m h : Nat) (rows : List SegmentRow) (r : SegmentRow) :
    entriesFrom m h (rows ++ [r]) = entriesFrom m h rows ++
      [r.entry (m + (rows.flatMap recordBytes).length) (h + (rows.flatMap id).length)] := by
  induction rows generalizing m h with
  | nil => simp [entriesFrom]
  | cons a rows ih =>
    simp only [List.cons_append, entriesFrom, ih, List.flatMap_cons, List.length_append, Nat.add_assoc]

@[simp] theorem entriesFrom_length (m h : Nat) (rows : List SegmentRow) :
    (entriesFrom m h rows).length = rows.length := by
  induction rows generalizing m h with
  | nil => rfl
  | cons r rows ih => simp [entriesFrom, ih]

/-- Entry `i` points at where the items before row `i` end. -/
theorem entriesFrom_getElem (m h : Nat) (rows : List SegmentRow) (i : Nat) (hi : i < rows.length) :
    (entriesFrom m h rows)[i]? =
      some (rows[i].entry (m + offsetOf recordBytes rows i) (h + offsetOf id rows i)) := by
  induction rows generalizing m h i with
  | nil => exact absurd hi (Nat.not_lt_zero i)
  | cons r rows ih =>
    cases i with
    | zero => simp [entriesFrom, offsetOf]
    | succ i =>
      simp only [entriesFrom, List.getElem?_cons_succ, List.getElem_cons_succ, offsetOf, List.take_succ_cons,
        List.flatMap_cons, List.length_append]
      rw [ih _ _ i (Nat.lt_of_succ_lt_succ hi)]
      simp only [offsetOf, Nat.add_assoc]

theorem recordBytes_lt {r : SegmentRow} (h : r.record.Writable) : r.recordBytes.length < 2 ^ 32 := by
  obtain ⟨bs, hbs, hlt⟩ := h.encodes
  unfold recordBytes
  split
  · simp
  · rw [hbs]; exact hlt

end SegmentRow

/-- The file offsets of a segment fit the fields that store them. Where an id starts is stored, not where the last one
    ends. -/
structure SegFits (stride : Nat) (rows : List SegmentRow) : Prop where
  each : ∀ r ∈ rows, r.Fits stride
  directory : dirPrefixLen + rows.length * dirEntryLen < 2 ^ 32
  heap : (rows.dropLast.flatMap SegmentRow.id).length < 2 ^ 32
  stride : stride < 2 ^ 32

/-- The ids before the last take no more room than all of them. -/
theorem heap_dropLast_le (rows : List SegmentRow) :
    (rows.dropLast.flatMap SegmentRow.id).length ≤ (rows.flatMap SegmentRow.id).length :=
  ((List.dropLast_sublist rows).flatMap SegmentRow.id).length_le

namespace SegFits

variable {stride : Nat} {rows : List SegmentRow}

theorem of_append {rest : List SegmentRow} (h : SegFits stride (rows ++ rest)) : SegFits stride rows := by
  refine ⟨fun r hr => h.each r (List.mem_append_left _ hr), ?_, ?_, h.stride⟩
  · have := h.directory
    rw [List.length_append, Nat.add_mul] at this
    omega
  · have hheap := h.heap
    cases rest with
    | nil => rwa [List.append_nil] at hheap
    | cons r rest =>
      rw [List.dropLast_append_of_ne_nil (List.cons_ne_nil r rest), List.flatMap_append, List.length_append] at hheap
      have hle := heap_dropLast_le rows
      omega

theorem length_lt (h : SegFits stride rows) : rows.length < 2 ^ 28 := by
  have := h.directory
  unfold dirPrefixLen dirEntryLen at this
  omega

/-- The total length of items that are each below `2 ^ 32`. -/
theorem total_lt (h : SegFits stride rows) {f : SegmentRow → Bytes}
    (hf : ∀ r ∈ rows, (f r).length < 2 ^ 32) : (rows.flatMap f).length < 2 ^ 60 := by
  have hsum : (rows.flatMap f).length ≤ rows.length * (2 ^ 32 - 1) := by
    clear h
    induction rows with
    | nil => simp
    | cons r rows ih =>
      have h1 := hf r List.mem_cons_self
      have h2 := ih (fun a ha => hf a (List.mem_cons_of_mem _ ha))
      rw [List.flatMap_cons, List.length_append, List.length_cons, Nat.succ_mul]
      omega
  have := h.length_lt
  have hmul : rows.length * (2 ^ 32 - 1) ≤ 2 ^ 28 * (2 ^ 32 - 1) := Nat.mul_le_mul_right _ (by omega)
  omega

theorem records_lt (h : SegFits stride rows) : (rows.flatMap SegmentRow.recordBytes).length < 2 ^ 60 :=
  h.total_lt (fun r hr => SegmentRow.recordBytes_lt (h.each r hr).record)

theorem ids_lt (h : SegFits stride rows) : (rows.flatMap SegmentRow.id).length < 2 ^ 60 :=
  h.total_lt (fun r hr => by have := (h.each r hr).id; omega)

/-- Where an id starts fits its field. -/
theorem idOffset_lt (h : SegFits stride rows) {i : Nat} (hi : i < rows.length) : offsetOf SegmentRow.id rows i < 2 ^ 32 := by
  have htake : rows.take i = rows.dropLast.take i := by
    rw [List.dropLast_eq_take, List.take_take, Nat.min_eq_left (by omega)]
  have hle := offsetOf_le SegmentRow.id rows.dropLast i
  have hheap := h.heap
  unfold offsetOf at hle ⊢
  rw [htake]
  omega

theorem vectors_lt (h : SegFits stride rows) : (rows.flatMap SegmentRow.vector).length < 2 ^ 60 :=
  h.total_lt (fun r hr => by rw [(h.each r hr).vector]; exact h.stride)

end SegFits

/-- The three writers of a segment. -/
structure SegmentWriter where
  vectors : VectorBlockWriter
  directory : DirectoryWriter
  records : MetaWriter

namespace SegmentWriter

def new (dimension : UInt32) (stride : Nat) : Except FormatError SegmentWriter := do
  let vectors ← VectorBlockWriter.new dimension stride
  return ⟨vectors, ⟨[], []⟩, ⟨[]⟩⟩

def pushVector (w : SegmentWriter) (vector : Bytes) : Except FormatError SegmentWriter := do
  let (_, vectors) ← w.vectors.pushRow vector
  return { w with vectors := vectors }

/-- Write a record, then the entry that points at it. -/
def pushRecord (w : SegmentWriter) (id : Bytes) (invNorm : UInt32) (record : MetaRecord) :
    Except FormatError SegmentWriter := do
  let ((offset, len), records) ← w.records.push record
  let (_, directory) ← w.directory.push id offset len invNorm
  return { w with directory := directory, records := records }

/-- Write one row. -/
def push (w : SegmentWriter) (row : SegmentRow) : Except FormatError SegmentWriter := do
  let w ← w.pushVector row.vector
  w.pushRecord row.id row.invNorm row.record

/-- What the writers hold after `rows`. -/
def of (dimension : UInt32) (stride : Nat) (rows : List SegmentRow) : SegmentWriter :=
  ⟨⟨dimension, stride, UInt32.ofNat rows.length, rows.flatMap SegmentRow.vector⟩,
    ⟨SegmentRow.entriesFrom 0 0 rows, rows.flatMap SegmentRow.id⟩, ⟨rows.flatMap SegmentRow.recordBytes⟩⟩

theorem new_of {dimension : UInt32} {stride : Nat} (hd : dimension ≠ 0) (hs : stride ≠ 0) :
    new dimension stride = .ok (of dimension stride []) := by
  unfold new VectorBlockWriter.new
  rw [if_neg hd, if_neg hs]; rfl

theorem records_push {w : MetaWriter} {r : SegmentRow} (h : r.record.Writable) :
    w.push r.record = .ok ((UInt64.ofNat w.payload.length, UInt32.ofNat r.recordBytes.length),
      ⟨w.payload ++ r.recordBytes⟩) := by
  unfold MetaWriter.push SegmentRow.recordBytes
  cases he : r.record.isEmpty with
  | true => simp
  | false =>
    obtain ⟨bs, hbs, hlt⟩ := h.encodes
    simp only [hbs, Bool.false_eq_true, if_false, Except.toOption, Option.getD_some]
    show (do if 2 ^ 32 ≤ bs.length then throw _
             return _ : Except FormatError _) = _
    rw [if_neg (by omega)]; rfl

/-- **One turn of the writing loop.** -/
theorem push_of {dimension : UInt32} {stride : Nat} {rows : List SegmentRow} {row : SegmentRow}
    (h : SegFits stride (rows ++ [row])) :
    (of dimension stride rows).push row = .ok (of dimension stride (rows ++ [row])) := by
  have hrows := h.of_append
  have hlen := h.length_lt
  have hrow : row.Fits stride := h.each row (List.mem_append_right _ List.mem_cons_self)
  rw [List.length_append, List.length_singleton] at hlen
  have hvec : (of dimension stride rows).vectors.pushRow row.vector =
      .ok (UInt32.ofNat rows.length, (of dimension stride (rows ++ [row])).vectors) := by
    have hcount : min ((UInt32.ofNat rows.length).toNat + 1) (2 ^ 32 - 1) = rows.length + 1 := by
      rw [ofNat_toNat_u32 (by omega)]; omega
    have hstride : ¬ (row.vector.length ≠ (of dimension stride rows).vectors.stride) :=
      not_not.mpr hrow.vector
    unfold VectorBlockWriter.pushRow
    rw [if_neg hstride]
    simp only [of, hcount, List.length_append, List.length_singleton, List.flatMap_append, List.flatMap_singleton]
  have hdir : (of dimension stride rows).directory.push row.id
      (UInt64.ofNat (rows.flatMap SegmentRow.recordBytes).length) (UInt32.ofNat row.recordBytes.length) row.invNorm =
      .ok (UInt32.ofNat rows.length, (of dimension stride (rows ++ [row])).directory) := by
    have hheap := h.heap
    rw [List.dropLast_concat] at hheap
    have hid := hrow.id
    unfold DirectoryWriter.push
    simp only [of, SegmentRow.entriesFrom_length, hrow.invNorm]
    rw [if_neg (by omega), if_neg (by omega), if_neg (by simp), if_neg (by omega), SegmentRow.entriesFrom_append]
    simp [SegmentRow.entry]
  have hoff : (of dimension stride rows).records.payload = rows.flatMap SegmentRow.recordBytes := rfl
  have hrec := records_push (w := (of dimension stride rows).records) hrow.record
  rw [hoff] at hrec
  unfold push pushVector pushRecord
  simp only [hvec, except_ok_bind, pure, Except.pure, hrec, hdir]
  simp only [of, List.flatMap_append, List.flatMap_singleton]

/-- **The whole loop**, behind rows already written. -/
theorem push_all_from {dimension : UInt32} {stride : Nat} {before rows : List SegmentRow}
    (h : SegFits stride (before ++ rows)) :
    rows.foldlM push (of dimension stride before) = .ok (of dimension stride (before ++ rows)) := by
  induction rows generalizing before with
  | nil => simp; rfl
  | cons r rows ih =>
    have hsplit : before ++ r :: rows = (before ++ [r]) ++ rows := by simp
    rw [hsplit] at h ⊢
    rw [List.foldlM_cons, push_of h.of_append]
    exact ih h

theorem push_all {dimension : UInt32} {stride : Nat} {rows : List SegmentRow} (h : SegFits stride rows) :
    rows.foldlM push (of dimension stride []) = .ok (of dimension stride rows) := @push_all_from _ _ [] _ h

end SegmentWriter

/-! ## Reading rows back -/

section ReadBack

variable {dimension : UInt32} {stride : Nat} {rows : List SegmentRow}

open SegmentWriter (ofNat_toNat_u32 ofNat_toNat_u16)

theorem vectors_open (h : SegFits stride rows) (hs : stride ≠ 0) :
    VectorBlock.open (SegmentWriter.of dimension stride rows).vectors.finish stride =
      .ok ⟨rows.flatMap SegmentRow.vector, stride, UInt32.ofNat rows.length⟩ := by
  have hlen : (rows.flatMap SegmentRow.vector).length = rows.length * stride :=
    length_flatMap_stride (fun r hr => (h.each r hr).vector)
  have hopen : openBlock (SegmentWriter.of dimension stride rows).vectors.finish .vectors =
      .ok (Writer.reserved 32 ++ rows.flatMap SegmentRow.vector) := by
    have hv := h.vectors_lt
    have hb : openBlock (encodeBlock .vectors (Writer.reserved 32 ++ rows.flatMap SegmentRow.vector) ++ []) .vectors =
        .ok (Writer.reserved 32 ++ rows.flatMap SegmentRow.vector) := openBlock_encodeBlock
      (by rw [List.length_append, Writer.reserved_length]; omega) []
    rwa [List.append_nil] at hb
  have hdrop : (Writer.reserved 32 ++ rows.flatMap SegmentRow.vector).drop 32 = rows.flatMap SegmentRow.vector :=
    List.drop_left' (Writer.reserved_length 32)
  have hpad : ¬ ((Writer.reserved 32 ++ rows.flatMap SegmentRow.vector).length < 32) := by
    rw [List.length_append, Writer.reserved_length]; omega
  have hcount := h.length_lt
  have hmod : ¬ (rows.length * stride % stride ≠ 0) := by simp
  have hdiv : rows.length * stride / stride = rows.length := Nat.mul_div_cancel _ (Nat.pos_of_ne_zero hs)
  have hfew : ¬ (2 ^ 32 ≤ rows.length) := by omega
  simp only [VectorBlock.open, vectorDataOffset, headerLen, if_neg hs, hopen, except_ok_bind, if_neg hpad, hdrop,
    hlen, if_neg hmod, hdiv, if_neg hfew]
  rfl

/-- **Every row's vector reads back.** -/
theorem VectorBlock.row_of (h : SegFits stride rows) {i : Nat} (hi : i < rows.length) :
    VectorBlock.row ⟨rows.flatMap SegmentRow.vector, stride, UInt32.ofNat rows.length⟩ i =
      some rows[i].vector := slice_chunk (fun r hr => (h.each r hr).vector) hi

/-- The directory of a segment with these rows. -/
def Directory.of (rows : List SegmentRow) : Directory :=
  ⟨(SegmentRow.entriesFrom 0 0 rows).flatMap RowEntry.encode, rows.flatMap SegmentRow.id,
    UInt32.ofNat rows.length⟩

theorem Directory.entry_of (h : SegFits stride rows) {i : Nat} (hi : i < rows.length) :
    (Directory.of rows).entry i =
      some (rows[i].entry (offsetOf SegmentRow.recordBytes rows i) (offsetOf SegmentRow.id rows i)) := by
  have hget := SegmentRow.entriesFrom_getElem 0 0 rows i hi
  rw [Nat.zero_add, Nat.zero_add] at hget
  exact DirectoryWriter.view_entry (w := ⟨SegmentRow.entriesFrom 0 0 rows, rows.flatMap SegmentRow.id⟩) hget
    (h.each rows[i] (List.getElem_mem hi)).invNorm

/-- The range that row `i`'s entry gives for its id. -/
theorem idRange_of (h : SegFits stride rows) {i : Nat} (hi : i < rows.length) {m : Nat} :
    (rows[i].entry m (offsetOf SegmentRow.id rows i)).idOffset.toNat = offsetOf SegmentRow.id rows i ∧
      (rows[i].entry m (offsetOf SegmentRow.id rows i)).idLen.toNat = rows[i].id.length := by
  exact ⟨ofNat_toNat_u32 (h.idOffset_lt hi), ofNat_toNat_u16 (h.each rows[i] (List.getElem_mem hi)).id⟩

/-- **Every row's id reads back.** -/
theorem Directory.id_of (h : SegFits stride rows) {i : Nat} (hi : i < rows.length) :
    (Directory.of rows).id i = some rows[i].id := by
  obtain ⟨hoff, hlen⟩ := idRange_of h hi (m := offsetOf SegmentRow.recordBytes rows i)
  unfold Directory.id
  rw [Directory.entry_of h hi, Option.bind_eq_bind, Option.bind_some, hoff, hlen]
  exact slice_flatMap SegmentRow.id hi

theorem directory_open (h : SegFits stride rows) :
    Directory.open (SegmentWriter.of dimension stride rows).directory.finish = .ok (Directory.of rows) := by
  have hentries : (SegmentWriter.of dimension stride rows).directory.entries.length = rows.length :=
    SegmentRow.entriesFrom_length 0 0 rows
  have hview : (SegmentWriter.of dimension stride rows).directory.view = Directory.of rows := by
    unfold DirectoryWriter.view
    rw [hentries]
    rfl
  rw [← hview]
  refine Directory.open_finish (by rw [hentries]; exact h.directory) h.ids_lt (fun i hi => ?_)
  rw [hentries] at hi
  obtain ⟨hoff, hlen⟩ := idRange_of h hi (m := offsetOf SegmentRow.recordBytes rows i)
  have hle := offsetOf_add_le SegmentRow.id hi
  unfold Directory.checkEntry
  rw [hview, Directory.entry_of h hi]
  simp only [hoff, hlen]
  exact if_neg (Nat.not_lt.mpr hle)

theorem records_open (h : SegFits stride rows) :
    MetaBlock.open (SegmentWriter.of dimension stride rows).records.finish =
      .ok ⟨rows.flatMap SegmentRow.recordBytes⟩ := by
  have hlt := h.records_lt
  have hb : openBlock (encodeBlock .metadata (rows.flatMap SegmentRow.recordBytes) ++ []) .metadata =
      .ok (rows.flatMap SegmentRow.recordBytes) := openBlock_encodeBlock (by omega) []
  rw [List.append_nil] at hb
  unfold MetaBlock.open
  show (do let payload ← openBlock (encodeBlock .metadata (rows.flatMap SegmentRow.recordBytes)) .metadata
           return ⟨payload⟩ : Except FormatError MetaBlock) = _
  rw [hb]; rfl

theorem MetaRecord.eq_default {r : MetaRecord} (h : r.isEmpty = true) : r = MetaRecord.default := by
  cases r with
  | mk metadata content =>
    cases metadata <;> cases content <;> first | rfl | cases h

/-- **Every row's record reads back.** -/
theorem MetaBlock.record_of (h : SegFits stride rows) {i : Nat} (hi : i < rows.length) {o : Nat} :
    MetaBlock.record ⟨rows.flatMap SegmentRow.recordBytes⟩
      (rows[i].entry (offsetOf SegmentRow.recordBytes rows i) o) = .ok rows[i].record := by
  have hfit := (h.each rows[i] (List.getElem_mem hi)).record
  have hlt := SegmentRow.recordBytes_lt hfit
  have hlen : (rows[i].entry (offsetOf SegmentRow.recordBytes rows i) o).metaLen.toNat =
      rows[i].recordBytes.length := ofNat_toNat_u32 hlt
  have hoff : (rows[i].entry (offsetOf SegmentRow.recordBytes rows i) o).metaOffset.toNat =
      offsetOf SegmentRow.recordBytes rows i := by
    have := offsetOf_le SegmentRow.recordBytes rows i
    have := h.records_lt
    exact ofNat_toNat_u64 (by omega)
  unfold MetaBlock.record
  cases he : rows[i].record.isEmpty with
  | true =>
    have hnil : rows[i].recordBytes = [] := by rw [SegmentRow.recordBytes, if_pos he]
    have hzero : (rows[i].entry (offsetOf SegmentRow.recordBytes rows i) o).metaLen = 0 := by
      apply UInt32.toNat.inj
      rw [hlen, hnil]; rfl
    rw [if_pos hzero, MetaRecord.eq_default he]
  | false =>
    obtain ⟨bs, hbs, hbslt⟩ := hfit.encodes
    have hbytes : rows[i].recordBytes = bs := by
      rw [SegmentRow.recordBytes, he, hbs]; rfl
    have hne : (rows[i].entry (offsetOf SegmentRow.recordBytes rows i) o).metaLen ≠ 0 := by
      intro hz
      rw [hz, hbytes] at hlen
      have := MetaRecord.encode_ne_nil hbs
      simp at hlen; omega
    rw [if_neg hne, hoff, hlen, slice_flatMap SegmentRow.recordBytes hi, hbytes]
    exact MetaRecord.decode_encode hfit.sorted hbs (by omega)

end ReadBack

end IshaVectorDb.Format
