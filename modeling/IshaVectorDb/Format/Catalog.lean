import IshaVectorDb.Format.Block

/-!
# `Format.Catalog` — a collection's immutable specification

Written once when the collection is created. `decode_encode` is the round trip of a valid catalog.
-/

namespace IshaVectorDb.Format

open Parsing

/-- Largest vector dimension the format can describe. -/
def maxDimension : UInt32 := 65536

/-- How similarity is measured in a collection. -/
inductive Metric
  | cosine
  | l2
  | dot
deriving DecidableEq, Repr

namespace Metric

def code : Metric → UInt8
  | cosine => 1
  | l2 => 2
  | dot => 3

def fromCode (v : UInt8) : Option Metric :=
  if v = 1 then some cosine else if v = 2 then some l2 else if v = 3 then some dot else none

@[simp] theorem fromCode_code (m : Metric) : fromCode m.code = some m := by cases m <;> rfl

end Metric

/-- How vector components are stored. -/
inductive VectorDType
  | f32
deriving DecidableEq, Repr

namespace VectorDType

def code : VectorDType → UInt8
  | f32 => 1

def fromCode (v : UInt8) : Option VectorDType := if v = 1 then some f32 else none

/-- Bytes per component. -/
def componentSize : VectorDType → Nat
  | f32 => 4

/-- Bytes one vector of `dimension` components occupies. -/
def rowStride (d : VectorDType) (dimension : UInt32) : Nat := d.componentSize * dimension.toNat

@[simp] theorem fromCode_code (d : VectorDType) : fromCode d.code = some d := by cases d; rfl

end VectorDType

/-- What kind of document id a collection uses. -/
inductive IdKind
  | str (maxLen : UInt32)
  | u64
deriving DecidableEq, Repr

/-- Which index a collection uses. -/
inductive IndexSpec
  | flat
deriving DecidableEq, Repr

def IndexSpec.code : IndexSpec → UInt8
  | .flat => 1

/-- A collection's immutable specification. -/
structure Catalog where
  name : Str
  dimension : UInt32
  metric : Metric
  dtype : VectorDType
  idKind : IdKind
  index : IndexSpec
  createdAtMs : UInt64
deriving DecidableEq

namespace Catalog

/-- Bytes one stored vector occupies. -/
def rowStride (c : Catalog) : Nat := c.dtype.rowStride c.dimension

def validate (c : Catalog) : Except FormatError Unit :=
  if c.dimension = 0 then .error (.malformed 0 (.zeroNotAllowed "dimension"))
  else if maxDimension < c.dimension then .error (.malformed 0 (.inconsistent "dimension"))
  else if c.name.bytes.isEmpty then .error (.malformed 0 (.zeroNotAllowed "name length"))
  else if c.idKind = .str 0 then .error (.malformed 0 (.zeroNotAllowed "id max_len"))
  else .ok ()

def idKindBytes : IdKind → Bytes
  | .str maxLen => [1] ++ Writer.u32 maxLen
  | .u64 => [2] ++ Writer.u32 0

def payload (c : Catalog) : Bytes :=
  Writer.string c.name ++ (Writer.u32 c.dimension ++ ([c.metric.code] ++ ([c.dtype.code] ++
    (idKindBytes c.idKind ++ ([c.index.code] ++ (Writer.blob [] ++ (Writer.u64 c.createdAtMs ++
      Writer.reserved 8)))))))

/-- Serialize to a complete, checksummed `CATALOG` file. -/
def encode (c : Catalog) : Except FormatError Bytes := do
  c.validate
  return encodeBlock .catalog c.payload

def readMetric : Reader Metric := do
  let at_ ← position
  match Metric.fromCode (← Reader.u8) with
  | some m => return m
  | none => fail (.malformed at_ (.unknownDiscriminant "metric" 0))

def readDType : Reader VectorDType := do
  let at_ ← position
  let code ← Reader.u8
  match VectorDType.fromCode code with
  | some d => return d
  | none => fail (.malformed at_ (.unknownDiscriminant "dtype" code))

def readIdKind : Reader IdKind := do
  let at_ ← position
  let code ← Reader.u8
  let maxLen ← Reader.u32
  if code = 1 then return .str maxLen
  else if code = 2 then return .u64
  else fail (.malformed at_ (.unknownDiscriminant "id_kind" code))

def readIndex : Reader IndexSpec := do
  let at_ ← position
  let code ← Reader.u8
  let _params ← Reader.blob
  if code = 1 then return .flat
  else fail (.malformed at_ (.unknownDiscriminant "index" code))

/-- Validation failures are re-anchored at the dimension field. -/
def reanchor (at_ : Nat) : Except FormatError Unit → Except FormatError Unit
  | .error (.malformed _ kind) => .error (.malformed at_ kind)
  | r => r

def read : Reader Catalog := do
  let name ← Reader.string
  let dimAt ← position
  let dimension ← Reader.u32
  let metric ← readMetric
  let dtype ← readDType
  let idKind ← readIdKind
  let index ← readIndex
  let createdAtMs ← Reader.u64
  Reader.reserved 8
  Reader.expectEnd "catalog"
  let catalog : Catalog := ⟨name, dimension, metric, dtype, idKind, index, createdAtMs⟩
  checked (reanchor dimAt catalog.validate)
  return catalog

/-- Parse a `CATALOG` file. -/
def decode (bs : Bytes) : Except FormatError Catalog := do
  let payload ← decodeBlock bs .catalog
  (read ⟨payload, 0⟩).map Prod.fst

/-! ## Round trip -/

theorem reads_metric (m : Metric) : Reads readMetric [m.code] m := by
  refine Reads.position_bind (fun o => (Reader.reads_u8 m.code).bind_nil ?_)
  rw [Metric.fromCode_code]; exact Reads.pure m

theorem reads_dtype (d : VectorDType) : Reads readDType [d.code] d := by
  refine Reads.position_bind (fun o => (Reader.reads_u8 d.code).bind_nil ?_)
  rw [VectorDType.fromCode_code]; exact Reads.pure d

theorem reads_idKind (k : IdKind) : Reads readIdKind (idKindBytes k) k := by
  cases k with
  | str maxLen =>
    refine Reads.position_bind (fun o => (Reader.reads_u8 1).bind ((Reader.reads_u32 maxLen).bind_nil ?_))
    exact Reads.pure (IdKind.str maxLen)
  | u64 =>
    refine Reads.position_bind (fun o => (Reader.reads_u8 2).bind ((Reader.reads_u32 0).bind_nil ?_))
    exact Reads.pure IdKind.u64

theorem reads_index (x : IndexSpec) : Reads readIndex ([x.code] ++ Writer.blob []) x := by
  cases x
  have hparams : Reads Reader.blob (Writer.blob []) [] := Reader.reads_blob (by simp)
  refine Reads.position_bind (fun o => (Reader.reads_u8 1).bind (hparams.bind_nil ?_))
  exact Reads.pure IndexSpec.flat

/-- A catalog that can be written: valid, with a name of the length the engine allows. -/
structure Writable (c : Catalog) : Prop where
  valid : c.validate = .ok ()
  name : c.name.bytes.length ≤ 64

theorem payload_length_lt {c : Catalog} (h : c.Writable) : c.payload.length + 36 < 2 ^ 64 := by
  have hv : (Writer.varint (UInt64.ofNat c.name.bytes.length)).length ≤ 10 :=
    Varint.encodeU64_length_le _
  have hb : (Writer.blob ([] : Bytes)).length ≤ 10 := by
    rw [Writer.blob_length]; exact Varint.encodeU64_length_le _
  have hk : (idKindBytes c.idKind).length = 5 := by cases c.idKind <;> simp [idKindBytes]
  have hn := h.name
  have hs : (Writer.string c.name).length ≤ 74 := by
    rw [Writer.string, Writer.blob_length]; omega
  simp only [payload, List.length_append, Writer.u32_length, Writer.u64_length, Writer.reserved_length,
    List.length_singleton, hk]
  omega

theorem readsAll_payload {c : Catalog} (h : c.Writable) : ReadsAll read c.payload c := by
  have hn : c.name.bytes.length < 2 ^ 64 := by have := h.name; omega
  have hval : ∀ o, reanchor o c.validate = .ok () := fun o => by rw [h.valid]; rfl
  have hsplit : c.payload = Writer.string c.name ++ (Writer.u32 c.dimension ++ ([c.metric.code] ++
      ([c.dtype.code] ++ (idKindBytes c.idKind ++ (([c.index.code] ++ Writer.blob []) ++
        (Writer.u64 c.createdAtMs ++ Writer.reserved 8)))))) := by
    simp [payload]
  rw [hsplit]
  refine ReadsAll.bind (Reader.reads_string hn) (ReadsAll.position_bind (fun dimAt => ?_))
  refine ReadsAll.bind (Reader.reads_u32 _) (ReadsAll.bind (reads_metric _) (ReadsAll.bind (reads_dtype _) ?_))
  refine ReadsAll.bind (reads_idKind _) (ReadsAll.bind (reads_index _) (ReadsAll.bind (Reader.reads_u64 _) ?_))
  refine ReadsAll.bind_nil (ReadsAll.of_reads (Reader.reads_reserved 8)) ?_
  refine ReadsAll.bind_nil (Reader.readsAll_expectEnd _) ?_
  refine ReadsAll.checked_bind (hval dimAt) ?_
  exact ReadsAll.pure c

/-- **The round trip of a catalog.** -/
theorem decode_encode {c : Catalog} (h : c.Writable) (rest : Bytes) :
    decode (encodeBlock .catalog c.payload ++ rest) = .ok c := by
  unfold decode
  rw [decodeBlock_encodeBlock (payload_length_lt h)]
  show (read ⟨c.payload, 0⟩).map Prod.fst = _
  rw [readsAll_payload h 0]; rfl

theorem encode_eq {c : Catalog} (h : c.Writable) : c.encode = .ok (encodeBlock .catalog c.payload) := by
  unfold encode; rw [h.valid]; rfl

end Catalog

end IshaVectorDb.Format
