import IshaVectorDb.Engine.Error
import IshaVectorDb.Format.Catalog
import IshaVectorDb.Format.Value
import Mathlib.Data.List.Lex
import Mathlib.Order.Basic

/-!
# `Engine.Document` — ids, vectors, metadata and what a caller hands in

What the engine checks about a document before it stores it, and the byte forms it stores. A component of a
vector is the bits of its `f32`; the reciprocal norm is the one thing computed in floating point, and is a
parameter of the engine (`InvNorm`).
-/

namespace IshaVectorDb.Engine

open Format

/-! ## Ids -/

/-- A document's id. -/
inductive DocId
  | str (s : Str)
  | u64 (v : UInt64)
deriving DecidableEq

namespace DocId

def toBytes : DocId → Bytes
  | .str s => s.bytes
  | .u64 v => Writer.u64 v

def fromBytes (kind : IdKind) (bs : Bytes) : Except DbError DocId :=
  match kind with
  | .str _ => match fromUtf8 bs with
    | some s => .ok (.str s)
    | none => .error (.validation (.invalidDocumentId .notUtf8 bs.length Limits.maxDocIdLen))
  | .u64 =>
      if bs.length = 8 then .ok (.u64 (UInt64.ofNat (Parsing.leNat bs)))
      else .error (.validation (.invalidDocumentId .illegalCharacter bs.length 8))

/-- `char::is_control`. -/
def isControl (c : Nat) : Bool := c < 0x20 || (0x7F ≤ c && c < 0xA0)

def validate (id : DocId) (kind : IdKind) : Except DbError Unit :=
  match id, kind with
  | .str s, .str maxLen =>
      let max := min maxLen.toNat Limits.maxDocIdLen
      if s.bytes.isEmpty then .error (.validation (.invalidDocumentId .empty 0 max))
      else if max < s.bytes.length then .error (.validation (.invalidDocumentId .tooLong s.bytes.length max))
      else if s.chars.any isControl then
        .error (.validation (.invalidDocumentId .illegalCharacter s.bytes.length max))
      else .ok ()
  | .u64 _, .u64 => .ok ()
  | id, _ => .error (.validation (.invalidDocumentId .illegalCharacter id.toBytes.length Limits.maxDocIdLen))

/-- The id's text. -/
def display : DocId → Bytes
  | .str s => s.bytes
  | .u64 v => (Nat.toDigits 10 v.toNat).map (fun c => UInt8.ofNat c.toNat)

/-- Whether the id is of the collection's kind. -/
def OfKind : DocId → IdKind → Prop
  | .str _, .str _ => True
  | .u64 _, .u64 => True
  | _, _ => False

instance (id : DocId) (kind : IdKind) : Decidable (id.OfKind kind) := by
  cases id <;> cases kind <;> unfold OfKind <;> infer_instance

theorem ofKind_of_validate {id : DocId} {kind : IdKind} (h : id.validate kind = .ok ()) : id.OfKind kind := by
  cases id with
  | str s => cases kind with
    | str maxLen => trivial
    | u64 => cases h
  | u64 v => cases kind with
    | str maxLen => cases h
    | u64 => trivial

/-- **An id of the collection's kind reads back from its bytes.** -/
theorem fromBytes_toBytes {id : DocId} {kind : IdKind} (h : id.OfKind kind) :
    fromBytes kind id.toBytes = .ok id := by
  cases id with
  | str s =>
    cases kind with
    | str maxLen => simp [fromBytes, toBytes]
    | u64 => cases h
  | u64 v =>
    cases kind with
    | str maxLen => cases h
    | u64 =>
      have hv : UInt64.ofNat (Parsing.leNat (Writer.u64 v)) = v := Parsing.leNat_u64 v
      simp [fromBytes, toBytes, hv]

theorem toBytes_inj {a b : DocId} {kind : IdKind} (ha : a.OfKind kind) (hb : b.OfKind kind)
    (h : a.toBytes = b.toBytes) : a = b := by
  have h1 := fromBytes_toBytes ha
  rw [h, fromBytes_toBytes hb] at h1
  exact (Except.ok.inj h1).symm

theorem toBytes_lt_of_validate {id : DocId} {kind : IdKind} (h : id.validate kind = .ok ()) :
    id.toBytes.length ≤ Limits.maxDocIdLen := by
  cases id with
  | u64 v => simp [toBytes, Limits.maxDocIdLen]
  | str s =>
    cases kind with
    | u64 => cases h
    | str maxLen =>
      simp only [validate] at h
      split_ifs at h
      show s.bytes.length ≤ _
      omega

/-- The order of ids: strings byte by byte, then numbers. -/
def sortKey : DocId → List Nat
  | .str s => 0 :: s.bytes.map UInt8.toNat
  | .u64 v => [1, v.toNat]

theorem sortKey_injective : Function.Injective sortKey := by
  intro a b h
  cases a with
  | str s =>
    cases b with
    | str t =>
      have hb : s.bytes.map UInt8.toNat = t.bytes.map UInt8.toNat := (List.cons.inj h).2
      exact congrArg DocId.str (Str.ext (List.map_injective_iff.mpr (fun _ _ => UInt8.toNat.inj) hb))
    | u64 w => exact absurd (List.cons.inj h).1 (by decide)
  | u64 v =>
    cases b with
    | str t => exact absurd (List.cons.inj h).1 (by decide)
    | u64 w =>
      have hb := (List.cons.inj (List.cons.inj h).2).1
      exact congrArg DocId.u64 (UInt64.toNat.inj hb)

instance : LinearOrder DocId := LinearOrder.lift' sortKey sortKey_injective

end DocId

/-! ## Vectors -/

/-- Bits of a finite `f32`. -/
structure FiniteF32 where
  bits : UInt32
  finite : Reader.finite32 bits = true
deriving DecidableEq

/-- The reciprocal of a stored vector's norm, zero for a vector without direction. It is finite: a norm that
    is not zero is at least the square root of the smallest `f32`. -/
abbrev InvNorm := Bytes → FiniteF32

/-- `chunks_exact(4)` read as little-endian words. -/
def words32 : Bytes → List UInt32
  | a :: b :: c :: d :: rest => UInt32.ofNat (Parsing.leNat [a, b, c, d]) :: words32 rest
  | _ => []

/-- A borrowed vector: components, or stored bytes said to hold `dimension` components. -/
inductive VectorView
  | f32 (values : List UInt32)
  | raw (dtype : VectorDType) (bytes : Bytes) (dimension : UInt32)
deriving DecidableEq

/-- The name the source gives a vector that is not yet a collection's: `<input>`. -/
def inputLabel : Bytes := [0x3C, 0x69, 0x6E, 0x70, 0x75, 0x74, 0x3E]

/-- `<memtable>`. -/
def memtableLabel : Bytes := [0x3C, 0x6D, 0x65, 0x6D, 0x74, 0x61, 0x62, 0x6C, 0x65, 0x3E]

/-- `<content>`. -/
def contentLabel : Bytes := [0x3C, 0x63, 0x6F, 0x6E, 0x74, 0x65, 0x6E, 0x74, 0x3E]

/-- `<document>`. -/
def documentLabel : Bytes := [0x3C, 0x64, 0x6F, 0x63, 0x75, 0x6D, 0x65, 0x6E, 0x74, 0x3E]

namespace VectorView

/-- A view of stored bytes, checked to be as long as the dimension asks. -/
def ofRaw (dtype : VectorDType) (bytes : Bytes) (dimension : UInt32) : Except DbError VectorView :=
  if bytes.length ≠ dtype.rowStride dimension then
    .error (.validation (.invalidVectorDimension inputLabel dimension
      (UInt32.ofNat (bytes.length / max dtype.componentSize 1))))
  else .ok (.raw dtype bytes dimension)

def dimension : VectorView → UInt32
  | f32 values => UInt32.ofNat values.length
  | raw _ _ dimension => dimension

/-- The stored form. -/
def toBytes : VectorView → Bytes
  | f32 values => values.flatMap Writer.u32
  | raw _ bytes _ => bytes

/-- The components. -/
def toF32 : VectorView → List UInt32
  | f32 values => values
  | raw _ bytes _ => words32 bytes

/-- Which kind of non-finite number the bits are. -/
def nonFiniteKind (bits : UInt32) : NonFiniteKind :=
  if bits.toNat % 2 ^ 23 ≠ 0 then .nan else if bits.toNat < 2 ^ 31 then .posInf else .negInf

def checkFiniteFrom (index : Nat) : List UInt32 → Except DbError Unit
  | [] => .ok ()
  | bits :: rest =>
      if Reader.finite32 bits then checkFiniteFrom (index + 1) rest
      else .error (.validation (.invalidVectorData (nonFiniteKind bits) index))

def checkFinite (v : VectorView) : Except DbError Unit := checkFiniteFrom 0 v.toF32

def checkDimension (v : VectorView) (collection : Bytes) (expected : UInt32) : Except DbError Unit :=
  if v.dimension ≠ expected then .error (.validation (.invalidVectorDimension collection expected v.dimension))
  else .ok ()

def validate (v : VectorView) (collection : Bytes) (expected : UInt32) : Except DbError Unit := do
  v.checkDimension collection expected
  v.checkFinite

/-- **The documented precondition of a raw view**: its bytes are as many as its dimension asks. A view made by
    `ofRaw` has it; a literal may not. -/
def WellFormed : VectorView → Prop
  | f32 values => values.length < 2 ^ 32
  | raw dtype bytes dimension => bytes.length = dtype.rowStride dimension

instance (v : VectorView) : Decidable v.WellFormed := by
  cases v <;> unfold WellFormed <;> infer_instance

theorem toBytes_length {v : VectorView} (h : v.WellFormed) :
    v.toBytes.length = VectorDType.f32.rowStride v.dimension := by
  cases v with
  | f32 values =>
    have hw : (UInt32.ofNat values.length).toNat = values.length := by
      rw [UInt32.toNat_ofNat']; exact Nat.mod_eq_of_lt h
    have hb : (values.flatMap Writer.u32).length = values.length * 4 := by
      induction values with
      | nil => rfl
      | cons a l ih =>
        have hl : l.length < 2 ^ 32 := Nat.lt_of_succ_lt h
        rw [List.flatMap_cons, List.length_append, Writer.u32_length, List.length_cons,
          ih hl (by rw [UInt32.toNat_ofNat']; exact Nat.mod_eq_of_lt hl)]
        omega
    show (values.flatMap Writer.u32).length = 4 * (UInt32.ofNat values.length).toNat
    rw [hw, hb, Nat.mul_comm]
  | raw dtype bytes dimension => cases dtype; exact h

end VectorView

/-! ## Metadata -/

/-- Document metadata: a map with ascending keys, like every map inside it. -/
structure Metadata where
  entries : List (Str × Value)
  sorted : (Value.map entries).Sorted

namespace Metadata

def new : Metadata := ⟨[], List.Pairwise.nil, trivial⟩

def len (m : Metadata) : Nat := m.entries.length

theorem ext {m n : Metadata} (h : m.entries = n.entries) : m = n := by
  cases m; cases n; simpa using h

def toValue (m : Metadata) : Value := .map m.entries

/-- Nesting, counted from zero. -/
def depth (m : Metadata) : Nat :=
  if m.entries.isEmpty then 0 else 1 + (m.entries.map (fun e => e.2.depth)).foldr max 0 - 1

/-- The field whose encoding is largest, the last of several. -/
def culprit (m : Metadata) : Bytes :=
  let size (v : Value) : Nat := (v.encode.toOption.map List.length).getD 0
  match m.entries with
  | [] => documentLabel
  | e :: rest => (rest.foldl (fun best e => if size best.2 ≤ size e.2 then e else best) e).1.bytes

def validate (m : Metadata) : Except DbError Unit := do
  if Limits.maxMetadataDepth < m.depth then
    throw (.validation (.metadataDepthExceeded m.depth Limits.maxMetadataDepth))
  let encoded ← formatAt .root m.toValue.encode
  if Limits.maxMetadataBytes < encoded.length then
    throw (.validation (.metadataTooLarge m.culprit encoded.length Limits.maxMetadataBytes))

def encode (m : Metadata) : Except DbError Bytes := do
  m.validate
  formatAt .root m.toValue.encode

/-- Decode stored metadata; no bytes are no metadata. -/
def decode (bs : Bytes) : Except DbError Metadata :=
  if bs.isEmpty then .ok new
  else match h : Value.decode bs with
    | .ok (.map entries) => .ok ⟨entries, Value.decode_sorted h⟩
    | .ok _ => .error (.internal "metadata decoded as a value rather than a map")
    | .error e => .error (fromFormatAt .root e)

theorem encode_eq_ok {m : Metadata} {bs : Bytes} (h : m.encode = .ok bs) : m.toValue.encode = .ok bs := by
  obtain ⟨_, -, h2⟩ := Parsing.except_bind_eq_ok.mp h
  cases he : m.toValue.encode with
  | ok b => rw [he] at h2; exact congrArg _ (Except.ok.inj h2)
  | error e => rw [he] at h2; cases h2

theorem length_le_of_encode {m : Metadata} {bs : Bytes} (h : m.encode = .ok bs) :
    bs.length ≤ Limits.maxMetadataBytes := by
  have he := encode_eq_ok h
  obtain ⟨_, hv, -⟩ := Parsing.except_bind_eq_ok.mp h
  by_contra hc
  simp only [validate, he, formatAt_ok, Parsing.except_ok_bind] at hv
  split_ifs at hv
  all_goals first | omega | cases hv

/-- The encoding of a map is never empty. -/
theorem encode_ne_nil {m : Metadata} {bs : Bytes} (h : m.encode = .ok bs) : bs ≠ [] := by
  have hguard : Value.guardDepth maxValueDepth 0 (m.toValue.body maxValueDepth 0) = .ok bs := encode_eq_ok h
  have hw := (Value.guardDepth_eq_ok.mp hguard).2
  exact List.ne_nil_of_length_pos (Value.body_length_pos hw)

/-- **The round trip of stored metadata.** -/
theorem decode_encode {m : Metadata} {bs : Bytes} (h : m.encode = .ok bs) : decode bs = .ok m := by
  have hlen := length_le_of_encode h
  have hd : Value.decode bs = .ok (.map m.entries) := by
    refine Value.decode_encode m.sorted (encode_eq_ok h) ?_
    unfold Limits.maxMetadataBytes at hlen
    omega
  have hne : bs.isEmpty = false := by
    rw [List.isEmpty_eq_false_iff]; exact encode_ne_nil h
  unfold decode
  rw [hne]
  split
  · rename_i hc; cases hc
  · split
    · rename_i entries he
      rw [hd] at he
      obtain rfl := Value.map.inj (Except.ok.inj he)
      rfl
    · rename_i v hv he
      rw [hd] at he
      exact absurd (Except.ok.inj he).symm (fun h => hv _ h)
    · rename_i e he
      rw [hd] at he; cases he

end Metadata

/-! ## Documents -/

/-- A document being written. -/
structure DocumentInput where
  id : DocId
  vector : VectorView
  metadata : Option Metadata
  content : Option Bytes

namespace DocumentInput

def checkMetadata : Option Metadata → Except DbError Unit
  | some m => m.validate
  | none => .ok ()

def checkContent : Option Bytes → Except DbError Unit
  | some c =>
      if Limits.maxContentBytes < c.length then
        .error (.validation (.metadataTooLarge contentLabel c.length Limits.maxContentBytes))
      else .ok ()
  | none => .ok ()

def validate (doc : DocumentInput) (collection : Bytes) (dimension : UInt32) (idKind : IdKind) :
    Except DbError Unit := do
  doc.id.validate idKind
  doc.vector.validate collection dimension
  checkMetadata doc.metadata
  checkContent doc.content

end DocumentInput

/-- A document read back. -/
structure Document where
  id : DocId
  vector : Option (List UInt32)
  metadata : Metadata
  content : Option Bytes

/-- What a read brings along. -/
structure Include where
  vector : Bool
  metadata : Bool
  content : Bool
deriving DecidableEq, Repr

/-! ## Batches -/

/-- One operation of a batch. -/
inductive BatchOp
  | upsert (id : DocId) (vector : Bytes) (metadata : Option Metadata) (content : Option Bytes)
  | delete (id : DocId)

def BatchOp.id : BatchOp → DocId
  | .upsert id _ _ _ => id
  | .delete id => id

/-- A group of writes applied atomically. -/
structure WriteBatch where
  ops : List BatchOp

namespace WriteBatch

def new : WriteBatch := ⟨[]⟩

def upsert (b : WriteBatch) (doc : DocumentInput) : WriteBatch :=
  ⟨b.ops ++ [.upsert doc.id doc.vector.toBytes doc.metadata doc.content]⟩

def delete (b : WriteBatch) (id : DocId) : WriteBatch := ⟨b.ops ++ [.delete id]⟩

def validate (b : WriteBatch) : Except DbError Unit :=
  if Limits.maxBatchOps < b.ops.length then .error (.validation (.batchTooLarge b.ops.length Limits.maxBatchOps))
  else .ok ()

end WriteBatch

/-- What a committed batch did. -/
structure BatchReport where
  inserted : Nat
  updated : Nat
  deleted : Nat
  missingDeletes : Nat
deriving DecidableEq, Repr

/-- The report of a batch that did nothing. -/
def BatchReport.zero : BatchReport := ⟨0, 0, 0, 0⟩

end IshaVectorDb.Engine
