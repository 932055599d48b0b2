import IshaVectorDb.Format.Cursor
import IshaVectorDb.Format.Crc32c

/-!
# `Format.Block` — file headers and checksummed blocks

Every file but the log is `header ++ payload ++ crc32c payload`. Three facts about it carry the rest of the
development: a block decodes to its payload whatever follows it (`decodeBlock_encodeBlock`), a strict prefix
of a block is refused as truncated (`decodeBlock_torn`), and opening without the checksum agrees with both
(`openBlock_encodeBlock`, `openBlock_torn`).
-/

namespace IshaVectorDb.Format

open Parsing

def formatVersion : UInt16 := 2

def minReadableVersion : UInt16 := 1

def magicPrefix : Bytes := [0x56, 0x44, 0x42, 0x31]

/-- Size of the fixed part of the header. -/
def headerLen : Nat := 32

/-- Bytes the header checksum covers. -/
def crcCovers : Nat := 24

/-- Which kind of file this is. -/
inductive FileKind
  | manifest
  | catalog
  | wal
  | vectors
  | directory
  | metadata
  | deleted
  | index
deriving DecidableEq, Repr

namespace FileKind

/-- The four-byte tag that follows the magic prefix. -/
def tag : FileKind → Bytes
  | manifest => [0x4D, 0x41, 0x4E, 0x49]
  | catalog => [0x43, 0x41, 0x54, 0x4C]
  | wal => [0x57, 0x41, 0x4C, 0x00]
  | vectors => [0x56, 0x45, 0x43, 0x00]
  | directory => [0x44, 0x49, 0x52, 0x00]
  | metadata => [0x4D, 0x45, 0x54, 0x41]
  | deleted => [0x44, 0x45, 0x4C, 0x00]
  | index => [0x49, 0x44, 0x58, 0x00]

/-- The full eight-byte magic. -/
def magic (k : FileKind) : Bytes := magicPrefix ++ k.tag

/-- Every kind. -/
def all : List FileKind := [manifest, catalog, wal, vectors, directory, metadata, deleted, index]

def fromTag (t : Bytes) : Option FileKind := all.find? (fun k => k.tag == t)

@[simp] theorem magic_length (k : FileKind) : k.magic.length = 8 := by cases k <;> rfl

@[simp] theorem fromTag_tag (k : FileKind) : fromTag k.tag = some k := by cases k <;> decide

end FileKind

/-! ## The header -/

/-- A decoded file header. -/
structure FileHeader where
  kind : FileKind
  version : UInt16
  flags : UInt16
  headerLen : UInt32
  payloadLen : UInt64
deriving DecidableEq, Repr

namespace FileHeader

/-- A header of the current version for a payload of `payloadLen` bytes. -/
def new (kind : FileKind) (payloadLen : UInt64) : FileHeader :=
  ⟨kind, formatVersion, 0, UInt32.ofNat Format.headerLen, payloadLen⟩

/-- The bytes the header checksum covers. -/
def covered (h : FileHeader) : Bytes :=
  h.kind.magic ++ (Writer.u16 h.version ++ (Writer.u16 h.flags ++ (Writer.u32 h.headerLen ++
    Writer.u64 h.payloadLen)))

def encode (h : FileHeader) : Bytes := h.covered ++ (Writer.u32 (crc32c h.covered) ++ Writer.reserved 4)

/-- The fixed fields after the magic, the stored checksum last. -/
def fields : Reader (UInt16 × UInt16 × UInt32 × UInt64 × UInt32) := do
  let version ← Reader.u16
  let flagBits ← Reader.u16
  let headerLen ← Reader.u32
  let payloadLen ← Reader.u64
  let storedCrc ← Reader.u32
  return (version, flagBits, headerLen, payloadLen, storedCrc)

/-- The checks on the fields, in the order of the source: integrity, version, structure. -/
def check (kind : FileKind) (covered : Bytes) :
    UInt16 × UInt16 × UInt32 × UInt64 × UInt32 → Reader FileHeader
  | (version, flagBits, headerLen, payloadLen, storedCrc) => do
      if crc32c covered ≠ storedCrc then fail (.checksumMismatch 0 storedCrc (crc32c covered))
      if version < minReadableVersion ∨ formatVersion < version then
        fail (.unsupportedVersion version.toNat minReadableVersion.toNat formatVersion.toNat)
      if 3 < flagBits then fail (.malformed 10 (.unknownFlags flagBits.toNat))
      if headerLen < 32 then fail (.malformed 12 .headerTooShort)
      Reader.reserved 4
      return ⟨kind, version, flagBits, headerLen, payloadLen⟩

/-- The magic an unrecognised file is said to lack. -/
def unknownMagic : Bytes := magicPrefix ++ [0x3F, 0x3F, 0x3F, 0x3F]

/-- Decode a header without knowing which kind to expect. -/
def decodeAny (bs : Bytes) : Except FormatError FileHeader :=
  if bs.length < 8 then .error (.truncated 0 Format.headerLen bs.length)
  else if bs.take 4 ≠ magicPrefix then .error (.badMagic unknownMagic (bs.take 8))
  else match FileKind.fromTag ((bs.take 8).drop 4) with
    | none => .error (.malformed 4 (.unknownFileKind ((bs.take 8).drop 4)))
    | some kind => ((fields >>= check kind (bs.take crcCovers)) ⟨bs.drop 8, 8⟩).map Prod.fst

/-- Decode a header and check that it is the kind the caller expected. -/
def decode (bs : Bytes) (expected : FileKind) : Except FormatError FileHeader := do
  let header ← decodeAny bs
  if header.kind ≠ expected then throw (.badMagic expected.magic header.kind.magic)
  return header

@[simp] theorem covered_length (h : FileHeader) : h.covered.length = 24 := by simp [covered]

@[simp] theorem encode_length (h : FileHeader) : h.encode.length = 32 := by simp [encode]

/-- The encoded fields after the magic. -/
def fieldBytes (h : FileHeader) : Bytes :=
  Writer.u16 h.version ++ (Writer.u16 h.flags ++ (Writer.u32 h.headerLen ++ (Writer.u64 h.payloadLen ++
    Writer.u32 (crc32c h.covered))))

theorem encode_eq (h : FileHeader) : h.encode = h.kind.magic ++ (h.fieldBytes ++ Writer.reserved 4) := by
  simp [encode, covered, fieldBytes]

@[simp] theorem fieldBytes_length (h : FileHeader) : h.fieldBytes.length = 20 := by simp [fieldBytes]

theorem reads_fields (h : FileHeader) :
    Reads fields h.fieldBytes (h.version, h.flags, h.headerLen, h.payloadLen, crc32c h.covered) :=
  (Reader.reads_u16 _).bind ((Reader.reads_u16 _).bind ((Reader.reads_u32 _).bind
    ((Reader.reads_u64 _).bind ((Reader.reads_u32 _).bind_nil (Reads.pure _)))))

theorem torn_fields (h : FileHeader) : Torn Reader.Cut fields h.fieldBytes :=
  (Reader.torn_u16 _).bind (Reader.reads_u16 _) ((Reader.torn_u16 _).bind (Reader.reads_u16 _)
    ((Reader.torn_u32 _).bind (Reader.reads_u32 _) ((Reader.torn_u64 _).bind (Reader.reads_u64 _)
      (Reader.torn_u32 _).bind_left)))

theorem check_eq (kind : FileKind) (len : UInt64) :
    check kind (new kind len).covered (formatVersion, 0, UInt32.ofNat Format.headerLen, len,
      crc32c (new kind len).covered) = (do Reader.reserved 4; return new kind len) := by
  have hv : ¬ (formatVersion < minReadableVersion ∨ formatVersion < formatVersion) := by decide
  have hf : ¬ ((3 : UInt16) < 0) := by decide
  have hl : ¬ (UInt32.ofNat Format.headerLen < 32) := by decide
  simp only [check, ne_eq, not_true, if_false, if_neg hv, if_neg hf, if_neg hl]
  rfl

theorem fromTag_magic (k : FileKind) (rest : Bytes) :
    FileKind.fromTag (((k.magic ++ rest).take 8).drop 4) = some k ∧ (k.magic ++ rest).take 4 = magicPrefix := by
  cases k <;> exact ⟨rfl, rfl⟩

theorem decodeAny_new (kind : FileKind) (len : UInt64) (rest : Bytes) :
    decodeAny ((new kind len).encode ++ rest) = .ok (new kind len) := by
  have hcov : ((new kind len).encode ++ rest).take crcCovers = (new kind len).covered := by
    rw [encode, List.append_assoc]
    exact List.take_left' (by rw [covered_length]; rfl)
  have htail : ((new kind len).encode ++ rest).drop 8
      = (new kind len).fieldBytes ++ (Writer.reserved 4 ++ rest) := by
    rw [encode_eq, List.append_assoc, List.append_assoc]
    exact List.drop_left' (FileKind.magic_length _)
  obtain ⟨hkind, hwith⟩ := fromTag_magic kind ((new kind len).fieldBytes ++ Writer.reserved 4 ++ rest)
  have hwhole : (new kind len).encode ++ rest
      = kind.magic ++ ((new kind len).fieldBytes ++ Writer.reserved 4 ++ rest) := by
    rw [encode_eq]; exact List.append_assoc _ _ _
  unfold decodeAny
  rw [if_neg (by rw [List.length_append, encode_length]; omega), hcov, htail, hwhole, hwith, hkind]
  simp only [ne_eq, not_true, if_false]
  rw [bind_of_ok (reads_fields (new kind len) _ 8)]
  show (check kind _ (formatVersion, 0, UInt32.ofNat Format.headerLen, len, _) _).map _ = _
  rw [check_eq, bind_of_ok (Reader.reads_reserved 4 rest _)]
  rfl

/-- A header cut short is refused as truncated. -/
theorem decodeAny_torn (kind : FileKind) (len : UInt64) {k : Nat} (hk : k < 32) :
    ∃ e, decodeAny ((new kind len).encode.take k) = .error e ∧ Reader.Cut e := by
  have hlen : ((new kind len).encode.take k).length = k := by rw [List.length_take, encode_length]; omega
  unfold decodeAny
  by_cases h8 : k < 8
  · rw [if_pos (by omega)]; exact ⟨_, rfl, rfl⟩
  have hsplit : (new kind len).encode.take k
      = kind.magic ++ ((new kind len).fieldBytes ++ Writer.reserved 4).take (k - 8) := by
    rw [encode_eq, List.take_append, List.take_of_length_le (by rw [FileKind.magic_length]; omega)]
    rw [FileKind.magic_length]; rfl
  obtain ⟨hkind, hwith⟩ := fromTag_magic kind (((new kind len).fieldBytes ++ Writer.reserved 4).take (k - 8))
  have htail : ((new kind len).encode.take k).drop 8
      = ((new kind len).fieldBytes ++ Writer.reserved 4).take (k - 8) := by
    rw [hsplit]; exact List.drop_left' (FileKind.magic_length _)
  have hcov : 28 ≤ k → ((new kind len).encode.take k).take crcCovers = (new kind len).covered := by
    intro h28
    rw [List.take_take, Nat.min_eq_left (by show 24 ≤ k; omega), encode]
    exact List.take_left' (by rw [covered_length]; rfl)
  rw [if_neg (by omega), htail]
  rw [← hsplit] at hkind hwith
  rw [hwith, hkind]
  simp only [ne_eq, not_true, if_false]
  by_cases h28 : k < 28
  · have hcut : ((new kind len).fieldBytes ++ Writer.reserved 4).take (k - 8)
        = (new kind len).fieldBytes.take (k - 8) := by
      rw [List.take_append_of_le_length (by rw [fieldBytes_length]; omega)]
    obtain ⟨e, he, hT⟩ := torn_fields (new kind len) (k - 8) (by rw [fieldBytes_length]; omega) 8
    refine ⟨e, ?_, hT⟩
    rw [hcut, bind_of_error he]; rfl
  · have hcut : ((new kind len).fieldBytes ++ Writer.reserved 4).take (k - 8)
        = (new kind len).fieldBytes ++ (Writer.reserved 4).take (k - 28) := by
      rw [List.take_append, List.take_of_length_le (by rw [fieldBytes_length]; omega), fieldBytes_length,
        Nat.sub_sub]
    obtain ⟨e, he, hT⟩ := Reader.torn_reserved 4 (k - 28) (by rw [Writer.reserved_length]; omega) (8 + 20)
    refine ⟨e, ?_, hT⟩
    rw [hcov (by omega), hcut, bind_of_ok (reads_fields (new kind len) _ 8)]
    show (check kind _ (formatVersion, 0, UInt32.ofNat Format.headerLen, len, _) _).map _ = _
    rw [check_eq, fieldBytes_length, bind_of_error he]; rfl

theorem decode_new (kind : FileKind) (len : UInt64) (rest : Bytes) :
    decode ((new kind len).encode ++ rest) kind = .ok (new kind len) := by
  unfold decode
  rw [decodeAny_new]
  cases kind <;> rfl

theorem decode_torn (kind : FileKind) (len : UInt64) {k : Nat} (hk : k < 32) :
    ∃ e, decode ((new kind len).encode.take k) kind = .error e ∧ Reader.Cut e := by
  obtain ⟨e, he, hT⟩ := decodeAny_torn kind len hk
  refine ⟨e, ?_, hT⟩
  unfold decode; rw [he]; rfl

end FileHeader

/-! ## Blocks -/

/-- Bytes of checksum after the payload. -/
def trailerLen : Nat := 4

def encodeBlock (kind : FileKind) (payload : Bytes) : Bytes :=
  (FileHeader.new kind (UInt64.ofNat payload.length)).encode ++ (payload ++ Writer.u32 (crc32c payload))

/-- Where a block's payload starts, and how long it is. -/
def locate (bs : Bytes) (kind : FileKind) : Except FormatError (Nat × Nat) := do
  let header ← FileHeader.decode bs kind
  let start := header.headerLen.toNat
  let stop := start + header.payloadLen.toNat + trailerLen
  if 2 ^ 64 ≤ stop then throw (.truncated start header.payloadLen.toNat bs.length)
  if bs.length < stop then throw (.truncated start stop bs.length)
  return (start, header.payloadLen.toNat)

/-- Compare a payload with the checksum behind it. -/
def checkPayload (bs : Bytes) (start len : Nat) : Except FormatError Unit :=
  let payload := (bs.drop start).take len
  let stored := UInt32.ofNat (leNat ((bs.drop (start + len)).take trailerLen))
  if crc32c payload ≠ stored then .error (.checksumMismatch start stored (crc32c payload)) else .ok ()

/-- A block's payload, its checksum not verified. -/
def openBlock (bs : Bytes) (kind : FileKind) : Except FormatError Bytes := do
  let (start, len) ← locate bs kind
  return (bs.drop start).take len

/-- A block's payload, its checksum verified. -/
def decodeBlock (bs : Bytes) (kind : FileKind) : Except FormatError Bytes := do
  let (start, len) ← locate bs kind
  checkPayload bs start len
  return (bs.drop start).take len

/-- Verify a block's checksum without interpreting it. -/
def verifyBlock (bs : Bytes) (kind : FileKind) : Except FormatError Unit := do
  let (start, len) ← locate bs kind
  checkPayload bs start len

@[simp] theorem encodeBlock_length (kind : FileKind) (payload : Bytes) :
    (encodeBlock kind payload).length = 36 + payload.length := by
  simp [encodeBlock]; omega

theorem ofNat_toNat_u64 {n : Nat} (h : n < 2 ^ 64) : (UInt64.ofNat n).toNat = n := by
  rw [UInt64.toNat_ofNat']; exact Nat.mod_eq_of_lt h

/-- A header of the current version locates the payload it declares, whatever the payload holds. -/
theorem locate_new {kind : FileKind} {len : Nat} {tail : Bytes} (h : len + 36 < 2 ^ 64) (htail : len + 4 ≤ tail.length) :
    locate ((FileHeader.new kind (UInt64.ofNat len)).encode ++ tail) kind = .ok (32, len) := by
  unfold locate
  rw [FileHeader.decode_new]
  have hlen : (FileHeader.new kind (UInt64.ofNat len)).payloadLen.toNat = len := ofNat_toNat_u64 (by omega)
  have hstart : (FileHeader.new kind (UInt64.ofNat len)).headerLen.toNat = 32 := rfl
  show (do if 2 ^ 64 ≤ _ then throw _
           if _ < _ then throw _
           return _ : Except FormatError (Nat × Nat)) = _
  rw [hlen, hstart, if_neg (by rw [trailerLen]; omega)]
  rw [if_neg (by simp [trailerLen]; omega)]
  rfl

theorem locate_encodeBlock {kind : FileKind} {payload : Bytes} (h : payload.length + 36 < 2 ^ 64)
    (rest : Bytes) : locate (encodeBlock kind payload ++ rest) kind = .ok (32, payload.length) := by
  rw [encodeBlock, List.append_assoc]
  apply locate_new h
  rw [List.length_append, List.length_append, Writer.u32_length]
  omega

theorem drop_encodeBlock (kind : FileKind) (payload rest : Bytes) :
    (encodeBlock kind payload ++ rest).drop 32 = payload ++ (Writer.u32 (crc32c payload) ++ rest) := by
  rw [encodeBlock, List.append_assoc, List.append_assoc]
  exact List.drop_left' (FileHeader.encode_length _)

theorem openBlock_encodeBlock {kind : FileKind} {payload : Bytes} (h : payload.length + 36 < 2 ^ 64)
    (rest : Bytes) : openBlock (encodeBlock kind payload ++ rest) kind = .ok payload := by
  unfold openBlock
  rw [locate_encodeBlock h]
  show Except.ok (((encodeBlock kind payload ++ rest).drop 32).take payload.length) = _
  rw [drop_encodeBlock, List.take_left]

/-- **A block decodes to its payload**, whatever follows it in the file. -/
theorem decodeBlock_encodeBlock {kind : FileKind} {payload : Bytes} (h : payload.length + 36 < 2 ^ 64)
    (rest : Bytes) : decodeBlock (encodeBlock kind payload ++ rest) kind = .ok payload := by
  have hpay : ((encodeBlock kind payload ++ rest).drop 32).take payload.length = payload := by
    rw [drop_encodeBlock, List.take_left]
  have htrail : ((encodeBlock kind payload ++ rest).drop (32 + payload.length)).take trailerLen
      = Writer.u32 (crc32c payload) := by
    rw [← List.drop_drop, drop_encodeBlock, List.drop_left]
    exact List.take_left' (Writer.u32_length _)
  have hcrc : UInt32.ofNat (leNat (Writer.u32 (crc32c payload))) = crc32c payload := leNat_u32 _
  have hcheck : checkPayload (encodeBlock kind payload ++ rest) 32 payload.length = .ok () := by
    unfold checkPayload
    rw [hpay, htrail, hcrc]
    exact if_neg (fun h => h rfl)
  unfold decodeBlock
  rw [locate_encodeBlock h]
  show (do checkPayload (encodeBlock kind payload ++ rest) 32 payload.length
           return ((encodeBlock kind payload ++ rest).drop 32).take payload.length
           : Except FormatError Bytes) = _
  rw [hcheck, hpay]; rfl

theorem locate_torn {kind : FileKind} {payload : Bytes} (h : payload.length + 36 < 2 ^ 64) {k : Nat}
    (hk : k < (encodeBlock kind payload).length) :
    ∃ e, locate ((encodeBlock kind payload).take k) kind = .error e ∧ Reader.Cut e := by
  rw [encodeBlock_length] at hk
  unfold locate
  by_cases h32 : k < 32
  · obtain ⟨e, he, hT⟩ := FileHeader.decode_torn kind (UInt64.ofNat payload.length) h32
    refine ⟨e, ?_, hT⟩
    rw [encodeBlock, List.take_append_of_le_length (by rw [FileHeader.encode_length]; omega), he]; rfl
  · have hsplit : (encodeBlock kind payload).take k
        = (FileHeader.new kind (UInt64.ofNat payload.length)).encode
          ++ (payload ++ Writer.u32 (crc32c payload)).take (k - 32) := by
      rw [encodeBlock, List.take_append, List.take_of_length_le (by rw [FileHeader.encode_length]; omega),
        FileHeader.encode_length]
    have hlen : ((encodeBlock kind payload).take k).length = k := by
      rw [List.length_take, encodeBlock_length]; omega
    have hpl : (FileHeader.new kind (UInt64.ofNat payload.length)).payloadLen.toNat = payload.length :=
      ofNat_toNat_u64 (by omega)
    have hstart : (FileHeader.new kind (UInt64.ofNat payload.length)).headerLen.toNat = 32 := rfl
    refine ⟨.truncated 32 (32 + payload.length + trailerLen) k, ?_, rfl⟩
    rw [hlen, hsplit, FileHeader.decode_new]
    show (do if 2 ^ 64 ≤ _ then throw _
             if _ < _ then throw _
             return _ : Except FormatError (Nat × Nat)) = _
    rw [hpl, hstart, if_neg (by rw [trailerLen]; omega), if_pos (by rw [trailerLen]; omega)]
    rfl

/-- **A torn block is refused as truncated**, wherever the tear is. -/
theorem decodeBlock_torn {kind : FileKind} {payload : Bytes} (h : payload.length + 36 < 2 ^ 64) {k : Nat}
    (hk : k < (encodeBlock kind payload).length) :
    ∃ e, decodeBlock ((encodeBlock kind payload).take k) kind = .error e ∧ Reader.Cut e := by
  obtain ⟨e, he, hT⟩ := locate_torn h hk
  refine ⟨e, ?_, hT⟩
  unfold decodeBlock; rw [he]; rfl

theorem openBlock_torn {kind : FileKind} {payload : Bytes} (h : payload.length + 36 < 2 ^ 64) {k : Nat}
    (hk : k < (encodeBlock kind payload).length) :
    ∃ e, openBlock ((encodeBlock kind payload).take k) kind = .error e ∧ Reader.Cut e := by
  obtain ⟨e, he, hT⟩ := locate_torn h hk
  refine ⟨e, ?_, hT⟩
  unfold openBlock; rw [he]; rfl

end IshaVectorDb.Format
