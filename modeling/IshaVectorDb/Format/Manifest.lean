import IshaVectorDb.Format.Block
import Mathlib.Data.UInt

/-!
# `Format.Manifest` — the root of the database, written to two alternating slots

A commit writes the slot that is *not* in use; opening reads both and takes the valid one with the higher
sequence. `decode_encode` is the round trip of a manifest that passes its own validation, `decode_torn` says
that a half-written slot is no manifest, and the `scanSlots` lemmas say which slot wins.
-/

namespace IshaVectorDb.Format

open Parsing

/-- Which of the two manifest slots. -/
inductive Slot
  | a
  | b
deriving DecidableEq, Repr

/-- The other slot: where the next commit goes. -/
def Slot.other : Slot → Slot
  | .a => .b
  | .b => .a

@[simp] theorem Slot.other_other (s : Slot) : s.other.other = s := by cases s <;> rfl

@[simp] theorem Slot.other_ne (s : Slot) : s.other ≠ s := by cases s <;> decide

/-- One segment referenced by a collection. -/
structure SegmentRef where
  id : UInt64
  rows : UInt32
  delGeneration : UInt32
deriving DecidableEq, Repr

/-- What the manifest records about one collection. -/
structure CollectionEntry where
  name : Str
  segments : List SegmentRef
  indexSnapshot : Option UInt64
  lastAppliedWal : UInt64
  liveCount : UInt64
  totalRows : UInt64
deriving DecidableEq

/-- A database's identity. -/
structure Uuid where
  bytes : Bytes
  size : bytes.length = 16
deriving DecidableEq

/-- The database root record. -/
structure Manifest where
  sequence : UInt64
  dbUuid : Uuid
  createdAtMs : UInt64
  updatedAtMs : UInt64
  collections : List CollectionEntry
deriving DecidableEq

/-- `u64::saturating_add(1)`. -/
def saturatingSucc (n : UInt64) : UInt64 := if n = 0xFFFFFFFFFFFFFFFF then n else n + 1

namespace Manifest

/-- An empty manifest at sequence 1. -/
def new (dbUuid : Uuid) (nowMs : UInt64) : Manifest := ⟨1, dbUuid, nowMs, nowMs, []⟩

/-- Look up a collection. -/
def collection (m : Manifest) (name : Str) : Option CollectionEntry :=
  m.collections.find? (fun c => c.name = name)

/-- Whether segment ids strictly ascend, starting above `last`. -/
def ascending : Option UInt64 → List SegmentRef → Bool
  | _, [] => true
  | last, s :: rest => (match last with
      | some prev => decide (prev < s.id)
      | none => true) && ascending (some s.id) rest

/-- The row total of an entry's segments. -/
def sumRows (segments : List SegmentRef) : UInt64 :=
  (segments.map (fun s => s.rows.toUInt64)).sum

/-- The checks on one collection's entry. -/
def validateEntry (c : CollectionEntry) : Except FormatError Unit :=
  if c.name.bytes.isEmpty then .error (.malformed 0 (.zeroNotAllowed "collection name"))
  else if ¬ ascending none c.segments then .error (.malformed 0 (.inconsistent "segment order"))
  else if c.totalRows ≠ sumRows c.segments then .error (.malformed 0 (.inconsistent "total_rows"))
  else if c.totalRows < c.liveCount then .error (.malformed 0 (.inconsistent "live_count"))
  else .ok ()

def validateEntries : List CollectionEntry → Except FormatError Unit
  | [] => .ok ()
  | c :: cs => do
      validateEntry c
      validateEntries cs

def validate (m : Manifest) : Except FormatError Unit :=
  if ¬ (m.collections.map CollectionEntry.name).Nodup then .error (.malformed 0 .duplicateKey)
  else validateEntries m.collections

/-! ## The codec -/

def refBytes (s : SegmentRef) : Bytes :=
  Writer.varint s.id ++ (Writer.u32 s.rows ++ Writer.varint s.delGeneration.toUInt64)

/-- `None` is 0 and `Some(n)` is `n + 1`, so no separate flag byte is needed. -/
def snapshotCode : Option UInt64 → UInt64
  | none => 0
  | some id => saturatingSucc id

def entryBytes (c : CollectionEntry) : Bytes :=
  Writer.string c.name ++ (Writer.varint (UInt64.ofNat c.segments.length) ++
    (c.segments.flatMap refBytes ++ (Writer.varint (snapshotCode c.indexSnapshot) ++
      (Writer.varint c.lastAppliedWal ++ (Writer.varint c.liveCount ++ (Writer.varint c.totalRows ++
        Writer.reserved 4))))))

def payload (m : Manifest) : Bytes :=
  Writer.u64 m.sequence ++ (m.dbUuid.bytes ++ (Writer.u64 m.createdAtMs ++ (Writer.u64 m.updatedAtMs ++
    (Writer.varint (UInt64.ofNat m.collections.length) ++ (m.collections.flatMap entryBytes ++
      Writer.reserved 8)))))

/-- Serialize to a complete, checksummed manifest slot. -/
def encode (m : Manifest) : Except FormatError Bytes := do
  m.validate
  return encodeBlock .manifest m.payload

def readRef (segAt : Nat) : Reader SegmentRef := do
  let id ← Reader.varint
  let rows ← Reader.u32
  let delGeneration ← Reader.varint
  if 2 ^ 32 ≤ delGeneration.toNat then fail (.malformed segAt (.inconsistent "del_generation"))
  else return ⟨id, rows, delGeneration.toUInt32⟩

def readEntry : Reader CollectionEntry := do
  let name ← Reader.string
  let segAt ← position
  let segCount ← Reader.varint
  let left ← remaining
  let segCount ← Reader.bounded segCount (left / 6) segAt
  let segments ← times (readRef segAt) segCount
  let snapshot ← Reader.varint
  let indexSnapshot := if snapshot = 0 then none else some (snapshot - 1)
  let lastAppliedWal ← Reader.varint
  let liveCount ← Reader.varint
  let totalRows ← Reader.varint
  Reader.reserved 4
  return ⟨name, segments, indexSnapshot, lastAppliedWal, liveCount, totalRows⟩

def readUuid : Reader Uuid := fun i =>
  if h : 16 ≤ i.rest.length then
    .ok (⟨i.rest.take 16, by rw [List.length_take]; omega⟩, ⟨i.rest.drop 16, i.offset + 16⟩)
  else .error (.truncated i.offset 16 i.rest.length)

def read : Reader Manifest := do
  let sequence ← Reader.u64
  let dbUuid ← readUuid
  let createdAtMs ← Reader.u64
  let updatedAtMs ← Reader.u64
  let countAt ← position
  let count ← Reader.varint
  let left ← remaining
  let count ← Reader.bounded count (left / 8) countAt
  let collections ← times readEntry count
  Reader.reserved 8
  Reader.expectEnd "manifest"
  let m : Manifest := ⟨sequence, dbUuid, createdAtMs, updatedAtMs, collections⟩
  checked m.validate
  return m

/-- Parse a manifest slot. -/
def decode (bs : Bytes) : Except FormatError Manifest := do
  let payload ← decodeBlock bs .manifest
  (read ⟨payload, 0⟩).map Prod.fst

end Manifest

/-! ## Choosing a slot -/

/-- What one slot turned out to be. -/
inductive SlotStatus
  | missing
  | invalid (e : FormatError)
  | valid (m : Manifest)
deriving DecidableEq

def SlotStatus.examine : Option Bytes → SlotStatus
  | none => .missing
  | some bs => match Manifest.decode bs with
    | .ok m => .valid m
    | .error e => .invalid e

/-- The result of examining both slots. -/
structure SlotScan where
  chosen : Option (Slot × Manifest)
  a : SlotStatus
  b : SlotStatus
deriving DecidableEq

/-- Read both slots and decide which one is authoritative. -/
def Manifest.scanSlots (a b : Option Bytes) : SlotScan :=
  let sa := SlotStatus.examine a
  let sb := SlotStatus.examine b
  let chosen := match sa, sb with
    | .valid ma, .valid mb => if ma.sequence < mb.sequence then some (Slot.b, mb) else some (Slot.a, ma)
    | .valid ma, _ => some (Slot.a, ma)
    | _, .valid mb => some (Slot.b, mb)
    | _, _ => none
  ⟨chosen, sa, sb⟩

/-- Where the next commit should be written. -/
def SlotScan.nextSlot (s : SlotScan) : Slot := match s.chosen with
  | some (slot, _) => slot.other
  | none => .a

namespace Manifest

/-! ## Round trip -/

/-- A manifest whose slot can be written and read back: it passes its own validation, fits its header's
    length field, and records no index snapshot past the last encodable one. -/
structure Writable (m : Manifest) : Prop where
  valid : m.validate = .ok ()
  fits : m.payload.length + 36 < 2 ^ 64
  snapshots : ∀ c ∈ m.collections, c.indexSnapshot ≠ some 0xFFFFFFFFFFFFFFFF

theorem reads_ref (segAt : Nat) (s : SegmentRef) : Reads (readRef segAt) (refBytes s) s := by
  refine (Reader.reads_varint _).bind ((Reader.reads_u32 _).bind ((Reader.reads_varint _).bind_nil ?_))
  have hlt : s.delGeneration.toUInt64.toNat < 2 ^ 32 := by
    rw [UInt32.toNat_toUInt64]; exact s.delGeneration.toNat_lt
  rw [if_neg (by omega), UInt32.toUInt32_toUInt64]
  exact Reads.pure s

theorem refBytes_length_ge (s : SegmentRef) : 6 ≤ (refBytes s).length := by
  have h1 := Writer.varint_length_pos s.id
  have h2 := Writer.varint_length_pos s.delGeneration.toUInt64
  simp only [refBytes, List.length_append, Writer.u32_length]; omega

/-- A list of items of at least `k` bytes each takes at least `k` bytes an item. -/
theorem length_flatMap_ge {α : Type} {f : α → Bytes} {k : Nat} {l : List α}
    (h : ∀ a ∈ l, k ≤ (f a).length) : k * l.length ≤ (l.flatMap f).length := by
  induction l with
  | nil => simp
  | cons a l ih =>
    have h1 := h a List.mem_cons_self
    have h2 := ih (fun b hb => h b (List.mem_cons_of_mem _ hb))
    rw [List.flatMap_cons, List.length_append, List.length_cons, Nat.mul_succ]
    omega

theorem snapshot_code (o : Option UInt64) (h : o ≠ some 0xFFFFFFFFFFFFFFFF) :
    (if snapshotCode o = 0 then none else some (snapshotCode o - 1)) = o := by
  cases o with
  | none => rfl
  | some id =>
    have hid : id ≠ 0xFFFFFFFFFFFFFFFF := fun h' => h (by rw [h'])
    have hcode : snapshotCode (some id) = id + 1 := if_neg hid
    have hnz : id + 1 ≠ 0 := by
      intro h0
      apply hid
      have : id = 0 - 1 := by rw [← h0, UInt64.add_sub_cancel]
      rw [this]; rfl
    rw [hcode, if_neg hnz, UInt64.add_sub_cancel]

theorem reads_entry {c : CollectionEntry} (hlen : (entryBytes c).length < 2 ^ 64)
    (hs : c.indexSnapshot ≠ some 0xFFFFFFFFFFFFFFFF) : Reads readEntry (entryBytes c) c := by
  have hrefs : 6 * c.segments.length ≤ (c.segments.flatMap refBytes).length :=
    length_flatMap_ge (fun s _ => refBytes_length_ge s)
  have hname : c.name.bytes.length < 2 ^ 64 := by
    simp only [entryBytes, List.length_append, Writer.string, Writer.blob_length] at hlen; omega
  have hcount : (UInt64.ofNat c.segments.length).toNat = c.segments.length := by
    refine ofNat_toNat_u64 ?_
    simp only [entryBytes, List.length_append] at hlen; omega
  refine (Reader.reads_string hname).bind (Reads.position_bind (fun segAt => ?_))
  refine (Reader.reads_varint _).bind (Reads.remaining_bind (fun left hleft => ?_))
  refine Reads.nil_bind (Reader.reads_bounded segAt ?_) ?_
  · rw [hcount]
    simp only [List.length_append] at hleft; omega
  rw [hcount]
  refine (Reads.times (fun s _ => reads_ref segAt s)).bind ((Reader.reads_varint _).bind ?_)
  refine (Reader.reads_varint _).bind ((Reader.reads_varint _).bind ((Reader.reads_varint _).bind ?_))
  refine (Reader.reads_reserved 4).bind_nil ?_
  rw [snapshot_code _ hs]
  exact Reads.pure c

theorem entryBytes_length_ge (c : CollectionEntry) : 8 ≤ (entryBytes c).length := by
  have h1 := Writer.varint_length_pos (UInt64.ofNat c.segments.length)
  have h2 := Writer.varint_length_pos c.lastAppliedWal
  have h3 := Writer.varint_length_pos c.liveCount
  have h4 := Writer.varint_length_pos c.totalRows
  simp only [entryBytes, List.length_append, Writer.reserved_length]; omega

theorem length_le_flatMap {α : Type} {f : α → Bytes} {l : List α} {a : α} (h : a ∈ l) :
    (f a).length ≤ (l.flatMap f).length := by
  induction l with
  | nil => cases h
  | cons b l ih =>
    rw [List.flatMap_cons, List.length_append]
    rcases List.mem_cons.mp h with rfl | h
    · omega
    · have := ih h; omega

theorem reads_uuid (u : Uuid) : Reads readUuid u.bytes u := by
  intro rest o
  unfold readUuid
  have hlen : 16 ≤ (u.bytes ++ rest).length := by rw [List.length_append, u.size]; omega
  have htake : (u.bytes ++ rest).take 16 = u.bytes := List.take_left' u.size
  have hdrop : (u.bytes ++ rest).drop 16 = rest := List.drop_left' u.size
  rw [dif_pos hlen]
  cases u with
  | mk bs hbs =>
    simp only at htake hdrop ⊢
    simp only [htake, hdrop, hbs]

theorem readsAll_payload {m : Manifest} (h : m.Writable) : ReadsAll read m.payload m := by
  have hfits := h.fits
  have hentries : 8 * m.collections.length ≤ (m.collections.flatMap entryBytes).length :=
    length_flatMap_ge (fun c _ => entryBytes_length_ge c)
  have hcount : (UInt64.ofNat m.collections.length).toNat = m.collections.length := by
    refine ofNat_toNat_u64 ?_
    simp only [payload, List.length_append] at hfits; omega
  have hentry : ∀ c ∈ m.collections, Reads readEntry (entryBytes c) c := by
    intro c hc
    refine reads_entry ?_ (h.snapshots c hc)
    have := length_le_flatMap (f := entryBytes) hc
    simp only [payload, List.length_append] at hfits; omega
  refine ReadsAll.bind (Reader.reads_u64 _) (ReadsAll.bind (reads_uuid _) (ReadsAll.bind (Reader.reads_u64 _) ?_))
  refine ReadsAll.bind (Reader.reads_u64 _) (ReadsAll.position_bind (fun countAt => ?_))
  refine ReadsAll.bind (Reader.reads_varint _) (ReadsAll.remaining_bind ?_)
  refine ReadsAll.nil_bind (Reader.reads_bounded countAt ?_) ?_
  · rw [hcount, List.length_append]; omega
  rw [hcount]
  refine ReadsAll.bind (Reads.times hentry) ?_
  refine ReadsAll.bind_nil (ReadsAll.of_reads (Reader.reads_reserved 8)) ?_
  refine ReadsAll.bind_nil (Reader.readsAll_expectEnd _) ?_
  refine ReadsAll.checked_bind h.valid ?_
  exact ReadsAll.pure m

theorem encode_eq {m : Manifest} (h : m.Writable) : m.encode = .ok (encodeBlock .manifest m.payload) := by
  unfold encode; rw [h.valid]; rfl

/-- **The round trip of a manifest slot**, whatever stale bytes follow it. -/
theorem decode_encode {m : Manifest} (h : m.Writable) (rest : Bytes) :
    decode (encodeBlock .manifest m.payload ++ rest) = .ok m := by
  unfold decode
  rw [decodeBlock_encodeBlock h.fits]
  show (read ⟨m.payload, 0⟩).map Prod.fst = _
  rw [readsAll_payload h 0]; rfl

/-! ## What an accepted manifest reads back as -/

/-- The entry with the snapshot id that the writer's saturating addition leaves: the largest id is written as the
    one below it. -/
def clipEntry (c : CollectionEntry) : CollectionEntry :=
  { c with indexSnapshot := if c.indexSnapshot = some 0xFFFFFFFFFFFFFFFF then some 0xFFFFFFFFFFFFFFFE
                            else c.indexSnapshot }

/-- The manifest with the snapshot ids that the writer leaves. -/
def clip (m : Manifest) : Manifest := { m with collections := m.collections.map clipEntry }

theorem clipEntry_snapshot (c : CollectionEntry) : (clipEntry c).indexSnapshot ≠ some 0xFFFFFFFFFFFFFFFF := by
  unfold clipEntry
  by_cases h : c.indexSnapshot = some 0xFFFFFFFFFFFFFFFF
  · simp only [if_pos h]; decide
  · simp only [if_neg h]; exact h

theorem clipEntry_eq_self {c : CollectionEntry} :
    clipEntry c = c ↔ c.indexSnapshot ≠ some 0xFFFFFFFFFFFFFFFF := by
  constructor
  · intro h
    rw [← h]
    exact clipEntry_snapshot c
  · intro h
    unfold clipEntry
    rw [if_neg h]

/-- The largest id and the one below it are written alike. -/
theorem entryBytes_clipEntry (c : CollectionEntry) : entryBytes (clipEntry c) = entryBytes c := by
  have hcode : snapshotCode (clipEntry c).indexSnapshot = snapshotCode c.indexSnapshot := by
    unfold clipEntry
    by_cases h : c.indexSnapshot = some 0xFFFFFFFFFFFFFFFF
    · simp only [if_pos h]; rw [h]; rfl
    · simp only [if_neg h]
  unfold entryBytes
  rw [hcode]
  rfl

theorem clip_eq_self {m : Manifest} :
    m.clip = m ↔ ∀ c ∈ m.collections, c.indexSnapshot ≠ some 0xFFFFFFFFFFFFFFFF := by
  have hentries : m.clip = m ↔ m.collections.map clipEntry = m.collections := by
    constructor
    · intro h
      exact congrArg Manifest.collections h
    · intro h
      unfold clip
      rw [h]
  have hself : m.collections.map clipEntry = m.collections ↔ ∀ c ∈ m.collections, clipEntry c = id c := by
    rw [← List.map_inj_left, List.map_id]
  rw [hentries, hself]
  exact forall₂_congr (fun c _ => clipEntry_eq_self)

@[simp] theorem payload_clip (m : Manifest) : m.clip.payload = m.payload := by
  unfold payload clip
  simp only [List.length_map, List.flatMap_map, entryBytes_clipEntry]

/-- The checks do not look at the snapshot. -/
theorem validateEntries_clip (cs : List CollectionEntry) :
    validateEntries (cs.map clipEntry) = validateEntries cs := by
  induction cs with
  | nil => rfl
  | cons c cs ih =>
    rw [List.map_cons, validateEntries, validateEntries, ih]
    rfl

@[simp] theorem validate_clip (m : Manifest) : m.clip.validate = m.validate := by
  unfold validate clip
  rw [validateEntries_clip, List.map_map]
  rfl

/-- **Every slot the writer accepts reads back**, as the manifest with its snapshot ids clipped. -/
theorem decode_of_encode {m : Manifest} {bs : Bytes} (h : m.encode = .ok bs) (hbs : bs.length < 2 ^ 63) :
    decode bs = .ok m.clip := by
  have hvalid : m.validate = .ok () := by
    unfold encode at h
    obtain ⟨u, hu, -⟩ := except_bind_eq_ok.mp h
    exact hu
  have hbytes : bs = encodeBlock .manifest m.clip.payload := by
    unfold encode at h
    rw [hvalid] at h
    rw [payload_clip]
    exact (Except.ok.inj h).symm
  have hw : m.clip.Writable := by
    refine ⟨by rw [validate_clip, hvalid], ?_, ?_⟩
    · rw [hbytes, encodeBlock_length] at hbs
      omega
    · intro c hc
      obtain ⟨c, -, rfl⟩ := List.mem_map.mp hc
      exact clipEntry_snapshot c
  have hdecode := decode_encode hw []
  rw [List.append_nil, ← hbytes] at hdecode
  exact hdecode

/-- **When a slot reads back as it was written**: no collection records the largest snapshot id. -/
theorem decode_of_encode_eq_iff (m : Manifest) (bs : Bytes) (h : m.encode = .ok bs) (hbs : bs.length < 2 ^ 63) :
    decode bs = .ok m ↔ ∀ c ∈ m.collections, c.indexSnapshot ≠ some 0xFFFFFFFFFFFFFFFF := by
  rw [decode_of_encode h hbs, Except.ok.injEq, clip_eq_self]

/-- One collection without segments, with the given snapshot. -/
def oneCollection (snapshot : Option UInt64) : Manifest where
  sequence := 1
  dbUuid := ⟨List.replicate 16 0, by decide⟩
  createdAtMs := 0
  updatedAtMs := 0
  collections := [⟨⟨[0x61], utf8_a⟩, [], snapshot, 0, 0, 0⟩]

theorem decode_of_encode_eq_iff_nine : decode (encodeBlock .manifest (oneCollection (some 9)).payload) =
      .ok (oneCollection (some 9)) ↔
    ∀ c ∈ (oneCollection (some 9)).collections, c.indexSnapshot ≠ some 0xFFFFFFFFFFFFFFFF :=
  decode_of_encode_eq_iff (oneCollection (some 9)) _ (by rfl) (by decide +kernel)

/-- The largest snapshot id comes back as the one below it. -/
theorem decode_of_encode_largest :
    (oneCollection (some 0xFFFFFFFFFFFFFFFF)).encode =
        .ok (encodeBlock .manifest (oneCollection (some 0xFFFFFFFFFFFFFFFF)).payload) ∧
      decode (encodeBlock .manifest (oneCollection (some 0xFFFFFFFFFFFFFFFF)).payload) =
        .ok (oneCollection (some 0xFFFFFFFFFFFFFFFE)) ∧
      decode (encodeBlock .manifest (oneCollection (some 0xFFFFFFFFFFFFFFFF)).payload) ≠
        .ok (oneCollection (some 0xFFFFFFFFFFFFFFFF)) := by
  have henc : (oneCollection (some 0xFFFFFFFFFFFFFFFF)).encode =
      .ok (encodeBlock .manifest (oneCollection (some 0xFFFFFFFFFFFFFFFF)).payload) := rfl
  have hdec := decode_of_encode henc (by decide +kernel)
  refine ⟨henc, hdec, ?_⟩
  rw [hdec]
  decide

/-- **A half-written slot is no manifest.** -/
theorem decode_torn {m : Manifest} (h : m.Writable) {k : Nat}
    (hk : k < (encodeBlock .manifest m.payload).length) :
    ∃ e, decode ((encodeBlock .manifest m.payload).take k) = .error e := by
  obtain ⟨e, he, -⟩ := decodeBlock_torn h.fits hk
  exact ⟨e, by unfold decode; rw [he]; rfl⟩

end Manifest

end IshaVectorDb.Format
