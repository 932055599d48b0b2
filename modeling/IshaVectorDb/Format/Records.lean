import IshaVectorDb.Format.Segment

/-!
# `Format.Records` — metadata records after **any sequence of pushes**

`MetaWriter.push` says where each record landed. `pushEach` hands the writer one record after the other; a record
it refuses leaves no bytes. `push_eq_ok` is what one push leaves behind, `pushEach_place` where a place points in
the finished payload, and `pushEach_reads_back` that both readers find the record there: the full one and the
shortcut that stops at the encoded metadata.
-/

namespace IshaVectorDb.Format

open Parsing

/-- The bytes a record takes in the file: none when it is empty. -/
def MetaRecord.StoredAs (r : MetaRecord) (bytes : Bytes) : Prop :=
  (r.isEmpty = true ∧ bytes = []) ∨ (r.isEmpty = false ∧ r.encode = .ok bytes)

/-- What a writer handed out for a record. -/
abbrev Place := Except FormatError (UInt64 × UInt32)

/-- Push records one after the other; a push that fails leaves the writer as it was. -/
def MetaWriter.pushEach (w : MetaWriter) : List MetaRecord → List Place × MetaWriter
  | [] => ([], w)
  | r :: rest => match w.push r with
      | .ok (place, next) => (.ok place :: (next.pushEach rest).1, (next.pushEach rest).2)
      | .error e => (.error e :: (w.pushEach rest).1, (w.pushEach rest).2)

namespace MetaWriter

/-! ## One push -/

/-- **One push** appends the record's bytes and says where. -/
theorem push_eq_ok {w next : MetaWriter} {r : MetaRecord} {offset : UInt64} {len : UInt32}
    (h : w.push r = .ok ((offset, len), next)) :
    ∃ bytes, r.StoredAs bytes ∧ bytes.length < 2 ^ 32 ∧ next.payload = w.payload ++ bytes ∧
      offset = UInt64.ofNat w.payload.length ∧ len = UInt32.ofNat bytes.length := by
  unfold push at h
  cases he : r.isEmpty with
  | true =>
    rw [he, if_pos rfl] at h
    cases h
    exact ⟨[], .inl ⟨he, rfl⟩, by decide, (List.append_nil _).symm, rfl, rfl⟩
  | false =>
    rw [he] at h
    obtain ⟨bytes, hbytes, h⟩ := except_bind_eq_ok.mp h
    by_cases hlong : 2 ^ 32 ≤ bytes.length
    · rw [if_pos hlong] at h
      cases h
    · rw [if_neg hlong] at h
      cases h
      exact ⟨bytes, .inr ⟨he, hbytes⟩, by omega, rfl, rfl, rfl⟩

/-! ## A sequence of pushes -/

/-- What was written stays in front of what follows. -/
theorem pushEach_extends (records : List MetaRecord) (w : MetaWriter) :
    ∃ rest, (w.pushEach records).2.payload = w.payload ++ rest := by
  induction records generalizing w with
  | nil => exact ⟨[], (List.append_nil _).symm⟩
  | cons r records ih =>
    unfold pushEach
    cases hpush : w.push r with
    | error e => exact ih w
    | ok pushed =>
      obtain ⟨⟨offset, len⟩, next⟩ := pushed
      obtain ⟨bytes, -, -, hnext, -, -⟩ := push_eq_ok hpush
      obtain ⟨rest, hrest⟩ := ih next
      refine ⟨bytes ++ rest, ?_⟩
      rw [← List.append_assoc, ← hnext]
      exact hrest

/-- **Where a place points**: at the record's own bytes in the finished payload. -/
theorem pushEach_place {records : List MetaRecord} {w : MetaWriter} {i : Nat} {r : MetaRecord} {offset : UInt64}
    {len : UInt32} (hr : records[i]? = some r) (h : (w.pushEach records).1[i]? = some (.ok (offset, len))) :
    ∃ before bytes after, (w.pushEach records).2.payload = before ++ (bytes ++ after) ∧ r.StoredAs bytes ∧
      bytes.length < 2 ^ 32 ∧ offset = UInt64.ofNat before.length ∧ len = UInt32.ofNat bytes.length := by
  induction records generalizing w i with
  | nil => cases hr
  | cons first records ih =>
    unfold pushEach at h ⊢
    cases hpush : w.push first with
    | error e =>
      rw [hpush] at h
      cases i with
      | zero => cases h
      | succ i => exact ih hr h
    | ok pushed =>
      obtain ⟨place, next⟩ := pushed
      rw [hpush] at h
      cases i with
      | zero =>
        obtain rfl := Option.some.inj hr
        obtain rfl := Except.ok.inj (Option.some.inj h)
        obtain ⟨bytes, hstored, hlen, hnext, hoffset, hlast⟩ := push_eq_ok hpush
        obtain ⟨after, hafter⟩ := pushEach_extends records next
        refine ⟨w.payload, bytes, after, ?_, hstored, hlen, hoffset, hlast⟩
        rw [← List.append_assoc, ← hnext]
        exact hafter
      | succ i => exact ih hr h

end MetaWriter

/-! ## Reading at a place -/

/-- The metadata that a shortcut's answer stands for. -/
def decodeFound (found : Option Bytes) : Except FormatError (Option Value) :=
  match found with
  | none => .ok none
  | some bytes => (Value.decode bytes).map some

namespace MetaRecord

/-- **The shortcut on an encoded record** takes the flags and the metadata, and leaves the content unread. -/
theorem reads_metadataBytes {r : MetaRecord} {metadata : Option (Value × Bytes)}
    (hm : r.metadata = metadata.map Prod.fst) (hlen : ∀ m ∈ metadata, m.2.length < 2 ^ 64) (at_ : Nat) :
    Reads (metadataBytes at_) (r.flagByte :: (metadata.elim [] fun m => Writer.blob m.2)) (metadata.map Prod.snd) := by
  have hflag := flagByte_metadata r
  unfold metadataBytes
  cases metadata with
  | none =>
    rw [hm] at hflag
    have hno : r.flagByte &&& 1 = 0 := not_not.mp (fun hne => by cases hflag.mp hne)
    refine (Reader.reads_u8 r.flagByte).bind ?_
    rw [if_neg (flagByte_known r), if_pos hno]
    exact Reads.pure none
  | some m =>
    rw [hm] at hflag
    have hyes : ¬ (r.flagByte &&& 1 = 0) := hflag.mpr rfl
    refine (Reader.reads_u8 r.flagByte).bind ?_
    rw [if_neg (flagByte_known r), if_neg hyes]
    exact (Reader.reads_blob (hlen m rfl)).bind_nil (Reads.pure _)

theorem metadataBytes_encode {r : MetaRecord} {bytes : Bytes} (hs : ∀ v ∈ r.metadata, v.Sorted)
    (h : r.encode = .ok bytes) (hlen : bytes.length < 2 ^ 64) (at_ : Nat) :
    ∃ found, (metadataBytes at_ ⟨bytes, 0⟩).map Prod.fst = .ok found ∧ decodeFound found = .ok r.metadata := by
  obtain ⟨metadata, hm, he, rfl⟩ := encode_eq_ok h
  have hmlen : ∀ m ∈ metadata, m.2.length < 2 ^ 64 := by
    rintro m hmem
    cases hmem
    simp only [Option.elim_some, List.length_cons, List.length_append, Writer.blob_length] at hlen
    omega
  have hread := reads_metadataBytes hm hmlen at_ (r.content.elim [] Writer.blob) 0
  refine ⟨metadata.map Prod.snd, ?_, ?_⟩
  · rw [← List.cons_append, hread]
    rfl
  · cases metadata with
    | none => rw [hm]; rfl
    | some m =>
      have hv : r.metadata = some m.1 := hm
      have hdecode : Value.decode m.2 = .ok m.1 := Value.decode_encode (hs m.1 hv) (he m rfl) (hmlen m rfl)
      show (Value.decode m.2).map some = _
      rw [hdecode, hv]
      rfl

end MetaRecord

namespace MetaBlock

/-- **Both readers find a record where its bytes are.** -/
theorem reads_stored {b : MetaBlock} {e : RowEntry} {r : MetaRecord} {bytes : Bytes} (hs : ∀ v ∈ r.metadata, v.Sorted)
    (hr : r.StoredAs bytes) (hlen : bytes.length < 2 ^ 32)
    (hslice : slice b.payload e.metaOffset.toNat e.metaLen.toNat = some bytes) (hmeta : e.metaLen.toNat = bytes.length) :
    b.record e = .ok r ∧ ∃ found, b.metadataBytes e = .ok found ∧ decodeFound found = .ok r.metadata := by
  unfold record metadataBytes
  rcases hr with ⟨he, rfl⟩ | ⟨he, hencode⟩
  · -- an empty record takes no bytes
    have hzero : e.metaLen = 0 := UInt32.toNat.inj hmeta
    rw [if_pos hzero, if_pos hzero, MetaRecord.eq_default he]
    exact ⟨rfl, none, rfl, rfl⟩
  · have hpos := MetaRecord.encode_ne_nil hencode
    have hne : e.metaLen ≠ 0 := by
      intro hz
      rw [hz] at hmeta
      simp at hmeta
      omega
    rw [if_neg hne, if_neg hne, hslice]
    exact ⟨MetaRecord.decode_encode hs hencode (by omega), MetaRecord.metadataBytes_encode hs hencode (by omega) _⟩

end MetaBlock

/-! ## The finished file -/

theorem MetaBlock.open_finish {w : MetaWriter} (h : w.finish.length < 2 ^ 63) :
    MetaBlock.open w.finish = .ok ⟨w.payload⟩ := by
  unfold MetaWriter.finish at h ⊢
  rw [encodeBlock_length] at h
  have hopen : openBlock (encodeBlock .metadata w.payload ++ []) .metadata = .ok w.payload :=
    openBlock_encodeBlock (by omega) []
  rw [List.append_nil] at hopen
  unfold MetaBlock.open
  rw [hopen]
  rfl

/-- **Records read back.** Every place that was handed out addresses its own record in the finished file: the bytes
    there are the record's, the record read there is the one that was pushed, and the shortcut's bytes decode to its
    metadata. -/
theorem MetaWriter.pushEach_reads_back (records : List MetaRecord) (hs : ∀ r ∈ records, ∀ v ∈ r.metadata, v.Sorted)
    (hfile : ((MetaWriter.mk []).pushEach records).2.finish.length < 2 ^ 63) :
    ∃ b, MetaBlock.open ((MetaWriter.mk []).pushEach records).2.finish = .ok b ∧
      ∀ (i : Nat) (r : MetaRecord) (offset : UInt64) (len : UInt32), records[i]? = some r →
        ((MetaWriter.mk []).pushEach records).1[i]? = some (Except.ok (offset, len)) →
        (∃ bytes, slice b.payload offset.toNat len.toNat = some bytes ∧ r.StoredAs bytes) ∧
        ∀ e : RowEntry, e.metaOffset = offset → e.metaLen = len → b.record e = .ok r ∧
          ∃ found, b.metadataBytes e = .ok found ∧ decodeFound found = .ok r.metadata := by
  refine ⟨_, MetaBlock.open_finish hfile, fun i r offset len hr hplace => ?_⟩
  obtain ⟨before, bytes, after, hpayload, hstored, hlen, rfl, rfl⟩ := pushEach_place hr hplace
  unfold finish at hfile
  rw [encodeBlock_length, hpayload, List.length_append] at hfile
  have hoffset : (UInt64.ofNat before.length).toNat = before.length := ofNat_toNat_u64 (by omega)
  have hlength : (UInt32.ofNat bytes.length).toNat = bytes.length := SegmentWriter.ofNat_toNat_u32 hlen
  have hslice : slice ((MetaWriter.mk []).pushEach records).2.payload (UInt64.ofNat before.length).toNat
      (UInt32.ofNat bytes.length).toNat = some bytes := by
    rw [hpayload, hoffset, hlength, ← List.append_assoc]
    exact slice_append_left (slice_append_right before bytes) after
  refine ⟨⟨bytes, hslice, hstored⟩, fun e he1 he2 => ?_⟩
  refine MetaBlock.reads_stored (hs r (List.mem_of_getElem? hr)) hstored hlen ?_ ?_
  · rw [he1, he2]
    exact hslice
  · rw [he2]
    exact hlength

/-- A record with metadata and content, an empty one and one with content only. -/
def threeRecords : List MetaRecord := [⟨some (.map [(⟨[0x61], utf8_a⟩, .null)]), some [1, 2]⟩, ⟨none, none⟩, ⟨none, some []⟩]

theorem MetaWriter.pushEach_reads_back_three :
    ∃ b, MetaBlock.open ((MetaWriter.mk []).pushEach threeRecords).2.finish = .ok b ∧
      ∀ (i : Nat) (r : MetaRecord) (offset : UInt64) (len : UInt32), threeRecords[i]? = some r →
        ((MetaWriter.mk []).pushEach threeRecords).1[i]? = some (Except.ok (offset, len)) →
        (∃ bytes, slice b.payload offset.toNat len.toNat = some bytes ∧ r.StoredAs bytes) ∧
        ∀ e : RowEntry, e.metaOffset = offset → e.metaLen = len → b.record e = .ok r ∧
          ∃ found, b.metadataBytes e = .ok found ∧ decodeFound found = .ok r.metadata := by
  refine MetaWriter.pushEach_reads_back threeRecords (fun r hr v hv => ?_) (by decide +kernel)
  rcases List.mem_cons.mp hr with rfl | hr
  · obtain rfl := Option.mem_some.mp hv
    exact ⟨List.pairwise_singleton _ _, trivial, trivial⟩
  · rcases List.mem_cons.mp hr with rfl | hr
    · cases hv
    · obtain rfl := List.mem_singleton.mp hr
      cases hv

end IshaVectorDb.Format
