import IshaVectorDb.Engine.Filter

/-!
# `Correctness.LazyFilter` — a filter over a record's bytes is **the filter over its metadata**

One field of an encoded map is found without decoding the map, and what is found is what decoding and looking up
finds: for every path of one byte or more. The empty path is the exception. `find_path` answers it with nothing, where
a lookup in the decoded map finds the field whose name is empty; so a filter on that field matches a document in the
memtable and no longer matches it once it is flushed. `lazy_filtering_iff` is the exact condition.
-/

namespace IshaVectorDb.Correctness

open Format Engine Index Parsing

/-! ## One field -/

/-- The name of no bytes. -/
def emptyField : Str := ⟨[], utf8_empty⟩

theorem eq_emptyField {path : Str} (h : path.bytes = []) : path = emptyField := Str.ext h

/-- **Of a path of one byte or more, the bytes give what the metadata gives.** -/
theorem findPath_getPath {m : Metadata} {bs : Bytes} (h : m.encode = .ok bs) {path : Str} (hpath : path.bytes ≠ []) :
    Value.findPath bs path = .ok (m.getPath path) := by
  have hlen := Metadata.length_le_of_encode h
  unfold Limits.maxMetadataBytes at hlen
  rw [Metadata.getPath_eq]
  exact Value.findPath_spec m.sorted (Metadata.encode_eq_ok h) (by omega) hpath

/-- The empty path leads nowhere in the bytes. -/
theorem findPath_emptyField (bs : Bytes) : Value.findPath bs emptyField = .ok none := by
  rw [Value.findPath, if_pos (by simp [emptyField])]

/-- In the metadata it names the field of no name. -/
theorem getPath_emptyField (m : Metadata) : m.getPath emptyField = m.get emptyField := by
  show (Value.lookup [] m.entries).bind (Value.descend []) = Value.lookup [] m.entries
  cases Value.lookup [] m.entries <;> rfl

/-- **One path is found alike** exactly when it is not empty, or the metadata has no field of no name. -/
theorem findPath_iff {m : Metadata} {bs : Bytes} (h : m.encode = .ok bs) (path : Str) :
    Value.findPath bs path = .ok (m.getPath path) ↔ path.bytes ≠ [] ∨ m.get emptyField = none := by
  by_cases hpath : path.bytes = []
  · obtain rfl := eq_emptyField hpath
    rw [findPath_emptyField, getPath_emptyField, Except.ok.injEq]
    constructor
    · exact fun hnone => .inr hnone.symm
    · rintro (hne | hnone)
      · exact absurd rfl hne
      · exact hnone.symm
  · exact ⟨fun _ => .inl hpath, fun _ => findPath_getPath h hpath⟩

/-! ## One filter -/

/-- What the two sources resolve a field to. -/
theorem resolve_eq {m : Metadata} {bs : Bytes} (h : m.encode = .ok bs) {path : Str}
    (hpath : path.bytes ≠ [] ∨ m.get emptyField = none) :
    (Fields.encoded bs).resolve path = (Fields.decoded m).resolve path := by
  have hfound := (findPath_iff h path).mpr hpath
  simp only [Fields.resolve, hfound]

/-- **A filter that reads no field of no name** is answered alike. -/
theorem matchesFields_eq {m : Metadata} {bs : Bytes} (h : m.encode = .ok bs) {f : Filter}
    (hf : emptyField ∉ f.referencedFields ∨ m.get emptyField = none) :
    f.matchesFields (.encoded bs) = f.matchesFields (.decoded m) := by
  apply Filter.matchesFields_congr
  intro path hpath
  apply resolve_eq h
  rcases hf with hf | hf
  · left
    rintro hempty
    exact hf (eq_emptyField hempty ▸ hpath)
  · exact .inr hf

/-- Whether the field of no name exists is answered alike only when it does not. -/
theorem get_emptyField_of_exists {m : Metadata} {bs : Bytes}
    (h : (Filter.exists_ emptyField).matchesFields (.encoded bs) = (Filter.exists_ emptyField).matchesFields (.decoded m)) :
    m.get emptyField = none := by
  simp only [Filter.matchesFields, Fields.resolve, findPath_emptyField, getPath_emptyField] at h
  cases hget : m.get emptyField with
  | none => rfl
  | some v =>
    rw [hget] at h
    cases h

/-! ## One document -/

/-- A memtable row holds this metadata. -/
def HoldsMetadata (c : CollectionSource) (row : RowId) (m : Metadata) : Prop :=
  row.segment = memtableSegment ∧ c.memtableMetadata row = some m

/-- A segment's row holds this record: its directory entry points at the record's bytes. -/
def HoldsRecord (c : CollectionSource) (row : RowId) (r : MetaRecord) : Prop :=
  row.segment ≠ memtableSegment ∧ ∃ seg entry bs, c.state.segments[row.segment.toNat]? = some seg ∧
    seg.entries[row.row.toNat]? = some entry ∧ r.encode = .ok bs ∧
    slice seg.metaPayload entry.metaOffset.toNat entry.metaLen.toNat = some bs

/-- A record's bytes give back the bytes of its metadata. -/
theorem metadataBytes_record {m : Metadata} {bs rb : Bytes} {content : Option Bytes} (h : m.encode = .ok bs)
    (hr : MetaRecord.encode ⟨some m.toValue, content⟩ = .ok rb) (at_ : Nat) :
    (MetaRecord.metadataBytes at_ ⟨rb, 0⟩).map Prod.fst = .ok (some bs) := by
  obtain ⟨metadata, hm, he, rfl⟩ := MetaRecord.encode_eq_ok hr
  cases metadata with
  | none => cases hm
  | some found =>
    obtain ⟨v, encoded⟩ := found
    obtain rfl : m.toValue = v := Option.some.inj hm
    have hbs : bs = encoded := by
      have hencoded := he (m.toValue, encoded) rfl
      rw [Metadata.encode_eq_ok h] at hencoded
      exact Except.ok.inj hencoded
    subst hbs
    have hlen := Metadata.length_le_of_encode h
    unfold Limits.maxMetadataBytes at hlen
    have hone := (MetaRecord.flagByte_metadata ⟨some m.toValue, content⟩).mpr rfl
    have hread : (Reader.blob >>= fun b => (pure (some b) : Reader (Option Bytes)))
        ⟨Writer.blob bs ++ content.elim [] Writer.blob, 1⟩ = .ok (some bs, _) :=
      bind_of_ok (Reader.reads_blob (by omega) _ _)
    rw [MetaRecord.metadataBytes, bind_of_ok (show Reader.u8 ⟨_ :: _, _⟩ = .ok _ from rfl),
      if_neg (MetaRecord.flagByte_known _), if_neg hone]
    exact congrArg (Except.map Prod.fst) hread

/-- **A segment's row is filtered by the bytes of its metadata.** -/
theorem filterMatches_record {m : Metadata} {bs : Bytes} (h : m.encode = .ok bs) {c : CollectionSource} {row : RowId}
    {content : Option Bytes} (hrow : HoldsRecord c row ⟨some m.toValue, content⟩) (f : Filter) :
    c.filterMatches f row = .ok (f.matchesFields (.encoded bs)) := by
  obtain ⟨hseg, seg, entry, rb, hget, hentry, hr, hslice⟩ := hrow
  have hlen : entry.metaLen ≠ 0 := by
    rintro hzero
    have hpos := MetaRecord.encode_ne_nil hr
    unfold slice at hslice
    split at hslice
    · have hrb := Option.some.inj hslice
      rw [hzero, show (0 : UInt32).toNat = 0 from rfl, List.take_zero] at hrb
      rw [← hrb] at hpos
      exact absurd hpos (Nat.lt_irrefl 0)
    · cases hslice
  have hbytes : c.segmentMetadataBytes row = .ok (some bs) := by
    have hblock : MetaBlock.metadataBytes ⟨seg.metaPayload⟩ entry = .ok (some bs) := by
      unfold MetaBlock.metadataBytes
      rw [if_neg hlen]
      simp only [hslice]
      exact metadataBytes_record h hr _
    unfold CollectionSource.segmentMetadataBytes
    simp only [hget]
    unfold SegmentData.metadataBytes
    simp only [hentry, hblock]
    rfl
  unfold CollectionSource.filterMatches
  rw [if_neg hseg, hbytes]
  rfl

/-- A memtable's row by the metadata itself. -/
theorem filterMatches_memtable {m : Metadata} {c : CollectionSource} {row : RowId} (hrow : HoldsMetadata c row m)
    (f : Filter) : c.filterMatches f row = .ok (f.matchesFields (.decoded m)) := by
  unfold CollectionSource.filterMatches
  rw [if_pos hrow.1]
  simp only [hrow.2]

/-- **Lazy filtering is filtering**, exactly for metadata without a field of no name: every path then finds in the
    bytes what it finds in the metadata, every filter answers alike, and a document matches in a segment as it matched
    in the memtable. Of one path, it is so exactly when the path is not empty or there is no such field; and of a filter,
    whenever it reads no such field. -/
theorem lazy_filtering_iff {m : Metadata} {bs : Bytes} (h : m.encode = .ok bs) :
    (((∀ path, Value.findPath bs path = .ok (m.getPath path)) ∧
      (∀ f : Filter, f.matchesFields (.encoded bs) = f.matchesFields (.decoded m)) ∧
      ∀ (f : Filter) c row c' row' content, HoldsMetadata c row m → HoldsRecord c' row' ⟨some m.toValue, content⟩ →
        c'.filterMatches f row' = c.filterMatches f row) ↔ m.get emptyField = none) ∧
    (∀ path, Value.findPath bs path = .ok (m.getPath path) ↔ path.bytes ≠ [] ∨ m.get emptyField = none) ∧
    ∀ f : Filter, emptyField ∉ f.referencedFields → f.matchesFields (.encoded bs) = f.matchesFields (.decoded m) := by
  refine ⟨⟨?_, fun hnone => ⟨?_, ?_, ?_⟩⟩, findPath_iff h, fun f hf => matchesFields_eq h (.inl hf)⟩
  · rintro ⟨-, hfilters, -⟩
    exact get_emptyField_of_exists (hfilters (.exists_ emptyField))
  · exact fun path => (findPath_iff h path).mpr (.inr hnone)
  · exact fun f => matchesFields_eq h (.inr hnone)
  · intro f c row c' row' content hrow hrow'
    rw [filterMatches_record h hrow', filterMatches_memtable hrow, matchesFields_eq h (.inr hnone)]

/-- The metadata `{"a": null}`. -/
def nullA : Metadata := ⟨[(⟨[0x61], utf8_a⟩, .null)], List.pairwise_singleton _ _, trivial, trivial⟩

theorem lazy_filtering_nullA : nullA.encode = .ok [8, 1, 1, 0x61, 0] ∧ ∀ f : Filter,
    f.matchesFields (.encoded [8, 1, 1, 0x61, 0]) = f.matchesFields (.decoded nullA) := by
  have hencode : nullA.encode = .ok [8, 1, 1, 0x61, 0] := rfl
  exact ⟨hencode, ((lazy_filtering_iff hencode).1.mpr rfl).2.1⟩

/-- The metadata `{"": 1}`. -/
def unnamedOne : Metadata := ⟨[(emptyField, .i64 1)], List.pairwise_singleton _ _, trivial, trivial⟩

/-- **The empty path is lost in the bytes**: `{"": 1}` is stored as its encoding, in which no path finds the field. -/
theorem unnamed_field_lost : unnamedOne.encode = .ok [8, 1, 0, 3, 2] ∧ unnamedOne.getPath emptyField = some (.i64 1) ∧
    Value.findPath [8, 1, 0, 3, 2] emptyField = .ok none ∧
    (Filter.exists_ emptyField).matchesFields (.decoded unnamedOne) = true ∧
    (Filter.exists_ emptyField).matchesFields (.encoded [8, 1, 0, 3, 2]) = false := by
  refine ⟨rfl, ?_, findPath_emptyField _, ?_, ?_⟩
  · rw [getPath_emptyField]
    rfl
  · simp only [Filter.matchesFields, Fields.resolve, getPath_emptyField]
    rfl
  · simp only [Filter.matchesFields, Fields.resolve, findPath_emptyField]
    rfl

end IshaVectorDb.Correctness
