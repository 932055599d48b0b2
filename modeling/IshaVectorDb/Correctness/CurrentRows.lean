import IshaVectorDb.Correctness.LazyFilter
import IshaVectorDb.Correctness.LiveRows
import IshaVectorDb.Correctness.Refinement
import IshaVectorDb.Format.Records

/-!
# `Correctness.CurrentRows` — the rows that a search visits are **the documents**

A search sees a collection as one sequence of rows. Of an open collection the rows that are visited belong to its
documents, each once (`MemInv.forEach_docIds`), and what is read at such a row is the document: its vector, what a read
of it returns, and whether it satisfies a filter (`MemInv.shows`).
-/

namespace IshaVectorDb.Engine

open Format Interaction Index KeyLog Correctness

/-! ## A filter over a document -/

/-- The fields of a document, as a filter sees them. -/
def Doc.fields (d : Doc) : Fields := d.metadata.elim .empty .decoded

/-- **A filter over the bytes of a sorted value** is the filter over the metadata, if it reads no field of no name. -/
theorem matchesFields_value {m : Metadata} {bs : Bytes} (h : m.toValue.encode = .ok bs) (hlen : bs.length < 2 ^ 64) {f : Filter}
    (hf : emptyField ∉ f.referencedFields) : f.matchesFields (.encoded bs) = f.matchesFields (.decoded m) := by
  apply Filter.matchesFields_congr
  intro path hmem
  have hpath : path.bytes ≠ [] := fun hempty => hf (eq_emptyField hempty ▸ hmem)
  have hfound : Value.findPath bs path = .ok (m.getPath path) := by
    rw [Metadata.getPath_eq]
    exact Value.findPath_spec m.sorted h hlen hpath
  simp only [Fields.resolve, hfound]

/-! ## A segment's row -/

namespace Seg

variable {cat : Catalog} (g : Seg cat)

/-- The bytes of a row's metadata are the encoding of its document's. -/
theorem metadataBytes_data {i : Nat} {r : StoredRow} (h : g.rows[i]? = some r) :
    (r.doc.metadata = none ∧ g.data.metadataBytes i = .ok none) ∨
      ∃ m bs, r.doc.metadata = some m ∧ g.data.metadataBytes i = .ok (some bs) ∧ m.toValue.encode = .ok bs ∧
        bs.length < 2 ^ 64 := by
  obtain ⟨hi, rfl⟩ := List.getElem?_eq_some_iff.mp h
  have hseg : i < g.segRows.length := by rw [segRows_length]; exact hi
  have hget := SegmentRow.entriesFrom_getElem 0 0 g.segRows i hseg
  rw [Nat.zero_add, Nat.zero_add] at hget
  set entry := g.segRows[i].entry (Parsing.offsetOf SegmentRow.recordBytes g.segRows i)
    (Parsing.offsetOf SegmentRow.id g.segRows i) with hentry
  have hfit := (g.segFits.each g.segRows[i] (List.getElem_mem hseg)).record
  have hlt := SegmentRow.recordBytes_lt hfit
  have hlen : entry.metaLen.toNat = g.segRows[i].recordBytes.length := SegmentWriter.ofNat_toNat_u32 hlt
  have hoff : entry.metaOffset.toNat = Parsing.offsetOf SegmentRow.recordBytes g.segRows i := by
    have hle := Parsing.offsetOf_le SegmentRow.recordBytes g.segRows i
    have htotal := g.segFits.records_lt
    exact ofNat_toNat_u64 (by omega)
  have hrecord : g.segRows[i].record = ⟨g.rows[i].doc.metadata.map Metadata.toValue, g.rows[i].doc.content⟩ := by
    simp [segRows, StoredRow.toRow]
  have hdata : g.data.metadataBytes i =
      formatAt .root (MetaBlock.metadataBytes ⟨g.segRows.flatMap SegmentRow.recordBytes⟩ entry) := by
    unfold SegmentData.metadataBytes
    rw [show g.data.entries[i]? = some entry from hget]
    rfl
  rw [hdata]
  unfold MetaBlock.metadataBytes
  cases he : g.segRows[i].record.isEmpty with
  | true =>
    -- a row with neither metadata nor content takes no bytes
    have hnil : g.segRows[i].recordBytes = [] := by rw [SegmentRow.recordBytes, if_pos he]
    have hzero : entry.metaLen = 0 := UInt32.toNat.inj (by rw [hlen, hnil]; rfl)
    rw [if_pos hzero]
    rw [hrecord] at he
    cases hm : g.rows[i].doc.metadata with
    | none => exact .inl ⟨rfl, rfl⟩
    | some m => rw [hm] at he; cases he
  | false =>
    obtain ⟨bs, hbs, hbslt⟩ := hfit.encodes
    have hbytes : g.segRows[i].recordBytes = bs := by
      rw [SegmentRow.recordBytes, he, hbs]; rfl
    have hne : entry.metaLen ≠ 0 := fun hz => by
      have hpos := MetaRecord.encode_ne_nil hbs
      rw [hz, hbytes] at hlen
      rw [← hlen] at hpos
      exact absurd hpos (Nat.lt_irrefl 0)
    rw [if_neg hne, hoff, hlen, Parsing.slice_flatMap SegmentRow.recordBytes hseg, hbytes]
    obtain ⟨metadata, hmeta, hencode, rfl⟩ := MetaRecord.encode_eq_ok hbs
    have hmlen : ∀ m ∈ metadata, m.2.length < 2 ^ 64 := by
      rintro m hmem
      cases hmem
      simp only [Option.elim_some, List.length_cons, List.length_append, Writer.blob_length] at hbslt
      omega
    have hread := MetaRecord.reads_metadataBytes hmeta hmlen entry.metaOffset.toNat (g.segRows[i].record.content.elim [] Writer.blob) 0
    rw [← List.cons_append]
    dsimp only
    rw [← hoff, hread]
    rw [hrecord] at hmeta
    cases metadata with
    | none =>
      exact .inl ⟨Option.map_eq_none_iff.mp hmeta, rfl⟩
    | some found =>
      obtain ⟨m, hm, hvalue⟩ := Option.map_eq_some_iff.mp hmeta
      exact .inr ⟨m, found.2, hm, rfl, hvalue ▸ hencode found rfl, hmlen found rfl⟩

end Seg

/-! ## What a row shows -/

/-- **A row shows a document**: it may be returned, and what a search reads there is the document's. A filter that reads a
    field of no name is left out, which a segment does not find. -/
structure CollectionSource.Shows (c : CollectionSource) (row : RowId) (norm : UInt32) (id : DocId) (d : Doc) : Prop where
  docId : c.docId row = some id
  live : c.isLive row = true
  vector : c.vector row = some (d.vector, norm)
  document : ∀ inc, c.document row inc = .ok (some (d.view id inc))
  filter : ∀ f : Filter, emptyField ∉ f.referencedFields → c.filterMatches f row = .ok (f.matchesFields d.fields)

section Open

variable {invNorm : InvNorm} {durability : Durability} {sess : Session} {g : Ghost} {img : Image}

theorem MemInv.live_few (h : MemInv invNorm durability sess.coll g img) : sess.memtable.liveRows.length ≤ 2 ^ 32 := by
  have hsub : (sess.memtable.liveRows.map MemRow.id).Subperm ((g.ops.filter Op.isPut).map Op.key) := by
    refine h.models.liveRows_nodup.subperm (fun k hk => ?_)
    obtain ⟨d, hd⟩ := h.models.mem_liveRows.mp hk
    exact List.mem_map.mpr ⟨_, List.mem_filter.mpr ⟨put_mem_of_verdict hd, rfl⟩, rfl⟩
  have hle := hsub.length_le
  rw [List.length_map, List.length_map, ← List.countP_eq_length_filter] at hle
  exact hle.trans h.few

/-- Its rows have numbers, if its segments have. -/
theorem MemInv.numbered (h : MemInv invNorm durability sess.coll g img) (hfew : sess.segments.length < 2 ^ 32) :
    sess.Numbered := ⟨hfew, h.live_few⟩

/-- What the log says of a document is what the document is. -/
theorem MemInv.docs_of_verdict (h : MemInv invNorm durability sess.coll g img) {k : DocId} {v : Option Doc}
    (hv : verdict g.ops k = some v) : g.docs k = v := by
  obtain ⟨segs, -, hlist⟩ := h.segments
  rw [← hlist.docs_eq, replay_apply, hv]
  rfl

/-- **A live row of a segment** that the log says nothing of is the document. -/
theorem SegList.docs_of_row {segs : List (Seg g.cat)} (hlist : SegList g segs) {seg : Seg g.cat} (hseg : seg ∈ segs) {k : DocId} {d : Doc} (hd : seg.contents k = some d)
    (hv : verdict g.ops k = none) : g.docs k = some d := by
  rw [← hlist.docs_eq, replay_apply, hv]
  exact (stack_eq_some hlist.separate).mpr ⟨seg.contents, List.mem_map_of_mem hseg, hd⟩

/-- Whether the memtable shadows a document is whether the log writes it. -/
theorem MemInv.shadowed_eq (h : MemInv invNorm durability sess.coll g img) (k : DocId) :
    CollectionSource.shadowed sess (some k) = (verdict g.ops k).isSome := by
  have hmem : sess.memtable = sess.coll.state.memtable := rfl
  unfold CollectionSource.shadowed
  dsimp only
  rw [hmem]
  cases hv : verdict g.ops k with
  | none => rw [h.models.get_none.mpr hv]; rfl
  | some v =>
    cases hget : sess.coll.state.memtable.get k with
    | none => rw [h.models.get_none.mp hget] at hv; cases hv
    | some l => rfl

/-- A row of the memtable has its document's vector. -/
theorem MemInv.readMemVector_eq (h : MemInv invNorm durability sess.coll g img) {k : DocId} {d : Doc} {row : MemRow}
    (hv : verdict g.ops k = some (some d)) (hrow : sess.memtable.RowHolds invNorm k d row) (inc : Include) :
    sess.readMemVector row inc = .ok (if inc.vector then some (words32 d.vector) else none) := by
  unfold Session.readMemVector
  split
  · have hok : DocOk g.cat k d := h.ok _ (put_mem_of_verdict hv)
    have hcat : sess.catalog = g.cat := h.catalog
    have hlen : d.vector.length = VectorDType.f32.rowStride sess.catalog.dimension := by rw [hcat, hok.vector, rowStride_eq]
    rw [hrow.vector]
    show (do let view ← VectorView.ofRaw .f32 d.vector sess.catalog.dimension
             return some view.toF32 : Except DbError _) = _
    simp only [VectorView.ofRaw, if_neg (not_not.mpr hlen), Parsing.except_ok_bind]
    rfl
  · rfl

/-! ## The rows that are visited -/

/-- What cannot fail on any item of a list gives the list of its results. -/
theorem mapM_eq_map {α β : Type} {f : α → Except DbError β} {b : α → β} {l : List α} (h : ∀ a ∈ l, f a = .ok (b a)) :
    l.mapM f = .ok (l.map b) := by
  induction l with
  | nil => rfl
  | cons a l ih =>
    rw [List.mapM_cons, h a List.mem_cons_self, ih (fun x hx => h x (List.mem_cons_of_mem _ hx))]
    rfl

/-- Every segment of an open collection has its vectors. -/
theorem mapM_vectors (segs : List (Seg g.cat)) : (segs.map Seg.data).mapM SegmentData.vectors =
    .ok (segs.map (fun seg => ⟨seg.segRows.flatMap SegmentRow.vector, g.cat.rowStride, UInt32.ofNat seg.segRows.length⟩)) := by
  rw [List.mapM_map]
  exact mapM_eq_map (fun seg _ => seg.vectors_data g.good.stride)

/-- **An open collection can be searched.** -/
theorem MemInv.build_ok (h : MemInv invNorm durability sess.coll g img) (dimension : UInt32) :
    ∃ c, CollectionSource.build sess dimension = .ok c := by
  obtain ⟨segs, hsegs, -⟩ := h.segments
  have hsegs : sess.segments = segs.map Seg.data := hsegs
  unfold CollectionSource.build
  rw [hsegs, mapM_vectors]
  exact ⟨_, rfl⟩

section Built

variable {dimension : UInt32} {c : CollectionSource} (h : MemInv invNorm durability sess.coll g img)
  (hfew : sess.segments.length < 2 ^ 32) (hbuild : CollectionSource.build sess dimension = .ok c)
include h hfew hbuild

/-- A row of the memtable that is visited. -/
theorem MemInv.shows_buffered {row : RowId} {bytes : Bytes} {norm : UInt32} (hrow : row.segment = memtableSegment)
    (hmem : (row, bytes, norm) ∈ c.forEach) :
    ∃ id d, g.docs id = some d ∧ bytes = d.vector ∧ norm = (invNorm d.vector).bits ∧ c.Shows row norm id d := by
  have hvector := CollectionSource.vector_of_visited (h.numbered hfew) hbuild hmem
  obtain ⟨rfl, hrows, -⟩ := CollectionSource.build_spec hbuild
  obtain ⟨mem, hat, hbytes, rfl⟩ := (CollectionSource.mem_forEach_buffered hfew (hrows ▸ h.live_few) hrow).mp hmem
  have hlive : mem ∈ c.state.memtable.liveRows := hrows ▸ List.mem_of_getElem? hat
  obtain ⟨d, hv, hholds⟩ := h.models.liveRows_holds hlive
  obtain rfl : d.vector = bytes := Option.some.inj (hholds.vector.symm.trans hbytes)
  refine ⟨mem.id, d, h.docs_of_verdict hv, rfl, by rw [hholds.invNorm], ?_, ?_, hvector, fun inc => ?_, fun f _ => ?_⟩
  · unfold CollectionSource.docId
    rw [if_pos hrow, hat]
    rfl
  · unfold CollectionSource.isLive
    rw [if_pos hrow]
    exact decide_eq_true (List.getElem?_eq_some_iff.mp hat).1
  · have hread := h.readMemVector_eq hv hholds inc
    unfold CollectionSource.document
    rw [if_pos hrow, hat]
    dsimp only
    rw [hread, hholds.metadata, hholds.content]
    rfl
  · have hmeta : c.memtableMetadata row = d.metadata := by
      unfold CollectionSource.memtableMetadata
      rw [hat, ← hholds.metadata]
      rfl
    unfold CollectionSource.filterMatches Doc.fields
    rw [if_pos hrow, hmeta]
    cases d.metadata <;> rfl

/-- A row of a segment that is visited. -/
theorem MemInv.shows_segment {row : RowId} {bytes : Bytes} {norm : UInt32} (hrow : row.segment ≠ memtableSegment)
    (hmem : (row, bytes, norm) ∈ c.forEach) : ∃ id d, g.docs id = some d ∧ bytes = d.vector ∧ c.Shows row norm id d := by
  have hvector := CollectionSource.vector_of_visited (h.numbered hfew) hbuild hmem
  obtain ⟨rfl, hrows, hblocks⟩ := CollectionSource.build_spec hbuild
  obtain ⟨data, block, hdata, hblock, hlt, hlive, hshadow, hbytes, -⟩ :=
    (CollectionSource.mem_forEach_segment hfew hrow).mp hmem
  obtain ⟨segs, hsegs, hlist⟩ := h.segments
  have hat : (segs.map Seg.data)[row.segment.toNat]? = some data := hsegs ▸ hdata
  rw [List.getElem?_map] at hat
  obtain ⟨seg, hseg, rfl⟩ := Option.map_eq_some_iff.mp hat
  have hin : seg ∈ segs := List.mem_of_getElem? hseg
  -- the row of the segment, and its vector in the block
  have hlt' : row.row.toNat < seg.rows.length := by rw [seg.data_rows, seg.rows_toNat] at hlt; exact hlt
  obtain ⟨r, hr⟩ : ∃ r, seg.rows[row.row.toNat]? = some r := ⟨_, List.getElem?_eq_getElem hlt'⟩
  obtain ⟨block', hblock', hvectors⟩ := hblocks _ _ hdata
  obtain rfl := Option.some.inj (hblock'.symm.trans hblock)
  rw [seg.vectors_data g.good.stride] at hvectors
  obtain rfl := Except.ok.inj hvectors
  obtain rfl : r.doc.vector = bytes := Option.some.inj ((seg.row_vectors hr).symm.trans hbytes)
  have hid : seg.data.idAt row.row.toNat = some r.id := by
    show (seg.rows.map StoredRow.id)[row.row.toNat]? = _
    rw [List.getElem?_map, hr]
    rfl
  have hv : verdict g.ops r.id = none := by
    rw [hid, h.shadowed_eq] at hshadow
    exact Option.not_isSome_iff_eq_none.mp (by rw [hshadow]; exact Bool.false_ne_true)
  have hcontents : seg.contents r.id = some r.doc := Seg.contents_eq_some.mpr ⟨_, r, hr, hlive, rfl, rfl⟩
  refine ⟨r.id, r.doc, hlist.docs_of_row hin hcontents hv, rfl, ?_, ?_, hvector, fun inc => ?_, fun f hf => ?_⟩
  · unfold CollectionSource.docId
    rw [if_neg hrow, hdata]
    exact hid
  · unfold CollectionSource.isLive
    rw [if_neg hrow, hdata]
    exact hlive
  · unfold CollectionSource.document
    rw [if_neg hrow, hdata]
    exact seg.document_data g.good.stride hr hlive inc
  · have hfound : c.segmentMetadataBytes row = seg.data.metadataBytes row.row.toNat := by
      unfold CollectionSource.segmentMetadataBytes
      rw [hdata]
    unfold CollectionSource.filterMatches Doc.fields
    rw [if_neg hrow, hfound]
    rcases seg.metadataBytes_data hr with ⟨hnone, hbytes'⟩ | ⟨m, bs, hsome, hbytes', hencode, hlen⟩
    · rw [hbytes', hnone]
      rfl
    · rw [hbytes', hsome]
      show Except.ok (f.matchesFields (.encoded bs)) = Except.ok (f.matchesFields (.decoded m))
      rw [matchesFields_value hencode hlen hf]

/-- **A row that is visited shows a document.** -/
theorem MemInv.shows {row : RowId} {bytes : Bytes} {norm : UInt32} (hmem : (row, bytes, norm) ∈ c.forEach) :
    ∃ id d, g.docs id = some d ∧ bytes = d.vector ∧ c.Shows row norm id d := by
  by_cases hrow : row.segment = memtableSegment
  · obtain ⟨id, d, hd, hbytes, -, hshows⟩ := h.shows_buffered hfew hbuild hrow hmem
    exact ⟨id, d, hd, hbytes, hshows⟩
  · exact h.shows_segment hfew hbuild hrow hmem

omit h in
/-- The rows of one segment are its documents that the memtable says nothing of. -/
theorem CollectionSource.segmentRows_docIds {segs : List (Seg g.cat)} (hsegs : sess.segments = segs.map Seg.data) {index : Nat}
    {seg : Seg g.cat} (hseg : segs[index]? = some seg) :
    (CollectionSource.segmentRows sess index seg.data
        ⟨seg.segRows.flatMap SegmentRow.vector, g.cat.rowStride, UInt32.ofNat seg.segRows.length⟩).map
      (fun r => c.docId r.1) = (sess.segmentIds seg.data).map some := by
  obtain ⟨hstate, -, -⟩ := CollectionSource.build_spec hbuild
  have hdata : sess.segments[index]? = some seg.data := by
    rw [hsegs, List.getElem?_map, hseg]
    rfl
  obtain ⟨hindex, hne⟩ := CollectionSource.segment_number hfew hdata
  unfold CollectionSource.segmentRows Session.segmentIds
  rw [List.map_filterMap, List.map_filterMap]
  refine List.filterMap_congr (fun row hrow => ?_)
  have hlt : row < seg.rows.length := by
    rw [seg.data_rows, seg.rows_toNat] at hrow
    exact List.mem_range.mp hrow
  obtain ⟨r, hr⟩ : ∃ r, seg.rows[row]? = some r := ⟨_, List.getElem?_eq_getElem hlt⟩
  have hid : seg.data.idAt row = some r.id := by
    show (seg.rows.map StoredRow.id)[row]? = _
    rw [List.getElem?_map, hr]
    rfl
  have hnumber : (UInt32.ofNat row).toNat = row := by
    have := seg.length_lt
    exact UInt32.toNat_ofNat_of_lt' (by rw [show UInt32.size = 2 ^ 32 from rfl]; omega)
  have hdoc : c.docId (RowId.new (UInt32.ofNat index) (UInt32.ofNat row)) = some r.id := by
    unfold CollectionSource.docId
    rw [RowId.segment_new, if_neg hne, RowId.row_new, hindex, hnumber, hstate, hdata]
    exact hid
  have hget : (sess.memtable.get r.id).isNone = !CollectionSource.shadowed sess (some r.id) := by
    show _ = !(sess.memtable.get r.id).isSome
    cases sess.memtable.get r.id <;> rfl
  obtain ⟨norm, hnorm⟩ : ∃ norm, seg.data.invNorm row = some norm := by
    refine ⟨_, congrArg (Option.map RowEntry.invNorm) (List.getElem?_eq_getElem ?_)⟩
    show row < (SegmentRow.entriesFrom 0 0 seg.segRows).length
    rw [SegmentRow.entriesFrom_length, seg.segRows_length]
    exact hlt
  unfold CollectionSource.current
  rw [hid, seg.row_vectors hr, hnorm]
  dsimp only
  rw [hget]
  cases hlive : seg.data.isLive row with
  | false => rfl
  | true =>
    cases hshadow : CollectionSource.shadowed sess (some r.id) with
    | false =>
      show some (c.docId (RowId.new (UInt32.ofNat index) (UInt32.ofNat row))) = some (some r.id)
      rw [hdoc]
    | true => rfl

omit hfew in
/-- The rows of the memtable are its live documents. -/
theorem MemInv.bufferedRows_docIds :
    c.bufferedRows.map (fun r => c.docId r.1) = (sess.memtable.liveRows.map MemRow.id).map some := by
  obtain ⟨hstate, hrows, -⟩ := CollectionSource.build_spec hbuild
  have hnumber : ∀ p ∈ c.memtableRows.zipIdx, c.memtableRows[(UInt32.ofNat p.2).toNat]? = some p.1 := fun p hp => by
    have hat := List.mem_zipIdx_iff_getElem?.mp hp
    have hlt := (List.getElem?_eq_some_iff.mp hat).1
    have hle := h.live_few
    rw [← hrows] at hle
    rw [UInt32.toNat_ofNat_of_lt' (by rw [show UInt32.size = 2 ^ 32 from rfl]; omega)]
    exact hat
  unfold CollectionSource.bufferedRows
  rw [List.map_filterMap]
  have heach : ∀ p ∈ c.memtableRows.zipIdx, ((c.state.memtable.vectorBytes p.1).map (fun bytes =>
      (RowId.new memtableSegment (UInt32.ofNat p.2), bytes, p.1.invNorm.bits))).map (fun r => c.docId r.1) =
        some (some p.1.id) := fun p hp => by
    have hlive : p.1 ∈ sess.memtable.liveRows := hrows ▸ List.mem_of_getElem? (List.mem_zipIdx_iff_getElem?.mp hp)
    obtain ⟨d, -, hholds⟩ := h.models.liveRows_holds hlive
    have hvector : c.state.memtable.vectorBytes p.1 = some d.vector := hstate ▸ hholds.vector
    rw [hvector, Option.map_some, Option.map_some]
    unfold CollectionSource.docId
    rw [RowId.segment_new, if_pos rfl, RowId.row_new, hnumber p hp]
    rfl
  rw [List.filterMap_congr heach, List.filterMap_eq_map', ← hrows, List.map_map]
  conv_rhs => rw [← List.zipIdx_map_fst 0 c.memtableRows, List.map_map]
  rfl

omit h hfew in
/-- The blocks of a source are the segments' vectors. -/
theorem CollectionSource.blocks_eq {segs : List (Seg g.cat)} (hsegs : sess.segments = segs.map Seg.data) : c.blocks =
    segs.map (fun seg => ⟨seg.segRows.flatMap SegmentRow.vector, g.cat.rowStride, UInt32.ofNat seg.segRows.length⟩) := by
  obtain ⟨blocks, hblocks, hc⟩ := Parsing.except_bind_eq_ok.mp hbuild
  obtain rfl := Except.ok.inj hc
  rw [hsegs, mapM_vectors] at hblocks
  exact (Except.ok.inj hblocks).symm

/-- **The rows that are visited are the documents**, each once. -/
theorem MemInv.forEach_docIds : c.forEach.map (fun r => c.docId r.1) = (foundIds sess).map some := by
  have hbuffered := h.bufferedRows_docIds hbuild
  obtain ⟨segs, hsegs, -⟩ := h.segments
  have hsegs : sess.segments = segs.map Seg.data := hsegs
  have hrows : ∀ (index : Nat) (seg : Seg g.cat), segs[index]? = some seg → _ :=
    fun _ _ hseg => CollectionSource.segmentRows_docIds hfew hbuild hsegs hseg
  obtain ⟨hstate, -, -⟩ := CollectionSource.build_spec hbuild
  unfold CollectionSource.forEach foundIds
  rw [List.map_append, List.map_append, hbuffered, hstate, CollectionSource.blocks_eq hbuild hsegs, hsegs, List.zip_map', List.zipIdx_map,
    List.flatMap_map, List.map_flatMap, List.map_flatMap, List.flatMap_map]
  congr 1
  conv_rhs => rw [← List.zipIdx_map_fst 0 segs, List.flatMap_map]
  exact List.flatMap_congr (fun p hp => hrows p.2 p.1 (List.mem_zipIdx_iff_getElem?.mp hp))

end Built

end Open

end IshaVectorDb.Engine
