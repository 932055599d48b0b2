import IshaVectorDb.Engine.Collection
import IshaVectorDb.Correctness.Memtable

/-!
# `Correctness.Segments` — what an **open segment** is and what it answers

`Seg cat` is a well-formed segment: rows with distinct ids of the collection's kind that fit the file format,
and a bitmap over them. Its four files are `Seg.file`, the structure the engine holds is `Seg.data`, and
abstractly it is the map `Seg.contents` of its live rows. Opening the files gives the structure
(`assemble_data`), and what the structure answers is the map.
-/

namespace IshaVectorDb.Engine

open Format KeyLog

namespace StoredRow

/-- The row as the writers take it. -/
def toRow (r : StoredRow) : SegmentRow :=
  ⟨r.id.toBytes, r.doc.vector, r.invNorm.bits, ⟨r.doc.metadata.map Metadata.toValue, r.doc.content⟩⟩

@[simp] theorem toRow_id (r : StoredRow) : r.toRow.id = r.id.toBytes := rfl

@[simp] theorem toRow_vector (r : StoredRow) : r.toRow.vector = r.doc.vector := rfl

end StoredRow

/-- A well-formed segment of a collection. -/
structure Seg (cat : Catalog) where
  id : UInt64
  rows : List StoredRow
  tombstones : Tombstones
  kinds : ∀ r ∈ rows, r.id.OfKind cat.idKind
  distinct : (rows.map StoredRow.id).Nodup
  fits : SegFits cat.rowStride (rows.map StoredRow.toRow)
  wf : tombstones.Wf
  sized : tombstones.rows = UInt32.ofNat rows.length

/-- The index from ids to row numbers, as the row table builds it. -/
def rowIndex (ids : List DocId) : AList (fun _ : DocId => UInt32) :=
  ids.zipIdx.foldl (fun index p => index.insert p.1 (UInt32.ofNat p.2)) ∅

theorem rowIndex_concat (ids : List DocId) (id : DocId) :
    rowIndex (ids ++ [id]) = (rowIndex ids).insert id (UInt32.ofNat ids.length) := by
  unfold rowIndex
  rw [List.zipIdx_append, List.foldl_append]; simp

theorem lookup_rowIndex {ids : List DocId} (h : ids.Nodup) (k : DocId) :
    (rowIndex ids).lookup k = (ids.findIdx? (fun id => id = k)).map UInt32.ofNat := by
  induction ids using List.reverseRecOn with
  | nil => rfl
  | append_singleton ids id ih =>
    obtain ⟨hn, -, hdis⟩ := List.nodup_append'.mp h
    rw [rowIndex_concat, List.findIdx?_append]
    by_cases hk : id = k
    · subst hk
      have hnone : ids.findIdx? (fun i => i = id) = none := by
        rw [List.findIdx?_eq_none_iff]
        intro i hi
        have hne : i ≠ id := fun he => hdis hi (by rw [he]; exact List.mem_singleton_self id)
        simpa using hne
      rw [AList.lookup_insert, hnone]; simp
    · rw [AList.lookup_insert_ne (fun h => hk h.symm), ih hn]
      cases hf : ids.findIdx? (fun i => i = k) with
      | none => simp [hk]
      | some i => simp

/-- The elements of a list at the positions that satisfy `p`. -/
def pick {α : Type} (p : Nat → Bool) (l : List α) : List α :=
  (List.range l.length).filterMap (fun i => if p i then l[i]? else none)

theorem pick_concat {α : Type} (p : Nat → Bool) (l : List α) (a : α) :
    pick p (l ++ [a]) = pick p l ++ (if p l.length then [a] else []) := by
  unfold pick
  rw [List.length_append, List.length_singleton, List.range_succ, List.filterMap_append]
  congr 1
  · refine List.filterMap_congr (fun i hi => ?_)
    rw [List.getElem?_append_left (List.mem_range.mp hi)]
  · cases hp : p l.length <;> simp [hp]

theorem pick_sublist {α : Type} (p : Nat → Bool) (l : List α) : (pick p l).Sublist l := by
  induction l using List.reverseRecOn with
  | nil => exact List.Sublist.slnil
  | append_singleton l a ih =>
    rw [pick_concat]
    refine ih.append ?_
    cases p l.length with
    | true => exact List.Sublist.refl _
    | false => exact List.nil_sublist _

theorem length_pick {α : Type} (p : Nat → Bool) (l : List α) :
    (pick p l).length = (List.range l.length).countP p := by
  induction l using List.reverseRecOn with
  | nil => rfl
  | append_singleton l a ih =>
    rw [pick_concat, List.length_append, ih, List.length_append, List.length_singleton, List.range_succ,
      List.countP_append]
    cases hp : p l.length <;> simp [hp]

theorem mem_pick {α : Type} {p : Nat → Bool} {l : List α} {a : α} :
    a ∈ pick p l ↔ ∃ i, l[i]? = some a ∧ p i = true := by
  unfold pick
  rw [List.mem_filterMap]
  constructor
  · rintro ⟨i, -, hi⟩
    split at hi
    · rename_i hl; exact ⟨i, hi, hl⟩
    · cases hi
  · rintro ⟨i, hr, hl⟩
    exact ⟨i, List.mem_range.mpr (List.getElem?_eq_some_iff.mp hr).1, by rw [if_pos hl]; exact hr⟩

theorem pick_all {α : Type} {p : Nat → Bool} {l : List α} (h : ∀ i < l.length, p i = true) : pick p l = l := by
  induction l using List.reverseRecOn with
  | nil => rfl
  | append_singleton l a ih =>
    rw [List.length_append, List.length_singleton] at h
    rw [pick_concat, ih (fun i hi => h i (by omega)), if_pos (h l.length (by omega))]

namespace Seg

variable {cat : Catalog} (g : Seg cat)

/-- The rows as written. -/
def segRows : List SegmentRow := g.rows.map StoredRow.toRow

theorem segFits : SegFits cat.rowStride g.segRows := g.fits

/-- What each of the segment's files holds. -/
def file : SegmentFile → Bytes
  | .vectors => (SegmentWriter.of cat.dimension cat.rowStride g.segRows).vectors.finish
  | .directory => (SegmentWriter.of cat.dimension cat.rowStride g.segRows).directory.finish
  | .metadata => (SegmentWriter.of cat.dimension cat.rowStride g.segRows).records.finish
  | .tombstones => g.tombstones.encode

/-- The segment as the engine holds it. -/
def data : SegmentData :=
  ⟨g.id, cat.rowStride, cat.dtype, cat.dimension, g.file .vectors, g.segRows.flatMap SegmentRow.recordBytes,
    SegmentRow.entriesFrom 0 0 g.segRows, g.rows.map StoredRow.id, rowIndex (g.rows.map StoredRow.id),
    g.tombstones⟩

/-- The manifest's entry for the segment. -/
def ref : SegmentRef := ⟨g.id, UInt32.ofNat g.rows.length, g.tombstones.generation⟩

/-- The row of a document, live or dead. -/
def rowOf (k : DocId) : Option Nat := (g.rows.map StoredRow.id).findIdx? (fun id => id = k)

/-- The live row of a document. -/
def liveRowOf (k : DocId) : Option Nat := (g.rowOf k).filter (fun i => g.tombstones.isLive i)

/-- **What the segment holds.** -/
def contents : DocMap := fun k => (g.liveRowOf k).bind (fun i => (g.rows[i]?).map StoredRow.doc)

theorem length_lt : g.rows.length < 2 ^ 28 := by
  have h := g.fits.length_lt
  rwa [List.length_map] at h

theorem rows_toNat : (UInt32.ofNat g.rows.length).toNat = g.rows.length := by
  have h := g.length_lt
  rw [UInt32.toNat_ofNat']; exact Nat.mod_eq_of_lt (by omega)

@[simp] theorem segRows_length : g.segRows.length = g.rows.length := List.length_map _

@[simp] theorem data_id : g.data.id = g.id := rfl

@[simp] theorem data_tombstones : g.data.tombstones = g.tombstones := rfl

@[simp] theorem data_isLive (i : Nat) : g.data.isLive i = g.tombstones.isLive i := rfl

theorem data_rows : g.data.rows = UInt32.ofNat g.rows.length := by
  show UInt32.ofNat (SegmentRow.entriesFrom 0 0 g.segRows).length = _
  rw [SegmentRow.entriesFrom_length, segRows_length]

theorem data_ref : g.data.ref = g.ref := by
  unfold SegmentData.ref ref; rw [data_rows]; rfl

/-! ## Rows -/

theorem rowOf_eq_some {g : Seg cat} {k : DocId} {i : Nat} :
    g.rowOf k = some i ↔ ∃ r, g.rows[i]? = some r ∧ r.id = k := by
  unfold rowOf
  rw [List.findIdx?_eq_some_iff_getElem]
  constructor
  · rintro ⟨hi, hk, -⟩
    rw [List.length_map] at hi
    rw [List.getElem_map] at hk
    exact ⟨g.rows[i], List.getElem?_eq_getElem hi, of_decide_eq_true hk⟩
  · rintro ⟨r, hr, rfl⟩
    obtain ⟨hi, hri⟩ := List.getElem?_eq_some_iff.mp hr
    refine ⟨by rw [List.length_map]; exact hi, by rw [List.getElem_map, hri]; exact decide_eq_true rfl, ?_⟩
    intro j hj
    have hlen : i < (g.rows.map StoredRow.id).length := by rw [List.length_map]; exact hi
    have hne : (g.rows.map StoredRow.id)[j] ≠ (g.rows.map StoredRow.id)[i] :=
      fun he => Nat.ne_of_lt hj ((List.Nodup.getElem_inj_iff g.distinct).mp he)
    rw [List.getElem_map, List.getElem_map, hri] at hne
    rw [List.getElem_map]
    simpa using hne

theorem rowOf_lt {g : Seg cat} {k : DocId} {i : Nat} (h : g.rowOf k = some i) : i < g.rows.length := by
  obtain ⟨r, hr, -⟩ := rowOf_eq_some.mp h
  exact (List.getElem?_eq_some_iff.mp hr).1

theorem liveRowOf_eq_some {g : Seg cat} {k : DocId} {i : Nat} :
    g.liveRowOf k = some i ↔ (∃ r, g.rows[i]? = some r ∧ r.id = k) ∧ g.tombstones.isLive i = true := by
  unfold liveRowOf
  rw [Option.filter_eq_some_iff, rowOf_eq_some]

/-- **A document of the segment is a live row.** -/
theorem contents_eq_some {g : Seg cat} {k : DocId} {d : Doc} :
    g.contents k = some d ↔ ∃ i r, g.rows[i]? = some r ∧ g.tombstones.isLive i = true ∧ r.id = k ∧ r.doc = d := by
  unfold contents
  rw [Option.bind_eq_some_iff]
  constructor
  · rintro ⟨i, hi, hd⟩
    obtain ⟨⟨r, hr, hk⟩, hl⟩ := liveRowOf_eq_some.mp hi
    rw [hr] at hd
    exact ⟨i, r, hr, hl, hk, Option.some.inj hd⟩
  · rintro ⟨i, r, hr, hl, hk, rfl⟩
    exact ⟨i, liveRowOf_eq_some.mpr ⟨⟨r, hr, hk⟩, hl⟩, by rw [hr]; rfl⟩

theorem contents_isSome {g : Seg cat} {k : DocId} : (g.contents k).isSome = (g.liveRowOf k).isSome := by
  cases h : g.liveRowOf k with
  | none => rw [contents, h]; rfl
  | some i =>
    obtain ⟨⟨r, hr, -⟩, -⟩ := liveRowOf_eq_some.mp h
    rw [contents, h, Option.bind_some, hr]; rfl

theorem data_rowOf (k : DocId) : g.data.rowOf k = g.rowOf k := by
  show ((rowIndex (g.rows.map StoredRow.id)).lookup k).map UInt32.toNat = _
  rw [lookup_rowIndex g.distinct]
  change ((g.rowOf k).map UInt32.ofNat).map UInt32.toNat = g.rowOf k
  cases h : g.rowOf k with
  | none => rfl
  | some i =>
    have hi := rowOf_lt h
    have hlen := g.length_lt
    have hn : (UInt32.ofNat i).toNat = i := by rw [UInt32.toNat_ofNat']; exact Nat.mod_eq_of_lt (by omega)
    rw [Option.map_some, Option.map_some, hn]

theorem data_liveRowOf (k : DocId) : g.data.liveRowOf k = g.liveRowOf k := by
  unfold SegmentData.liveRowOf liveRowOf
  rw [data_rowOf]
  cases h : g.rowOf k with
  | none => rfl
  | some i => rw [Option.filter_some]; rfl

/-! ## Live rows -/

/-- The live rows, in order. -/
def liveRows : List StoredRow := pick g.tombstones.isLive g.rows

/-- **The live rows are the contents.** -/
theorem contents_eq_some_iff_mem {g : Seg cat} {k : DocId} {d : Doc} :
    g.contents k = some d ↔ ∃ r ∈ g.liveRows, r.id = k ∧ r.doc = d := by
  rw [contents_eq_some]
  constructor
  · rintro ⟨i, r, hr, hl, hk, hd⟩; exact ⟨r, mem_pick.mpr ⟨i, hr, hl⟩, hk, hd⟩
  · rintro ⟨r, hmem, hk, hd⟩
    obtain ⟨i, hr, hl⟩ := mem_pick.mp hmem
    exact ⟨i, r, hr, hl, hk, hd⟩

theorem liveRows_sublist : g.liveRows.Sublist g.rows := pick_sublist _ _

theorem liveRows_nodup : (g.liveRows.map StoredRow.id).Nodup :=
  (g.liveRows_sublist.map StoredRow.id).nodup g.distinct

theorem data_liveCount : g.data.liveCount = g.liveRows.length := by
  show g.tombstones.liveCount = _
  rw [Tombstones.liveCount_eq g.wf, g.sized, rows_toNat, liveRows, length_pick]

/-! ## Opening -/

/-- The row table after the first `n` rows. -/
def tableUpTo (n : Nat) : SegmentData.RowTable :=
  ⟨(SegmentRow.entriesFrom 0 0 g.segRows).take n, (g.rows.map StoredRow.id).take n,
    rowIndex ((g.rows.map StoredRow.id).take n)⟩

/-- **One row of the table.** -/
theorem readRow_tableUpTo {n : Nat} (hn : n < g.rows.length) :
    SegmentData.readRow cat (Directory.of g.segRows) (g.tableUpTo n) n = .ok (g.tableUpTo (n + 1)) := by
  have hseg : n < g.segRows.length := by rw [segRows_length]; exact hn
  have hids : n < (g.rows.map StoredRow.id).length := by rw [List.length_map]; exact hn
  have hentry := Directory.entry_of g.segFits hseg
  have hid := Directory.id_of g.segFits hseg
  have hrow : g.segRows[n].id = (g.rows[n]).id.toBytes := by simp [segRows]
  have hfrom := DocId.fromBytes_toBytes (g.kinds g.rows[n] (List.getElem_mem hn))
  have hget := SegmentRow.entriesFrom_getElem 0 0 g.segRows n hseg
  rw [Nat.zero_add, Nat.zero_add] at hget
  have hnew : (g.tableUpTo n).byId.lookup (g.rows[n]).id = none := by
    show (rowIndex ((g.rows.map StoredRow.id).take n)).lookup _ = none
    rw [lookup_rowIndex ((List.take_sublist _ _).nodup g.distinct), Option.map_eq_none_iff,
      List.findIdx?_eq_none_iff]
    intro id hid
    obtain ⟨j, hj, hjn⟩ := List.mem_iff_getElem.mp hid
    rw [List.length_take] at hj
    rw [List.getElem_take] at hjn
    have hlt : j < (g.rows.map StoredRow.id).length := by omega
    have hne : (g.rows.map StoredRow.id)[j] ≠ (g.rows.map StoredRow.id)[n] :=
      fun he => absurd ((List.Nodup.getElem_inj_iff g.distinct).mp he) (by omega)
    rw [hjn, List.getElem_map] at hne
    simpa using hne
  have htake : (g.rows.map StoredRow.id).take (n + 1) = (g.rows.map StoredRow.id).take n ++ [(g.rows[n]).id] := by
    rw [List.take_succ_eq_append_getElem hids, List.getElem_map]
  have hentries : (SegmentRow.entriesFrom 0 0 g.segRows).take (n + 1) =
      (SegmentRow.entriesFrom 0 0 g.segRows).take n ++
        [g.segRows[n].entry (Parsing.offsetOf SegmentRow.recordBytes g.segRows n)
          (Parsing.offsetOf SegmentRow.id g.segRows n)] := by
    obtain ⟨hlt, hgetElem⟩ := List.getElem?_eq_some_iff.mp hget
    rw [List.take_succ_eq_append_getElem hlt, hgetElem]
  have hlen : ((g.rows.map StoredRow.id).take n).length = n := by rw [List.length_take]; omega
  unfold SegmentData.readRow
  rw [hentry, hid]
  simp only [hrow, hfrom, Parsing.except_ok_bind, hnew, Option.isSome_none, Bool.false_eq_true, if_false]
  unfold tableUpTo
  rw [htake, hentries, rowIndex_concat, hlen]

/-- **The whole table.** -/
theorem readRows_of : SegmentData.readRows cat (Directory.of g.segRows) = .ok (g.tableUpTo g.rows.length) := by
  have hupto : ∀ n ≤ g.rows.length, (List.range n).foldlM (SegmentData.readRow cat (Directory.of g.segRows))
      ⟨[], [], ∅⟩ = .ok (g.tableUpTo n) := by
    intro n hn
    induction n with
    | zero => rfl
    | succ n ih =>
      rw [List.range_succ, List.foldlM_append, ih (by omega), Parsing.except_ok_bind, List.foldlM_cons,
        g.readRow_tableUpTo (by omega)]
      rfl
  have hrows : (Directory.of g.segRows).rows.toNat = g.rows.length := by
    show (UInt32.ofNat g.segRows.length).toNat = _
    rw [segRows_length, rows_toNat]
  unfold SegmentData.readRows
  rw [hrows]
  exact hupto _ (le_refl _)

/-- **What was written assembles into the segment.** -/
theorem assemble_data {seg : SegmentRef} (hid : seg.id = g.id) (hrows : seg.rows = UInt32.ofNat g.rows.length) :
    SegmentData.assemble cat seg (g.file .vectors) (g.segRows.flatMap SegmentRow.recordBytes)
      (Directory.of g.segRows) g.tombstones = .ok g.data := by
  have hagree : ¬ ((Directory.of g.segRows).rows ≠ seg.rows ∨ g.tombstones.rows ≠ seg.rows) := by
    rw [hrows, g.sized]
    show ¬ (UInt32.ofNat g.segRows.length ≠ _ ∨ _)
    rw [segRows_length]; simp
  have hfull : g.tableUpTo g.rows.length = ⟨SegmentRow.entriesFrom 0 0 g.segRows, g.rows.map StoredRow.id,
      rowIndex (g.rows.map StoredRow.id)⟩ := by
    unfold tableUpTo
    have h1 : (SegmentRow.entriesFrom 0 0 g.segRows).take g.rows.length = SegmentRow.entriesFrom 0 0 g.segRows :=
      List.take_of_length_le (by rw [SegmentRow.entriesFrom_length, segRows_length])
    have h2 : (g.rows.map StoredRow.id).take g.rows.length = g.rows.map StoredRow.id :=
      List.take_of_length_le (by rw [List.length_map])
    rw [h1, h2]
  unfold SegmentData.assemble
  rw [if_neg hagree, readRows_of, hfull, Parsing.except_ok_bind, hid]
  rfl

/-! ## Reading a row -/

theorem metaRecord_data {i : Nat} {r : StoredRow} (h : g.rows[i]? = some r) :
    g.data.metaRecord i = .ok ⟨r.doc.metadata.map Metadata.toValue, r.doc.content⟩ := by
  obtain ⟨hi, rfl⟩ := List.getElem?_eq_some_iff.mp h
  have hseg : i < g.segRows.length := by rw [segRows_length]; exact hi
  have hget := SegmentRow.entriesFrom_getElem 0 0 g.segRows i hseg
  rw [Nat.zero_add, Nat.zero_add] at hget
  unfold SegmentData.metaRecord
  have hentry : g.data.entries[i]? = some _ := hget
  rw [hentry]
  have hrec := MetaBlock.record_of g.segFits hseg (o := Parsing.offsetOf SegmentRow.id g.segRows i)
  show formatAt .root (MetaBlock.record ⟨g.segRows.flatMap SegmentRow.recordBytes⟩ _) = _
  rw [hrec]
  simp [segRows, StoredRow.toRow]

theorem metadataOf_map {md : Option Metadata} {content : Option Bytes} (r : MetaRecord)
    (hr : r = ⟨md.map Metadata.toValue, content⟩) (h : ∀ v ∈ r.metadata, v.Sorted) :
    SegmentData.metadataOf r h = md.getD Metadata.new := by
  subst hr
  cases md <;> rfl

theorem readRecord_data {i : Nat} {r : StoredRow} (h : g.rows[i]? = some r) (inc : Include) :
    g.data.readRecord i inc = .ok (if inc.metadata then r.doc.metadata.getD Metadata.new else Metadata.new,
      if inc.content then r.doc.content else none) := by
  have hm := g.metaRecord_data h
  unfold SegmentData.readRecord
  split
  · rename_i hinc
    split
    · rename_i e he
      rw [hm] at he; cases he
    · rename_i rec hrec
      rw [hm] at hrec
      obtain rfl := Except.ok.inj hrec
      rw [metadataOf_map _ rfl]
  · rename_i hinc
    cases inc with
    | mk v m c => cases m <;> cases c <;> first | rfl | exact absurd rfl hinc

theorem vectors_data (hs : cat.rowStride ≠ 0) :
    g.data.vectors = .ok ⟨g.segRows.flatMap SegmentRow.vector, cat.rowStride, UInt32.ofNat g.segRows.length⟩ := by
  show formatAt .root (VectorBlock.open (g.file .vectors) cat.rowStride) = _
  rw [file, vectors_open g.segFits hs]; rfl

theorem row_vectors {i : Nat} {r : StoredRow} (h : g.rows[i]? = some r) :
    VectorBlock.row ⟨g.segRows.flatMap SegmentRow.vector, cat.rowStride, UInt32.ofNat g.segRows.length⟩ i =
      some r.doc.vector := by
  obtain ⟨hi, rfl⟩ := List.getElem?_eq_some_iff.mp h
  have hrow := VectorBlock.row_of g.fits (i := i) (by rw [List.length_map]; exact hi)
  rw [List.getElem_map] at hrow
  exact hrow

theorem vector_length {r : StoredRow} (h : r ∈ g.rows) : r.doc.vector.length = cat.rowStride :=
  (g.fits.each r.toRow (List.mem_map_of_mem h)).vector

theorem readVector_data (hs : cat.rowStride ≠ 0) {i : Nat} {r : StoredRow} (h : g.rows[i]? = some r)
    (inc : Include) :
    g.data.readVector i inc = .ok (if inc.vector then some (words32 r.doc.vector) else none) := by
  unfold SegmentData.readVector
  split
  · rename_i hinc
    have hlen : ¬ (r.doc.vector.length ≠ cat.dtype.rowStride cat.dimension) :=
      not_not.mpr (g.vector_length (List.mem_of_getElem? h))
    simp only [vectors_data g hs, Parsing.except_ok_bind, row_vectors g h]
    show (do let view ← VectorView.ofRaw cat.dtype r.doc.vector cat.dimension
             return some view.toF32 : Except DbError _) = _
    simp only [VectorView.ofRaw, if_neg hlen, Parsing.except_ok_bind]; rfl
  · rfl

end Seg

/-- What a read returns of a document. -/
def Doc.view (d : Doc) (id : DocId) (inc : Include) : Document :=
  ⟨id, if inc.vector then some (words32 d.vector) else none,
    if inc.metadata then d.metadata.getD Metadata.new else Metadata.new, if inc.content then d.content else none⟩

namespace Seg

variable {cat : Catalog} (g : Seg cat)

/-- **A live row reads back as its document.** -/
theorem document_data (hs : cat.rowStride ≠ 0) {i : Nat} {r : StoredRow} (h : g.rows[i]? = some r)
    (hl : g.tombstones.isLive i = true) (inc : Include) :
    g.data.document i inc = .ok (some (r.doc.view r.id inc)) := by
  have hi := (List.getElem?_eq_some_iff.mp h).1
  have hids : g.data.ids[i]? = some r.id := by
    show (g.rows.map StoredRow.id)[i]? = _
    rw [List.getElem?_map, h]; rfl
  obtain ⟨entry, hentry⟩ : ∃ e, g.data.entries[i]? = some e := by
    refine ⟨_, List.getElem?_eq_getElem ?_⟩
    show i < (SegmentRow.entriesFrom 0 0 g.segRows).length
    rw [SegmentRow.entriesFrom_length, segRows_length]; exact hi
  have hlive : ¬ (g.data.isLive i = false) := by rw [data_isLive, hl]; simp
  unfold SegmentData.document
  rw [if_neg hlive, hids, hentry]
  simp only [readRecord_data g h, readVector_data g hs h, Parsing.except_ok_bind]
  rfl

/-! ## Killing rows -/

/-- The segment with one row dead. -/
def kill (i : Nat) : Seg cat :=
  ⟨g.id, g.rows, (g.tombstones.kill i).2, g.kinds, g.distinct, g.fits, g.wf.kill i,
    by rw [Tombstones.kill_rows]; exact g.sized⟩

/-- The segment with its bitmap at another generation. -/
def atGeneration (generation : UInt32) : Seg cat :=
  ⟨g.id, g.rows, { g.tombstones with generation := generation }, g.kinds, g.distinct, g.fits,
    ⟨g.wf.size, g.wf.tail⟩, g.sized⟩

@[simp] theorem kill_id (i : Nat) : (g.kill i).id = g.id := rfl

@[simp] theorem kill_rows (i : Nat) : (g.kill i).rows = g.rows := rfl

@[simp] theorem kill_rowOf (i : Nat) (k : DocId) : (g.kill i).rowOf k = g.rowOf k := rfl

theorem data_kill (i : Nat) : g.data.kill i = (g.tombstones.isLive i, (g.kill i).data) := by
  have hflag := Tombstones.kill_changed g.tombstones i
  unfold SegmentData.kill
  rw [data_tombstones]
  rw [← hflag]; rfl

/-- The segment with the rows of several documents dead. -/
def killIds (g : Seg cat) : List DocId → Seg cat
  | [] => g
  | id :: rest => match g.rowOf id with
    | none => g.killIds rest
    | some i => (g.kill i).killIds rest

@[simp] theorem killIds_id (g : Seg cat) (ids : List DocId) : (g.killIds ids).id = g.id := by
  induction ids generalizing g with
  | nil => rfl
  | cons id rest ih =>
    unfold killIds
    split
    · exact ih g
    · exact ih _

@[simp] theorem killIds_rows (g : Seg cat) (ids : List DocId) : (g.killIds ids).rows = g.rows := by
  induction ids generalizing g with
  | nil => rfl
  | cons id rest ih =>
    unfold killIds
    split
    · exact ih g
    · exact ih _

/-- **Exactly the rows of these documents die.** -/
theorem isLive_killIds (g : Seg cat) (ids : List DocId) {i : Nat} {r : StoredRow} (h : g.rows[i]? = some r) :
    (g.killIds ids).tombstones.isLive i = (g.tombstones.isLive i && decide (r.id ∉ ids)) := by
  induction ids generalizing g with
  | nil => simp [killIds]
  | cons id rest ih =>
    unfold killIds
    split
    · rename_i hnone
      have hne : r.id ≠ id := fun he => by
        rw [← he, rowOf_eq_some.mpr ⟨r, h, rfl⟩] at hnone; cases hnone
      rw [ih g h]; simp [hne]
    · rename_i j hj
      obtain ⟨rj, hrj, hidj⟩ := rowOf_eq_some.mp hj
      rw [ih (g.kill j) h]
      show ((g.tombstones.kill j).2.isLive i && _) = _
      rw [Tombstones.isLive_kill]
      -- the row killed is the one whose id is `id`
      have hiff : (i ≠ j) ↔ r.id ≠ id := by
        constructor
        · intro hij he
          have hi' : g.rowOf id = some i := rowOf_eq_some.mpr ⟨r, h, he⟩
          rw [hj] at hi'
          exact hij (Option.some.inj hi').symm
        · rintro hne rfl
          rw [h] at hrj
          obtain rfl := Option.some.inj hrj
          exact hne hidj
      by_cases hij : i = j
      · subst hij
        have he : r.id = id := by
          by_contra hne
          exact absurd rfl (hiff.mpr hne)
        simp [he]
      · have hne := hiff.mp hij
        simp [hij, hne]

theorem contents_killIds (g : Seg cat) (ids : List DocId) (k : DocId) :
    (g.killIds ids).contents k = if k ∈ ids then none else g.contents k := by
  ext d
  show (g.killIds ids).contents k = some d ↔ _ = some d
  rw [contents_eq_some, killIds_rows]
  constructor
  · rintro ⟨i, r, hr, hl, rfl, hd⟩
    rw [isLive_killIds g ids hr, Bool.and_eq_true, decide_eq_true_eq] at hl
    rw [if_neg hl.2]
    exact contents_eq_some.mpr ⟨i, r, hr, hl.1, rfl, hd⟩
  · intro h
    split at h
    · cases h
    · rename_i hn
      obtain ⟨i, r, hr, hl, rfl, hd⟩ := contents_eq_some.mp h
      exact ⟨i, r, hr, by rw [isLive_killIds g ids hr, hl]; simpa using hn, rfl, hd⟩

/-- Whether any of the documents is live. -/
def holdsAny (g : Seg cat) (ids : List DocId) : Bool := ids.any (fun id => (g.liveRowOf id).isSome)

theorem kill_dead {g : Seg cat} {i : Nat} (h : g.tombstones.isLive i = false) : g.kill i = g := by
  have ht : (g.tombstones.kill i).2 = g.tombstones := Tombstones.kill_dead h
  cases g
  simp only [kill] at ht ⊢
  simp only [ht]

/-- **The engine's kills are the segment's.** -/
theorem data_killIds (g : Seg cat) (ids : List DocId) :
    g.data.killIds ids = (g.holdsAny ids, (g.killIds ids).data) := by
  induction ids generalizing g with
  | nil => rfl
  | cons id rest ih =>
    unfold SegmentData.killIds killIds holdsAny
    rw [data_rowOf, List.any_cons]
    cases hr : g.rowOf id with
    | none =>
      have hl : g.liveRowOf id = none := by rw [liveRowOf, hr]; rfl
      simp only [hl, ih g]
      rfl
    | some i =>
      have hl : (g.liveRowOf id).isSome = g.tombstones.isLive i := by
        rw [liveRowOf, hr, Option.filter_some]
        cases g.tombstones.isLive i <;> rfl
      simp only [data_kill, ih (g.kill i), hl]
      congr 1
      cases hi : g.tombstones.isLive i with
      | true => rfl
      | false => rw [kill_dead hi]; rfl

/-- No kill changes a segment that holds none of the documents. -/
theorem killIds_of_not_holdsAny {g : Seg cat} {ids : List DocId} (h : g.holdsAny ids = false) :
    g.killIds ids = g := by
  induction ids with
  | nil => rfl
  | cons id rest ih =>
    unfold holdsAny at h
    rw [List.any_cons, Bool.or_eq_false_iff] at h
    unfold killIds
    cases hr : g.rowOf id with
    | none => exact ih h.2
    | some i =>
      have hi : g.tombstones.isLive i = false := by
        have hl := h.1
        rw [liveRowOf, hr, Option.filter_some] at hl
        cases hli : g.tombstones.isLive i with
        | false => rfl
        | true => rw [hli] at hl; cases hl
      show (g.kill i).killIds rest = g
      rw [kill_dead hi]
      exact ih h.2

/-- `u32::saturating_add(1)`. -/
def nextGeneration (n : UInt32) : UInt32 := if n = 0xFFFFFFFF then 0xFFFFFFFF else n + 1

/-- **What superseding documents makes of a segment.** -/
def supersede (g : Seg cat) (ids : List DocId) : Seg cat :=
  if g.holdsAny ids then (g.killIds ids).atGeneration (nextGeneration (g.killIds ids).tombstones.generation)
  else g

@[simp] theorem supersede_id (g : Seg cat) (ids : List DocId) : (g.supersede ids).id = g.id := by
  unfold supersede
  split
  · exact killIds_id g ids
  · rfl

@[simp] theorem supersede_rows (g : Seg cat) (ids : List DocId) : (g.supersede ids).rows = g.rows := by
  unfold supersede
  split
  · exact killIds_rows g ids
  · rfl

theorem contents_atGeneration (g : Seg cat) (generation : UInt32) :
    (g.atGeneration generation).contents = g.contents := rfl

/-- **A superseded segment holds what it held but these documents.** -/
theorem contents_supersede (g : Seg cat) (ids : List DocId) (k : DocId) :
    (g.supersede ids).contents k = if k ∈ ids then none else g.contents k := by
  rw [← contents_killIds]
  unfold supersede
  split
  · rw [contents_atGeneration]
  · rename_i h
    rw [killIds_of_not_holdsAny (Bool.eq_false_iff.mpr h)]

/-- Superseding touches the bitmap's file only. -/
theorem file_supersede (g : Seg cat) (ids : List DocId) {which : SegmentFile} (h : which ≠ .tombstones) :
    (g.supersede ids).file which = g.file which := by
  cases which with
  | tombstones => exact absurd rfl h
  | vectors => simp only [file, segRows, supersede_rows]
  | directory => simp only [file, segRows, supersede_rows]
  | metadata => simp only [file, segRows, supersede_rows]

/-! ## A new segment -/

/-- A segment with every row live. -/
def fresh (id : UInt64) (rows : List StoredRow) (kinds : ∀ r ∈ rows, r.id.OfKind cat.idKind)
    (distinct : (rows.map StoredRow.id).Nodup) (fits : SegFits cat.rowStride (rows.map StoredRow.toRow)) : Seg cat :=
  ⟨id, rows, Tombstones.allLive (UInt32.ofNat rows.length) 0, kinds, distinct, fits,
    Tombstones.allLive_wf _ _, rfl⟩

/-- **A new segment holds exactly its rows.** -/
theorem liveRows_fresh {id : UInt64} {rows : List StoredRow} (kinds : ∀ r ∈ rows, r.id.OfKind cat.idKind)
    (distinct : (rows.map StoredRow.id).Nodup) (fits : SegFits cat.rowStride (rows.map StoredRow.toRow)) :
    (fresh id rows kinds distinct fits).liveRows = rows := by
  have hn : (UInt32.ofNat rows.length).toNat = rows.length := (fresh id rows kinds distinct fits).rows_toNat
  refine pick_all (fun i hi => ?_)
  show (Tombstones.allLive _ _).isLive i = true
  rw [Tombstones.isLive_allLive, hn]
  exact decide_eq_true hi

end Seg

end IshaVectorDb.Engine
