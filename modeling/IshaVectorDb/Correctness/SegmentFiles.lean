import IshaVectorDb.Correctness.Files
import IshaVectorDb.Correctness.Segments

/-!
# `Correctness.SegmentFiles` — segments on **disk**

What the engine does with a segment's files: opening them gives the segment they hold (`open_spec`), a flush or
a compaction writes a new segment and disturbs no other file (`writeSegment_spec`), and superseding documents
rewrites the bitmap's file of a segment that holds any of them (`supersede_spec`).
-/

namespace IshaVectorDb.Engine

open Format Interaction KeyLog

variable {cat : Catalog} {S : Type} {sel : Sel} {x : S} {s : MemoryStorage}
  {K : Call → Nat → Image → Prop} {G : Call → S → Image → Prop}

/-- What the engine relies on in a collection's specification. -/
structure GoodCatalog (cat : Catalog) : Prop where
  name : checkCollectionName cat.name = .ok ()
  writable : cat.Writable
  dimension : cat.dimension ≠ 0

theorem GoodCatalog.stride {cat : Catalog} (h : GoodCatalog cat) : cat.rowStride ≠ 0 := by
  have hd : cat.dimension.toNat ≠ 0 := fun h0 => h.dimension (UInt32.toNat.inj h0)
  have hc : cat.dtype.componentSize ≠ 0 := by cases cat.dtype; decide
  exact Nat.mul_ne_zero hc hd

/-- A vector of the largest dimension takes 256 KiB. -/
theorem GoodCatalog.stride_lt {cat : Catalog} (h : GoodCatalog cat) : cat.rowStride ≤ 2 ^ 18 := by
  have hd : cat.dimension.toNat ≤ 65536 := by
    have hv := h.writable.valid
    unfold Catalog.validate at hv
    split_ifs at hv with h0 h1
    have h1' : ¬ (65536 : UInt32) < cat.dimension := h1
    rw [UInt32.lt_iff_toNat_lt] at h1'
    have hn : (65536 : UInt32).toNat = 65536 := rfl
    omega
  have hs : cat.rowStride = 4 * cat.dimension.toNat := by
    unfold Catalog.rowStride VectorDType.rowStride; cases cat.dtype; rfl
  omega

/-- The segment's four files are in the image. -/
def OnDisk (img : Image) (g : Seg cat) : Prop := ∀ which, img (.segmentFile cat.name g.id which) = some (g.file which)

theorem OnDisk.off {P : DbPath → Prop} {a b : Image} {g : Seg cat} (h : OnDisk a g) (hoff : Off P a b)
    (hP : ∀ which, ¬ P (.segmentFile cat.name g.id which)) : OnDisk b g := fun which => by
  rw [hoff _ (hP which)]; exact h which

/-! ## Opening -/

theorem require_spec {name : Str} (hname : checkCollectionName name = .ok ()) {id : UInt64} {which : SegmentFile}
    {bytes : Bytes} {Q : Bytes → S → MemoryStorage → Prop} (hs : Shape s)
    (hfile : s.image .live (.segmentFile name id which) = some bytes) (hQ : Q bytes x s)
    (hK : ∀ c n, K c n (s.image sel))
    (hG : ∀ c : Call, c.IsRead → OfSegment name id c.path → G c x (s.image .live)) :
    Spec sel (require name id which) x s Q K G := by
  refine Triple.bind (Triple.lift (Layout.under_ok hname _) ?_)
  refine Triple.bind (readFile_spec hs rfl ?_ hK (fun c hc hp => hG c hc ⟨which, hp⟩))
  rw [hfile]
  exact Triple.pure hQ

/-- **Opening the files of a segment gives the segment.** -/
theorem open_spec (hcat : GoodCatalog cat) {g : Seg cat} {seg : SegmentRef} (hid : seg.id = g.id)
    (hrows : seg.rows = UInt32.ofNat g.rows.length) {Q : SegmentData → S → MemoryStorage → Prop} (hs : Shape s)
    (hdisk : OnDisk (s.image .live) g) (hQ : Q g.data x s) (hK : ∀ c n, K c n (s.image sel))
    (hG : ∀ c : Call, c.IsRead → OfSegment cat.name g.id c.path → G c x (s.image .live)) :
    Spec sel (SegmentData.open cat seg) x s Q K G := by
  have hmeta : formatAt (.segmentFile cat.name g.id .metadata) (MetaBlock.open (g.file .metadata)) =
      .ok ⟨g.segRows.flatMap SegmentRow.recordBytes⟩ := by
    show formatAt _ (MetaBlock.open (SegmentWriter.of cat.dimension cat.rowStride g.segRows).records.finish) = _
    rw [records_open g.segFits]; rfl
  have hdir : formatAt (.segmentFile cat.name g.id .directory) (Directory.open (g.file .directory)) =
      .ok (Directory.of g.segRows) := by
    show formatAt _ (Directory.open (SegmentWriter.of cat.dimension cat.rowStride g.segRows).directory.finish) = _
    rw [directory_open g.segFits]; rfl
  have hdel : formatAt (.segmentFile cat.name g.id .tombstones) (Tombstones.decode (g.file .tombstones)) =
      .ok g.tombstones := by
    show formatAt _ (Tombstones.decode g.tombstones.encode) = _
    rw [Tombstones.decode_encode g.wf]; rfl
  unfold SegmentData.open
  rw [hid]
  refine Triple.bind (require_spec hcat.name hs (hdisk .vectors) ?_ hK hG)
  refine Triple.bind (require_spec hcat.name hs (hdisk .directory) ?_ hK hG)
  refine Triple.bind (require_spec hcat.name hs (hdisk .metadata) ?_ hK hG)
  refine Triple.bind (Triple.lift hmeta ?_)
  refine Triple.bind (require_spec hcat.name hs (hdisk .tombstones) ?_ hK hG)
  refine Triple.bind (Triple.lift hdir ?_)
  refine Triple.bind (Triple.lift hdel ?_)
  exact Triple.lift (g.assemble_data hid hrows) hQ

/-! ## Writing a new segment -/

/-- The four files that the writers make. -/
def filesOf (w : SegmentWriter) : SegmentFile → Bytes
  | .vectors => w.vectors.finish
  | .directory => w.directory.finish
  | .metadata => w.records.finish
  | .tombstones => (Tombstones.allLive w.vectors.rows 0).encode

/-- A segment whose rows are all live has the files that the writers make of its rows. -/
theorem filesOf_fresh {g : Seg cat} (hnew : g.tombstones = Tombstones.allLive (UInt32.ofNat g.rows.length) 0) :
    filesOf (SegmentWriter.of cat.dimension cat.rowStride g.segRows) = g.file := by
  funext which
  cases which with
  | tombstones =>
    have hrows : (SegmentWriter.of cat.dimension cat.rowStride g.segRows).vectors.rows = UInt32.ofNat g.rows.length := by
      show UInt32.ofNat g.segRows.length = _
      rw [Seg.segRows_length]
    show (Tombstones.allLive (SegmentWriter.of cat.dimension cat.rowStride g.segRows).vectors.rows 0).encode = _
    rw [hrows, ← hnew]
    rfl
  | vectors => rfl
  | directory => rfl
  | metadata => rfl

/-- What writing a segment leaves. -/
structure SegmentWritten (name : Str) (id : UInt64) (file : SegmentFile → Bytes) (s t : MemoryStorage) : Prop where
  shape : Shape t
  files : ∀ which sel, t.image sel (.segmentFile name id which) = some (file which)
  other : ∀ p, ¬ OfSegment name id p → t.get p = s.get p

theorem SegmentWritten.off {name : Str} {id : UInt64} {file : SegmentFile → Bytes} {t : MemoryStorage}
    (h : SegmentWritten name id file s t) (sel : Sel) : Off (OfSegment name id) (s.image sel) (t.image sel) :=
  image_of_get h.other sel

theorem writeSegmentFile_spec {name : Str} (hname : checkCollectionName name = .ok ()) {id : UInt64}
    {which : SegmentFile} {bytes : Bytes} {Q : Unit → S → MemoryStorage → Prop} (hs : Shape s)
    (hdir : s.get (.segmentsDir name) = some .dir)
    (hQ : Q () x (s.put (.segmentFile name id which) (.file ⟨bytes, bytes⟩)))
    (hK : ∀ c n img, c.path = .segmentFile name id which → Off (OfSegment name id) (s.image sel) img → K c n img)
    (hG : ∀ c img, OfSegment name id c.path → Off (OfSegment name id) (s.image .live) img → G c x img) :
    Spec sel (writeSegmentFile name id which bytes) x s Q K G := by
  refine Triple.bind (Triple.lift (Layout.under_ok hname _) ?_)
  have hmono : ∀ p : DbPath, p = .segmentFile name id which → OfSegment name id p := fun p hp => ⟨which, hp⟩
  exact writeFile_off hs rfl hdir hQ (fun c n img hc h => hK c n img hc (h.mono hmono))
    (fun c img hc h => hG c img ⟨which, hc⟩ (h.mono hmono))

/-- **Writing a new segment disturbs no other file.** -/
theorem writeSegment_spec {name : Str} (hname : checkCollectionName name = .ok ()) {id : UInt64} {w : SegmentWriter}
    {Q : SegmentRef → S → MemoryStorage → Prop} (hs : Shape s) (hdir : s.get (.segmentsDir name) = some .dir)
    (hQ : ∀ t, SegmentWritten name id (filesOf w) s t → Q ⟨id, w.vectors.rows, 0⟩ x t)
    (hK : ∀ c n img, OfSegment name id c.path → Off (OfSegment name id) (s.image sel) img → K c n img)
    (hG : ∀ c img, OfSegment name id c.path → Off (OfSegment name id) (s.image .live) img → G c x img) :
    Spec sel (writeSegment name id w) x s Q K G := by
  set path : SegmentFile → DbPath := fun which => .segmentFile name id which with hpath
  have hne : ∀ which, DbPath.segmentsDir name ≠ path which := fun which h => DbPath.noConfusion h
  have hK' : ∀ t : MemoryStorage, (∀ p, ¬ OfSegment name id p → t.get p = s.get p) → ∀ which c n img,
      c.path = path which → Off (OfSegment name id) (t.image sel) img → K c n img :=
    fun t ht which c n img hc h => hK c n img ⟨which, hc⟩ ((image_of_get ht sel).trans h)
  have hG' : ∀ t : MemoryStorage, (∀ p, ¬ OfSegment name id p → t.get p = s.get p) → ∀ c img,
      OfSegment name id c.path → Off (OfSegment name id) (t.image .live) img → G c x img :=
    fun t ht c img hc h => hG c img hc ((image_of_get ht .live).trans h)
  have hput : ∀ (t : MemoryStorage) (which : SegmentFile) (e : Entry),
      (∀ p, ¬ OfSegment name id p → t.get p = s.get p) →
      ∀ p, ¬ OfSegment name id p → (t.put (path which) e).get p = s.get p := fun t which e ht p hp => by
    rw [MemoryStorage.get_put_ne t e (fun h => hp ⟨which, h⟩)]; exact ht p hp
  have hdirput : ∀ (t : MemoryStorage) (which : SegmentFile) (e : Entry), t.get (.segmentsDir name) = some .dir →
      (t.put (path which) e).get (.segmentsDir name) = some .dir := fun t which e ht => by
    rw [MemoryStorage.get_put_ne t e (hne which)]; exact ht
  have hshape : ∀ (t : MemoryStorage) (which : SegmentFile) (d : FileData), Shape t →
      t.get (.segmentsDir name) = some .dir → Shape (t.put (path which) (.file d)) :=
    fun t which d ht htd => ht.put_file (show (path which).isDir = false from rfl) htd d
  unfold writeSegment
  set b1 := filesOf w .vectors with hb1
  set b2 := filesOf w .directory with hb2
  set b3 := filesOf w .metadata with hb3
  set b4 := filesOf w .tombstones with hb4
  set s1 := s.put (path .vectors) (.file ⟨b1, b1⟩) with hs1
  set s2 := s1.put (path .directory) (.file ⟨b2, b2⟩) with hs2
  set s3 := s2.put (path .metadata) (.file ⟨b3, b3⟩) with hs3
  set s4 := s3.put (path .tombstones) (.file ⟨b4, b4⟩) with hs4
  have o0 : ∀ p, ¬ OfSegment name id p → s.get p = s.get p := fun _ _ => rfl
  have o1 := hput s .vectors (.file ⟨b1, b1⟩) o0
  have o2 := hput s1 .directory (.file ⟨b2, b2⟩) o1
  have o3 := hput s2 .metadata (.file ⟨b3, b3⟩) o2
  have d1 := hdirput s .vectors (.file ⟨b1, b1⟩) hdir
  have d2 := hdirput s1 .directory (.file ⟨b2, b2⟩) d1
  have d3 := hdirput s2 .metadata (.file ⟨b3, b3⟩) d2
  have h1 := hshape s .vectors ⟨b1, b1⟩ hs hdir
  have h2 := hshape s1 .directory ⟨b2, b2⟩ h1 d1
  have h3 := hshape s2 .metadata ⟨b3, b3⟩ h2 d2
  have h4 := hshape s3 .tombstones ⟨b4, b4⟩ h3 d3
  refine Triple.bind (writeSegmentFile_spec hname hs hdir ?_ (hK' s o0 _) (hG' s o0))
  refine Triple.bind (writeSegmentFile_spec hname h1 d1 ?_ (hK' s1 o1 _) (hG' s1 o1))
  refine Triple.bind (writeSegmentFile_spec hname h2 d2 ?_ (hK' s2 o2 _) (hG' s2 o2))
  refine Triple.bind (writeSegmentFile_spec hname h3 d3 ?_ (hK' s3 o3 _) (hG' s3 o3))
  refine Triple.pure (hQ s4 ⟨h4, fun which sel => ?_, hput s3 .tombstones (.file ⟨b4, b4⟩) o3⟩)
  have hpne : ∀ a b : SegmentFile, a ≠ b → path a ≠ path b := fun a b hab h => hab (DbPath.segmentFile.inj h).2.2
  have hself : ∀ (t : MemoryStorage) (v : SegmentFile) (b : Bytes) (sel : Sel),
      (t.put (path v) (.file ⟨b, b⟩)).image sel (path v) = some b := fun t v b sel => by
    rw [MemoryStorage.image_file (MemoryStorage.get_put_self _ _ _)]; cases sel <;> rfl
  have hskip : ∀ (t : MemoryStorage) (u v : SegmentFile) (b : Bytes) (sel : Sel), v ≠ u →
      (t.put (path u) (.file ⟨b, b⟩)).image sel (path v) = t.image sel (path v) := fun t u v b sel huv => by
    rw [MemoryStorage.image_put_file, Function.update_of_ne (hpne v u huv)]
  show s4.image sel (path which) = some (filesOf w which)
  cases which with
  | tombstones => exact hself s3 .tombstones b4 sel
  | metadata => rw [hs4, hskip _ _ _ _ _ (by decide)]; exact hself s2 .metadata b3 sel
  | directory =>
    rw [hs4, hskip _ _ _ _ _ (by decide), hs3, hskip _ _ _ _ _ (by decide)]; exact hself s1 .directory b2 sel
  | vectors =>
    rw [hs4, hskip _ _ _ _ _ (by decide), hs3, hskip _ _ _ _ _ (by decide), hs2, hskip _ _ _ _ _ (by decide)]
    exact hself s .vectors b1 sel

/-! ## The rows of a flush -/

/-- Pushing rows with the engine's own errors. -/
theorem foldlM_formatAt {rows : List SegmentRow} {w w' : SegmentWriter} (h : rows.foldlM SegmentWriter.push w = .ok w') :
    rows.foldlM (fun w r => formatAt .root (w.push r)) w = .ok w' := by
  induction rows generalizing w with
  | nil => obtain rfl : w = w' := Except.ok.inj h; rfl
  | cons r rows ih =>
    rw [List.foldlM_cons] at h ⊢
    cases hr : w.push r with
    | error e => rw [hr] at h; cases h
    | ok w1 => rw [hr] at h; exact ih h

theorem flushRow_eq {m : Memtable} {row : MemRow} {vector : Bytes} (hv : m.vectorBytes row = some vector)
    (w : SegmentWriter) : flushRow m w row = formatAt .root
      (w.push (StoredRow.toRow ⟨row.id, ⟨vector, row.metadata, row.content⟩, row.invNorm⟩)) := by
  unfold flushRow; rw [hv]; rfl

/-- **The flush hands the memtable's live rows to the writers.** -/
theorem flushRows_eq {invNorm : InvNorm} {ops : List LogOp} {m : Memtable} (h : m.Models invNorm ops)
    (hfit : SegFits cat.rowStride (m.storedRows.map StoredRow.toRow)) :
    m.liveRows.foldlM (flushRow m) (SegmentWriter.of cat.dimension cat.rowStride []) =
      .ok (SegmentWriter.of cat.dimension cat.rowStride (m.storedRows.map StoredRow.toRow)) := by
  have hall : ∀ row ∈ m.liveRows, ∃ vector, m.vectorBytes row = some vector := fun row hr => by
    obtain ⟨d, -, hh⟩ := h.liveRows_holds hr
    exact ⟨_, hh.vector⟩
  have hsame : ∀ w, m.liveRows.foldlM (flushRow m) w =
      (m.storedRows.map StoredRow.toRow).foldlM (fun w r => formatAt .root (w.push r)) w := by
    unfold Memtable.storedRows
    generalize m.liveRows = rows at hall ⊢
    induction rows with
    | nil => intro w; rfl
    | cons row rest ih =>
      intro w
      obtain ⟨vector, hv⟩ := hall row List.mem_cons_self
      have ih := ih (fun r hr => hall r (List.mem_cons_of_mem _ hr))
      simp only [List.filterMap_cons, hv, Option.map_some, List.map_cons, List.foldlM_cons, flushRow_eq hv]
      congr 1
      funext w'
      exact ih w'
  rw [hsame]
  exact foldlM_formatAt (SegmentWriter.push_all hfit)

/-- What a flush or a compaction leaves on disk: the new segment's files, and everything else as it was. -/
structure NewFiles (g : Seg cat) (s t : MemoryStorage) : Prop where
  shape : Shape t
  files : ∀ which sel, t.image sel (.segmentFile cat.name g.id which) = some (g.file which)
  off : ∀ sel, Off (OfSegment cat.name g.id) (s.image sel) (t.image sel)
  kept : ∀ p e, ¬ OfSegment cat.name g.id p → s.get p = some e → t.get p = some e

/-- Making the segments' directory, then writing a new segment into it. -/
theorem newSegment_spec (hcat : GoodCatalog cat) {g : Seg cat}
    (hnew : g.tombstones = Tombstones.allLive (UInt32.ofNat g.rows.length) 0) {α : Type}
    {pack : SegmentRef → α} {rows : SegmentWriter → Except DbError SegmentWriter} {Q : α → S → MemoryStorage → Prop}
    (hw : rows (SegmentWriter.of cat.dimension cat.rowStride []) =
      .ok (SegmentWriter.of cat.dimension cat.rowStride g.segRows)) (hs : Shape s)
    (hQ : ∀ t, NewFiles g s t → Q (pack g.ref) x t)
    (hK : ∀ c n img, (OfSegment cat.name g.id c.path ∨ c = .createDirAll (.segmentsDir cat.name)) →
      Off (OfSegment cat.name g.id) (s.image sel) img → K c n img)
    (hG : ∀ c img, (OfSegment cat.name g.id c.path ∨ c = .createDirAll (.segmentsDir cat.name)) →
      Off (OfSegment cat.name g.id) (s.image .live) img → G c x img) :
    Spec sel (do
      let dir ← Proc.lift (Layout.segmentsDir cat.name)
      call (.createDirAll dir)
      let w ← Proc.lift (formatAt .root (SegmentWriter.new cat.dimension cat.rowStride))
      let w ← Proc.lift (rows w)
      let segment ← writeSegment cat.name g.id w
      return pack segment : Action S α) x s Q K G := by
  have hempty : formatAt .root (SegmentWriter.new cat.dimension cat.rowStride) =
      .ok (SegmentWriter.of cat.dimension cat.rowStride []) := by
    rw [SegmentWriter.new_of hcat.dimension hcat.stride]; rfl
  refine Triple.bind (Triple.lift (Layout.under_ok hcat.name _) ?_)
  refine Triple.bind (createDirAll_spec hs ⟨rfl, rfl, rfl, rfl, rfl, rfl, trivial⟩ ?_
    (fun n => hK _ n _ (.inr rfl) (Off.refl _ _)) (hG _ _ (.inr rfl) (Off.refl _ _)))
  intro t ht
  have himg : ∀ sel, t.image sel = s.image sel := ht.image
  refine Triple.bind (Triple.lift hempty ?_)
  refine Triple.bind (Triple.lift hw ?_)
  refine Triple.bind (writeSegment_spec hcat.name ht.shape (ht.made _ (by simp [DbPath.ancestry])) ?_
    (fun c n img hc h => hK c n img (.inl hc) (by rw [himg] at h; exact h))
    (fun c img hc h => hG c img (.inl hc) (by rw [himg] at h; exact h)))
  intro u hu
  have href : (⟨g.id, (SegmentWriter.of cat.dimension cat.rowStride g.segRows).vectors.rows, 0⟩ : SegmentRef) = g.ref := by
    show (⟨g.id, UInt32.ofNat g.segRows.length, 0⟩ : SegmentRef) = _
    unfold Seg.ref
    rw [hnew, Seg.segRows_length]
    rfl
  rw [href]
  rw [filesOf_fresh hnew] at hu
  refine Triple.pure (hQ u ⟨hu.shape, hu.files, fun sel => ?_, fun p e hp he => ?_⟩)
  · have h := hu.off sel
    rw [himg] at h; exact h
  · rw [hu.other p hp]; exact ht.kept p e he

/-- **A flush writes the live rows into a new segment.** -/
theorem flushMemtable_spec (hcat : GoodCatalog cat) {invNorm : InvNorm} {ops : List LogOp} {m : Memtable}
    (h : m.Models invNorm ops) {g : Seg cat} (hrows : g.rows = m.storedRows)
    (hnew : g.tombstones = Tombstones.allLive (UInt32.ofNat g.rows.length) 0)
    {Q : FlushResult → S → MemoryStorage → Prop} (hs : Shape s)
    (hQ : ∀ t, NewFiles g s t → Q ⟨g.ref, m.deletedIds⟩ x t)
    (hK : ∀ c n img, (OfSegment cat.name g.id c.path ∨ c = .createDirAll (.segmentsDir cat.name)) →
      Off (OfSegment cat.name g.id) (s.image sel) img → K c n img)
    (hG : ∀ c img, (OfSegment cat.name g.id c.path ∨ c = .createDirAll (.segmentsDir cat.name)) →
      Off (OfSegment cat.name g.id) (s.image .live) img → G c x img) :
    Spec sel (flushMemtable cat g.id m) x s Q K G := by
  have hfit : SegFits cat.rowStride (m.storedRows.map StoredRow.toRow) := by rw [← hrows]; exact g.fits
  have hw := flushRows_eq h hfit
  rw [← hrows] at hw
  exact newSegment_spec hcat hnew hw hs hQ hK hG

/-! ## The rows of a compaction -/

/-- The vector block of a segment, as it opens. -/
def Seg.block (g : Seg cat) : VectorBlock :=
  ⟨g.segRows.flatMap SegmentRow.vector, cat.rowStride, UInt32.ofNat g.segRows.length⟩

theorem copyRow_dead (g : Seg cat) {i : Nat} (hl : g.tombstones.isLive i = false) (w : SegmentWriter) :
    copyRow g.data g.block w i = .ok w := by
  unfold copyRow; rw [Seg.data_isLive, if_pos hl]

/-- A live row is pushed as it stands. -/
theorem copyRow_live (g : Seg cat) {i : Nat} {r : StoredRow} (hr : g.rows[i]? = some r)
    (hl : g.tombstones.isLive i = true) (w : SegmentWriter) :
    copyRow g.data g.block w i = formatAt .root (w.push r.toRow) := by
  have hid : g.data.idAt i = some r.id := by
    show (g.rows.map StoredRow.id)[i]? = _
    rw [List.getElem?_map, hr]; rfl
  have hnorm : g.data.invNorm i = some r.invNorm.bits := by
    obtain ⟨hi, rfl⟩ := List.getElem?_eq_some_iff.mp hr
    have hget := SegmentRow.entriesFrom_getElem 0 0 g.segRows i (by rw [Seg.segRows_length]; exact hi)
    show ((SegmentRow.entriesFrom 0 0 g.segRows)[i]?).map RowEntry.invNorm = _
    rw [hget]
    simp [SegmentRow.entry, Seg.segRows, StoredRow.toRow]
  have hblock : g.block.row i = some r.doc.vector := g.row_vectors hr
  have hlive : ¬ (g.data.isLive i = false) := by rw [Seg.data_isLive, hl]; simp
  unfold copyRow
  rw [if_neg hlive, hblock, hid, hnorm]
  show (formatAt .root (w.pushVector r.doc.vector) >>= fun w => g.data.metaRecord i >>= fun record =>
    formatAt .root (w.pushRecord r.id.toBytes r.invNorm.bits record)) =
    formatAt .root (w.pushVector r.doc.vector >>= fun w => w.pushRecord r.id.toBytes r.invNorm.bits
      ⟨r.doc.metadata.map Metadata.toValue, r.doc.content⟩)
  cases hv : w.pushVector r.doc.vector with
  | error e => rfl
  | ok w1 =>
    simp only [formatAt_ok, Parsing.except_ok_bind, g.metaRecord_data hr]

/-- **A segment's live rows are handed to the writers**, in order. -/
theorem copySegment_push (hcat : GoodCatalog cat) (g : Seg cat) (w : SegmentWriter) :
    copySegment w g.data = (g.liveRows.map StoredRow.toRow).foldlM (fun w r => formatAt .root (w.push r)) w := by
  have hupto : ∀ n ≤ g.rows.length, (List.range n).foldlM (copyRow g.data g.block) w =
      ((pick g.tombstones.isLive (g.rows.take n)).map StoredRow.toRow).foldlM (fun w r => formatAt .root (w.push r)) w := by
    intro n hn
    induction n with
    | zero => simp [pick]
    | succ n ih =>
      have hlt : n < g.rows.length := hn
      have hlen : (g.rows.take n).length = n := by rw [List.length_take]; omega
      rw [List.range_succ, List.foldlM_append, ih (by omega), List.take_succ_eq_append_getElem hlt, pick_concat, hlen]
      cases hl : g.tombstones.isLive n with
      | false =>
        rw [if_neg Bool.false_ne_true, List.append_nil]
        refine (bind_congr (fun w' => ?_)).trans (bind_pure _)
        rw [List.foldlM_cons, copyRow_dead g hl, Parsing.except_ok_bind]
        rfl
      | true =>
        rw [if_pos rfl, List.map_append, List.foldlM_append]
        refine bind_congr (fun w' => ?_)
        rw [List.foldlM_cons, copyRow_live g (List.getElem?_eq_getElem hlt) hl, List.map_singleton, List.foldlM_cons]
        rfl
  have hrows : g.data.rows.toNat = g.rows.length := by rw [g.data_rows, g.rows_toNat]
  have hvectors : g.data.vectors = .ok g.block := g.vectors_data hcat.stride
  have h := hupto g.rows.length (le_refl _)
  rw [List.take_length] at h
  unfold copySegment
  rw [hvectors, Parsing.except_ok_bind, hrows]
  exact h

/-- **A compaction hands the live rows of its sources to the writers.** -/
theorem copySegments_push (hcat : GoodCatalog cat) (segs : List (Seg cat)) (w : SegmentWriter) :
    (segs.map Seg.data).foldlM copySegment w =
      ((segs.flatMap Seg.liveRows).map StoredRow.toRow).foldlM (fun w r => formatAt .root (w.push r)) w := by
  induction segs generalizing w with
  | nil => rfl
  | cons g segs ih =>
    rw [List.map_cons, List.foldlM_cons, copySegment_push hcat, List.flatMap_cons, List.map_append, List.foldlM_append]
    exact bind_congr (fun w' => ih w')

theorem copySegments_eq (hcat : GoodCatalog cat) (segs : List (Seg cat))
    (hfit : SegFits cat.rowStride ((segs.flatMap Seg.liveRows).map StoredRow.toRow)) :
    (segs.map Seg.data).foldlM copySegment (SegmentWriter.of cat.dimension cat.rowStride []) =
      .ok (SegmentWriter.of cat.dimension cat.rowStride ((segs.flatMap Seg.liveRows).map StoredRow.toRow)) := by
  rw [copySegments_push hcat]
  exact foldlM_formatAt (SegmentWriter.push_all hfit)

/-- **A compaction writes the live rows of its sources into a new segment.** -/
theorem compactSegments_spec (hcat : GoodCatalog cat) {segs : List (Seg cat)} {g : Seg cat}
    (hrows : g.rows = segs.flatMap Seg.liveRows)
    (hnew : g.tombstones = Tombstones.allLive (UInt32.ofNat g.rows.length) 0)
    {Q : FlushResult → S → MemoryStorage → Prop} (hs : Shape s) (hQ : ∀ t, NewFiles g s t → Q ⟨g.ref, []⟩ x t)
    (hK : ∀ c n img, (OfSegment cat.name g.id c.path ∨ c = .createDirAll (.segmentsDir cat.name)) →
      Off (OfSegment cat.name g.id) (s.image sel) img → K c n img)
    (hG : ∀ c img, (OfSegment cat.name g.id c.path ∨ c = .createDirAll (.segmentsDir cat.name)) →
      Off (OfSegment cat.name g.id) (s.image .live) img → G c x img) :
    Spec sel (compactSegments cat g.id (segs.map Seg.data)) x s Q K G := by
  have hfit : SegFits cat.rowStride ((segs.flatMap Seg.liveRows).map StoredRow.toRow) := by rw [← hrows]; exact g.fits
  have hw := copySegments_eq hcat segs hfit
  rw [← hrows] at hw
  exact newSegment_spec hcat hnew hw hs hQ hK hG

/-! ## Superseding documents -/

/-- The bitmap's file of a segment. -/
def Seg.delPath (g : Seg cat) : DbPath := .segmentFile cat.name g.id .tombstones

/-- **Superseding documents in one segment.** Its bitmap's file is rewritten exactly when it held one of them. -/
theorem supersede_spec (hcat : GoodCatalog cat) {g : Seg cat} {ids : List DocId} {s : MemoryStorage}
    {Q : SegmentRef → SegmentData → MemoryStorage → Prop} {K : Call → Nat → Image → Prop}
    {G : Call → SegmentData → Image → Prop} (hs : Shape s) (hdir : s.get (.segmentsDir cat.name) = some .dir)
    (hlive : s.image .live g.delPath = some (g.file .tombstones))
    (hsel : s.image sel g.delPath = some (g.file .tombstones))
    (hQ : ∀ t, Shape t → (∀ sel', sel' = .live ∨ sel' = sel → t.image sel' =
        Function.update (s.image sel') g.delPath (some ((g.supersede ids).file .tombstones))) →
      (∀ p, p ≠ g.delPath → t.get p = s.get p) → Q (g.supersede ids).ref (g.supersede ids).data t)
    (hold : ∀ c n, K c n (s.image sel))
    (htorn : sel = .live → g.holdsAny ids = true → ∀ c n k, c.path = g.delPath → c.Tears n →
      K c n (Function.update (s.image sel) g.delPath (some (((g.supersede ids).file .tombstones).take k))))
    (hdone : ∀ c n, K c n (Function.update (s.image sel) g.delPath (some ((g.supersede ids).file .tombstones))))
    (gwrite : g.holdsAny ids = true → ∀ c img, (c = .openFile g.delPath .create ∨ c = .truncate ⟨g.delPath, true⟩ 0 ∨
      ∃ bytes, c = .writeAt ⟨g.delPath, true⟩ bytes 0) → Off (· = g.delPath) (s.image .live) img →
      G c (g.supersede ids).data img)
    (gsync : G (.syncData ⟨g.delPath, true⟩) (g.supersede ids).data
      (Function.update (s.image .live) g.delPath (some ((g.supersede ids).file .tombstones)))) :
    Spec sel (SegmentData.supersede cat.name ids) g.data s Q K G := by
  have hkill : g.data.killIds ids = (g.holdsAny ids, (g.killIds ids).data) := g.data_killIds ids
  unfold SegmentData.supersede
  refine Triple.bind (Triple.get ?_)
  refine Triple.bind (Triple.modify ?_)
  rw [hkill]
  cases hany : g.holdsAny ids with
  | false =>
    have hsame : g.supersede ids = g := by unfold Seg.supersede; rw [hany]; rfl
    rw [hsame] at hQ
    rw [Seg.killIds_of_not_holdsAny hany]
    refine Triple.bind (Triple.get (Triple.pure ?_))
    rw [Seg.data_ref]
    refine hQ s hs (fun sel' hsel' => ?_) (fun _ _ => rfl)
    refine (Function.update_eq_self_iff.mpr ?_).symm
    rcases hsel' with rfl | rfl
    · exact hlive.symm
    · exact hsel.symm
  | true =>
    have hsup : g.supersede ids =
        (g.killIds ids).atGeneration (Seg.nextGeneration (g.killIds ids).tombstones.generation) := by
      unfold Seg.supersede; rw [hany]; rfl
    have hnone : s.get g.delPath ≠ none := fun h => by
      rw [MemoryStorage.image_none h] at hlive; cases hlive
    have hmod : ({ (g.killIds ids).data with tombstones := { (g.killIds ids).data.tombstones with
        generation := if (g.killIds ids).data.tombstones.generation = 0xFFFFFFFF then 0xFFFFFFFF
          else (g.killIds ids).data.tombstones.generation + 1 } } : SegmentData) = (g.supersede ids).data := by
      rw [hsup]; rfl
    have hid : (g.supersede ids).data.id = g.id := by rw [Seg.data_id, Seg.supersede_id]
    have hbytes : (g.supersede ids).data.tombstones.encode = (g.supersede ids).file .tombstones := rfl
    have hpath : DbPath.segmentFile cat.name g.id .tombstones = g.delPath := rfl
    show Spec sel (do
      let _ ← SegmentData.persistTombstones cat.name
      let seg ← Proc.get
      return seg.ref : Action SegmentData SegmentRef) _ _ _ _ _
    refine Triple.bind ?_
    unfold SegmentData.persistTombstones
    refine Triple.bind (Triple.modify ?_)
    rw [hmod]
    refine Triple.bind (Triple.get ?_)
    rw [hid, hbytes]
    refine Triple.bind ?_
    refine Triple.bind (Triple.lift (Layout.under_ok hcat.name _) ?_)
    rw [hpath]
    refine writeFile_spec hs rfl hdir ?_ (fun c n _ => hold c n) (fun h => absurd h hnone)
      (fun hl c n k hc ht => htorn hl hany c n k hc ht) (fun c n _ => hdone c n)
      (fun c hc => ?_) (fun h => absurd h hnone) (fun k => ?_) gsync
    · refine Triple.pure (Triple.bind (Triple.get (Triple.pure ?_)))
      rw [Seg.data_ref]
      refine hQ _ (hs.put_file (show g.delPath.isDir = false from rfl) hdir _) (fun sel' _ => ?_) (fun p hp => MemoryStorage.get_put_ne s _ hp)
      rw [MemoryStorage.image_put_file]
      cases sel' <;> rfl
    · refine gwrite hany c _ ?_ (Off.refl _ _)
      rcases hc with rfl | rfl
      · exact .inl rfl
      · exact .inr (.inl rfl)
    · exact gwrite hany _ _ (.inr (.inr ⟨_, rfl⟩)) (Off.update (P := (· = g.delPath)) _ rfl _)

end IshaVectorDb.Engine
