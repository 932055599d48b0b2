import IshaVectorDb.Correctness.LiveRows

/-!
# `Correctness.OpenedSegments` — what **opening a segment** checks

Opening reads four files. `openedFrom` is what it comes to, as a function of the stored files (`open_run`). The
manifest, the directory and the bitmap must agree about the rows; the vector file's extent and the bitmap's generation
are not looked at. So a segment that opens is complete exactly if its vector file reaches to its last row
(`opened_complete_iff`), and a bitmap older than the manifest says is refused exactly if one of the other checks refuses
it (`stale_refused_iff`).
-/

namespace IshaVectorDb.Engine

open Format Interaction Index

variable {S : Type}

/-! ## What opening finds -/

/-- What a reader finds at a path. -/
def fileAt (s : MemoryStorage) (path : DbPath) : Except DbError (Option Bytes) :=
  match s.get path with
  | none => .ok none
  | some (.file d) => .ok (some d.live)
  | some .dir => .error (.storage (.io path .open "path is a directory"))

/-- A segment's file that the manifest promised. -/
def required (s : MemoryStorage) (collection : Str) (id : UInt64) (which : SegmentFile) : Except DbError Bytes := do
  let path ← Layout.segmentFile collection id which
  let found ← fileAt s path
  match found with
  | none => .error (.corruption (.missingSegment collection id))
  | some bytes => .ok bytes

/-- What opening a segment comes to. -/
def openedFrom (s : MemoryStorage) (catalog : Catalog) (seg : SegmentRef) : Except DbError SegmentData := do
  let vecBytes ← required s catalog.name seg.id .vectors
  let dirBytes ← required s catalog.name seg.id .directory
  let metaBytes ← required s catalog.name seg.id .metadata
  let metaBlock ← formatAt (.segmentFile catalog.name seg.id .metadata) (MetaBlock.open metaBytes)
  let delBytes ← required s catalog.name seg.id .tombstones
  let directory ← formatAt (.segmentFile catalog.name seg.id .directory) (Directory.open dirBytes)
  let tombstones ← formatAt (.segmentFile catalog.name seg.id .tombstones) (Tombstones.decode delBytes)
  SegmentData.assemble catalog seg vecBytes metaBlock.payload directory tombstones

section Runs

variable {s : MemoryStorage} {x : S}

/-- A sequence whose parts only look comes to the sequence of what they find. -/
theorem run_bind_looking {α β : Type} {m : Action S α} {f : α → Action S β} {r : Except DbError α}
    {g : α → Except DbError β} (hm : (m x).run device s = ((r, x), s)) (hf : ∀ a, (f a x).run device s = ((g a, x), s)) :
    ((m >>= f) x).run device s = ((r >>= g, x), s) := by
  cases r with
  | error e => exact Proc.run_bind_error hm
  | ok a =>
    rw [Proc.run_bind hm]
    exact hf a

theorem readFile_run_at (path : DbPath) : (readFile path x).run device s = ((fileAt s path, x), s) := by
  unfold fileAt
  cases hg : s.get path with
  | none => exact readFile_run_none hg
  | some e =>
    cases e with
    | file d => exact readFile_run hg
    | dir =>
      -- a directory has a length but cannot be opened
      have hmeta : device.step (.metadata path) s = (.ok (some 0), s) := by
        show (Except.ok (s.metadata path), s) = _
        unfold MemoryStorage.metadata
        rw [hg]
      have hopen : device.step (.openFile path .read) s =
          (.error (.storage (.io path .open "path is a directory")), s) := by
        show MemoryStorage.openFile s path .read = _
        unfold MemoryStorage.openFile
        rw [hg]
      unfold readFile
      rw [Proc.run_bind (run_call hmeta)]
      exact Proc.run_bind_error (run_call hopen)

theorem require_run (collection : Str) (id : UInt64) (which : SegmentFile) :
    (require collection id which x).run device s = ((required s collection id which, x), s) := by
  refine run_bind_looking rfl fun path => run_bind_looking (readFile_run_at path) fun found => ?_
  cases found with
  | none => rfl
  | some bytes => rfl

/-- **Opening a segment** is reading its files. -/
theorem open_run (catalog : Catalog) (seg : SegmentRef) :
    (SegmentData.open catalog seg x).run device s = ((openedFrom s catalog seg, x), s) :=
  run_bind_looking (require_run _ _ _) fun _ => run_bind_looking (require_run _ _ _) fun _ =>
    run_bind_looking (require_run _ _ _) fun _ => run_bind_looking rfl fun _ =>
      run_bind_looking (require_run _ _ _) fun _ => run_bind_looking rfl fun _ => run_bind_looking rfl fun _ => rfl

/-- The parts of a segment that opened. -/
theorem openedFrom_eq_ok {catalog : Catalog} {seg : SegmentRef} {opened : SegmentData} :
    openedFrom s catalog seg = .ok opened ↔ ∃ vecBytes dirBytes metaBytes metaBlock delBytes directory tombstones,
      required s catalog.name seg.id .vectors = .ok vecBytes ∧ required s catalog.name seg.id .directory = .ok dirBytes ∧
      required s catalog.name seg.id .metadata = .ok metaBytes ∧ MetaBlock.open metaBytes = .ok metaBlock ∧
      required s catalog.name seg.id .tombstones = .ok delBytes ∧ Directory.open dirBytes = .ok directory ∧
      Tombstones.decode delBytes = .ok tombstones ∧
      SegmentData.assemble catalog seg vecBytes metaBlock.payload directory tombstones = .ok opened := by
  unfold openedFrom
  simp only [Parsing.except_bind_eq_ok, formatAt_eq_ok]
  constructor
  · rintro ⟨vec, hvec, dir, hdir, mb, hmb, m, hm, del, hdel, d, hd, t, ht, h⟩
    exact ⟨vec, dir, mb, m, del, d, t, hvec, hdir, hmb, hm, hdel, hd, ht, h⟩
  · rintro ⟨vec, dir, mb, m, del, d, t, hvec, hdir, hmb, hm, hdel, hd, ht, h⟩
    exact ⟨vec, hvec, dir, hdir, mb, hmb, m, hm, del, hdel, d, hd, t, ht, h⟩

end Runs

/-! ## Complete segments -/

namespace SegmentData

/-- **A segment is complete**: every row below its count has an entry, a bit and a vector as long as a row, and a scan of
    any collection with the segment visits each of its rows that is live and not shadowed by the memtable. -/
structure Complete (seg : SegmentData) : Prop where
  entry : ∀ row < seg.rows.toNat, ∃ e, seg.entries[row]? = some e
  bit : ∀ row < seg.rows.toNat, row < seg.tombstones.rows.toNat ∧ ∃ w, seg.tombstones.words[row / 64]? = some w
  vector : ∀ row < seg.rows.toNat, ∃ block bytes, seg.vectors = .ok block ∧ block.row row = some bytes ∧
    bytes.length = seg.stride
  visited : ∀ (state : Session) (index : Nat) (dimension : UInt32) (c : CollectionSource),
    state.segments[index]? = some seg → CollectionSource.build state dimension = .ok c →
      ∀ row, seg.isLive row = true → CollectionSource.shadowed state (seg.idAt row) = false →
        ∃ bytes norm, (RowId.new (UInt32.ofNat index) (UInt32.ofNat row), bytes, norm) ∈ c.forEach

/-- Every row has its vector. -/
def HasVectors (seg : SegmentData) : Prop :=
  ∀ row < seg.rows.toNat, ∃ block bytes, seg.vectors = .ok block ∧ block.row row = some bytes ∧ bytes.length = seg.stride

variable {seg : SegmentData}

/-- A consistent segment whose rows have their vectors is complete. -/
theorem Consistent.complete (h : seg.Consistent) (hwords : seg.tombstones.words.length = wordCount seg.tombstones.rows.toNat)
    (hvectors : seg.HasVectors) : seg.Complete := by
  have hrows := h.rows_toNat
  have hbits := h.tombstones
  refine ⟨fun row hrow => ?_, fun row hrow => ⟨by omega, ?_⟩, hvectors, fun state index dimension c hseg hbuild row hlive hnew => ?_⟩
  · rw [List.getElem?_eq_getElem (by omega)]
    exact ⟨_, rfl⟩
  · have hword : row / 64 < seg.tombstones.words.length := by
      rw [hwords]
      unfold wordCount
      omega
    rw [List.getElem?_eq_getElem hword]
    exact ⟨_, rfl⟩
  · obtain ⟨hstate, -, hblocks⟩ := CollectionSource.build_spec hbuild
    obtain ⟨block, hblock, hopen⟩ := hblocks index seg hseg
    have hlt : row < seg.rows.toNat := by
      rw [hrows]
      exact isLive_lt h hlive
    obtain ⟨block', bytes, hopen', hbytes, -⟩ := hvectors row hlt
    obtain rfl := Except.ok.inj (hopen.symm.trans hopen')
    obtain ⟨norm, hnorm⟩ := h.invNorm_some hlive
    refine ⟨bytes, norm, CollectionSource.mem_forEach.mpr (.inl ⟨index, seg, block, ?_, hblock, ?_⟩)⟩
    · rw [hstate]
      exact hseg
    · rw [hstate]
      exact CollectionSource.mem_segmentRows.mpr ⟨row, hlt, hlive, hnew, hbytes, hnorm, rfl⟩

/-! ## The vector file -/

/-- **The vector file reaches to the last row**: there is none, or the file opens with at least as many. -/
def VectorsReach (bytes : Bytes) (stride : Nat) (rows : UInt32) : Prop :=
  rows = 0 ∨ ∃ block, VectorBlock.open bytes stride = .ok block ∧ rows ≤ block.rows

/-- Vectors are there exactly if the file reaches to the last row. -/
theorem hasVectors_iff : seg.HasVectors ↔ VectorsReach seg.vecBytes seg.stride seg.rows := by
  unfold HasVectors VectorsReach SegmentData.vectors
  constructor
  · intro hall
    by_cases hzero : seg.rows = 0
    · exact .inl hzero
    · -- the last row has its vector
      have hpos : 0 < seg.rows.toNat := Nat.pos_of_ne_zero (fun h0 => hzero (UInt32.toNat.inj h0))
      obtain ⟨block, bytes, hopen, hrow, -⟩ := hall (seg.rows.toNat - 1) (by omega)
      have hblock := formatAt_eq_ok.mp hopen
      have hlast := VectorBlock.lt_rows_of_row hblock hrow
      refine .inr ⟨block, hblock, UInt32.le_iff_toNat_le.mpr ?_⟩
      omega
  · rintro (hzero | ⟨block, hblock, hreach⟩) row hrow
    · rw [hzero] at hrow
      exact absurd hrow (Nat.not_lt_zero row)
    · have hlt : row < block.rows.toNat := Nat.lt_of_lt_of_le hrow (UInt32.le_iff_toNat_le.mp hreach)
      obtain ⟨bytes, hbytes, hlen⟩ := VectorBlock.row_of_open hblock hlt
      exact ⟨block, bytes, formatAt_eq_ok.mpr hblock, hbytes, hlen⟩

/-- What assembling takes over from its parts. -/
theorem assemble_fields {catalog : Catalog} {ref : SegmentRef} {vecBytes metaPayload : Bytes} {directory : Directory}
    {tombstones : Tombstones} (h : assemble catalog ref vecBytes metaPayload directory tombstones = .ok seg) :
    seg.vecBytes = vecBytes ∧ seg.stride = catalog.rowStride ∧ seg.tombstones = tombstones ∧
      tombstones.rows = ref.rows := by
  unfold assemble at h
  split at h
  · cases h
  rename_i hagree
  rw [not_or, not_not, not_not] at hagree
  obtain ⟨table, -, h⟩ := Parsing.except_bind_eq_ok.mp h
  obtain rfl := Except.ok.inj h
  exact ⟨rfl, rfl, rfl, hagree.2⟩

end SegmentData

/-- **When a segment that opens is complete**: its vector file reaches to the last of the rows that the manifest
    records. -/
theorem opened_complete_iff (catalog : Catalog) (seg : SegmentRef) (s s' : MemoryStorage) (x x' : S) (opened : SegmentData)
    (h : (SegmentData.open catalog seg x).run device s = ((.ok opened, x'), s')) :
    opened.Complete ↔ ∀ vecBytes, required s catalog.name seg.id .vectors = .ok vecBytes →
      SegmentData.VectorsReach vecBytes catalog.rowStride seg.rows := by
  rw [open_run] at h
  obtain ⟨vecBytes, dirBytes, metaBytes, metaBlock, delBytes, directory, tombstones, hvec, -, -, -, -, -, hdel, hassemble⟩ :=
    openedFrom_eq_ok.mp (Prod.mk.inj (Prod.mk.inj h).1).1
  have hconsistent := SegmentData.assemble_consistent hassemble
  obtain ⟨hbytes, hstride, htombstones, hrows⟩ := SegmentData.assemble_fields hassemble
  have hcount : opened.rows = seg.rows := by
    apply UInt32.toNat.inj
    rw [hconsistent.rows_toNat, ← hconsistent.tombstones, htombstones, hrows]
  have hwords : opened.tombstones.words.length = wordCount opened.tombstones.rows.toNat := by
    rw [htombstones]
    exact (Tombstones.decode_wf hdel).size
  have hreach : opened.HasVectors ↔ SegmentData.VectorsReach vecBytes catalog.rowStride seg.rows := by
    rw [SegmentData.hasVectors_iff, hbytes, hstride, hcount]
  constructor
  · intro hcomplete found hfound
    obtain rfl := Except.ok.inj (hvec.symm.trans hfound)
    exact hreach.mp hcomplete.vector
  · intro hfile
    exact hconsistent.complete hwords (hreach.mpr (hfile vecBytes hvec))

section Example

/-- A file whose bytes have been synced. -/
def stored (bytes : Bytes) : Entry := .file ⟨bytes, bytes⟩

/-- A storage with these files of a segment, one row in all but the vector file, which has the given ones. -/
def oneRowStorage (rows : UInt32) (data : Bytes) : MemoryStorage :=
  (((MemoryStorage.new.put (.segmentFile someName 1 .vectors) (stored (VectorBlockWriter.mk 1 4 rows data).finish)).put
    (.segmentFile someName 1 .directory) (stored (DirectoryWriter.mk [⟨0, 0, 0, 0, 1, 0⟩] [97]).finish)).put
    (.segmentFile someName 1 .metadata) (stored (MetaWriter.mk []).finish)).put
    (.segmentFile someName 1 .tombstones) (stored (Tombstones.allLive 1 0).encode)

theorem open_oneRow {rows : UInt32} {data : Bytes} {ref : SegmentRef} {opened : SegmentData}
    (h : openedFrom (oneRowStorage rows data) someCatalog ref = .ok opened) :
    (SegmentData.open someCatalog ref ()).run device (oneRowStorage rows data) =
      ((.ok opened, ()), oneRowStorage rows data) := by
  rw [open_run, h]

/-- The segment whose vector file has its row. -/
theorem opened_complete_iff_whole : ∃ opened,
    (SegmentData.open someCatalog ⟨1, 1, 0⟩ ()).run device (oneRowStorage 1 [0, 0, 0, 0]) =
        ((.ok opened, ()), oneRowStorage 1 [0, 0, 0, 0]) ∧ opened.Complete := by
  have hok : (openedFrom (oneRowStorage 1 [0, 0, 0, 0]) someCatalog ⟨1, 1, 0⟩).isOk = true := by decide +kernel
  cases hopen : openedFrom (oneRowStorage 1 [0, 0, 0, 0]) someCatalog ⟨1, 1, 0⟩ with
  | error e => rw [hopen] at hok; cases hok
  | ok opened =>
    refine ⟨opened, open_oneRow hopen, (opened_complete_iff someCatalog ⟨1, 1, 0⟩ _ _ () () opened (open_oneRow hopen)).mpr ?_⟩
    intro vecBytes hfile
    have hbytes : required (oneRowStorage 1 [0, 0, 0, 0]) someCatalog.name 1 .vectors =
        .ok (VectorBlockWriter.mk 1 4 1 [0, 0, 0, 0]).finish := by decide +kernel
    obtain rfl := Except.ok.inj (hbytes.symm.trans hfile)
    exact .inr ⟨⟨[0, 0, 0, 0], 4, 1⟩, by decide +kernel, by decide⟩

/-- **A vector file without rows** behind a directory and a bitmap of one: the segment opens, its row is live, and no
    vector answers for it. -/
theorem opened_without_vectors : ∃ opened,
    (SegmentData.open someCatalog ⟨1, 1, 0⟩ ()).run device (oneRowStorage 0 []) = ((.ok opened, ()), oneRowStorage 0 []) ∧
      opened.isLive 0 = true ∧ ¬ opened.Complete := by
  have hrow : (openedFrom (oneRowStorage 0 []) someCatalog ⟨1, 1, 0⟩).toOption.map (fun opened =>
      (opened.rows, opened.isLive 0, opened.vectors.toOption.map (fun block => block.row 0))) = some (1, true, some none) := by
    decide +kernel
  obtain ⟨opened, hopened, hfacts⟩ := Option.map_eq_some_iff.mp hrow
  obtain ⟨hrows, hlive, hvectors⟩ : opened.rows = 1 ∧ opened.isLive 0 = true ∧
      opened.vectors.toOption.map (fun block => block.row 0) = some none := by simpa using hfacts
  cases hopen : openedFrom (oneRowStorage 0 []) someCatalog ⟨1, 1, 0⟩ with
  | error e => rw [hopen] at hopened; cases hopened
  | ok found =>
    rw [hopen] at hopened
    obtain rfl := Option.some.inj hopened
    refine ⟨found, open_oneRow hopen, hlive, fun hcomplete => ?_⟩
    obtain ⟨block, bytes, hblock, hbytes, -⟩ := hcomplete.vector 0 (by rw [hrows]; decide)
    rw [hblock] at hvectors
    have hnone : block.row 0 = none := Option.some.inj hvectors
    rw [hbytes] at hnone
    cases hnone

end Example

/-! ## Old bitmaps -/

/-- **The bitmap's file is older** than the manifest says. -/
def StaleBitmap (s : MemoryStorage) (catalog : Catalog) (seg : SegmentRef) : Prop :=
  ∃ bytes t, required s catalog.name seg.id .tombstones = .ok bytes ∧ Tombstones.decode bytes = .ok t ∧
    t.generation < seg.delGeneration

/-- The bitmap's file is not there. -/
def NoBitmap (s : MemoryStorage) (catalog : Catalog) (seg : SegmentRef) : Prop :=
  s.get (.segmentFile catalog.name seg.id .tombstones) = none

/-- **What opening does check**: the files are there, the last three are what they should be, they agree with the
    manifest about the rows, and the directory's ids can be told apart. -/
structure ChecksPass (s : MemoryStorage) (catalog : Catalog) (seg : SegmentRef) : Prop where
  vectors : ∃ bytes, required s catalog.name seg.id .vectors = .ok bytes
  directory : ∃ bytes d table, required s catalog.name seg.id .directory = .ok bytes ∧ Directory.open bytes = .ok d ∧
    d.rows = seg.rows ∧ SegmentData.readRows catalog d = .ok table
  metadata : ∃ bytes block, required s catalog.name seg.id .metadata = .ok bytes ∧ MetaBlock.open bytes = .ok block
  tombstones : ∃ bytes t, required s catalog.name seg.id .tombstones = .ok bytes ∧ Tombstones.decode bytes = .ok t ∧
    t.rows = seg.rows

section Stale

variable {s : MemoryStorage} {catalog : Catalog} {seg : SegmentRef}

theorem assemble_isOk {vecBytes metaPayload : Bytes} {d : Directory} {t : Tombstones} :
    (∃ opened, SegmentData.assemble catalog seg vecBytes metaPayload d t = .ok opened) ↔
      d.rows = seg.rows ∧ t.rows = seg.rows ∧ ∃ table, SegmentData.readRows catalog d = .ok table := by
  unfold SegmentData.assemble
  by_cases hagree : d.rows ≠ seg.rows ∨ t.rows ≠ seg.rows
  · rw [if_pos hagree]
    refine ⟨fun ⟨opened, h⟩ => (nomatch h), ?_⟩
    rintro ⟨hd, ht, -⟩
    rcases hagree with hne | hne
    · exact absurd hd hne
    · exact absurd ht hne
  · rw [if_neg hagree]
    rw [not_or, not_not, not_not] at hagree
    constructor
    · rintro ⟨opened, h⟩
      obtain ⟨table, htable, -⟩ := Parsing.except_bind_eq_ok.mp h
      exact ⟨hagree.1, hagree.2, table, htable⟩
    · rintro ⟨-, -, table, htable⟩
      rw [htable]
      exact ⟨_, rfl⟩

/-- **Opening succeeds exactly if its checks pass.** -/
theorem openedFrom_isOk : (∃ opened, openedFrom s catalog seg = .ok opened) ↔ ChecksPass s catalog seg := by
  constructor
  · rintro ⟨opened, h⟩
    obtain ⟨vec, dir, mb, m, del, d, t, hvec, hdir, hmb, hm, hdel, hd, ht, h⟩ := openedFrom_eq_ok.mp h
    obtain ⟨hdrows, htrows, table, htable⟩ := assemble_isOk.mp ⟨opened, h⟩
    exact ⟨⟨vec, hvec⟩, ⟨dir, d, table, hdir, hd, hdrows, htable⟩, ⟨mb, m, hmb, hm⟩, ⟨del, t, hdel, ht, htrows⟩⟩
  · rintro ⟨⟨vec, hvec⟩, ⟨dir, d, table, hdir, hd, hdrows, htable⟩, ⟨mb, m, hmb, hm⟩, ⟨del, t, hdel, ht, htrows⟩⟩
    obtain ⟨opened, h⟩ : ∃ opened, SegmentData.assemble catalog seg vec m.payload d t = .ok opened :=
      assemble_isOk.mpr ⟨hdrows, htrows, table, htable⟩
    exact ⟨opened, openedFrom_eq_ok.mpr ⟨vec, dir, mb, m, del, d, t, hvec, hdir, hmb, hm, hdel, hd, ht, h⟩⟩

/-- A file that is not there is never taken. -/
theorem not_checksPass_of_noBitmap (h : NoBitmap s catalog seg) : ¬ ChecksPass s catalog seg := by
  rintro ⟨-, -, -, ⟨bytes, t, hdel, -⟩⟩
  unfold required at hdel
  obtain ⟨path, hpath, hdel⟩ := Parsing.except_bind_eq_ok.mp hdel
  obtain ⟨⟨⟩, -, hpath⟩ := Parsing.except_bind_eq_ok.mp hpath
  obtain rfl := Except.ok.inj hpath
  have hnone : fileAt s (.segmentFile catalog.name seg.id .tombstones) = .ok none := by
    unfold fileAt
    rw [h]
  rw [hnone] at hdel
  cases hdel

end Stale

/-- **When an old or missing bitmap is refused**: when it is missing, when it is not old, or when one of the checks that
    do not look at its generation refuses the segment. -/
theorem stale_refused_iff (s : MemoryStorage) (catalog : Catalog) (seg : SegmentRef) (x : S) :
    ((StaleBitmap s catalog seg ∨ NoBitmap s catalog seg) →
        ∃ e, (SegmentData.open catalog seg x).run device s = ((.error e, x), s)) ↔
      ¬ StaleBitmap s catalog seg ∨ ¬ ChecksPass s catalog seg := by
  have hrefused : (∃ e, (SegmentData.open catalog seg x).run device s = ((.error e, x), s)) ↔ ¬ ChecksPass s catalog seg := by
    rw [open_run, ← openedFrom_isOk]
    cases openedFrom s catalog seg with
    | error e => exact ⟨fun _ ⟨opened, h⟩ => (nomatch h), fun _ => ⟨e, rfl⟩⟩
    | ok opened => exact ⟨fun ⟨e, h⟩ => (nomatch h), fun h => absurd ⟨opened, rfl⟩ h⟩
  rw [hrefused]
  constructor
  · intro h
    by_cases hstale : StaleBitmap s catalog seg
    · exact .inr (h (.inl hstale))
    · exact .inl hstale
  · rintro (hfresh | hfails) (hstale | hmissing)
    · exact absurd hstale hfresh
    · exact not_checksPass_of_noBitmap hmissing
    · exact hfails
    · exact hfails

/-- **A bitmap of generation 0 where the manifest records generation 1** is taken, its row live. -/
theorem stale_accepted : StaleBitmap (oneRowStorage 1 [0, 0, 0, 0]) someCatalog ⟨1, 1, 1⟩ ∧ ∃ opened,
    (SegmentData.open someCatalog ⟨1, 1, 1⟩ ()).run device (oneRowStorage 1 [0, 0, 0, 0]) =
        ((.ok opened, ()), oneRowStorage 1 [0, 0, 0, 0]) ∧ opened.isLive 0 = true := by
  refine ⟨⟨(Tombstones.allLive 1 0).encode, Tombstones.allLive 1 0, by rfl, by decide +kernel, by decide⟩, ?_⟩
  have hlive : (openedFrom (oneRowStorage 1 [0, 0, 0, 0]) someCatalog ⟨1, 1, 1⟩).toOption.map (SegmentData.isLive · 0) =
      some true := by decide +kernel
  obtain ⟨opened, hopened, hlive⟩ := Option.map_eq_some_iff.mp hlive
  cases hopen : openedFrom (oneRowStorage 1 [0, 0, 0, 0]) someCatalog ⟨1, 1, 1⟩ with
  | error e => rw [hopen] at hopened; cases hopened
  | ok found =>
    rw [hopen] at hopened
    obtain rfl := Option.some.inj hopened
    exact ⟨found, open_oneRow hopen, hlive⟩

end IshaVectorDb.Engine
