import IshaVectorDb.Correctness.ReachedStates
import IshaVectorDb.Correctness.ReadOnly

/-!
# `Correctness.LiveRows` — the **live set** and the rows that are visited

An index is built from the rows that a source visits and asks the source's live set about rows that it finds. The visit
leaves out a segment's row when its document is in the memtable; the live set asks the segment's bitmap alone. So the two
agree where no such row is live in its bitmap (`Unshadowed`), as long as the vector files are whole.
-/

namespace IshaVectorDb.Engine

open Format Interaction Index

namespace CollectionSource

/-- **The live set and the visited rows agree**: a row is live exactly if it is visited, its vector is then the one that
    the visit yields, and a segment's row that the memtable shadows is not live. -/
structure Agree (c : CollectionSource) : Prop where
  live : ∀ row, c.isLive row = true ↔ ∃ bytes norm, (row, bytes, norm) ∈ c.forEach
  vector : ∀ row bytes norm, (row, bytes, norm) ∈ c.forEach → c.vector row = some (bytes, norm)
  shadowed : ∀ (row : RowId) (seg : SegmentData), row.segment ≠ memtableSegment →
    c.state.segments[row.segment.toNat]? = some seg → shadowed c.state (seg.idAt row.row.toNat) = true → c.isLive row = false

end CollectionSource

/-- No segment has a live row for a document that the memtable mentions. -/
def Session.Unshadowed (s : Session) : Prop :=
  ∀ seg ∈ s.segments, ∀ row, seg.isLive row = true → CollectionSource.shadowed s (seg.idAt row) = false

/-- Every live row of a segment has its vector in the segment's vector file. -/
def Session.VectorsWhole (s : Session) : Prop :=
  ∀ seg ∈ s.segments, ∀ block, seg.vectors = .ok block → ∀ row, seg.isLive row = true → (block.row row).isSome

/-- The segments and the memtable's rows have numbers of 32 bits, and no segment has the memtable's. -/
def Session.Numbered (s : Session) : Prop := s.segments.length < 2 ^ 32 ∧ s.memtable.liveRows.length ≤ 2 ^ 32

/-! ## What a consistent segment's row has -/

namespace SegmentData

variable {seg : SegmentData} {row : Nat}

theorem isLive_lt (h : seg.Consistent) (hlive : seg.isLive row = true) : row < seg.entries.length := by
  rw [← h.tombstones]
  exact Tombstones.isLive_lt hlive

theorem Consistent.rows_toNat (h : seg.Consistent) : seg.rows.toNat = seg.entries.length := by
  unfold SegmentData.rows
  rw [UInt32.toNat_ofNat', Nat.mod_eq_of_lt (h.tombstones ▸ seg.tombstones.rows.toNat_lt)]

theorem Consistent.invNorm_some (h : seg.Consistent) (hlive : seg.isLive row = true) : ∃ norm, seg.invNorm row = some norm := by
  unfold SegmentData.invNorm
  rw [List.getElem?_eq_getElem (isLive_lt h hlive)]
  exact ⟨_, rfl⟩

end SegmentData

namespace CollectionSource

variable {c : CollectionSource} {s : Session} {dimension : UInt32}

/-! ## The rows that are visited -/

theorem mem_segmentRows {index : Nat} {seg : SegmentData} {block : VectorBlock} {row : RowId} {bytes : Bytes} {norm : UInt32} :
    (row, bytes, norm) ∈ segmentRows s index seg block ↔ ∃ r, r < seg.rows.toNat ∧ seg.isLive r = true ∧
      shadowed s (seg.idAt r) = false ∧ block.row r = some bytes ∧ seg.invNorm r = some norm ∧
      row = RowId.new (UInt32.ofNat index) (UInt32.ofNat r) := by
  unfold segmentRows
  rw [List.mem_filterMap]
  refine exists_congr fun r => ?_
  rw [List.mem_range]
  refine and_congr_right fun _ => ?_
  simp only [current, Bool.and_eq_true, Bool.not_eq_true']
  by_cases hcurrent : seg.isLive r = true ∧ shadowed s (seg.idAt r) = false
  · rw [if_pos hcurrent]
    cases block.row r with
    | none => simp
    | some found =>
      cases seg.invNorm r with
      | none => simp
      | some invNorm =>
        simp only [Option.some.injEq, Prod.mk.injEq, hcurrent.1, hcurrent.2, true_and]
        exact ⟨fun ⟨hrow, hbytes, hnorm⟩ => ⟨hbytes, hnorm, hrow.symm⟩, fun ⟨hbytes, hnorm, hrow⟩ => ⟨hrow.symm, hbytes, hnorm⟩⟩
  · rw [if_neg hcurrent]
    exact ⟨nofun, fun ⟨hlive, hshadow, _⟩ => absurd ⟨hlive, hshadow⟩ hcurrent⟩

theorem mem_bufferedRows {row : RowId} {bytes : Bytes} {norm : UInt32} : (row, bytes, norm) ∈ c.bufferedRows ↔
    ∃ (i : Nat) (mem : MemRow), c.memtableRows[i]? = some mem ∧ c.state.memtable.vectorBytes mem = some bytes ∧
      norm = mem.invNorm.bits ∧ row = RowId.new memtableSegment (UInt32.ofNat i) := by
  unfold bufferedRows
  rw [List.mem_filterMap]
  constructor
  · rintro ⟨⟨mem, i⟩, hmem, hrow⟩
    obtain ⟨found, hfound, heq⟩ := Option.map_eq_some_iff.mp hrow
    obtain ⟨rfl, rfl, rfl⟩ : _ = row ∧ found = bytes ∧ _ = norm := by simpa using heq
    exact ⟨i, mem, List.mem_zipIdx_iff_getElem?.mp hmem, hfound, rfl, rfl⟩
  · rintro ⟨i, mem, hmem, hbytes, rfl, rfl⟩
    exact ⟨(mem, i), List.mem_zipIdx_iff_getElem?.mpr hmem, by rw [hbytes]; rfl⟩

theorem mem_forEach {row : RowId} {bytes : Bytes} {norm : UInt32} : (row, bytes, norm) ∈ c.forEach ↔
    (∃ index seg block, c.state.segments[index]? = some seg ∧ c.blocks[index]? = some block ∧
      (row, bytes, norm) ∈ segmentRows c.state index seg block) ∨ (row, bytes, norm) ∈ c.bufferedRows := by
  unfold forEach
  rw [List.mem_append, List.mem_flatMap]
  refine or_congr_left ⟨?_, ?_⟩
  · rintro ⟨⟨⟨seg, block⟩, index⟩, hmem, hrow⟩
    obtain ⟨hseg, hblock⟩ := List.getElem?_zip_eq_some.mp (List.mem_zipIdx_iff_getElem?.mp hmem)
    exact ⟨index, seg, block, hseg, hblock, hrow⟩
  · rintro ⟨index, seg, block, hseg, hblock, hrow⟩
    exact ⟨((seg, block), index), List.mem_zipIdx_iff_getElem?.mpr (List.getElem?_zip_eq_some.mpr ⟨hseg, hblock⟩), hrow⟩

/-! ## Sources that are built -/

theorem mapM_getElem? {α β : Type} {f : α → Except DbError β} {l : List α} {bs : List β} (h : l.mapM f = .ok bs) {i : Nat}
    {a : α} (ha : l[i]? = some a) : ∃ b, bs[i]? = some b ∧ f a = .ok b := by
  induction l generalizing bs i with
  | nil => cases ha
  | cons x l ih =>
    rw [List.mapM_cons] at h
    obtain ⟨b, hb, h⟩ := Parsing.except_bind_eq_ok.mp h
    obtain ⟨rest, hrest, h⟩ := Parsing.except_bind_eq_ok.mp h
    obtain rfl := Except.ok.inj h
    cases i with
    | zero =>
      obtain rfl := Option.some.inj ha
      exact ⟨b, rfl, hb⟩
    | succ i => exact ih hrest ha

/-- **A source that was built** has every segment's vectors and the memtable's live rows. -/
theorem build_spec (h : build s dimension = .ok c) : c.state = s ∧ c.memtableRows = s.memtable.liveRows ∧
    ∀ (index : Nat) (seg : SegmentData), s.segments[index]? = some seg → ∃ block, c.blocks[index]? = some block ∧ seg.vectors = .ok block := by
  obtain ⟨blocks, hblocks, h⟩ := Parsing.except_bind_eq_ok.mp h
  obtain rfl := Except.ok.inj h
  exact ⟨rfl, rfl, fun index seg hseg => mapM_getElem? hblocks hseg⟩

theorem mem_liveRows_rows {m : Memtable} {row : MemRow} (h : row ∈ m.liveRows) : row ∈ m.rows := by
  unfold Memtable.liveRows at h
  obtain ⟨i, -, hi⟩ := List.mem_filterMap.mp h
  exact List.mem_of_getElem? hi

/-- A row of a solid memtable has its vector. -/
theorem vectorBytes_some {m : Memtable} (h : m.Solid) {row : MemRow} (hrow : row ∈ m.liveRows) :
    ∃ bytes, m.vectorBytes row = some bytes := by
  unfold Memtable.vectorBytes Parsing.slice
  rw [if_pos (h.inside row (mem_liveRows_rows hrow))]
  exact ⟨_, rfl⟩

/-! ## The visited rows by their handles -/

/-- A segment's number is one of 32 bits, and not the memtable's. -/
theorem segment_number {α : Type} {l : List α} (hfew : l.length < 2 ^ 32) {index : Nat} {a : α} (h : l[index]? = some a) :
    (UInt32.ofNat index).toNat = index ∧ UInt32.ofNat index ≠ memtableSegment := by
  obtain ⟨hlt, -⟩ := List.getElem?_eq_some_iff.mp h
  have hto : (UInt32.ofNat index).toNat = index := UInt32.toNat_ofNat_of_lt' (Nat.lt_trans hlt hfew)
  refine ⟨hto, fun heq => ?_⟩
  have hlast := congrArg UInt32.toNat heq
  rw [hto, show memtableSegment.toNat = 2 ^ 32 - 1 from rfl] at hlast
  omega

section Handles

variable {row : RowId} {bytes : Bytes} {norm : UInt32}

/-- **A visited row of a segment**, read off its handle. -/
theorem mem_forEach_segment (hfew : c.state.segments.length < 2 ^ 32) (hrow : row.segment ≠ memtableSegment) :
    (row, bytes, norm) ∈ c.forEach ↔ ∃ seg block, c.state.segments[row.segment.toNat]? = some seg ∧
      c.blocks[row.segment.toNat]? = some block ∧ row.row.toNat < seg.rows.toNat ∧ seg.isLive row.row.toNat = true ∧
      shadowed c.state (seg.idAt row.row.toNat) = false ∧ block.row row.row.toNat = some bytes ∧
      seg.invNorm row.row.toNat = some norm := by
  rw [mem_forEach]
  constructor
  · rintro (⟨index, seg, block, hseg, hblock, hmem⟩ | hmem)
    · obtain ⟨r, hr, hlive, hshadow, hbytes, hnorm, rfl⟩ := mem_segmentRows.mp hmem
      obtain ⟨hindex, -⟩ := segment_number hfew hseg
      have hr' : (UInt32.ofNat r).toNat = r := UInt32.toNat_ofNat_of_lt' (Nat.lt_trans hr seg.rows.toNat_lt)
      rw [RowId.segment_new, RowId.row_new, hindex, hr']
      exact ⟨seg, block, hseg, hblock, hr, hlive, hshadow, hbytes, hnorm⟩
    · obtain ⟨i, mem, -, -, -, rfl⟩ := mem_bufferedRows.mp hmem
      exact absurd (RowId.segment_new _ _) hrow
  · rintro ⟨seg, block, hseg, hblock, hr, hlive, hshadow, hbytes, hnorm⟩
    refine .inl ⟨_, seg, block, hseg, hblock, mem_segmentRows.mpr ⟨_, hr, hlive, hshadow, hbytes, hnorm, ?_⟩⟩
    rw [UInt32.ofNat_toNat, UInt32.ofNat_toNat, RowId.new_segment_row]

/-- **A visited row of the memtable**, read off its handle. -/
theorem mem_forEach_buffered (hfew : c.state.segments.length < 2 ^ 32) (hrows : c.memtableRows.length ≤ 2 ^ 32)
    (hrow : row.segment = memtableSegment) : (row, bytes, norm) ∈ c.forEach ↔
      ∃ mem, c.memtableRows[row.row.toNat]? = some mem ∧ c.state.memtable.vectorBytes mem = some bytes ∧
        norm = mem.invNorm.bits := by
  rw [mem_forEach]
  constructor
  · rintro (⟨index, seg, block, hseg, hblock, hmem⟩ | hmem)
    · -- no segment has the memtable's number
      obtain ⟨r, -, -, -, -, -, rfl⟩ := mem_segmentRows.mp hmem
      rw [RowId.segment_new] at hrow
      exact absurd hrow (segment_number hfew hseg).2
    · obtain ⟨i, mem, hat, hbytes, hnorm, rfl⟩ := mem_bufferedRows.mp hmem
      have hi : (UInt32.ofNat i).toNat = i := by
        obtain ⟨hlt, -⟩ := List.getElem?_eq_some_iff.mp hat
        exact UInt32.toNat_ofNat_of_lt' (Nat.lt_of_lt_of_le hlt hrows)
      rw [RowId.row_new, hi]
      exact ⟨mem, hat, hbytes, hnorm⟩
  · rintro ⟨mem, hmem, hbytes, hnorm⟩
    refine .inr (mem_bufferedRows.mpr ⟨_, mem, hmem, hbytes, hnorm, ?_⟩)
    rw [UInt32.ofNat_toNat, ← hrow, RowId.new_segment_row]

end Handles

/-! ## When they agree -/

section Built

variable (hsolid : s.Solid) (hnumbered : s.Numbered) (hbuild : build s dimension = .ok c)
include hsolid hnumbered hbuild

/-- Where live set and visit agree, a segment's live row is not shadowed, and has its vector. -/
theorem Agree.visited (h : Agree c) {seg : SegmentData} (hseg : seg ∈ s.segments) {row : Nat}
    (hlive : seg.isLive row = true) :
    ∃ block bytes, seg.vectors = .ok block ∧ CollectionSource.shadowed s (seg.idAt row) = false ∧ block.row row = some bytes := by
  obtain ⟨rfl, hrows, hblocks⟩ := build_spec hbuild
  have hgood := hsolid.segments seg hseg
  obtain ⟨index, hindex⟩ := List.getElem?_of_mem hseg
  obtain ⟨hto, hne⟩ := segment_number hnumbered.1 hindex
  have hin : row < seg.rows.toNat := hgood.rows_toNat ▸ SegmentData.isLive_lt hgood hlive
  have hrow : (UInt32.ofNat row).toNat = row := UInt32.toNat_ofNat_of_lt' (Nat.lt_trans hin seg.rows.toNat_lt)
  have hne : (RowId.new (UInt32.ofNat index) (UInt32.ofNat row)).segment ≠ memtableSegment := by
    rwa [RowId.segment_new]
  have hisLive : c.isLive (RowId.new (UInt32.ofNat index) (UInt32.ofNat row)) = true := by
    unfold isLive
    rw [if_neg hne, RowId.segment_new, RowId.row_new, hto, hrow, hindex]
    exact hlive
  obtain ⟨bytes, norm, hmem⟩ := (h.live _).mp hisLive
  obtain ⟨seg', block, hseg', hblock, -, -, hshadow, hbytes, -⟩ := (mem_forEach_segment hnumbered.1 hne).mp hmem
  rw [RowId.segment_new, hto] at hseg' hblock
  rw [RowId.row_new, hrow] at hshadow hbytes
  obtain rfl := Option.some.inj (hindex.symm.trans hseg')
  obtain ⟨block', hblock', hvectors⟩ := hblocks index seg hindex
  obtain rfl := Option.some.inj (hblock'.symm.trans hblock)
  exact ⟨_, bytes, hvectors, hshadow, hbytes⟩

/-- A row of the memtable is live exactly if it is visited. -/
theorem live_iff_buffered {row : RowId} (hrow : row.segment = memtableSegment) :
    c.isLive row = true ↔ ∃ bytes norm, (row, bytes, norm) ∈ c.forEach := by
  obtain ⟨rfl, hrows, -⟩ := build_spec hbuild
  simp only [mem_forEach_buffered hnumbered.1 (hrows ▸ hnumbered.2) hrow]
  unfold isLive
  rw [if_pos hrow, decide_eq_true_iff]
  constructor
  · intro hlt
    have hin (mem : MemRow) (h : mem ∈ c.memtableRows) : mem ∈ c.state.memtable.liveRows := hrows ▸ h
    obtain ⟨bytes, hbytes⟩ := vectorBytes_some hsolid.memtable (hin _ (List.getElem_mem hlt))
    exact ⟨bytes, _, _, List.getElem?_eq_getElem hlt, hbytes, rfl⟩
  · rintro ⟨bytes, norm, mem, hat, -⟩
    exact (List.getElem?_eq_some_iff.mp hat).1

/-- A row of a segment is live exactly if it is visited, where no live row is shadowed. -/
theorem live_iff_segment (hunshadowed : s.Unshadowed) (hwhole : s.VectorsWhole) {row : RowId}
    (hrow : row.segment ≠ memtableSegment) :
    c.isLive row = true ↔ ∃ bytes norm, (row, bytes, norm) ∈ c.forEach := by
  obtain ⟨rfl, -, hblocks⟩ := build_spec hbuild
  simp only [mem_forEach_segment hnumbered.1 hrow]
  unfold isLive
  rw [if_neg hrow]
  cases hseg : c.state.segments[row.segment.toNat]? with
  | none => exact ⟨nofun, fun ⟨_, _, _, _, h, _⟩ => (nomatch h)⟩
  | some seg =>
    dsimp only
    have hin := List.mem_of_getElem? hseg
    have hgood := hsolid.segments seg hin
    constructor
    · intro hlive
      obtain ⟨block, hblock, hvectors⟩ := hblocks _ seg hseg
      obtain ⟨bytes, hbytes⟩ := Option.isSome_iff_exists.mp (hwhole seg hin block hvectors _ hlive)
      obtain ⟨norm, hnorm⟩ := hgood.invNorm_some hlive
      exact ⟨bytes, norm, seg, block, rfl, hblock, hgood.rows_toNat ▸ SegmentData.isLive_lt hgood hlive, hlive,
        hunshadowed seg hin _ hlive, hbytes, hnorm⟩
    · rintro ⟨bytes, norm, seg', block, hseg', -, -, hlive, -⟩
      obtain rfl := Option.some.inj hseg'
      exact hlive

omit hsolid in
/-- **A visited row's vector** is the one that the visit yields. -/
theorem vector_of_visited {row : RowId} {bytes : Bytes} {norm : UInt32} (hmem : (row, bytes, norm) ∈ c.forEach) :
    c.vector row = some (bytes, norm) := by
  obtain ⟨rfl, hrows, -⟩ := build_spec hbuild
  unfold vector
  by_cases hrow : row.segment = memtableSegment
  · obtain ⟨mem, hat, hbytes, rfl⟩ := (mem_forEach_buffered hnumbered.1 (hrows ▸ hnumbered.2) hrow).mp hmem
    rw [if_pos hrow, hat]
    simp only [Option.bind_eq_bind, Option.bind_some, hbytes]
    rfl
  · obtain ⟨seg, block, hseg, hblock, -, -, -, hbytes, hnorm⟩ := (mem_forEach_segment hnumbered.1 hrow).mp hmem
    rw [if_neg hrow, hseg]
    simp only [Option.bind_eq_bind, Option.bind_some, hblock, hbytes, hnorm]
    rfl

/-- **The live set agrees with the visited rows** of a solid collection exactly where no live row is shadowed and every
    live row has its vector. -/
theorem agree_iff : Agree c ↔ s.Unshadowed ∧ s.VectorsWhole := by
  refine ⟨fun h => ⟨fun seg hseg row hlive => ?_, fun seg hseg block hblock row hlive => ?_⟩, ?_⟩
  · obtain ⟨block, bytes, -, hshadow, -⟩ := h.visited hsolid hnumbered hbuild hseg hlive
    exact hshadow
  · obtain ⟨block', bytes, hvectors, -, hbytes⟩ := h.visited hsolid hnumbered hbuild hseg hlive
    obtain rfl := Except.ok.inj (hvectors.symm.trans hblock)
    exact Option.isSome_iff_exists.mpr ⟨bytes, hbytes⟩
  · rintro ⟨hunshadowed, hwhole⟩
    refine ⟨fun row => ?_, fun row bytes norm hmem => vector_of_visited hnumbered hbuild hmem,
      fun row seg hrow hseg hshadow => ?_⟩
    · by_cases hrow : row.segment = memtableSegment
      · exact live_iff_buffered hsolid hnumbered hbuild hrow
      · exact live_iff_segment hsolid hnumbered hbuild hunshadowed hwhole hrow
    · obtain ⟨rfl, -, -⟩ := build_spec hbuild
      unfold isLive
      rw [if_neg hrow, hseg]
      dsimp only
      rw [← Bool.not_eq_true]
      intro hlive
      have hnot := hunshadowed seg (List.mem_of_getElem? hseg) _ hlive
      rw [hshadow] at hnot
      cases hnot

end Built

end CollectionSource

/-- **In every state of a database** the live set of a collection agrees with the rows that are visited, exactly where no
    segment has a live row for a document of the memtable, and every live row has its vector. -/
theorem Opened.live_rows_iff {G : Type} {index : VectorIndex G} {x : Opened G} (h : Reached index x) {name : Str}
    {s : Session} (hs : x.db.session name = some s) (hnumbered : s.Numbered) {dimension : UInt32} {c : CollectionSource}
    (hbuild : CollectionSource.build s dimension = .ok c) :
    CollectionSource.Agree c ↔ s.Unshadowed ∧ s.VectorsWhole := by
  obtain ⟨coll, hcoll, rfl⟩ := Option.map_eq_some_iff.mp hs
  exact CollectionSource.agree_iff (h.solid name coll hcoll) hnumbered hbuild

/-! ## A document put again after a flush -/

section Example

/-- Opened to be written, with a memtable that is flushed only when it is asked to be. -/
def calmEnv : Env := ⟨⟨true, false, .full, 1000000⟩, 0, fun _ => ⟨0, Reader.finite32_zero⟩⟩

def plainIndex : VectorIndex Unit := ExactScan (fun _ _ => .ok [])

def plainDoc : DocumentInput := ⟨.str ⟨[97], utf8_a⟩, .f32 [0], none, none⟩

/-- A call that the device answers. -/
def callOn (p : Opened Unit × MemoryStorage) (c : ApiCall) : Opened Unit × MemoryStorage :=
  let ended := (c.act calmEnv plainIndex p.1).run device p.2
  (ended.1.2, ended.2)

/-- A new database. -/
def newOpened : (Except DbError Database × Unit) × MemoryStorage :=
  (Database.open calmEnv 0 ()).run device MemoryStorage.new

/-- Before the first call on it. -/
def uncalled : Opened Unit × MemoryStorage := (⟨databaseOf newOpened.1.1, (), false⟩, newOpened.2)

/-- The database after such calls. -/
def afterCalls (calls : List ApiCall) : Opened Unit × MemoryStorage := calls.foldl callOn uncalled

theorem reached_uncalled : Opened.Reached plainIndex uncalled.1 := by
  unfold uncalled
  have hopen : (Database.open calmEnv 0 ()).Outcome newOpened.1 := Prog.outcome_run device _ MemoryStorage.new
  have hok : newOpened.1.1.isOk = true := by decide +kernel
  generalize newOpened.1 = r at hopen hok
  obtain ⟨r, u⟩ := r
  cases r with
  | ok db => exact .opened () hopen
  | error e => cases hok

theorem reached_calls {p : Opened Unit × MemoryStorage} (hp : Opened.Reached plainIndex p.1) (calls : List ApiCall)
    (h : ∀ c ∈ calls, c.WellFormed) : Opened.Reached plainIndex (calls.foldl callOn p).1 := by
  induction calls generalizing p with
  | nil => exact hp
  | cons c calls ih =>
    obtain ⟨hc, hrest⟩ := List.forall_mem_cons.mp h
    exact ih (.act hp hc (Prog.outcome_run device (c.act calmEnv plainIndex p.1) p.2)) hrest

/-- The collection's source, as a search of it would have it. -/
def sourceAfter (calls : List ApiCall) : Option (Session × CollectionSource) :=
  ((afterCalls calls).1.db.session someName).bind (fun s => (CollectionSource.build s 1).toOption.map (fun c => (s, c)))

theorem sourceAfter_eq_some {calls : List ApiCall} {s : Session} {c : CollectionSource} (h : sourceAfter calls = some (s, c)) :
    (afterCalls calls).1.db.session someName = some s ∧ CollectionSource.build s 1 = .ok c := by
  obtain ⟨s', hs, h⟩ := Option.bind_eq_some_iff.mp h
  obtain ⟨c', hc, h⟩ := Option.map_eq_some_iff.mp h
  obtain ⟨rfl, rfl⟩ := Prod.mk.inj h
  refine ⟨hs, ?_⟩
  cases hb : CollectionSource.build s' 1 with
  | error e => rw [hb] at hc; cases hc
  | ok found =>
    rw [hb] at hc
    exact congrArg Except.ok (Option.some.inj hc)

/-- A document in the memtable, nothing flushed. -/
def buffering : List ApiCall := [.createCollection someSpec, .insert someName plainDoc]

/-- The document flushed and put again. -/
def shadowing : List ApiCall := buffering ++ [.flush someName, .upsert someName plainDoc]

theorem shadowing_wellFormed : ∀ c ∈ shadowing, c.WellFormed := by
  have hdoc : plainDoc.vector.WellFormed := by decide
  intro c hc
  simp only [shadowing, buffering, List.cons_append, List.nil_append, List.mem_cons, List.not_mem_nil, or_false] at hc
  rcases hc with rfl | rfl | rfl | rfl
  · trivial
  · exact hdoc
  · trivial
  · exact hdoc

/-- Two documents in a segment, one of them deleted, and a third in the memtable. -/
def layering : List ApiCall := buffering ++ [.insert someName { plainDoc with id := .str ⟨[98], utf8_b⟩ }, .flush someName,
  .delete someName plainDoc.id, .flush someName, .insert someName { plainDoc with id := .str ⟨[100], utf8_d⟩ }]

theorem layering_wellFormed : ∀ c ∈ layering, c.WellFormed := by
  have hdoc : plainDoc.vector.WellFormed := by decide
  intro c hc
  simp only [layering, buffering, List.cons_append, List.nil_append, List.mem_cons, List.not_mem_nil, or_false] at hc
  rcases hc with rfl | rfl | rfl | rfl | rfl | rfl | rfl
  · trivial
  · exact hdoc
  · exact hdoc
  · trivial
  · trivial
  · trivial
  · exact hdoc

/-- Whether a segment's live rows are unshadowed and have their vectors. -/
def rowsAgree (s : Session) (seg : SegmentData) : Bool := (List.range seg.entries.length).all fun row =>
  !seg.isLive row || (!CollectionSource.shadowed s (seg.idAt row) &&
    seg.vectors.toOption.all (fun block => (block.row row).isSome))

theorem rowsAgree_row {s : Session} {seg : SegmentData} (h : rowsAgree s seg = true) (hgood : seg.Consistent) {row : Nat}
    (hlive : seg.isLive row = true) : CollectionSource.shadowed s (seg.idAt row) = false ∧
      ∀ block, seg.vectors = .ok block → (block.row row).isSome := by
  have hrow := List.all_eq_true.mp h row (List.mem_range.mpr (SegmentData.isLive_lt hgood hlive))
  rw [hlive, Bool.not_true, Bool.false_or, Bool.and_eq_true, Bool.not_eq_true'] at hrow
  refine ⟨hrow.1, fun block hblock => ?_⟩
  have hall := hrow.2
  rw [hblock] at hall
  exact hall

/-- A segment of two rows, one of them live, below a memtable of one. -/
theorem layering_agrees : ∃ s c, sourceAfter layering = some (s, c) ∧
    s.segments.map (fun seg => (seg.entries.length, seg.liveCount)) = [(2, 1)] ∧ s.memtable.liveRows.length = 1 ∧
    CollectionSource.Agree c := by
  have hshape : (sourceAfter layering).map (fun p => (p.1.segments.map (fun seg => (seg.entries.length, seg.liveCount)),
      p.1.memtable.liveRows.length, p.1.segments.all (rowsAgree p.1))) = some ([(2, 1)], 1, true) := by
    decide +kernel
  obtain ⟨⟨s, c⟩, hsource, hcounts⟩ := Option.map_eq_some_iff.mp hshape
  obtain ⟨hsegments, hcounts⟩ := Prod.mk.inj hcounts
  obtain ⟨hrows, hagree⟩ := Prod.mk.inj hcounts
  obtain ⟨hs, hbuild⟩ := sourceAfter_eq_some hsource
  have hlen : s.segments.length = 1 := by simpa using congrArg List.length hsegments
  have hnumbered : s.Numbered := ⟨hlen ▸ by decide, hrows ▸ by decide⟩
  have hreached : Opened.Reached plainIndex (afterCalls layering).1 :=
    reached_calls reached_uncalled layering layering_wellFormed
  have hgood : ∀ seg ∈ s.segments, seg.Consistent := by
    obtain ⟨coll, hcoll, rfl⟩ := Option.map_eq_some_iff.mp hs
    exact fun seg hseg => (hreached.solid someName coll hcoll).segments seg hseg
  have hsegs : ∀ seg ∈ s.segments, rowsAgree s seg = true := List.all_eq_true.mp hagree
  refine ⟨s, c, hsource, hsegments, hrows, (Opened.live_rows_iff hreached hs hnumbered hbuild).mpr ⟨?_, ?_⟩⟩
  · intro seg hseg row hlive
    exact (rowsAgree_row (hsegs seg hseg) (hgood seg hseg) hlive).1
  · intro seg hseg block hblock row hlive
    exact (rowsAgree_row (hsegs seg hseg) (hgood seg hseg) hlive).2 block hblock

/-- **The flushed row of a document that is put again** is live, and is not visited. -/
theorem shadowed_row_live : ¬ (∀ (G : Type) (index : VectorIndex G) (x : Opened G), Opened.Reached index x →
    ∀ (name : Str) (s : Session) (dimension : UInt32) (c : CollectionSource), x.db.session name = some s →
      CollectionSource.build s dimension = .ok c → CollectionSource.Agree c) := by
  intro hall
  have hlive : (sourceAfter shadowing).map (fun p => (p.2.isLive (RowId.new 0 0), p.2.forEach.map Prod.fst))
      = some (true, [RowId.new memtableSegment 0]) := by decide +kernel
  obtain ⟨⟨s, c⟩, hsource, hrows⟩ := Option.map_eq_some_iff.mp hlive
  obtain ⟨hlive, hvisited⟩ := Prod.mk.inj hrows
  obtain ⟨hs, hbuild⟩ := sourceAfter_eq_some hsource
  have hreached : Opened.Reached plainIndex (afterCalls shadowing).1 :=
    reached_calls reached_uncalled shadowing shadowing_wellFormed
  have hagree := hall Unit plainIndex _ hreached someName s 1 c hs hbuild
  obtain ⟨bytes, norm, hmem⟩ := (hagree.live _).mp hlive
  have hin : RowId.new 0 0 ∈ c.forEach.map Prod.fst := List.mem_map.mpr ⟨_, hmem, rfl⟩
  rw [hvisited] at hin
  exact absurd (List.mem_singleton.mp hin) (by decide)

end Example

end IshaVectorDb.Engine
