import IshaVectorDb.Correctness.Listing
import IshaVectorDb.Correctness.ReadOnly
import IshaVectorDb.Format.Bursts
import Mathlib.Data.Set.Card

/-!
# `Correctness.Verifying` — verification raises **no false alarm**, and misses no burst

Whatever has been written, flushed, compacted, closed and opened again, verification at any level only reads, and reports no
damage: every block passes its checksum, no document is live twice, every live row has its id and its metadata, and the
manifest counts the rows that the segments hold. What it says of the documents is what there is (`Run.verifies`).

Where files of segments have been removed since, or altered within a window of 32 bits each, it reports exactly the segments that
these files belong to (`Run.finds_damage`).
-/

namespace IshaVectorDb.Engine

open Format Interaction KeyLog

/-! ## Checksums -/

theorem verifyBlock_encodeBlock {kind : FileKind} {payload : Bytes} (h : payload.length + 36 < 2 ^ 64) :
    verifyBlock (encodeBlock kind payload) kind = .ok () := by
  have hdecode : decodeBlock (encodeBlock kind payload ++ []) kind = _ := decodeBlock_encodeBlock h []
  rw [List.append_nil] at hdecode
  exact verifies_of_decodes hdecode

section Checksums

variable {S : Type} {cat : Catalog} {x : S} {t : MemoryStorage} {level : VerifyLevel}

/-- **Each file of a segment is a block.** -/
theorem Seg.file_block (g : Seg cat) (which : SegmentFile) :
    ∃ payload : Bytes, payload.length + 36 < 2 ^ 64 ∧ g.file which = encodeBlock which.fileKind payload := by
  cases which with
  | vectors =>
    have hlen := g.segFits.vectors_lt
    refine ⟨Writer.reserved 32 ++ g.segRows.flatMap SegmentRow.vector, ?_, rfl⟩
    rw [List.length_append, Writer.reserved_length]
    omega
  | directory =>
    have hrows := g.length_lt
    have hids := g.segFits.ids_lt
    refine ⟨(SegmentWriter.of cat.dimension cat.rowStride g.segRows).directory.payload, ?_, rfl⟩
    rw [DirectoryWriter.payload_length]
    show dirPrefixLen + (SegmentRow.entriesFrom 0 0 g.segRows).length * dirEntryLen + (g.segRows.flatMap SegmentRow.id).length + 36 < _
    rw [SegmentRow.entriesFrom_length, segRows_length]
    unfold dirPrefixLen dirEntryLen
    omega
  | metadata =>
    have hlen := g.segFits.records_lt
    exact ⟨g.segRows.flatMap SegmentRow.recordBytes, by omega, rfl⟩
  | tombstones => exact ⟨g.tombstones.payload, g.wf.payload_lt, rfl⟩

/-- Each file of the segment is there or gone, and altered within a window of at most 32 bits. -/
def Seg.Suffers (g : Seg cat) (t : MemoryStorage) : Prop := ∀ which, t.get (.segmentFile cat.name g.id which) = none ∨
  ∃ d, t.get (.segmentFile cat.name g.id which) = some (.file d) ∧ Parsing.Differ 32 d.live (g.file which)

/-- **The check of one file** passes if the file is whole. -/
theorem Seg.verifyFile_run {g : Seg cat} (hcat : GoodCatalog cat) (h : g.Suffers t) (which : SegmentFile) :
    ∃ r, ((do
      let path ← Proc.lift (Layout.segmentFile cat.name g.id which)
      let found ← readFile path
      match found with
      | none => Proc.throw (.corruption (.missingSegment cat.name g.id))
      | some bytes => Proc.lift (formatAt path (verifyBlock bytes which.fileKind)) : Action S Unit) x).run device t = ((r, x), t) ∧
      (r = .ok () ↔ t.image .live (.segmentFile cat.name g.id which) = some (g.file which)) := by
  have hpath : Proc.Says device (Proc.lift (Layout.segmentFile cat.name g.id which)) x t (.segmentFile cat.name g.id which) :=
    Proc.Says.lift (Layout.under_ok hcat.name _)
  rw [Proc.run_bind hpath]
  rcases h which with hnone | ⟨d, hd, hburst⟩
  · rw [Proc.run_bind (readFile_run_none hnone), MemoryStorage.image_none hnone]
    exact ⟨_, rfl, ⟨fun hok => (by cases hok), fun hsome => (by cases hsome)⟩⟩
  · rw [Proc.run_bind (readFile_run hd), MemoryStorage.image_file hd]
    refine ⟨_, rfl, ?_⟩
    obtain ⟨payload, hlen, hblock⟩ := g.file_block which
    constructor
    · intro hok
      rw [hblock] at hburst ⊢
      refine congrArg some (eq_of_verifies hlen hburst ?_)
      show verifyBlock d.live which.fileKind = .ok ()
      cases hver : verifyBlock d.live which.fileKind with
      | ok u => rfl
      | error e =>
        rw [hver] at hok
        cases hok
    · intro hsame
      have hsame : d.live = g.file which := Option.some.inj hsame
      rw [hsame, hblock, verifyBlock_encodeBlock hlen]
      rfl

/-- **What the checksums say of one segment.** -/
inductive Alarm (level : VerifyLevel) (t : MemoryStorage) (g : Seg cat) : List Problem → Prop
  | quiet (h : level.readsFiles = true → OnDisk (t.image .live) g) : Alarm level t g []
  | raised (e : DbError) (hlevel : level.readsFiles = true) (h : ¬ OnDisk (t.image .live) g) :
      Alarm level t g [.checksum cat.name g.id e]

/-- **The checksums of a segment** raise an alarm if one of its files is damaged. -/
theorem Seg.checksumProblem_says {g : Seg cat} (hcat : GoodCatalog cat) (h : g.Suffers t) (level : VerifyLevel) :
    ∃ alarm, Proc.Says device (checksumProblem level cat.name g.data) x t alarm ∧ Alarm level t g alarm := by
  unfold checksumProblem
  cases hlevel : level.readsFiles with
  | false => exact ⟨_, Proc.Says.pure [], .quiet fun hread => by rw [hlevel] at hread; cases hread⟩
  | true =>
    obtain ⟨r, hrun, hverdict⟩ := Proc.forList_run (fun which _ => g.verifyFile_run (x := x) hcat h which) (l := SegmentFile.all)
    have htried : Proc.Says device (Proc.attempt (g.data.verifyChecksums cat.name)) x t r := Proc.attempt_says hrun
    cases r with
    | ok u => exact ⟨_, htried.bind (Proc.Says.pure []), .quiet fun _ which => hverdict.mp rfl which (by cases which <;> decide)⟩
    | error e =>
      refine ⟨_, htried.bind (Proc.Says.pure [Problem.checksum cat.name g.id e]), .raised e hlevel fun hdisk => ?_⟩
      have hok := hverdict.mpr fun which _ => hdisk which
      cases hok

end Checksums

/-! ## Rows -/

section Rows

variable {cat : Catalog} {collection : Str}

/-- **One row** of a segment raises no alarm, if its id was not seen in a live row before. -/
theorem Seg.rowProblems_clean (g : Seg cat) {seen : List DocId} {problems : List Problem} {row : Nat} {r : StoredRow}
    (hr : g.rows[row]? = some r) (hnew : g.tombstones.isLive row = true → r.id ∉ seen) :
    rowProblems collection g.data (seen, problems) row =
      (if g.tombstones.isLive row then r.id :: seen else seen, problems) := by
  have hid : g.data.idAt row = some r.id := by
    show (g.rows.map StoredRow.id)[row]? = some r.id
    rw [List.getElem?_map, hr]
    rfl
  unfold rowProblems
  rw [g.data_isLive]
  cases hlive : g.tombstones.isLive row with
  | false => rfl
  | true =>
    have hseen : seen.contains r.id = false := by
      rw [Bool.eq_false_iff]
      exact fun h => hnew hlive (List.contains_iff_mem.mp h)
    simp only [hid, hseen, g.metaRecord_data hr]
    show (r.id :: seen, problems ++ [] ++ []) = _
    rw [List.append_nil, List.append_nil]
    rfl

/-- **The rows of a segment** raise no alarm, if none of its live ids was seen before. What was seen then is what was seen
    before, and these. -/
theorem Seg.rows_clean (g : Seg cat) {seen : List DocId} {problems : List Problem}
    (hnew : ∀ r ∈ g.liveRows, r.id ∉ seen) {n : Nat} (hn : n ≤ g.rows.length) :
    ∃ seen', (List.range n).foldl (rowProblems collection g.data) (seen, problems) = (seen', problems) ∧
      ∀ id ∈ seen', id ∈ seen ∨ ∃ i r, i < n ∧ g.rows[i]? = some r ∧ g.tombstones.isLive i = true ∧ r.id = id := by
  induction n with
  | zero => exact ⟨seen, rfl, fun id hid => .inl hid⟩
  | succ n ih =>
    obtain ⟨seen', hfold, hseen⟩ := ih (by omega)
    have hr : g.rows[n]? = some g.rows[n] := List.getElem?_eq_getElem (by omega)
    rw [List.range_succ, List.foldl_append, hfold, List.foldl_cons, List.foldl_nil, g.rowProblems_clean hr ?_]
    · refine ⟨_, rfl, fun id hid => ?_⟩
      have hold : id ∈ seen' → id ∈ seen ∨
          ∃ i r, i < n + 1 ∧ g.rows[i]? = some r ∧ g.tombstones.isLive i = true ∧ r.id = id :=
        fun hmem => (hseen id hmem).imp_right fun ⟨i, r, hi, hrest⟩ => ⟨i, r, by omega, hrest⟩
      split at hid
      · rename_i hlive
        rcases List.mem_cons.mp hid with rfl | hmem
        · exact .inr ⟨n, _, by omega, hr, hlive, rfl⟩
        · exact hold hmem
      · exact hold hid
    · -- the id of a live row is in no row before it
      intro hlive hmem
      rcases hseen _ hmem with hbefore | ⟨i, r, hi, hri, -, hid⟩
      · exact hnew _ (mem_pick.mpr ⟨n, hr, hlive⟩) hbefore
      · have hrow : g.rowOf g.rows[n].id = some n := rowOf_eq_some.mpr ⟨_, hr, rfl⟩
        have hrow' : g.rowOf g.rows[n].id = some i := rowOf_eq_some.mpr ⟨r, hri, hid⟩
        rw [hrow] at hrow'
        have hsame := Option.some.inj hrow'
        omega

end Rows

/-! ## Segments -/

section Segments

variable {S : Type} {cat : Catalog} {x : S} {s t : MemoryStorage}

/-- **What was seen before the next segment** is in no live row of it, if no two segments share an id. -/
theorem Seg.seen_next (g : Seg cat) (level : VerifyLevel) {segs : List (Seg cat)} {seen : List DocId} (problems : List Problem)
    (hgnew : ∀ id ∈ seen, g.contents id = none) (hsnew : ∀ other ∈ segs, ∀ id ∈ seen, other.contents id = none)
    (hapart : ∀ c ∈ segs.map Seg.contents, ∀ id, g.contents id = none ∨ c id = none) :
    ∃ seen', (if level.readsRows then (List.range g.data.rows.toNat).foldl (rowProblems cat.name g.data) (seen, problems)
      else (seen, problems)) = (seen', problems) ∧ ∀ other ∈ segs, ∀ id ∈ seen', other.contents id = none := by
  cases level.readsRows with
  | false => exact ⟨seen, rfl, hsnew⟩
  | true =>
    have hlive : ∀ r ∈ g.liveRows, r.id ∉ seen := fun r hr hmem => by
      have hsome : g.contents r.id = some r.doc := Seg.contents_eq_some_iff_mem.mpr ⟨r, hr, rfl, rfl⟩
      rw [hgnew _ hmem] at hsome
      cases hsome
    obtain ⟨seen', hfold, hseen⟩ : ∃ seen', (List.range g.rows.length).foldl (rowProblems cat.name g.data)
        (seen, problems) = (seen', problems) ∧ _ := g.rows_clean hlive (le_refl _)
    refine ⟨seen', ?_, fun other hother id hid => ?_⟩
    · rw [if_pos rfl, g.data_rows, g.rows_toNat, hfold]
    · rcases hseen id hid with hbefore | ⟨i, r, -, hr, hl, rfl⟩
      · exact hsnew other hother id hbefore
      · rcases hapart _ (List.mem_map_of_mem hother) r.id with hnone | hnone
        · rw [Seg.contents_eq_some.mpr ⟨i, r, hr, hl, rfl, rfl⟩] at hnone
          cases hnone
        · exact hnone

/-- **The alarms of a list of segments**: each is of the checksums of a segment of it that is damaged, and there is one for each. -/
structure Alarms (level : VerifyLevel) (t : MemoryStorage) (segs : List (Seg cat)) (found : List Problem) : Prop where
  only : ∀ problem ∈ found, ∃ g ∈ segs, ∃ e, problem = .checksum cat.name g.id e ∧ ¬ OnDisk (t.image .live) g
  all : level.readsFiles = true → ∀ g ∈ segs, ¬ OnDisk (t.image .live) g → ∃ e, .checksum cat.name g.id e ∈ found

/-- **The segments of a collection** raise these alarms, and no others. -/
theorem verifySegments_says (hcat : GoodCatalog cat) (level : VerifyLevel) {segs : List (Seg cat)} {seen : List DocId}
    {problems : List Problem} (hfiles : ∀ g ∈ segs, g.Suffers t) (hapart : Separate (segs.map Seg.contents))
    (hnew : ∀ g ∈ segs, ∀ id ∈ seen, g.contents id = none) :
    ∃ found, Proc.Says device (verifySegments level cat.name (segs.map Seg.data) (seen, problems)) x t (problems ++ found) ∧
      Alarms level t segs found := by
  induction segs generalizing seen problems with
  | nil =>
    refine ⟨[], ?_, ⟨fun _ h => absurd h List.not_mem_nil, fun _ _ h => absurd h List.not_mem_nil⟩⟩
    rw [List.append_nil]
    exact Proc.Says.pure problems
  | cons g segs ih =>
    obtain ⟨hg, hrest⟩ := List.forall_mem_cons.mp hfiles
    obtain ⟨hfirst, hothers⟩ := List.pairwise_cons.mp hapart
    obtain ⟨hgnew, hsnew⟩ := List.forall_mem_cons.mp hnew
    obtain ⟨alarm, hanswers, halarm⟩ := g.checksumProblem_says (x := x) hcat hg level
    obtain ⟨seen', hacc, hseen'⟩ := g.seen_next level (problems ++ alarm) hgnew hsnew hfirst
    obtain ⟨found, hfound, honly, hall⟩ := @ih _ (problems ++ alarm) hrest hothers hseen'
    refine ⟨alarm ++ found, ?_, ?_, ?_⟩
    · rw [← List.append_assoc]
      refine hanswers.bind ?_
      show Proc.Says device (verifySegments level cat.name (segs.map Seg.data) (if level.readsRows then _ else _)) x t _
      rw [hacc]
      exact hfound
    · intro problem hmem
      rcases List.mem_append.mp hmem with hmem | hmem
      · cases halarm with
        | quiet h => exact absurd hmem List.not_mem_nil
        | raised e hlevel h => exact ⟨g, List.mem_cons_self, e, List.mem_singleton.mp hmem, h⟩
      · obtain ⟨other, hother, hrest⟩ := honly problem hmem
        exact ⟨other, List.mem_cons_of_mem _ hother, hrest⟩
    · intro hlevel other hother hdamaged
      rcases List.mem_cons.mp hother with rfl | hother
      · cases halarm with
        | quiet h => exact absurd (h hlevel) hdamaged
        | raised e _ h => exact ⟨e, List.mem_append_left _ List.mem_cons_self⟩
      · obtain ⟨e, he⟩ := hall hlevel other hother hdamaged
        exact ⟨e, List.mem_append_right _ he⟩

/-- Listing the segment files of a collection goes through. -/
theorem listSegmentIds_says {name : Str} (hname : checkCollectionName name = .ok ()) (hs : Shape s) :
    ∃ ids, Proc.Says device (listSegmentIds name) x s ids := by
  have hspec : Spec .live (listSegmentIds name) x s (fun _ x' t => x' = x ∧ t = s) (fun _ _ _ => True) (fun _ _ _ => True) :=
    listSegmentIds_spec hname hs (fun _ _ => ⟨rfl, rfl⟩) fun _ _ => trivial
  obtain ⟨ids, x', t, hrun, rfl, rfl⟩ := hspec.runs
  exact ⟨ids, hrun⟩

end Segments

/-! ## Collections -/

section Collections

variable {env : Env} {sel : Sel} {sess : Session} {s : MemoryStorage} {G D : Str → Option Ghost} {g : Ghost} {ops : List LogOp}
  {docs : DocMap}

/-- Rows are counted in the manifest as in the segments. -/
theorem sumRows_eq {refs : List SegmentRef} {segs : List SegmentData} (h : refs.map refKey = segs.map SegmentData.key) :
    Manifest.sumRows refs = UInt64.ofNat (segs.map (fun seg => seg.rows.toNat)).sum := by
  have hrefs : ∀ l : List SegmentRef, Manifest.sumRows l = UInt64.ofNat ((l.map refKey).map (fun k => k.2.toNat)).sum := by
    intro l
    induction l with
    | nil => rfl
    | cons r l ih =>
      have hone : r.rows.toUInt64 = UInt64.ofNat r.rows.toNat := (UInt64.ofNat_uInt32ToNat r.rows).symm
      have hrest : Manifest.sumRows (r :: l) = r.rows.toUInt64 + Manifest.sumRows l := rfl
      rw [hrest, ih, hone, ← UInt64.ofNat_add]
      rfl
  rw [hrefs, h, List.map_map]
  rfl

/-- A file of the segment is not what it was. -/
def Spoiled (s t : MemoryStorage) (name : Str) (id : UInt64) : Prop :=
  ∃ which, t.image .live (.segmentFile name id which) ≠ s.image .live (.segmentFile name id which)

/-- **The problems of a collection** are the checksums of the segments that are spoiled, where checksums are looked at. -/
structure Session.Tells (sess : Session) (level : VerifyLevel) (s t : MemoryStorage) (name : Str) (problems : List Problem) :
    Prop where
  only : ∀ problem ∈ problems, ∃ seg ∈ sess.segments, ∃ e, problem = .checksum name seg.id e ∧ Spoiled s t name seg.id
  all : level.readsFiles = true → ∀ seg ∈ sess.segments, Spoiled s t name seg.id → ∃ e, .checksum name seg.id e ∈ problems

/-- **What the verification of one collection finds**, against this entry. -/
def Session.Verified (sess : Session) (level : VerifyLevel) (s t : MemoryStorage) (e : CollectionEntry) : Prop :=
  ∃ found problems oddities, Proc.Says device (verifyCollection level) sess t (found, problems, oddities) ∧ found.name = e.name ∧
    found.liveDocuments = sess.count ∧ e.totalRows = UInt64.ofNat found.totalRows ∧ sess.Tells level s t e.name problems

/-- **Damage to segments**: files of theirs are gone, or altered within a window of 32 bits each. What else has changed does not
    matter. -/
structure Damage (s t : MemoryStorage) : Prop where
  shape : Shape t
  files : ∀ name id which bytes, s.image .live (.segmentFile name id which) = some bytes →
    t.get (.segmentFile name id which) = none ∨
      ∃ d, t.get (.segmentFile name id which) = some (.file d) ∧ Parsing.Differ 32 d.live bytes

theorem Damage.refl (hs : Shape s) : Damage s s := by
  refine ⟨hs, fun name id which bytes hbytes => .inr ?_⟩
  obtain ⟨d, hd, rfl⟩ := MemoryStorage.file_of_image hbytes
  exact ⟨d, hd, rfl, 0, fun _ _ => rfl⟩

/-- A file more is gone. -/
theorem Damage.erase (h : Damage s t) {path : DbPath} (hp : path.isDir = false) : Damage s (t.erase path) := by
  refine ⟨h.shape.erase_file hp, fun name id which bytes hbytes => ?_⟩
  by_cases hpath : DbPath.segmentFile name id which = path
  · subst hpath
    exact .inl (MemoryStorage.get_erase_self _ _)
  · rw [MemoryStorage.get_erase_ne _ hpath]
    exact h.files name id which bytes hbytes

/-- **A collection verifies** against the entry that lists it. -/
theorem State.verified (h : State env sel sess s G D g ops docs) (level : VerifyLevel) {t : MemoryStorage} (hdamage : Damage s t)
    {e : CollectionEntry} (hname : e.name = g.name) (hvalid : Manifest.validateEntry e = .ok ())
    (hkeys : e.segments.map refKey = sess.segments.map SegmentData.key) : sess.Verified level s t e := by
  obtain ⟨segs, hsegs, hlist⟩ := h.live.mem.segments
  have hs : sess.segments = segs.map Seg.data := hsegs
  have hsname : sess.name = g.cat.name := h.live.mem.session_name
  obtain ⟨-, hdisk⟩ := h.live.disk.named _ _ h.live.here
  have hfiles : ∀ seg ∈ segs, OnDisk (s.image .live) seg := fun seg hseg => by
    obtain ⟨hpool, hbelow⟩ := hlist.pooled seg hseg
    exact (hdisk.segments _ seg hbelow hpool).2
  obtain ⟨problems, hproblems, honly, hall⟩ : ∃ found, Proc.Says device
      (verifySegments level g.cat.name (segs.map Seg.data) ([], [])) sess t ([] ++ found) ∧ Alarms level t segs found :=
    verifySegments_says g.good level (fun seg hseg which => hdamage.files _ _ _ _ (hfiles seg hseg which)) hlist.separate
      fun _ _ _ hid => absurd hid List.not_mem_nil
  rw [← hs, ← hsname] at hproblems
  obtain ⟨ids, hids⟩ := listSegmentIds_says (x := sess) g.good.name hdamage.shape
  rw [← hsname] at hids
  have hspoiled : ∀ seg ∈ segs, ¬ OnDisk (t.image .live) seg ↔ Spoiled s t e.name seg.id := fun seg hseg => by
    unfold OnDisk Spoiled
    rw [not_forall, hname]
    refine exists_congr fun which => not_congr ?_
    rw [← hfiles seg hseg which]
    rfl
  refine ⟨_, _, _, Proc.Says.get_bind (hproblems.bind (hids.bind (Proc.Says.pure _))), hsname.trans hname.symm, rfl, ?_, ?_, ?_⟩
  · show e.totalRows = UInt64.ofNat (sess.segments.map (fun seg => seg.rows.toNat)).sum
    rw [← sumRows_eq hkeys]
    unfold Manifest.validateEntry at hvalid
    split_ifs at hvalid with hempty hascending htotal hcount
    exact not_not.mp htotal
  · intro problem hmem
    obtain ⟨seg, hseg, cause, rfl, hdamaged⟩ := honly problem hmem
    refine ⟨seg.data, by rw [hs]; exact List.mem_map_of_mem hseg, cause, ?_, (hspoiled seg hseg).mp hdamaged⟩
    rw [hname]
    rfl
  · intro hlevel data hdata hspoil
    rw [hs] at hdata
    obtain ⟨seg, hseg, rfl⟩ := List.mem_map.mp hdata
    obtain ⟨cause, hcause⟩ := hall hlevel seg hseg ((hspoiled seg hseg).mpr hspoil)
    rw [hname]
    exact ⟨cause, hcause⟩

end Collections

/-! ## Databases -/

namespace Database

/-- The same collections, under the same manifest. -/
structure Same (db db' : Database) : Prop where
  store : db'.store = db.store
  session : ∀ name, db'.session name = db.session name

theorem Same.refl (db : Database) : db.Same db := ⟨rfl, fun _ => rfl⟩

/-- A collection that did not change is taken back. -/
theorem Same.take {db db' : Database} (h : db.Same db') {name : Str} {sess : Session} (hsess : db'.session name = some sess) :
    db.Same (db'.take name sess) := by
  obtain ⟨coll, hlook, rfl⟩ := Option.map_eq_some_iff.mp hsess
  refine ⟨h.store, fun other => (?_ : _ = db'.session other).trans (h.session other)⟩
  by_cases hname : other = name
  · unfold Database.session Database.take
    rw [hname, AList.lookup_insert, hlook]
  · unfold Database.session Database.take
    rw [AList.lookup_insert_ne hname]

/-- **What a report says** of the collections under these entries: the problems of each, and how many documents it has. -/
structure Told (db : Database) (level : VerifyLevel) (s t : MemoryStorage) (entries : List CollectionEntry)
    (report : VerifyReport) : Prop where
  names : report.collections.map CollectionVerify.name = entries.map CollectionEntry.name
  counts : ∀ found ∈ report.collections, ∃ sess, db.session found.name = some sess ∧ found.liveDocuments = sess.count
  only : ∀ problem ∈ report.errors, ∃ e ∈ entries, ∃ sess, db.session e.name = some sess ∧ ∃ seg ∈ sess.segments, ∃ cause,
    problem = .checksum e.name seg.id cause ∧ Spoiled s t e.name seg.id
  all : level.readsFiles = true → ∀ e ∈ entries, ∀ sess, db.session e.name = some sess → ∀ seg ∈ sess.segments,
    Spoiled s t e.name seg.id → ∃ cause, .checksum e.name seg.id cause ∈ report.errors

/-- One entry more. -/
theorem Told.cons {db : Database} {level : VerifyLevel} {s t : MemoryStorage} {entries : List CollectionEntry}
    {report : VerifyReport} (h : db.Told level s t entries report) {e : CollectionEntry} {sess : Session}
    (hsess : db.session e.name = some sess) {found : CollectionVerify} {problems : List Problem} (hname : found.name = e.name)
    (hlive : found.liveDocuments = sess.count) (htells : sess.Tells level s t e.name problems) (warnings : List Oddity) :
    db.Told level s t (e :: entries) ⟨found :: report.collections, problems ++ report.errors, warnings⟩ := by
  constructor
  · show found.name :: report.collections.map _ = e.name :: entries.map _
    rw [hname, h.names]
  · intro f hf
    rcases List.mem_cons.mp hf with rfl | hf
    · exact ⟨sess, by rw [hname]; exact hsess, hlive⟩
    · exact h.counts f hf
  · intro problem hmem
    rcases List.mem_append.mp hmem with hmem | hmem
    · exact ⟨e, List.mem_cons_self, sess, hsess, htells.only problem hmem⟩
    · obtain ⟨e', he', hrest⟩ := h.only problem hmem
      exact ⟨e', List.mem_cons_of_mem _ he', hrest⟩
  · intro hlevel e' he' sess' hsess' seg hseg hspoiled
    rcases List.mem_cons.mp he' with rfl | he'
    · obtain rfl := Option.some.inj (hsess.symm.trans hsess')
      obtain ⟨cause, hcause⟩ := htells.all hlevel seg hseg hspoiled
      exact ⟨cause, List.mem_append_left _ hcause⟩
    · obtain ⟨cause, hcause⟩ := h.all hlevel e' he' sess' hsess' seg hseg hspoiled
      exact ⟨cause, List.mem_append_right _ hcause⟩

/-- **The entries of a manifest**, each against a collection that verifies. -/
theorem verifyEntries_run {level : VerifyLevel} {s t : MemoryStorage} {db db' : Database} {entries : List CollectionEntry}
    (h : ∀ e ∈ entries, ∃ sess, db.session e.name = some sess ∧ sess.Verified level s t e) (hsame : db.Same db') :
    ∃ report db'', (verifyEntries level entries db').run device t = ((.ok report, db''), t) ∧ db.Same db'' ∧
      db.Told level s t entries report := by
  induction entries generalizing db' with
  | nil =>
    exact ⟨_, db', rfl, hsame, rfl, fun _ h => absurd h List.not_mem_nil, fun _ h => absurd h List.not_mem_nil,
      fun _ _ h => absurd h List.not_mem_nil⟩
  | cons e rest ih =>
    obtain ⟨⟨sess, hsess, found, problems, oddities, hanswers, hname, hlive, htotal, htells⟩, hrest⟩ := List.forall_mem_cons.mp h
    have hsess' : db'.session e.name = some sess := (hsame.session _).trans hsess
    have hcollection : (onCollection e.name (verifyCollection level) db').run device t =
        ((.ok (found, problems, oddities), db'.take e.name sess), t) := by
      have hends : Ends device (verifyCollection level) sess t (fun r sess1 u =>
          (r, db'.take e.name sess1) = (.ok (found, problems, oddities), db'.take e.name sess) ∧ u = t) := by
        unfold Ends
        rw [hanswers]
        exact ⟨rfl, rfl⟩
      obtain ⟨hanswer, hstorage⟩ := onCollection_ends (Q := fun r db1 u =>
        (r, db1) = (.ok (found, problems, oddities), db'.take e.name sess) ∧ u = t) hsess' hends
      exact Prod.ext hanswer hstorage
    obtain ⟨others, db'', hrun, hsame', htold⟩ := ih hrest (hsame.take hsess')
    have hcompared : (compareCounters e found).1 = [] := if_neg (not_not.mpr htotal)
    refine ⟨⟨found :: others.collections, problems ++ (compareCounters e found).1 ++ others.errors,
      oddities ++ (compareCounters e found).2 ++ others.warnings⟩, db'', ?_, hsame', ?_⟩
    · unfold verifyEntries
      rw [Proc.run_bind hcollection]
      show ((verifyEntries level rest >>= _) _).run device t = _
      rw [Proc.run_bind hrun]
      rfl
    · rw [hcompared, List.append_nil]
      exact htold.cons hsess hname hlive htells _

end Database

/-- What a collection counts is the number of its documents. -/
theorem Session.Refines.count_eq_ncard {sess : Session} {docs : DocMap} (h : sess.Refines docs) :
    sess.count = Set.ncard {id | (docs id).isSome = true} := by
  have hset : {id | (docs id).isSome = true} = ↑sess.ids.toFinset := by
    ext id
    rw [List.coe_toFinset]
    exact (h.ids id).symm
  have hnodup : sess.ids.Nodup := h.sorted.imp fun hlt => ne_of_lt hlt
  rw [hset, Set.ncard_coe_finset, List.toFinset_card_of_nodup hnodup, h.count]

/-- **A report** that lists each of the collections once and counts its documents. -/
structure VerifyReport.Counts (report : VerifyReport) (M : Str → Option DocMap) : Prop where
  once : (report.collections.map CollectionVerify.name).Nodup
  all : ∀ name, name ∈ report.collections.map CollectionVerify.name ↔ (M name).isSome = true
  counts : ∀ found ∈ report.collections, ∃ docs, M found.name = some docs ∧
    found.liveDocuments = Set.ncard {id | (docs id).isSome = true}

/-- **The errors of a report** are the checksums of the spoiled segments of the database. -/
structure VerifyReport.Exact (report : VerifyReport) (db : Database) (s t : MemoryStorage) : Prop where
  only : ∀ problem ∈ report.errors, ∃ name sess, db.session name = some sess ∧ ∃ seg ∈ sess.segments, ∃ cause,
    problem = .checksum name seg.id cause ∧ Spoiled s t name seg.id
  all : ∀ name sess, db.session name = some sess → ∀ seg ∈ sess.segments, Spoiled s t name seg.id →
    ∃ cause, .checksum name seg.id cause ∈ report.errors

section Sites

variable {sel : Sel} {invNorm : InvNorm} {p : Site} {G : Str → Option Ghost} {t : MemoryStorage}

/-- **A site whose manifest lists its segments** verifies, whatever damage has come to them. -/
theorem Site.Stands.verify (h : p.Stands sel invNorm G) (hlists : p.db.Lists) (level : VerifyLevel) (hdamage : Damage p.storage t) :
    ∃ report db', (Database.verify level p.db).run device t = ((.ok report, db'), t) ∧ p.db.Same db' ∧
      report.Counts (docsOf G) ∧ p.db.Told level p.storage t p.db.store.current.collections report := by
  have hstate := h.state 0
  obtain ⟨hnodup, hvalid, -⟩ := (writable_iff _).mp hstate.live.slots.writable
  obtain ⟨hentries, hnamed⟩ := hstate.live.entries _ (.inl rfl)
  have hverified : ∀ e ∈ p.db.store.current.collections, ∃ sess, p.db.session e.name = some sess ∧
      sess.Verified level p.storage t e := by
    intro e he
    obtain ⟨g, hg, -⟩ := hentries e he
    obtain ⟨sess, hsess, -, -⟩ := h.refines hg
    obtain ⟨g', hname, hst⟩ := h.session hsess 0
    -- the entry is the only one of its name
    obtain ⟨-, e', he', hkeys⟩ := hlists _ sess hsess
    rw [((h.state 0).session hsess).2.1] at he'
    obtain rfl : e' = e := by
      unfold Manifest.collection at he'
      have hsame := List.find?_some he'
      exact List.inj_on_of_nodup_map hnodup (List.mem_of_find?_eq_some he') he (of_decide_eq_true hsame)
    exact ⟨sess, hsess, hst.verified level hdamage hname.symm (hvalid e' he).valid hkeys⟩
  obtain ⟨report, db', hrun, hsame, htold⟩ := Database.verifyEntries_run hverified (Database.Same.refl p.db)
  obtain ⟨dirs, hdirs, -⟩ := listCollectionDirs_says (x := db') hdamage.shape
  set unnamed := (dirs.filter (fun path => ¬ (p.db.store.current.collections.map
    (fun entry => DbPath.collectionDir entry.name)).contains path)).map Oddity.unnamedDirectory
  have hverify : (Database.verify level p.db).run device t =
      ((.ok ⟨report.collections, report.errors, report.warnings ++ unnamed⟩, db'), t) := by
    unfold Database.verify
    show ((Database.verifyEntries level p.db.store.current.collections >>= _) p.db).run device t = _
    rw [Proc.run_bind hrun]
    exact Proc.run_bind hdirs
  refine ⟨_, db', hverify, hsame, ⟨?_, fun name => ?_, fun found hmem => ?_⟩, htold.names, htold.counts, htold.only, htold.all⟩
  · show (report.collections.map _).Nodup
    rw [htold.names]
    exact hnodup
  · show name ∈ report.collections.map _ ↔ _
    rw [htold.names]
    unfold docsOf
    rw [Option.isSome_map]
    constructor
    · intro hmem
      obtain ⟨e, he, rfl⟩ := List.mem_map.mp hmem
      obtain ⟨g, hg, -⟩ := hentries e he
      rw [hg]
      rfl
    · intro hsome
      obtain ⟨e, he, rfl⟩ := hnamed name hsome
      exact List.mem_map_of_mem he
  · obtain ⟨sess, hsess, hcount⟩ := htold.counts found hmem
    obtain ⟨g, hname, hst⟩ := h.session hsess 0
    have hg : G found.name = some g := hname ▸ hst.live.here
    refine ⟨g.docs, ?_, hcount.trans hst.live.mem.refines.count_eq_ncard⟩
    unfold docsOf
    rw [hg]
    rfl

end Sites

section Runs

variable {invNorm : InvNorm} {p : Site} {M : Str → Option DocMap}

/-- **Verification raises no false alarm.** After every run in which no call fails, it goes through at every level, only
    reads, and finds no damage. -/
theorem Run.verifies (h : Run (fun _ => True) Edit.Fits invNorm p M) (level : VerifyLevel) :
    ∃ report db', (Database.verify level p.db).run device p.storage = ((.ok report, db'), p.storage) ∧ p.db.Same db' ∧
      report.errors = [] ∧ report.Counts M := by
  have hlive : ∀ c : Config, True → Sel.live = .live ∨ c.durability = .full := fun _ _ => .inl rfl
  obtain ⟨G, hst, rfl⟩ := h.stands hlive fun _ _ _ hfits => hfits
  obtain ⟨report, db', hrun, hsame, hcounts, htold⟩ := hst.verify (h.lists hlive) level (Damage.refl (hst.state 0).shape)
  refine ⟨report, db', hrun, hsame, List.eq_nil_iff_forall_not_mem.mpr fun problem hmem => ?_, hcounts⟩
  obtain ⟨e, -, sess, -, seg, -, cause, -, which, hspoiled⟩ := htold.only problem hmem
  exact hspoiled rfl

/-- **Verification misses no burst.** Where files of segments are gone after a run, or altered within a window of 32 bits each, it
    reports exactly the segments whose files these are, at every level that reads files. -/
theorem Run.finds_damage (h : Run (fun _ => True) Edit.Fits invNorm p M) {t : MemoryStorage} (hdamage : Damage p.storage t)
    {level : VerifyLevel} (hlevel : level.readsFiles = true) :
    ∃ report db', (Database.verify level p.db).run device t = ((.ok report, db'), t) ∧ p.db.Same db' ∧
      report.Exact p.db p.storage t := by
  have hlive : ∀ c : Config, True → Sel.live = .live ∨ c.durability = .full := fun _ _ => .inl rfl
  obtain ⟨G, hst, rfl⟩ := h.stands hlive fun _ _ _ hfits => hfits
  obtain ⟨report, db', hrun, hsame, -, htold⟩ := hst.verify (h.lists hlive) level hdamage
  refine ⟨report, db', hrun, hsame, fun problem hmem => ?_, fun name sess hsess seg hseg hspoiled => ?_⟩
  · obtain ⟨e, -, sess, hsess, hrest⟩ := htold.only problem hmem
    exact ⟨e.name, sess, hsess, hrest⟩
  · obtain ⟨g, rfl, hstate⟩ := hst.session hsess 0
    obtain ⟨-, hnamed⟩ := (hst.state 0).live.entries _ (.inl rfl)
    obtain ⟨e, he, hname⟩ := hnamed g.name (by rw [hstate.live.here]; rfl)
    rw [← hname] at hsess hspoiled ⊢
    exact htold.all hlevel e he sess hsess seg hseg hspoiled

end Runs

/-- A collection with one document, whose put is in the log only. -/
theorem verifies_put : ∃ report db', (Database.verify .full putSite.db).run device putSite.storage =
    ((.ok report, db'), putSite.storage) ∧ report.errors = [] := by
  obtain ⟨M, docs, hrun, -⟩ := putSite_run
  obtain ⟨report, db', hverify, -, herrors, -⟩ := hrun.verifies .full
  exact ⟨report, db', hverify, herrors⟩

/-- The vectors of the one segment of a collection are gone: verification raises an alarm. -/
theorem finds_damage_erased : ∃ report db', (Database.verify .checksums flushSite.db).run device
      (flushSite.storage.erase (.segmentFile theSpec.name 1 .vectors)) =
      ((.ok report, db'), flushSite.storage.erase (.segmentFile theSpec.name 1 .vectors)) ∧
    ∃ cause, .checksum theSpec.name 1 cause ∈ report.errors := by
  obtain ⟨M, docs, hrun, -⟩ := flushSite_run
  have hlive : ∀ c : Config, True → Sel.live = .live ∨ c.durability = .full := fun _ _ => .inl rfl
  obtain ⟨G, hst, -⟩ := hrun.stands hlive fun _ _ _ hfits => hfits
  have hdamage : Damage flushSite.storage (flushSite.storage.erase (.segmentFile theSpec.name 1 .vectors)) :=
    (Damage.refl (hst.state 0).shape).erase rfl
  obtain ⟨report, db', hverify, -, hexact⟩ := hrun.finds_damage hdamage (show VerifyLevel.checksums.readsFiles = true from rfl)
  have hmade : (flushSite.db.session theSpec.name).map (fun s => s.segments.map SegmentData.id) = some [1] := by decide +kernel
  obtain ⟨sess, hsess, hids⟩ := Option.map_eq_some_iff.mp hmade
  have hfile : (flushSite.storage.image .live (.segmentFile theSpec.name 1 .vectors)).isSome = true := by decide +kernel
  obtain ⟨seg, hseg, hid⟩ := List.mem_map.mp (hids ▸ List.mem_cons_self : (1 : UInt64) ∈ sess.segments.map SegmentData.id)
  obtain ⟨cause, hcause⟩ := hexact.all _ _ hsess seg hseg ⟨.vectors, fun hsame => by
    rw [hid, MemoryStorage.image_none (MemoryStorage.get_erase_self _ _)] at hsame
    rw [← hsame] at hfile
    cases hfile⟩
  exact ⟨report, db', hverify, cause, hid ▸ hcause⟩

end IshaVectorDb.Engine
