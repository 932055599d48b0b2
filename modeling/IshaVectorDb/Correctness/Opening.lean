import IshaVectorDb.Correctness.Writes

/-!
# `Correctness.Opening` — **opening** what a database left

A database at rest (`AtRest`) is opened collection by collection. Clearing away orphans takes from the pool what the
entry does not name (`DiskInv.referenced`), the named segments are read, the log is replayed over them, and the log's
file is made if it is not there. An open changes no document, neither where it succeeds (`openCollections_spec`) nor
where the process dies in it.
-/

namespace IshaVectorDb.Engine

open Format Interaction KeyLog

/-! ## Orphans -/

theorem mem_destutter'_ne {α : Type} [DecidableEq α] {a b : α} {l : List α} :
    a ∈ l.destutter' (· ≠ ·) b ↔ a = b ∨ a ∈ l := by
  induction l generalizing b with
  | nil => simp
  | cons c l ih =>
    by_cases hbc : b = c
    · subst hbc
      rw [List.destutter'_cons_neg _ (not_not.mpr rfl), ih, List.mem_cons]
      tauto
    · rw [List.destutter'_cons_pos _ hbc, List.mem_cons, ih, List.mem_cons]

/-- Dropping repetitions loses no element. -/
theorem mem_destutter_ne {α : Type} [DecidableEq α] {a : α} {l : List α} : a ∈ l.destutter (· ≠ ·) ↔ a ∈ l := by
  cases l with
  | nil => rfl
  | cons b l =>
    rw [List.destutter_cons', mem_destutter'_ne, List.mem_cons]

/-- A file of a segment that the list does not name. -/
def Orphan (name : Str) (named : List UInt64) (p : DbPath) : Prop :=
  ∃ id which, p = .segmentFile name id which ∧ id ∉ named

/-- What clearing away leaves. -/
structure OrphansGone (name : Str) (named : List UInt64) (s t : MemoryStorage) : Prop where
  shape : Shape t
  gone : ∀ p, Orphan name named p → t.get p = none
  other : ∀ p, ¬ Orphan name named p → t.get p = s.get p

section Clearing

variable {S : Type} {sel : Sel} {x : S} {s : MemoryStorage} {name : Str} {K : Call → Nat → Image → Prop}

/-- **Listing finds every segment that has a file.** -/
theorem listSegmentIds_spec (hname : checkCollectionName name = .ok ()) {Q : List UInt64 → S → MemoryStorage → Prop}
    (hs : Shape s) (hQ : ∀ ids, (∀ id which, (s.get (.segmentFile name id which)).isSome = true → id ∈ ids) → Q ids x s)
    (hK : ∀ c n, K c n (s.image sel)) : Spec sel (listSegmentIds name) x s Q K (fun _ _ _ => True) := by
  refine Triple.bind (Triple.lift (Layout.under_ok hname _) ?_)
  refine Triple.bind (read_spec (G := fun _ _ _ => True) hs trivial (step_metadata _ s) ?_ (hK _) trivial)
  cases hd : s.get (.segmentsDir name) with
  | none =>
    rw [metadata_none hd]
    refine Triple.pure (hQ [] (fun id which hsome => ?_))
    -- without the directory there are no files in it
    obtain ⟨e, he⟩ := Option.isSome_iff_exists.mp hsome
    have hparent := hs.nested _ e he
    rw [show (DbPath.segmentFile name id which).parent = .segmentsDir name from rfl, hd] at hparent
    cases hparent
  | some e =>
    cases e with
    | file d => exact absurd (hs.dirs _ d hd) (fun h => Bool.noConfusion h)
    | dir =>
      have hmeta : s.metadata (.segmentsDir name) = some 0 := by unfold MemoryStorage.metadata; rw [hd]
      obtain ⟨paths, hpaths⟩ := MemoryStorage.listDir_ok hd
      have hstep : device.step (.listDir (.segmentsDir name)) s = (.ok paths, s) := by
        show (MemoryStorage.listDir s _, s) = _
        rw [hpaths]
      rw [hmeta]
      refine Triple.bind (read_spec (G := fun _ _ _ => True) hs trivial hstep ?_ (hK _) trivial)
      refine Triple.pure (hQ _ (fun id which hsome => ?_))
      rw [mem_destutter_ne, List.mem_insertionSort, List.mem_filterMap]
      exact ⟨_, (MemoryStorage.mem_listDir hpaths).mpr ⟨hsome, DbPath.noConfusion, rfl⟩, rfl⟩

/-- **Clearing away** removes what the list does not name, and nothing else. -/
theorem removeOrphans_spec (hname : checkCollectionName name = .ok ()) {named : List UInt64}
    {Q : Unit → S → MemoryStorage → Prop} (hs : Shape s) (hQ : ∀ t, OrphansGone name named s t → Q () x t)
    (hK : ∀ c n img, Off (Orphan name named) (s.image sel) img → K c n img) :
    Spec sel (removeOrphans name named) x s Q K (fun _ _ _ => True) := by
  refine Triple.bind (listSegmentIds_spec hname hs (fun ids hids => ?_) (fun c n => hK c n _ (Off.refl _ _)))
  refine (Triple.forList (fun done x' t => x' = x ∧ Shape t ∧
    (∀ id ∈ done, id ∉ named → ∀ which, t.get (.segmentFile name id which) = none) ∧
    (∀ p, ¬ Orphan name named p → t.get p = s.get p) ∧ ∀ p, s.get p = none → t.get p = none) ids ?_
    ⟨rfl, hs, nofun, fun _ _ => rfl, fun _ h => h⟩).conseq ?_
  · rintro done id rest x' t - ⟨rfl, ht, hdone, hother, hnone⟩
    have hoff : Off (Orphan name named) (s.image sel) (t.image sel) := image_of_get hother sel
    by_cases hmem : named.contains id = true
    · rw [if_pos hmem]
      refine Triple.pure ⟨rfl, ht, fun id' hid' hno which => ?_, hother, hnone⟩
      rcases List.mem_append.mp hid' with hid' | hid'
      · exact hdone id' hid' hno which
      · obtain rfl := List.mem_singleton.mp hid'
        exact absurd (List.contains_iff_mem.mp hmem) hno
    · rw [if_neg hmem]
      have hid : id ∉ named := fun h => hmem (List.contains_iff_mem.mpr h)
      have horphan : ∀ p, OfSegment name id p → Orphan name named p := fun p ⟨which, hp⟩ => ⟨id, which, hp, hid⟩
      refine removeSegment_spec (G := fun _ _ _ => True) hname ht (fun u hu => ?_) (fun c n img h => hK c n img (hoff.trans (h.mono horphan)))
        (fun _ _ _ _ => trivial)
      have hgone : ∀ which, u.get (.segmentFile name id which) = none := fun which => by
        have himg := hu.gone which .live
        rcases hu.shape.file_or_none (show (DbPath.segmentFile name id which).isDir = false from rfl) with ⟨d, hd⟩ | hn
        · rw [MemoryStorage.image_file hd] at himg; cases himg
        · exact hn
      refine ⟨rfl, hu.shape, fun id' hid' hno which => ?_, fun p hp => ?_, fun p hp => ?_⟩
      · by_cases hsame : id' = id
        · rw [hsame]; exact hgone which
        · rcases List.mem_append.mp hid' with hid' | hid'
          · rw [hu.other _ (fun ⟨_, he⟩ => hsame (DbPath.segmentFile.inj he).2.1)]
            exact hdone id' hid' hno which
          · exact absurd (List.mem_singleton.mp hid') hsame
      · rw [hu.other p (fun h => hp (horphan p h))]; exact hother p hp
      · by_cases hp' : OfSegment name id p
        · obtain ⟨which, rfl⟩ := hp'
          exact hgone which
        · rw [hu.other p hp']; exact hnone p hp
  · rintro _ x' t ⟨rfl, ht, hdone, hother, hnone⟩
    refine hQ t ⟨ht, ?_, hother⟩
    rintro p ⟨id, which, rfl, hno⟩
    cases hg : s.get (.segmentFile name id which) with
    | none => exact hnone _ hg
    | some e => exact hdone id (hids id which (by rw [hg]; rfl)) hno which

end Clearing

/-! ## The segments that an entry names -/

theorem foldl_max_ge (l : List SegmentRef) (b : UInt64) :
    b.toNat ≤ (l.foldl (fun best s => if best < s.id then s.id else best) b).toNat ∧
      ∀ r ∈ l, r.id.toNat ≤ (l.foldl (fun best s => if best < s.id then s.id else best) b).toNat := by
  induction l generalizing b with
  | nil => exact ⟨le_rfl, nofun⟩
  | cons r l ih =>
    rw [List.foldl_cons]
    obtain ⟨h1, h2⟩ := ih (if b < r.id then r.id else b)
    have hb : b.toNat ≤ (if b < r.id then r.id else b).toNat ∧ r.id.toNat ≤ (if b < r.id then r.id else b).toNat := by
      split
      · rename_i h
        exact ⟨(UInt64.lt_iff_toNat_lt.mp h).le, le_rfl⟩
      · rename_i h
        exact ⟨le_rfl, by rw [UInt64.lt_iff_toNat_lt] at h; omega⟩
    exact ⟨le_trans hb.1 h1, List.forall_mem_cons.mpr ⟨le_trans hb.2 h1, h2⟩⟩

theorem foldl_max_lt {l : List SegmentRef} {b : UInt64} {n : Nat} (hb : b.toNat < n) (hl : ∀ r ∈ l, r.id.toNat < n) :
    (l.foldl (fun best s => if best < s.id then s.id else best) b).toNat < n := by
  induction l generalizing b with
  | nil => exact hb
  | cons r l ih =>
    rw [List.foldl_cons]
    obtain ⟨hr, hl⟩ := List.forall_mem_cons.mp hl
    refine ih ?_ hl
    split
    · exact hr
    · exact hb

/-- **The first free id** is above every id in use, and not above a bound on them. -/
theorem firstFreeId_spec {refs : List SegmentRef} {n : Nat} (h0 : 0 < n) (hn : n < 2 ^ 64) (h : ∀ r ∈ refs, r.id.toNat < n) :
    (∀ r ∈ refs, r.id.toNat < (firstFreeId refs).toNat) ∧ (firstFreeId refs).toNat ≤ n := by
  have hlt := foldl_max_lt (b := 0) h0 h
  have hge := (foldl_max_ge refs 0).2
  have hone : (firstFreeId refs).toNat = (refs.foldl (fun (best : UInt64) (s : SegmentRef) => if best < s.id then s.id else best) 0).toNat + 1 := by
    unfold firstFreeId
    rw [UInt64.toNat_add]
    exact Nat.mod_eq_of_lt (by
      have h1 : (1 : UInt64).toNat = 1 := rfl
      omega)
  exact ⟨fun r hr => by have := hge r hr; omega, by omega⟩

/-- The collection with the segments that the list names, and no others. -/
def Ghost.referenced (g : Ghost) (refs : List SegmentRef) : Ghost :=
  { g with pool := fun id => if id ∈ refs.map SegmentRef.id then g.pool id else none
           next := (firstFreeId refs).toNat
           bound := (firstFreeId refs).toNat_lt }

section Referenced

variable {g : Ghost} {refs : List SegmentRef}

@[simp] theorem Ghost.referenced_name : (g.referenced refs).name = g.name := rfl

@[simp] theorem Ghost.referenced_ops : (g.referenced refs).ops = g.ops := rfl

@[simp] theorem Ghost.referenced_docs : (g.referenced refs).docs = g.docs := rfl

theorem Ghost.referenced_pool {id : UInt64} (h : id ∈ refs.map SegmentRef.id) : (g.referenced refs).pool id = g.pool id :=
  if_pos h

/-- The entry stands for the same documents. -/
theorem EntryInv.referenced {e : CollectionEntry} (h : EntryInv g e) : EntryInv (g.referenced e.segments) e :=
  ⟨h.names.congr (fun _ hr => Ghost.referenced_pool (List.mem_map_of_mem hr)),
    (firstFreeId_spec (n := max g.next 1) (by omega) (by have := g.bound; omega)
      (fun r hr => lt_of_lt_of_le (h.below r hr) (le_max_left _ _))).1⟩

/-- **A database whose manifest names these segments** may forget the others. -/
theorem DiskInv.referenced {img : Image} {store : ManifestStore} {G : Str → Option Ghost} (h : DiskInv img store G)
    (hstale : Stale store.current (img (.manifest store.slot.other))) (hg : G g.name = some g)
    {e : CollectionEntry} (he : e ∈ store.current.collections) (hname : e.name = g.name) :
    DiskInv img store (Function.update G g.name (some (g.referenced e.segments))) := by
  have hcoll := h.collDisk hg
  have hentry := h.entryInv hg (.inl rfl) he hname
  obtain ⟨hn, -, -⟩ := (writable_iff _).mp h.slots.writable
  refine h.step (t := g.referenced e.segments) (fun _ => rfl) (Off.refl _ _) ⟨hcoll.catalog, hcoll.log, hcoll.few, ?_⟩
    (by rw [Ghost.referenced_name, hg]; rfl) ?_
  · intro id seg _ hseg
    have hseg : (if id ∈ e.segments.map SegmentRef.id then g.pool id else none) = some seg := hseg
    split at hseg
    · rename_i hid
      obtain ⟨r, hr, rfl⟩ := List.mem_map.mp hid
      exact hcoll.segments r.id seg (hentry.below r hr) hseg
    · cases hseg
  · intro m hm e' he' hname'
    obtain rfl := candidate_of_stale hstale hm
    -- a manifest has one entry for each name
    obtain rfl : e' = e := List.inj_on_of_nodup_map hn he' he (hname'.trans hname.symm)
    exact hentry.referenced

/-- The segment that a manifest's reference stands for. -/
structure Stands (img : Image) (g : Ghost) (r : SegmentRef) (seg : Seg g.cat) : Prop where
  pooled : g.pool r.id = some seg
  id : seg.id = r.id
  rows : r.rows = UInt32.ofNat seg.rows.length
  disk : OnDisk img seg

/-- Every reference of an entry stands for a segment. -/
theorem EntryInv.stands {img : Image} {e : CollectionEntry} (h : EntryInv g e) (hd : CollDisk img g) :
    ∃ segs, List.Forall₂ (Stands img g) e.segments segs := by
  suffices H : ∀ l : List SegmentRef, (∀ r ∈ l, r ∈ e.segments) → ∃ segs, List.Forall₂ (Stands img g) l segs from
    H _ (fun _ hr => hr)
  intro l
  induction l with
  | nil => exact fun _ => ⟨[], .nil⟩
  | cons r l ih =>
    intro hmem
    obtain ⟨hr, hl⟩ := List.forall_mem_cons.mp hmem
    obtain ⟨segs, hsegs⟩ := ih hl
    obtain ⟨seg, hseg, hrows⟩ := h.names.present r hr
    obtain ⟨hid, hdisk⟩ := hd.segments r.id seg (h.below r hr) hseg
    exact ⟨seg :: segs, .cons ⟨hseg, hid, hrows, hdisk⟩ hsegs⟩

/-- A manifest that passes its checks names segments in ascending order. -/
theorem pairwise_of_ascending {last : Option UInt64} {l : List SegmentRef} (h : Manifest.ascending last l = true) :
    (∀ prev ∈ last, ∀ r ∈ l, prev.toNat < r.id.toNat) ∧ l.Pairwise (fun a b => a.id.toNat < b.id.toNat) := by
  induction l generalizing last with
  | nil => exact ⟨fun _ _ => nofun, .nil⟩
  | cons r l ih =>
    unfold Manifest.ascending at h
    rw [Bool.and_eq_true] at h
    obtain ⟨hlast, hrest⟩ := h
    obtain ⟨hbelow, hpair⟩ := ih hrest
    have hr := hbelow r.id rfl
    refine ⟨fun prev hprev => ?_, List.pairwise_cons.mpr ⟨hr, hpair⟩⟩
    obtain rfl := Option.mem_def.mp hprev
    have hlt : prev.toNat < r.id.toNat := UInt64.lt_iff_toNat_lt.mp (of_decide_eq_true hlast)
    exact List.forall_mem_cons.mpr ⟨hlt, fun r' hr' => hlt.trans (hr r' hr')⟩

theorem EntryOk.ascending {e : CollectionEntry} (h : EntryOk e) : Manifest.ascending none e.segments = true := by
  have hv := h.valid
  unfold Manifest.validateEntry at hv
  split at hv
  · cases hv
  · split at hv
    · cases hv
    · rename_i hasc; exact not_not.mp hasc

/-- What ascends in a list of references ascends in the segments they stand for. -/
theorem stands_pairwise {img : Image} {l : List SegmentRef} {segs : List (Seg g.cat)} (hs : List.Forall₂ (Stands img g) l segs)
    (hl : l.Pairwise (fun a b => a.id.toNat < b.id.toNat)) : segs.Pairwise (fun a b => a.id.toNat < b.id.toNat) := by
  induction hs with
  | nil => exact .nil
  | @cons r seg l segs hst hrest ih =>
    obtain ⟨hr, hl⟩ := List.pairwise_cons.mp hl
    refine List.pairwise_cons.mpr ⟨fun seg' hseg' => ?_, ih hl⟩
    obtain ⟨r', hr', hst'⟩ := exists_of_forall₂ hrest.flip hseg'
    rw [hst.id, hst'.id]; exact hr r' hr'

/-- **The segments of an entry, read back, are the collection's.** -/
theorem EntryInv.segList {img : Image} {e : CollectionEntry} (h : EntryInv g e) (hok : EntryOk e) {segs : List (Seg g.cat)}
    (hs : List.Forall₂ (Stands img g) e.segments segs) : SegList g segs := by
  refine ⟨fun seg hseg => ?_, stands_pairwise hs (pairwise_of_ascending hok.ascending).2, h.names.regenerate ?_⟩
  · obtain ⟨r, hr, hst⟩ := exists_of_forall₂ hs.flip hseg
    rw [hst.id]
    exact ⟨hst.pooled, h.below r hr⟩
  · exact List.forall₂_map_left_iff.mpr (hs.flip.imp (fun seg r hst => ⟨hst.id, hst.rows.symm⟩))

end Referenced

/-! ## The parts of an open -/

section Parts

variable {S : Type} {sel : Sel} {x : S} {s : MemoryStorage} {cat : Catalog} {K : Call → Nat → Image → Prop}

/-- **Reading a collection's specification.** -/
theorem readCatalog_spec (hcat : GoodCatalog cat) (hs : Shape s)
    (hfile : s.image .live (.catalog cat.name) = some (encodeBlock .catalog cat.payload)) {Q : Catalog → S → MemoryStorage → Prop}
    (hQ : Q cat x s) (hK : ∀ c n, K c n (s.image sel)) : Spec sel (readCatalog cat.name) x s Q K (fun _ _ _ => True) := by
  have hdecode : formatAt (.catalog cat.name) (Catalog.decode (encodeBlock .catalog cat.payload)) = .ok cat := by
    have hd := Catalog.decode_encode hcat.writable []
    rw [List.append_nil] at hd
    rw [hd]; rfl
  refine Triple.bind (Triple.lift (Layout.under_ok hcat.name _) ?_)
  refine Triple.bind (readFile_spec (G := fun _ _ _ => True) hs rfl ?_ hK (fun _ _ _ => trivial))
  rw [hfile]
  exact Triple.lift hdecode hQ

/-- An empty log holds no writes. -/
theorem LogHolds.of_nil {ops : List LogOp} (h : LogHolds cat [] ops) : ops = [] := by
  obtain ⟨frames, hb, -, -, hrec⟩ := h
  have hframes : frames = [] := by
    have hlen := length_le_framesBytes frames
    rw [← hb] at hlen
    exact List.length_eq_zero_iff.mp (Nat.le_zero.mp hlen)
  subst hframes
  exact List.forall₂_nil_left_iff.mp hrec

/-- **Replaying the log** gives the memtable of its writes, and finds nothing to repair. -/
theorem replayInto_spec {invNorm : InvNorm} {ops : List LogOp} (hs : Shape s)
    (hlog : LogHolds cat ((s.image .live).log cat.name) ops) {Q : ReplayReport × Memtable → S → MemoryStorage → Prop}
    (hQ : ∀ report, report.truncatedTail = false → Q (report, Memtable.ofOps invNorm cat.dimension ops) x s)
    (hK : ∀ c n, K c n (s.image sel)) :
    Spec sel (replayInto invNorm (.walFile cat.name 1) cat.idKind (Memtable.new cat.dimension .f32)) x s Q K
      (fun _ _ _ => True) := by
  refine Triple.bind (readFile_spec (G := fun _ _ _ => True) hs rfl ?_ hK (fun _ _ _ => trivial))
  unfold Image.log at hlog
  cases hfile : s.image .live (.walFile cat.name 1) with
  | none =>
    rw [hfile] at hlog
    obtain rfl := LogHolds.of_nil hlog
    exact Triple.pure (hQ ⟨0, 0, 0, 0, false⟩ rfl)
  | some bytes =>
    rw [hfile] at hlog
    obtain ⟨report, htail, hreplay⟩ := replayScan_of invNorm hlog (.walFile cat.name 1)
    exact Triple.lift hreplay (hQ report htail)

/-- **Opening a log that may not be there.** -/
theorem openLog_spec {path : DbPath} {first : UInt64} {mode : Durability} {Q : WalWriter → S → MemoryStorage → Prop}
    (hs : Shape s) (hp : path.isDir = false) (hparent : s.get path.parent = some .dir)
    (hQ : ∀ t bytes, Shape t → MemoryStorage.SameOff path s t → t.image .live path = some bytes → bytes = (s.image .live path).getD [] →
      (∀ sel, t.image sel = s.image sel ∨ s.get path = none ∧ t.image sel = Function.update (s.image sel) path (some [])) →
      Q ⟨⟨path, true⟩, path, first, 1, bytes.length, mode, false⟩ x t)
    (hold : ∀ c n, K c n (s.image sel))
    (hnew : s.get path = none → ∀ c n, K c n (Function.update (s.image sel) path (some []))) :
    Spec sel (WalWriter.open path first mode) x s Q K (fun _ _ _ => True) := by
  rcases hs.file_or_none hp with ⟨d, hd⟩ | hnone
  · have himg := MemoryStorage.image_file hd .live
    exact WalWriter.open_spec hs hd (hQ s d.live hs (.refl _ _) himg (by rw [himg]; rfl) (fun _ => .inl rfl)) hold
      (fun _ _ => trivial)
  · obtain ⟨t, d, hopen, hd, hcase, -⟩ := step_create hs hp hparent
    obtain ⟨-, rfl, rfl⟩ := hcase.resolve_left (fun h => by rw [h, hnone] at hd; cases hd)
    have hshape := hs.put_file hp hparent ⟨[], []⟩
    have himg : ∀ sel, (s.put path (.file ⟨[], []⟩)).image sel = Function.update (s.image sel) path (some []) := fun sel => by
      rw [MemoryStorage.image_put_file]; cases sel <;> rfl
    have hmade : ∀ c n, K c n ((s.put path (.file ⟨[], []⟩)).image sel) := fun c n => by
      rw [himg]; exact hnew hnone c n
    have hwrote : (MemoryStorage.step (.openFile path .create) s).2 = s.put path (.file ⟨[], []⟩) := congrArg Prod.snd hopen
    refine Triple.bind (Triple.call hopen ?_ (fun n => ?_) (fun n => ?_))
    · refine Triple.bind (len_spec (G := fun _ _ _ => True) hshape hd ?_ (hmade _) trivial)
      refine Triple.pure (hQ _ [] hshape (.put _ _ _) ?_ ?_ (fun sel => .inr ⟨hnone, himg sel⟩))
      · rw [himg]; exact Function.update_self _ _ _
      · rw [MemoryStorage.image_none hnone]; rfl
    · show Shape (if n = 0 then s else (MemoryStorage.step (.openFile path .create) s).2) ∧
        K _ _ ((if n = 0 then s else (MemoryStorage.step (.openFile path .create) s).2).image sel)
      rw [hwrote]
      split
      · exact ⟨hs, hold _ n⟩
      · exact ⟨hshape, hmade _ n⟩
    · have hfail : device.fail (.openFile path .create) n s = s := ite_self s
      rw [hfail]; exact ⟨hs, trivial⟩

end Parts

/-! ## Changes that an open makes -/

section Changes

variable {img img' : Image} {store : ManifestStore} {D : Str → Option Ghost} {g : Ghost}

/-- **Files of segments that the collection does not have** may change. -/
theorem DiskInv.off_orphans (h : DiskInv img store D) (hg : D g.name = some g) {named : List UInt64}
    (hpool : ∀ id, (g.pool id).isSome = true → id ∈ named) (hoff : Off (Orphan g.name named) img img') :
    DiskInv img' store D := by
  refine h.off hoff (fun name g' hg' p hp horphan => ?_) (fun slot hs => ?_)
  · obtain ⟨id, which, rfl, hid⟩ := horphan
    obtain ⟨hn, hsome, -⟩ := needs_of_segment hp ⟨which, rfl⟩
    have hname := (h.named name g' hg').1
    rw [← hname, hn, hg] at hg'
    obtain rfl := Option.some.inj hg'
    exact hid (hpool id hsome)
  · obtain ⟨id, which, hp, -⟩ := hs
    cases hp

/-- **An empty log** is as good as none. -/
theorem DiskInv.madeLog (h : DiskInv img store D) (hg : D g.name = some g) (hnone : img (.walFile g.name 1) = none) :
    DiskInv (Function.update img (.walFile g.name 1) (some [])) store D := by
  have hcoll := h.collDisk hg
  have hlog : LogHolds g.cat [] g.ops := by
    have hl := hcoll.log
    unfold Image.log at hl
    rw [hnone] at hl
    exact hl
  have hsame : Function.update D g.name (some (g.withLog g.ops g.docs)) = D := Function.update_eq_self_iff.mpr hg.symm
  have hnew := h.relog hg hlog hcoll.few (fun m hm e he hname => (h.entryInv hg hm he hname).names)
  rwa [hsame] at hnew

end Changes

/-! ## A database at rest -/

/-- **A database at rest**: two images hold the same segments under the same manifest, one of them perhaps under
    a part of the logs. -/
structure AtRest (sel : Sel) (s : MemoryStorage) (store : ManifestStore) (G D : Str → Option Ghost) : Prop where
  shape : Shape s
  dirs : ∀ name, (G name).isSome = true → s.get (.walDir name) = some .dir
  live : DiskInv (s.image .live) store G
  seen : DiskInv (s.image sel) store D
  stale : ∀ view, view = .live ∨ view = sel → Stale store.current (s.image view (.manifest store.slot.other))
  lags : ∀ name g, G name = some g → ∃ ops docs, D name = some (g.withLog ops docs) ∧ ops <+: g.ops

/-- **A collection that was opened** from the entry, as the process and the view see it. -/
structure OpenedColl (env : Env) (coll : CollInner) (e : CollectionEntry) (g : Ghost) (ops : List LogOp) (docs : DocMap)
    (s : MemoryStorage) : Prop where
  mem : MemInv env.invNorm env.config.durability coll g (s.image .live)
  names : Names g.pool ops docs (coll.state.segments.map SegmentData.ref)
  only : ∀ id which, (s.get (.segmentFile g.name id which)).isSome = true → id ∈ e.segments.map SegmentRef.id

section OpenColl

variable {S : Type} {env : Env} {sel : Sel} {x : S} {s : MemoryStorage} {store : ManifestStore} {G D : Str → Option Ghost}
  {g : Ghost} {ops : List LogOp} {docs : DocMap} {e : CollectionEntry}

/-- **Opening a collection** of a database at rest. -/
theorem openColl_spec (h : AtRest sel s store G D) (hro : env.config.readOnly = false) (hg : G g.name = some g)
    (hd : D g.name = some (g.withLog ops docs)) (he : e ∈ store.current.collections) (hname : e.name = g.name) :
    Spec sel (CollInner.open env g.cat e) x s
      (fun coll x' t => x' = x ∧
        AtRest sel t store (Function.update G g.name (some (g.referenced e.segments)))
          (Function.update D g.name (some ((g.referenced e.segments).withLog ops docs))) ∧
        OpenedColl env coll e (g.referenced e.segments) ops docs t ∧ ∀ p, p.owner ≠ some g.name → t.get p = s.get p)
      (KeepsDocs D) (fun _ _ _ => True) := by
  set g' := g.referenced e.segments with hg'
  set named := e.segments.map SegmentRef.id with hnamed
  set G' := Function.update G g.name (some g') with hG'
  set D' := Function.update D g.name (some (g'.withLog ops docs)) with hD'
  have hself : G' g'.name = some g' := Function.update_self _ _ _
  have hself' : D' (g'.withLog ops docs).name = some (g'.withLog ops docs) := Function.update_self _ _ _
  have hpool : ∀ id, (g'.pool id).isSome = true → id ∈ named := fun id hid => by
    by_contra hno
    have hnone : g'.pool id = none := if_neg hno
    rw [hnone] at hid; cases hid
  have hl : DiskInv (s.image .live) store G' := h.live.referenced (h.stale _ (.inl rfl)) hg he hname
  have hs : DiskInv (s.image sel) store D' := h.seen.referenced (g := g.withLog ops docs) (h.stale _ (.inr rfl)) hd he hname
  have hkeeps : ∀ {img : Image}, DiskInv img store D' → ∀ c n, KeepsDocs D c n img := fun hdisk c n =>
    .of_update (g := g.withLog ops docs) hdisk hd rfl c n
  have hentryOk : EntryOk e := ((writable_iff _).mp h.live.slots.writable).2.1 e he
  unfold CollInner.open cleanUp
  rw [hro]
  refine Triple.bind (removeOrphans_spec g.good.name h.shape (fun t ht => ?_) (fun c n img hoff => ?_))
  rotate_left
  · exact hkeeps (hs.off_orphans hself' hpool hoff) c n
  -- what the entry does not name is gone
  have hl1 : DiskInv (t.image .live) store G' := hl.off_orphans hself hpool (image_of_get ht.other .live)
  have hs1 : DiskInv (t.image sel) store D' := hs.off_orphans hself' hpool (image_of_get ht.other sel)
  have hcoll : CollDisk (t.image .live) g' := hl1.collDisk hself
  have hentry : EntryInv g' e := hl1.entryInv hself (.inl rfl) he hname
  obtain ⟨segs, hsegs⟩ := hentry.stands hcoll
  have hopen : List.Forall₂ (fun r d => ∀ P : SegmentData → S → MemoryStorage → Prop, P d x t →
      Spec sel (SegmentData.open g.cat r) x t P (KeepsDocs D) (fun _ _ _ => True)) e.segments (segs.map Seg.data) := by
    refine List.forall₂_map_right_iff.mpr (hsegs.imp (fun r seg hst P hP => ?_))
    exact open_spec g.good hst.id.symm hst.rows ht.shape hst.disk hP (hkeeps hs1) (fun _ _ _ => trivial)
  refine Triple.bind (Triple.mapList_each hopen (Triple.bind (Triple.lift (Layout.under_ok g.good.name _) (Triple.bind ?_))))
  refine replayInto_spec ht.shape (show LogHolds g.cat _ _ from hcoll.log) (fun report htail => ?_) (hkeeps hs1)
  unfold repairTail
  simp only [htail, Bool.false_and, Bool.false_eq_true, if_false]
  have hdir : t.get (.walDir g.cat.name) = some .dir := by
    rw [ht.other _ (fun ⟨_, _, hp, _⟩ => DbPath.noConfusion hp)]
    exact h.dirs g.name (by rw [hg]; rfl)
  refine Triple.bind (Triple.pure (Triple.bind (openLog_spec ht.shape rfl hdir (fun u bytes hu hsame hbytes hlen himg => ?_)
    (hkeeps hs1) (fun hnone => hkeeps (hs1.madeLog (g := g'.withLog ops docs) hself' (MemoryStorage.image_none hnone sel))))))
  refine Triple.pure ⟨rfl, ⟨hu, fun name hsome => ?_, ?_, ?_, fun view hv => ?_, fun name g1 hg1 => ?_⟩, ⟨?_, ?_, ?_⟩, ?_⟩
  · rw [hsame _ (fun he => DbPath.noConfusion he), ht.other _ (fun ⟨_, _, hp, _⟩ => DbPath.noConfusion hp)]
    refine h.dirs name ?_
    by_cases hn : name = g.name
    · rw [hn, hg]; rfl
    · rw [hG', Function.update_of_ne hn] at hsome; exact hsome
  · rcases himg .live with heq | ⟨hnone, heq⟩
    · rw [heq]; exact hl1
    · rw [heq]; exact hl1.madeLog (g := g') hself (MemoryStorage.image_none hnone .live)
  · rcases himg sel with heq | ⟨hnone, heq⟩
    · rw [heq]; exact hs1
    · rw [heq]; exact hs1.madeLog (g := g'.withLog ops docs) hself' (MemoryStorage.image_none hnone sel)
  · have hslot : u.get (.manifest store.slot.other) = s.get (.manifest store.slot.other) := by
      rw [hsame _ (fun he => DbPath.noConfusion he), ht.other _ (fun ⟨_, _, hp, _⟩ => DbPath.noConfusion hp)]
    have hview := h.stale view hv
    unfold MemoryStorage.image at hview ⊢
    rw [hslot]; exact hview
  · by_cases hn : name = g.name
    · rw [hG', hn, Function.update_self] at hg1
      obtain rfl := Option.some.inj hg1
      obtain ⟨ops0, docs0, hd0, hlag⟩ := h.lags g.name g hg
      rw [hd] at hd0
      have hops : ops = ops0 := congrArg Ghost.ops (Option.some.inj hd0)
      refine ⟨ops, docs, by rw [hD', hn, Function.update_self], ?_⟩
      rw [hops]; exact hlag
    · rw [hG', Function.update_of_ne hn] at hg1
      obtain ⟨ops1, docs1, hd1, hlag⟩ := h.lags name g1 hg1
      exact ⟨ops1, docs1, by rw [hD', Function.update_of_ne hn]; exact hd1, hlag⟩
  · exact ⟨rfl, rfl, hcoll.few, hcoll.log.ok, ⟨segs, rfl, hentry.segList hentryOk hsegs⟩,
      ⟨rfl, rfl, rfl, bytes, hbytes, rfl⟩, rfl⟩
  · have hn := (hs1.entryInv (g := g'.withLog ops docs) hself' (.inl rfl) he hname).names
    refine hn.regenerate ?_
    show List.Forall₂ _ ((segs.map Seg.data).map SegmentData.ref) _
    rw [refs_data]
    exact List.forall₂_map_left_iff.mpr (hsegs.flip.imp (fun seg r hst => ⟨hst.id, hst.rows.symm⟩))
  · intro id which hsome
    rw [hsame _ (fun he => DbPath.noConfusion he)] at hsome
    by_contra hno
    have hgone : t.get (.segmentFile g'.name id which) = none := ht.gone _ ⟨id, which, rfl, hno⟩
    rw [hgone] at hsome; cases hsome
  · intro p hp
    rw [hsame p (fun he => hp (by rw [he]; rfl)), ht.other p (fun ⟨id, which, he, _⟩ => hp (by rw [he]; rfl))]

theorem OpenedColl.congr {coll : CollInner} {t : MemoryStorage} (h : OpenedColl env coll e g ops docs s)
    (hsame : ∀ p, p.owner = some g.name → t.get p = s.get p) : OpenedColl env coll e g ops docs t := by
  refine ⟨h.mem.congr ?_, h.names, fun id which hsome => h.only id which ?_⟩
  · unfold MemoryStorage.image
    rw [hsame _ rfl]
  · rw [hsame _ rfl] at hsome; exact hsome

end OpenColl

/-! ## All collections -/

/-- What an open leaves of a collection as it was: its specification, its writes and its documents. -/
def Ghost.face (g : Ghost) : Catalog × List LogOp × DocMap := (g.cat, g.ops, g.docs)

/-- Two databases with the same collections, writes and documents. -/
def Alike (G G' : Str → Option Ghost) : Prop := ∀ name, (G' name).map Ghost.face = (G name).map Ghost.face

theorem Alike.refl (G : Str → Option Ghost) : Alike G G := fun _ => rfl

theorem Alike.trans {G G' G'' : Str → Option Ghost} (h : Alike G G') (h' : Alike G' G'') : Alike G G'' :=
  fun name => (h' name).trans (h name)

theorem Alike.docsOf {G G' : Str → Option Ghost} (h : Alike G G') : docsOf G' = docsOf G := by
  funext name
  have hname := congrArg (Option.map (fun f : Catalog × List LogOp × DocMap => f.2.2)) (h name)
  rwa [Option.map_map, Option.map_map] at hname

theorem Alike.update {G : Str → Option Ghost} {name : Str} {g g' : Ghost} (h : G name = some g) (hf : g'.face = g.face) :
    Alike G (Function.update G name (some g')) := by
  intro n
  by_cases hn : n = name
  · subst hn; rw [Function.update_self, h, Option.map_some, Option.map_some, hf]
  · rw [Function.update_of_ne hn]

theorem Alike.isSome {G G' : Str → Option Ghost} (h : Alike G G') (name : Str) : (G' name).isSome = (G name).isSome := by
  have hname := congrArg Option.isSome (h name)
  rwa [Option.isSome_map, Option.isSome_map] at hname

/-- **A list of entries was opened.** -/
structure OpenedAll (env : Env) (sel : Sel) (l : List CollectionEntry) (store : ManifestStore) (s t : MemoryStorage)
    (G D : Str → Option Ghost) (colls : AList (fun _ : Str => CollInner)) (G' D' : Str → Option Ghost) : Prop where
  rest : AtRest sel t store G' D'
  live : Alike G G'
  seen : Alike D D'
  opened : ∀ e ∈ l, ∃ coll g ops docs, colls.lookup e.name = some coll ∧ g.name = e.name ∧ G' e.name = some g ∧
    D' e.name = some (g.withLog ops docs) ∧ OpenedColl env coll e g ops docs t
  unnamed : ∀ name, name ∉ l.map CollectionEntry.name → colls.lookup name = none ∧ G' name = G name ∧ D' name = D name
  others : ∀ p, (∀ e ∈ l, p.owner ≠ some e.name) → t.get p = s.get p

/-- **Opening every collection** of a database at rest. -/
theorem openCollections_spec {S : Type} {env : Env} {sel : Sel} {x : S} {s : MemoryStorage} {store : ManifestStore}
    {G D : Str → Option Ghost} (h : AtRest sel s store G D) (hro : env.config.readOnly = false) {l : List CollectionEntry}
    (hmem : ∀ e ∈ l, e ∈ store.current.collections) (hnodup : (l.map CollectionEntry.name).Nodup) :
    Spec sel (openCollections env l) x s
      (fun colls x' t => x' = x ∧ ∃ G' D', OpenedAll env sel l store s t G D colls G' D')
      (KeepsDocs D) (fun _ _ _ => True) := by
  induction l generalizing s G D with
  | nil => exact Triple.pure ⟨rfl, G, D, h, .refl G, .refl D, nofun, fun _ _ => ⟨rfl, rfl, rfl⟩, fun _ _ => rfl⟩
  | cons e l ih =>
    obtain ⟨he, hl⟩ := List.forall_mem_cons.mp hmem
    obtain ⟨hfresh, hnodup⟩ := List.nodup_cons.mp hnodup
    obtain ⟨g, hg, -⟩ := (h.live.entries _ (.inl rfl)).1 e he
    have hname : g.name = e.name := (h.live.named _ g hg).1
    rw [← hname] at hg hfresh
    obtain ⟨ops, docs, hd, -⟩ := h.lags g.name g hg
    have hcatalog : (readCatalog e.name : Action S Catalog) = readCatalog g.cat.name := by rw [← hname]; rfl
    unfold openCollections
    rw [hcatalog]
    refine Triple.bind (readCatalog_spec g.good h.shape (h.live.collDisk hg).catalog ?_ (fun c n => h.seen.recovers))
    refine Triple.bind ((openColl_spec h hro hg hd he hname.symm).conseq ?_)
    rintro coll x' t ⟨rfl, hrest, hopened, hothers⟩
    set g' := g.referenced e.segments with hg'
    have hlive : Alike G (Function.update G g.name (some g')) := .update hg rfl
    have hseen : Alike D (Function.update D g.name (some (g'.withLog ops docs))) := .update hd rfl
    refine Triple.bind ((ih hrest hl hnodup).mono ?_ (fun c n img hk => ?_) (fun _ _ _ hf => hf))
    · rintro colls x'' u ⟨rfl, G', D', hall⟩
      have hgone := hall.unnamed g.name hfresh
      rw [Function.update_self, Function.update_self] at hgone
      refine Triple.pure ⟨rfl, G', D', hall.rest, hlive.trans hall.live, hseen.trans hall.seen, ?_, fun name hn => ?_, fun p hp => ?_⟩
      · refine List.forall_mem_cons.mpr ⟨?_, fun e' he' => ?_⟩
        · -- what was opened first, the rest leaves alone
          refine ⟨coll, g', ops, docs, AList.lookup_insert _, hname, by rw [← hname]; exact hgone.2.1,
            by rw [← hname]; exact hgone.2.2, hopened.congr (fun p hp => hall.others p (fun e' he' howner => ?_))⟩
          rw [howner] at hp
          refine hfresh ?_
          have hsame : e'.name = g.name := Option.some.inj hp
          rw [← hsame]; exact List.mem_map_of_mem he'
        · obtain ⟨coll', g1, ops1, docs1, hlook, hrest'⟩ := hall.opened e' he'
          refine ⟨coll', g1, ops1, docs1, ?_, hrest'⟩
          rw [AList.lookup_insert_ne (fun heq => hfresh (by rw [hname, ← heq]; exact List.mem_map_of_mem he'))]
          exact hlook
      · rw [List.map_cons, List.mem_cons, not_or] at hn
        obtain ⟨hlook, hG, hD⟩ := hall.unnamed name hn.2
        have hne : name ≠ g.name := by rw [hname]; exact hn.1
        rw [Function.update_of_ne hne] at hG hD
        exact ⟨by rw [AList.lookup_insert_ne hn.1]; exact hlook, hG, hD⟩
      · obtain ⟨hp1, hp2⟩ := List.forall_mem_cons.mp hp
        rw [hall.others p hp2, hothers p (by rw [hname]; exact hp1)]
    · refine ⟨hk.1, ?_⟩
      have hk2 := hk.2
      unfold KeepsDocs at hk2 ⊢
      rwa [hseen.docsOf] at hk2

end IshaVectorDb.Engine
