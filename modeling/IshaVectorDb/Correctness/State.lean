import IshaVectorDb.Correctness.Manifests
import IshaVectorDb.Correctness.Reads

/-!
# `Correctness.State` — the **state** an operation starts from

Between two operations an open collection is what its files say (`LiveInv`). What a power loss would leave is
the same segments under a *part* of the log (`SeenInv`): the durable image lags behind the live one in the log
and nowhere else. The lemmas below change one thing at a time: a bitmap's file, the log, the manifest.
-/

namespace IshaVectorDb.Engine

open Format Interaction KeyLog

/-! ## Documents of a database -/

/-- The documents of every collection. -/
def docsOf (G : Str → Option Ghost) : Str → Option DocMap := fun name => (G name).map Ghost.docs

theorem docsOf_update (G : Str → Option Ghost) (name : Str) (g : Ghost) :
    docsOf (Function.update G name (some g)) = Function.update (docsOf G) name (some g.docs) := by
  funext n
  unfold docsOf
  by_cases hn : n = name
  · subst hn; rw [Function.update_self, Function.update_self]; rfl
  · rw [Function.update_of_ne hn, Function.update_of_ne hn]

/-- A collection changed without changing its documents. -/
theorem docsOf_update_same {G : Str → Option Ghost} {name : Str} {g g' : Ghost} (h : G name = some g)
    (hd : g'.docs = g.docs) : docsOf (Function.update G name (some g')) = docsOf G := by
  rw [docsOf_update, hd]
  refine Function.update_eq_self_iff.mpr ?_
  unfold docsOf; rw [h]; rfl

/-- The same collection with other segments. -/
def Ghost.withPool (g : Ghost) (pool : Pool g.cat) : Ghost := { g with pool := pool }

@[simp] theorem Ghost.withPool_name (g : Ghost) (pool : Pool g.cat) : (g.withPool pool).name = g.name := rfl

@[simp] theorem Ghost.withPool_ops (g : Ghost) (pool : Pool g.cat) : (g.withPool pool).ops = g.ops := rfl

@[simp] theorem Ghost.withPool_docs (g : Ghost) (pool : Pool g.cat) : (g.withPool pool).docs = g.docs := rfl

@[simp] theorem Ghost.withPool_next (g : Ghost) (pool : Pool g.cat) : (g.withPool pool).next = g.next := rfl

@[simp] theorem Ghost.withLog_name (g : Ghost) (ops : List LogOp) (docs : DocMap) : (g.withLog ops docs).name = g.name := rfl

/-! ## The state -/

/-- **An open collection is what its files say.** -/
structure LiveInv (invNorm : InvNorm) (mode : Durability) (sess : Session) (img : Image) (G : Str → Option Ghost)
    (g : Ghost) : Prop where
  disk : DiskInv img sess.store G
  here : G g.name = some g
  mem : MemInv invNorm mode sess.coll g img

/-- **What another image holds**: the same segments under a part of the log. -/
structure SeenInv (sess : Session) (img : Image) (D : Str → Option Ghost) (g : Ghost) (ops : List LogOp) (docs : DocMap) :
    Prop where
  disk : DiskInv img sess.store D
  there : D g.name = some (g.withLog ops docs)
  lag : ops <+: g.ops
  names : Names g.pool ops docs (sess.segments.map SegmentData.ref)

/-- **The state between two operations**, through both images. -/
structure State (env : Env) (sel : Sel) (sess : Session) (s : MemoryStorage) (G D : Str → Option Ghost) (g : Ghost)
    (ops : List LogOp) (docs : DocMap) : Prop where
  shape : Shape s
  live : LiveInv env.invNorm env.config.durability sess (s.image .live) G g
  seen : SeenInv sess (s.image sel) D g ops docs

/-- **No newer manifest than the process's own is on disk.** -/
def Steady (sel : Sel) (store : ManifestStore) (s : MemoryStorage) : Prop :=
  ∀ view, view = .live ∨ view = sel → Stale store.current (s.image view (.manifest store.slot.other))

/-- Where the slots are as they were, nothing newer came up. -/
theorem Steady.congr {sel : Sel} {store : ManifestStore} {s t : MemoryStorage} (h : Steady sel store s)
    (hsame : ∀ view, t.image view (.manifest store.slot.other) = s.image view (.manifest store.slot.other)) :
    Steady sel store t := fun view hv => by rw [hsame]; exact h view hv

/-- **After a commit** the other slot holds the manifest before it. -/
theorem Steady.committed {sel : Sel} {store : ManifestStore} {s t : MemoryStorage} {next : Manifest}
    (hlive : SlotsInv (s.image .live) store) (hseen : SlotsInv (s.image sel) store) (hw : next.Writable)
    (hnewer : store.current.sequence < next.sequence)
    (hsame : ∀ view, t.image view (.manifest store.slot) = s.image view (.manifest store.slot)) :
    Steady sel ⟨next, store.slot.other⟩ t := by
  intro view hv
  show Stale next (t.image view (.manifest store.slot.other.other))
  rw [Slot.other_other, hsame]
  rcases hv with rfl | rfl
  · exact (hlive.pending hw hnewer).2.2.2
  · exact (hseen.pending hw hnewer).2.2.2

/-- **What an operation leaves**: a state again, in which only this collection changed. -/
structure After (env : Env) (sel : Sel) (sess sess' : Session) (s t : MemoryStorage) (G D : Str → Option Ghost)
    (g g' : Ghost) (ops : List LogOp) (docs : DocMap) : Prop where
  state : State env sel sess' t (Function.update G g.name (some g')) (Function.update D g.name (some (g'.withLog ops docs)))
    g' ops docs
  cat : g'.cat = g.cat
  others : ∀ name, name ≠ g.name → t.image .live (.walFile name 1) = s.image .live (.walFile name 1)
  steady : Steady sel sess.store s → Steady sel sess'.store t

/-- Nothing happened. -/
theorem State.after_self {env : Env} {sel : Sel} {sess : Session} {s : MemoryStorage} {G D : Str → Option Ghost} {g : Ghost}
    {ops : List LogOp} {docs : DocMap} (h : State env sel sess s G D g ops docs) :
    After env sel sess sess s s G D g g ops docs := by
  refine ⟨?_, rfl, fun _ _ => rfl, fun hsteady => hsteady⟩
  rw [Function.update_eq_self_iff.mpr h.live.here.symm, Function.update_eq_self_iff.mpr h.seen.there.symm]
  exact h

/-- The documents are the old ones, or one collection's are new. -/
def RecoversEither (img : Image) (old : Str → Option DocMap) (name : Str) (docs : DocMap) : Prop :=
  Recovers img old ∨ Recovers img (Function.update old name (some docs))

/-- A death that changed nothing that shows. -/
def KeepsDocs (D : Str → Option Ghost) (_ : Call) (_ : Nat) (img : Image) : Prop := Recovers img (docsOf D)

/-- An image that holds the collection changed, with the same documents. -/
theorem KeepsDocs.of_update {D : Str → Option Ghost} {name : Str} {g g' : Ghost} {store : ManifestStore} {img : Image}
    (h : DiskInv img store (Function.update D name (some g'))) (hg : D name = some g) (hd : g'.docs = g.docs) (c : Call)
    (n : Nat) : KeepsDocs D c n img := by
  unfold KeepsDocs
  rw [← docsOf_update_same hg hd]; exact h.recovers

/-- **An operation that failed changed nothing that shows.** -/
structure Survives (env : Env) (sess : Session) (s : MemoryStorage) (img : Image) (G : Str → Option Ghost) (g : Ghost) :
    Prop where
  live : ∃ g' : Ghost, g'.cat = g.cat ∧ g'.ops = g.ops ∧ g'.docs = g.docs ∧
    LiveInv env.invNorm env.config.durability sess img (Function.update G g.name (some g')) g'
  others : ∀ name, name ≠ g.name → img (.walFile name 1) = s.image .live (.walFile name 1)

/-- The log's file is as it was. -/
theorem WalInv.congr {w : WalWriter} {log : DbPath} {mode : Durability} {img img' : Image} (h : WalInv w log mode img)
    (hsame : img' log = img log) : WalInv w log mode img' :=
  ⟨h.file, h.path, h.durability, by rw [hsame]; exact h.bytes⟩

theorem MemInv.congr {invNorm : InvNorm} {mode : Durability} {coll : CollInner} {g : Ghost} {img img' : Image}
    (h : MemInv invNorm mode coll g img) (hsame : img' (.walFile g.name 1) = img (.walFile g.name 1)) :
    MemInv invNorm mode coll g img' :=
  ⟨h.catalog, h.memtable, h.few, h.ok, h.segments, h.wal.congr hsame, h.next⟩

theorem refs_data {cat : Catalog} (segs : List (Seg cat)) :
    (segs.map Seg.data).map SegmentData.ref = segs.map Seg.ref := by
  rw [List.map_map]
  exact List.map_congr_left (fun seg _ => seg.data_ref)

/-- What the process itself sees. -/
theorem LiveInv.seen {invNorm : InvNorm} {mode : Durability} {sess : Session} {img : Image} {G : Str → Option Ghost}
    {g : Ghost} (h : LiveInv invNorm mode sess img G g) : SeenInv sess img G g g.ops g.docs := by
  obtain ⟨segs, hsegs, hlist⟩ := h.mem.segments
  have hs : sess.segments = segs.map Seg.data := hsegs
  exact ⟨h.disk, h.here, List.prefix_refl _, by rw [hs, refs_data]; exact hlist.names⟩

theorem MemInv.session_name {invNorm : InvNorm} {mode : Durability} {sess : Session} {g : Ghost} {img : Image}
    (h : MemInv invNorm mode sess.coll g img) : sess.name = g.name := by
  unfold Session.name Ghost.name; rw [h.catalog]

/-- A file lies in a directory. -/
theorem Shape.dir_of_image {s : MemoryStorage} (h : Shape s) {sel : Sel} {p : DbPath} {bs : Bytes}
    (hp : s.image sel p = some bs) : s.get p.parent = some .dir := by
  obtain ⟨d, hd, -⟩ := MemoryStorage.file_of_image hp
  exact h.nested p _ hd

theorem LiveInv.docs_apply {invNorm : InvNorm} {mode : Durability} {sess : Session} {img : Image}
    {G : Str → Option Ghost} {g : Ghost} (h : LiveInv invNorm mode sess img G g) {k : DocId} {v : Option Doc}
    (hv : verdict g.ops k = some v) : g.docs k = v := by
  obtain ⟨segs, -, hlist⟩ := h.mem.segments
  rw [← hlist.docs_eq, replay_apply, hv]; rfl

/-- A failure that left the memory alone, and changed only files that the collection does not use. -/
theorem LiveInv.survives {env : Env} {sess : Session} {s : MemoryStorage} {img : Image} {G : Str → Option Ghost} {g : Ghost}
    (h : LiveInv env.invNorm env.config.durability sess (s.image .live) G g) (hdisk : DiskInv img sess.store G)
    (hwal : ∀ name, img (.walFile name 1) = s.image .live (.walFile name 1)) : Survives env sess s img G g := by
  refine ⟨⟨g, rfl, rfl, rfl, ?_⟩, fun name _ => hwal name⟩
  rw [Function.update_eq_self_iff.mpr (by rw [h.here])]
  exact ⟨hdisk, h.here, h.mem.congr (hwal g.name)⟩

section Disk

variable {img img' : Image} {store : ManifestStore} {D : Str → Option Ghost} {g : Ghost}

theorem DiskInv.collDisk (h : DiskInv img store D) (hg : D g.name = some g) : CollDisk img g := (h.named g.name g hg).2

theorem DiskInv.entryInv (h : DiskInv img store D) (hg : D g.name = some g) {m : Manifest} (hm : Candidate img store m)
    {e : CollectionEntry} (he : e ∈ m.collections) (hname : e.name = g.name) : EntryInv g e := by
  obtain ⟨g', hg', hi⟩ := (h.entries m hm).1 e he
  rw [hname, hg] at hg'
  obtain rfl := Option.some.inj hg'
  exact hi

/-- Every collection has an entry in the manifest that the engine holds. -/
theorem DiskInv.entry (h : DiskInv img store D) (hg : D g.name = some g) :
    ∃ e ∈ store.current.collections, e.name = g.name ∧ EntryInv g e := by
  obtain ⟨e, he, hname⟩ := (h.entries _ (.inl rfl)).2 g.name (by rw [hg]; rfl)
  exact ⟨e, he, hname, h.entryInv hg (.inl rfl) he hname⟩

/-- **Files that no manifest names may change.** -/
theorem DiskInv.off {P : DbPath → Prop} (h : DiskInv img store D) (hoff : Off P img img')
    (hP : ∀ name g, D name = some g → ∀ p, g.Needs p → ¬ P p) (hslots : ∀ slot, ¬ P (.manifest slot)) :
    DiskInv img' store D :=
  h.congr (fun slot => hoff _ (hslots slot)) (fun name g hg p hp => hoff p (hP name g hg p hp))

/-- A segment file of one collection is needed by no other. -/
theorem needs_of_segment {g' : Ghost} {p : DbPath} {id : UInt64} (hp : g'.Needs p) (hseg : OfSegment g.name id p) :
    g'.name = g.name ∧ (g'.pool id).isSome ∧ id.toNat < g'.next := by
  obtain ⟨which, rfl⟩ := hseg
  rcases hp with hp | hp | ⟨id', which', hlt, hsome, hp⟩
  · cases hp
  · cases hp
  · obtain ⟨hn, rfl, rfl⟩ := DbPath.segmentFile.inj hp
    exact ⟨hn.symm, hsome, hlt⟩

/-- **The files of a segment not in use may change.** -/
theorem DiskInv.off_segment (h : DiskInv img store D) (hg : D g.name = some g) {id : UInt64}
    (hid : g.next ≤ id.toNat ∨ g.pool id = none) (hoff : Off (OfSegment g.name id) img img') : DiskInv img' store D := by
  refine h.off hoff (fun name g' hg' p hp hseg => ?_) (fun slot hs => ?_)
  · obtain ⟨hn, hsome, hlt⟩ := needs_of_segment hp hseg
    have hname := (h.named name g' hg').1
    rw [← hname, hn, hg] at hg'
    obtain rfl := Option.some.inj hg'
    rcases hid with hid | hid
    · omega
    · rw [hid] at hsome; cases hsome
  · obtain ⟨which, hw⟩ := hs; cases hw

/-- **The bitmap's file of one segment changes**, in step with what the segment holds. -/
theorem DiskInv.supersede (h : DiskInv img store D) (hg : D g.name = some g) {seg : Seg g.cat}
    (hid : seg.id.toNat < g.next) (hseg : g.pool seg.id = some seg) {ids : List DocId}
    (hids : ∀ k ∈ ids, Named g.ops k ∨ g.docs k = none) :
    DiskInv (Function.update img seg.delPath (some ((seg.supersede ids).file .tombstones))) store
      (Function.update D g.name (some (g.withPool (Function.update g.pool seg.id (some (seg.supersede ids)))))) := by
  set pool := Function.update g.pool seg.id (some (seg.supersede ids)) with hpool
  have hcoll := h.collDisk hg
  have hne : ∀ p, p ≠ seg.delPath → Function.update img seg.delPath (some ((seg.supersede ids).file .tombstones)) p = img p :=
    fun p hp => Function.update_of_ne hp _ _
  have htrim : PoolTrims (· ∈ ids) pool g.pool := fun id seg' hseg' => by
    by_cases hi : id = seg.id
    · subst hi
      rw [hseg] at hseg'
      obtain rfl := Option.some.inj hseg'
      refine ⟨seg.supersede ids, Function.update_self _ _ _, Seg.supersede_rows _ _, fun k => ?_⟩
      rw [Seg.contents_supersede]
      by_cases hk : k ∈ ids
      · exact .inr ⟨if_pos hk, hk⟩
      · exact .inl (if_neg hk)
    · exact ⟨seg', by rw [hpool, Function.update_of_ne hi]; exact hseg', rfl, Trims.refl _ _⟩
  refine h.step (t := g.withPool pool) (fun slot => hne _ DbPath.noConfusion) ?_ ?_ (by rw [Ghost.withPool_name, hg]; rfl) ?_
  · exact Off.update img (P := fun p => p.owner = some g.name) rfl _
  · refine ⟨by rw [hne _ DbPath.noConfusion]; exact hcoll.catalog, ?_, hcoll.few, fun id seg' hlt hseg' => ?_⟩
    · exact (congrArg (LogHolds g.cat · g.ops) (Image.log_congr (hne _ DbPath.noConfusion))).mpr hcoll.log
    · have hlt : id.toNat < g.next := hlt
      have hseg' : pool id = some seg' := hseg'
      by_cases hi : id = seg.id
      · subst hi
        rw [hpool, Function.update_self] at hseg'
        obtain rfl := Option.some.inj hseg'
        refine ⟨Seg.supersede_id _ _, fun which => ?_⟩
        rw [Seg.supersede_id]
        have hold := (hcoll.segments seg.id seg hid hseg).2 which
        by_cases hw : which = .tombstones
        · subst hw; exact Function.update_self _ _ _
        · have hfile : (seg.supersede ids).file which = seg.file which := Seg.file_supersede _ _ hw
          exact (hne _ (fun he => hw (DbPath.segmentFile.inj he).2.2)).trans (hold.trans (congrArg some hfile.symm))
      · rw [hpool, Function.update_of_ne hi] at hseg'
        obtain ⟨hsid, hdisk⟩ := hcoll.segments id seg' hlt hseg'
        refine ⟨hsid, fun which => ?_⟩
        rw [hne _ (fun he => hi (hsid ▸ (DbPath.segmentFile.inj he).2.1))]; exact hdisk which
  · intro m hm e he hname
    have hi := h.entryInv hg hm he hname
    refine ⟨hi.names.trims htrim (fun k hk => ?_), hi.below⟩
    rcases hids k hk with hn | hn
    · exact .inl hn
    · by_cases hnamed : Named g.ops k
      · exact .inl hnamed
      · right
        have hd := congrFun hi.names.docs k
        rw [replay_of_not_named hnamed] at hd
        rw [hd, hn]

/-- **The log changes.** -/
theorem DiskInv.relog (h : DiskInv img store D) (hg : D g.name = some g) {bytes : Bytes} {ops : List LogOp}
    {docs : DocMap} (hlog : LogHolds g.cat bytes ops) (hfew : ops.countP Op.isPut ≤ 2 ^ 32)
    (hnames : ∀ m, Candidate img store m → ∀ e ∈ m.collections, e.name = g.name → Names g.pool ops docs e.segments) :
    DiskInv (Function.update img (.walFile g.name 1) (some bytes)) store
      (Function.update D g.name (some (g.withLog ops docs))) := by
  have hcoll := h.collDisk hg
  have hne : ∀ p, p ≠ .walFile g.name 1 → Function.update img (.walFile g.name 1) (some bytes) p = img p :=
    fun p hp => Function.update_of_ne hp _ _
  refine h.step (t := g.withLog ops docs) (fun slot => hne _ DbPath.noConfusion) ?_ ?_
    (by rw [Ghost.withLog_name, hg]; rfl) ?_
  · exact Off.update img (P := fun p => p.owner = some g.name) rfl _
  · refine ⟨by rw [hne _ DbPath.noConfusion]; exact hcoll.catalog, ?_, hfew, fun id seg hlt hseg => ?_⟩
    · show LogHolds g.cat ((Function.update img (.walFile g.name 1) (some bytes) (.walFile g.name 1)).getD []) ops
      rw [Function.update_self]; exact hlog
    obtain ⟨hsid, hdisk⟩ := hcoll.segments id seg hlt hseg
    exact ⟨hsid, fun which => by rw [hne _ DbPath.noConfusion]; exact hdisk which⟩
  · intro m hm e he hname
    exact ⟨hnames m hm e he hname, (h.entryInv hg hm he hname).below⟩

/-- What a commit of one entry names. -/
theorem mem_successor (h : DiskInv img store D) (hg : D g.name = some g) {entry : CollectionEntry}
    (hentry : entry.name = g.name) (now : UInt64) (e : CollectionEntry) :
    e ∈ (store.successor (Manifest.withEntry store.current entry) now).collections ↔
      e = entry ∨ (e ∈ store.current.collections ∧ e.name ≠ g.name) := by
  obtain ⟨hn, -, -⟩ := (writable_iff _).mp h.slots.writable
  obtain ⟨e0, he0, hname0, -⟩ := h.entry hg
  rw [← hentry]
  exact (withEntry_replaced hn ⟨e0, he0, by rw [hname0, hentry]⟩).2.1 e

/-- The collections of a commit of one entry. -/
theorem successor_entries (h : DiskInv img store D) (hg : D g.name = some g) {entry : CollectionEntry}
    (hentry : entry.name = g.name) (now : UInt64) {g' : Ghost} (hinv : EntryInv g' entry) :
    (∀ e ∈ (store.successor (Manifest.withEntry store.current entry) now).collections,
      ∃ g1, Function.update D g.name (some g') e.name = some g1 ∧ EntryInv g1 e) ∧
    ∀ name, (Function.update D g.name (some g') name).isSome →
      ∃ e ∈ (store.successor (Manifest.withEntry store.current entry) now).collections, e.name = name := by
  have hmem := mem_successor h hg hentry now
  refine ⟨fun e he => ?_, fun name hn => ?_⟩
  · rcases (hmem e).mp he with rfl | ⟨he, hne⟩
    · exact ⟨g', by rw [hentry, Function.update_self], hinv⟩
    · obtain ⟨g1, hg1, hi⟩ := (h.entries _ (.inl rfl)).1 e he
      exact ⟨g1, by rw [Function.update_of_ne hne]; exact hg1, hi⟩
  · by_cases hn' : name = g.name
    · exact ⟨entry, (hmem entry).mpr (.inl rfl), by rw [hn', hentry]⟩
    · rw [Function.update_of_ne hn'] at hn
      obtain ⟨e, he, hname'⟩ := (h.entries _ (.inl rfl)).2 name hn
      exact ⟨e, (hmem e).mpr (.inr ⟨he, by rw [hname']; exact hn'⟩), hname'⟩

/-- **A collection's entry is committed.** -/
theorem DiskInv.commitEntry (h : DiskInv img store D) (hg : D g.name = some g) {entry : CollectionEntry} {now : UInt64}
    {t : Ghost} (hname : t.name = g.name) (hentry : entry.name = g.name) (hdisk : CollDisk img t) (hinv : EntryInv t entry)
    (hw : (store.successor (Manifest.withEntry store.current entry) now).Writable)
    (hnewer : store.current.sequence < (store.successor (Manifest.withEntry store.current entry) now).sequence) :
    DiskInv (Function.update img (.manifest store.slot.other)
        (some (encodeBlock .manifest (store.successor (Manifest.withEntry store.current entry) now).payload)))
      ⟨store.successor (Manifest.withEntry store.current entry) now, store.slot.other⟩
      (Function.update D g.name (some t)) := by
  refine h.commit hw hnewer (fun name g1 hg1 => ?_) (successor_entries h hg hentry now hinv)
  by_cases hn : name = g.name
  · rw [hn, Function.update_self] at hg1
    obtain rfl := Option.some.inj hg1
    exact ⟨by rw [hname, hn], hdisk⟩
  · rw [Function.update_of_ne hn] at hg1; exact h.named name g1 hg1

/-- **A commit that was reported as failed**: the engine keeps the old manifest, the disk may have the new one. -/
theorem DiskInv.uncertain (h : DiskInv img store D) (hg : D g.name = some g) {entry : CollectionEntry} {now : UInt64}
    {img' : Image} (hentry : entry.name = g.name) (hinv : EntryInv g entry)
    (hw : (store.successor (Manifest.withEntry store.current entry) now).Writable)
    (hnewer : store.current.sequence < (store.successor (Manifest.withEntry store.current entry) now).sequence)
    (himg : img' = img ∨ (∃ v, Stale store.current v ∧ img' = Function.update img (.manifest store.slot.other) v) ∨
      img' = Function.update img (.manifest store.slot.other)
        (some (encodeBlock .manifest (store.successor (Manifest.withEntry store.current entry) now).payload))) :
    DiskInv img' store D := by
  rcases himg with rfl | ⟨v, hv, rfl⟩ | rfl
  · exact h
  · exact h.overwrite hv
  · have hentries := successor_entries h hg hentry now hinv
    rw [Function.update_eq_self_iff.mpr hg.symm] at hentries
    exact h.pending hw hnewer hentries

/-- **After a commit** an open finds this entry for the collection, and no other. -/
theorem DiskInv.committed (h : DiskInv img store D) (hg : D g.name = some g) {entry : CollectionEntry} {now : UInt64}
    (hentry : entry.name = g.name) (hw : (store.successor (Manifest.withEntry store.current entry) now).Writable)
    (hnewer : store.current.sequence < (store.successor (Manifest.withEntry store.current entry) now).sequence) {m : Manifest}
    (hm : Candidate (Function.update img (.manifest store.slot.other)
        (some (encodeBlock .manifest (store.successor (Manifest.withEntry store.current entry) now).payload)))
      ⟨store.successor (Manifest.withEntry store.current entry) now, store.slot.other⟩ m)
    {e : CollectionEntry} (he : e ∈ m.collections) (hname : e.name = g.name) : e = entry := by
  obtain ⟨-, -, -, hstale⟩ := h.slots.pending hw hnewer
  have hslot : (.manifest store.slot : DbPath) ≠ .manifest store.slot.other :=
    fun he => Slot.other_ne store.slot (DbPath.manifest.inj he).symm
  rw [candidate_of_stale (by
    show Stale _ (Function.update img _ _ (.manifest store.slot.other.other))
    rw [Slot.other_other, Function.update_of_ne hslot]; exact hstale) hm] at he
  exact ((mem_successor h hg hentry now e).mp he).resolve_right (fun h => h.2 hname)

end Disk

/-- **Committing an entry** as a process: the other slot is rewritten, then the new manifest is the engine's. -/
theorem commitCollection_spec {env : Env} {sel : Sel} {sess : Session} {s : MemoryStorage} {entry : CollectionEntry}
    {next : Manifest} (hnext : next = sess.store.successor (Manifest.withEntry sess.store.current entry) env.nowMs)
    (hs : Shape s) (hw : next.Writable) {Q : Unit → Session → MemoryStorage → Prop} {K : Call → Nat → Image → Prop}
    {F : Call → Session → Image → Prop}
    (hQ : ∀ t, Shape t → (∀ sel, t.image sel = Function.update (s.image sel) (.manifest sess.store.slot.other)
        (some (encodeBlock .manifest next.payload))) → (∀ p, p ≠ .manifest sess.store.slot.other → t.get p = s.get p) →
      Q () (sess.withStore ⟨next, sess.store.slot.other⟩) t)
    (hold : ∀ c n, K c n (s.image sel))
    (hstale : ∀ c n v, Stale sess.store.current v →
      K c n (Function.update (s.image sel) (.manifest sess.store.slot.other) v))
    (hdone : ∀ c n, K c n (Function.update (s.image sel) (.manifest sess.store.slot.other)
      (some (encodeBlock .manifest next.payload))))
    (hF : ∀ c img, c.path = .manifest sess.store.slot.other → (img = s.image .live ∨
        (∃ v, Stale sess.store.current v ∧ img = Function.update (s.image .live) (.manifest sess.store.slot.other) v) ∨
        img = Function.update (s.image .live) (.manifest sess.store.slot.other)
          (some (encodeBlock .manifest next.payload))) → F c sess img) :
    Spec sel (commitCollection env entry) sess s Q K F := by
  subst hnext
  refine Triple.bind (Triple.get (Triple.zoom (Triple.bind (Triple.get ?_))))
  exact (write_spec hs hw hQ hold hstale hdone hF).mono (fun _ _ _ h => h) (fun _ _ _ h => h)
    (fun c x' s' h => h)

end IshaVectorDb.Engine
