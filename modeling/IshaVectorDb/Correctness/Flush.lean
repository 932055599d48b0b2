import IshaVectorDb.Correctness.Folding

/-!
# `Correctness.Flush` — the **flush**, call by call

`doFlush_spec`: a flush leaves the documents as they were, in the segments now and with an empty log. It does so
for what the process sees and, under `Settled`, for what a power loss would leave. Every death inside it leaves
an image from which the same documents are recovered, unless it tears the bitmap's file of an older segment;
every failing call that `FlushHarmless` admits leaves a state in which nothing shows.
-/

namespace IshaVectorDb.Engine

open Format Interaction KeyLog

/-! ## Emptying the log -/

/-- **The checkpoint** empties the log and the memtable with it. -/
theorem checkpoint_spec {env : Env} {segmentId : UInt64} {sel : Sel} {sess : Session} {s : MemoryStorage} {d : FileData}
    {path : DbPath} (hpath : Layout.walFile sess.name 1 = .ok path) (hs : Shape s) (hd : s.get path = some (.file d))
    {Q : Unit → Session → MemoryStorage → Prop} {K : Call → Nat → Image → Prop} {F : Call → Session → Image → Prop}
    (hQ : Q () (sess.withState (fun c => { c with
        memtable := c.memtable.clear
        nextSegmentId := segmentId + 1
        wal := ⟨⟨path, true⟩, path, c.wal.nextSequence, 1, 0, env.config.durability, false⟩ }))
      (s.put path (.file ⟨[], []⟩)))
    (hold : ∀ c n, K c n (s.image sel)) (hnew : ∀ c n, K c n (Function.update (s.image sel) path (some [])))
    (hearly : ∀ c, c = .openFile path .readWrite ∨ c = .truncate ⟨path, true⟩ 0 → F c sess (s.image .live))
    (hlate : ∀ c x img, c = .syncData ⟨path, true⟩ ∨ c = .openFile path .create ∨ c = .len ⟨path, true⟩ → F c x img) :
    Spec sel (checkpoint env segmentId) sess s Q K F := by
  have hp := hs.dirs path d hd
  have hparent := hs.nested path _ hd
  have hcut : ∀ c n, K c n (Function.update (s.image sel) path (some (sel.of ⟨[], d.durable⟩))) := fun c n => by
    cases sel with
    | live => exact hnew c n
    | durable =>
      show K c n (Function.update (s.image .durable) path (some d.durable))
      rw [Function.update_eq_self_iff.mpr (MemoryStorage.image_file hd .durable).symm]; exact hold c n
  have h1 := hs.put_file hp hparent ⟨[], d.durable⟩
  have h2 := hs.put_file hp hparent ⟨[], []⟩
  unfold checkpoint
  refine Triple.bind (Triple.get ?_)
  refine Triple.bind (Triple.lift hpath ?_)
  refine Triple.bind (openFile_spec hs hd ?_ (fun n => hold _ n) (hearly _ (.inl rfl)))
  refine Triple.bind (truncate_spec hs hd ?_ (fun n => hold _ n) (fun n => hcut _ n) (hearly _ (.inr rfl)))
  refine Triple.bind (syncData_spec h1 (MemoryStorage.get_put_self s path _) ?_ (fun n => ?_) (fun n => ?_)
    (hlate _ _ _ (.inl rfl)))
  rotate_left
  · rw [MemoryStorage.image_put_file]; exact hcut _ n
  · rw [MemoryStorage.image_put_file, Function.update_idem]; exact hnew _ n
  rw [MemoryStorage.put_put]
  refine Triple.bind (Triple.modify ?_)
  have hfinal : ∀ c n, K c n ((s.put path (.file ⟨[], []⟩)).image sel) := fun c n => by
    rw [MemoryStorage.image_put_file]
    cases sel <;> exact hnew c n
  refine Triple.bind (WalWriter.open_spec h2 (MemoryStorage.get_put_self s path _) ?_ hfinal (fun c hc => hlate c _ _ (.inr hc)))
  exact Triple.modify hQ

/-! ## The collection after a flush -/

/-- **A view's log settles under a flush**: what the flush takes out of the older segments the view's log has
    too or the view does not show, and what the view's log says is what the documents are. -/
structure Settled (g : Ghost) (ops : List LogOp) (docs : DocMap) : Prop where
  covered : ∀ k, Named g.ops k → Named ops k ∨ docs k = none
  agrees : ∀ k v, verdict ops k = some v → g.docs k = v

/-- The process's own log settles. -/
theorem LiveInv.settled {invNorm : InvNorm} {mode : Durability} {sess : Session} {img : Image} {G : Str → Option Ghost}
    {g : Ghost} (h : LiveInv invNorm mode sess img G g) : Settled g g.ops g.docs :=
  ⟨fun _ hk => .inl hk, fun _ _ hv => h.docs_apply hv⟩

/-- The list of segments after a flush. -/
def folded {cat : Catalog} (segs : List (Seg cat)) (ids : List DocId) (seg : Seg cat) : List (Seg cat) :=
  segs.map (fun old => old.supersede ids) ++ (if seg.rows = [] then [] else [seg])

/-- The collection after a flush. -/
def Ghost.folded (g : Ghost) (pool : Pool g.cat) (seg : Seg g.cat) (h : g.next + 1 < 2 ^ 64) : Ghost :=
  ⟨g.cat, g.good, Function.update pool seg.id (if seg.rows = [] then none else some seg), [], g.docs, g.next + 1, h⟩

/-- A flush in progress: the older segments are superseded, the new one is on its way. -/
structure Folding (sess : Session) (g : Ghost) (ids : List DocId) (segs : List (Seg g.cat)) (seg : Seg g.cat)
    (pool : Pool g.cat) : Prop where
  list : SegList g segs
  opened : sess.segments = segs.map Seg.data
  named : ∀ k, k ∈ ids ↔ Named g.ops k
  contents : ∀ k, seg.contents k = (verdict g.ops k).getD none
  id : seg.id = sess.nextSegmentId
  next : seg.id.toNat = g.next
  sup : Superseded g ids segs [] pool

namespace Folding

variable {sess : Session} {g : Ghost} {ids : List DocId} {segs : List (Seg g.cat)} {seg : Seg g.cat} {pool : Pool g.cat}

theorem old_lt (h : Folding sess g ids segs seg pool) {old : Seg g.cat} (ho : old ∈ segs) : old.id.toNat < seg.id.toNat := by
  rw [h.next]; exact (h.list.pooled old ho).2

theorem ascending (h : Folding sess g ids segs seg pool) :
    (Engine.folded segs ids seg).Pairwise (fun a b => a.id.toNat < b.id.toNat) := by
  have hold : (segs.map (fun old => old.supersede ids)).Pairwise (fun a b => a.id.toNat < b.id.toNat) :=
    List.pairwise_map.mpr (h.list.ascending.imp (fun {a b} hab => by rw [Seg.supersede_id, Seg.supersede_id]; exact hab))
  unfold Engine.folded
  split
  · rw [List.append_nil]; exact hold
  · refine List.pairwise_append.mpr ⟨hold, List.pairwise_singleton _ _, fun a ha b hb => ?_⟩
    obtain rfl := List.mem_singleton.mp hb
    obtain ⟨old, ho, rfl⟩ := List.mem_map.mp ha
    rw [Seg.supersede_id]; exact h.old_lt ho

theorem names (h : Folding sess g ids segs seg pool) (hb : g.next + 1 < 2 ^ 64) :
    Names (g.folded pool seg hb).pool [] g.docs ((Engine.folded segs ids seg).map Seg.ref) :=
  h.sup.flushed h.list h.named h.contents h.next

theorem segList (h : Folding sess g ids segs seg pool) (hb : g.next + 1 < 2 ^ 64) :
    SegList (g.folded pool seg hb) (Engine.folded segs ids seg) := by
  refine ⟨fun (s' : Seg g.cat) hs' => ?_, h.ascending, h.names hb⟩
  rcases List.mem_append.mp hs' with hs' | hs'
  · obtain ⟨old, ho, rfl⟩ := List.mem_map.mp hs'
    have hlt := h.old_lt ho
    have hn := h.next
    rw [Seg.supersede_id]
    refine ⟨?_, show old.id.toNat < g.next + 1 by omega⟩
    show Function.update pool seg.id _ old.id = _
    rw [Function.update_of_ne (fun he => by rw [he] at hlt; omega)]
    exact h.sup.done old ho
  · split at hs'
    · cases hs'
    · rename_i hrows
      have he : s' = seg := List.mem_singleton.mp hs'
      rw [he]
      refine ⟨?_, show seg.id.toNat < g.next + 1 by rw [h.next]; omega⟩
      show Function.update pool seg.id _ seg.id = _
      rw [Function.update_self, if_neg hrows]
      rfl

/-- The new entry stands for the documents under any part of the log that agrees with them. -/
theorem entryInv (h : Folding sess g ids segs seg pool) (hb : g.next + 1 < 2 ^ 64) {ops : List LogOp}
    (hops : ∀ k v, verdict ops k = some v → g.docs k = v) {entry : CollectionEntry}
    (hentry : entry.segments = (Engine.folded segs ids seg).map Seg.ref) :
    EntryInv ((g.folded pool seg hb).withLog ops g.docs) entry := by
  refine ⟨by rw [hentry]; exact (h.names hb).absorbed hops, fun r hr => ?_⟩
  rw [hentry] at hr
  obtain ⟨s', hs', rfl⟩ := List.mem_map.mp hr
  exact ((h.segList hb).pooled s' hs').2

/-- The collection's files after the flush, whatever its log. -/
theorem collDisk (h : Folding sess g ids segs seg pool) (hb : g.next + 1 < 2 ^ 64) {img : Image} {ops : List LogOp}
    {docs docs' : DocMap} (hd : CollDisk img ((g.withPool pool).withLog ops docs)) (hseg : seg.rows ≠ [] → OnDisk img seg) :
    CollDisk img ((g.folded pool seg hb).withLog ops docs') := by
  refine ⟨hd.catalog, hd.log, hd.few, fun id s' hlt hs' => ?_⟩
  have hs' : Function.update pool seg.id (if seg.rows = [] then none else some seg) id = some s' := hs'
  have hlt : id.toNat < g.next + 1 := hlt
  by_cases hid : id = seg.id
  · subst hid
    rw [Function.update_self] at hs'
    split at hs'
    · cases hs'
    · rename_i hrows
      obtain rfl := Option.some.inj hs'
      exact ⟨rfl, hseg hrows⟩
  · rw [Function.update_of_ne hid] at hs'
    have hne : id.toNat ≠ g.next := fun he => hid (UInt64.toNat.inj (he.trans h.next.symm))
    exact hd.segments id s' (show id.toNat < g.next by omega) hs'

end Folding

/-! ## Failures inside a flush -/

/-- **The calls of a flush whose failure shows nowhere.** Not among them: a call that rewrites an older segment's
    bitmap, before the content is written; a call to the manifest, or to the log before it is emptied, when the
    memtable has live rows; and every call to the log after that. -/
def FlushHarmless (sess : Session) (c : Call) : Prop :=
  match c.path with
  | .segmentFile _ id .tombstones => (∃ seg ∈ sess.segments, seg.id = id) → c = .syncData ⟨c.path, true⟩
  | .manifest _ => sess.memtable.liveRows = []
  | .walFile _ _ => sess.memtable.liveRows = [] ∧ ((∃ p, c = .openFile p .readWrite) ∨ ∃ f n, c = .truncate f n)
  | _ => True

/-- The death tears the bitmap's file of an older segment. -/
def TearsBitmap (sess : Session) (c : Call) (n : Nat) : Prop :=
  c.Tears n ∧ ∃ seg ∈ sess.segments, c.path = .segmentFile sess.name seg.id .tombstones

/-- What a death inside a flush leaves. -/
def FlushDies (sel : Sel) (sess : Session) (D : Str → Option Ghost) (g : Ghost) (c : Call) (n : Nat) (img : Image) : Prop :=
  (sel = .live → ¬ TearsBitmap sess c n) → RecoversEither img (docsOf D) g.name g.docs

/-- What a failing call inside a flush leaves. -/
def FlushFails (env : Env) (before : Session) (s : MemoryStorage) (G : Str → Option Ghost) (g : Ghost) (c : Call)
    (sess : Session) (img : Image) : Prop := FlushHarmless before c → Survives env sess s img G g

/-- The collection with other segments. -/
theorem MemInv.withSegments {invNorm : InvNorm} {mode : Durability} {coll : CollInner} {g : Ghost} {img img' : Image}
    (h : MemInv invNorm mode coll g img) {pool : Pool g.cat} {segs : List (Seg g.cat)}
    (hlist : SegList (g.withPool pool) segs) (hsame : img' (.walFile g.name 1) = img (.walFile g.name 1)) :
    MemInv invNorm mode { coll with state := { coll.state with segments := segs.map Seg.data } } (g.withPool pool) img' :=
  ⟨h.catalog, h.memtable, h.few, h.ok, ⟨segs, rfl, hlist⟩, h.wal.congr hsame, h.next⟩

section Flush

variable {env : Env} {sel : Sel} {sess : Session} {s : MemoryStorage} {G D : Str → Option Ghost} {g : Ghost}
  {ops : List LogOp} {docs : DocMap} {ids : List DocId}

/-- A failure while the older segments are being superseded. -/
theorem Superseded.survives {done rest : List (Seg g.cat)} {pool : Pool g.cat} {img : Image} {store : ManifestStore}
    (hlive : LiveInv env.invNorm env.config.durability sess (s.image .live) G g) (h : Superseded g ids done rest pool)
    (hlist : SegList g (done ++ rest)) (hids : ∀ k ∈ ids, Named g.ops k ∨ g.docs k = none)
    (hdisk : DiskInv img store (Function.update G g.name (some (g.withPool pool))))
    (hwal : ∀ name, img (.walFile name 1) = s.image .live (.walFile name 1)) :
    Survives env ((sess.withSegments ((done.map (fun seg => seg.supersede ids) ++ rest).map Seg.data)).withStore store)
      s img G g :=
  ⟨⟨g.withPool pool, rfl, rfl, rfl, hdisk, Function.update_self _ _ _,
    hlive.mem.withSegments (h.segList hlist hids) (hwal g.name)⟩, fun name _ => hwal name⟩

/-- **From the new list to the end**: the commit, then the checkpoint. -/
theorem flushTail_spec {segs : List (Seg g.cat)} {seg : Seg g.cat} {pool : Pool g.cat} {t : MemoryStorage}
    (h : State env sel sess s G D g ops docs) (hset : Settled g ops docs) (hroom : Room sess sess.memtable)
    (hf : Folding sess g ids segs seg pool) (hrows : sess.memtable.liveRows = [] ↔ seg.rows = []) (ht : Shape t)
    (hlive : DiskInv (t.image .live) sess.store (Function.update G g.name (some (g.withPool pool))))
    (hseen : DiskInv (t.image sel) sess.store (Function.update D g.name (some ((g.withPool pool).withLog ops docs))))
    (hwal : ∀ name, t.image .live (.walFile name 1) = s.image .live (.walFile name 1))
    (hnew : seg.rows ≠ [] → ∀ sel, OnDisk (t.image sel) seg) :
    Spec sel (do
        let now ← Proc.get
        commitCollection env (entryFor now ((Engine.folded segs ids seg).map Seg.ref))
        checkpoint env sess.nextSegmentId : Action Session Unit)
      (sess.withSegments ((Engine.folded segs ids seg).map Seg.data)) t
      (fun _ sess' t' => ∃ g', g'.ops = [] ∧ g'.docs = g.docs ∧ After env sel sess sess' s t' G D g g' [] g.docs)
      (FlushDies sel sess D g) (FlushFails env sess s G g) := by
  have hb : g.next + 1 < 2 ^ 64 := by rw [← h.live.mem.next]; exact hroom.nextId
  have hname : sess.name = g.name := h.live.mem.session_name
  set g' := g.folded pool seg hb with hg'
  set final := Engine.folded segs ids seg with hfinal
  set sess1 := sess.withSegments (final.map Seg.data) with hsess1
  set entry := entryFor sess1 (final.map Seg.ref) with hentry
  set next := sess.store.successor (Manifest.withEntry sess.store.current entry) env.nowMs with hnext
  have hself : ∀ (F : Str → Option Ghost) (a : Ghost), Function.update F g.name (some a) g.name = some a :=
    fun F a => Function.update_self _ _ _
  have hstore1 : sess1.store = sess.store := rfl
  have hename : entry.name = g.name := hname
  -- the entry is sound, so the next manifest can be written
  have hlen : final.length ≤ sess.segments.length + 1 := by
    rw [hfinal, Engine.folded, List.length_append, List.length_map, hf.opened, List.length_map]
    split <;> simp
  obtain ⟨hw, hnewer⟩ : next.Writable ∧ sess.store.current.sequence < next.sequence :=
    @CommitRoom.successor _ sess1 _ _ (g.withPool pool) hroom.toCommitRoom hlive (hself G _) hname hname final rfl
      hf.ascending hlen env.nowMs
  -- the collection's files and its entry, under the process's log and under the view's
  have hupd : ∀ (F : Str → Option Ghost) (a b : Ghost), Function.update (Function.update F g.name (some a)) g.name (some b) =
      Function.update F g.name (some b) := fun F a b => Function.update_idem _ _ _
  have hentry' : ∀ {log : List LogOp}, (∀ k v, verdict log k = some v → g.docs k = v) →
      EntryInv (g'.withLog log g.docs) entry := fun hlog => hf.entryInv hb hlog rfl
  have hfiles : ∀ {img : Image} {F : Str → Option Ghost} {log docs'},
      DiskInv img sess.store (Function.update F g.name (some ((g.withPool pool).withLog log docs'))) →
      (seg.rows ≠ [] → OnDisk img seg) → (∀ k v, verdict log k = some v → g.docs k = v) →
      DiskInv (Function.update img (.manifest sess.store.slot.other) (some (encodeBlock .manifest next.payload)))
        ⟨next, sess.store.slot.other⟩ (Function.update F g.name (some (g'.withLog log g.docs))) := fun {img F log docs'} hd hseg hlog => by
    have hc := hd.commitEntry (g := (g.withPool pool).withLog log docs') (hself F _) (t := g'.withLog log g.docs) rfl hename
      (hf.collDisk hb (hd.collDisk (g := (g.withPool pool).withLog log docs') (hself F _)) hseg) (hentry' hlog) hw hnewer
    rw [show ((g.withPool pool).withLog log docs').name = g.name from rfl, hupd] at hc
    exact hc
  -- without a new segment the new list is another one for the same state
  have hlist0 : SegList g (segs ++ []) := by rw [List.append_nil]; exact hf.list
  have hids0 : ∀ k ∈ ids, Named g.ops k ∨ g.docs k = none := fun k hk => .inl ((hf.named k).mp hk)
  have hfinal0 : seg.rows = [] → final = segs.map (fun old => old.supersede ids) ++ [] := fun h0 => by
    rw [hfinal, Engine.folded, if_pos h0]
  have hsame : seg.rows = [] → EntryInv (g.withPool pool) entry := fun h0 => by
    have hlist := hf.sup.segList hlist0 hids0
    rw [← hfinal0 h0] at hlist
    refine ⟨hlist.names, fun r hr => ?_⟩
    obtain ⟨s', hs', rfl⟩ := List.mem_map.mp hr
    exact (hlist.pooled s' hs').2
  have hdocsD : docsOf (Function.update D g.name (some ((g.withPool pool).withLog ops docs))) = docsOf D :=
    docsOf_update_same h.seen.there rfl
  have hdocs' : docsOf (Function.update D g.name (some (g'.withLog ops g.docs))) = Function.update (docsOf D) g.name (some g.docs) :=
    docsOf_update _ _ _
  refine Triple.bind (Triple.get (Triple.bind ?_))
  refine @commitCollection_spec env sel sess1 t entry next hnext ht hw _ _ _ (fun t1 ht1 himg hget => ?_) (fun c n => ?_)
    (fun c n v hv => ?_) (fun c n => ?_) ?_
  rotate_left
  · intro _; left; rw [← hdocsD]; exact hseen.recovers
  · intro _; left; rw [← hdocsD]; exact (hseen.overwrite hv).recovers
  · intro _; right; rw [← hdocs']; exact (hfiles hseen (fun hr => hnew hr sel) hset.agrees).recovers
  · -- a failed commit is harmless when there is no new segment
    intro c img hc himg hharm
    have hmem : sess.memtable.liveRows = [] := by
      unfold FlushHarmless at hharm; rw [hc] at hharm; exact hharm
    have hdisk := hlive.uncertain (g := g.withPool pool) (hself G _) hename (hsame (hrows.mp hmem)) hw hnewer himg
    have hsurvives := hf.sup.survives h.live hlist0 hids0 hdisk (fun name => ?_)
    · rw [← hfinal0 (hrows.mp hmem)] at hsurvives; exact hsurvives
    · rcases himg with rfl | ⟨v, -, rfl⟩ | rfl
      · exact hwal name
      · rw [Function.update_of_ne DbPath.noConfusion]; exact hwal name
      · rw [Function.update_of_ne DbPath.noConfusion]; exact hwal name
  have himg : ∀ sel, t1.image sel = Function.update (t.image sel) (.manifest sess.store.slot.other)
      (some (encodeBlock .manifest next.payload)) := himg
  -- the images after the commit, and the log in them
  have hlive1 : DiskInv (t1.image .live) ⟨next, sess.store.slot.other⟩
      (Function.update G g.name (some (g'.withLog g.ops g.docs))) := by
    rw [himg]; exact hfiles hlive (fun hr => hnew hr .live) h.live.settled.agrees
  have hseen1 : DiskInv (t1.image sel) ⟨next, sess.store.slot.other⟩
      (Function.update D g.name (some (g'.withLog ops g.docs))) := by
    rw [himg]; exact hfiles hseen (fun hr => hnew hr sel) hset.agrees
  have hempty : ∀ {img : Image} {F : Str → Option Ghost} {log docs'},
      DiskInv img sess.store (Function.update F g.name (some ((g.withPool pool).withLog log docs'))) →
      DiskInv (Function.update img (.manifest sess.store.slot.other) (some (encodeBlock .manifest next.payload)))
        ⟨next, sess.store.slot.other⟩ (Function.update F g.name (some (g'.withLog log g.docs))) →
      DiskInv (Function.update (Function.update img (.manifest sess.store.slot.other)
          (some (encodeBlock .manifest next.payload))) (.walFile g.name 1) (some []))
        ⟨next, sess.store.slot.other⟩ (Function.update F g.name (some g')) := fun {img F log docs'} hd hd1 => by
    have hr := hd1.relog (g := g'.withLog log g.docs) (hself F _) (LogHolds.nil g.cat) (Nat.zero_le _) (fun m hm e he hne => by
      rw [hd.committed (g := (g.withPool pool).withLog log docs') (hself F _) hename hw hnewer hm he hne]
      exact hf.names hb)
    rw [show (g'.withLog log g.docs).name = g.name from rfl, hupd] at hr
    exact hr
  have hpath : Layout.walFile (sess1.withStore ⟨next, sess.store.slot.other⟩).name 1 = .ok (.walFile g.name 1) := by
    exact hname.symm ▸ Layout.under_ok g.good.name _
  obtain ⟨bytes, hbytes, -⟩ := h.live.mem.wal.bytes
  have hbytes1 : t1.image .live (.walFile g.name 1) = some bytes := by
    rw [himg, Function.update_of_ne DbPath.noConfusion, hwal]; exact hbytes
  obtain ⟨d, hd, -⟩ := MemoryStorage.file_of_image hbytes1
  have hd : t1.get (.walFile g.name 1) = some (.file d) := hd
  refine checkpoint_spec hpath ht1 hd ?_ (fun c n _ => ?_) (fun c n _ => ?_) (fun c hc hharm => ?_) (fun c x img hc hharm => ?_)
  · refine ⟨g', rfl, rfl, ⟨⟨ht1.put_file (ht1.dirs _ _ hd) (ht1.nested _ _ hd) _, ⟨?_, hself G _, ?_⟩,
      ⟨?_, hself D _, List.prefix_refl _, ?_⟩⟩, rfl, fun name hn => ?_, fun _ => ?_⟩⟩
    · rw [MemoryStorage.image_put_file, himg]
      exact hempty (F := G) hlive (by rw [← himg]; exact hlive1)
    · have hshaped := h.live.mem.shaped
      refine ⟨h.live.mem.catalog, Memtable.clear_eq hshaped, Nat.zero_le _, nofun, ⟨final, rfl, hf.segList hb⟩,
        ⟨rfl, rfl, rfl, [], ?_, rfl⟩, ?_⟩
      · rw [MemoryStorage.image_put_file]; exact Function.update_self _ _ _
      · show (sess.nextSegmentId + 1).toNat = g.next + 1
        rw [UInt64.toNat_add, ← hf.id, hf.next]
        exact Nat.mod_eq_of_lt hb
    · rw [MemoryStorage.image_put_file, himg]
      have he := hempty hseen (by rw [← himg]; exact hseen1)
      cases sel <;> exact he
    · show Names g'.pool [] g.docs ((final.map Seg.data).map SegmentData.ref)
      rw [refs_data]; exact hf.names hb
    · rw [MemoryStorage.image_put_file, Function.update_of_ne (fun he => hn (DbPath.walFile.inj he).1), himg,
        Function.update_of_ne DbPath.noConfusion]
      exact hwal name
    · refine Steady.committed hlive.slots hseen.slots hw hnewer (fun view => ?_)
      have hslot : (.manifest sess.store.slot : DbPath) ≠ .manifest sess.store.slot.other :=
        fun he => Slot.other_ne sess.store.slot (DbPath.manifest.inj he).symm
      rw [MemoryStorage.image_put_file, Function.update_of_ne DbPath.noConfusion, himg, Function.update_of_ne hslot]
  · right; rw [← hdocs']; exact hseen1.recovers
  · right
    have he := hempty hseen (by rw [← himg]; exact hseen1)
    rw [← himg] at he
    have hr := he.recovers
    rw [show (fun name => (Function.update D g.name (some g') name).map Ghost.docs) =
      docsOf (Function.update D g.name (some g')) from rfl, docsOf_update] at hr
    exact hr
  · have hmem : sess.memtable.liveRows = [] := by
      unfold FlushHarmless at hharm
      rcases hc with rfl | rfl <;> exact hharm.1
    have hdisk := hlive.commitEntry (g := g.withPool pool) (hself G _) (t := g.withPool pool) rfl hename
      (hlive.collDisk (g := g.withPool pool) (hself G _)) (hsame (hrows.mp hmem)) hw hnewer
    rw [show (g.withPool pool).name = g.name from rfl, hupd, ← himg] at hdisk
    have hsurvives := hf.sup.survives h.live hlist0 hids0 hdisk (fun name => by
      rw [himg, Function.update_of_ne DbPath.noConfusion]; exact hwal name)
    rw [← hfinal0 (hrows.mp hmem)] at hsurvives
    exact hsurvives
  · exfalso
    unfold FlushHarmless at hharm
    rcases hc with rfl | rfl | rfl
    · rcases hharm.2 with ⟨p, hp⟩ | ⟨f, n, hp⟩ <;> cases hp
    · rcases hharm.2 with ⟨p, hp⟩ | ⟨f, n, hp⟩ <;> cases hp
    · rcases hharm.2 with ⟨p, hp⟩ | ⟨f, n, hp⟩ <;> cases hp

/-- The rows of a segment's reference count as none exactly when there are none. -/
theorem Seg.ref_rows_pos {cat : Catalog} {seg : Seg cat} : 0 < seg.ref.rows ↔ seg.rows ≠ [] := by
  rw [UInt32.lt_iff_toNat_lt, show seg.ref.rows.toNat = seg.rows.length from seg.rows_toNat]
  exact List.length_pos_iff

/-- **Taking the new segment in**: it is opened, or its files are removed when it has no rows. -/
theorem adoptSegment_spec {segs : List (Seg g.cat)} {seg : Seg g.cat} {pool : Pool g.cat} {t : MemoryStorage}
    (h : State env sel sess s G D g ops docs) (hf : Folding sess g ids segs seg pool) (ht : Shape t)
    (hlive : DiskInv (t.image .live) sess.store (Function.update G g.name (some (g.withPool pool))))
    (hseen : DiskInv (t.image sel) sess.store (Function.update D g.name (some ((g.withPool pool).withLog ops docs))))
    (hwal : ∀ name, t.image .live (.walFile name 1) = s.image .live (.walFile name 1))
    (hnew : ∀ sel, OnDisk (t.image sel) seg) :
    Spec sel (adoptSegment seg.ref (segs.map (fun old => (old.supersede ids).ref)))
      (sess.withSegments (segs.map (fun old => (old.supersede ids).data))) t
      (fun refs sess' t' => refs = (Engine.folded segs ids seg).map Seg.ref ∧
        sess' = sess.withSegments ((Engine.folded segs ids seg).map Seg.data) ∧ Shape t' ∧
        DiskInv (t'.image .live) sess.store (Function.update G g.name (some (g.withPool pool))) ∧
        DiskInv (t'.image sel) sess.store (Function.update D g.name (some ((g.withPool pool).withLog ops docs))) ∧
        (∀ name, t'.image .live (.walFile name 1) = s.image .live (.walFile name 1)) ∧
        (seg.rows ≠ [] → ∀ sel, OnDisk (t'.image sel) seg))
      (FlushDies sel sess D g) (FlushFails env sess s G g) := by
  have hlist0 : SegList g (segs ++ []) := by rw [List.append_nil]; exact hf.list
  have hids0 : ∀ k ∈ ids, Named g.ops k ∨ g.docs k = none := fun k hk => .inl ((hf.named k).mp hk)
  have hdocsD : docsOf (Function.update D g.name (some ((g.withPool pool).withLog ops docs))) = docsOf D :=
    docsOf_update_same h.seen.there rfl
  have hdata : segs.map (fun old => (old.supersede ids).data) =
      (segs.map (fun old : Seg g.cat => old.supersede ids) ++ []).map Seg.data := by rw [List.append_nil, List.map_map]; rfl
  -- what stays true while nothing but the new segment's files change
  have hdies : ∀ c n img, Off (OfSegment g.name seg.id) (t.image sel) img → FlushDies sel sess D g c n img := by
    intro c n img hoff _
    left
    rw [← hdocsD]
    exact (hseen.off_segment (g := (g.withPool pool).withLog ops docs) (Function.update_self _ _ _)
      (.inl hf.next.ge) hoff).recovers
  have hfails : ∀ c img, Off (OfSegment g.name seg.id) (t.image .live) img →
      FlushFails env sess s G g c (sess.withSegments (segs.map (fun old => (old.supersede ids).data))) img := by
    intro c img hoff _
    have hdisk := hlive.off_segment (g := g.withPool pool) (Function.update_self _ _ _)
      (.inl hf.next.ge) hoff
    have hsurvives := hf.sup.survives h.live hlist0 hids0 hdisk (fun name => by
      rw [hoff _ (fun ⟨_, hp⟩ => DbPath.noConfusion hp)]; exact hwal name)
    rw [← hdata] at hsurvives
    exact hsurvives
  have hcat : (sess.withSegments (segs.map (fun old => (old.supersede ids).data))).catalog = g.cat := h.live.mem.catalog
  have hname : (sess.withSegments (segs.map (fun old => (old.supersede ids).data))).name = g.cat.name :=
    h.live.mem.session_name
  unfold adoptSegment
  refine Triple.bind (Triple.get ?_)
  by_cases hrows : seg.rows = []
  · rw [if_neg (fun h0 => Seg.ref_rows_pos.mp h0 hrows), hname]
    have hfolded : Engine.folded segs ids seg = segs.map (fun old => old.supersede ids) := by
      unfold Engine.folded; rw [if_pos hrows, List.append_nil]
    refine Triple.bind (removeSegment_spec g.good.name ht (fun u hu => ?_) hdies (fun c img _ => hfails c img))
    refine Triple.pure ⟨by rw [hfolded, List.map_map]; rfl, by rw [hfolded, List.map_map]; rfl, hu.shape, ?_, ?_,
      fun name => ?_, fun h0 => absurd hrows h0⟩
    · exact hlive.off_segment (g := g.withPool pool) (Function.update_self _ _ _)
        (.inl hf.next.ge) (hu.off .live)
    · exact hseen.off_segment (g := (g.withPool pool).withLog ops docs) (Function.update_self _ _ _)
        (.inl hf.next.ge) (hu.off sel)
    · rw [hu.off .live _ (fun ⟨_, hp⟩ => DbPath.noConfusion hp)]; exact hwal name
  · rw [if_pos (Seg.ref_rows_pos.mpr hrows), hcat]
    have hfolded : Engine.folded segs ids seg = segs.map (fun old => old.supersede ids) ++ [seg] := by
      unfold Engine.folded; rw [if_neg hrows]
    refine Triple.bind (open_spec g.good rfl rfl ht (hnew .live) ?_ (fun c n => hdies c n _ (Off.refl _ _))
      (fun c _ _ => hfails c _ (Off.refl _ _)))
    refine Triple.bind (Triple.modify (Triple.pure ⟨?_, ?_, ht, hlive, hseen, hwal, fun _ => hnew⟩))
    · rw [hfolded, List.map_append, List.map_map]; rfl
    · rw [hfolded, List.map_append, List.map_map]; rfl

/-- **A flush changes nothing that a reader can observe.** -/
theorem doFlush_spec (h : State env sel sess s G D g ops docs) (hset : Settled g ops docs)
    (hroom : sess.memtable.isEmpty = false → Room sess sess.memtable) :
    Spec sel (doFlush env) sess s
      (fun _ sess' t => ∃ g', g'.ops = [] ∧ g'.docs = g.docs ∧ After env sel sess sess' s t G D g g' [] g.docs)
      (FlushDies sel sess D g) (FlushFails env sess s G g) := by
  have hmodels := h.live.mem.models
  have hcat : sess.catalog = g.cat := h.live.mem.catalog
  have hname : sess.name = g.cat.name := h.live.mem.session_name
  unfold doFlush
  refine Triple.bind (Triple.get ?_)
  by_cases hempty : sess.memtable.isEmpty = true
  · -- nothing is pending, so neither log has anything in it
    rw [if_pos hempty]
    have hops : g.ops = [] := hmodels.isEmpty_iff.mp hempty
    have hops' : ops = [] := by have := h.seen.lag; rw [hops] at this; exact List.prefix_nil.mp this
    subst hops'
    have hdocs : docs = g.docs := by
      rw [← h.seen.names.docs, ← h.live.seen.names.docs, hops]
    subst hdocs
    exact Triple.pure ⟨g, hops, rfl, h.after_self⟩
  rw [if_neg hempty]
  have hroom := hroom (by simpa using hempty)
  obtain ⟨segs, hsegs, hlist⟩ := h.live.mem.segments
  obtain ⟨seg, hid, hrows, hnew, hcontents⟩ := newSegment_of g.good hmodels h.live.mem.ok hroom.directory hroom.heap
    sess.nextSegmentId
  have hidnext : seg.id.toNat = g.next := by rw [hid]; exact h.live.mem.next
  set ids := sess.memtable.liveRows.map MemRow.id ++ sess.memtable.deletedIds with hids
  have hnamed : ∀ k, k ∈ ids ↔ Named g.ops k := fun k => by
    have hm : k ∈ sess.memtable.liveRows.map MemRow.id ↔ ∃ d, verdict g.ops k = some (some d) := hmodels.mem_liveRows
    have hd : k ∈ sess.memtable.deletedIds ↔ verdict g.ops k = some none := hmodels.mem_deletedIds
    rw [hids, List.mem_append, hm, hd, named_iff_verdict]
    cases verdict g.ops k with
    | none => simp
    | some v => cases v <;> simp
  have hliverows : sess.memtable.liveRows = [] ↔ seg.rows = [] := by
    have hlen : seg.rows.length = sess.memtable.liveRows.length := by rw [hrows]; exact storedRows_length hmodels
    rw [← List.length_eq_zero_iff, ← List.length_eq_zero_iff, hlen]
  rw [hcat, ← hid]
  have hbelow : g.next ≤ seg.id.toNat := hidnext.ge
  refine Triple.bind (flushMemtable_spec g.good hmodels hrows hnew h.shape (fun t ht => ?_) (fun c n img _ hoff _ => ?_)
    (fun c img _ hoff _ => ?_))
  rotate_left
  · left
    exact (h.seen.disk.off_segment (g := g.withLog ops docs) h.seen.there (.inl hbelow) hoff).recovers
  · exact h.live.survives (h.live.disk.off_segment h.live.here (.inl hbelow) hoff)
      (fun name => hoff _ (fun ⟨_, hp⟩ => DbPath.noConfusion hp))
  have hwal : ∀ name, t.image .live (.walFile name 1) = s.image .live (.walFile name 1) :=
    fun name => ht.off .live _ (fun ⟨_, hp⟩ => DbPath.noConfusion hp)
  have hdel : ∀ (old : Seg g.cat) name, (.walFile name 1 : DbPath) ≠ old.delPath := fun old name => DbPath.noConfusion
  refine Triple.bind (Triple.zoom ?_)
  have hopened : sess.segments = segs.map Seg.data := hsegs
  rw [hname, hopened]
  refine supersedeAll_spec ht.shape hlist (h.live.disk.off_segment h.live.here (.inl hbelow) (ht.off .live)) h.live.here
    (h.seen.disk.off_segment (g := g.withLog ops docs) h.seen.there (.inl hbelow) (ht.off sel)) h.seen.there
    (fun k hk => .inl ((hnamed k).mp hk)) (fun k hk => hset.covered k ((hnamed k).mp hk)) (fun pool u hsup hu => ?_)
    (fun c n pool img hd _ => ?_) (fun hl c n img hc htears hno => ?_) (fun c l img hc hharm => ?_)
    (fun old done rest pool img hsplit hsup hd hother _ => ?_)
  · have hf : Folding sess g ids segs seg pool := ⟨hlist, hopened, hnamed, hcontents, hid, hidnext, hsup⟩
    have huwal : ∀ name, u.image .live (.walFile name 1) = s.image .live (.walFile name 1) := fun name => by
      rw [← hwal name]
      exact image_of_get (P := fun p => ∃ old ∈ segs, p = old.delPath)
        (fun p hp => hu.other p (fun old ho he => hp ⟨old, ho, he⟩)) .live _ (fun ⟨old, _, he⟩ => hdel old name he)
    have hdisk : ∀ sel, OnDisk (u.image sel) seg := fun sel which => by
      rw [← ht.files which sel]
      refine image_of_get (P := fun p => ∃ old ∈ segs, p = old.delPath)
        (fun p hp => hu.other p (fun old ho he => hp ⟨old, ho, he⟩)) sel _ (fun ⟨old, ho, he⟩ => ?_)
      have hlt := hf.old_lt ho
      rw [(DbPath.segmentFile.inj he).2.1] at hlt
      omega
    refine Triple.seq (adoptSegment_spec h hf hu.shape hu.live hu.seen huwal hdisk) ?_
    rintro refs sess' v ⟨rfl, rfl, hv, hvlive, hvseen, hvwal, hvnew⟩
    rw [hid]
    exact flushTail_spec h hset hroom hf hliverows hv hvlive hvseen hvwal hvnew
  · left
    have hdocsD : docsOf (Function.update D g.name (some ((g.withPool pool).withLog ops docs))) = docsOf D :=
      docsOf_update_same h.seen.there rfl
    rw [← hdocsD]; exact hd.recovers
  · obtain ⟨old, ho, hp⟩ := hc
    refine absurd ⟨htears, old.data, ?_, ?_⟩ (hno hl)
    · rw [hopened]; exact List.mem_map_of_mem ho
    · rw [hp, hname]; rfl
  · obtain ⟨old, ho, hp, hne⟩ := hc
    refine absurd ?_ hne
    unfold FlushHarmless at hharm
    rw [hp] at hharm
    exact hharm ⟨old.data, by rw [hopened]; exact List.mem_map_of_mem ho, rfl⟩
  · have hsurvives := hsup.survives h.live (by rw [List.append_assoc, List.singleton_append, ← hsplit]; exact hlist)
      (fun k hk => .inl ((hnamed k).mp hk)) hd (fun name => by
        rw [hother _ (fun old' _ => hdel old' name)]; exact hwal name)
    rw [List.map_append, List.map_map] at hsurvives
    exact hsurvives

end Flush

end IshaVectorDb.Engine
