import IshaVectorDb.Correctness.Flush

/-!
# `Correctness.Compaction` — the **compaction**, call by call

A compaction rewrites the live rows of some segments into one and drops those. The merged segment holds what its
sources held together (`mergedSegment_of`), so the new list stands for the same documents (`Merging.names`), under
the log as it is. `compact_spec`: every death inside it leaves the documents as they were, and so does every
failing call that `CompactHarmless` admits.
-/

namespace IshaVectorDb.Engine

open Format Interaction KeyLog

theorem pick_map {α β : Type} (p : Nat → Bool) (f : α → β) (l : List α) : pick p (l.map f) = (pick p l).map f := by
  induction l using List.reverseRecOn with
  | nil => rfl
  | append_singleton l a ih =>
    rw [List.map_append, List.map_singleton, pick_concat, pick_concat, ih, List.map_append, List.length_map]
    cases p l.length <;> rfl

/-- The ids of a segment's live rows. -/
def SegmentData.liveIds (seg : SegmentData) : List DocId := pick seg.isLive seg.ids

theorem Seg.data_liveIds {cat : Catalog} (seg : Seg cat) : seg.data.liveIds = seg.liveRows.map StoredRow.id :=
  pick_map _ _ _

/-- **A compaction of these segments has room.** -/
structure CompactRoom (sess : Session) (options : CompactOptions) : Prop extends CommitRoom sess where
  directory : dirPrefixLen + ((sess.segments.filter options.chooses).map SegmentData.liveCount).sum * dirEntryLen < 2 ^ 32
  heap : (((sess.segments.filter options.chooses).flatMap SegmentData.liveIds).flatMap DocId.toBytes).length < 2 ^ 32

/-! ## The merged segment -/

section Merged

variable {cat : Catalog}

theorem length_flatMap_liveRows (sources : List (Seg cat)) :
    (sources.flatMap Seg.liveRows).length = (sources.map (fun seg => seg.data.liveCount)).sum := by
  rw [List.length_flatMap]
  exact congrArg List.sum (List.map_congr_left (fun seg _ => seg.data_liveCount.symm))

/-- **The live rows of several segments make one**, which holds what they hold together. -/
theorem merge_of {sources : List (Seg cat)} (hsep : Separate (sources.map Seg.contents))
    (hfits : SegFits cat.rowStride ((sources.flatMap Seg.liveRows).map StoredRow.toRow)) (id : UInt64) :
    ∃ seg : Seg cat, seg.id = id ∧ seg.rows = sources.flatMap Seg.liveRows ∧
      seg.tombstones = Tombstones.allLive (UInt32.ofNat seg.rows.length) 0 ∧
      ∀ k, seg.contents k = stack (sources.map Seg.contents) k := by
  have hkinds : ∀ r ∈ sources.flatMap Seg.liveRows, r.id.OfKind cat.idKind := fun r hr => by
    obtain ⟨seg, -, hmem⟩ := List.mem_flatMap.mp hr
    exact seg.kinds r (seg.liveRows_sublist.mem hmem)
  have hdistinct : ((sources.flatMap Seg.liveRows).map StoredRow.id).Nodup := by
    rw [List.map_flatMap]; exact liveIds_nodup hsep
  refine ⟨Seg.fresh id _ hkinds hdistinct hfits, rfl, rfl, rfl, fun k => ?_⟩
  have hiff : ∀ d, (Seg.fresh id _ hkinds hdistinct hfits).contents k = some d ↔ stack (sources.map Seg.contents) k = some d := by
    intro d
    rw [Seg.contents_eq_some_iff_mem, Seg.liveRows_fresh hkinds hdistinct hfits, stack_eq_some hsep]
    constructor
    · rintro ⟨r, hr, hk, hd⟩
      obtain ⟨seg, hseg, hmem⟩ := List.mem_flatMap.mp hr
      exact ⟨_, List.mem_map_of_mem hseg, Seg.contents_eq_some_iff_mem.mpr ⟨r, hmem, hk, hd⟩⟩
    · rintro ⟨L, hL, hd⟩
      obtain ⟨seg, hseg, rfl⟩ := List.mem_map.mp hL
      obtain ⟨r, hmem, hk, hd⟩ := Seg.contents_eq_some_iff_mem.mp hd
      exact ⟨r, List.mem_flatMap.mpr ⟨seg, hseg, hmem⟩, hk, hd⟩
  exact Option.ext hiff

/-- **The segment a compaction writes**, when there is room. -/
theorem mergedSegment_of (hcat : GoodCatalog cat) {sources : List (Seg cat)}
    (hsep : Separate (sources.map Seg.contents))
    (hdir : dirPrefixLen + (sources.map (fun seg => seg.data.liveCount)).sum * dirEntryLen < 2 ^ 32)
    (hheap : ((sources.flatMap (fun seg => seg.data.liveIds)).flatMap DocId.toBytes).length < 2 ^ 32) (id : UInt64) :
    ∃ seg : Seg cat, seg.id = id ∧ seg.rows = sources.flatMap Seg.liveRows ∧
      seg.tombstones = Tombstones.allLive (UInt32.ofNat seg.rows.length) 0 ∧
      ∀ k, seg.contents k = stack (sources.map Seg.contents) k := by
  have hstride := hcat.stride_lt
  refine merge_of hsep ⟨fun r hr => ?_, ?_, ?_, by omega⟩ id
  · obtain ⟨r', hr', rfl⟩ := List.mem_map.mp hr
    obtain ⟨seg, -, hmem⟩ := List.mem_flatMap.mp hr'
    exact seg.fits.each _ (List.mem_map_of_mem (seg.liveRows_sublist.mem hmem))
  · rw [List.length_map, length_flatMap_liveRows]; exact hdir
  · have hids : ((sources.flatMap Seg.liveRows).map StoredRow.toRow).flatMap SegmentRow.id =
        (sources.flatMap (fun seg => seg.data.liveIds)).flatMap DocId.toBytes := by
      have hlive : sources.flatMap (fun seg => seg.data.liveIds) =
          (sources.flatMap Seg.liveRows).map StoredRow.id := by
        rw [List.map_flatMap]
        exact List.flatMap_congr (fun seg _ => seg.data_liveIds)
      rw [hlive, List.flatMap_map, List.flatMap_map]
      rfl
    have hle := heap_dropLast_le ((sources.flatMap Seg.liveRows).map StoredRow.toRow)
    rw [hids] at hle
    omega

end Merged

/-- The list of segments after a compaction. -/
def merged {cat : Catalog} (kept : List (Seg cat)) (seg : Seg cat) : List (Seg cat) :=
  kept ++ (if seg.rows = [] then [] else [seg])

/-- The collection with a new segment beside the others. -/
def Ghost.enlarged (g : Ghost) (seg : Seg g.cat) (h : g.next + 1 < 2 ^ 64) : Ghost :=
  ⟨g.cat, g.good, Function.update g.pool seg.id (if seg.rows = [] then none else some seg), g.ops, g.docs, g.next + 1, h⟩

/-- The collection without some of its segments. -/
def Ghost.without (g : Ghost) (ids : List UInt64) : Ghost :=
  g.withPool (fun id => if id ∈ ids then none else g.pool id)

/-- **A compaction in progress**: the merged segment holds what its sources hold, beside the segments kept. -/
structure Merging (sess : Session) (g : Ghost) (segs sources kept : List (Seg g.cat)) (seg : Seg g.cat) : Prop where
  list : SegList g segs
  parts : (kept ++ sources).Perm segs
  kept : kept.Sublist segs
  contents : ∀ k, seg.contents k = stack (sources.map Seg.contents) k
  id : seg.id = sess.nextSegmentId
  next : seg.id.toNat = g.next

namespace Merging

variable {sess : Session} {g : Ghost} {segs sources kept : List (Seg g.cat)} {seg : Seg g.cat}

theorem pooled (h : Merging sess g segs sources kept seg) {old : Seg g.cat} (ho : old ∈ kept ∨ old ∈ sources) :
    g.pool old.id = some old ∧ old.id.toNat < g.next :=
  h.list.pooled old (h.parts.mem_iff.mp (List.mem_append.mpr ho))

theorem old_ne (h : Merging sess g segs sources kept seg) {id : UInt64} (hid : id.toNat < g.next) : id ≠ seg.id := fun he => by
  have := h.next
  rw [← he] at this; omega

theorem ascending (h : Merging sess g segs sources kept seg) :
    (merged kept seg).Pairwise (fun a b => a.id.toNat < b.id.toNat) := by
  have hkept := h.list.ascending.sublist h.kept
  unfold merged
  split
  · rw [List.append_nil]; exact hkept
  · refine List.pairwise_append.mpr ⟨hkept, List.pairwise_singleton _ _, fun a ha b hb => ?_⟩
    obtain rfl := List.mem_singleton.mp hb
    have := (h.pooled (.inl ha)).2
    rw [h.next]; exact this

theorem separate (h : Merging sess g segs sources kept seg) : Separate ((kept ++ sources).map Seg.contents) :=
  h.list.separate.perm (h.parts.map _).symm (fun h => h.symm)

/-- **The merged list holds what the old one held.** -/
theorem stack_merged (h : Merging sess g segs sources kept seg) :
    Separate ((merged kept seg).map Seg.contents) ∧
      stack ((merged kept seg).map Seg.contents) = stack (segs.map Seg.contents) := by
  have hsep := h.separate
  have hall : stack ((kept ++ sources).map Seg.contents) = stack (segs.map Seg.contents) :=
    stack_perm hsep (h.parts.map _)
  rw [List.map_append] at hsep hall
  obtain ⟨hsepKept, -, hcross⟩ := List.pairwise_append.mp hsep
  have hnone : seg.rows = [] → ∀ k, stack (sources.map Seg.contents) k = none := fun h0 k => by
    rw [← h.contents]
    refine Option.eq_none_iff_forall_ne_some.mpr (fun d hd => ?_)
    obtain ⟨i, r, hr, -⟩ := Seg.contents_eq_some.mp hd
    rw [h0] at hr; cases hr
  have hstack : stack ((merged kept seg).map Seg.contents) = stack (segs.map Seg.contents) := by
    rw [← hall]
    funext k
    unfold merged
    rw [List.map_append, stack_append, stack_append]
    split
    · rename_i h0; rw [hnone h0 k]; rfl
    · rw [← h.contents k]; rfl
  refine ⟨?_, hstack⟩
  unfold merged
  split
  · rw [List.append_nil]; exact hsepKept
  · rw [List.map_append]
    refine List.pairwise_append.mpr ⟨hsepKept, List.pairwise_singleton _ _, fun L hL N hN k => ?_⟩
    obtain rfl := List.mem_singleton.mp hN
    rw [h.contents]
    cases hs : stack (sources.map Seg.contents) k with
    | none => exact .inr rfl
    | some d =>
      obtain ⟨N', hN', hd⟩ := mem_of_stack hs
      exact .inl ((hcross L hL N' hN' k).resolve_right (by rw [hd]; exact Option.some_ne_none d))

/-- Where the merged list finds its segments. -/
theorem found (h : Merging sess g segs sources kept seg) (hb : g.next + 1 < 2 ^ 64) {s : Seg g.cat}
    (hs : s ∈ merged kept seg) : (g.enlarged seg hb).pool s.id = some s ∧ s.id.toNat < g.next + 1 := by
  rcases List.mem_append.mp hs with hk | hk
  · have hold := h.pooled (.inl hk)
    refine ⟨?_, by omega⟩
    show Function.update g.pool seg.id _ s.id = _
    rw [Function.update_of_ne (h.old_ne hold.2)]; exact hold.1
  · split at hk
    · cases hk
    · rename_i hrows
      obtain rfl := List.mem_singleton.mp hk
      refine ⟨?_, by rw [h.next]; omega⟩
      show Function.update g.pool s.id _ s.id = _
      rw [Function.update_self, if_neg hrows]

/-- No source is in the merged list. -/
theorem source_ne (h : Merging sess g segs sources kept seg) {s old : Seg g.cat} (hs : s ∈ merged kept seg)
    (ho : old ∈ sources) : old.id ≠ s.id := fun hid => by
  have hold := h.pooled (.inr ho)
  rcases List.mem_append.mp hs with hk | hk
  · have hnodup : ((kept ++ sources).map (fun s : Seg g.cat => s.id)).Nodup := by
      refine ((h.parts.map _).nodup_iff).mpr ?_
      refine List.pairwise_map.mpr (h.list.ascending.imp (fun {a b} hab he => ?_))
      rw [he] at hab; omega
    rw [List.map_append] at hnodup
    exact (List.nodup_append'.mp hnodup).2.2 (List.mem_map_of_mem hk) (by rw [← hid]; exact List.mem_map_of_mem ho)
  · split at hk
    · cases hk
    · obtain rfl := List.mem_singleton.mp hk
      exact h.old_ne hold.2 hid

/-- The merged list is found without the sources, too. -/
theorem found_without (h : Merging sess g segs sources kept seg) (hb : g.next + 1 < 2 ^ 64) {s : Seg g.cat}
    (hs : s ∈ merged kept seg) :
    ((g.enlarged seg hb).without (sources.map (fun old => old.id))).pool s.id = some s := by
  refine (if_neg (fun hmem => ?_)).trans (h.found hb hs).1
  obtain ⟨old, ho, hid⟩ := List.mem_map.mp hmem
  exact h.source_ne hs ho hid

/-- **The merged list stands for what the old one stood for**, under any part of the log. -/
theorem names (h : Merging sess g segs sources kept seg) {pool : Pool g.cat}
    (hp : ∀ s ∈ merged kept seg, pool s.id = some s) {ops : List LogOp} {docs : DocMap}
    (hn : Names g.pool ops docs (segs.map Seg.ref)) : Names pool ops docs ((merged kept seg).map Seg.ref) := by
  obtain ⟨hsep, hstack⟩ := h.stack_merged
  have hlayers : layers pool ((merged kept seg).map Seg.ref) = (merged kept seg).map Seg.contents := by
    unfold layers
    rw [List.map_map]
    exact List.map_congr_left (fun s hs => layer_of (hp s hs))
  refine ⟨fun r hr => ?_, by rw [hlayers]; exact hsep, ?_⟩
  · obtain ⟨s, hs, rfl⟩ := List.mem_map.mp hr
    exact ⟨s, hp s hs, rfl⟩
  · rw [hlayers, hstack, ← h.list.layers_eq]; exact hn.docs

theorem segList (h : Merging sess g segs sources kept seg) (hb : g.next + 1 < 2 ^ 64) {pool : Pool g.cat}
    (hp : ∀ s ∈ merged kept seg, pool s.id = some s) :
    SegList ((g.enlarged seg hb).withPool pool) (merged kept seg) :=
  ⟨fun s hs => ⟨hp s hs, (h.found hb hs).2⟩, h.ascending, h.names hp h.list.names⟩

/-- The entry that a compaction commits. -/
theorem entryInv (h : Merging sess g segs sources kept seg) (hb : g.next + 1 < 2 ^ 64) {pool : Pool g.cat}
    (hp : ∀ s ∈ merged kept seg, pool s.id = some s) {ops : List LogOp} {docs : DocMap}
    (hn : Names g.pool ops docs (segs.map Seg.ref)) {entry : CollectionEntry}
    (hentry : entry.segments = (merged kept seg).map Seg.ref) :
    EntryInv (((g.enlarged seg hb).withPool pool).withLog ops docs) entry := by
  refine ⟨by rw [hentry]; exact h.names hp hn, fun r hr => ?_⟩
  rw [hentry] at hr
  obtain ⟨s, hs, rfl⟩ := List.mem_map.mp hr
  exact (h.found hb hs).2

end Merging

/-! ## The collection's files -/

section Disk

variable {img : Image} {store : ManifestStore} {D : Str → Option Ghost} {g : Ghost}

/-- **A new segment's files are there**, before anything names it. -/
theorem DiskInv.enlarge (h : DiskInv img store D) (hg : D g.name = some g) {seg : Seg g.cat} (hid : seg.id.toNat = g.next)
    (hb : g.next + 1 < 2 ^ 64) (hseg : seg.rows ≠ [] → OnDisk img seg) :
    DiskInv img store (Function.update D g.name (some (g.enlarged seg hb))) := by
  have hcoll := h.collDisk hg
  have hne : ∀ {id : UInt64}, id.toNat < g.next → id ≠ seg.id := fun hlt he => by rw [he] at hlt; omega
  refine h.step (t := g.enlarged seg hb) (fun _ => rfl) (Off.refl _ _) ⟨hcoll.catalog, hcoll.log, hcoll.few, ?_⟩
    (by rw [show (g.enlarged seg hb).name = g.name from rfl, hg]; rfl) (fun m hm e he hname => ?_)
  · intro id s hlt hs
    have hlt : id.toNat < g.next + 1 := hlt
    have hs : Function.update g.pool seg.id (if seg.rows = [] then none else some seg) id = some s := hs
    by_cases hi : id = seg.id
    · subst hi
      rw [Function.update_self] at hs
      split at hs
      · cases hs
      · rename_i hrows
        obtain rfl := Option.some.inj hs
        exact ⟨rfl, hseg hrows⟩
    · rw [Function.update_of_ne hi] at hs
      have hn : id.toNat ≠ g.next := fun he => hi (UInt64.toNat.inj (he.trans hid.symm))
      exact hcoll.segments id s (by omega) hs
  · have hi := h.entryInv hg hm he hname
    refine ⟨hi.names.congr (fun r hr => Function.update_of_ne (hne (hi.below r hr)) _ _), fun r hr => ?_⟩
    have := hi.below r hr
    show r.id.toNat < g.next + 1
    omega

/-- **Segments that no manifest names are forgotten.** -/
theorem DiskInv.forget (h : DiskInv img store D) (hg : D g.name = some g) {ids : List UInt64}
    (hids : ∀ m, Candidate img store m → ∀ e ∈ m.collections, e.name = g.name → ∀ r ∈ e.segments, r.id ∉ ids) :
    DiskInv img store (Function.update D g.name (some (g.without ids))) := by
  have hcoll := h.collDisk hg
  refine h.step (t := g.without ids) (fun _ => rfl) (Off.refl _ _) ⟨hcoll.catalog, hcoll.log, hcoll.few, ?_⟩
    (by rw [show (g.without ids).name = g.name from rfl, hg]; rfl) (fun m hm e he hname => ?_)
  · intro id s hlt hs
    have hs : (if id ∈ ids then none else g.pool id) = some s := hs
    split at hs
    · cases hs
    · exact hcoll.segments id s hlt hs
  · have hi := h.entryInv hg hm he hname
    exact ⟨hi.names.congr (fun r hr => if_neg (hids m hm e he hname r hr)), hi.below⟩

end Disk

/-! ## The compaction -/

/-- **The calls of a compaction whose failure shows nowhere**: all but those that read or remove the rewritten
    segment, while the list of segments is empty. -/
def CompactHarmless (sess : Session) (c : Call) : Prop :=
  match c.path with
  | .segmentFile _ id _ => id = sess.nextSegmentId → ¬ c.IsRead ∧ ∀ p, c ≠ .removeFile p
  | _ => True

/-- What a failing call inside a compaction leaves. -/
def CompactFails (env : Env) (before : Session) (s : MemoryStorage) (G : Str → Option Ghost) (g : Ghost) (c : Call)
    (sess : Session) (img : Image) : Prop := CompactHarmless before c → Survives env sess s img G g

/-- The session once the new list is in place. -/
def Session.compacted (sess : Session) (segments : List SegmentData) (newId : UInt64) : Session :=
  sess.withState (fun c => { c with segments := segments, nextSegmentId := newId + 1 })

section Compact

variable {env : Env} {sel : Sel} {sess : Session} {s : MemoryStorage} {G D : Str → Option Ghost} {g : Ghost}
  {ops : List LogOp} {docs : DocMap} {segs sources kept : List (Seg g.cat)} {seg : Seg g.cat}

/-- The collection in memory after a compaction. -/
theorem Merging.memInv {img : Image} (h : Merging sess g segs sources kept seg) (hb : g.next + 1 < 2 ^ 64)
    (hmem : MemInv env.invNorm env.config.durability sess.coll g (s.image .live)) {pool : Pool g.cat}
    (hp : ∀ s ∈ merged kept seg, pool s.id = some s)
    (hwal : img (.walFile g.name 1) = s.image .live (.walFile g.name 1)) :
    MemInv env.invNorm env.config.durability (sess.compacted ((merged kept seg).map Seg.data) seg.id).coll
      ((g.enlarged seg hb).withPool pool) img := by
  refine ⟨hmem.catalog, hmem.memtable, hmem.few, hmem.ok, ⟨merged kept seg, rfl, h.segList hb hp⟩, hmem.wal.congr hwal, ?_⟩
  show (seg.id + 1).toNat = g.next + 1
  rw [UInt64.toNat_add, h.next]
  exact Nat.mod_eq_of_lt hb

/-- **Removing the sources**, once no manifest names them. -/
theorem removeSources_spec {store : ManifestStore} {D' G' : Str → Option Ghost} {t : MemoryStorage} {g' : Ghost}
    {ids : List UInt64} {sess' : Session} {Q : Unit → Session → MemoryStorage → Prop} {K : Call → Nat → Image → Prop}
    {F : Call → Session → Image → Prop} (ht : Shape t) (hlive : DiskInv (t.image .live) store G')
    (hseen : DiskInv (t.image sel) store D') (hG : G' g.name = some (g'.without ids))
    (hD : D' g.name = some ((g'.withLog ops docs).without ids)) (hname : g'.name = g.name)
    (hQ : ∀ u, Shape u → DiskInv (u.image .live) store G' → DiskInv (u.image sel) store D' →
      (∀ name, u.image .live (.walFile name 1) = t.image .live (.walFile name 1)) →
      (∀ slot view, u.image view (.manifest slot) = t.image view (.manifest slot)) → Q () sess' u)
    (hK : ∀ c n img, DiskInv img store D' → K c n img)
    (hF : ∀ c img, DiskInv img store G' → (∀ name, img (.walFile name 1) = t.image .live (.walFile name 1)) →
      F c sess' img) (l : List SegmentData) (hl : ∀ d ∈ l, d.id ∈ ids) :
    Spec sel (Proc.forList (fun d => removeSegment g.name d.id) l) sess' t Q K F := by
  refine (Triple.forList (fun _ x u => x = sess' ∧ Shape u ∧ DiskInv (u.image .live) store G' ∧
    DiskInv (u.image sel) store D' ∧ (∀ name, u.image .live (.walFile name 1) = t.image .live (.walFile name 1)) ∧
    ∀ slot view, u.image view (.manifest slot) = t.image view (.manifest slot)) l ?_
    ⟨rfl, ht, hlive, hseen, fun _ => rfl, fun _ _ => rfl⟩).conseq ?_
  · rintro done d rest x u hsplit ⟨rfl, hu, hulive, huseen, huwal, huslots⟩
    have hd : d.id ∈ ids := hl d (by rw [hsplit]; exact List.mem_append_right _ List.mem_cons_self)
    have hoffG : ∀ {img}, Off (OfSegment g.name d.id) (u.image .live) img → DiskInv img store G' := fun hoff => by
      refine hulive.off_segment (g := g'.without ids) (by exact hname ▸ hG) (.inr (if_pos hd)) ?_
      rw [show (g'.without ids).name = g.name from hname]; exact hoff
    have hoffD : ∀ {img}, Off (OfSegment g.name d.id) (u.image sel) img → DiskInv img store D' := fun hoff => by
      refine huseen.off_segment (g := (g'.withLog ops docs).without ids) (by exact hname ▸ hD) (.inr (if_pos hd)) ?_
      rw [show ((g'.withLog ops docs).without ids).name = g.name from hname]; exact hoff
    have hsame : ∀ {img : Image}, Off (OfSegment g.name d.id) (u.image .live) img →
        ∀ name, img (.walFile name 1) = t.image .live (.walFile name 1) := fun hoff name => by
      rw [hoff _ (fun ⟨_, hp⟩ => DbPath.noConfusion hp)]; exact huwal name
    refine removeSegment_spec g.good.name hu (fun v hv => ?_) (fun c n img hoff => hK c n img (hoffD hoff))
      (fun c img _ hoff => hF c img (hoffG hoff) (hsame hoff))
    refine ⟨rfl, hv.shape, hoffG (hv.off .live), hoffD (hv.off sel), hsame (hv.off .live), fun slot view => ?_⟩
    rw [hv.off view _ (fun ⟨_, hp⟩ => DbPath.noConfusion hp)]; exact huslots slot view
  · rintro _ x u ⟨rfl, hu, hulive, huseen, huwal, huslots⟩
    exact hQ u hu hulive huseen huwal huslots

/-- **From the new list to the end**: the commit, then the removal of the sources. -/
theorem compactTail_spec {t : MemoryStorage} {report : CompactReport} (h : State env sel sess s G D g ops docs)
    (hm : Merging sess g segs sources kept seg) (hopened : sess.segments = segs.map Seg.data) (hroom : CommitRoom sess)
    (hb : g.next + 1 < 2 ^ 64) (ht : Shape t)
    (hlive : DiskInv (t.image .live) sess.store (Function.update G g.name (some (g.enlarged seg hb))))
    (hseen : DiskInv (t.image sel) sess.store (Function.update D g.name (some ((g.enlarged seg hb).withLog ops docs))))
    (hwal : ∀ name, t.image .live (.walFile name 1) = s.image .live (.walFile name 1)) :
    Spec sel (do
        let now ← Proc.get
        commitCollection env (entryFor now ((merged kept seg).map Seg.ref))
        Proc.forList (fun d => removeSegment sess.name d.id) (sources.map Seg.data)
        return report : Action Session CompactReport)
      (sess.compacted ((merged kept seg).map Seg.data) seg.id) t
      (fun _ sess' t' => ∃ g', g'.ops = g.ops ∧ g'.docs = g.docs ∧ After env sel sess sess' s t' G D g g' ops docs)
      (KeepsDocs D) (CompactFails env sess s G g) := by
  have hname : sess.name = g.name := h.live.mem.session_name
  set sess1 := sess.compacted ((merged kept seg).map Seg.data) seg.id with hsess1
  set g1 := g.enlarged seg hb with hg1
  set entry := entryFor sess1 ((merged kept seg).map Seg.ref) with hentry
  set next := sess.store.successor (Manifest.withEntry sess.store.current entry) env.nowMs with hnext
  set ids := sources.map (fun old => old.id) with hids
  have hself : ∀ (F : Str → Option Ghost) (a : Ghost), Function.update F g.name (some a) g.name = some a :=
    fun F a => Function.update_self _ _ _
  have hupd : ∀ (F : Str → Option Ghost) (a b : Ghost), Function.update (Function.update F g.name (some a)) g.name (some b) =
      Function.update F g.name (some b) := fun F a b => Function.update_idem _ _ _
  have hename : entry.name = g.name := hname
  have hlen : (merged kept seg).length ≤ sess.segments.length + 1 := by
    have hk : kept.length ≤ segs.length := hm.kept.length_le
    rw [merged, List.length_append, hopened, List.length_map]
    split
    · simp; omega
    · simp; omega
  obtain ⟨hw, hnewer⟩ : next.Writable ∧ sess.store.current.sequence < next.sequence :=
    @CommitRoom.successor _ sess1 _ _ g1 hroom hlive (hself G _) hname hname _ rfl hm.ascending hlen env.nowMs
  -- the documents stand under either list, with or without the sources' files
  have hnames : Names g.pool g.ops g.docs (segs.map Seg.ref) := hm.list.names
  have hnames' : Names g.pool ops docs (segs.map Seg.ref) := by
    have hn := h.seen.names
    rw [hopened, refs_data] at hn; exact hn
  have hfound : ∀ s ∈ merged kept seg, g1.pool s.id = some s := fun s hs => (hm.found hb hs).1
  have hentryG : EntryInv g1 entry := hm.entryInv hb hfound hnames rfl
  have hentryD : EntryInv (g1.withLog ops docs) entry := hm.entryInv hb hfound hnames' rfl
  have hcommitted : ∀ {img : Image} {F : Str → Option Ghost} (log docs'),
      DiskInv img sess.store (Function.update F g.name (some (g1.withLog log docs'))) → EntryInv (g1.withLog log docs') entry →
      DiskInv (Function.update img (.manifest sess.store.slot.other) (some (encodeBlock .manifest next.payload)))
        ⟨next, sess.store.slot.other⟩ (Function.update F g.name (some (g1.withLog log docs'))) := fun {img F} log docs' hd he => by
    have hc := hd.commitEntry (g := g1.withLog log docs') (hself F _) (t := g1.withLog log docs') rfl hename
      (hd.collDisk (g := g1.withLog log docs') (hself F _)) he hw hnewer
    rw [show (g1.withLog log docs').name = g.name from rfl, hupd] at hc
    exact hc
  have hforgotten : ∀ {img : Image} {F : Str → Option Ghost} (log docs'),
      DiskInv img sess.store (Function.update F g.name (some (g1.withLog log docs'))) → EntryInv (g1.withLog log docs') entry →
      DiskInv (Function.update img (.manifest sess.store.slot.other) (some (encodeBlock .manifest next.payload)))
        ⟨next, sess.store.slot.other⟩ (Function.update F g.name (some ((g1.withLog log docs').without ids))) := fun {img F} log docs' hd he => by
    have hf := (hcommitted log docs' hd he).forget (g := g1.withLog log docs') (hself F _) (fun m hm' e he' hne r hr hmem => by
      rw [hd.committed (g := g1.withLog log docs') (hself F _) hename hw hnewer hm' he' hne] at hr
      obtain ⟨s', hs', rfl⟩ := List.mem_map.mp hr
      obtain ⟨old, ho, hid⟩ := List.mem_map.mp hmem
      exact hm.source_ne hs' ho hid)
    rw [show (g1.withLog log docs').name = g.name from rfl, hupd] at hf
    exact hf
  refine Triple.bind (Triple.get (Triple.bind ?_))
  refine @commitCollection_spec env sel sess1 t entry next hnext ht hw _ _ _ (fun t1 ht1 himg hget => ?_) (fun c n => ?_)
    (fun c n v hv => ?_) (fun c n => ?_) ?_
  rotate_left
  · exact .of_update hseen h.seen.there rfl c n
  · exact .of_update (hseen.overwrite hv) h.seen.there rfl c n
  · exact .of_update (hcommitted ops docs hseen hentryD) h.seen.there rfl c n
  · -- a commit that failed leaves the new list in memory and either manifest on disk
    intro c img hc himg _
    have hdisk := hlive.uncertain (g := g1) (hself G _) hename hentryG hw hnewer himg
    have hsame : ∀ name, img (.walFile name 1) = s.image .live (.walFile name 1) := fun name => by
      rcases himg with rfl | ⟨v, -, rfl⟩ | rfl
      · exact hwal name
      · rw [Function.update_of_ne DbPath.noConfusion]; exact hwal name
      · rw [Function.update_of_ne DbPath.noConfusion]; exact hwal name
    exact ⟨⟨g1, rfl, rfl, rfl, hdisk, hself G _, hm.memInv hb h.live.mem hfound (hsame g.name)⟩, fun name _ => hsame name⟩
  have himg : ∀ sel, t1.image sel = Function.update (t.image sel) (.manifest sess.store.slot.other)
      (some (encodeBlock .manifest next.payload)) := himg
  have hwal1 : ∀ name, t1.image .live (.walFile name 1) = s.image .live (.walFile name 1) := fun name => by
    rw [himg, Function.update_of_ne DbPath.noConfusion]; exact hwal name
  have hfound' : ∀ s ∈ merged kept seg, (g1.without ids).pool s.id = some s := fun s hs => hm.found_without hb hs
  have hlive1 : DiskInv (t1.image .live) ⟨next, sess.store.slot.other⟩ (Function.update G g.name (some (g1.without ids))) := by
    rw [himg]; exact hforgotten g.ops g.docs hlive hentryG
  have hseen1 : DiskInv (t1.image sel) ⟨next, sess.store.slot.other⟩
      (Function.update D g.name (some ((g1.withLog ops docs).without ids))) := by
    rw [himg]; exact hforgotten ops docs hseen hentryD
  rw [hname]
  refine Triple.bind (removeSources_spec ht1 hlive1 hseen1
    (hself G _) (hself D _) rfl (fun u hu hulive huseen huwal huslots => ?_) (fun c n img hd => ?_) (fun c img hd hsame _ => ?_) _
    (fun d hd => ?_))
  · have hsame : ∀ name, u.image .live (.walFile name 1) = s.image .live (.walFile name 1) :=
      fun name => (huwal name).trans (hwal1 name)
    have hslot : (.manifest sess.store.slot : DbPath) ≠ .manifest sess.store.slot.other :=
      fun he => Slot.other_ne sess.store.slot (DbPath.manifest.inj he).symm
    exact Triple.pure ⟨g1.without ids, rfl, rfl, ⟨hu, ⟨hulive, hself G _, hm.memInv hb h.live.mem hfound' (hsame g.name)⟩,
      ⟨huseen, hself D _, h.seen.lag, by
        show Names (g1.without ids).pool ops docs (((merged kept seg).map Seg.data).map SegmentData.ref)
        rw [refs_data]; exact hm.names hfound' hnames'⟩⟩, rfl, fun name _ => hsame name,
      fun _ => Steady.committed hlive.slots hseen.slots hw hnewer (fun view => by
        rw [huslots, himg]
        exact Function.update_of_ne hslot _ _)⟩
  · exact .of_update hd h.seen.there rfl c n
  · have hsame' : ∀ name, img (.walFile name 1) = s.image .live (.walFile name 1) :=
      fun name => (hsame name).trans (hwal1 name)
    exact ⟨⟨g1.without ids, rfl, rfl, rfl, hd, hself G _, hm.memInv hb h.live.mem hfound' (hsame' g.name)⟩,
      fun name _ => hsame' name⟩
  · obtain ⟨old, ho, rfl⟩ := List.mem_map.mp hd
    exact List.mem_map_of_mem ho

/-- **A compaction changes nothing that a reader can observe**, and no death inside it does. -/
theorem compact_spec {options : CompactOptions} (h : State env sel sess s G D g ops docs) (hw : env.config.readOnly = false)
    (hroom : sess.segments.filter options.chooses ≠ [] → CompactRoom sess options) :
    Spec sel (compact env options) sess s
      (fun _ sess' t => ∃ g', g'.ops = g.ops ∧ g'.docs = g.docs ∧ After env sel sess sess' s t G D g g' ops docs)
      (KeepsDocs D) (CompactFails env sess s G g) := by
  have hcat : sess.catalog = g.cat := h.live.mem.catalog
  have hname : sess.name = g.cat.name := h.live.mem.session_name
  obtain ⟨segs, hopened, hlist⟩ := h.live.mem.segments
  have hopened : sess.segments = segs.map Seg.data := hopened
  set sources := segs.filter (fun old => options.chooses old.data) with hsources
  set kept := segs.filter (fun old => !options.chooses old.data) with hkept
  have hchosen : sess.segments.filter options.chooses = sources.map Seg.data := by
    rw [hopened, List.filter_map]; rfl
  have hrest : sess.segments.filter (fun seg => ¬ options.chooses seg) = kept.map Seg.data := by
    rw [hopened, List.filter_map, hkept]
    congr 1
    exact List.filter_congr (fun old _ => by cases h : options.chooses old.data <;> simp [h])
  unfold compact
  refine Triple.bind ?_
  rw [show (checkWritable env "compact" : Action Session Unit) = Pure.pure () from by
    unfold checkWritable; rw [hw]; rfl]
  refine Triple.pure (Triple.bind (Triple.get ?_))
  rw [hchosen]
  by_cases hempty : sources = []
  · -- no segment is chosen
    rw [hempty]
    exact Triple.pure ⟨g, rfl, rfl, h.after_self⟩
  have hroom := hroom (by rw [hchosen]; simpa using hempty)
  have hne : (sources.map Seg.data).isEmpty = false := by
    rw [List.isEmpty_eq_false_iff]; simpa using hempty
  dsimp only
  rw [if_neg (by rw [hne]; exact Bool.false_ne_true)]
  have hb : g.next + 1 < 2 ^ 64 := by rw [← h.live.mem.next]; exact hroom.nextId
  have hsep : Separate (sources.map Seg.contents) := hlist.separate.sublist (List.filter_sublist.map _)
  have hdir := hroom.directory
  have hheap := hroom.heap
  rw [hchosen] at hdir hheap
  rw [List.map_map] at hdir
  rw [List.flatMap_map] at hheap
  obtain ⟨seg, hid, hrows, hnew, hcontents⟩ := mergedSegment_of g.good hsep hdir hheap sess.nextSegmentId
  have hidnext : seg.id.toNat = g.next := by rw [hid]; exact h.live.mem.next
  have hbelow : g.next ≤ seg.id.toNat := hidnext.ge
  have hm : Merging sess g segs sources kept seg := by
    refine ⟨hlist, ?_, List.filter_sublist, hcontents, hid, hidnext⟩
    have hp := List.filter_append_perm (fun old : Seg g.cat => options.chooses old.data) segs
    exact List.perm_append_comm.trans hp
  have hsorted : ∀ {α : Type} (f : Seg g.cat → α) (key : α → UInt64), (∀ s, key (f s) = s.id) →
      ((merged kept seg).map f).insertionSort (fun a b => (key a).toNat ≤ (key b).toNat) = (merged kept seg).map f :=
    fun f key hf => by
      refine List.Pairwise.insertionSort_eq (List.pairwise_map.mpr (hm.ascending.imp (fun {a b} hab => ?_)))
      rw [hf, hf]; exact hab.le
  rw [hcat, ← hid]
  refine Triple.bind (compactSegments_spec g.good hrows hnew h.shape (fun t ht => ?_) (fun c n img _ hoff => ?_)
    (fun c img _ hoff _ => ?_))
  rotate_left
  · exact (h.seen.disk.off_segment (g := g.withLog ops docs) h.seen.there (.inl hbelow) hoff).recovers
  · exact h.live.survives (h.live.disk.off_segment h.live.here (.inl hbelow) hoff)
      (fun name => hoff _ (fun ⟨_, hp⟩ => DbPath.noConfusion hp))
  -- the new files are there, and nothing names them
  have hwal : ∀ name, t.image .live (.walFile name 1) = s.image .live (.walFile name 1) :=
    fun name => ht.off .live _ (fun ⟨_, hp⟩ => DbPath.noConfusion hp)
  have hlive : DiskInv (t.image .live) sess.store G :=
    h.live.disk.off_segment h.live.here (.inl hbelow) (ht.off .live)
  have hseen : DiskInv (t.image sel) sess.store D :=
    h.seen.disk.off_segment (g := g.withLog ops docs) h.seen.there (.inl hbelow) (ht.off sel)
  have hexcluded : ∀ (c : Call) (x : Session) (img : Image), OfSegment g.cat.name seg.id c.path →
      (c.IsRead ∨ ∃ p, c = .removeFile p) → CompactFails env sess s G g c x img := fun c x img hp hc hharm => by
    obtain ⟨which, hp⟩ := hp
    unfold CompactHarmless at hharm
    rw [hp] at hharm
    obtain ⟨hr, hremove⟩ := hharm hid
    rcases hc with hc | ⟨p, hc⟩
    · exact absurd hc hr
    · exact absurd hc (hremove p)
  refine Triple.bind (Triple.modify ?_)
  refine Triple.seq (P := fun rewritten x u => rewritten = (if seg.rows = [] then [] else [seg.data]) ∧
    x = sess.withSegments [] ∧ Shape u ∧ Off (OfSegment g.name seg.id) (t.image .live) (u.image .live) ∧
    Off (OfSegment g.name seg.id) (t.image sel) (u.image sel) ∧ (seg.rows ≠ [] → ∀ sel, OnDisk (u.image sel) seg)) ?_ ?_
  · unfold openRewritten
    by_cases hr : seg.rows = []
    · rw [if_neg (fun h0 => Seg.ref_rows_pos.mp h0 hr), if_pos hr]
      refine Triple.bind (removeSegment_spec g.good.name ht.shape (fun u hu => ?_) (fun c n img hoff => ?_)
        (fun c img hp _ => ?_))
      · exact Triple.pure ⟨rfl, rfl, hu.shape, hu.off .live, hu.off sel, fun h0 => absurd hr h0⟩
      · exact (hseen.off_segment (g := g.withLog ops docs) h.seen.there (.inl hbelow) hoff).recovers
      · exact hexcluded c _ _ hp.1 hp.2
    · rw [if_pos (Seg.ref_rows_pos.mpr hr), if_neg hr]
      refine Triple.bind (open_spec g.good rfl rfl ht.shape (fun which => ht.files which .live) ?_ (fun c n => ?_)
        (fun c hc hp => hexcluded c _ _ hp (.inl hc)))
      · exact Triple.pure ⟨rfl, rfl, ht.shape, Off.refl _ _, Off.refl _ _, fun _ sel which => ht.files which sel⟩
      · exact hseen.recovers
  · rintro rewritten x u ⟨rfl, rfl, hu, hulive, huseen, hunew⟩
    have hkeptData : (sess.segments.filter (fun seg => ¬ options.chooses seg) ++ if seg.rows = [] then [] else [seg.data]) =
        (merged kept seg).map Seg.data := by
      rw [hrest, merged, List.map_append]
      split <;> rfl
    have hkeptRefs : ((sess.segments.filter (fun seg => ¬ options.chooses seg)).map SegmentData.ref ++
        if 0 < seg.ref.rows then [seg.ref] else []) = (merged kept seg).map Seg.ref := by
      rw [hrest, refs_data, merged, List.map_append]
      by_cases hr : seg.rows = []
      · rw [if_neg (fun h0 => Seg.ref_rows_pos.mp h0 hr), if_pos hr]; rfl
      · rw [if_pos (Seg.ref_rows_pos.mpr hr), if_neg hr]; rfl
    rw [hkeptData, hkeptRefs, hsorted Seg.data SegmentData.id (fun _ => rfl), hsorted Seg.ref SegmentRef.id (fun _ => rfl)]
    refine Triple.bind (Triple.modify ?_)
    have hu1 := (h.live.disk.off_segment h.live.here (.inl hbelow) ((ht.off .live).trans hulive)).enlarge h.live.here
      hidnext hb (fun h0 => hunew h0 .live)
    have hu2 := (h.seen.disk.off_segment (g := g.withLog ops docs) h.seen.there (.inl hbelow)
      ((ht.off sel).trans huseen)).enlarge (g := g.withLog ops docs) h.seen.there hidnext hb (fun h0 => hunew h0 sel)
    have huwal : ∀ name, u.image .live (.walFile name 1) = s.image .live (.walFile name 1) := fun name => by
      rw [hulive _ (fun ⟨_, hp⟩ => DbPath.noConfusion hp)]; exact hwal name
    exact compactTail_spec h hm hopened hroom.toCommitRoom hb hu hu1 hu2 huwal

end Compact

end IshaVectorDb.Engine
