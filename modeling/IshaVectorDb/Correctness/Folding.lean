import IshaVectorDb.Correctness.LogFile

/-!
# `Correctness.Folding` — what a flush makes of the **segments**

A flush turns the live rows into a new segment (`newSegment_of`) and takes every document that the log writes out
of the older ones (`supersedeAll_spec`). While it does, the log still says what the older segments lost
(`Superseded.names`); once it is done, the new list stands for the documents by itself (`Superseded.flushed`).
-/

namespace IshaVectorDb.Engine

open Format Interaction KeyLog

/-! ## The new segment -/

/-- **There is room for one more segment and one more commit**: no counter runs out. -/
structure CommitRoom (sess : Session) : Prop where
  nextId : sess.nextSegmentId.toNat + 1 < 2 ^ 64
  sequence : sess.store.current.sequence.toNat + 1 < 2 ^ 64
  segments : sess.segments.length + 1 < 2 ^ 32
  manifest : manifestWeight sess.store.current + (sess.name.bytes.length + 24 * (sess.segments.length + 1) + 64) + 36 < 2 ^ 64

/-- **A flush of this memtable has room**: the new segment's offsets fit their fields too. -/
structure Room (sess : Session) (m : Memtable) : Prop extends CommitRoom sess where
  directory : dirPrefixLen + m.liveRows.length * dirEntryLen < 2 ^ 32
  heap : (m.liveRows.flatMap (fun row => row.id.toBytes)).length < 2 ^ 32

section NewSegment

variable {cat : Catalog} {invNorm : InvNorm} {ops : List LogOp} {m : Memtable}

theorem storedRows_ok (h : m.Models invNorm ops) (hok : ∀ op ∈ ops, OpOk cat op) {r : StoredRow} (hr : r ∈ m.storedRows) :
    DocOk cat r.id r.doc := hok _ (put_mem_of_verdict (h.storedRows_holds hr).1)

theorem storedRows_length (h : m.Models invNorm ops) : m.storedRows.length = m.liveRows.length := by
  have hids := congrArg List.length h.storedRows_ids
  rwa [List.length_map, List.length_map] at hids

/-- **The live rows fit into a segment** when there is room. -/
theorem storedRows_fits (hcat : GoodCatalog cat) (h : m.Models invNorm ops) (hok : ∀ op ∈ ops, OpOk cat op)
    (hdir : dirPrefixLen + m.liveRows.length * dirEntryLen < 2 ^ 32)
    (hheap : (m.liveRows.flatMap (fun row => row.id.toBytes)).length < 2 ^ 32) :
    SegFits cat.rowStride (m.storedRows.map StoredRow.toRow) := by
  have hstride := hcat.stride_lt
  refine ⟨fun r hr => ?_, ?_, ?_, by omega⟩
  · obtain ⟨row, hrow, rfl⟩ := List.mem_map.mp hr
    have hdoc := storedRows_ok h hok hrow
    exact ⟨hdoc.vector, hdoc.idLength, row.invNorm.finite, hdoc.record⟩
  · rw [List.length_map, storedRows_length h]; exact hdir
  · have hids : (m.storedRows.map StoredRow.toRow).flatMap SegmentRow.id = m.liveRows.flatMap (fun row => row.id.toBytes) := by
      have hmap := congrArg (List.flatMap DocId.toBytes) h.storedRows_ids
      rw [List.flatMap_map, List.flatMap_map] at hmap
      rw [List.flatMap_map]; exact hmap
    have hle := heap_dropLast_le (m.storedRows.map StoredRow.toRow)
    rw [hids] at hle
    omega

/-- **The segment a flush writes** holds what the log last put. -/
theorem newSegment_of (hcat : GoodCatalog cat) (h : m.Models invNorm ops) (hok : ∀ op ∈ ops, OpOk cat op)
    (hdir : dirPrefixLen + m.liveRows.length * dirEntryLen < 2 ^ 32)
    (hheap : (m.liveRows.flatMap (fun row => row.id.toBytes)).length < 2 ^ 32) (id : UInt64) :
    ∃ seg : Seg cat, seg.id = id ∧ seg.rows = m.storedRows ∧
      seg.tombstones = Tombstones.allLive (UInt32.ofNat seg.rows.length) 0 ∧
      ∀ k, seg.contents k = (verdict ops k).getD none := by
  have hkinds : ∀ r ∈ m.storedRows, r.id.OfKind cat.idKind := fun r hr => (storedRows_ok h hok hr).kind
  have hdistinct : (m.storedRows.map StoredRow.id).Nodup := by rw [h.storedRows_ids]; exact h.liveRows_nodup
  have hfits := storedRows_fits hcat h hok hdir hheap
  refine ⟨Seg.fresh id m.storedRows hkinds hdistinct hfits, rfl, rfl, rfl, fun k => ?_⟩
  have hiff : ∀ d, (Seg.fresh id m.storedRows hkinds hdistinct hfits).contents k = some d ↔ verdict ops k = some (some d) := by
    intro d
    rw [Seg.contents_eq_some_iff_mem, Seg.liveRows_fresh hkinds hdistinct hfits]
    constructor
    · rintro ⟨r, hr, rfl, rfl⟩; exact (h.storedRows_holds hr).1
    · intro hv
      have hk := h.mem_liveRows.mpr ⟨d, hv⟩
      rw [← h.storedRows_ids] at hk
      obtain ⟨r, hr, hid⟩ := List.mem_map.mp hk
      have hv' := (h.storedRows_holds hr).1
      rw [hid, hv] at hv'
      exact ⟨r, hr, hid, (Option.some.inj (Option.some.inj hv')).symm⟩
  cases hv : verdict ops k with
  | none =>
    refine Option.eq_none_iff_forall_ne_some.mpr (fun d hd => ?_)
    rw [hiff d, hv] at hd; cases hd
  | some v =>
    cases v with
    | none =>
      refine Option.eq_none_iff_forall_ne_some.mpr (fun d hd => ?_)
      rw [hiff d, hv] at hd; cases hd
    | some d => exact (hiff d).mpr hv

end NewSegment

/-! ## Taking documents out of the older segments -/

section Superseding

variable {g : Ghost} {ids : List DocId}

theorem stack_supersede {cat : Catalog} (segs : List (Seg cat)) (ids : List DocId) (k : DocId) :
    stack (segs.map (fun seg => (seg.supersede ids).contents)) k =
      if k ∈ ids then none else stack (segs.map Seg.contents) k := by
  induction segs with
  | nil => simp
  | cons seg segs ih =>
    rw [List.map_cons, List.map_cons, stack_cons, stack_cons, ih, Seg.contents_supersede]
    by_cases hk : k ∈ ids
    · rw [if_pos hk, if_pos hk]; simp [hk]
    · rw [if_neg hk, if_neg hk, if_neg hk]

/-- The segments of a pool after some were superseded. -/
structure Superseded (g : Ghost) (ids : List DocId) (done rest : List (Seg g.cat)) (pool : Pool g.cat) : Prop where
  done : ∀ seg ∈ done, pool seg.id = some (seg.supersede ids)
  rest : ∀ seg ∈ rest, pool seg.id = some seg
  trims : PoolTrims (· ∈ ids) pool g.pool
  absent : ∀ id, g.pool id = none → pool id = none

theorem Superseded.start {segs : List (Seg g.cat)} (h : SegList g segs) : Superseded g ids [] segs g.pool :=
  ⟨nofun, fun seg hseg => (h.pooled seg hseg).1, PoolTrims.refl _ _, fun _ h => h⟩

theorem ids_ne_of_ascending {cat : Catalog} {done rest : List (Seg cat)} {seg : Seg cat}
    (h : (done ++ seg :: rest).Pairwise (fun a b => a.id.toNat < b.id.toNat)) :
    (∀ d ∈ done, d.id ≠ seg.id) ∧ ∀ r ∈ rest, r.id ≠ seg.id := by
  obtain ⟨-, hrest, hcross⟩ := List.pairwise_append.mp h
  refine ⟨fun d hd he => ?_, fun r hr he => ?_⟩
  · have hlt := hcross d hd seg List.mem_cons_self
    rw [he] at hlt; omega
  · have hlt := (List.pairwise_cons.mp hrest).1 r hr
    rw [he] at hlt; omega

theorem Superseded.step {done rest : List (Seg g.cat)} {seg : Seg g.cat} {pool : Pool g.cat}
    (hasc : (done ++ seg :: rest).Pairwise (fun a b => a.id.toNat < b.id.toNat))
    (h : Superseded g ids done (seg :: rest) pool) :
    Superseded g ids (done ++ [seg]) rest (Function.update pool seg.id (some (seg.supersede ids))) := by
  obtain ⟨hdone, hrest⟩ := ids_ne_of_ascending hasc
  have hseg : pool seg.id = some seg := h.rest seg List.mem_cons_self
  refine ⟨fun d hd => ?_, fun r hr => ?_, fun id seg' hseg' => ?_, fun id hid => ?_⟩
  · rcases List.mem_append.mp hd with hd | hd
    · rw [Function.update_of_ne (hdone d hd)]; exact h.done d hd
    · obtain rfl := List.mem_singleton.mp hd
      exact Function.update_self _ _ _
  · rw [Function.update_of_ne (hrest r hr)]; exact h.rest r (List.mem_cons_of_mem _ hr)
  · obtain ⟨seg1, hseg1, hrows, htrim⟩ := h.trims id seg' hseg'
    by_cases hi : id = seg.id
    · subst hi
      rw [hseg] at hseg1
      obtain rfl := Option.some.inj hseg1
      refine ⟨seg.supersede ids, Function.update_self _ _ _, by rw [Seg.supersede_rows, hrows], fun k => ?_⟩
      rw [Seg.contents_supersede]
      by_cases hk : k ∈ ids
      · exact .inr ⟨if_pos hk, hk⟩
      · rw [if_neg hk]; exact htrim k
    · exact ⟨seg1, by rw [Function.update_of_ne hi]; exact hseg1, hrows, htrim⟩
  · have hne : id ≠ seg.id := fun he => by
      rw [he] at hid; rw [h.absent _ hid] at hseg; cases hseg
    rw [Function.update_of_ne hne]; exact h.absent id hid

/-- **A list of segments stands for the same documents** while it is being superseded. -/
theorem Superseded.names {done rest : List (Seg g.cat)} {pool : Pool g.cat} (h : Superseded g ids done rest pool)
    {ops : List LogOp} {docs : DocMap} (hnames : Names g.pool ops docs ((done ++ rest).map Seg.ref))
    (hids : ∀ k ∈ ids, Named ops k ∨ docs k = none) :
    Names pool ops docs ((done.map (fun seg => seg.supersede ids) ++ rest).map Seg.ref) := by
  have htrim : Names pool ops docs ((done ++ rest).map Seg.ref) := by
    refine hnames.trims h.trims (fun k hk => ?_)
    rcases hids k hk with hn | hn
    · exact .inl hn
    · by_cases hnamed : Named ops k
      · exact .inl hnamed
      · right
        have hd := congrFun hnames.docs k
        rw [replay_of_not_named hnamed] at hd
        rw [hd, hn]
  refine htrim.regenerate ?_
  rw [List.map_append, List.map_append, List.map_map]
  refine List.rel_append (forall₂_map (forall₂_same done) (fun a _ b hab => ?_))
    (forall₂_map (forall₂_same rest) (fun a _ b hab => ?_))
  · subst hab
    exact ⟨Seg.supersede_id _ _, by show UInt32.ofNat (a.supersede ids).rows.length = _; rw [Seg.supersede_rows]; rfl⟩
  · subst hab; exact ⟨rfl, rfl⟩

theorem Superseded.segList {done rest : List (Seg g.cat)} {pool : Pool g.cat} (h : Superseded g ids done rest pool)
    (hlist : SegList g (done ++ rest)) (hids : ∀ k ∈ ids, Named g.ops k ∨ g.docs k = none) :
    SegList (g.withPool pool) (done.map (fun seg => seg.supersede ids) ++ rest) := by
  refine ⟨fun seg hseg => ?_, ?_, h.names hlist.names hids⟩
  · rcases List.mem_append.mp hseg with hd | hr
    · obtain ⟨seg', hseg', rfl⟩ := List.mem_map.mp hd
      exact ⟨by rw [Seg.supersede_id]; exact h.done seg' hseg',
        by rw [Seg.supersede_id]; exact (hlist.pooled seg' (List.mem_append_left _ hseg')).2⟩
    · exact ⟨h.rest seg hr, (hlist.pooled seg (List.mem_append_right _ hr)).2⟩
  · have hasc : ((done ++ rest).map (fun seg : Seg g.cat => seg.id)).Pairwise (fun a b => a.toNat < b.toNat) :=
      List.pairwise_map.mpr hlist.ascending
    have hsame : ((done ++ rest).map (fun seg : Seg g.cat => seg.id)) =
        (done.map (fun seg => seg.supersede ids) ++ rest).map (fun seg : Seg g.cat => seg.id) := by
      rw [List.map_append, List.map_append, List.map_map]
      congr 1
      exact List.map_congr_left (fun seg _ => (Seg.supersede_id seg ids).symm)
    rw [hsame] at hasc
    exact (List.pairwise_map (R := fun a b : UInt64 => a.toNat < b.toNat)).mp hasc

end Superseding

/-- The two images while the bitmaps of the older segments are being rewritten. -/
structure Superseding (sel : Sel) (store : ManifestStore) (G D : Str → Option Ghost) (g : Ghost) (ops : List LogOp)
    (docs : DocMap) (segs : List (Seg g.cat)) (s t : MemoryStorage) (pool : Pool g.cat) : Prop where
  shape : Shape t
  live : DiskInv (t.image .live) store (Function.update G g.name (some (g.withPool pool)))
  seen : DiskInv (t.image sel) store (Function.update D g.name (some ((g.withPool pool).withLog ops docs)))
  other : ∀ p, (∀ seg ∈ segs, p ≠ seg.delPath) → t.get p = s.get p

/-- **Superseding documents in every segment.** -/
theorem supersedeAll_spec {sel : Sel} {store : ManifestStore} {G D : Str → Option Ghost} {g : Ghost} {ops : List LogOp}
    {docs : DocMap} {s : MemoryStorage} {segs : List (Seg g.cat)} {ids : List DocId} (hs : Shape s)
    (hlist : SegList g segs) (hG : DiskInv (s.image .live) store G) (hhere : G g.name = some g)
    (hD : DiskInv (s.image sel) store D) (hthere : D g.name = some (g.withLog ops docs))
    (hlive : ∀ k ∈ ids, Named g.ops k ∨ g.docs k = none) (hseen : ∀ k ∈ ids, Named ops k ∨ docs k = none)
    {Q : List SegmentRef → List SegmentData → MemoryStorage → Prop} {K : Call → Nat → Image → Prop}
    {F : Call → List SegmentData → Image → Prop}
    (hQ : ∀ pool t, Superseded g ids segs [] pool → Superseding sel store G D g ops docs segs s t pool →
      Q (segs.map (fun seg => (seg.supersede ids).ref)) (segs.map (fun seg => (seg.supersede ids).data)) t)
    (hK : ∀ c n pool img, DiskInv img store (Function.update D g.name (some ((g.withPool pool).withLog ops docs))) →
      K c n img)
    (htorn : sel = .live → ∀ c n img, (∃ seg ∈ segs, c.path = seg.delPath) → c.Tears n → K c n img)
    (hwrite : ∀ c l img, (∃ seg ∈ segs, c.path = seg.delPath ∧ c ≠ .syncData ⟨seg.delPath, true⟩) → F c l img)
    (hsync : ∀ (seg : Seg g.cat) done rest pool img, segs = done ++ seg :: rest → Superseded g ids (done ++ [seg]) rest pool →
      DiskInv img store (Function.update G g.name (some (g.withPool pool))) →
      (∀ p, (∀ seg ∈ segs, p ≠ seg.delPath) → img p = s.image .live p) →
      F (.syncData ⟨seg.delPath, true⟩)
        ((done ++ [seg]).map (fun seg => (seg.supersede ids).data) ++ rest.map Seg.data) img) :
    Spec sel (Proc.iterMut (SegmentData.supersede g.cat.name ids)) (segs.map Seg.data) s Q K F := by
  have hasc := hlist.ascending
  -- how far the walk has come, as a split of the segments rather than of what the process holds
  refine (Triple.iterMut (fun before after refs t => ∃ done rest pool, segs = done ++ rest ∧ before = done.map Seg.data ∧
    after = done.map (fun seg => (seg.supersede ids).data) ∧ refs = done.map (fun seg => (seg.supersede ids).ref) ∧
    Superseded g ids done rest pool ∧ Superseding sel store G D g ops docs segs s t pool) (segs.map Seg.data) ?_ ?_).conseq ?_
  · rintro before x after rest' refs t hsplit ⟨done, rest, pool, hsegs, rfl, rfl, rfl, hsup, ht⟩
    rw [hsegs, List.map_append] at hsplit
    obtain ⟨seg, rest, rfl, rfl, rfl⟩ := List.map_eq_cons_iff.mp (List.append_cancel_left hsplit)
    have hseg : pool seg.id = some seg := hsup.rest seg List.mem_cons_self
    have hmem : seg ∈ segs := by rw [hsegs]; exact List.mem_append_right _ List.mem_cons_self
    have hid : seg.id.toNat < g.next := (hlist.pooled seg hmem).2
    rw [hsegs] at hasc
    have hstep := hsup.step hasc
    set pool' := Function.update pool seg.id (some (seg.supersede ids)) with hpool'
    have hself : ∀ (F : Str → Option Ghost) (a : Ghost), Function.update F g.name (some a) g.name = some a :=
      fun F a => Function.update_self _ _ _
    have hfiles : ∀ {img : Image} {F : Str → Option Ghost} {log docs'},
        DiskInv img store (Function.update F g.name (some ((g.withPool pool).withLog log docs'))) →
        img seg.delPath = some (seg.file .tombstones) := fun {img F log docs'} hd =>
      ((hd.collDisk (g := (g.withPool pool).withLog log docs') (hself F _)).segments seg.id seg hid hseg).2 .tombstones
    -- rewriting the bitmap's file keeps each image in step with the pool
    have hnext : ∀ {img : Image} {F : Str → Option Ghost} {log docs'},
        DiskInv img store (Function.update F g.name (some ((g.withPool pool).withLog log docs'))) →
        (∀ k ∈ ids, Named log k ∨ docs' k = none) →
        DiskInv (Function.update img seg.delPath (some ((seg.supersede ids).file .tombstones))) store
          (Function.update F g.name (some ((g.withPool pool').withLog log docs'))) := fun {img F log docs'} hd hk => by
      have h := hd.supersede (g := (g.withPool pool).withLog log docs') (hself F _) hid hseg hk
      rw [show ((g.withPool pool).withLog log docs').name = g.name from rfl, Function.update_idem] at h
      exact h
    have hlive' : DiskInv (t.image .live) store
        (Function.update G g.name (some ((g.withPool pool).withLog g.ops g.docs))) := ht.live
    refine supersede_spec g.good ht.shape (ht.shape.dir_of_image (hfiles hlive')) (hfiles hlive') (hfiles ht.seen)
      (fun u hu himg hget => ?_) (fun c n => hK c n pool _ ht.seen) (fun hl _ c n k hc htr => htorn hl c n _ ⟨seg, hmem, hc⟩ htr)
      (fun c n => hK c n pool' _ (hnext ht.seen hseen)) (fun _ c img hc _ => hwrite c _ img ⟨seg, hmem, ?_⟩) ?_
    · refine ⟨done ++ [seg], rest, pool', by rw [hsegs]; simp, by simp, by simp, by simp, hstep, hu, ?_, ?_, fun p hp => ?_⟩
      · rw [himg .live (.inl rfl)]; exact hnext hlive' hlive
      · rw [himg sel (.inr rfl)]; exact hnext ht.seen hseen
      · rw [hget p (hp seg hmem)]; exact ht.other p hp
    · rcases hc with rfl | rfl | ⟨bytes, rfl⟩
      · exact ⟨rfl, fun h => Call.noConfusion h⟩
      · exact ⟨rfl, fun h => Call.noConfusion h⟩
      · exact ⟨rfl, fun h => Call.noConfusion h⟩
    · have hF := hsync seg done rest pool' _ hsegs hstep (hnext hlive' hlive) (fun p hp => by
        rw [Function.update_of_ne (hp seg hmem)]
        exact image_of_get (P := fun p => ¬ ∀ seg ∈ segs, p ≠ seg.delPath)
          (fun q hq => ht.other q (not_not.mp hq)) .live p (not_not.mpr hp))
      rw [List.map_append, List.append_assoc] at hF
      exact hF
  · refine ⟨[], segs, g.pool, rfl, rfl, rfl, rfl, Superseded.start hlist, hs, ?_, ?_, fun _ _ => rfl⟩
    · rw [Function.update_eq_self_iff.mpr (by rw [hhere]; rfl)]; exact hG
    · rw [Function.update_eq_self_iff.mpr (by rw [hthere]; rfl)]; exact hD
  · rintro refs l t ⟨done, rest, pool, hsegs, hbefore, rfl, rfl, hsup, ht⟩
    have hlen := congrArg List.length hbefore
    rw [hsegs, List.length_map, List.length_map, List.length_append] at hlen
    obtain rfl := List.length_eq_zero_iff.mp (show rest.length = 0 by omega)
    rw [List.append_nil] at hsegs
    subst hsegs
    exact hQ pool t hsup ht

/-! ## The new list -/

theorem ascending_of {last : Option UInt64} {refs : List SegmentRef} (hasc : refs.Pairwise (fun a b => a.id < b.id))
    (hlast : ∀ prev ∈ last, ∀ r ∈ refs, prev < r.id) : Manifest.ascending last refs = true := by
  induction refs generalizing last with
  | nil => rfl
  | cons r refs ih =>
    obtain ⟨hr, hasc⟩ := List.pairwise_cons.mp hasc
    unfold Manifest.ascending
    rw [ih hasc (fun prev hp r' hr' => by obtain rfl := Option.mem_some_iff.mp hp; exact hr r' hr'), Bool.and_true]
    cases last with
    | none => rfl
    | some prev => exact decide_eq_true (hlast prev rfl r List.mem_cons_self)

/-- Fewer than `2 ^ 32` segments have fewer than `2 ^ 64` rows. -/
theorem rows_sum_lt {cat : Catalog} {segs : List (Seg cat)} (hlen : segs.length < 2 ^ 32) :
    (segs.map (fun seg => seg.rows.length)).sum < 2 ^ 64 := by
  have hbound : (segs.map (fun seg => seg.rows.length)).sum ≤ segs.length * 2 ^ 28 := by
    clear hlen
    induction segs with
    | nil => simp
    | cons seg l ih =>
      have hlt := seg.length_lt
      rw [List.map_cons, List.sum_cons, List.length_cons]; omega
  omega

theorem sumRows_toNat {cat : Catalog} {segs : List (Seg cat)} (hsum : (segs.map (fun seg => seg.rows.length)).sum < 2 ^ 64) :
    (Manifest.sumRows (segs.map Seg.ref)).toNat = (segs.map (fun seg => seg.rows.length)).sum := by
  induction segs with
  | nil => rfl
  | cons seg segs ih =>
    rw [List.map_cons, List.sum_cons] at hsum
    have hseg : seg.ref.rows.toUInt64.toNat = seg.rows.length := by
      rw [UInt32.toNat_toUInt64]; exact seg.rows_toNat
    unfold Manifest.sumRows at ih ⊢
    rw [List.map_cons, List.map_cons, List.sum_cons, UInt64.toNat_add, ih (by omega), hseg, List.map_cons, List.sum_cons]
    exact Nat.mod_eq_of_lt (by omega)

/-- **The entry for a list of segments passes the manifest's checks.** -/
theorem entryOk_of {cat : Catalog} {name : Str} (hname : checkCollectionName name = .ok ()) {segs : List (Seg cat)}
    (hasc : segs.Pairwise (fun a b => a.id.toNat < b.id.toNat))
    (hsum : (segs.map (fun seg => seg.rows.length)).sum < 2 ^ 64) (wal : UInt64) :
    EntryOk ⟨name, segs.map Seg.ref, none, wal, UInt64.ofNat ((segs.map Seg.data).map SegmentData.liveCount).sum,
      Manifest.sumRows (segs.map Seg.ref)⟩ := by
  have hrows := sumRows_toNat hsum
  have hlive : ((segs.map Seg.data).map SegmentData.liveCount).sum ≤ (segs.map (fun seg => seg.rows.length)).sum := by
    clear hrows hsum hasc
    induction segs with
    | nil => simp
    | cons seg segs ih =>
      have hle : seg.data.liveCount ≤ seg.rows.length := by
        rw [seg.data_liveCount]; exact seg.liveRows_sublist.length_le
      simp only [List.map_cons, List.sum_cons]
      omega
  have hlt := (Manifest.sumRows (segs.map Seg.ref)).toNat_lt
  refine ⟨?_, fun h => nomatch h⟩
  unfold Manifest.validateEntry
  have hempty : name.bytes.isEmpty = false := by
    cases he : name.bytes.isEmpty with
    | false => rfl
    | true => unfold checkCollectionName at hname; rw [if_pos he] at hname; cases hname
  have hascending : Manifest.ascending none (segs.map Seg.ref) = true := by
    refine ascending_of (List.pairwise_map.mpr (hasc.imp (fun {a b} h => ?_))) nofun
    exact UInt64.lt_iff_toNat_lt.mpr h
  have hcount : ¬ (Manifest.sumRows (segs.map Seg.ref) < UInt64.ofNat ((segs.map Seg.data).map SegmentData.liveCount).sum) := by
    rw [UInt64.lt_iff_toNat_lt, UInt64.toNat_ofNat', hrows, Nat.mod_eq_of_lt (by omega)]
    omega
  rw [hempty, if_neg Bool.false_ne_true, if_neg (not_not.mpr hascending), if_neg (not_not.mpr rfl), if_neg hcount]

/-- **The manifest that names a new list** can be written, and outranks the one before it. -/
theorem CommitRoom.successor {sess sess' : Session} {img : Image} {D : Str → Option Ghost} {g : Ghost}
    (hroom : CommitRoom sess) (h : DiskInv img sess.store D) (hg : D g.name = some g) (hname : sess.name = g.name)
    (hname' : sess'.name = g.name) {final : List (Seg g.cat)} (hsegs : sess'.segments = final.map Seg.data)
    (hasc : final.Pairwise (fun a b => a.id.toNat < b.id.toNat)) (hlen : final.length ≤ sess.segments.length + 1)
    (now : UInt64) :
    (sess.store.successor (Manifest.withEntry sess.store.current (entryFor sess' (final.map Seg.ref))) now).Writable ∧
      sess.store.current.sequence <
        (sess.store.successor (Manifest.withEntry sess.store.current (entryFor sess' (final.map Seg.ref))) now).sequence := by
  have hlt : final.length < 2 ^ 32 := by have := hroom.segments; omega
  have hok : EntryOk (entryFor sess' (final.map Seg.ref)) := by
    unfold entryFor
    rw [hname', hsegs]
    exact entryOk_of g.good.name hasc (rows_sum_lt hlt) _
  have hweight : manifestWeight sess.store.current + entryWeight (entryFor sess' (final.map Seg.ref)) + 36 < 2 ^ 64 := by
    have hw : entryWeight (entryFor sess' (final.map Seg.ref)) = g.name.bytes.length + 24 * final.length + 64 := by
      show sess'.name.bytes.length + 24 * (final.map Seg.ref).length + 64 = _
      rw [List.length_map, hname']
    have := hroom.manifest
    rw [hname] at this
    omega
  obtain ⟨e0, he0, hname0, -⟩ := h.entry hg
  exact ⟨writable_successor h.slots.writable ⟨e0, he0, hname0.trans hname'.symm⟩ hok hweight _,
    successor_newer hroom.sequence _ _⟩

/-- **The list that a flush commits** stands for the documents by itself. -/
theorem Superseded.flushed {g : Ghost} {ids : List DocId} {segs : List (Seg g.cat)} {pool : Pool g.cat}
    (h : Superseded g ids segs [] pool) (hlist : SegList g segs) (hids : ∀ k, k ∈ ids ↔ Named g.ops k) {seg : Seg g.cat}
    (hseg : ∀ k, seg.contents k = (verdict g.ops k).getD none) (hid : seg.id.toNat = g.next) :
    Names (Function.update pool seg.id (if seg.rows = [] then none else some seg)) [] g.docs
      ((segs.map (fun seg => seg.supersede ids) ++ (if seg.rows = [] then [] else [seg])).map Seg.ref) := by
  set poolF := Function.update pool seg.id (if seg.rows = [] then none else some seg) with hpoolF
  have hold : ∀ old ∈ segs, poolF old.id = some (old.supersede ids) := fun old hold => by
    have hlt := (hlist.pooled old hold).2
    rw [hpoolF, Function.update_of_ne (fun he => by rw [he] at hlt; omega)]
    exact h.done old hold
  have hstack : ∀ k, stack (segs.map (fun seg => (seg.supersede ids).contents)) k =
      if k ∈ ids then none else g.docs k := fun k => by
    rw [stack_supersede]
    by_cases hk : k ∈ ids
    · rw [if_pos hk, if_pos hk]
    · rw [if_neg hk, if_neg hk, ← hlist.docs_eq, replay_of_not_named (fun hn => hk ((hids k).mpr hn))]
  have hsep : Separate (segs.map (fun seg => (seg.supersede ids).contents)) := by
    refine List.pairwise_map.mpr ((List.pairwise_map.mp hlist.separate).imp (fun {a b} hab k => ?_))
    rw [Seg.contents_supersede, Seg.contents_supersede]
    by_cases hk : k ∈ ids
    · exact .inl (if_pos hk)
    · rw [if_neg hk, if_neg hk]; exact hab k
  have hlayers : layers poolF ((segs.map (fun seg => seg.supersede ids)).map Seg.ref) =
      segs.map (fun seg => (seg.supersede ids).contents) := by
    unfold layers
    rw [List.map_map, List.map_map]
    refine List.map_congr_left (fun old ho => ?_)
    exact layer_of (by show poolF (old.supersede ids).id = _; rw [Seg.supersede_id]; exact hold old ho)
  have hpresent : ∀ r ∈ (segs.map (fun seg => seg.supersede ids)).map Seg.ref, ∃ s', poolF r.id = some s' ∧
      r.rows = UInt32.ofNat s'.rows.length := fun r hr => by
    obtain ⟨seg', hseg', rfl⟩ := List.mem_map.mp hr
    obtain ⟨old, ho, rfl⟩ := List.mem_map.mp hseg'
    refine ⟨old.supersede ids, ?_, rfl⟩
    show poolF (old.supersede ids).id = _
    rw [Seg.supersede_id]; exact hold old ho
  have hnew : ∀ k, k ∉ ids → seg.contents k = none := fun k hk => by
    rw [hseg, verdict_eq_none (fun hn => hk ((hids k).mpr hn))]; rfl
  have hdocs : ∀ k, k ∈ ids → seg.contents k = g.docs k := fun k hk => by
    rw [hseg, ← hlist.docs_eq, replay_apply]
    obtain ⟨v, hv⟩ := Option.isSome_iff_exists.mp (named_iff_verdict.mp ((hids k).mp hk))
    rw [hv]; rfl
  by_cases hrows : seg.rows = []
  · -- nothing was put, so the older segments alone are the documents
    have hnone : ∀ k, seg.contents k = none := fun k => Option.eq_none_iff_forall_ne_some.mpr (fun d hd => by
      obtain ⟨i, r, hr, -⟩ := Seg.contents_eq_some.mp hd
      rw [hrows] at hr; cases hr)
    rw [if_pos hrows, List.append_nil]
    refine ⟨hpresent, by rw [hlayers]; exact hsep, ?_⟩
    rw [hlayers, replay_nil]
    funext k
    rw [hstack]
    by_cases hk : k ∈ ids
    · rw [if_pos hk, ← hdocs k hk, hnone]
    · rw [if_neg hk]
  · have hpool : poolF seg.id = some seg := by rw [hpoolF, Function.update_self, if_neg hrows]
    rw [if_neg hrows, List.map_append]
    have hlast : layers poolF (((segs.map (fun seg => seg.supersede ids)).map Seg.ref) ++ [seg].map Seg.ref) =
        segs.map (fun seg => (seg.supersede ids).contents) ++ [seg.contents] := by
      unfold layers at hlayers ⊢
      rw [List.map_append, hlayers]
      exact congrArg (_ ++ [·]) (layer_of hpool)
    refine ⟨fun r hr => ?_, ?_, ?_⟩
    · rcases List.mem_append.mp hr with hr | hr
      · exact hpresent r hr
      · obtain rfl := List.mem_singleton.mp hr
        exact ⟨seg, hpool, rfl⟩
    · rw [hlast]
      refine List.pairwise_append.mpr ⟨hsep, List.pairwise_singleton _ _, fun L hL N hN k => ?_⟩
      obtain rfl := List.mem_singleton.mp hN
      by_cases hk : k ∈ ids
      · obtain ⟨old, -, rfl⟩ := List.mem_map.mp hL
        exact .inl (by rw [Seg.contents_supersede, if_pos hk])
      · exact .inr (hnew k hk)
    · rw [hlast, replay_nil]
      funext k
      rw [stack_append, hstack]
      show ((none : Option Doc).or (seg.contents k)).or _ = _
      rw [Option.none_or]
      by_cases hk : k ∈ ids
      · rw [if_pos hk, hdocs k hk, Option.or_none]
      · rw [if_neg hk, hnew k hk, Option.none_or]

end IshaVectorDb.Engine
