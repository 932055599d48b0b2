import IshaVectorDb.Correctness.Disk
import Mathlib.Data.List.Destutter

/-!
# `Correctness.Reads` — what a collection in memory **answers**

`MemInv` relates an open collection to what it is on disk: the memtable is that of the log's writes, and the
open segments are the segments of a list that stands for the documents. Under it every read answers from the
map of documents: `getWith_eq`, `contains_eq`, `mem_ids` and `count_eq`.
-/

namespace IshaVectorDb.Engine

open Format Interaction KeyLog

/-! ## The collection in memory -/

/-- The open segments of a collection. -/
structure SegList (g : Ghost) (segs : List (Seg g.cat)) : Prop where
  pooled : ∀ seg ∈ segs, g.pool seg.id = some seg ∧ seg.id.toNat < g.next
  ascending : segs.Pairwise (fun a b => a.id.toNat < b.id.toNat)
  names : Names g.pool g.ops g.docs (segs.map Seg.ref)

/-- The log's writer stands at the end of the log. -/
structure WalInv (w : WalWriter) (log : DbPath) (mode : Durability) (img : Image) : Prop where
  file : w.file = ⟨log, true⟩
  path : w.path = log
  durability : w.durability = mode
  bytes : ∃ bytes, img log = some bytes ∧ w.bytes = bytes.length

/-- **An open collection.** -/
structure MemInv (invNorm : InvNorm) (durability : Durability) (coll : CollInner) (g : Ghost) (img : Image) : Prop where
  catalog : coll.catalog = g.cat
  memtable : coll.state.memtable = Memtable.ofOps invNorm g.cat.dimension g.ops
  few : g.ops.countP Op.isPut ≤ 2 ^ 32
  ok : ∀ op ∈ g.ops, OpOk g.cat op
  segments : ∃ segs : List (Seg g.cat), coll.state.segments = segs.map Seg.data ∧ SegList g segs
  wal : WalInv coll.state.wal (.walFile g.name 1) durability img
  next : coll.state.nextSegmentId.toNat = g.next

theorem MemInv.models {invNorm : InvNorm} {durability : Durability} {coll : CollInner} {g : Ghost} {img : Image}
    (h : MemInv invNorm durability coll g img) : coll.state.memtable.Models invNorm g.ops := by
  rw [h.memtable]
  exact Memtable.models_ofOps (sized_of_ok h.ok) (by rw [Memtable.rows_length_ofOps]; exact h.few)

theorem MemInv.shaped {invNorm : InvNorm} {durability : Durability} {coll : CollInner} {g : Ghost} {img : Image}
    (h : MemInv invNorm durability coll g img) : coll.state.memtable.Shaped g.cat.dimension := by
  rw [h.memtable]; exact Memtable.shaped_ofOps _ _

/-- The layers of the open segments are what they hold. -/
theorem SegList.layers_eq {g : Ghost} {segs : List (Seg g.cat)} (h : SegList g segs) :
    layers g.pool (segs.map Seg.ref) = segs.map Seg.contents := by
  unfold layers
  rw [List.map_map]
  refine List.map_congr_left (fun seg hseg => ?_)
  exact layer_of (h.pooled seg hseg).1

theorem SegList.separate {g : Ghost} {segs : List (Seg g.cat)} (h : SegList g segs) :
    Separate (segs.map Seg.contents) := by rw [← h.layers_eq]; exact h.names.separate

theorem SegList.docs_eq {g : Ghost} {segs : List (Seg g.cat)} (h : SegList g segs) :
    replay (stack (segs.map Seg.contents)) g.ops = g.docs := by rw [← h.layers_eq]; exact h.names.docs

/-! ## Looking a document up -/

section Locate

variable {cat : Catalog}

theorem locateIn_none {segs : List (Seg cat)} {k : DocId} (h : locateIn (segs.map Seg.data) k = none) :
    stack (segs.map Seg.contents) k = none := by
  induction segs with
  | nil => rfl
  | cons g segs ih =>
    rw [List.map_cons, locateIn] at h
    rw [List.map_cons, stack_cons]
    cases hr : locateIn (segs.map Seg.data) k with
    | some p => rw [hr] at h; cases h
    | none =>
      rw [hr] at h
      have hl : g.liveRowOf k = none := by
        rw [← g.data_liveRowOf]; exact Option.map_eq_none_iff.mp h
      rw [ih hr]
      show g.contents k = none
      have hc : (g.contents k).isSome = (g.liveRowOf k).isSome := Seg.contents_isSome
      rw [hl] at hc
      exact Option.not_isSome_iff_eq_none.mp (by rw [hc]; exact Bool.false_ne_true)

/-- **Where a lookup finds a row**, the stack has its document. -/
theorem locateIn_some {segs : List (Seg cat)} {k : DocId} {i row : Nat}
    (h : locateIn (segs.map Seg.data) k = some (i, row)) : ∃ g r, segs[i]? = some g ∧ g.rows[row]? = some r ∧
      r.id = k ∧ g.tombstones.isLive row = true ∧ stack (segs.map Seg.contents) k = some r.doc := by
  induction segs generalizing i row with
  | nil => cases h
  | cons g segs ih =>
    rw [List.map_cons, locateIn] at h
    rw [List.map_cons, stack_cons]
    cases hr : locateIn (segs.map Seg.data) k with
    | some p =>
      rw [hr] at h
      obtain ⟨i', row'⟩ := p
      obtain ⟨rfl, rfl⟩ := Prod.mk.inj (Option.some.inj h)
      obtain ⟨g', r, hg', hrow, hid, hl, hs⟩ := ih hr
      exact ⟨g', r, hg', hrow, hid, hl, by rw [hs]; rfl⟩
    | none =>
      rw [hr] at h
      obtain ⟨row', hrow', hpair⟩ := Option.map_eq_some_iff.mp h
      obtain ⟨rfl, rfl⟩ := Prod.mk.inj hpair
      rw [g.data_liveRowOf] at hrow'
      obtain ⟨⟨r, hrow, hid⟩, hl⟩ := Seg.liveRowOf_eq_some.mp hrow'
      refine ⟨g, r, rfl, hrow, hid, hl, ?_⟩
      rw [locateIn_none hr]
      exact Seg.contents_eq_some.mpr ⟨row', r, hrow, hl, hid, rfl⟩

end Locate

section Reads

variable {invNorm : InvNorm} {durability : Durability} {sess : Session} {g : Ghost} {img : Image}

/-- **A lookup finds a document exactly when there is one.** -/
theorem locate_isSome (h : MemInv invNorm durability sess.coll g img) (k : DocId) :
    (sess.locate k).isSome = (g.docs k).isSome := by
  obtain ⟨segs, hsegs, hlist⟩ := h.segments
  have hdocs := congrFun hlist.docs_eq k
  rw [replay_apply] at hdocs
  unfold Session.locate Session.segments
  have hmem : sess.memtable = sess.coll.state.memtable := rfl
  rw [hmem]
  cases hv : verdict g.ops k with
  | none =>
    rw [hv] at hdocs
    rw [h.models.get_none.mpr hv, hsegs, ← hdocs]
    cases hl : locateIn (segs.map Seg.data) k with
    | none => rw [locateIn_none hl]; rfl
    | some p =>
      obtain ⟨i, row⟩ := p
      obtain ⟨seg, r, -, -, -, -, hs⟩ := locateIn_some hl
      rw [hs]; rfl
  | some v =>
    rw [hv] at hdocs
    cases v with
    | none => rw [h.models.get_deleted hv, ← hdocs]; rfl
    | some d =>
      obtain ⟨row, hrow, -⟩ := h.models.get_present hv
      rw [hrow, ← hdocs]; rfl

theorem contains_eq (h : MemInv invNorm durability sess.coll g img) (k : DocId) :
    sess.contains k = (g.docs k).isSome := locate_isSome h k

/-- **A read returns the document, under every choice of what to bring along.** -/
theorem getWith_eq (h : MemInv invNorm durability sess.coll g img) (k : DocId) (inc : Include) :
    sess.getWith k inc = .ok ((g.docs k).map (fun d => d.view k inc)) := by
  obtain ⟨segs, hsegs, hlist⟩ := h.segments
  have hdocs := congrFun hlist.docs_eq k
  rw [replay_apply] at hdocs
  have hmem : sess.memtable = sess.coll.state.memtable := rfl
  cases hv : verdict g.ops k with
  | none =>
    rw [hv] at hdocs
    have hget := h.models.get_none.mpr hv
    cases hl : locateIn (segs.map Seg.data) k with
    | none =>
      have hloc : sess.locate k = none := by
        unfold Session.locate Session.segments
        rw [hmem, hget, hsegs, hl]; rfl
      unfold Session.getWith
      rw [hloc, ← hdocs]
      show _ = Except.ok (Option.map _ (stack (segs.map Seg.contents) k))
      rw [locateIn_none hl]; rfl
    | some p =>
      obtain ⟨i, row⟩ := p
      obtain ⟨seg, r, hseg, hrow, hid, hlive, hs⟩ := locateIn_some hl
      have hloc : sess.locate k = some (.segment i row) := by
        unfold Session.locate Session.segments
        rw [hmem, hget, hsegs, hl]; rfl
      have hget' : sess.segments[i]? = some seg.data := by
        unfold Session.segments
        rw [hsegs, List.getElem?_map, hseg]; rfl
      unfold Session.getWith
      rw [hloc, ← hdocs]
      dsimp only
      rw [hget', hs]
      show seg.data.document row inc = _
      rw [seg.document_data g.good.stride hrow hlive, hid]; rfl
  | some v =>
    rw [hv] at hdocs
    cases v with
    | none =>
      have hloc : sess.locate k = none := by
        unfold Session.locate
        rw [hmem, h.models.get_deleted hv]
      unfold Session.getWith
      rw [hloc, ← hdocs]; rfl
    | some d =>
      obtain ⟨row, hrow, hh⟩ := h.models.get_present hv
      have hloc : sess.locate k = some .memtable := by
        unfold Session.locate
        rw [hmem, hrow]
      have hvec : sess.readMemVector row inc = .ok (if inc.vector then some (words32 d.vector) else none) := by
        unfold Session.readMemVector
        split
        · have hlen : d.vector.length = VectorDType.f32.rowStride sess.catalog.dimension := by
            have hok : DocOk g.cat k d := h.ok _ (put_mem_of_verdict hv)
            have hcat : sess.catalog = g.cat := h.catalog
            rw [hcat, hok.vector, rowStride_eq]
          rw [hmem, hh.vector]
          show (do let view ← VectorView.ofRaw .f32 d.vector sess.catalog.dimension
                   return some view.toF32 : Except DbError _) = _
          simp only [VectorView.ofRaw, if_neg (not_not.mpr hlen), Parsing.except_ok_bind]; rfl
        · rfl
      unfold Session.getWith
      rw [hloc, ← hdocs]
      simp only [hmem, hrow, hvec, Parsing.except_ok_bind, hh.id, hh.metadata, hh.content]
      rfl

/-! ## Listing and counting -/

/-- The ids the log writes. -/
theorem mem_memtable_ids (h : MemInv invNorm durability sess.coll g img) {k : DocId} :
    k ∈ sess.memtable.liveRows.map MemRow.id ++ sess.memtable.deletedIds ↔ Named g.ops k := by
  rw [List.mem_append, named_iff_verdict]
  have h1 := h.models.mem_liveRows (k := k)
  have h2 := h.models.mem_deletedIds (k := k)
  have hmem : sess.memtable = sess.coll.state.memtable := rfl
  rw [hmem, h1, h2]
  cases hv : verdict g.ops k with
  | none => simp
  | some v => cases v <;> simp

/-- The ids that the segments hold live. -/
def liveIds {cat : Catalog} (segs : List (Seg cat)) : List DocId := segs.flatMap (fun g => g.liveRows.map StoredRow.id)

theorem mem_liveIds {cat : Catalog} {segs : List (Seg cat)} {k : DocId} :
    k ∈ liveIds segs ↔ ∃ g ∈ segs, (g.contents k).isSome = true := by
  unfold liveIds
  rw [List.mem_flatMap]
  refine exists_congr (fun g => and_congr_right (fun _ => ?_))
  rw [List.mem_map, Option.isSome_iff_exists]
  constructor
  · rintro ⟨r, hr, rfl⟩; exact ⟨r.doc, Seg.contents_eq_some_iff_mem.mpr ⟨r, hr, rfl, rfl⟩⟩
  · rintro ⟨d, hd⟩
    obtain ⟨r, hr, hk, -⟩ := Seg.contents_eq_some_iff_mem.mp hd
    exact ⟨r, hr, hk⟩

/-- **No document is live in two segments.** -/
theorem liveIds_nodup {cat : Catalog} {segs : List (Seg cat)} (h : Separate (segs.map Seg.contents)) :
    (liveIds segs).Nodup := by
  unfold Separate at h
  rw [List.pairwise_map] at h
  unfold liveIds
  rw [List.nodup_flatMap]
  refine ⟨fun g _ => g.liveRows_nodup, h.imp (fun {a b} hab => ?_)⟩
  intro k ha hb
  have hsome : ∀ g : Seg cat, k ∈ g.liveRows.map StoredRow.id → g.contents k ≠ none := fun g hk hn => by
    obtain ⟨r, hr, hid⟩ := List.mem_map.mp hk
    rw [Seg.contents_eq_some_iff_mem.mpr ⟨r, hr, hid, rfl⟩] at hn; cases hn
  rcases hab k with hn | hn
  · exact hsome a ha hn
  · exact hsome b hb hn

theorem stack_isSome {cat : Catalog} {segs : List (Seg cat)} {k : DocId} :
    (stack (segs.map Seg.contents) k).isSome = true ↔ k ∈ liveIds segs := by
  rw [mem_liveIds]
  constructor
  · intro h
    obtain ⟨d, hd⟩ := Option.isSome_iff_exists.mp h
    obtain ⟨L, hL, hk⟩ := mem_of_stack hd
    obtain ⟨g, hg, rfl⟩ := List.mem_map.mp hL
    exact ⟨g, hg, by rw [hk]; rfl⟩
  · rintro ⟨g, hg, hk⟩
    by_contra hn
    rw [Option.not_isSome_iff_eq_none, stack_eq_none] at hn
    rw [hn g.contents (List.mem_map_of_mem hg)] at hk; cases hk

theorem segmentIds_eq (h : MemInv invNorm durability sess.coll g img) (seg : Seg g.cat) :
    sess.segmentIds seg.data = (seg.liveRows.map StoredRow.id).filter (fun k => (verdict g.ops k).isNone) := by
  have hrows : seg.data.rows.toNat = seg.rows.length := by rw [seg.data_rows, seg.rows_toNat]
  have hget : ∀ k, (sess.memtable.get k).isNone = (verdict g.ops k).isNone := fun k => by
    have hn := h.models.get_none (k := k)
    have hmem : sess.memtable = sess.coll.state.memtable := rfl
    rw [hmem]
    cases hv : verdict g.ops k with
    | none => rw [hn.mpr hv]; rfl
    | some v =>
      cases hg : sess.coll.state.memtable.get k with
      | none => rw [hn.mp hg] at hv; cases hv
      | some l => rfl
  unfold Session.segmentIds Seg.liveRows
  rw [hrows]
  have hid : ∀ i, seg.data.idAt i = (seg.rows[i]?).map StoredRow.id := fun i => List.getElem?_map
  simp only [Seg.data_isLive, hid, hget]
  generalize seg.rows = rows
  induction rows using List.reverseRecOn with
  | nil => rfl
  | append_singleton rows r ih =>
    rw [pick_concat, List.map_append, List.filter_append, ← ih, List.length_append, List.length_singleton,
      List.range_succ, List.filterMap_append]
    congr 1
    · refine List.filterMap_congr (fun i hi => ?_)
      rw [List.getElem?_append_left (List.mem_range.mp hi)]
    · cases hl : seg.tombstones.isLive rows.length with
      | false => simp [hl]
      | true => cases hn : verdict g.ops r.id <;> simp [hl, hn]

/-- The ids a listing collects, before sorting. -/
theorem found_eq (h : MemInv invNorm durability sess.coll g img) {segs : List (Seg g.cat)}
    (hsegs : sess.coll.state.segments = segs.map Seg.data) :
    sess.segments.flatMap sess.segmentIds = (liveIds segs).filter (fun k => (verdict g.ops k).isNone) := by
  have hs : sess.segments = segs.map Seg.data := hsegs
  rw [hs, liveIds]
  clear hs hsegs
  induction segs with
  | nil => rfl
  | cons seg segs ih => rw [List.map_cons, List.flatMap_cons, List.flatMap_cons, List.filter_append, ih, segmentIds_eq h]

/-- The ids of all documents, before sorting. -/
def foundIds (sess : Session) : List DocId :=
  sess.segments.flatMap sess.segmentIds ++ sess.memtable.liveRows.map MemRow.id

theorem mem_foundIds (h : MemInv invNorm durability sess.coll g img) {k : DocId} :
    k ∈ foundIds sess ↔ (g.docs k).isSome = true := by
  obtain ⟨segs, hsegs, hlist⟩ := h.segments
  have hdocs := congrFun hlist.docs_eq k
  rw [replay_apply] at hdocs
  have hmem : sess.memtable = sess.coll.state.memtable := rfl
  unfold foundIds
  rw [List.mem_append, found_eq h hsegs, List.mem_filter, ← stack_isSome, hmem, h.models.mem_liveRows, ← hdocs]
  cases hv : verdict g.ops k with
  | none => simp
  | some v => cases v <;> simp

theorem foundIds_nodup (h : MemInv invNorm durability sess.coll g img) : (foundIds sess).Nodup := by
  obtain ⟨segs, hsegs, hlist⟩ := h.segments
  have hmem : sess.memtable = sess.coll.state.memtable := rfl
  unfold foundIds
  rw [found_eq h hsegs, List.nodup_append']
  refine ⟨(liveIds_nodup hlist.separate).filter _, h.models.liveRows_nodup, fun k h1 h2 => ?_⟩
  rw [hmem, h.models.mem_liveRows] at h2
  obtain ⟨d, hd⟩ := h2
  have hn := (List.mem_filter.mp h1).2
  rw [hd] at hn; cases hn

theorem ids_eq (h : MemInv invNorm durability sess.coll g img) : sess.ids = (foundIds sess).insertionSort (· ≤ ·) := by
  unfold Session.ids
  have hnodup : ((foundIds sess).insertionSort (· ≤ ·)).Nodup :=
    (List.perm_insertionSort _ _).nodup_iff.mpr (foundIds_nodup h)
  exact List.destutter_of_isChain _ _ (List.Pairwise.isChain hnodup)

/-- **A listing names exactly the documents there are.** -/
theorem mem_ids (h : MemInv invNorm durability sess.coll g img) {k : DocId} :
    k ∈ sess.ids ↔ (g.docs k).isSome = true := by
  rw [ids_eq h, List.mem_insertionSort, mem_foundIds h]

/-- **A listing is sorted and names each document once.** -/
theorem ids_sorted (h : MemInv invNorm durability sess.coll g img) : sess.ids.Pairwise (· < ·) := by
  rw [ids_eq h]
  have hnodup : ((foundIds sess).insertionSort (· ≤ ·)).Nodup :=
    (List.perm_insertionSort _ _).nodup_iff.mpr (foundIds_nodup h)
  exact (List.pairwise_insertionSort (· ≤ ·) (foundIds sess)).imp₂ (fun a b hle hne => lt_of_le_of_ne hle hne) hnodup

theorem countP_mem_comm {xs ys : List DocId} (hx : xs.Nodup) (hy : ys.Nodup) :
    xs.countP (fun k => k ∈ ys) = ys.countP (fun k => k ∈ xs) := by
  rw [List.countP_eq_length_filter, List.countP_eq_length_filter]
  refine ((List.perm_ext_iff_of_nodup (hx.filter _) (hy.filter _)).mpr (fun k => ?_)).length_eq
  simp only [List.mem_filter, decide_eq_true_eq]
  exact and_comm

/-- **The count is the number of documents.** -/
theorem count_eq (h : MemInv invNorm durability sess.coll g img) : sess.count = sess.ids.length := by
  obtain ⟨segs, hsegs, hlist⟩ := h.segments
  have hmem : sess.memtable = sess.coll.state.memtable := rfl
  set live := sess.memtable.liveRows.map MemRow.id with hlive
  set dead := sess.memtable.deletedIds with hdead
  have hdisk : (sess.segments.map SegmentData.liveCount).sum = (liveIds segs).length := by
    have hs : sess.segments = segs.map Seg.data := hsegs
    rw [hs, liveIds, List.length_flatMap, List.map_map]
    congr 1
    refine List.map_congr_left (fun seg _ => ?_)
    rw [Function.comp_apply, seg.data_liveCount, List.length_map]
  have hhas : ∀ k, sess.segmentHasLive k = decide (k ∈ liveIds segs) := fun k => by
    have hs : sess.segments = segs.map Seg.data := hsegs
    unfold Session.segmentHasLive
    rw [hs, List.any_map, Bool.eq_iff_iff, List.any_eq_true, decide_eq_true_eq, mem_liveIds]
    refine exists_congr (fun seg => and_congr_right (fun _ => ?_))
    rw [Function.comp_apply, seg.data_liveRowOf, ← Seg.contents_isSome]
  have hshadow : sess.memtable.liveRows.countP (fun row => sess.segmentHasLive row.id) =
      live.countP (fun k => k ∈ liveIds segs) := by
    rw [hlive, List.countP_map]
    exact List.countP_congr (fun row _ => by rw [hhas]; rfl)
  have hhidden : dead.countP (fun k => sess.segmentHasLive k) = dead.countP (fun k => k ∈ liveIds segs) :=
    List.countP_congr (fun k _ => by rw [hhas])
  have hlen : sess.memtable.len = live.length := by
    rw [hlive, List.length_map, hmem]; exact h.models.len_eq
  -- the ids the log writes, and how many of them the segments hold
  have hnodup : (live ++ dead).Nodup := by
    rw [List.nodup_append']
    refine ⟨h.models.liveRows_nodup, (Memtable.deletedIds_perm _).nodup_iff.mpr (Memtable.deletedKeys_nodup _), ?_⟩
    intro k h1 h2
    obtain ⟨d, hd⟩ := h.models.mem_liveRows.mp h1
    rw [h.models.mem_deletedIds.mp h2] at hd; cases hd
  have hcomm := countP_mem_comm (liveIds_nodup hlist.separate) hnodup
  have hnamed : (liveIds segs).countP (fun k => k ∈ live ++ dead) =
      (liveIds segs).countP (fun k => ! (verdict g.ops k).isNone) := by
    refine List.countP_congr (fun k _ => ?_)
    rw [decide_eq_true_eq, mem_memtable_ids h, named_iff_verdict]
    cases verdict g.ops k <;> simp
  have hsplit := List.length_eq_countP_add_countP (fun k => (verdict g.ops k).isNone) (l := liveIds segs)
  have hids : sess.ids.length = (liveIds segs).countP (fun k => (verdict g.ops k).isNone) + live.length := by
    rw [ids_eq h, List.length_insertionSort]
    unfold foundIds
    rw [found_eq h hsegs, List.length_append, List.countP_eq_length_filter]
  have hneg : (liveIds segs).countP (fun k => ! (verdict g.ops k).isNone) =
      (liveIds segs).countP (fun k => decide (¬ (verdict g.ops k).isNone = true)) :=
    List.countP_congr (fun k _ => by cases (verdict g.ops k).isNone <;> simp)
  rw [List.countP_append] at hcomm
  show sess.liveCount = _
  unfold Session.liveCount
  dsimp only
  rw [hdisk, hshadow, hhidden, hlen, hids]
  omega

end Reads

end IshaVectorDb.Engine
