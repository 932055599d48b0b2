import IshaVectorDb.Correctness.Memtable

/-!
# `Correctness.MemtableRuns` — the memtable is a **map with tombstones**

Puts, deletes and clears in any order (`MemOp`), a put that is refused among them. What they amount to is a log
of writes (`MemOp.record`): a put that fits the collection and a delete are one write each, a refused put is
none, a clear starts the log again. `Faithful` is what the memtable should then answer, all its parts at once.

Row numbers have 32 bits, and a put takes the number of rows before it without asking whether it fits
(`Memtable.putView`). So `faithful_of_fits` asks that each put finds fewer than `2 ^ 32` rows; the put that finds
that many gets the number `0`, and its document answers with the first row (`crowded_put_lost`).
-/

namespace IshaVectorDb.Engine

open Format KeyLog

/-- One call that changes a memtable. -/
inductive MemOp
  | putView (id : DocId) (vector : VectorView) (metadata : Option Metadata) (content : Option Bytes)
  | putBytes (id : DocId) (vector : Bytes) (metadata : Option Metadata) (content : Option Bytes)
  | delete (id : DocId)
  | clear

namespace Memtable

variable {invNorm : InvNorm} {m : Memtable} {dimension : UInt32} {ops : List LogOp}

/-- Carry out one call, and go on with the memtable that it leaves, whatever it answers. -/
def step (invNorm : InvNorm) (m : Memtable) : MemOp → Memtable
  | .putView id vector metadata content => (putViewIn invNorm id vector metadata content m).2
  | .putBytes id vector metadata content => (putBytesIn invNorm id vector metadata content m).2
  | .delete id => m.delete id
  | .clear => m.clear

/-- The memtable a list of calls leaves of an empty one. -/
def run (invNorm : InvNorm) (dimension : UInt32) (calls : List MemOp) : Memtable :=
  calls.foldl (step invNorm) (new dimension .f32)

theorem run_concat (calls : List MemOp) (call : MemOp) :
    run invNorm dimension (calls ++ [call]) = (run invNorm dimension calls).step invNorm call := by
  unfold run; rw [List.foldl_append]; rfl

end Memtable

namespace MemOp

/-- What one call makes of the log. -/
def record (dimension : UInt32) (log : List LogOp) : MemOp → List LogOp
  | putView id vector metadata content =>
      if vector.dimension = dimension then log ++ [.put id ⟨vector.toBytes, metadata, content⟩] else log
  | putBytes id vector metadata content =>
      if vector.length = VectorDType.f32.rowStride dimension then log ++ [.put id ⟨vector, metadata, content⟩] else log
  | delete id => log ++ [.del id]
  | clear => []

/-- The log that a list of calls amounts to. -/
def log (dimension : UInt32) (calls : List MemOp) : List LogOp := calls.foldl (record dimension) []

theorem log_concat (dimension : UInt32) (calls : List MemOp) (call : MemOp) :
    log dimension (calls ++ [call]) = record dimension (log dimension calls) call := by
  unfold log; rw [List.foldl_append]; rfl

/-- **The call fits the memtable**: a put that the memtable takes finds a row number left for it, and a view it
    takes is as long as its dimension says. -/
def Fits (dimension : UInt32) (m : Memtable) : MemOp → Prop
  | putView _ vector _ _ => vector.dimension = dimension → vector.WellFormed ∧ m.rows.length < 2 ^ 32
  | putBytes _ vector _ _ => vector.length = VectorDType.f32.rowStride dimension → m.rows.length < 2 ^ 32
  | delete _ => True
  | clear => True

/-- Every call of the list fits the memtable it finds. -/
def AllFit (invNorm : InvNorm) (dimension : UInt32) (calls : List MemOp) : Prop :=
  ∀ before call after, calls = before ++ call :: after → call.Fits dimension (Memtable.run invNorm dimension before)

end MemOp

namespace Memtable

variable {invNorm : InvNorm} {m : Memtable} {dimension : UInt32} {ops : List LogOp}

/-! ## What a run of calls leaves is what its log leaves -/

theorem putView_error (h : m.Shaped dimension) {view : VectorView} (hv : view.dimension ≠ dimension) (id : DocId)
    (metadata : Option Metadata) (content : Option Bytes) :
    m.putView invNorm id view metadata content =
      .error (.validation (.invalidVectorDimension memtableLabel dimension view.dimension)) := by
  simp only [putView, VectorView.checkDimension, h.dimension, if_pos hv]
  rfl

theorem putBytes_error (h : m.Shaped dimension) {vector : Bytes}
    (hv : vector.length ≠ VectorDType.f32.rowStride dimension) (id : DocId) (metadata : Option Metadata)
    (content : Option Bytes) : ∃ e, m.putBytes invNorm id vector metadata content = .error e := by
  have hlen : vector.length ≠ m.dtype.rowStride m.dimension := by rw [h.dimension, h.dtype]; exact hv
  simp only [putBytes, VectorView.ofRaw, if_pos hlen]
  exact ⟨_, rfl⟩

/-- **One call** carries out what it adds to the log. -/
theorem step_ofOps (call : MemOp) : (ofOps invNorm dimension ops).step invNorm call =
    ofOps invNorm dimension (call.record dimension ops) := by
  have hshape : (ofOps invNorm dimension ops).Shaped dimension := shaped_ofOps dimension ops
  cases call with
  | putView id vector metadata content =>
    show (putViewIn invNorm id vector metadata content _).2 =
      ofOps invNorm dimension (if vector.dimension = dimension then _ else _)
    rw [putViewIn_eq]
    by_cases hv : vector.dimension = dimension
    · rw [if_pos hv, putView_eq hshape hv, ofOps_concat]; rfl
    · rw [if_neg hv, putView_error hshape hv]; rfl
  | putBytes id vector metadata content =>
    show (putBytesIn invNorm id vector metadata content _).2 =
      ofOps invNorm dimension (if vector.length = VectorDType.f32.rowStride dimension then _ else _)
    rw [putBytesIn_eq]
    by_cases hv : vector.length = VectorDType.f32.rowStride dimension
    · rw [if_pos hv, putBytes_eq hshape hv, ofOps_concat]; rfl
    · obtain ⟨e, he⟩ := putBytes_error hshape hv id metadata content
      rw [if_neg hv, he]; rfl
  | delete id => exact (ofOps_concat dimension ops (.del id)).symm
  | clear => exact clear_eq hshape

/-- **A run of calls leaves what its log leaves.** -/
theorem run_eq (calls : List MemOp) :
    run invNorm dimension calls = ofOps invNorm dimension (MemOp.log dimension calls) := by
  induction calls using List.reverseRecOn with
  | nil => rfl
  | append_singleton calls call ih => rw [run_concat, MemOp.log_concat, ih, step_ofOps]

theorem Sized.concat_put {stride : Nat} (h : Sized stride ops) {id : DocId} {d : Doc} (hd : d.vector.length = stride) :
    Sized stride (ops ++ [.put id d]) := by
  intro id' d' hmem
  rcases List.mem_append.mp hmem with hold | hnew
  · exact h id' d' hold
  · obtain ⟨rfl, rfl⟩ := KeyLog.Op.put.inj (List.mem_singleton.mp hnew)
    exact hd

theorem Sized.concat_del {stride : Nat} (h : Sized stride ops) (id : DocId) : Sized stride (ops ++ [.del id]) := by
  intro id' d' hmem
  rcases List.mem_append.mp hmem with hold | hnew
  · exact h id' d' hold
  · cases List.mem_singleton.mp hnew

/-- The log has vectors of the collection's length and no more puts than there are row numbers. -/
structure InRange (dimension : UInt32) (ops : List LogOp) : Prop where
  sized : Sized (VectorDType.f32.rowStride dimension) ops
  few : ops.countP KeyLog.Op.isPut ≤ 2 ^ 32

theorem inRange_nil (dimension : UInt32) : InRange dimension [] := ⟨nofun, Nat.zero_le _⟩

theorem InRange.concat_put (h : InRange dimension ops) {id : DocId} {d : Doc}
    (hd : d.vector.length = VectorDType.f32.rowStride dimension) (hrows : ops.countP KeyLog.Op.isPut < 2 ^ 32) :
    InRange dimension (ops ++ [.put id d]) := by
  refine ⟨h.sized.concat_put hd, ?_⟩
  rw [List.countP_append]
  exact hrows

theorem InRange.concat_del (h : InRange dimension ops) (id : DocId) : InRange dimension (ops ++ [.del id]) := by
  refine ⟨h.sized.concat_del id, ?_⟩
  rw [List.countP_append]
  exact h.few

/-- **One call that fits** keeps the log in range. -/
theorem InRange.record (h : InRange dimension ops) {call : MemOp}
    (hfit : call.Fits dimension (ofOps invNorm dimension ops)) : InRange dimension (call.record dimension ops) := by
  cases call with
  | putView id vector metadata content =>
    show InRange dimension (if vector.dimension = dimension then _ else _)
    by_cases hv : vector.dimension = dimension
    · obtain ⟨hform, hrows⟩ := hfit hv
      rw [if_pos hv]
      rw [rows_length_ofOps] at hrows
      exact h.concat_put (by rw [← hv]; exact VectorView.toBytes_length hform) hrows
    · rw [if_neg hv]; exact h
  | putBytes id vector metadata content =>
    show InRange dimension (if vector.length = VectorDType.f32.rowStride dimension then _ else _)
    by_cases hv : vector.length = VectorDType.f32.rowStride dimension
    · have hrows := hfit hv
      rw [if_pos hv]
      rw [rows_length_ofOps] at hrows
      exact h.concat_put hv hrows
    · rw [if_neg hv]; exact h
  | delete id => exact h.concat_del id
  | clear => exact inRange_nil dimension

/-- **A run of calls that fit** keeps the log in range. -/
theorem inRange_log {calls : List MemOp} (h : MemOp.AllFit invNorm dimension calls) :
    InRange dimension (MemOp.log dimension calls) := by
  induction calls using List.reverseRecOn with
  | nil => exact inRange_nil dimension
  | append_singleton calls call ih =>
    have hbefore : MemOp.AllFit invNorm dimension calls := by
      rintro before call' after rfl
      apply h before call' (after ++ [call])
      rw [List.append_assoc, List.cons_append]
    have hlast := h calls call [] rfl
    rw [run_eq] at hlast
    rw [MemOp.log_concat]
    exact (ih hbefore).record hlast

theorem InRange.models (h : InRange dimension ops) : Models invNorm ops (ofOps invNorm dimension ops) := by
  apply models_ofOps h.sized
  rw [rows_length_ofOps]
  exact h.few

/-! ## The live rows stand in the order of the puts -/

/-- The current row of one id is not after that of another. -/
def NotAfter (m : Memtable) (a b : DocId) : Prop :=
  ∃ i j : UInt32, m.index.lookup a = some (.row i) ∧ m.index.lookup b = some (.row j) ∧ i.toNat ≤ j.toNat

/-- **The ids a log leaves stand in the order of their rows.** -/
theorem InRange.livePuts_ordered (h : InRange dimension ops) :
    ((livePuts ops).map Prod.fst).Pairwise (NotAfter (ofOps invNorm dimension ops)) := by
  induction ops using List.reverseRecOn with
  | nil => exact List.Pairwise.nil
  | append_singleton ops op ih =>
    have hprev : InRange dimension ops := by
      refine ⟨h.sized.of_append, le_trans ?_ h.few⟩
      rw [List.countP_append]
      exact Nat.le_add_right _ _
    have hmodels : Models invNorm ops (ofOps invNorm dimension ops) := hprev.models
    rw [livePuts_concat, ofOps_concat]
    refine arrange_pairwise ?_ ?_
    · -- two ids the write does not touch keep their rows
      have hsub : ((livePuts ops).filter (fun p => p.1 ≠ op.key)).map Prod.fst |>.Sublist ((livePuts ops).map Prod.fst) :=
        List.filter_sublist.map Prod.fst
      refine ((ih hprev).sublist hsub).imp_of_mem ?_
      intro a b ha hb hab
      have hoff : ∀ k ∈ ((livePuts ops).filter (fun p => p.1 ≠ op.key)).map Prod.fst, k ≠ op.key := by
        intro k hk
        obtain ⟨p, hp, rfl⟩ := List.mem_map.mp hk
        simpa using (List.mem_filter.mp hp).2
      obtain ⟨i, j, hi, hj, hle⟩ := hab
      refine ⟨i, j, ?_, ?_, hle⟩
      · rw [lookup_applyOp_ne (hoff a ha)]; exact hi
      · rw [lookup_applyOp_ne (hoff b hb)]; exact hj
    · -- the row put last comes after every row there is
      rintro ⟨k, v⟩ hp hne hput
      obtain ⟨i, row, hi, hrow, -⟩ : (ofOps invNorm dimension ops).Answers invNorm k (some (some v)) := by
        rw [← mem_livePuts.mp hp]; exact hmodels.answers k
      have hlt := (List.getElem?_eq_some_iff.mp hrow).1
      cases op with
      | del id => cases hput
      | put id d =>
        refine ⟨i, _, ?_, lookup_applyOp_self (.put id d), ?_⟩
        · rw [lookup_applyOp_ne hne]; exact hi
        · have hfew := h.few
          rw [List.countP_append] at hfew
          have hone : [KeyLog.Op.put id d].countP KeyLog.Op.isPut = 1 := rfl
          have hlen : (ofOps invNorm dimension ops).rows.length = _ := rows_length_ofOps dimension ops
          rw [UInt32.toNat_ofNat', Nat.mod_eq_of_lt (by omega)]
          omega

/-- A live index is the row of the id it holds. -/
theorem Models.lookup_of_liveIndices (h : Models invNorm ops m) {n : Nat} (hn : n ∈ m.liveIndices) {row : MemRow}
    (hrow : m.rows[n]? = some row) : ∃ i : UInt32, i.toNat = n ∧ m.index.lookup row.id = some (.row i) := by
  rw [liveIndices, List.mem_insertionSort] at hn
  obtain ⟨⟨k, slot⟩, he, hslot⟩ := List.mem_filterMap.mp hn
  cases slot with
  | deleted => cases hslot
  | row i =>
    obtain rfl := Option.some.inj hslot
    have hl : m.index.lookup k = some (.row i) := AList.mem_lookup_iff.mpr he
    obtain ⟨row', d, hrow', -, hh⟩ := h.row_of_lookup hl
    rw [hrow] at hrow'
    obtain rfl := Option.some.inj hrow'
    rw [hh.id]
    exact ⟨i, rfl, hl⟩

theorem Models.liveRows_ordered (h : Models invNorm ops m) : (m.liveRows.map MemRow.id).Pairwise (NotAfter m) := by
  rw [List.pairwise_map, liveRows, List.pairwise_filterMap]
  have hsorted : m.liveIndices.Pairwise (· ≤ ·) := List.pairwise_insertionSort _ _
  refine hsorted.imp_of_mem ?_
  intro a b ha hb hab row hrow row' hrow'
  obtain ⟨i, rfl, hi⟩ := h.lookup_of_liveIndices ha hrow
  obtain ⟨j, rfl, hj⟩ := h.lookup_of_liveIndices hb hrow'
  exact ⟨i, j, hi, hj, hab⟩

/-- Two ids with one row are one id. -/
theorem Models.notAfter_antisymm (h : Models invNorm ops m) {a b : DocId} (hab : NotAfter m a b)
    (hba : NotAfter m b a) : a = b := by
  obtain ⟨i, j, hi, hj, hle⟩ := hab
  obtain ⟨j', i', hj', hi', hle'⟩ := hba
  rw [hi] at hi'
  obtain rfl := MemSlot.row.inj (Option.some.inj hi')
  rw [hj] at hj'
  obtain rfl := MemSlot.row.inj (Option.some.inj hj')
  obtain ⟨row, _, hrow, -, hh⟩ := h.row_of_lookup hi
  obtain ⟨row', _, hrow', -, hh'⟩ := h.row_of_lookup hj
  rw [le_antisymm hle hle', hrow'] at hrow
  obtain rfl := Option.some.inj hrow
  rw [← hh.id, hh'.id]

/-- **The live rows' ids are the ids the log leaves, in the same order.** -/
theorem InRange.liveRows_ids (h : InRange dimension ops) :
    (ofOps invNorm dimension ops).liveRows.map MemRow.id = (livePuts ops).map Prod.fst := by
  have hmodels : Models invNorm ops (ofOps invNorm dimension ops) := h.models
  have hperm : ((ofOps invNorm dimension ops).liveRows.map MemRow.id).Perm ((livePuts ops).map Prod.fst) := by
    rw [List.perm_ext_iff_of_nodup hmodels.liveRows_nodup (livePuts_nodup ops)]
    intro k
    rw [hmodels.mem_liveRows, mem_livePuts_keys]
  exact hperm.eq_of_pairwise (fun a b _ _ hab hba => hmodels.notAfter_antisymm hab hba) hmodels.liveRows_ordered
    h.livePuts_ordered

/-- What a live row says of its document. -/
def shown (m : Memtable) (row : MemRow) : DocId × Option Bytes × Option Metadata × Option Bytes :=
  (row.id, m.vectorBytes row, row.metadata, row.content)

/-- What a log says of an id's document. -/
def said (ops : List LogOp) (k : DocId) : DocId × Option Bytes × Option Metadata × Option Bytes :=
  let d := (verdict ops k).join
  (k, d.map Doc.vector, d.bind Doc.metadata, d.bind Doc.content)

/-- **The live rows are the log's live puts**, with the documents put. -/
theorem InRange.liveRows_shown (h : InRange dimension ops) :
    (ofOps invNorm dimension ops).liveRows.map (ofOps invNorm dimension ops).shown =
      (livePuts ops).map (fun p => (p.1, some p.2.vector, p.2.metadata, p.2.content)) := by
  have hmodels : Models invNorm ops (ofOps invNorm dimension ops) := h.models
  -- on both sides the document is the one the log has for the id
  have hrows : (ofOps invNorm dimension ops).liveRows.map (ofOps invNorm dimension ops).shown =
      ((ofOps invNorm dimension ops).liveRows.map MemRow.id).map (said ops) := by
    rw [List.map_map]
    apply List.map_congr_left
    intro row hrow
    obtain ⟨d, hd, hh⟩ := hmodels.liveRows_holds hrow
    simp only [Function.comp_apply, said, shown, hd, hh.vector, hh.metadata, hh.content]
    rfl
  have hputs : (livePuts ops).map (fun p => (p.1, some p.2.vector, p.2.metadata, p.2.content)) =
      ((livePuts ops).map Prod.fst).map (said ops) := by
    rw [List.map_map]
    apply List.map_congr_left
    rintro ⟨k, d⟩ hp
    simp only [Function.comp_apply, said, mem_livePuts.mp hp]
    rfl
  rw [hrows, hputs, h.liveRows_ids]

/-! ## The memtable as a map with tombstones -/

/-- **The memtable is the map with tombstones that the log describes.** -/
structure Faithful (invNorm : InvNorm) (ops : List LogOp) (m : Memtable) : Prop where
  /-- An id that was never put or deleted is absent. -/
  absent : ∀ k, verdict ops k = none → m.get k = none
  /-- An id last deleted is deleted. -/
  deleted : ∀ k, verdict ops k = some none → m.get k = some .deleted
  /-- An id last put is present, with what was put. -/
  present : ∀ k d, verdict ops k = some (some d) → ∃ row, m.get k = some (.present row) ∧ m.RowHolds invNorm k d row
  /-- The live ids are counted. -/
  len : m.len = (livePuts ops).length
  /-- The deleted ids are counted. -/
  tombstones : m.tombstones = m.deletedIds.length
  /-- Taking the tombstones from the ids does not underflow. -/
  counted : m.tombstones ≤ m.index.keys.length
  /-- Taking one from the tombstones, where a put does, does not underflow. -/
  one_deleted : ∀ k, m.index.lookup k = some .deleted → 0 < m.tombstones
  /-- The live rows are the live puts, in their order. -/
  liveRows : m.liveRows.map m.shown = (livePuts ops).map (fun p => (p.1, some p.2.vector, p.2.metadata, p.2.content))
  /-- The deleted ids are those last deleted, -/
  deletedIds : ∀ k, k ∈ m.deletedIds ↔ verdict ops k = some none
  /-- each once. -/
  deletedOnce : m.deletedIds.Nodup

/-- **A log in range leaves a faithful memtable.** -/
theorem InRange.faithful (h : InRange dimension ops) : Faithful invNorm ops (ofOps invNorm dimension ops) := by
  have hmodels : Models invNorm ops (ofOps invNorm dimension ops) := h.models
  have hperm := deletedIds_perm (ofOps invNorm dimension ops)
  have hcount : (ofOps invNorm dimension ops).tombstones = (ofOps invNorm dimension ops).deletedIds.length := by
    rw [hmodels.tombstones, List.countP_eq_length_filter, hperm.length_eq, deletedKeys, List.length_map]
  constructor
  case absent => exact fun k hv => hmodels.get_none.mpr hv
  case deleted => exact fun k hv => hmodels.get_deleted hv
  case present => exact fun k d hv => hmodels.get_present hv
  case len =>
    have hids : ((ofOps invNorm dimension ops).liveRows.map MemRow.id).length = ((livePuts ops).map Prod.fst).length := by
      rw [h.liveRows_ids]
    rw [List.length_map, List.length_map] at hids
    rw [hmodels.len_eq, hids]
  case tombstones => exact hcount
  case counted =>
    rw [hmodels.tombstones]
    exact le_trans List.countP_le_length (le_of_eq (List.length_map _).symm)
  case one_deleted =>
    intro k hk
    rw [hmodels.tombstones, List.countP_pos_iff]
    exact ⟨⟨k, .deleted⟩, AList.mem_lookup_iff.mp hk, by simp⟩
  case liveRows => exact h.liveRows_shown
  case deletedIds => exact fun k => hmodels.mem_deletedIds
  case deletedOnce => exact hperm.nodup_iff.mpr (deletedKeys_nodup _)

end Memtable

namespace MemOp

variable {invNorm : InvNorm} {dimension : UInt32}

/-- The call is a put that returns an error. -/
def Refused (invNorm : InvNorm) (m : Memtable) : MemOp → Prop
  | putView id vector metadata content => ∃ e, m.putView invNorm id vector metadata content = .error e
  | putBytes id vector metadata content => ∃ e, m.putBytes invNorm id vector metadata content = .error e
  | delete _ => False
  | clear => False

/-- A put that is refused is no write. -/
theorem Refused.record {m : Memtable} {call : MemOp} (hm : m.Shaped dimension) (h : call.Refused invNorm m)
    (ops : List LogOp) : call.record dimension ops = ops := by
  cases call with
  | putView id vector metadata content =>
    obtain ⟨e, he⟩ := h
    refine if_neg (fun hv => ?_)
    rw [Memtable.putView_eq hm hv] at he
    cases he
  | putBytes id vector metadata content =>
    obtain ⟨e, he⟩ := h
    refine if_neg (fun hv => ?_)
    rw [Memtable.putBytes_eq hm hv] at he
    cases he
  | delete id => exact h.elim
  | clear => exact h.elim

/-- Each call makes at most one write. -/
theorem countP_record (dimension : UInt32) (ops : List LogOp) (call : MemOp) :
    (call.record dimension ops).countP KeyLog.Op.isPut ≤ ops.countP KeyLog.Op.isPut + 1 := by
  cases call with
  | putView id vector metadata content =>
    show List.countP _ (if vector.dimension = dimension then _ else _) ≤ _
    split
    · rw [List.countP_append]; rfl
    · exact Nat.le_add_right _ _
  | putBytes id vector metadata content =>
    show List.countP _ (if vector.length = VectorDType.f32.rowStride dimension then _ else _) ≤ _
    split
    · rw [List.countP_append]; rfl
    · exact Nat.le_add_right _ _
  | delete id =>
    show List.countP _ (ops ++ [_]) ≤ _
    rw [List.countP_append]
    exact Nat.le_succ _
  | clear => exact Nat.zero_le _

theorem rows_run_le (calls : List MemOp) : (Memtable.run invNorm dimension calls).rows.length ≤ calls.length := by
  rw [Memtable.run_eq, Memtable.rows_length_ofOps]
  induction calls using List.reverseRecOn with
  | nil => exact Nat.le_refl 0
  | append_singleton calls call ih =>
    rw [log_concat, List.length_append]
    exact le_trans (countP_record dimension _ call) (Nat.succ_le_succ ih)

/-- A call's view, if it has one, is as long as its dimension says. -/
def Measured : MemOp → Prop
  | putView _ vector _ _ => vector.WellFormed
  | putBytes _ _ _ _ => True
  | delete _ => True
  | clear => True

instance (call : MemOp) : Decidable call.Measured := by
  cases call <;> unfold Measured <;> infer_instance

/-- **At most `2 ^ 32` calls** fit an empty memtable. -/
theorem allFit_of_few {calls : List MemOp} (hmeasured : ∀ call ∈ calls, call.Measured)
    (hfew : calls.length ≤ 2 ^ 32) : AllFit invNorm dimension calls := by
  rintro before call after rfl
  have hlt : (Memtable.run invNorm dimension before).rows.length < 2 ^ 32 := by
    have hle : (Memtable.run invNorm dimension before).rows.length ≤ before.length := rows_run_le before
    rw [List.length_append, List.length_cons] at hfew
    omega
  have hcall := hmeasured call (List.mem_append_right _ List.mem_cons_self)
  cases call with
  | putView id vector metadata content => exact fun _ => ⟨hcall, hlt⟩
  | putBytes id vector metadata content => exact fun _ => hlt
  | delete id => trivial
  | clear => trivial

/-- **The memtable is a map with tombstones**, after any calls that each fit the memtable they find; and a put
    that returns an error leaves it, and what it stands for, as they were. -/
theorem faithful_of_fits (invNorm : InvNorm) (dimension : UInt32) (calls : List MemOp)
    (h : AllFit invNorm dimension calls) :
    Memtable.Faithful invNorm (log dimension calls) (Memtable.run invNorm dimension calls) ∧
      ∀ call : MemOp, call.Refused invNorm (Memtable.run invNorm dimension calls) →
        log dimension (calls ++ [call]) = log dimension calls ∧
        Memtable.run invNorm dimension (calls ++ [call]) = Memtable.run invNorm dimension calls := by
  rw [Memtable.run_eq calls]
  refine ⟨(Memtable.inRange_log h).faithful, ?_⟩
  intro call hrefused
  have hrecord := hrefused.record (Memtable.shaped_ofOps dimension (log dimension calls)) (log dimension calls)
  rw [Memtable.run_eq, log_concat, hrecord]
  exact ⟨rfl, rfl⟩

/-- A norm for vectors whose norm does not matter. -/
def noNorm : InvNorm := fun _ => ⟨0, rfl⟩

/-- One document put twice, another deleted and put again, and a vector of the wrong length. -/
def rewrites : List MemOp :=
  [.putView (.u64 1) (.f32 [7]) none none, .putBytes (.u64 1) [8, 0, 0, 0] none (some [1]), .delete (.u64 2),
    .putView (.u64 2) (.f32 [9]) none none, .putBytes (.u64 3) [0] none none]

theorem rewrites_faithful : AllFit noNorm 1 rewrites ∧
    Memtable.Faithful noNorm (log 1 rewrites) (Memtable.run noNorm 1 rewrites) :=
  have hfit : AllFit noNorm 1 rewrites := allFit_of_few (by decide) (by decide)
  ⟨hfit, (faithful_of_fits noNorm 1 rewrites hfit).1⟩

/-! ## The put for which no row number is left -/

/-- One document put `n` times, and then another. -/
def crowded (n : Nat) : List MemOp :=
  List.replicate n (.putBytes (.u64 1) [1, 0, 0, 0] none none) ++ [.putBytes (.u64 2) [2, 0, 0, 0] none none]

theorem log_replicate (n : Nat) : log 1 (List.replicate n (.putBytes (.u64 1) [1, 0, 0, 0] none none)) =
    List.replicate n (.put (.u64 1) ⟨[1, 0, 0, 0], none, none⟩) := by
  induction n with
  | zero => rfl
  | succ n ih =>
    rw [List.replicate_succ', List.replicate_succ', log_concat, ih]
    rfl

theorem log_crowded (n : Nat) : log 1 (crowded n) =
    List.replicate n (.put (.u64 1) ⟨[1, 0, 0, 0], none, none⟩) ++ [.put (.u64 2) ⟨[2, 0, 0, 0], none, none⟩] := by
  rw [crowded, log_concat, log_replicate]
  rfl

/-- The first row stays the first document's. -/
theorem first_row {n : Nat} (hn : 0 < n) : ∃ row, (Memtable.ofOps noNorm 1
    (List.replicate n (.put (.u64 1) ⟨[1, 0, 0, 0], none, none⟩))).rows[0]? = some row ∧ row.id = .u64 1 := by
  induction n, hn using Nat.le_induction with
  | base => exact ⟨_, rfl, rfl⟩
  | succ n _ ih =>
    obtain ⟨row, hrow, hid⟩ := ih
    refine ⟨row, ?_, hid⟩
    rw [List.replicate_succ', Memtable.ofOps_concat]
    exact Memtable.rows_applyOp hrow _

/-- **A put whose row number is cut to zero is lost**: its id answers with the first document. -/
theorem lost_of_cut {n : Nat} (hn : 0 < n) (hcut : (UInt32.ofNat n).toNat = 0) :
    ¬ Memtable.Faithful noNorm (log 1 (crowded n)) (Memtable.run noNorm 1 (crowded n)) := by
  rw [Memtable.run_eq, log_crowded]
  obtain ⟨first, hfirst, hid⟩ := first_row hn
  have hlen : (Memtable.ofOps noNorm 1 (List.replicate n (.put (.u64 1) ⟨[1, 0, 0, 0], none, none⟩))).rows.length = n := by
    rw [Memtable.rows_length_ofOps, List.countP_replicate]
    exact if_pos rfl
  generalize List.replicate n (KeyLog.Op.put (DocId.u64 1) (⟨[1, 0, 0, 0], none, none⟩ : Doc)) = ops at hfirst hlen ⊢
  intro h
  have hverdict : verdict (ops ++ [.put (.u64 2) ⟨[2, 0, 0, 0], none, none⟩]) (.u64 2) =
      some (some ⟨[2, 0, 0, 0], none, none⟩) := by
    rw [verdict_concat]; rfl
  obtain ⟨row, hget, hholds⟩ := h.present (.u64 2) _ hverdict
  rw [Memtable.ofOps_concat] at hget
  -- the number of the row put last is the number of rows there are, cut to 32 bits
  have hlook : ((Memtable.ofOps noNorm 1 ops).applyOp noNorm (.put (.u64 2) ⟨[2, 0, 0, 0], none, none⟩)).index.lookup
      (.u64 2) = some (.row (UInt32.ofNat (Memtable.ofOps noNorm 1 ops).rows.length)) :=
    Memtable.lookup_applyOp_self (.put (.u64 2) ⟨[2, 0, 0, 0], none, none⟩)
  have hrow : ((Memtable.ofOps noNorm 1 ops).applyOp noNorm (.put (.u64 2) ⟨[2, 0, 0, 0], none, none⟩)).rows[0]? =
      some first := Memtable.rows_applyOp hfirst _
  rw [hlen] at hlook
  unfold Memtable.get at hget
  rw [hlook] at hget
  simp only [Option.bind_eq_bind, Option.bind_some, hcut, hrow, Option.map_some, Option.some.injEq,
    Lookup.present.injEq] at hget
  have hsecond := hholds.id
  rw [← hget, hid] at hsecond
  cases hsecond

/-- **The put that finds `2 ^ 32` rows is lost.** -/
theorem crowded_put_lost : ¬ Memtable.Faithful noNorm (log 1 (crowded (2 ^ 32)))
    (Memtable.run noNorm 1 (crowded (2 ^ 32))) :=
  lost_of_cut (by decide) (by decide)

end MemOp

end IshaVectorDb.Engine
