import IshaVectorDb.Engine.Memtable
import IshaVectorDb.KeyLog.Log
import IshaVectorDb.KeyLog.Layers

/-!
# `Correctness.Memtable` — the memtable is a **log of writes**

Abstractly a collection is a map from ids to documents, and a write changes it at one id (`LogOp`). The
memtable is what carrying out a list of such writes on an empty memtable leaves (`Memtable.ofOps`), and
`Models` says what it then answers: for each id the *verdict* of the log, the live rows being the ids last
put and the deleted ids those last deleted.
-/

namespace IshaVectorDb.Engine

open Format KeyLog

/-- A document apart from its id. -/
structure Doc where
  vector : Bytes
  metadata : Option Metadata
  content : Option Bytes

/-- What a collection holds. -/
abbrev DocMap := Contents DocId Doc

/-- One write to a collection. -/
abbrev LogOp := KeyLog.Op DocId Doc

/-- A row on its way to a segment, or in one. -/
structure StoredRow where
  id : DocId
  doc : Doc
  invNorm : FiniteF32

namespace Memtable

variable {invNorm : InvNorm} {m : Memtable} {ops : List LogOp}

/-- Carry out one write whose vector has the right length. -/
def applyOp (invNorm : InvNorm) (m : Memtable) : LogOp → Memtable
  | .put id d => { m with
      arena := m.arena ++ d.vector
      rows := m.rows ++ [⟨id, m.arena.length, invNorm d.vector, d.metadata, d.content⟩]
      index := m.index.insert id (.row (UInt32.ofNat m.rows.length))
      tombstones := if m.index.lookup id = some .deleted then m.tombstones - 1 else m.tombstones
      metadataBytes := m.metadataBytes + (d.metadata.elim 0 (fun md => md.len * 32)) +
        (d.content.elim 0 List.length) }
  | .del id => m.delete id

/-- The memtable that a list of writes leaves. -/
def ofOps (invNorm : InvNorm) (dimension : UInt32) (ops : List LogOp) : Memtable :=
  ops.foldl (applyOp invNorm) (new dimension .f32)

@[simp] theorem ofOps_nil (dimension : UInt32) : ofOps invNorm dimension [] = new dimension .f32 := rfl

theorem ofOps_concat (dimension : UInt32) (ops : List LogOp) (op : LogOp) :
    ofOps invNorm dimension (ops ++ [op]) = (ofOps invNorm dimension ops).applyOp invNorm op := by
  unfold ofOps; rw [List.foldl_append]; rfl

/-! ## The shape never changes -/

@[simp] theorem applyOp_dimension (op : LogOp) : (m.applyOp invNorm op).dimension = m.dimension := by
  cases op <;> rfl

@[simp] theorem applyOp_dtype (op : LogOp) : (m.applyOp invNorm op).dtype = m.dtype := by cases op <;> rfl

@[simp] theorem applyOp_stride (op : LogOp) : (m.applyOp invNorm op).stride = m.stride := by cases op <;> rfl

/-- The dimension, type and stride of an empty memtable. -/
structure Shaped (dim : UInt32) (m : Memtable) : Prop where
  dimension : m.dimension = dim
  dtype : m.dtype = .f32
  stride : m.stride = VectorDType.f32.rowStride dim

theorem Shaped.applyOp {dimension : UInt32} (h : m.Shaped dimension) (op : LogOp) :
    (m.applyOp invNorm op).Shaped dimension :=
  ⟨by rw [applyOp_dimension, h.dimension], by rw [applyOp_dtype, h.dtype], by rw [applyOp_stride, h.stride]⟩

theorem Shaped.foldl {dimension : UInt32} (h : m.Shaped dimension) (ops : List LogOp) :
    (ops.foldl (Memtable.applyOp invNorm) m).Shaped dimension := by
  induction ops generalizing m with
  | nil => exact h
  | cons op ops ih => exact ih (h.applyOp op)

theorem shaped_ofOps (dimension : UInt32) (ops : List LogOp) : (ofOps invNorm dimension ops).Shaped dimension :=
  Shaped.foldl (m := new dimension .f32) ⟨rfl, rfl, rfl⟩ ops

theorem clear_eq {dimension : UInt32} (h : m.Shaped dimension) : m.clear = new dimension .f32 := by
  obtain ⟨h1, h2, h3⟩ := h
  simp only [clear, new, h1, h2, h3]

/-- **A put from a view is a write** when the view has the collection's dimension. -/
theorem putView_eq {dimension : UInt32} (h : m.Shaped dimension) {view : VectorView}
    (hv : view.dimension = dimension) (id : DocId) (metadata : Option Metadata) (content : Option Bytes) :
    m.putView invNorm id view metadata content =
      .ok (m.applyOp invNorm (.put id ⟨view.toBytes, metadata, content⟩)) := by
  have hd : ¬ (view.dimension ≠ m.dimension) := by rw [h.dimension]; exact not_not.mpr hv
  simp only [putView, VectorView.checkDimension, if_neg hd, Parsing.except_ok_bind]
  rfl

/-- **A put from stored bytes is a write** when there are as many as the dimension asks. -/
theorem putBytes_eq {dimension : UInt32} (h : m.Shaped dimension) {vector : Bytes}
    (hv : vector.length = VectorDType.f32.rowStride dimension) (id : DocId) (metadata : Option Metadata)
    (content : Option Bytes) :
    m.putBytes invNorm id vector metadata content =
      .ok (m.applyOp invNorm (.put id ⟨vector, metadata, content⟩)) := by
  have hlen : ¬ (vector.length ≠ m.dtype.rowStride m.dimension) := by
    rw [h.dimension, h.dtype]; exact not_not.mpr hv
  simp only [putBytes, VectorView.ofRaw, if_neg hlen, Parsing.except_ok_bind]
  have hv' : (VectorView.raw m.dtype vector m.dimension).dimension = dimension := h.dimension
  exact putView_eq h hv' id metadata content

/-! ## What the memtable answers -/

/-- The row holds the document. -/
structure RowHolds (invNorm : InvNorm) (m : Memtable) (k : DocId) (d : Doc) (row : MemRow) : Prop where
  id : row.id = k
  invNorm : row.invNorm = invNorm d.vector
  metadata : row.metadata = d.metadata
  content : row.content = d.content
  vector : m.vectorBytes row = some d.vector

/-- The memtable says of the document what the verdict is. -/
def Answers (invNorm : InvNorm) (m : Memtable) (k : DocId) : Option (Option Doc) → Prop
  | none => m.index.lookup k = none
  | some none => m.index.lookup k = some .deleted
  | some (some d) => ∃ i row, m.index.lookup k = some (.row i) ∧ m.rows[i.toNat]? = some row ∧
      m.RowHolds invNorm k d row

/-- **The memtable agrees with the log.** -/
structure Models (invNorm : InvNorm) (ops : List LogOp) (m : Memtable) : Prop where
  answers : ∀ k, m.Answers invNorm k (verdict ops k)
  tombstones : m.tombstones = m.index.entries.countP (fun e => e.2 = MemSlot.deleted)

/-- The vectors of the log's puts have the collection's length. -/
def Sized (stride : Nat) (ops : List LogOp) : Prop := ∀ id d, KeyLog.Op.put id d ∈ ops → d.vector.length = stride

theorem Sized.of_append {stride : Nat} {xs ys : List LogOp} (h : Sized stride (xs ++ ys)) : Sized stride xs :=
  fun id d hd => h id d (List.mem_append_left _ hd)

/-- Replacing the value at a key changes one entry of the list that holds it. -/
theorem countP_insert (index : AList (fun _ : DocId => MemSlot)) (id : DocId) (slot : MemSlot)
    (p : MemSlot → Bool) :
    (index.insert id slot).entries.countP (fun e => p e.2) + (index.lookup id).elim 0 (fun v => (p v).toNat) =
      index.entries.countP (fun e => p e.2) + (p slot).toNat := by
  rw [AList.entries_insert, List.countP_cons]
  by_cases hk : id ∈ index
  · obtain ⟨v, l₁, l₂, -, hl, hker⟩ := List.exists_of_kerase (AList.mem_keys.mp hk)
    have hv : index.lookup id = some v := AList.mem_lookup_iff.mpr (by rw [hl]; simp)
    rw [hker, hl, hv, List.countP_append, List.countP_append, List.countP_cons]
    cases hpv : p v <;> cases hps : p slot <;> simp [hpv] <;> omega
  · rw [List.kerase_of_notMem_keys (fun h => hk (AList.mem_keys.mpr h)), AList.lookup_eq_none.mpr hk]
    cases hps : p slot <;> simp

theorem models_new (dimension : UInt32) : Models invNorm [] (new dimension .f32) :=
  ⟨fun _ => rfl, rfl⟩

/-- A row of the memtable stays where it is. -/
theorem RowHolds.applyOp {k : DocId} {d : Doc} {row : MemRow} (h : m.RowHolds invNorm k d row) (op : LogOp) :
    (m.applyOp invNorm op).RowHolds invNorm k d row := by
  refine ⟨h.id, h.invNorm, h.metadata, h.content, ?_⟩
  cases op with
  | put id d' => exact Parsing.slice_append_left h.vector d'.vector
  | del id => exact h.vector

theorem rows_applyOp {i : Nat} {row : MemRow} (h : m.rows[i]? = some row) (op : LogOp) :
    (m.applyOp invNorm op).rows[i]? = some row := by
  cases op with
  | put id d =>
    show (m.rows ++ [_])[i]? = some row
    rw [List.getElem?_append_left (List.getElem?_eq_some_iff.mp h).1]; exact h
  | del id => exact h

/-- What the index says of the id just written. -/
theorem lookup_applyOp_self (op : LogOp) : (m.applyOp invNorm op).index.lookup op.key =
    some (match op with | .put _ _ => .row (UInt32.ofNat m.rows.length) | .del _ => .deleted) := by
  cases op <;> exact AList.lookup_insert m.index

theorem lookup_applyOp_ne {op : LogOp} {k : DocId} (h : k ≠ op.key) :
    (m.applyOp invNorm op).index.lookup k = m.index.lookup k := by
  cases op <;> exact AList.lookup_insert_ne h

/-- The row just put holds its document. -/
theorem answers_put {id : DocId} {d : Doc} (hrows : m.rows.length < 2 ^ 32) (hvec : d.vector.length = m.stride) :
    (m.applyOp invNorm (.put id d)).Answers invNorm id (some (some d)) := by
  refine ⟨UInt32.ofNat m.rows.length, ⟨id, m.arena.length, invNorm d.vector, d.metadata, d.content⟩,
    lookup_applyOp_self (.put id d), ?_, rfl, rfl, rfl, rfl, ?_⟩
  · have hi : (UInt32.ofNat m.rows.length).toNat = m.rows.length := by
      rw [UInt32.toNat_ofNat']; exact Nat.mod_eq_of_lt hrows
    rw [hi]
    show (m.rows ++ [_])[m.rows.length]? = _
    rw [List.getElem?_append_right (le_refl _), Nat.sub_self]; rfl
  · show Parsing.slice (m.arena ++ d.vector) m.arena.length m.stride = _
    rw [← hvec]; exact Parsing.slice_append_right _ _

/-- **One write.** -/
theorem Models.applyOp (h : Models invNorm ops m) (op : LogOp)
    (hrows : (m.applyOp invNorm op).rows.length ≤ 2 ^ 32)
    (hvec : ∀ id d, op = .put id d → d.vector.length = m.stride) :
    Models invNorm (ops ++ [op]) (m.applyOp invNorm op) := by
  constructor
  · intro k
    rw [verdict_concat]
    by_cases hk : op.key = k
    · rw [if_pos hk, ← hk]
      cases op with
      | put id d =>
        have hlt : m.rows.length < 2 ^ 32 := by
          have hle : (m.rows ++ [_]).length ≤ 2 ^ 32 := hrows
          rw [List.length_append, List.length_singleton] at hle; omega
        exact answers_put hlt (hvec id d rfl)
      | del id => exact lookup_applyOp_self (.del id)
    · -- another id: the index entry, the row and the arena are as they were
      rw [if_neg hk]
      have hlook : (m.applyOp invNorm op).index.lookup k = m.index.lookup k :=
        lookup_applyOp_ne (fun h => hk h.symm)
      have ha := h.answers k
      cases hv : verdict ops k with
      | none => rw [hv] at ha; exact hlook.trans ha
      | some v =>
        rw [hv] at ha
        cases v with
        | none => exact hlook.trans ha
        | some d =>
          obtain ⟨i, row, hl, hrow, hh⟩ := ha
          exact ⟨i, row, hlook.trans hl, rows_applyOp hrow op, hh.applyOp op⟩
  · have hcount := h.tombstones
    cases op with
    | put id d =>
      have hins := countP_insert m.index id (.row (UInt32.ofNat m.rows.length)) (fun v => v = MemSlot.deleted)
      show (if m.index.lookup id = some .deleted then m.tombstones - 1 else m.tombstones) =
        (m.index.insert id (.row (UInt32.ofNat m.rows.length))).entries.countP (fun e => e.2 = MemSlot.deleted)
      cases hl : m.index.lookup id with
      | none => rw [hl] at hins; simp at hins ⊢; omega
      | some v => rw [hl] at hins; cases v <;> simp at hins ⊢ <;> omega
    | del id =>
      have hins := countP_insert m.index id .deleted (fun v => v = MemSlot.deleted)
      show (if m.index.lookup id = some .deleted then m.tombstones else m.tombstones + 1) =
        (m.index.insert id .deleted).entries.countP (fun e => e.2 = MemSlot.deleted)
      cases hl : m.index.lookup id with
      | none => rw [hl] at hins; simp at hins ⊢; omega
      | some v => rw [hl] at hins; cases v <;> simp at hins ⊢ <;> omega

theorem rows_length_applyOp (op : LogOp) : m.rows.length ≤ (m.applyOp invNorm op).rows.length := by
  cases op with
  | put id d =>
    show _ ≤ (m.rows ++ [_]).length
    rw [List.length_append]; exact Nat.le_add_right _ _
  | del id => exact le_refl _

/-- Each document put adds one row. -/
theorem rows_length_foldl (m : Memtable) (ops : List LogOp) :
    (ops.foldl (applyOp invNorm) m).rows.length = m.rows.length + ops.countP KeyLog.Op.isPut := by
  induction ops generalizing m with
  | nil => rfl
  | cons op ops ih =>
    rw [List.foldl_cons, ih, List.countP_cons]
    cases op with
    | put id d =>
      show (m.rows ++ [_]).length + _ = m.rows.length + (_ + 1)
      rw [List.length_append, List.length_singleton]; omega
    | del id => rfl

theorem rows_length_ofOps (dimension : UInt32) (ops : List LogOp) :
    (ofOps invNorm dimension ops).rows.length = ops.countP KeyLog.Op.isPut := by
  unfold ofOps
  rw [rows_length_foldl]
  exact Nat.zero_add _

/-- **The memtable models the writes that made it**, while its row numbers fit their field. -/
theorem models_ofOps {dimension : UInt32} (hs : Sized (VectorDType.f32.rowStride dimension) ops)
    (hrows : (ofOps invNorm dimension ops).rows.length ≤ 2 ^ 32) :
    Models invNorm ops (ofOps invNorm dimension ops) := by
  induction ops using List.reverseRecOn with
  | nil => exact models_new dimension
  | append_singleton ops op ih =>
    rw [ofOps_concat] at hrows ⊢
    refine (ih hs.of_append (le_trans (rows_length_applyOp op) hrows)).applyOp op hrows (fun id d hop => ?_)
    rw [(shaped_ofOps dimension ops).stride]
    exact hs id d (List.mem_append_right _ (by rw [hop]; exact List.mem_cons_self))

/-! ## Lookups -/

/-- **A lookup gives the verdict.** -/
theorem Models.get_none (h : Models invNorm ops m) {k : DocId} : m.get k = none ↔ verdict ops k = none := by
  have ha := h.answers k
  unfold get
  cases hv : verdict ops k with
  | none =>
    rw [hv] at ha
    rw [show m.index.lookup k = none from ha]; simp
  | some v =>
    rw [hv] at ha
    cases v with
    | none => rw [show m.index.lookup k = some .deleted from ha]; simp
    | some d =>
      obtain ⟨i, row, hl, hrow, -⟩ := ha
      rw [hl]
      simp [hrow]

theorem Models.get_deleted (h : Models invNorm ops m) {k : DocId} (hv : verdict ops k = some none) :
    m.get k = some .deleted := by
  have ha := h.answers k
  rw [hv] at ha
  unfold get
  rw [show m.index.lookup k = some .deleted from ha]; rfl

theorem Models.get_present (h : Models invNorm ops m) {k : DocId} {d : Doc} (hv : verdict ops k = some (some d)) :
    ∃ row, m.get k = some (.present row) ∧ m.RowHolds invNorm k d row := by
  have ha := h.answers k
  rw [hv] at ha
  obtain ⟨i, row, hl, hrow, hh⟩ := ha
  refine ⟨row, ?_, hh⟩
  unfold get
  rw [hl]
  simp [hrow]

/-- The memtable is empty exactly when the log is. -/
theorem Models.isEmpty_iff (h : Models invNorm ops m) : m.isEmpty = true ↔ ops = [] := by
  have hkeys : ∀ k, k ∈ m.index ↔ Named ops k := fun k => by
    rw [named_iff_verdict, ← AList.lookup_isSome]
    have ha := h.answers k
    cases hv : verdict ops k with
    | none => rw [hv] at ha; rw [show m.index.lookup k = none from ha]; exact ⟨nofun, nofun⟩
    | some v =>
      rw [hv] at ha
      cases v with
      | none => rw [show m.index.lookup k = some .deleted from ha]; rfl
      | some d => obtain ⟨i, row, hl, -⟩ := ha; rw [hl]; rfl
  unfold isEmpty
  rw [List.isEmpty_iff]
  constructor
  · intro he
    cases hops : ops with
    | nil => rfl
    | cons op rest =>
      have hmem : op.key ∈ m.index := (hkeys op.key).mpr ⟨op, by rw [hops]; exact List.mem_cons_self, rfl⟩
      rw [AList.mem_keys, he] at hmem; cases hmem
  · rintro rfl
    refine List.eq_nil_iff_forall_not_mem.mpr (fun k hk => ?_)
    obtain ⟨op, hop, -⟩ := (hkeys k).mp (AList.mem_keys.mpr hk)
    cases hop

/-! ## Live rows and deleted ids -/

/-- The ids with a current row, in the index's order. -/
def liveKeys (m : Memtable) : List DocId := (m.index.entries.filter (fun e => e.2 ≠ MemSlot.deleted)).map Sigma.fst

/-- The ids recorded as deleted, in the index's order. -/
def deletedKeys (m : Memtable) : List DocId := (m.index.entries.filter (fun e => e.2 = MemSlot.deleted)).map Sigma.fst

theorem liveKeys_nodup (m : Memtable) : m.liveKeys.Nodup :=
  (List.filter_sublist.map Sigma.fst).nodup m.index.keys_nodup

theorem deletedKeys_nodup (m : Memtable) : m.deletedKeys.Nodup :=
  (List.filter_sublist.map Sigma.fst).nodup m.index.keys_nodup

theorem mem_liveKeys {k : DocId} : k ∈ m.liveKeys ↔ ∃ i, m.index.lookup k = some (.row i) := by
  simp only [liveKeys, List.mem_map, List.mem_filter, decide_eq_true_eq]
  constructor
  · rintro ⟨⟨k', v⟩, ⟨he, hv⟩, rfl⟩
    cases v with
    | deleted => exact absurd rfl hv
    | row i => exact ⟨i, AList.mem_lookup_iff.mpr he⟩
  · rintro ⟨i, hi⟩
    exact ⟨⟨k, .row i⟩, ⟨AList.mem_lookup_iff.mp hi, nofun⟩, rfl⟩

theorem mem_deletedKeys {k : DocId} : k ∈ m.deletedKeys ↔ m.index.lookup k = some .deleted := by
  simp only [deletedKeys, List.mem_map, List.mem_filter, decide_eq_true_eq]
  constructor
  · rintro ⟨⟨k', v⟩, ⟨he, hv⟩, rfl⟩
    exact AList.mem_lookup_iff.mpr (hv ▸ he)
  · intro hk
    exact ⟨⟨k, .deleted⟩, ⟨AList.mem_lookup_iff.mp hk, rfl⟩, rfl⟩

theorem Models.mem_liveKeys_iff (h : Models invNorm ops m) {k : DocId} :
    k ∈ m.liveKeys ↔ ∃ d, verdict ops k = some (some d) := by
  rw [mem_liveKeys]
  have ha := h.answers k
  cases hv : verdict ops k with
  | none => rw [hv] at ha; rw [show m.index.lookup k = none from ha]; exact ⟨nofun, nofun⟩
  | some v =>
    rw [hv] at ha
    cases v with
    | none => rw [show m.index.lookup k = some .deleted from ha]; exact ⟨nofun, nofun⟩
    | some d => obtain ⟨i, row, hl, -⟩ := ha; exact ⟨fun _ => ⟨d, rfl⟩, fun _ => ⟨i, hl⟩⟩

theorem Models.mem_deletedKeys_iff (h : Models invNorm ops m) {k : DocId} :
    k ∈ m.deletedKeys ↔ verdict ops k = some none := by
  rw [mem_deletedKeys]
  have ha := h.answers k
  cases hv : verdict ops k with
  | none => rw [hv] at ha; rw [show m.index.lookup k = none from ha]; exact ⟨nofun, nofun⟩
  | some v =>
    rw [hv] at ha
    cases v with
    | none => exact ⟨fun _ => rfl, fun _ => ha⟩
    | some d => obtain ⟨i, row, hl, -⟩ := ha; rw [hl]; exact ⟨nofun, nofun⟩

/-- The row an index entry names. -/
theorem Models.row_of_lookup (h : Models invNorm ops m) {k : DocId} {i : UInt32} (hl : m.index.lookup k = some (.row i)) :
    ∃ row d, m.rows[i.toNat]? = some row ∧ verdict ops k = some (some d) ∧ m.RowHolds invNorm k d row := by
  obtain ⟨d, hv⟩ := h.mem_liveKeys_iff.mp (mem_liveKeys.mpr ⟨i, hl⟩)
  have ha := h.answers k
  rw [hv] at ha
  obtain ⟨i', row, hl', hrow, hh⟩ := ha
  rw [hl] at hl'
  obtain rfl := MemSlot.row.inj (Option.some.inj hl')
  exact ⟨row, d, hrow, hv, hh⟩

/-- **The live rows are the rows of the live ids**, in another order. -/
theorem Models.liveRows_ids (h : Models invNorm ops m) : (m.liveRows.map MemRow.id).Perm m.liveKeys := by
  unfold liveRows liveIndices
  refine (((List.perm_insertionSort (· ≤ ·) _).filterMap (fun i => m.rows[i]?)).map MemRow.id).trans (List.Perm.of_eq ?_)
  have hmem : ∀ e ∈ m.index.entries, ∀ i, e.2 = MemSlot.row i → (m.rows[i.toNat]?).map MemRow.id = some e.1 := by
    rintro ⟨k, v⟩ he i rfl
    obtain ⟨row, d, hrow, -, hh⟩ := h.row_of_lookup (AList.mem_lookup_iff.mpr he)
    rw [hrow, Option.map_some, hh.id]
  -- entry by entry: a row gives its id, a deletion gives nothing on either side
  unfold liveKeys
  generalize m.index.entries = entries at hmem ⊢
  induction entries with
  | nil => rfl
  | cons e rest ih =>
    have ih := ih (fun e' he' => hmem e' (List.mem_cons_of_mem _ he'))
    obtain ⟨k, v⟩ := e
    cases v with
    | deleted => simpa using ih
    | row i =>
      have hi := hmem ⟨k, .row i⟩ List.mem_cons_self i rfl
      obtain ⟨row, hrow, hid⟩ := Option.map_eq_some_iff.mp hi
      have hk : row.id = k := hid
      simpa [hrow, hk] using ih

theorem Models.liveRows_holds (h : Models invNorm ops m) {row : MemRow} (hr : row ∈ m.liveRows) :
    ∃ d, verdict ops row.id = some (some d) ∧ m.RowHolds invNorm row.id d row := by
  obtain ⟨i, hi, hrow⟩ := List.mem_filterMap.mp hr
  rw [liveIndices, List.mem_insertionSort] at hi
  obtain ⟨⟨k, v⟩, he, hv⟩ := List.mem_filterMap.mp hi
  cases v with
  | deleted => cases hv
  | row j =>
    obtain rfl := Option.some.inj hv
    obtain ⟨row', d, hrow', hverd, hh⟩ := h.row_of_lookup (AList.mem_lookup_iff.mpr he)
    rw [hrow] at hrow'
    obtain rfl := Option.some.inj hrow'
    rw [hh.id]
    exact ⟨d, hverd, hh⟩

theorem Models.liveRows_nodup (h : Models invNorm ops m) : (m.liveRows.map MemRow.id).Nodup :=
  h.liveRows_ids.nodup_iff.mpr m.liveKeys_nodup

/-- **A document is in the live rows exactly when the log put it last.** -/
theorem Models.mem_liveRows (h : Models invNorm ops m) {k : DocId} :
    k ∈ m.liveRows.map MemRow.id ↔ ∃ d, verdict ops k = some (some d) := by
  rw [h.liveRows_ids.mem_iff, h.mem_liveKeys_iff]

theorem deletedIds_perm (m : Memtable) : m.deletedIds.Perm m.deletedKeys := by
  refine (List.perm_insertionSort _ _).trans (List.Perm.of_eq ?_)
  unfold deletedKeys
  induction m.index.entries with
  | nil => rfl
  | cons e rest ih =>
    obtain ⟨k, v⟩ := e
    cases v <;> simpa using ih

/-- **An id is recorded as deleted exactly when the log deleted it last.** -/
theorem Models.mem_deletedIds (h : Models invNorm ops m) {k : DocId} :
    k ∈ m.deletedIds ↔ verdict ops k = some none := by
  rw [(deletedIds_perm m).mem_iff, h.mem_deletedKeys_iff]

/-- **`len` counts the live rows.** -/
theorem Models.len_eq (h : Models invNorm ops m) : m.len = m.liveRows.length := by
  have hlive : m.liveRows.length = m.liveKeys.length := by
    rw [← h.liveRows_ids.length_eq, List.length_map]
  have hdel : m.tombstones = (m.index.entries.filter (fun e => e.2 = MemSlot.deleted)).length := by
    rw [h.tombstones, List.countP_eq_length_filter]
  have hsplit := List.length_eq_length_filter_add (l := m.index.entries) (fun e => decide (e.2 = MemSlot.deleted))
  have hkeys : m.index.keys.length = m.index.entries.length := List.length_map _
  have hneg : (m.index.entries.filter (fun e => !decide (e.2 = MemSlot.deleted))) =
      m.index.entries.filter (fun e => e.2 ≠ MemSlot.deleted) := by
    congr 1; funext e; simp
  rw [hneg] at hsplit
  rw [len, hlive, hkeys, hdel, hsplit, liveKeys, List.length_map]
  omega

/-! ## The rows a flush writes -/

/-- The live rows with their documents. -/
def storedRows (m : Memtable) : List StoredRow :=
  m.liveRows.filterMap (fun row => (m.vectorBytes row).map (fun vector =>
    ⟨row.id, ⟨vector, row.metadata, row.content⟩, row.invNorm⟩))

theorem Models.storedRows_ids (h : Models invNorm ops m) :
    m.storedRows.map StoredRow.id = m.liveRows.map MemRow.id := by
  have hall : ∀ row ∈ m.liveRows, ∃ vector, m.vectorBytes row = some vector := fun row hr => by
    obtain ⟨d, -, hh⟩ := h.liveRows_holds hr
    exact ⟨_, hh.vector⟩
  unfold storedRows
  generalize m.liveRows = rows at hall ⊢
  induction rows with
  | nil => rfl
  | cons row rest ih =>
    obtain ⟨vector, hv⟩ := hall row List.mem_cons_self
    have ih := ih (fun r hr => hall r (List.mem_cons_of_mem _ hr))
    simp only [List.filterMap_cons, hv, Option.map_some, List.map_cons, ih]

theorem Models.storedRows_holds (h : Models invNorm ops m) {r : StoredRow} (hr : r ∈ m.storedRows) :
    verdict ops r.id = some (some r.doc) ∧ r.invNorm = invNorm r.doc.vector := by
  obtain ⟨row, hrow, hv⟩ := List.mem_filterMap.mp hr
  obtain ⟨d, hverd, hh⟩ := h.liveRows_holds hrow
  rw [hh.vector] at hv
  obtain rfl := Option.some.inj hv
  refine ⟨?_, hh.invNorm⟩
  rw [hverd, hh.metadata, hh.content]

end Memtable

end IshaVectorDb.Engine
