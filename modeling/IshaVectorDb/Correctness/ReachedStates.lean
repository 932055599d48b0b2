import IshaVectorDb.Interaction.Keeps
import IshaVectorDb.Engine.Api
import IshaVectorDb.Correctness.Memtable

/-!
# `Correctness.ReachedStates` — what holds of **every state of a database**

A database is opened on whatever is stored, and then calls are made on it that the storage answers in any way at all:
with what it holds, with something else, with an error (`Opened.Reached`). Two things hold of each collection in each
state so reached. Every row of the memtable has its vector in the arena (`Memtable.Solid`), and a segment's bitmap, ids
and directory have the same number of rows (`SegmentData.Consistent`). What a segment's other files hold is not known:
the vector file may be another one.
-/

namespace IshaVectorDb.Engine

open Format Interaction

/-! ## Processes that hold nothing but their arguments -/

section Bystanders

variable {S : Type} {P : S → Prop}

theorem lift_keeps {α : Type} (v : Except DbError α) : Keeps P (Proc.lift v : Action S α) (fun _ => True) :=
  .lift (fun _ _ => trivial)

theorem readFile_keeps (path : DbPath) : Keeps P (readFile path) (fun _ => True) := by
  refine .next (.call _) fun found => ?_
  cases found with
  | none => exact .pure trivial
  | some len => exact .next (.call _) fun _ => .next (.call _) fun _ => .pure trivial

theorem writeFile_keeps (path : DbPath) (bytes : Bytes) : Keeps P (writeFile path bytes) (fun _ => True) :=
  .next (.call _) fun _ => .next (.call _) fun _ => .next (.call _) fun _ => .call _

theorem writeCatalog_keeps (catalog : Catalog) : Keeps P (writeCatalog catalog) (fun _ => True) :=
  .next (lift_keeps _) fun _ => .next (lift_keeps _) fun _ => .next (.call _) fun _ => .next (lift_keeps _) fun _ =>
    writeFile_keeps _ _

theorem require_keeps (collection : Str) (id : UInt64) (which : SegmentFile) :
    Keeps P (require collection id which) (fun _ => True) := by
  refine .next (lift_keeps _) fun path => .next (readFile_keeps path) fun found => ?_
  cases found with
  | none => exact .throw _
  | some bytes => exact .pure trivial

theorem writeSegmentFile_keeps (collection : Str) (id : UInt64) (which : SegmentFile) (bytes : Bytes) :
    Keeps P (writeSegmentFile collection id which bytes) (fun _ => True) :=
  .next (lift_keeps _) fun _ => writeFile_keeps _ _

theorem removeSegment_keeps (collection : Str) (id : UInt64) : Keeps P (removeSegment collection id) (fun _ => True) := by
  refine .forList _ fun which _ => .next (lift_keeps _) fun path => .next (.call _) fun found => ?_
  cases found with
  | none => exact .pure trivial
  | some len => exact .call _

theorem listSegmentIds_keeps (collection : Str) : Keeps P (listSegmentIds collection) (fun _ => True) := by
  refine .next (lift_keeps _) fun dir => .next (.call _) fun found => ?_
  cases found with
  | none => exact .pure trivial
  | some len => exact .next (.call _) fun _ => .pure trivial

theorem writeSegment_keeps (collection : Str) (id : UInt64) (w : SegmentWriter) :
    Keeps P (writeSegment collection id w) (fun _ => True) :=
  .next (writeSegmentFile_keeps _ _ _ _) fun _ => .next (writeSegmentFile_keeps _ _ _ _) fun _ =>
    .next (writeSegmentFile_keeps _ _ _ _) fun _ => .next (writeSegmentFile_keeps _ _ _ _) fun _ => .pure trivial

theorem flushMemtable_keeps (catalog : Catalog) (id : UInt64) (memtable : Memtable) :
    Keeps P (flushMemtable catalog id memtable) (fun _ => True) :=
  .next (lift_keeps _) fun _ => .next (.call _) fun _ => .next (lift_keeps _) fun _ => .next (lift_keeps _) fun _ =>
    .next (writeSegment_keeps _ _ _) fun _ => .pure trivial

theorem compactSegments_keeps (catalog : Catalog) (id : UInt64) (sources : List SegmentData) :
    Keeps P (compactSegments catalog id sources) (fun _ => True) :=
  .next (lift_keeps _) fun _ => .next (.call _) fun _ => .next (lift_keeps _) fun _ => .next (lift_keeps _) fun _ =>
    .next (writeSegment_keeps _ _ _) fun _ => .pure trivial

theorem walOpen_keeps (path : DbPath) (first : UInt64) (durability : Durability) :
    Keeps P (WalWriter.open path first durability) (fun _ => True) :=
  .next (.call _) fun _ => .next (.call _) fun _ => .pure trivial

theorem cleanUp_keeps_memory (env : Env) (name : Str) (entry : CollectionEntry) :
    Keeps P (cleanUp env name entry) (fun _ => True) := by
  refine .ite (fun _ => .pure trivial) fun _ => .next (listSegmentIds_keeps name) fun ids => .forList _ fun id _ => ?_
  exact .ite (fun _ => .pure trivial) fun _ => removeSegment_keeps name id

theorem repairTail_keeps (env : Env) (path : DbPath) (report : ReplayReport) :
    Keeps P (repairTail env path report) (fun _ => True) := by
  refine .ite (fun _ => .next (.call _) fun found => ?_) fun _ => .pure trivial
  cases found with
  | none => exact .pure trivial
  | some len =>
    exact .ite (fun _ => .pure trivial) fun _ => .next (.call _) fun _ => .next (.call _) fun _ => .call _

theorem verifySegments_keeps (level : VerifyLevel) (collection : Str) (segments : List SegmentData)
    (acc : List DocId × List Problem) : Keeps P (verifySegments level collection segments acc) (fun _ => True) := by
  induction segments generalizing acc with
  | nil => exact .pure trivial
  | cons seg rest ih =>
    refine .next (.ite (fun _ => ?_) fun _ => .pure trivial) fun damaged => ih _
    refine .next (.attempt (G := fun _ => True) (.forList _ fun which _ => ?_)) fun checked => ?_
    · refine .next (lift_keeps _) fun path => .next (readFile_keeps path) fun found => ?_
      cases found with
      | none => exact .throw _
      | some bytes => exact lift_keeps _
    · cases checked with
      | ok _ => exact .pure trivial
      | error e => exact .pure trivial

theorem listCollectionDirs_keeps : Keeps P (listCollectionDirs : Action S _) (fun _ => True) := by
  refine .next (.call _) fun found => ?_
  cases found with
  | none => exact .pure trivial
  | some len => exact .call _

end Bystanders

/-! ## Memtables -/

/-- **Every row has its vector**: as many bytes of the arena as a row takes. -/
structure Memtable.Solid (m : Memtable) : Prop where
  shaped : m.Shaped m.dimension
  inside : ∀ row ∈ m.rows, row.offset + m.stride ≤ m.arena.length

namespace Memtable

variable {m m' : Memtable}

theorem solid_new (dimension : UInt32) : (Memtable.new dimension .f32).Solid := ⟨⟨rfl, rfl, rfl⟩, nofun⟩

theorem Solid.clear (h : m.Solid) : m.clear.Solid := ⟨⟨rfl, h.shaped.dtype, h.shaped.stride⟩, nofun⟩

theorem Solid.delete (h : m.Solid) (id : DocId) : (m.delete id).Solid :=
  ⟨⟨rfl, h.shaped.dtype, h.shaped.stride⟩, h.inside⟩

/-- **A put keeps the memtable solid**, if the view has the bytes its dimension asks for. -/
theorem Solid.putView (h : m.Solid) {invNorm : InvNorm} {id : DocId} {view : VectorView} {metadata : Option Metadata}
    {content : Option Bytes} (hview : view.WellFormed) (hput : m.putView invNorm id view metadata content = .ok m') :
    m'.Solid := by
  unfold Memtable.putView at hput
  obtain ⟨u, hdim, hput⟩ := Parsing.except_bind_eq_ok.mp hput
  obtain rfl := Except.ok.inj hput
  unfold VectorView.checkDimension at hdim
  split at hdim
  · cases hdim
  rename_i heq
  have hlen : view.toBytes.length = m.stride := by
    rw [VectorView.toBytes_length hview, not_not.mp heq, h.shaped.stride]
  refine ⟨⟨rfl, h.shaped.dtype, h.shaped.stride⟩, fun row hrow => ?_⟩
  show row.offset + m.stride ≤ (m.arena ++ view.toBytes).length
  rw [List.length_append]
  rcases List.mem_append.mp hrow with hold | hnew
  · have := h.inside row hold
    omega
  · obtain rfl := List.mem_singleton.mp hnew
    show m.arena.length + m.stride ≤ _
    omega

theorem Solid.putBytes (h : m.Solid) {invNorm : InvNorm} {id : DocId} {vector : Bytes} {metadata : Option Metadata}
    {content : Option Bytes} (hput : m.putBytes invNorm id vector metadata content = .ok m') : m'.Solid := by
  unfold Memtable.putBytes at hput
  obtain ⟨view, hview, hput⟩ := Parsing.except_bind_eq_ok.mp hput
  refine h.putView ?_ hput
  unfold VectorView.ofRaw at hview
  split at hview
  · cases hview
  rename_i hlen
  obtain rfl := Except.ok.inj hview
  exact not_not.mp hlen

/-- What each step of a fold over writes keeps, the fold keeps. -/
theorem solid_foldlM {α : Type} {f : Memtable → α → Except DbError Memtable} (l : List α)
    (hf : ∀ m a m', m.Solid → f m a = .ok m' → m'.Solid) (h : m.Solid) (hrun : l.foldlM f m = .ok m') : m'.Solid := by
  induction l generalizing m with
  | nil =>
    obtain rfl := Except.ok.inj hrun
    exact h
  | cons a l ih =>
    rw [List.foldlM_cons] at hrun
    obtain ⟨m₁, hstep, hrest⟩ := Parsing.except_bind_eq_ok.mp hrun
    exact ih (hf m a m₁ h hstep) hrest

/-- **A replayed memtable is solid**, whatever the log holds. -/
theorem Solid.replayScan (h : m.Solid) {invNorm : InvNorm} {idKind : IdKind} {path : DbPath} {scan : WalScan}
    {report : ReplayReport} (hrun : Engine.replayScan invNorm idKind path scan m = .ok (report, m')) : m'.Solid := by
  unfold Engine.replayScan at hrun
  split at hrun
  · cases hrun
  obtain ⟨m₁, hfold, hrest⟩ := Parsing.except_bind_eq_ok.mp hrun
  obtain ⟨-, rfl⟩ := Prod.mk.inj (Except.ok.inj hrest)
  refine solid_foldlM _ (fun m frame m' hm hframe => ?_) h hfold
  unfold replayFrame at hframe
  split at hframe
  · obtain ⟨id, hid, hframe⟩ := Parsing.except_bind_eq_ok.mp hframe
    obtain ⟨md, hmd, hframe⟩ := Parsing.except_bind_eq_ok.mp hframe
    exact hm.putBytes hframe
  · obtain ⟨id, -, hframe⟩ := Parsing.except_bind_eq_ok.mp hframe
    obtain rfl := Except.ok.inj hframe
    exact hm.delete id
  · obtain rfl := Except.ok.inj hframe
    exact hm

end Memtable

/-! ## Segments -/

/-- **As many rows in the bitmap, among the ids and in the directory.** -/
structure SegmentData.Consistent (seg : SegmentData) : Prop where
  tombstones : seg.tombstones.rows.toNat = seg.entries.length
  ids : seg.ids.length = seg.entries.length

namespace SegmentData

variable {seg : SegmentData}

theorem Consistent.kill (h : seg.Consistent) (row : Nat) : (seg.kill row).2.Consistent :=
  ⟨(congrArg UInt32.toNat (Tombstones.kill_rows seg.tombstones row)).trans h.tombstones, h.ids⟩

theorem Consistent.killIds (h : seg.Consistent) (ids : List DocId) : (seg.killIds ids).2.Consistent := by
  induction ids generalizing seg with
  | nil => exact h
  | cons id rest ih =>
    unfold SegmentData.killIds
    cases seg.rowOf id with
    | none => exact ih h
    | some row => exact ih (h.kill row)

/-- Reading rows of a directory reads an entry and an id for each. -/
theorem readRows_lengths {catalog : Catalog} {directory : Directory} (rows : List Nat) {table table' : RowTable}
    (h : rows.foldlM (readRow catalog directory) table = .ok table') :
    table'.entries.length = table.entries.length + rows.length ∧ table'.ids.length = table.ids.length + rows.length := by
  induction rows generalizing table with
  | nil =>
    obtain rfl := Except.ok.inj h
    exact ⟨rfl, rfl⟩
  | cons row rows ih =>
    rw [List.foldlM_cons] at h
    obtain ⟨next, hstep, hrest⟩ := Parsing.except_bind_eq_ok.mp h
    obtain ⟨hentries, hids⟩ := ih hrest
    unfold readRow at hstep
    split at hstep
    · obtain ⟨id, hid, hstep⟩ := Parsing.except_bind_eq_ok.mp hstep
      split at hstep
      · cases hstep
      obtain rfl := Except.ok.inj hstep
      rw [List.length_append, List.length_singleton] at hentries hids
      rw [List.length_cons]
      omega
    · cases hstep
    · cases hstep

/-- **An assembled segment is consistent.** -/
theorem assemble_consistent {catalog : Catalog} {ref : SegmentRef} {vecBytes metaPayload : Bytes} {directory : Directory}
    {tombstones : Tombstones} (h : assemble catalog ref vecBytes metaPayload directory tombstones = .ok seg) :
    seg.Consistent := by
  unfold assemble at h
  split at h
  · cases h
  rename_i hrows
  rw [not_or, not_not, not_not] at hrows
  obtain ⟨hdirectory, htombstones⟩ := hrows
  obtain ⟨table, htable, h⟩ := Parsing.except_bind_eq_ok.mp h
  obtain rfl := Except.ok.inj h
  obtain ⟨hentries, hids⟩ := readRows_lengths _ htable
  rw [List.length_range] at hentries hids
  refine ⟨?_, hids.trans hentries.symm⟩
  show tombstones.rows.toNat = table.entries.length
  rw [hentries, htombstones, hdirectory]
  exact (Nat.zero_add _).symm

variable {S : Type} {P : S → Prop}

/-- **An opened segment is consistent**, whatever its files hold. -/
theorem open_keeps (catalog : Catalog) (ref : SegmentRef) :
    Keeps P (SegmentData.open catalog ref) SegmentData.Consistent :=
  .next (require_keeps _ _ _) fun _ => .next (require_keeps _ _ _) fun _ => .next (require_keeps _ _ _) fun _ =>
    .next (lift_keeps _) fun _ => .next (require_keeps _ _ _) fun _ => .next (lift_keeps _) fun _ =>
    .next (lift_keeps _) fun _ => .lift fun _ h => assemble_consistent h

theorem supersede_keeps (collection : Str) (ids : List DocId) :
    Keeps SegmentData.Consistent (SegmentData.supersede collection ids) (fun _ => True) := by
  refine .next Keeps.get.any fun seg => .next (.modify fun seg h => h.killIds ids) fun _ => ?_
  refine .ite (fun _ => .next ?_ fun _ => .next Keeps.get.any fun _ => .pure trivial) fun _ =>
    .next Keeps.get.any fun _ => .pure trivial
  refine .next (.modify fun seg h => ⟨h.tombstones, h.ids⟩) fun _ => .next Keeps.get.any fun _ => ?_
  exact .next (writeSegmentFile_keeps _ _ _ _) fun _ => .pure trivial

end SegmentData

/-! ## Collections -/

/-- **A solid collection**: so is its memtable, and its segments are consistent. -/
structure CollInner.Solid (coll : CollInner) : Prop where
  memtable : coll.state.memtable.Solid
  segments : ∀ seg ∈ coll.state.segments, seg.Consistent

/-- A session with a solid collection. -/
def Session.Solid (s : Session) : Prop := s.coll.Solid

section Opening

variable {S : Type} {P : S → Prop}

theorem replayInto_keeps (invNorm : InvNorm) (path : DbPath) (idKind : IdKind) {memtable : Memtable}
    (h : memtable.Solid) : Keeps P (replayInto invNorm path idKind memtable) (fun r => r.2.Solid) := by
  refine .next (readFile_keeps path) fun found => ?_
  cases found with
  | none => exact .pure h
  | some bytes => exact .lift fun _ hrun => h.replayScan hrun

/-- **An opened collection is solid**, whatever its files hold. -/
theorem collOpen_keeps (env : Env) (catalog : Catalog) (entry : CollectionEntry) :
    Keeps P (CollInner.open env catalog entry) CollInner.Solid := by
  refine .next (cleanUp_keeps_memory env catalog.name entry) fun _ => ?_
  refine .bind (.mapList _ fun ref _ => SegmentData.open_keeps catalog ref) fun segments hsegments => ?_
  refine .next (lift_keeps _) fun path => ?_
  refine .bind (replayInto_keeps env.invNorm path catalog.idKind (Memtable.solid_new catalog.dimension)) ?_
  rintro ⟨report, memtable⟩ hmemtable
  exact .next (repairTail_keeps env path report) fun _ => .next (walOpen_keeps _ _ _) fun _ =>
    .pure ⟨hmemtable, hsegments⟩

end Opening

/-- Work on the log keeps a session solid. -/
theorem onWal_keeps {α : Type} (m : Action WalWriter α) : Keeps Session.Solid (onWal m) (fun _ => True) :=
  .zoom_apart fun _ _ h => ⟨h.memtable, h.segments⟩

theorem commitCollection_keeps (env : Env) (entry : CollectionEntry) :
    Keeps Session.Solid (commitCollection env entry) (fun _ => True) :=
  .next Keeps.get.any fun _ => .zoom_apart fun _ _ h => h

theorem adoptSegment_keeps (segment : SegmentRef) (refs : List SegmentRef) :
    Keeps Session.Solid (adoptSegment segment refs) (fun _ => True) := by
  refine .next Keeps.get.any fun s => .ite (fun _ => ?_) fun _ => .next (removeSegment_keeps _ _) fun _ => .pure trivial
  refine .bind (SegmentData.open_keeps _ _) fun opened hopened => .next (.modify fun s h => ⟨h.memtable, ?_⟩) fun _ =>
    .pure trivial
  intro seg hseg
  rcases List.mem_append.mp hseg with hold | hnew
  · exact h.segments seg hold
  · exact List.mem_singleton.mp hnew ▸ hopened

theorem checkpoint_keeps (env : Env) (segmentId : UInt64) : Keeps Session.Solid (checkpoint env segmentId) (fun _ => True) :=
  .next Keeps.get.any fun _ => .next (lift_keeps _) fun _ => .next (.call _) fun _ => .next (.call _) fun _ =>
    .next (.call _) fun _ => .next (.modify fun _ h => ⟨h.memtable.clear, h.segments⟩) fun _ =>
    .next (walOpen_keeps _ _ _) fun _ => .modify fun _ h => ⟨h.memtable, h.segments⟩

/-- **A flush keeps a session solid**, wherever it stops. -/
theorem doFlush_keeps (env : Env) : Keeps Session.Solid (doFlush env) (fun _ => True) := by
  refine .next Keeps.get.any fun s => .ite (fun _ => .pure trivial) fun _ => ?_
  refine .next (flushMemtable_keeps _ _ _) fun result => ?_
  refine .next (.zoom (.iterMut (SegmentData.supersede_keeps s.name _)) (fun _ h => h.segments) ?_) fun refs => ?_
  · intro segments t hsegments ht
    exact ⟨ht.memtable, hsegments⟩
  · exact .next (adoptSegment_keeps _ _) fun _ => .next Keeps.get.any fun _ =>
      .next (commitCollection_keeps env _) fun _ => checkpoint_keeps env _

theorem maybeFlush_keeps (env : Env) : Keeps Session.Solid (maybeFlush env) (fun _ => True) :=
  .next Keeps.get.any fun _ => .ite (fun _ => doFlush_keeps env) fun _ => .pure trivial

theorem flush_keeps (env : Env) : Keeps Session.Solid (flush env) (fun _ => True) :=
  .ite (fun _ => .pure trivial) fun _ => doFlush_keeps env

theorem checkWritable_keeps {S : Type} {P : S → Prop} (env : Env) (operation : String) :
    Keeps P (checkWritable env operation) (fun _ => True) := .ite (fun _ => .throw _) fun _ => .pure trivial

/-! ## Writes -/

theorem applyPut_keeps (env : Env) {doc : DocumentInput} (hdoc : doc.vector.WellFormed) :
    Keeps Session.Solid (applyPut env doc) (fun _ => True) := by
  refine .next (lift_keeps _) fun metadata => .next (onWal_keeps _) fun _ => .bind .get fun s hs => ?_
  refine .bind (G := Memtable.Solid) (.lift fun _ hput => hs.memtable.putView hdoc hput) fun memtable hmemtable => ?_
  exact .modify fun t ht => ⟨hmemtable, ht.segments⟩

theorem insert_keeps (env : Env) {doc : DocumentInput} (hdoc : doc.vector.WellFormed) :
    Keeps Session.Solid (insert env doc) (fun _ => True) :=
  .next (checkWritable_keeps env _) fun _ => .next Keeps.get.any fun _ => .next (lift_keeps _) fun _ =>
    .ite (fun _ => .throw _) fun _ => .next (applyPut_keeps env hdoc) fun _ => maybeFlush_keeps env

theorem upsert_keeps (env : Env) {doc : DocumentInput} (hdoc : doc.vector.WellFormed) :
    Keeps Session.Solid (upsert env doc) (fun _ => True) :=
  .next (checkWritable_keeps env _) fun _ => .next Keeps.get.any fun _ => .next (lift_keeps _) fun _ =>
    .next (applyPut_keeps env hdoc) fun _ => .next (maybeFlush_keeps env) fun _ => .pure trivial

theorem delete_keeps (env : Env) (id : DocId) : Keeps Session.Solid (delete env id) (fun _ => True) := by
  refine .next (checkWritable_keeps env _) fun _ => .next Keeps.get.any fun _ => .next (onWal_keeps _) fun _ => ?_
  refine .next (.modify fun t ht => ⟨ht.memtable.delete id, ht.segments⟩) fun _ => ?_
  exact .next (maybeFlush_keeps env) fun _ => .pure trivial

theorem writeBatch_keeps (env : Env) (batch : WriteBatch) : Keeps Session.Solid (writeBatch env batch) (fun _ => True) := by
  refine .next (checkWritable_keeps env _) fun _ => .next (lift_keeps _) fun _ => .ite (fun _ => .pure trivial) fun _ => ?_
  refine .bind .get fun s hs => .next (lift_keeps _) fun _ => .next (lift_keeps _) fun _ => .next (onWal_keeps _) fun _ => ?_
  refine .next (.modify fun t ht => ⟨ht.memtable, ht.segments⟩) fun _ => ?_
  have hfold (m : Memtable) (h : batch.ops.foldlM (BatchOp.apply env.invNorm) s.memtable = .ok m) : m.Solid := by
    refine Memtable.solid_foldlM _ (fun m op m' hm happly => ?_) hs.memtable h
    cases op with
    | upsert id vector metadata content => exact hm.putBytes happly
    | delete id =>
      obtain rfl := Except.ok.inj happly
      exact hm.delete id
  refine .bind (G := Memtable.Solid) (.lift hfold) fun memtable hmemtable => ?_
  refine .next (.modify fun t ht => ⟨hmemtable, ht.segments⟩) fun _ => ?_
  exact .next (maybeFlush_keeps env) fun _ => .pure trivial

theorem openRewritten_keeps {S : Type} {P : S → Prop} (catalog : Catalog) (segment : SegmentRef) :
    Keeps P (openRewritten catalog segment) (fun segs => ∀ seg ∈ segs, seg.Consistent) := by
  refine .ite (fun _ => ?_) fun _ => .next (removeSegment_keeps _ _) fun _ => .pure nofun
  exact .bind (SegmentData.open_keeps _ _) fun opened hopened => .pure fun seg hseg => List.mem_singleton.mp hseg ▸ hopened

/-- **A compaction keeps a session solid**, wherever it stops. -/
theorem compact_keeps (env : Env) (options : CompactOptions) :
    Keeps Session.Solid (compact env options) (fun _ => True) := by
  refine .next (checkWritable_keeps env _) fun _ => .bind .get fun s hs => .ite (fun _ => .pure trivial) fun _ => ?_
  refine .next (compactSegments_keeps _ _ _) fun result => .next (.modify fun t ht => ⟨ht.memtable, nofun⟩) fun _ => ?_
  refine .bind (openRewritten_keeps _ _) fun rewritten hrewritten => ?_
  refine .next (.modify fun t ht => ⟨ht.memtable, fun seg hseg => ?_⟩) fun _ => .next Keeps.get.any fun _ => ?_
  · rcases List.mem_append.mp ((List.mem_insertionSort _).mp hseg) with hkept | hnew
    · exact hs.segments seg (List.mem_filter.mp hkept).1
    · exact hrewritten seg hnew
  · exact .next (commitCollection_keeps env _) fun _ => .next (.forList _ fun _ _ => removeSegment_keeps _ _) fun _ =>
      .pure trivial

/-! ## Databases -/

/-- Every one of the collections is solid. -/
def AllSolid (colls : AList (fun _ : Str => CollInner)) : Prop := ∀ name coll, colls.lookup name = some coll → coll.Solid

namespace AllSolid

variable {colls : AList (fun _ : Str => CollInner)}

theorem empty : AllSolid ∅ := by
  intro name coll h
  rw [AList.lookup_empty] at h
  cases h

theorem insert (h : AllSolid colls) (name : Str) {coll : CollInner} (hcoll : coll.Solid) :
    AllSolid (colls.insert name coll) := by
  intro other found hfound
  by_cases heq : other = name
  · subst heq
    rw [AList.lookup_insert] at hfound
    exact Option.some.inj hfound ▸ hcoll
  · rw [AList.lookup_insert_ne heq] at hfound
    exact h other found hfound

theorem erase (h : AllSolid colls) (name : Str) : AllSolid (colls.erase name) := by
  intro other found hfound
  by_cases heq : other = name
  · subst heq
    rw [AList.lookup_erase] at hfound
    cases hfound
  · rw [AList.lookup_erase_ne heq] at hfound
    exact h other found hfound

end AllSolid

/-- Every open collection is solid. -/
def Database.Solid (db : Database) : Prop := AllSolid db.collections

namespace Database

variable {α : Type}

theorem onCollection_keeps (name : Str) {m : Action Session α} (h : Keeps Session.Solid m (fun _ => True)) :
    Keeps Database.Solid (onCollection name m) (fun _ => True) := by
  refine .bind .get fun db hdb => ?_
  cases hlookup : db.collections.lookup name with
  | none => exact .throw _
  | some coll => exact .zoom h (fun _ _ => hdb name coll hlookup) fun s t hs ht => AllSolid.insert ht name hs

theorem createCollection_keeps (env : Env) (spec : CollectionSpec) :
    Keeps Database.Solid (createCollection env spec) (fun _ => True) := by
  refine .next (checkWritable_keeps env _) fun _ => .next (lift_keeps _) fun _ => .next Keeps.get.any fun _ => ?_
  refine .ite (fun _ => .throw _) fun _ => .next (writeCatalog_keeps _) fun _ => .next (lift_keeps _) fun _ => ?_
  refine .next (.call _) fun _ => .next (.zoom_apart fun _ _ h => h) fun _ => ?_
  exact .bind (collOpen_keeps env _ _) fun coll hcoll => .modify fun t ht => AllSolid.insert ht spec.name hcoll

theorem dropCollection_keeps (env : Env) (name : Str) : Keeps Database.Solid (dropCollection env name) (fun _ => True) := by
  refine .next (checkWritable_keeps env _) fun _ => .next Keeps.get.any fun _ => .ite (fun _ => .throw _) fun _ => ?_
  refine .next (.zoom_apart fun _ _ h => h) fun _ => .next (.modify fun t ht => AllSolid.erase ht name) fun _ => ?_
  refine .next (lift_keeps _) fun dir => .next (.call _) fun found => ?_
  cases found with
  | none => exact .pure trivial
  | some len => exact .call _

theorem flushAll_keeps (env : Env) : Keeps Database.Solid (flushAll env) (fun _ => True) :=
  .ite (fun _ => .pure trivial) fun _ => .next Keeps.get.any fun _ =>
    .forList _ fun name _ => onCollection_keeps name (flush_keeps env)

theorem compactAll_keeps (env : Env) (options : CompactOptions) :
    Keeps Database.Solid (compactAll env options) (fun _ => True) := by
  have heach (names : List Str) (total : CompactReport) :
      Keeps Database.Solid (compactEach env options names total) (fun _ => True) := by
    induction names generalizing total with
    | nil => exact .pure trivial
    | cons name rest ih => exact .next (onCollection_keeps name (compact_keeps env options)) fun _ => ih _
  exact .next (checkWritable_keeps env _) fun _ => .next Keeps.get.any fun _ => heach _ _

theorem verify_keeps (level : VerifyLevel) : Keeps Database.Solid (verify level) (fun _ => True) := by
  have hcollection : Keeps Session.Solid (verifyCollection level) (fun _ => True) :=
    .next Keeps.get.any fun _ => .next (verifySegments_keeps _ _ _ _) fun _ => .next (listSegmentIds_keeps _) fun _ =>
      .pure trivial
  have hentries (entries : List CollectionEntry) :
      Keeps Database.Solid (verifyEntries level entries) (fun _ => True) := by
    induction entries with
    | nil => exact .pure trivial
    | cons entry rest ih =>
      refine .next (onCollection_keeps entry.name hcollection) fun found => ?_
      exact .next ih fun _ => .pure trivial
  exact .next Keeps.get.any fun _ => .next (hentries _) fun _ => .next listCollectionDirs_keeps fun _ => .pure trivial

/-- Nothing is asked of the memory of a process that opens something. -/
theorem unasked {S : Type} {m : Action S α} : Keeps (fun _ : S => True) m (fun _ => True) :=
  fun _ _ _ _ => ⟨trivial, fun _ _ => trivial⟩

/-- **An opened database is solid**, whatever is stored. -/
theorem open_solid {S : Type} (env : Env) (counter : UInt64) :
    Keeps (fun _ : S => True) (Database.open env counter) Database.Solid := by
  have hcollections (entries : List CollectionEntry) :
      Keeps (fun _ : S => True) (openCollections env entries) AllSolid := by
    induction entries with
    | nil => exact .pure .empty
    | cons entry rest ih =>
      refine .next unasked fun catalog => .bind (collOpen_keeps env catalog entry) fun coll hcoll => ?_
      exact .bind ih fun others hothers => .pure (hothers.insert entry.name hcoll)
  exact .next unasked fun _ => .next unasked fun store => .bind (hcollections _) fun colls hcolls => .pure hcolls

end Database

/-! ## Calls and runs -/

variable {G : Type}

/-- **A call whose vectors are what a view promises**: as many bytes as the dimension asks for. -/
def ApiCall.WellFormed : ApiCall → Prop
  | .insert _ doc => doc.vector.WellFormed
  | .upsert _ doc => doc.vector.WellFormed
  | _ => True

namespace Opened

/-- Every collection of the database is solid. -/
def Solid (x : Opened G) : Prop := x.db.Solid

theorem onDatabase_keeps {α : Type} {m : Action Database α} (h : Keeps Database.Solid m (fun _ => True)) :
    Keeps (Solid (G := G)) (onDatabase m) (fun _ => True) := .zoom h (fun _ ht => ht) fun _ _ hx _ => hx

theorem onCollection_keeps {α : Type} (name : Str) {m : Action Session α} (h : Keeps Session.Solid m (fun _ => True)) :
    Keeps (Solid (G := G)) (onCollection name m) (fun _ => True) := onDatabase_keeps (Database.onCollection_keeps name h)

theorem ask_keeps {α : Type} (name : Str) (question : Session → Except DbError α) :
    Keeps (Solid (G := G)) (ask name question) (fun _ => True) :=
  onCollection_keeps name (.next Keeps.get.any fun _ => lift_keeps _)

theorem searchIn_keeps (index : VectorIndex G) (name : Str) (request : SearchRequest) (budget : Budget) :
    Keeps (Solid (G := G)) (searchIn index name request budget) (fun _ => True) := by
  refine .next Keeps.get.any fun x => ?_
  cases x.db.session name with
  | none => exact .throw _
  | some s => exact .zoom_apart fun _ _ h => h

/-- **Every call keeps the collections solid**, whatever becomes of it. -/
theorem act_keeps (env : Env) (index : VectorIndex G) {c : ApiCall} (hc : c.WellFormed) :
    Keeps (Solid (G := G)) (c.act env index) (fun _ => True) := by
  refine .next (.next Keeps.get.any fun _ => .ite (fun _ => .throw _) fun _ => .pure trivial) fun _ => ?_
  cases c with
  | get name id inc => exact .next (ask_keeps name _) fun _ => .pure trivial
  | contains name id => exact .next (ask_keeps name _) fun _ => .pure trivial
  | count name => exact .next (ask_keeps name _) fun _ => .pure trivial
  | ids name => exact .next (ask_keeps name _) fun _ => .pure trivial
  | search name request budget => exact .next (searchIn_keeps index name request budget) fun _ => .pure trivial
  | insert name doc => exact .next (onCollection_keeps name (insert_keeps env hc)) fun _ => .pure trivial
  | upsert name doc => exact .next (onCollection_keeps name (upsert_keeps env hc)) fun _ => .pure trivial
  | delete name id => exact .next (onCollection_keeps name (delete_keeps env id)) fun _ => .pure trivial
  | writeBatch name batch => exact .next (onCollection_keeps name (writeBatch_keeps env batch)) fun _ => .pure trivial
  | flush name => exact .next (onCollection_keeps name (flush_keeps env)) fun _ => .pure trivial
  | compact name options => exact .next (onCollection_keeps name (compact_keeps env options)) fun _ => .pure trivial
  | createCollection spec =>
    exact .next (onDatabase_keeps (Database.createCollection_keeps env spec)) fun _ => .pure trivial
  | dropCollection name => exact .next (onDatabase_keeps (Database.dropCollection_keeps env name)) fun _ => .pure trivial
  | verify level => exact .next (onDatabase_keeps (Database.verify_keeps level)) fun _ => .pure trivial
  | flushAll => exact .next (onDatabase_keeps (Database.flushAll_keeps env)) fun _ => .pure trivial
  | compactAll options => exact .next (onDatabase_keeps (Database.compactAll_keeps env options)) fun _ => .pure trivial
  | close =>
    have hclose : Keeps Database.Solid (Database.close env) (fun _ => True) :=
      .ite (fun _ => .pure trivial) fun _ => Database.flushAll_keeps env
    exact .next (.attempt (onDatabase_keeps hclose)) fun _ => .next (.modify fun _ h => h) fun _ => lift_keeps _

/-- **The states of a database**: it is opened on whatever is stored, with an index that remembers whatever it does, and
    then calls are made on it; the storage may answer each of their requests in any way. -/
inductive Reached (index : VectorIndex G) : Opened G → Prop
  | opened {env : Env} {counter : UInt64} {db : Database} (graph : G) :
      (Database.open env counter ()).Outcome (.ok db, ()) → Reached index ⟨db, graph, false⟩
  | act {x : Opened G} {env : Env} {c : ApiCall} {r : Except DbError Answer × Opened G} :
      Reached index x → c.WellFormed → (c.act env index x).Outcome r → Reached index r.2

/-- **Every state reached is solid.** -/
theorem Reached.solid {index : VectorIndex G} {x : Opened G} (h : Reached index x) : x.Solid := by
  induction h with
  | opened graph hopen => exact (Database.open_solid _ _ () trivial _ hopen).2 _ rfl
  | act _ hc hrun ih => exact (act_keeps _ index hc _ ih _ hrun).1

end Opened

end IshaVectorDb.Engine
