import IshaVectorDb.Correctness.Calls
import IshaVectorDb.Correctness.Edits

/-!
# `Correctness.LogDirs` — who makes and removes the **directory of a log**

A collection's log lies in a directory that `create_collection` makes and `drop_collection` removes. No other operation
touches it, under whatever answers and up to whatever call it gets, and neither does a creation or a drop of another
collection. So the directories tell which collections there are, also behind a process that died.
-/

namespace IshaVectorDb.Engine

open Format Interaction MemoryStorage

/-- The call neither makes nor removes the directory of the collection's log. -/
def Call.Spares (name : Str) : Call → Prop
  | .createDirAll path => DbPath.walDir name ∉ path.ancestry
  | .removeDirAll path => path ≠ .root ∧ path ∉ (DbPath.walDir name).ancestry
  | _ => True

/-! ## Calls -/

section Storage

variable {name : Str} {s : MemoryStorage} {path : DbPath}

/-- A directory is at the path in both storages, or in neither. -/
def SameDir (path : DbPath) (s t : MemoryStorage) : Prop := t.get path = some .dir ↔ s.get path = some .dir

/-- Where a file was, or nothing was, a file is put. -/
theorem SameDir.put_file {q : DbPath} (d : FileData) (h : s.get q ≠ some .dir) : SameDir path s (s.put q (.file d)) := by
  unfold SameDir
  by_cases hq : path = q
  · subst hq
    rw [get_put_self]
    exact ⟨fun hd => (by cases hd), fun hd => absurd hd h⟩
  · rw [get_put_ne s _ hq]

theorem SameDir.change {α : Type} {f : File} {operation : StorageOp} {reply : FileData → α} {edit : FileData → FileData} :
    SameDir path s (s.change f operation reply edit).2 := by
  unfold MemoryStorage.change
  split
  · exact Iff.rfl
  · split
    · rename_i d hd
      exact SameDir.put_file _ (by rw [hd]; exact fun h => (by cases h))
    · exact Iff.rfl

theorem SameDir.createDirs {l : List DbPath} (h : path ∉ l) : SameDir path s (s.createDirs l).2 := by
  induction l generalizing s with
  | nil => exact Iff.rfl
  | cons q l ih =>
    rw [List.mem_cons, not_or] at h
    unfold MemoryStorage.createDirs
    split
    · exact ih h.2
    · exact Iff.rfl
    · refine (ih h.2).trans ?_
      rw [get_put_ne s _ h.1]

theorem SameDir.eraseAll {l : List DbPath} (h : path ∉ l) : SameDir path s (s.eraseAll l) := by
  induction l generalizing s with
  | nil => exact Iff.rfl
  | cons q l ih =>
    rw [List.mem_cons, not_or] at h
    refine (ih h.2).trans ?_
    rw [get_erase_ne s h.1]

/-- A directory is not below one that it does not lie in. -/
theorem not_below {dir : DbPath} (h : (Call.removeDirAll dir).Spares name) : DbPath.walDir name ∉ s.below dir := by
  intro hin
  obtain ⟨-, hbelow⟩ := List.mem_filter.mp hin
  rcases (of_decide_eq_true hbelow).2 with hroot | hunder
  · exact h.1 hroot
  · exact h.2 hunder

/-- **A call that spares the directory**, carried out. -/
theorem Call.Spares.step {c : Call} (h : c.Spares name) (s : MemoryStorage) :
    SameDir (.walDir name) s (device.step c s).2 := by
  cases c with
  | openFile path mode =>
    show SameDir _ s (s.openFile path mode).2
    unfold MemoryStorage.openFile
    split
    · exact Iff.rfl
    · exact Iff.rfl
    · rename_i hnone
      split
      · split
        · exact SameDir.put_file _ (by rw [hnone]; exact fun hd => (by cases hd))
        · exact Iff.rfl
      · exact Iff.rfl
  | writeAt f bytes offset => exact SameDir.change
  | append f bytes => exact SameDir.change
  | truncate f len => exact SameDir.change
  | syncData f => exact SameDir.change
  | removeFile path =>
    show SameDir _ s (s.removeFile path).2
    unfold MemoryStorage.removeFile
    split
    · rename_i d hd
      have hne : DbPath.walDir name = path → s.get (.walDir name) ≠ some .dir := fun heq => by
        rw [heq, hd]
        exact fun hdir => (by cases hdir)
      by_cases heq : DbPath.walDir name = path
      · refine ⟨fun hget => ?_, fun hget => absurd hget (hne heq)⟩
        rw [heq, get_erase_self] at hget
        cases hget
      · show (s.erase path).get _ = _ ↔ _
        rw [get_erase_ne s heq]
    · exact Iff.rfl
    · exact Iff.rfl
  | createDirAll path => exact SameDir.createDirs h
  | removeDirAll path =>
    show SameDir _ s (s.removeDirAll path).2
    unfold MemoryStorage.removeDirAll
    split
    · exact SameDir.eraseAll (not_below h)
    · exact Iff.rfl
  | _ => exact Iff.rfl

/-- **A call that spares the directory**, and did not get to its end. -/
theorem Call.Spares.cut {c : Call} (h : c.Spares name) (n : Nat) (s : MemoryStorage) :
    SameDir (.walDir name) s (device.cut c n s) := by
  have hpart : SameDir (.walDir name) s (if n = 0 then s else (device.step c s).2) := by
    split
    · exact Iff.rfl
    · exact h.step s
  cases c with
  | writeAt f bytes offset => exact SameDir.change
  | append f bytes => exact SameDir.change
  | removeDirAll path =>
    show SameDir _ s (s.removeSome path n)
    unfold MemoryStorage.removeSome
    dsimp only
    split
    · refine SameDir.eraseAll (fun hin => ?_)
      obtain ⟨p, hp, heq⟩ := List.mem_map.mp (List.mem_filter.mp hin).1
      refine not_below h (s := s) ?_
      rw [← heq]
      exact (List.mem_zipIdx' (List.mem_filter.mp hp).1).2 ▸ List.getElem_mem _
    · exact Iff.rfl
  | _ => exact hpart

end Storage

/-! ## Operations -/

section Operations

variable {S : Type} {name : Str} (env : Env)

theorem Call.IsRead.spares {c : Call} (h : c.IsRead) : c.Spares name := by
  cases c with
  | createDirAll path => cases h
  | removeDirAll path => cases h
  | _ => trivial

/-- **The process leaves the directory of the collection's log alone**, whatever its calls answer. -/
def Spares {α : Type} (name : Str) (m : Action S α) : Prop := m.Calls (Call.Spares name)

theorem spares_read {α : Type} {m : Action S α} (h : m.Calls Call.IsRead) : Spares name m := h.mono (fun _ => Call.IsRead.spares)

theorem writeFile_spares (path : DbPath) (bytes : Bytes) : Spares name (writeFile path bytes : Action S Unit) :=
  .bind (.call trivial) fun _ => .bind (.call trivial) fun _ => .bind (.call trivial) fun _ => .call trivial

theorem writeSegmentFile_spares (collection : Str) (id : UInt64) (which : SegmentFile) (bytes : Bytes) :
    Spares name (writeSegmentFile collection id which bytes : Action S Unit) :=
  .bind (.lift _) fun _ => writeFile_spares _ _

theorem removeSegment_spares (collection : Str) (id : UInt64) : Spares name (removeSegment collection id : Action S Unit) := by
  refine .forList _ fun which _ => .bind (.lift _) fun path => .bind (.call trivial) fun found => ?_
  cases found with
  | none => exact .pure ()
  | some len => exact .call trivial

/-- The directory of the segments lies beside that of the log. -/
theorem segmentsDir_spares {collection : Str} {dir : DbPath} (h : Layout.segmentsDir collection = .ok dir) :
    (Call.createDirAll dir).Spares name := by
  unfold Layout.segmentsDir Layout.under at h
  obtain ⟨u, -, hdir⟩ := Parsing.except_bind_eq_ok.mp h
  obtain rfl := Except.ok.inj hdir
  unfold Call.Spares DbPath.ancestry
  simp

theorem writeSegment_spares (collection : Str) (id : UInt64) (w : SegmentWriter) :
    Spares name (writeSegment collection id w : Action S SegmentRef) :=
  .bind (writeSegmentFile_spares _ _ _ _) fun _ => .bind (writeSegmentFile_spares _ _ _ _) fun _ =>
    .bind (writeSegmentFile_spares _ _ _ _) fun _ => .bind (writeSegmentFile_spares _ _ _ _) fun _ => .pure _

theorem flushMemtable_spares (catalog : Catalog) (id : UInt64) (memtable : Memtable) :
    Spares name (flushMemtable catalog id memtable : Action S FlushResult) :=
  .lift_bind fun _ hdir => .bind (.call (segmentsDir_spares hdir)) fun _ => .bind (.lift _) fun _ => .bind (.lift _) fun _ =>
    .bind (writeSegment_spares _ _ _) fun _ => .pure _

theorem compactSegments_spares (catalog : Catalog) (id : UInt64) (sources : List SegmentData) :
    Spares name (compactSegments catalog id sources : Action S FlushResult) :=
  .lift_bind fun _ hdir => .bind (.call (segmentsDir_spares hdir)) fun _ => .bind (.lift _) fun _ => .bind (.lift _) fun _ =>
    .bind (writeSegment_spares _ _ _) fun _ => .pure _

theorem supersede_spares (collection : Str) (ids : List DocId) : Spares name (SegmentData.supersede collection ids) := by
  refine .bind .get fun seg => .bind (.modify _) fun _ => .ite (fun _ => ?_) fun _ => .bind .get fun _ => .pure _
  refine .bind (.bind (.modify _) fun _ => .bind .get fun _ => ?_) fun _ => .bind .get fun _ => .pure _
  exact .bind (writeSegmentFile_spares _ _ _ _) fun _ => .pure _

theorem adoptSegment_spares (segment : SegmentRef) (refs : List SegmentRef) : Spares name (adoptSegment segment refs) := by
  refine .bind .get fun s => .ite (fun _ => ?_) fun _ => .bind (removeSegment_spares _ _) fun _ => .pure _
  exact .bind (spares_read (segmentOpen_calls _ _)) fun _ => .bind (.modify _) fun _ => .pure _

theorem commit_spares (next : Manifest) (nowMs : UInt64) : Spares name (ManifestStore.commit next nowMs) :=
  .bind .get fun _ => .bind .get fun _ => .bind (.lift _) fun _ => .bind (writeFile_spares _ _) fun _ => .modify _

theorem commitCollection_spares (entry : CollectionEntry) : Spares name (commitCollection env entry) :=
  .bind .get fun _ => .zoom (commit_spares _ _)

theorem walOpen_spares (path : DbPath) (first : UInt64) (durability : Durability) :
    Spares name (WalWriter.open path first durability : Action S WalWriter) :=
  .bind (.call trivial) fun _ => .bind (.call trivial) fun _ => .pure _

theorem checkpoint_spares (segmentId : UInt64) : Spares name (checkpoint env segmentId) :=
  .bind .get fun _ => .bind (.lift _) fun _ => .bind (.call trivial) fun _ => .bind (.call trivial) fun _ =>
    .bind (.call trivial) fun _ => .bind (.modify _) fun _ => .bind (walOpen_spares _ _ _) fun _ => .modify _

theorem doFlush_spares : Spares name (doFlush env) :=
  .bind .get fun _ => .ite (fun _ => .pure ()) fun _ => .bind (flushMemtable_spares _ _ _) fun _ =>
    .bind (.zoom (.iterMut (supersede_spares _ _))) fun _ => .bind (adoptSegment_spares _ _) fun _ =>
      .bind .get fun _ => .bind (commitCollection_spares env _) fun _ => checkpoint_spares env _

theorem maybeFlush_spares : Spares name (maybeFlush env) :=
  .bind .get fun _ => .ite (fun _ => doFlush_spares env) fun _ => .pure ()

theorem sync_spares : Spares name WalWriter.sync := .bind .get fun _ => .bind (.call trivial) fun _ => .modify _

theorem write_spares (bytes : Bytes) : Spares name (WalWriter.write bytes) :=
  .bind .get fun _ => .bind (.call trivial) fun _ => .ite (fun _ => .throw _) fun _ => .modify _

theorem append_spares (op : WalOp) : Spares name (WalWriter.append op) :=
  .bind .get fun _ => .bind (.lift _) fun _ => .bind (write_spares _) fun _ => .bind (.modify _) fun _ =>
    .ite (fun _ => .bind sync_spares fun _ => .pure _) fun _ => .pure _

theorem appendGroup_spares (ops : List WalOp) : Spares name (WalWriter.appendGroup ops) :=
  .bind .get fun _ => .bind (.modify _) fun _ => .bind (.lift _) fun _ => .bind (write_spares _) fun _ => .bind (.modify _) fun _ =>
    .ite (fun _ => .bind sync_spares fun _ => .pure _) fun _ => .pure _

theorem checkWritable_spares (operation : String) : Spares name (checkWritable env operation : Action S Unit) :=
  .ite (fun _ => .throw _) fun _ => .pure ()

theorem applyPut_spares (doc : DocumentInput) : Spares name (applyPut env doc) :=
  .bind (.lift _) fun _ => .bind (.zoom (append_spares _)) fun _ => .bind .get fun _ => .bind (.lift _) fun _ => .modify _

theorem openRewritten_spares (catalog : Catalog) (segment : SegmentRef) :
    Spares name (openRewritten catalog segment : Action S _) :=
  .ite (fun _ => .bind (spares_read (segmentOpen_calls _ _)) fun _ => .pure _)
    fun _ => .bind (removeSegment_spares _ _) fun _ => .pure _

theorem compact_spares (options : CompactOptions) : Spares name (compact env options) := by
  refine .bind (checkWritable_spares env _) fun _ => .bind .get fun _ => .ite (fun _ => .pure _) fun _ => ?_
  refine .bind (compactSegments_spares _ _ _) fun _ => .bind (.modify _) fun _ => .bind (openRewritten_spares _ _) fun _ => ?_
  exact .bind (.modify _) fun _ => .bind .get fun _ => .bind (commitCollection_spares env _) fun _ =>
    .bind (.forList _ fun _ _ => removeSegment_spares _ _) fun _ => .pure _

/-- **An edit spares every log's directory.** -/
theorem Edit.spares (e : Edit) : Spares name (e.act env) := by
  cases e with
  | insert doc =>
    refine .bind (.bind (checkWritable_spares env _) fun _ => .bind .get fun _ => .bind (.lift _) fun _ => ?_) fun _ => .pure _
    exact .ite (fun _ => .throw _) fun _ => .bind (applyPut_spares env doc) fun _ => maybeFlush_spares env
  | upsert doc =>
    refine .bind (.bind (checkWritable_spares env _) fun _ => .bind .get fun _ => .bind (.lift _) fun _ => ?_) fun _ => .pure _
    exact .bind (applyPut_spares env doc) fun _ => .bind (maybeFlush_spares env) fun _ => .pure _
  | delete id =>
    refine .bind (.bind (checkWritable_spares env _) fun _ => .bind .get fun _ => .bind (.zoom (append_spares _)) fun _ => ?_)
      fun _ => .pure _
    exact .bind (.modify _) fun _ => .bind (maybeFlush_spares env) fun _ => .pure _
  | writeBatch batch =>
    refine .bind (.bind (checkWritable_spares env _) fun _ => .bind (.lift _) fun _ => ?_) fun _ => .pure _
    refine .ite (fun _ => .pure _) fun _ => .bind .get fun _ => .bind (.lift _) fun _ => .bind (.lift _) fun _ => ?_
    refine .bind (.zoom (appendGroup_spares _)) fun _ => .bind (.modify _) fun _ => .bind (.lift _) fun _ => ?_
    exact .bind (.modify _) fun _ => .bind (maybeFlush_spares env) fun _ => .pure _
  | flush => exact .bind (.ite (fun _ => .pure ()) fun _ => doFlush_spares env) fun _ => .pure _
  | compact options => exact .bind (compact_spares env options) fun _ => .pure _

theorem onCollection_spares {α : Type} (collection : Str) {m : Action Session α} (h : Spares name m) :
    Spares name (Database.onCollection collection m) := by
  refine .bind .get fun db => ?_
  cases db.collections.lookup collection with
  | none => exact .throw _
  | some coll => exact .zoom h

theorem flush_spares : Spares name (flush env) := .ite (fun _ => .pure ()) fun _ => doFlush_spares env

theorem close_spares : Spares name (Database.close env) := by
  refine .ite (fun _ => .pure ()) fun _ => .ite (fun _ => .pure ()) fun _ => .bind .get fun _ => ?_
  exact .forList _ fun _ _ => onCollection_spares _ (flush_spares env)

/-! ## Opening -/

theorem cleanUp_spares (collection : Str) (entry : CollectionEntry) : Spares name (cleanUp env collection entry : Action S Unit) :=
  (cleanUp_calls env collection entry).mono fun c hc => by
    rcases hc with hread | ⟨-, id, which, rfl⟩
    · exact hread.spares
    · trivial

theorem repairTail_spares (path : DbPath) (report : ReplayReport) :
    Spares name (repairTail env path report : Action S Unit) := by
  refine .ite (fun _ => .bind (.call trivial) fun found => ?_) fun _ => .pure ()
  cases found with
  | none => exact .pure ()
  | some len =>
    exact .ite (fun _ => .pure ()) fun _ => .bind (.call trivial) fun _ => .bind (.call trivial) fun _ => .call trivial

theorem collOpen_spares (catalog : Catalog) (entry : CollectionEntry) :
    Spares name (CollInner.open env catalog entry : Action S CollInner) := by
  refine .bind (cleanUp_spares env _ _) fun _ => .bind (.mapList _ fun _ _ => spares_read (segmentOpen_calls _ _)) fun _ => ?_
  refine .bind (.lift _) fun _ => .bind (spares_read (replayInto_calls _ _ _ _)) fun _ => ?_
  exact .bind (repairTail_spares env _ _) fun _ => .bind (walOpen_spares _ _ _) fun _ => .pure _

theorem openCollections_spares (entries : List CollectionEntry) : Spares name (openCollections env entries : Action S _) := by
  induction entries with
  | nil => exact .pure _
  | cons entry entries ih =>
    exact .bind (spares_read (readCatalog_calls _)) fun _ => .bind (collOpen_spares env _ _) fun _ => .bind ih fun _ => .pure _

theorem scan_calls : (ManifestStore.scan : Action S _).Calls Call.IsRead :=
  .bind (readSlot_calls .a) fun _ => .bind (readSlot_calls .b) fun _ => .pure _

theorem create_spares (dbUuid : Uuid) (nowMs : UInt64) : Spares name (ManifestStore.create dbUuid nowMs : Action S _) := by
  intro x
  have hwrite : Spares name (ManifestStore.write (Manifest.new dbUuid nowMs)) :=
    .bind .get fun _ => .bind (.lift _) fun _ => .bind (writeFile_spares _ _) fun _ => .modify _
  exact (hwrite _).bind fun _ => trivial

/-- **Opening a database spares every log's directory.** -/
theorem open_spares (counter : UInt64) : Spares name (Database.open env counter : Action S Database) := by
  refine .bind (.lift _) fun _ => .bind (.bind (spares_read load_calls) fun loaded => ?_) fun store =>
    .bind (openCollections_spares env _) fun _ => .pure _
  cases loaded with
  | some store => exact .pure store
  | none =>
    refine .ite (fun _ => .throw _) fun _ => .bind ?_ fun present => .ite (fun _ => ?_) fun _ => ?_
    · refine .bind (.call trivial) fun found => ?_
      cases found with
      | none => exact .pure _
      | some len => exact .call trivial
    · refine .bind (.call ?_) fun _ => create_spares _ _
      unfold Call.Spares DbPath.ancestry
      simp
    · exact .bind (spares_read scan_calls) fun _ => .throw _

/-! ## Collections of other names -/

theorem layout_ok {collection : Str} {path dir : DbPath} (h : Layout.under collection path = .ok dir) : dir = path := by
  obtain ⟨u, -, hdir⟩ := Parsing.except_bind_eq_ok.mp h
  exact (Except.ok.inj hdir).symm

/-- **A creation spares the directories of other names.** -/
theorem createCollection_spares {spec : Database.CollectionSpec} (hne : name ≠ spec.name) :
    Spares name (Database.createCollection env spec) := by
  refine .bind (checkWritable_spares env _) fun _ => .bind (.lift _) fun _ => .bind .get fun db => .ite (fun _ => .throw _) fun _ => ?_
  refine .bind (.bind (.lift _) fun _ => .lift_bind fun dir hdir => ?_) fun _ => .lift_bind fun dir hdir => ?_
  · refine .bind (.call ?_) fun _ => .bind (.lift _) fun _ => writeFile_spares _ _
    rw [layout_ok hdir]
    unfold Call.Spares DbPath.ancestry
    simp
  · refine .bind (.call ?_) fun _ => .bind (.zoom (commit_spares _ _)) fun _ => .bind (collOpen_spares env _ _) fun _ => .modify _
    rw [layout_ok hdir]
    unfold Call.Spares DbPath.ancestry
    simpa using hne

/-- **A drop spares the directories of other names.** -/
theorem dropCollection_spares {dropped : Str} (hne : name ≠ dropped) : Spares name (Database.dropCollection env dropped) := by
  refine .bind (checkWritable_spares env _) fun _ => .bind .get fun db => .ite (fun _ => .throw _) fun _ => ?_
  refine .bind (.zoom (commit_spares _ _)) fun _ => .bind (.modify _) fun _ => .lift_bind fun dir hdir => ?_
  refine .bind (.call trivial) fun found => ?_
  cases found with
  | none => exact .pure ()
  | some len =>
    refine .call ?_
    rw [layout_ok hdir]
    unfold Call.Spares DbPath.ancestry
    refine ⟨fun h => (by cases h), ?_⟩
    simpa using Ne.symm hne

end Operations

end IshaVectorDb.Engine
