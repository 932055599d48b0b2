import IshaVectorDb.Correctness.Histories
import IshaVectorDb.Correctness.LogDirs
import IshaVectorDb.Engine.Search
import IshaVectorDb.Interaction.Failing

/-!
# `Correctness.IndexCalls` — a search **endangers no document**

A search through the graph writes: it stores a snapshot of the graph that it has built. It does so in the collection's own
directory of the index and nowhere else, whichever of its calls fail and wherever the process dies (`search_stays`). No
manifest, catalog, log or segment is touched, and so the database stands for the documents that it stood for
(`Site.Stands.beside`).
-/

namespace IshaVectorDb.Engine

open Format Interaction MemoryStorage Index

/-- A file of the collection's index. -/
def IndexFile (name : Str) (p : DbPath) : Prop := ∃ kind id, p = .indexFile name kind id

/-- **The storages differ in nothing but the collection's index**: its files, and directories that now are there. -/
structure Beside (name : Str) (s t : MemoryStorage) : Prop where
  shape : Shape t
  off : ∀ sel, Off (IndexFile name) (s.image sel) (t.image sel)
  logs : ∀ other, SameDir (.walDir other) s t
  kept : ∀ p, s.get p = some .dir → t.get p = some .dir

section Beside

variable {name : Str} {s t : MemoryStorage} {p : DbPath}

theorem Beside.refl (name : Str) (hs : Shape s) : Beside name s s :=
  ⟨hs, fun _ => Off.refl _ _, fun _ => Iff.rfl, fun _ h => h⟩

/-- A file of the index is put where its directory is. -/
theorem Beside.put (h : Beside name s t) (hp : IndexFile name p) (hparent : t.get p.parent = some .dir) (d : FileData) :
    Beside name s (t.put p (.file d)) := by
  have hfile : p.isDir = false := by
    obtain ⟨kind, id, rfl⟩ := hp
    rfl
  have hkept : ∀ q, t.get q = some .dir → (t.put p (.file d)).get q = some .dir := fun q hq => by
    rw [get_put_ne t _ (fun heq => h.shape.not_dir hfile (by rw [← heq]; exact hq))]
    exact hq
  refine ⟨h.shape.put_file hfile hparent d, fun sel => (h.off sel).trans ?_,
    fun other => (SameDir.put_file d (h.shape.not_dir hfile)).trans (h.logs other), fun q hq => hkept q (h.kept q hq)⟩
  rw [image_put_file]
  exact Off.update _ hp _

/-- A change of a file that is there. -/
theorem Beside.change {α : Type} {f : File} {operation : StorageOp} {reply : FileData → α} {edit : FileData → FileData}
    (h : Beside name s t) (hf : IndexFile name f.path) : Beside name s (t.change f operation reply edit).2 := by
  unfold MemoryStorage.change
  split
  · exact h
  · split
    · rename_i d hd
      exact h.put hf (h.shape.nested _ _ hd) _
    · exact h

/-- The file is opened, or made where its directory is. -/
theorem Beside.openFile (h : Beside name s t) (hp : IndexFile name p) (mode : OpenMode) : Beside name s (t.openFile p mode).2 := by
  unfold MemoryStorage.openFile
  split
  · exact h
  · exact h
  · split
    · split
      · rename_i hparent
        exact h.put hp hparent _
      · exact h
    · exact h

/-- The directories on the way to the index's are made. -/
theorem Beside.createDirs (h : Beside name s t) : Beside name s (t.createDirAll (.indexDir name)).2 := by
  obtain ⟨u, hu, hm⟩ := createDirs_made (l := (DbPath.indexDir name).ancestry) h.shape h.shape.root
    ⟨rfl, rfl, rfl, rfl, rfl, rfl, trivial⟩
  have hrun : t.createDirAll (.indexDir name) = (.ok (), u) := hu
  rw [hrun]
  have hlogs : ∀ other, SameDir (.walDir other) t u := fun other => by
    unfold SameDir
    rw [hm.other _ (by simp [DbPath.ancestry])]
  refine ⟨hm.shape, fun sel => (h.off sel).trans ?_, fun other => (hlogs other).trans (h.logs other),
    fun q hq => hm.kept q _ (h.kept q hq)⟩
  show Off _ (t.image sel) (u.image sel)
  rw [hm.image]
  exact Off.refl _ _

/-! ## The calls of a search -/

/-- A call that is carried out or is not. -/
theorem within_of_step {I : MemoryStorage → Prop} {c : Call} {s : MemoryStorage} (hs : I s) (hstep : I (device.step c s).2)
    (hcut : ∀ n, device.cut c n s = if n = 0 then s else (device.step c s).2) (hfail : ∀ n, device.fail c n s = s) :
    device.Within I c s := by
  refine ⟨hstep, fun n => ⟨?_, ?_⟩⟩
  · rw [hcut]
    split
    · exact hs
    · exact hstep
  · rw [hfail]
    exact hs

variable {S : Type}

/-- A call that only reads. -/
theorem reads_stay {I : MemoryStorage → Prop} {c : Call} (hc : c.IsRead) :
    Stays device I (call c : Action S c.Reply) (fun _ => True) := by
  refine Stays.call (fun u hu => within_of_step hu (by rw [step_read hc]; exact hu) (fun _ => ?_) (fun _ => ?_))
    (fun _ _ _ _ => trivial)
  · cases c with
    | writeAt _ _ _ => cases hc
    | append _ _ => cases hc
    | removeDirAll _ => cases hc
    | _ => rfl
  · cases c with
    | writeAt _ _ _ => cases hc
    | append _ _ => cases hc
    | removeDirAll _ => cases hc
    | _ => exact ite_self u

/-- **Writing a file of the index.** -/
theorem writeFile_stays (hp : IndexFile name p) (bytes : Bytes) :
    Stays device (Beside name s) (writeFile p bytes : Action S Unit) (fun _ => True) := by
  -- the handle is the one of the file that was opened
  refine Stays.bind (G := fun f : File => f.path = p) (Stays.call (fun u hu => ?_) (fun u hu f hf => ?_)) ?_
  · exact within_of_step hu (hu.openFile hp .create) (fun _ => rfl) (fun n => ite_self u)
  · change (u.openFile p .create).1 = .ok f at hf
    unfold MemoryStorage.openFile at hf
    dsimp only at hf
    split at hf
    · cases hf
    · obtain rfl := Except.ok.inj hf
      rfl
    · split at hf
      · obtain rfl := Except.ok.inj hf
        rfl
      · cases hf
  rintro f rfl
  refine Stays.bind (Stays.call (fun u hu => ?_) (fun _ _ _ _ => trivial)) (fun _ _ => ?_)
  · exact within_of_step hu (hu.change hp) (fun _ => rfl) (fun n => ite_self u)
  refine Stays.bind (Stays.call (fun u hu => ⟨hu.change hp, fun n => ⟨hu.change hp, hu.change hp⟩⟩) (fun _ _ _ _ => trivial))
    (fun _ _ => ?_)
  exact Stays.call (fun u hu => within_of_step hu (hu.change hp) (fun _ => rfl) (fun n => ite_self u)) (fun _ _ _ _ => trivial)

/-- **A snapshot is stored** in the index's directory. -/
theorem store_stays (kind : IndexKind) (bytes : Bytes) :
    Stays device (Beside name s) (StoredSnapshots.store name kind bytes : Action S Unit) (fun _ => True) := by
  refine Stays.bind (Stays.lift (fun a ha => ha)) (fun dir hdir => ?_)
  obtain rfl : dir = .indexDir name := layout_ok hdir
  refine Stays.bind (Stays.call (fun u hu => within_of_step hu hu.createDirs (fun _ => rfl) (fun n => ite_self u))
    (fun _ _ _ _ => trivial)) (fun _ _ => Stays.bind (Stays.lift (fun a ha => ha)) (fun path hpath => ?_))
  obtain rfl : path = .indexFile name kind 0 := layout_ok hpath
  exact writeFile_stays ⟨kind, 0, rfl⟩ _

/-- A snapshot is looked for, and nothing is written. -/
theorem load_stays {I : MemoryStorage → Prop} (kind : IndexKind) :
    Stays device I (StoredSnapshots.load name kind : Action S (Option Bytes)) (fun _ => True) := by
  have hattempt : ∀ c : Call, c.IsRead → Stays device I (Proc.attempt (call c) : Action S _) (fun _ => True) := fun c hc =>
    Stays.attempt (reads_stay hc) (fun _ => trivial)
  have hread : ∀ path, Stays device I (StoredSnapshots.read path : Action S (Option Bytes)) (fun _ => True) := fun path => by
    refine Stays.bind (hattempt (.openFile path .read) trivial) (fun opened _ => ?_)
    cases opened with
    | error e => exact Stays.pure trivial
    | ok file =>
      refine Stays.bind (hattempt (.len file) trivial) (fun found _ => ?_)
      cases found with
      | error e => exact Stays.pure trivial
      | ok len =>
        refine Stays.ite (Stays.pure trivial) (Stays.bind (hattempt (.readAt file len 0) trivial) (fun bytes _ => ?_))
        cases bytes <;> exact Stays.pure trivial
  unfold StoredSnapshots.load
  cases Layout.indexFile name kind 0 with
  | error e => exact Stays.pure trivial
  | ok path =>
    refine Stays.bind (hread path) (fun found _ => ?_)
    cases found with
    | none => exact Stays.pure trivial
    | some bytes =>
      dsimp only
      split <;> exact Stays.pure trivial

/-- A prepare keeps to the index. -/
theorem prepare_stays (linking : Linking) (params : HnswParams) (source : VectorSource) (metric : Metric) (kind : IndexKind) :
    Stays device (Beside name s) (HnswIndex.prepare linking params source metric (StoredSnapshots.new name kind)) (fun _ => True) := by
  have hstore : ∀ bytes, Stays device (Beside name s) (Proc.attempt ((StoredSnapshots.new name kind).store bytes) : Action Graph _)
      (fun _ => True) := fun bytes => Stays.attempt (store_stays kind bytes) (fun _ => trivial)
  refine Stays.get_bind (fun g => Stays.ite (Stays.pure trivial) (Stays.bind (load_stays kind) (fun stored _ => ?_)))
  split
  · exact Stays.modify
  · refine Stays.ite (Stays.bind Stays.modify (fun _ _ => Stays.bind (hstore _) (fun _ _ => Stays.pure trivial))) ?_
    exact Stays.bind (hstore _) (fun _ _ => Stays.modify)

/-- **A search keeps to the collection's index**, whichever of its calls fail and wherever it is cut off. -/
theorem search_stays (linking : Linking) (params : HnswParams) (scan : Scan Graph) (request : SearchRequest) (budget : Budget)
    (g : Graph) (sess : Session) :
    (search (HnswIndex linking params scan) request budget ⟨g, sess⟩).Stays device (Beside sess.name s)
      (fun _ => True) := by
  have hbody : Stays device (Beside sess.name s) (do
      let ctx ← Proc.lift (planSearch sess request budget)
      Proc.zoom Searching.graph (fun g x => { x with graph := g })
        ((HnswIndex linking params scan).prepare ctx.source ctx.metric (StoredSnapshots.new sess.name .hnsw))
      let x ← Proc.get
      let found ← Proc.lift (scan x.graph ctx)
      Proc.lift (hitsOf ctx.source request.inc found)) (fun _ => True) :=
    Stays.bind (Stays.lift (fun _ _ => trivial)) (fun ctx _ => Stays.bind (Stays.zoom (prepare_stays linking _ _ _ .hnsw))
      (fun _ _ => Stays.get_bind (fun x => Stays.bind (Stays.lift (fun _ _ => trivial)) (fun found _ => Stays.lift (fun _ _ => trivial)))))
  exact (hbody ⟨g, sess⟩).mono (fun _ _ => trivial)

end Beside

/-! ## The database behind it -/

section Stands

variable {sel : Sel} {invNorm : InvNorm} {name : Str} {s t : MemoryStorage} {G D : Str → Option Ghost}

/-- What a database needs is not in an index. -/
theorem DiskInv.beside {view : Sel} {store : ManifestStore} (h : DiskInv (s.image view) store D) (hb : Beside name s t) :
    DiskInv (t.image view) store D :=
  h.off (hb.off view) (fun _ _ _ p hneeds ⟨kind, id, hp⟩ => by
    subst hp
    rcases hneeds with hcat | hlog | ⟨_, _, -, -, hseg⟩
    · cases hcat
    · cases hlog
    · cases hseg) (fun slot ⟨kind, id, hp⟩ => by cases hp)

theorem Beside.image_of_ne (hb : Beside name s t) (view : Sel) {p : DbPath} (hp : ¬ IndexFile name p) :
    t.image view p = s.image view p := hb.off view p hp

theorem not_index_log (other : Str) : ¬ IndexFile name (.walFile other 1) := fun ⟨_, _, hp⟩ => by cases hp

/-- **A search leaves an open database open**, over the same documents. -/
theorem DbState.beside {env : Env} {db : Database} (h : DbState env sel db s G D) (hb : Beside name s t) :
    DbState env sel db t G D := by
  refine ⟨hb.shape, h.live.beside hb, h.seen.beside hb, fun other coll hlook => ?_, h.all⟩
  obtain ⟨g, ops, docs, hname, hst⟩ := h.opened other coll hlook
  exact ⟨g, ops, docs, hname, hb.shape,
    ⟨hst.live.disk.beside hb, hst.live.here, hst.live.mem.congr (hb.image_of_ne .live (not_index_log _))⟩,
    ⟨hst.seen.disk.beside hb, hst.seen.there, hst.seen.lag, hst.seen.names⟩⟩

/-- **Beside an index, a site stands** for what it stood for. -/
theorem Site.Stands.beside {p : Site} (h : p.Stands sel invNorm G) (hb : Beside name p.storage t) :
    (Site.mk p.config p.db t).Stands sel invNorm G :=
  ⟨fun now => (h.state now).beside hb, h.steady.congr (fun view => hb.image_of_ne view (fun ⟨_, _, hp⟩ => by cases hp)),
    h.writable, h.synced, fun other hnone => (hb.image_of_ne .live (not_index_log other)).trans (h.noLogs other hnone)⟩

end Stands

end IshaVectorDb.Engine
