import IshaVectorDb.Correctness.Sessions
import IshaVectorDb.Correctness.SlotRuns
import IshaVectorDb.Engine.Api
import IshaVectorDb.Index.Build

/-!
# `Correctness.ReadOnly` — what a **read-only database** does to the storage

Every call on a read-only database that has to do with documents either only reads or is refused before it reaches the
storage. Two paths do not ask whether the database is read-only: opening a collection opens its log with
`OpenMode::Create`, and a graph that a search had to build is stored as a snapshot. Where every log is there and no
search has to build, the storage stays byte for byte as it was (`DatabaseRun.unchanged`).
-/

namespace IshaVectorDb.Engine

open Format Interaction Index

/-! ## What the runs are -/

section Conditions

/-- Every collection that an open adopts has its log's file. -/
def LogsPresent (s : MemoryStorage) : Prop := ∀ slot m,
  (Manifest.scanSlots (slotBytes (s.image .live) .a) (slotBytes (s.image .live) .b)).chosen = some (slot, m) →
    ∀ entry ∈ m.collections, ∀ bytes catalog, s.image .live (.catalog entry.name) = some bytes →
      Catalog.decode bytes = .ok catalog → (s.image .live (.walFile catalog.name 1)).isSome

/-- The payload of the snapshot that is stored for a collection, if it is intact. -/
def storedPayload (s : MemoryStorage) (name : Str) (kind : IndexKind) : Option Bytes :=
  match Layout.indexFile name kind 0 with
  | .error _ => none
  | .ok path => match s.image .live path with
    | none => none
    | some bytes =>
        if bytes.length = 0 ∨ StoredSnapshots.maxLen < bytes.length then none
        else (openBlock bytes .index).toOption

/-- The graph index has nothing to build: the graph in memory is valid for the rows, or the stored snapshot is one for
    them. -/
def HnswIndex.Prepared (params : HnswParams) (g : Graph) (s : MemoryStorage) (name : Str) (ctx : SearchCtx) : Prop :=
  g.isValidFor ctx.source.len ctx.source.dimension.toNat ctx.metric = true ∨
    (HnswIndex.restore params ctx.metric ctx.source.dimension.toNat ctx.source.len ctx.source.decodeRows
      (storedPayload s name .hnsw)).isSome

end Conditions

/-- The index a database is opened with. -/
inductive IndexChoice
  | exact (scan : Scan Unit)
  | hnsw (linking : Linking) (params : HnswParams) (scan : Scan Graph)

namespace IndexChoice

/-- What the index remembers. -/
abbrev Memory : IndexChoice → Type
  | exact _ => Unit
  | hnsw _ _ _ => Graph

def index : (choice : IndexChoice) → VectorIndex choice.Memory
  | exact scan => ExactScan scan
  | hnsw linking params scan => HnswIndex linking params scan

/-- The index has nothing to build for a query. -/
def Prepared : (choice : IndexChoice) → choice.Memory → MemoryStorage → Str → SearchCtx → Prop
  | exact _, _, _, _, _ => True
  | hnsw _ params _, g, s, name, ctx => HnswIndex.Prepared params.orDefault g s name ctx

end IndexChoice

/-- A call has the index build nothing. -/
def ApiCall.BuildsNothing (choice : IndexChoice) (x : Opened choice.Memory) (s : MemoryStorage) : ApiCall → Prop
  | .search name request budget => ∀ session ctx, x.db.session name = some session →
      planSearch session request budget = .ok ctx → choice.Prepared x.graph s session.name ctx
  | _ => True

/-- **A run of a database**: it is opened on the storage, and calls are made on it. -/
inductive DatabaseRun (env : Env) (choice : IndexChoice) (mayOpen : MemoryStorage → Prop)
    (mayCall : Opened choice.Memory → MemoryStorage → ApiCall → Prop) (s₀ : MemoryStorage) :
    Opened choice.Memory → MemoryStorage → Prop
  | opened {db : Database} {counter : UInt64} {s : MemoryStorage} (graph : choice.Memory) (hmay : mayOpen s₀)
      (h : (Database.open env counter ()).run device s₀ = ((.ok db, ()), s)) :
      DatabaseRun env choice mayOpen mayCall s₀ ⟨db, graph, false⟩ s
  | call {x x' : Opened choice.Memory} {s s' : MemoryStorage} {r : Except DbError Answer}
      (hrun : DatabaseRun env choice mayOpen mayCall s₀ x s) (c : ApiCall) (hmay : mayCall x s c)
      (h : (c.act env choice.index x).run device s = ((r, x'), s')) :
      DatabaseRun env choice mayOpen mayCall s₀ x' s'

/-! ## Opening -/

section Opening

variable {S : Type} {x : S} {s : MemoryStorage} {env : Env}

theorem still_read {α : Type} {m : Action S α} (h : m.Calls Call.IsRead) : Proc.Still device m x s :=
  Proc.Still.of_calls h (fun _ hc => step_read hc s)

theorem file_of_isSome {path : DbPath} (h : (s.image .live path).isSome) : ∃ d, s.get path = some (.file d) := by
  obtain ⟨bytes, hbytes⟩ := Option.isSome_iff_exists.mp h
  obtain ⟨d, hd, -⟩ := MemoryStorage.file_of_image hbytes
  exact ⟨d, hd⟩

/-- Opening a log that is there changes nothing. -/
theorem walOpen_still {path : DbPath} (hlog : (s.image .live path).isSome) (first : UInt64) (durability : Durability) :
    Proc.Still device (WalWriter.open path first durability) x s := by
  obtain ⟨d, hd⟩ := file_of_isSome hlog
  have hopen : device.step (.openFile path .create) s = (.ok ⟨path, true⟩, s) := MemoryStorage.openFile_file .create hd
  apply Proc.Still.bind
  · show ((call (.openFile path .create) x).run device s).2 = s
    rw [run_call hopen]
  · intro file x₁ _
    apply Proc.Still.bind
    · exact still_read (Proc.Calls.call trivial)
    · intro bytes x₂ _
      exact Proc.Still.pure _

/-- **Opening a collection read-only** changes nothing, when its log is there. -/
theorem collOpen_still (hro : env.config.readOnly = true) {catalog : Catalog} {entry : CollectionEntry}
    (hlog : (s.image .live (.walFile catalog.name 1)).isSome) :
    Proc.Still device (CollInner.open env catalog entry) x s := by
  apply Proc.Still.bind
  · apply still_read
    apply (cleanUp_calls env catalog.name entry).mono
    rintro c (hc | ⟨hw, -⟩)
    · exact hc
    · rw [hro] at hw
      cases hw
  intro _ x₁ _
  apply Proc.Still.bind (still_read (Proc.Calls.mapList _ (fun seg _ => segmentOpen_calls catalog seg)))
  intro segments x₂ _
  apply Proc.Still.bind (Proc.Still.lift _)
  intro walPath x₃ hpath
  have hwal : walPath = .walFile catalog.name 1 := by
    have hok : Layout.walFile catalog.name 1 = .ok walPath := congrArg (fun p => p.1.1) hpath
    unfold Layout.walFile Layout.under at hok
    cases hname : checkCollectionName catalog.name with
    | error e => rw [hname] at hok; cases hok
    | ok u => rw [hname] at hok; exact (Except.ok.inj hok).symm
  subst hwal
  apply Proc.Still.bind (still_read (replayInto_calls _ _ _ _))
  rintro ⟨report, memtable⟩ x₄ _
  apply Proc.Still.bind
  · -- a torn tail is left alone
    unfold repairTail
    rw [hro, Bool.not_true, Bool.and_false]
    exact Proc.Still.pure ()
  intro _ x₅ _
  apply Proc.Still.bind (walOpen_still hlog _ _)
  intro wal x₆ _
  exact Proc.Still.pure _

/-- A catalog that was read is the one in the collection's directory. -/
theorem readCatalog_ok {name : Str} {catalog : Catalog} {x' : S} {s' : MemoryStorage}
    (h : (readCatalog name x).run device s = ((.ok catalog, x'), s')) :
    ∃ bytes, s.image .live (.catalog name) = some bytes ∧ Catalog.decode bytes = .ok catalog := by
  obtain ⟨path, x₁, s₁, hpath, hrest⟩ := Proc.run_bind_ok h
  obtain ⟨rfl, rfl⟩ : path = .catalog name ∧ s₁ = s := by
    have hok : Layout.catalog name = .ok path := congrArg (fun p => p.1.1) hpath
    unfold Layout.catalog Layout.under at hok
    cases hname : checkCollectionName name with
    | error e => rw [hname] at hok; cases hok
    | ok u =>
      rw [hname] at hok
      exact ⟨(Except.ok.inj hok).symm, (congrArg Prod.snd hpath).symm⟩
  obtain ⟨found, x₂, s₂, hread, hlast⟩ := Proc.run_bind_ok hrest
  cases found with
  | none => cases hlast
  | some bytes =>
    have hdecode : formatAt (.catalog name) (Catalog.decode bytes) = .ok catalog := congrArg (fun p => p.1.1) hlast
    refine ⟨bytes, ?_, ?_⟩
    · cases hg : s₁.get (.catalog name) with
      | none =>
        rw [readFile_run_none hg] at hread
        cases hread
      | some e =>
        cases e with
        | file d =>
          rw [readFile_run hg] at hread
          have hbytes : some d.live = some bytes := Except.ok.inj (congrArg (fun p => p.1.1) hread)
          rw [MemoryStorage.image_file hg]
          exact hbytes
        | dir =>
          -- a directory has a length, but it does not open
          exfalso
          unfold readFile at hread
          obtain ⟨found, x₃, s₃, hmeta, hread⟩ := Proc.run_bind_ok hread
          have hmeta' : ((Except.ok (s₁.metadata (.catalog name)), x₁), s₁) = ((Except.ok found, x₃), s₃) := hmeta
          unfold MemoryStorage.metadata at hmeta'
          rw [hg] at hmeta'
          cases hmeta'
          obtain ⟨file, x₄, s₄, hopen, -⟩ := Proc.run_bind_ok hread
          have hopen' : (((s₁.openFile (.catalog name) .read).1, x₁), (s₁.openFile (.catalog name) .read).2) =
              ((Except.ok file, x₄), s₄) := hopen
          unfold MemoryStorage.openFile at hopen'
          rw [hg] at hopen'
          cases hopen'
    · cases hd : Catalog.decode bytes with
      | ok c =>
        rw [hd] at hdecode
        exact congrArg _ (Except.ok.inj hdecode)
      | error e =>
        rw [hd] at hdecode
        cases hdecode

/-- Opening collections read-only changes nothing, when each one's log is there. -/
theorem openCollections_still (hro : env.config.readOnly = true) (entries : List CollectionEntry)
    (hlogs : ∀ entry ∈ entries, ∀ bytes catalog, s.image .live (.catalog entry.name) = some bytes →
      Catalog.decode bytes = .ok catalog → (s.image .live (.walFile catalog.name 1)).isSome) :
    Proc.Still device (openCollections env entries) x s := by
  induction entries generalizing x with
  | nil => exact Proc.Still.pure _
  | cons entry rest ih =>
    apply Proc.Still.bind (still_read (readCatalog_calls entry.name))
    intro catalog x₁ hcatalog
    obtain ⟨bytes, hbytes, hdecode⟩ := readCatalog_ok hcatalog
    apply Proc.Still.bind (collOpen_still hro (hlogs entry List.mem_cons_self bytes catalog hbytes hdecode))
    intro coll x₂ _
    apply Proc.Still.bind (ih (fun e he => hlogs e (List.mem_cons_of_mem _ he)))
    intro others x₃ _
    exact Proc.Still.pure _

/-- **Opening a database read-only** changes nothing, when every log is there. -/
theorem open_still (hro : env.config.readOnly = true) (hlogs : LogsPresent s) (counter : UInt64) :
    Proc.Still device (Database.open env counter) x s := by
  apply Proc.Still.bind (Proc.Still.lift _)
  intro _ x₁ hvalid
  have hcreate : env.config.createIfMissing = false := by
    have hok : env.config.validate = .ok () := congrArg (fun p => p.1.1) hvalid
    unfold Config.validate at hok
    split at hok
    · cases hok
    · split at hok
      · cases hok
      · rename_i hboth
        by_contra hc
        exact hboth ⟨hro, by simpa using hc⟩
  have hload : Proc.Still device (loadOrCreate env counter) x₁ s := by
    apply Proc.Still.bind (still_read load_calls)
    intro loaded x₂ _
    cases loaded with
    | some store => exact Proc.Still.pure _
    | none =>
      show Proc.Still device (createStore env counter) x₂ s
      unfold createStore
      rw [if_pos hcreate]
      exact Proc.Still.throw _
  apply Proc.Still.bind hload
  intro store x₂ hstore
  -- what was adopted is what the scan of the slots chose
  have hchosen : (Manifest.scanSlots (slotBytes (s.image .live) .a) (slotBytes (s.image .live) .b)).chosen =
      some (store.slot, store.current) := by
    obtain ⟨loaded, x₃, s₃, hrun, hstore⟩ := Proc.run_bind_ok hstore
    rw [load_run x₁] at hrun
    obtain ⟨hpair, rfl⟩ := Prod.mk.inj hrun
    have hres := (Prod.mk.inj hpair).1
    cases loaded with
    | none =>
      unfold createStore at hstore
      rw [if_pos hcreate] at hstore
      cases hstore
    | some found =>
      cases hstore
      split at hres
      · cases hres
      · cases hc : (Manifest.scanSlots (slotBytes (s.image .live) .a) (slotBytes (s.image .live) .b)).chosen with
        | none => rw [hc] at hres; cases hres
        | some p =>
          rw [hc] at hres
          obtain rfl := Option.some.inj (Except.ok.inj hres)
          rfl
  apply Proc.Still.bind (openCollections_still hro _ (hlogs store.slot store.current hchosen))
  intro collections x₃ _
  exact Proc.Still.pure _

end Opening

/-! ## Verifying -/

section Verifying

variable {S : Type}

theorem verifyChecksums_calls (collection : Str) (seg : SegmentData) :
    (seg.verifyChecksums collection : Action S Unit).Calls Call.IsRead := by
  apply Proc.Calls.forList
  intro which _
  apply Proc.Calls.bind (Proc.Calls.lift _)
  intro path
  apply Proc.Calls.bind (readFile_calls path)
  intro found
  cases found with
  | none => exact Proc.Calls.throw _
  | some bytes => exact Proc.Calls.lift _

theorem verifySegments_calls (level : VerifyLevel) (collection : Str) (segments : List SegmentData)
    (acc : List DocId × List Problem) : (verifySegments level collection segments acc : Action S _).Calls Call.IsRead := by
  induction segments generalizing acc with
  | nil => exact Proc.Calls.pure _
  | cons seg rest ih =>
    obtain ⟨seen, problems⟩ := acc
    apply Proc.Calls.bind
    · unfold checksumProblem
      split
      · apply Proc.Calls.bind (Proc.Calls.attempt (verifyChecksums_calls collection seg))
        intro checked
        cases checked with
        | ok u => exact Proc.Calls.pure _
        | error e => exact Proc.Calls.pure _
      · exact Proc.Calls.pure _
    · intro damaged
      exact ih _

theorem verifyCollection_calls (level : VerifyLevel) : (verifyCollection level).Calls Call.IsRead := by
  apply Proc.Calls.bind Proc.Calls.get
  intro s
  apply Proc.Calls.bind (verifySegments_calls level _ _ _)
  intro problems
  apply Proc.Calls.bind (listSegmentIds_calls _)
  intro onDisk
  exact Proc.Calls.pure _

theorem onCollection_calls {α : Type} {good : Call → Prop} (name : Str) {m : Action Session α} (h : m.Calls good) :
    (Database.onCollection name m).Calls good := by
  apply Proc.Calls.bind Proc.Calls.get
  intro db
  cases db.collections.lookup name with
  | none => exact Proc.Calls.throw _
  | some coll => exact Proc.Calls.zoom h

/-- **Verification only reads.** -/
theorem verify_calls (level : VerifyLevel) : (Database.verify level).Calls Call.IsRead := by
  apply Proc.Calls.bind Proc.Calls.get
  intro db
  apply Proc.Calls.bind
  · generalize db.store.current.collections = entries
    induction entries with
    | nil => exact Proc.Calls.pure _
    | cons entry rest ih =>
      apply Proc.Calls.bind (onCollection_calls entry.name (verifyCollection_calls level))
      rintro ⟨found, problems, oddities⟩
      apply Proc.Calls.bind ih
      intro others
      exact Proc.Calls.pure _
  · intro report
    apply Proc.Calls.bind listCollectionDirs_calls
    intro dirs
    exact Proc.Calls.pure _

end Verifying

/-! ## Searching -/

section Searching

variable {S G : Type} {x : S} {s : MemoryStorage}

theorem attempt_run {α : Type} {m : Action S α} {r : Except DbError α} {x' : S} {s' : MemoryStorage}
    (h : (m x).run device s = ((r, x'), s')) : (Proc.attempt m x).run device s = ((.ok r, x'), s') := by
  rw [Proc.attempt, Prog.run_bind, h]
  rfl

/-- Reading a snapshot's file. -/
theorem snapshotRead_run (path : DbPath) : (StoredSnapshots.read path x).run device s =
    ((.ok (match s.image .live path with
      | none => none
      | some bytes =>
          if bytes.length = 0 ∨ StoredSnapshots.maxLen < bytes.length then none else some bytes), x), s) := by
  unfold StoredSnapshots.read
  cases hi : s.image .live path with
  | none =>
    -- nothing there to open, or a directory
    have hopen : ∃ e, device.step (.openFile path .read) s = (.error e, s) := by
      show ∃ e, s.openFile path .read = _
      unfold MemoryStorage.openFile
      cases hg : s.get path with
      | none => exact ⟨_, rfl⟩
      | some entry =>
        cases entry with
        | dir => exact ⟨_, rfl⟩
        | file d => rw [MemoryStorage.image_file hg] at hi; cases hi
    obtain ⟨e, he⟩ := hopen
    rw [Proc.run_bind (attempt_run (run_call he))]
    rfl
  | some bytes =>
    obtain ⟨d, hd, rfl⟩ := MemoryStorage.file_of_image hi
    have hopen : device.step (.openFile path .read) s = (.ok ⟨path, false⟩, s) := MemoryStorage.openFile_file .read hd
    have hlen : device.step (.len ⟨path, false⟩) s = (.ok d.live.length, s) := by
      show (MemoryStorage.len s ⟨path, false⟩, s) = _
      unfold MemoryStorage.len
      rw [hd]
    have hread : device.step (.readAt ⟨path, false⟩ d.live.length 0) s = (.ok d.live, s) := by
      show (MemoryStorage.readAt s ⟨path, false⟩ d.live.length 0, s) = _
      unfold MemoryStorage.readAt
      rw [hd]
      simp
    rw [Proc.run_bind (attempt_run (run_call hopen))]
    dsimp only
    rw [Proc.run_bind (attempt_run (run_call hlen))]
    dsimp only [Sel.of]
    by_cases hrefused : d.live.length = 0 ∨ StoredSnapshots.maxLen < d.live.length
    · rw [if_pos hrefused]
      exact congrArg (fun v => ((Except.ok v, x), s)) (if_pos hrefused).symm
    · rw [if_neg hrefused, Proc.run_bind (attempt_run (run_call hread))]
      dsimp only
      rw [if_pos rfl]
      exact congrArg (fun v => ((Except.ok v, x), s)) (if_neg hrefused).symm

/-- **A load gives the stored payload**, and never fails. -/
theorem snapshotLoad_run (name : Str) (kind : IndexKind) : (StoredSnapshots.load name kind x).run device s =
    ((.ok (storedPayload s name kind), x), s) := by
  unfold StoredSnapshots.load storedPayload
  cases Layout.indexFile name kind 0 with
  | error e => rfl
  | ok path =>
    dsimp only
    rw [Proc.run_bind (snapshotRead_run path)]
    cases s.image .live path with
    | none => rfl
    | some bytes =>
      dsimp only
      by_cases hrefused : bytes.length = 0 ∨ StoredSnapshots.maxLen < bytes.length
      · rw [if_pos hrefused, if_pos hrefused]
        rfl
      · rw [if_neg hrefused, if_neg hrefused]
        dsimp only
        cases openBlock bytes .index with
        | ok payload => rfl
        | error e => rfl

/-- Preparing a graph that has nothing to build changes nothing. -/
theorem hnswPrepare_still {linking : Linking} {params : HnswParams} {g : Graph} {name : Str} {ctx : SearchCtx}
    (h : HnswIndex.Prepared params g s name ctx) :
    Proc.Still device (HnswIndex.prepare linking params ctx.source.asVectorSource ctx.metric (StoredSnapshots.new name .hnsw)) g s := by
  unfold HnswIndex.prepare
  apply Proc.Still.get_bind
  by_cases hvalid : g.isValidFor ctx.source.asVectorSource.len ctx.source.asVectorSource.dimension.toNat ctx.metric = true
  · rw [if_pos hvalid]
    exact Proc.Still.pure ()
  rw [if_neg hvalid]
  obtain ⟨restored, hrestored⟩ := Option.isSome_iff_exists.mp (h.resolve_left hvalid)
  have hload : (StoredSnapshots.load name .hnsw g).run device s = ((.ok (storedPayload s name .hnsw), g), s) :=
    snapshotLoad_run name .hnsw
  apply Proc.Still.bind (show Proc.Still device (StoredSnapshots.load name .hnsw) g s from congrArg Prod.snd hload)
  intro stored x₁ hstored
  have heq : (StoredSnapshots.load name .hnsw g).run device s = ((.ok stored, x₁), s) := hstored
  rw [hload] at heq
  cases heq
  rw [show HnswIndex.restore params ctx.metric ctx.source.asVectorSource.dimension.toNat ctx.source.asVectorSource.len
    ctx.source.asVectorSource.decodeRows (storedPayload s name .hnsw) = some restored from hrestored]
  exact Proc.Still.modify _

/-- Preparing an index that has nothing to build changes nothing. -/
theorem prepare_still {choice : IndexChoice} {g : choice.Memory} {name : Str} {ctx : SearchCtx}
    (h : choice.Prepared g s name ctx) :
    Proc.Still device (choice.index.prepare ctx.source ctx.metric (StoredSnapshots.new name choice.index.kind)) g s := by
  cases choice with
  | exact scan => exact Proc.Still.pure ()
  | hnsw linking params scan => exact hnswPrepare_still h

/-- **A search changes nothing** when its index has nothing to build. -/
theorem search_still {choice : IndexChoice} {request : SearchRequest} {budget : Budget} {y : Searching choice.Memory}
    (h : ∀ ctx, planSearch y.session request budget = .ok ctx → choice.Prepared y.graph s y.session.name ctx) :
    Proc.Still device (search choice.index request budget) y s := by
  unfold search
  apply Proc.Still.get_bind
  apply Proc.Still.bind (Proc.Still.lift _)
  intro ctx x₁ hplan
  have hok : planSearch y.session request budget = .ok ctx := congrArg (fun p => p.1.1) hplan
  have hmem : y = x₁ := congrArg (fun p => p.1.2) hplan
  subst hmem
  apply Proc.Still.bind (Proc.Still.zoom (prepare_still (h ctx hok)))
  intro _ x₂ _
  apply Proc.Still.get_bind
  apply Proc.Still.bind (Proc.Still.lift _)
  intro found x₃ _
  exact Proc.Still.lift _

end Searching

/-! ## Calls -/

section Calls

variable {S : Type} {x : S} {s : MemoryStorage} {env : Env}

/-- **A write is refused** before it reaches the storage. -/
theorem refused_still {α : Type} (hro : env.config.readOnly = true) (operation : String) (rest : Unit → Action S α) :
    Proc.Still device (checkWritable env operation >>= rest) x s := by
  have hthrow : (checkWritable env operation : Action S Unit) = Proc.throw (.readOnly operation) := by
    unfold checkWritable
    rw [if_pos hro]
  rw [hthrow]
  apply Proc.Still.bind (Proc.Still.throw _)
  intro _ x₁ hrun
  cases hrun

theorem onCollection_still {α : Type} {name : Str} {m : Action Session α} {db : Database}
    (h : ∀ y, Proc.Still device m y s) : Proc.Still device (Database.onCollection name m) db s := by
  apply Proc.Still.get_bind
  cases db.collections.lookup name with
  | none => exact Proc.Still.throw _
  | some coll => exact Proc.Still.zoom (h _)

variable {choice : IndexChoice} {o : Opened choice.Memory}

/-- A call whose answer is made from what an action gives is as still as the action. -/
theorem answer_still {α : Type} {m : Action S α} {f : α → Answer} (h : Proc.Still device m x s) :
    Proc.Still device (m >>= fun a => pure (f a)) x s := by
  apply Proc.Still.bind h
  intro a x₁ _
  exact Proc.Still.pure _

theorem opened_still {α : Type} {name : Str} {m : Action Session α} (h : ∀ y, Proc.Still device m y s) :
    Proc.Still device (Opened.onCollection name m) o s := by
  unfold Opened.onCollection Opened.onDatabase
  exact Proc.Still.zoom (onCollection_still h)

/-- A question to a collection reaches no storage. -/
theorem ask_still {α : Type} (name : Str) (question : Session → Except DbError α) :
    Proc.Still device (Opened.ask name question) o s := by
  apply opened_still
  intro y
  exact Proc.Still.get_bind (Proc.Still.lift _)

/-- **A call on a read-only database changes nothing**, when a search has nothing to build. -/
theorem body_still (hro : env.config.readOnly = true) (c : ApiCall) (hc : c.BuildsNothing choice o s) :
    Proc.Still device (c.body env choice.index) o s := by
  cases c with
  | get name id inc => exact answer_still (ask_still name _)
  | contains name id => exact answer_still (ask_still name _)
  | count name => exact answer_still (ask_still name _)
  | ids name => exact answer_still (ask_still name _)
  | search name request budget =>
    apply answer_still
    apply Proc.Still.get_bind
    cases hsession : o.db.session name with
    | none => exact Proc.Still.throw _
    | some session => exact Proc.Still.zoom (search_still (fun ctx hplan => hc session ctx hsession hplan))
  | insert name doc => exact answer_still (opened_still (fun y => refused_still hro _ _))
  | upsert name doc => exact answer_still (opened_still (fun y => refused_still hro _ _))
  | delete name id => exact answer_still (opened_still (fun y => refused_still hro _ _))
  | writeBatch name batch => exact answer_still (opened_still (fun y => refused_still hro _ _))
  | flush name =>
    apply answer_still
    apply opened_still
    intro y
    unfold flush
    rw [if_pos hro]
    exact Proc.Still.pure ()
  | compact name options => exact answer_still (opened_still (fun y => refused_still hro _ _))
  | createCollection spec => exact answer_still (Proc.Still.zoom (refused_still hro _ _))
  | dropCollection name => exact answer_still (Proc.Still.zoom (refused_still hro _ _))
  | verify level => exact answer_still (Proc.Still.zoom (still_read (verify_calls level)))
  | flushAll =>
    apply answer_still
    apply Proc.Still.zoom
    unfold Database.flushAll
    rw [if_pos hro]
    exact Proc.Still.pure ()
  | compactAll options => exact answer_still (Proc.Still.zoom (refused_still hro _ _))
  | close =>
    have hclose : Proc.Still device (Opened.onDatabase (Database.close env)) o s := by
      apply Proc.Still.zoom
      unfold Database.close
      rw [if_pos hro]
      exact Proc.Still.pure ()
    apply Proc.Still.bind (Proc.Still.attempt hclose)
    intro result x₁ _
    apply Proc.Still.bind (Proc.Still.modify _)
    intro _ x₂ _
    exact Proc.Still.lift _

theorem act_still (hro : env.config.readOnly = true) (c : ApiCall) (hc : c.BuildsNothing choice o s) :
    Proc.Still device (c.act env choice.index) o s := by
  have hcheck : Proc.Still device (Opened.checkOpen : Action (Opened choice.Memory) Unit) o s := by
    apply Proc.Still.get_bind
    split
    · exact Proc.Still.throw _
    · exact Proc.Still.pure ()
  apply Proc.Still.bind hcheck
  intro _ x₁ hrun
  -- the check leaves the memory as it is
  have hmem : x₁ = o := by
    unfold Opened.checkOpen at hrun
    have hrun' : (((if o.closed = true then Proc.throw DbError.databaseClosed else pure ()) :
        Action (Opened choice.Memory) Unit) o).run device s = ((Except.ok (), x₁), s) := hrun
    split at hrun'
    · cases hrun'
    · cases hrun'
      rfl
  subst hmem
  exact body_still hro c hc

end Calls

/-- **A read-only database never writes**, in every run in which each adopted collection has its log and no search has
    to build its index. -/
theorem DatabaseRun.unchanged {env : Env} {choice : IndexChoice} {s₀ s : MemoryStorage} {x : Opened choice.Memory}
    (hro : env.config.readOnly = true)
    (h : DatabaseRun env choice LogsPresent (fun x s c => c.BuildsNothing choice x s) s₀ x s) : s = s₀ := by
  induction h with
  | @opened _ counter _ _ hmay h =>
    have hstill := @open_still Unit () s₀ env hro hmay counter
    exact (congrArg Prod.snd h).symm.trans hstill
  | call _ c hmay h ih =>
    have hstill := act_still hro c hmay
    exact ((congrArg Prod.snd h).symm.trans hstill).trans ih

section Example

/-- Opened to be written, with no collection yet. -/
def newDatabase : (Except DbError Database × Unit) × MemoryStorage := (Database.open someEnv 0 ()).run device MemoryStorage.new

def databaseOf : Except DbError Database → Database
  | .ok db => db
  | .error _ => ⟨⟨firstManifest, .a⟩, ∅⟩

def someSpec : Database.CollectionSpec := ⟨someName, 1, .l2, .f32, .str 8, .flat⟩

/-- The storage after a collection was made under a fault. -/
def madeStorage (fault : Fault DbError) : MemoryStorage :=
  ((Database.createCollection someEnv someSpec (databaseOf newDatabase.1.1)).runWith device newDatabase.2 fault).2

def readOnlyEnv : Env := ⟨⟨false, true, .full, 1⟩, 0, fun _ => ⟨0, Reader.finite32_zero⟩⟩

def someChoice : IndexChoice := .exact (fun _ _ => .ok [])

/-- The graph index, over whole numbers. -/
def graphChoice : IndexChoice := .hnsw (hnswLinking .whole .default) .default (fun _ _ => .ok [])

def openedReadOnly (s : MemoryStorage) : (Except DbError Database × Unit) × MemoryStorage :=
  (Database.open readOnlyEnv 0 ()).run device s

theorem openedReadOnly_run {s : MemoryStorage} (h : (openedReadOnly s).1.1.isOk = true) :
    ∃ db, (Database.open readOnlyEnv 0 ()).run device s = ((.ok db, ()), (openedReadOnly s).2) := by
  cases hr : openedReadOnly s with
  | mk r s' =>
    obtain ⟨r, u⟩ := r
    cases r with
    | error e => rw [hr] at h; cases h
    | ok db => exact ⟨db, hr⟩

/-- The collection's catalog, when there is one, leads to a log that is there. -/
def catalogLeads (s : MemoryStorage) (name : Str) : Bool := (s.image .live (.catalog name)).all (fun bytes =>
  (Catalog.decode bytes).toOption.all (fun catalog => (s.image .live (.walFile catalog.name 1)).isSome))

theorem logsPresent_of {s : MemoryStorage} {slot : Slot} {m : Manifest}
    (hchosen : (Manifest.scanSlots (slotBytes (s.image .live) .a) (slotBytes (s.image .live) .b)).chosen = some (slot, m))
    (hlogs : ∀ entry ∈ m.collections, catalogLeads s entry.name = true) : LogsPresent s := by
  intro slot' m' hchosen' entry hentry bytes catalog hbytes hdecode
  rw [hchosen] at hchosen'
  cases hchosen'
  have hlead := hlogs entry hentry
  unfold catalogLeads at hlead
  rw [hbytes] at hlead
  simp only [Option.all_some, hdecode] at hlead
  exact hlead

/-- A document with one component. -/
def docAt (id : DocId) (component : UInt32) : DocumentInput := ⟨id, .f32 [component], none, none⟩

/-- The two documents nearest to 1. -/
def nearOne : SearchRequest := ⟨.f32 [0x3F800000], 2, none, none, none, ⟨false, false, false⟩, ⟨none, none⟩⟩

/-- The storage after two documents were put and flushed, and a search has stored its graph. -/
def searchedStorage : MemoryStorage :=
  ([.createCollection someSpec, .insert someName (docAt (.str ⟨[97], utf8_a⟩) 0x3F800000),
    .insert someName (docAt (.str ⟨[98], utf8_b⟩) 0x40000000), .flush someName,
    .search someName nearOne ⟨false, none⟩].foldl (fun (p : Opened Graph × MemoryStorage) (c : ApiCall) =>
      let ended := (c.act someEnv graphChoice.index p.1).run device p.2
      (ended.1.2, ended.2)) (⟨databaseOf newDatabase.1.1, .default, false⟩, newDatabase.2)).2

/-- Whether a stored snapshot serves the search of a database. -/
def servesNearOne (db : Database) (s : MemoryStorage) : Bool := (db.session someName).all fun session =>
  (planSearch session nearOne ⟨false, none⟩).toOption.all fun ctx =>
    (HnswIndex.restore HnswParams.default.orDefault ctx.metric ctx.source.dimension.toNat ctx.source.len ctx.source.decodeRows
      (storedPayload s session.name .hnsw)).isSome

theorem buildsNothing_of {db : Database} {s : MemoryStorage} (h : servesNearOne db s = true) :
    (ApiCall.search someName nearOne ⟨false, none⟩).BuildsNothing graphChoice ⟨db, Graph.default, false⟩ s := by
  intro session ctx hsession hplan
  unfold servesNearOne at h
  rw [show db.session someName = some session from hsession] at h
  simp only [Option.all_some, hplan] at h
  exact .inr h

/-- The database that is opened over the graph's storage. -/
def searchedDatabase : Database := databaseOf (openedReadOnly searchedStorage).1.1

/-- The documents are searched through the stored graph, on a read-only database: the graph has its two nodes. -/
theorem unchanged_searched : ∃ x s, DatabaseRun readOnlyEnv graphChoice LogsPresent
    (fun x s c => c.BuildsNothing graphChoice x s) searchedStorage x s ∧ Graph.len x.graph = 2 ∧ s = searchedStorage := by
  obtain ⟨hopens, hchosen, hleads, hserves, hnodes⟩ : (openedReadOnly searchedStorage).1.1.isOk = true ∧
      (Manifest.scanSlots (slotBytes (searchedStorage.image .live) .a) (slotBytes (searchedStorage.image .live) .b)).chosen =
        some (searchedDatabase.store.slot, searchedDatabase.store.current) ∧
      (∀ entry ∈ searchedDatabase.store.current.collections, catalogLeads searchedStorage entry.name = true) ∧
      servesNearOne searchedDatabase (openedReadOnly searchedStorage).2 = true ∧
      Graph.len (((ApiCall.search someName nearOne ⟨false, none⟩).act readOnlyEnv graphChoice.index
        ⟨searchedDatabase, Graph.default, false⟩).run device (openedReadOnly searchedStorage).2).1.2.graph = 2 := by
    decide +kernel
  obtain ⟨db, hopen⟩ := openedReadOnly_run hopens
  have hdb : searchedDatabase = db := by
    unfold searchedDatabase
    rw [show openedReadOnly searchedStorage = _ from hopen]
    rfl
  rw [hdb] at hchosen hleads hserves hnodes
  have hrun : DatabaseRun readOnlyEnv graphChoice LogsPresent (fun x s c => c.BuildsNothing graphChoice x s)
      searchedStorage ⟨db, Graph.default, false⟩ (openedReadOnly searchedStorage).2 :=
    .opened _ (logsPresent_of hchosen hleads) hopen
  have hsearch := DatabaseRun.call hrun (.search someName nearOne ⟨false, none⟩) (buildsNothing_of hserves) rfl
  exact ⟨_, _, hsearch, hnodes, hsearch.unchanged rfl⟩

/-- **A read-only open makes a file**: the process that made the collection died before it had made its log. -/
theorem readOnly_makes_log : ∃ x s, DatabaseRun readOnlyEnv someChoice (fun _ => True) (fun _ _ _ => True)
    (madeStorage (.die 9 0)) x s ∧ s ≠ madeStorage (.die 9 0) := by
  obtain ⟨hopens, hbefore, hafter⟩ : (openedReadOnly (madeStorage (.die 9 0))).1.1.isOk = true ∧
      (madeStorage (.die 9 0)).image .live someLog = none ∧
      (openedReadOnly (madeStorage (.die 9 0))).2.image .live someLog = some [] := by
    decide +kernel
  obtain ⟨db, hopen⟩ := openedReadOnly_run hopens
  refine ⟨_, _, DatabaseRun.opened (show someChoice.Memory from ()) trivial hopen, fun hsame => ?_⟩
  rw [hsame, hbefore] at hafter
  cases hafter

end Example

end IshaVectorDb.Engine
