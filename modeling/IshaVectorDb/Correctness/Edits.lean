import IshaVectorDb.Correctness.Databases
import IshaVectorDb.Interaction.Calls
import IshaVectorDb.Interaction.Ends

/-!
# `Correctness.Edits` — what a **call on a collection** does to its documents

`Edit.Answers` says what a collection is for: a map from ids to documents, on which each call has one answer and
leaves one map. `Edit.ends` is the connection: whatever the memtable, the segments and the log look like, a call
answers what the map gives and leaves a collection that stands for the map the call leaves.
-/

namespace IshaVectorDb.Engine

open Format Interaction KeyLog

/-- A call that may change a collection. -/
inductive Edit
  | insert (doc : DocumentInput)
  | upsert (doc : DocumentInput)
  | delete (id : DocId)
  | writeBatch (batch : WriteBatch)
  | flush
  | compact (options : CompactOptions)

/-- What an edit answers. -/
inductive EditAnswer
  | done
  | upserted (outcome : UpsertOutcome)
  | deleted (existed : Bool)
  | written (report : BatchReport)
  | compacted (report : CompactReport)
deriving DecidableEq

/-- The edit as the collection carries it out. -/
def Edit.act (env : Env) : Edit → Action Session EditAnswer
  | .insert doc => do
      Engine.insert env doc
      return .done
  | .upsert doc => do return .upserted (← Engine.upsert env doc)
  | .delete id => do return .deleted (← Engine.delete env id)
  | .writeBatch batch => do return .written (← Engine.writeBatch env batch)
  | .flush => do
      Engine.flush env
      return .done
  | .compact options => do return .compacted (← Engine.compact env options)

/-- **The edit is one a caller can make, and there is room for it**: vectors are as long as they say, a deleted id is
    of the collection's kind, and no offset, row number or counter on disk runs over. -/
def Edit.Fits (env : Env) (sess : Session) : Edit → Prop
  | .insert doc => doc.vector.WellFormed ∧ WriteRoom env sess [.put doc.id doc.stored]
  | .upsert doc => doc.vector.WellFormed ∧ WriteRoom env sess [.put doc.id doc.stored]
  | .delete id => id.validate sess.catalog.idKind = .ok () ∧ WriteRoom env sess [.del id]
  | .writeBatch batch => WriteRoom env sess batch.logged
  | .flush => sess.memtable.isEmpty = false → Room sess sess.memtable
  | .compact options => sess.segments.filter options.chooses ≠ [] → CompactRoom sess options

/-! ## The map -/

/-- Count one operation of a batch against the documents before the batch. -/
def BatchReport.countIn (docs : DocMap) (r : BatchReport) (op : BatchOp) : BatchReport :=
  match op, (docs op.id).isSome with
  | .upsert _ _ _ _, true => { r with updated := r.updated + 1 }
  | .upsert _ _ _ _, false => { r with inserted := r.inserted + 1 }
  | .delete _, true => { r with deleted := r.deleted + 1 }
  | .delete _, false => { r with missingDeletes := r.missingDeletes + 1 }

/-- The checks on a document, which depend on the collection's specification only. -/
def checkDoc (cat : Catalog) (doc : DocumentInput) : Except DbError Unit :=
  doc.validate cat.name.bytes cat.dimension cat.idKind

/-- The checks on one operation of a batch, which depend on the collection's specification only. -/
def checkOp (cat : Catalog) : BatchOp → Except DbError Unit
  | .upsert id vector metadata _ => do
      id.validate cat.idKind
      let view ← VectorView.ofRaw .f32 vector cat.dimension
      view.validate cat.name.bytes cat.dimension
      DocumentInput.checkMetadata metadata
  | .delete id => id.validate cat.idKind

/-- The checks on the operations of a batch: the first that fails is named. -/
def checkOps (cat : Catalog) (total : Nat) : Nat → List BatchOp → Except DbError Unit
  | _, [] => .ok ()
  | index, op :: rest => match checkOp cat op with
    | .ok () => checkOps cat total (index + 1) rest
    | .error e => .error (.aborted index total e)

/-- **The checks on a batch**: that it has few enough operations, that each passes its own, and that their frames are small
    enough. How long a frame is depends on the numbers that the log gives it. -/
def checkBatch (cat : Catalog) (w : WalWriter) (batch : WriteBatch) : Except DbError Unit := do
  batch.validate
  if batch.ops.isEmpty then return ()
  else do
    checkOps cat batch.ops.length 0 batch.ops
    let a ← batch.write
    if ∀ f ∈ a.framesOf w, f.Fits then return () else throw w.frameTooLarge

/-- A document that passed its checks is put. -/
def PutAnswers (cat : Catalog) (docs : DocMap) (doc : DocumentInput) (answer : Except DbError EditAnswer)
    (r : Except DbError EditAnswer) (docs' : DocMap) : Prop :=
  match checkDoc cat doc with
  | .error e => r = .error e ∧ docs' = docs
  | .ok () => r = answer ∧ docs' = match answer with
      | .ok _ => Function.update docs doc.id (some doc.stored)
      | .error _ => docs

/-- **What an edit does to a map of documents**: its answer and the map it leaves. The log's writer is asked for the numbers of
    a batch only. -/
def Edit.Answers (cat : Catalog) (w : WalWriter) (docs : DocMap) (r : Except DbError EditAnswer) (docs' : DocMap) : Edit → Prop
  | .insert doc => PutAnswers cat docs doc
      (if (docs doc.id).isSome then .error (.duplicateId cat.name doc.id.display) else .ok .done) r docs'
  | .upsert doc => PutAnswers cat docs doc
      (.ok (.upserted (if (docs doc.id).isSome then .updated else .inserted))) r docs'
  | .delete id => r = .ok (.deleted (docs id).isSome) ∧ docs' = Function.update docs id none
  | .writeBatch batch => match checkBatch cat w batch with
      | .error e => r = .error e ∧ docs' = docs
      | .ok () => r = .ok (.written (batch.ops.foldl (BatchReport.countIn docs) BatchReport.zero)) ∧
          docs' = replay docs batch.logged
  | .flush => r = .ok .done ∧ docs' = docs
  | .compact _ => (∃ report, r = .ok (.compacted report)) ∧ docs' = docs

/-! ## The connection -/

section Step

variable {env : Env} {sel : Sel} {sess : Session} {s : MemoryStorage} {G D : Str → Option Ghost} {g : Ghost}
  {ops : List LogOp} {docs : DocMap}

/-- Nothing but a number of the log's writer changed. -/
theorem State.withWriter (h : State env sel sess s G D g ops docs) {w : WalWriter} (hf : w.file = sess.wal.file)
    (hp : w.path = sess.wal.path) (hb : w.bytes = sess.wal.bytes) (hd : w.durability = sess.wal.durability) :
    State env sel (sess.withWal w) s G D g ops docs := by
  obtain ⟨hfile, hpath, hdur, bytes, hbytes, hlen⟩ := h.live.mem.wal
  have hwal : WalInv w (.walFile g.name 1) env.config.durability (s.image .live) :=
    ⟨hf.trans hfile, hp.trans hpath, hd.trans hdur, bytes, hbytes, hb.trans hlen⟩
  exact ⟨h.shape, ⟨h.live.disk, h.live.here, h.live.mem.catalog, h.live.mem.memtable, h.live.mem.few, h.live.mem.ok,
    h.live.mem.segments, hwal, h.live.mem.next⟩, ⟨h.seen.disk, h.seen.there, h.seen.lag, h.seen.names⟩⟩

/-- A view that the write was synced to misses nothing of it. -/
theorem AfterWrite.caughtUp {synced : Bool} {more : List LogOp} {sess' : Session} {t : MemoryStorage} {g' : Ghost}
    {ops' : List LogOp} {docs' : DocMap} (h : AfterWrite env sel synced sess s G D g ops docs more sess' t g' ops' docs')
    (hsync : sel = .live ∨ synced = true) : After env sel sess sess' s t G D g g' g'.ops g'.docs := by
  have hsame : ops' = g'.ops ∧ docs' = g'.docs := by
    by_cases hover : Overflows env sess more
    · obtain ⟨hg, ho, hd⟩ := h.flushed hover
      exact ⟨ho.trans hg.symm, hd⟩
    · rcases (h.pending hover).2 with ⟨hsel, hno, -⟩ | hsame
      · rcases hsync with rfl | rfl
        · cases hsel
        · cases hno
      · exact hsame
  obtain ⟨rfl, rfl⟩ := hsame
  exact h.after

theorem checkWritable_done {S : Type} (hro : env.config.readOnly = false) (operation : String) (x : S) :
    checkWritable env operation x = .pure (.ok (), x) := by
  unfold checkWritable
  rw [hro]
  rfl

theorem lift_refused {S α : Type} {r : Except DbError α} {err : DbError} (h : r = .error err) (x : S) :
    (Proc.lift r : Action S α) x = .pure (.error err, x) := by rw [h]; rfl

theorem lift_done {S α : Type} {r : Except DbError α} {a : α} (h : r = .ok a) (x : S) :
    (Proc.lift r : Action S α) x = .pure (.ok a, x) := by rw [h]; rfl

/-- The writes of an edit. -/
def Edit.writes : Edit → List LogOp
  | .insert doc => [.put doc.id doc.stored]
  | .upsert doc => [.put doc.id doc.stored]
  | .delete id => [.del id]
  | .writeBatch batch => batch.logged
  | .flush => []
  | .compact _ => []

/-- A death inside the edit tears a file that a process will read again. -/
def Edit.Tears (sess : Session) (c : Call) (n : Nat) : Edit → Prop
  | .flush => TearsBitmap sess c n
  | .compact _ => False
  | _ => c.Tears n

/-- **What a death inside an edit leaves**: the documents before it or those after it. -/
def Edit.Dies (sel : Sel) (sess : Session) (G : Str → Option Ghost) (g : Ghost) (e : Edit) (c : Call) (n : Nat)
    (img : Image) : Prop :=
  (sel = .live → ¬ e.Tears sess c n) → RecoversEither img (docsOf G) g.name (replay g.docs e.writes)

/-- **An edit**: it is refused before its first call, or it goes through. -/
inductive Edit.Goes (env : Env) (sel : Sel) (sess : Session) (s : MemoryStorage) (G : Str → Option Ghost) (g : Ghost)
    (e : Edit) : Prop
  | refused (err : DbError) (sess' : Session) (hrun : e.act env sess = .pure (.error err, sess'))
      (hafter : After env sel sess sess' s s G G g g g.ops g.docs) (hanswers : e.Answers g.cat sess.wal g.docs (.error err) g.docs)
  | done (hspec : Spec sel (e.act env) sess s
      (fun a sess' t => ∃ g', After env sel sess sess' s t G G g g' g'.ops g'.docs ∧ e.Answers g.cat sess.wal g.docs (.ok a) g'.docs)
      (e.Dies sel sess G g) (fun _ _ _ => True))

/-- An insertion, an upsert, a deletion and a batch die alike. -/
theorem Edit.dies_of_write {e : Edit} (he : ∀ c n, e.Tears sess c n = c.Tears n) {c : Call} {n : Nat} {img : Image}
    (h : WriteDies sel G g.name (replay g.docs e.writes) c n img) : e.Dies sel sess G g c n img :=
  fun hno => h (fun hsel => by rw [← he]; exact hno hsel)

theorem settles_of_sync (hsync : sel = .live ∨ env.config.durability = .full) {synced : Durability → Bool}
    (hs : synced .full = true) (more : List LogOp) :
    Settles env sel (synced env.config.durability) sess g g.ops g.docs more := by
  intro _ hsel hno
  rcases hsync with hl | hfull
  · rw [hsel] at hl; cases hl
  · rw [hfull, hs] at hno; cases hno

theorem State.check_eq (h : State env sel sess s G D g ops docs) (doc : DocumentInput) :
    validate sess doc = checkDoc g.cat doc := by
  have hcat : sess.coll.catalog = g.cat := h.live.mem.catalog
  unfold validate checkDoc Session.name Session.catalog
  rw [hcat]

theorem State.checkOp_eq (h : State env sel sess s G D g ops docs) (op : BatchOp) : validateOp sess op = checkOp g.cat op := by
  have hcat : sess.catalog = g.cat := h.live.mem.catalog
  have hname : sess.name = g.cat.name := h.live.mem.session_name
  cases op with
  | upsert id vector metadata content =>
    unfold validateOp checkOp
    rw [hcat, hname]
  | delete id =>
    unfold validateOp checkOp
    rw [hcat]

theorem State.checkOps_eq (h : State env sel sess s G D g ops docs) (total index : Nat) (l : List BatchOp) :
    validateOps sess total index l = checkOps g.cat total index l := by
  induction l generalizing index with
  | nil => rfl
  | cons op l ih =>
    have hop := h.checkOp_eq op
    cases hcheck : checkOp g.cat op with
    | ok _ => simp only [validateOps, checkOps, hop, hcheck, ih]
    | error e => simp only [validateOps, checkOps, hop, hcheck]

/-- A batch that fails a check is refused. -/
theorem Edit.refuses {cat : Catalog} {w : WalWriter} {batch : WriteBatch} {err : DbError} (h : checkBatch cat w batch = .error err)
    (docs : DocMap) : (Edit.writeBatch batch).Answers cat w docs (.error err) docs := by
  dsimp only [Edit.Answers]
  rw [h]
  exact ⟨rfl, rfl⟩

/-- A batch that passes its checks goes through. -/
theorem Edit.accepts {cat : Catalog} {w : WalWriter} {batch : WriteBatch} (h : checkBatch cat w batch = .ok ())
    (docs : DocMap) : (Edit.writeBatch batch).Answers cat w docs
      (.ok (.written (batch.ops.foldl (BatchReport.countIn docs) BatchReport.zero))) (replay docs batch.logged) := by
  dsimp only [Edit.Answers]
  rw [h]
  exact ⟨rfl, rfl⟩

/-- A batch is counted against the documents before it. -/
theorem State.countOp_eq (h : State env sel sess s G D g ops docs) : BatchReport.countOp sess = BatchReport.countIn g.docs := by
  funext r op
  unfold BatchReport.countOp BatchReport.countIn
  generalize hpresent : (sess.locate op.id).isSome = present
  obtain rfl : present = (g.docs op.id).isSome := hpresent.symm.trans (locate_isSome h.live.mem op.id)
  cases op <;> cases (g.docs _).isSome <;> rfl

section Goes

variable (h : State env sel sess s G G g g.ops g.docs) (hro : env.config.readOnly = false)

include h hro

theorem Edit.flush_goes (hfits : Edit.Fits env sess .flush) : Edit.Goes env sel sess s G g .flush := by
  refine .done (Triple.bind ?_)
  unfold Engine.flush
  rw [hro]
  refine (doFlush_spec h h.live.settled hfits).mono (fun _ sess' t hpost => ?_) (fun c n img hdies => ?_)
    (fun _ _ _ hf => ⟨hf.1, trivial⟩)
  · obtain ⟨g', hops, hdocs, hafter⟩ := hpost
    refine Triple.pure ⟨g', ?_, rfl, hdocs⟩
    rw [hops, hdocs]; exact hafter
  · exact hdies

theorem Edit.compact_goes {options : CompactOptions} (hfits : Edit.Fits env sess (.compact options)) :
    Edit.Goes env sel sess s G g (.compact options) := by
  refine .done (Triple.bind ((compact_spec h hro hfits).mono (fun report sess' t hpost => ?_) (fun c n img hdies => ?_)
    (fun _ _ _ hf => ?_)))
  · obtain ⟨g', hops, hdocs, hafter⟩ := hpost
    refine Triple.pure ⟨g', ?_, ⟨report, rfl⟩, hdocs⟩
    rw [hops, hdocs]; exact hafter
  · exact ⟨hdies.1, fun _ => .inl hdies.2⟩
  · exact ⟨hf.1, trivial⟩

variable (hsync : sel = .live ∨ env.config.durability = .full)

include hsync

theorem Edit.insert_goes {doc : DocumentInput} (hfits : Edit.Fits env sess (.insert doc)) :
    Edit.Goes env sel sess s G g (.insert doc) := by
  obtain ⟨hview, hroom⟩ := hfits
  have hcheck := h.check_eq doc
  cases hv : checkDoc g.cat doc with
  | error err =>
    refine .refused err sess ?_ h.after_self ?_
    · refine Proc.bind_refused ((Proc.bind_done (checkWritable_done hro "insert" sess)).trans ((Proc.bind_done rfl).trans ?_))
      exact Proc.bind_refused (lift_refused (hcheck.trans hv) sess)
    · show PutAnswers g.cat g.docs doc _ _ _
      unfold PutAnswers
      rw [hv]; exact ⟨rfl, rfl⟩
  | ok u =>
    have hvalid : validate sess doc = .ok () := hcheck.trans hv
    cases hfound : (sess.locate doc.id).isSome with
    | true =>
      refine .refused (.duplicateId sess.name doc.id.display) sess ?_ h.after_self ?_
      · refine Proc.bind_refused ((Proc.bind_done (checkWritable_done hro "insert" sess)).trans ((Proc.bind_done rfl).trans ?_))
        refine (Proc.bind_done (lift_done hvalid sess)).trans ?_
        rw [hfound]; rfl
      · show PutAnswers g.cat g.docs doc _ _ _
        unfold PutAnswers
        rw [hv, ← locate_isSome h.live.mem, hfound, h.live.mem.session_name]
        exact ⟨rfl, rfl⟩
    | false =>
      refine .done (Triple.bind ((insert_spec h hro hview hvalid hfound hroom
        (settles_of_sync hsync rfl _)).mono (fun _ sess' t hpost => ?_) (fun c n img hdies => ?_) (fun _ _ _ hf => hf)))
      · obtain ⟨g', ops', docs', hafter⟩ := hpost
        refine Triple.pure ⟨g', hafter.caughtUp (hsync.imp_right (fun hf => by rw [hf]; rfl)), ?_⟩
        show PutAnswers g.cat g.docs doc _ _ _
        unfold PutAnswers
        rw [hv, ← locate_isSome h.live.mem, hfound]
        exact ⟨rfl, hafter.holds⟩
      · exact ⟨hdies.1, Edit.dies_of_write (fun _ _ => rfl) hdies.2⟩

theorem Edit.upsert_goes {doc : DocumentInput} (hfits : Edit.Fits env sess (.upsert doc)) :
    Edit.Goes env sel sess s G g (.upsert doc) := by
  obtain ⟨hview, hroom⟩ := hfits
  have hcheck := h.check_eq doc
  cases hv : checkDoc g.cat doc with
  | error err =>
    refine .refused err sess ?_ h.after_self ?_
    · refine Proc.bind_refused ((Proc.bind_done (checkWritable_done hro "upsert" sess)).trans ((Proc.bind_done rfl).trans ?_))
      exact Proc.bind_refused (lift_refused (hcheck.trans hv) sess)
    · show PutAnswers g.cat g.docs doc _ _ _
      unfold PutAnswers
      rw [hv]; exact ⟨rfl, rfl⟩
  | ok u =>
    have hvalid : validate sess doc = .ok () := hcheck.trans hv
    refine .done (Triple.bind ((upsert_spec h hro hview hvalid hroom
      (settles_of_sync hsync rfl _)).mono (fun outcome sess' t hpost => ?_) (fun c n img hdies => ?_) (fun _ _ _ hf => hf)))
    · obtain ⟨houtcome, g', ops', docs', hafter⟩ := hpost
      refine Triple.pure ⟨g', hafter.caughtUp (hsync.imp_right (fun hf => by rw [hf]; rfl)), ?_⟩
      show PutAnswers g.cat g.docs doc _ _ _
      unfold PutAnswers
      rw [hv, houtcome, locate_isSome h.live.mem]
      exact ⟨rfl, hafter.holds⟩
    · exact ⟨hdies.1, Edit.dies_of_write (fun _ _ => rfl) hdies.2⟩

theorem Edit.delete_goes {id : DocId} (hfits : Edit.Fits env sess (.delete id)) :
    Edit.Goes env sel sess s G g (.delete id) := by
  obtain ⟨hvalid, hroom⟩ := hfits
  refine .done (Triple.bind ((delete_spec h hro hvalid hroom
    (settles_of_sync hsync rfl _)).mono (fun found sess' t hpost => ?_) (fun c n img hdies => ?_) (fun _ _ _ hf => hf)))
  · obtain ⟨hfound, g', ops', docs', hafter⟩ := hpost
    refine Triple.pure ⟨g', hafter.caughtUp (hsync.imp_right (fun hf => by rw [hf]; rfl)), ?_, hafter.holds⟩
    rw [hfound, locate_isSome h.live.mem]
  · exact ⟨hdies.1, Edit.dies_of_write (fun _ _ => rfl) hdies.2⟩

theorem Edit.writeBatch_goes {batch : WriteBatch} (hfits : Edit.Fits env sess (.writeBatch batch)) :
    Edit.Goes env sel sess s G g (.writeBatch batch) := by
  have hroom : WriteRoom env sess batch.logged := hfits
  have hw := checkWritable_done hro "write a batch" sess
  cases hvalid : batch.validate with
  | error err =>
    have hcheck : checkBatch g.cat sess.wal batch = .error err := by
      unfold checkBatch
      rw [hvalid]
      rfl
    refine .refused err sess ?_ h.after_self (Edit.refuses hcheck _)
    exact Proc.bind_refused ((Proc.bind_done hw).trans (Proc.bind_refused (lift_refused hvalid sess)))
  | ok u =>
    cases hempty : batch.ops.isEmpty with
    | true =>
      -- nothing is written
      have hnil : batch.ops = [] := List.isEmpty_iff.mp hempty
      have hcheck : checkBatch g.cat sess.wal batch = .ok () := by
        unfold checkBatch
        rw [hvalid, hempty]
        rfl
      refine .done (Triple.bind ?_)
      unfold Engine.writeBatch checkWritable
      rw [hro]
      refine Triple.bind (Triple.pure (Triple.bind (Triple.lift hvalid ?_)))
      rw [hempty]
      have hanswers := Edit.accepts hcheck g.docs
      unfold WriteBatch.logged at hanswers
      rw [hnil] at hanswers
      exact Triple.pure (Triple.pure ⟨g, h.after_self, hanswers⟩)
    | false =>
      cases hops : validateOps sess batch.ops.length 0 batch.ops with
      | error err =>
        have hcheck : checkBatch g.cat sess.wal batch = .error err := by
          unfold checkBatch
          rw [hvalid, hempty, ← h.checkOps_eq, hops]
          rfl
        refine .refused err sess ?_ h.after_self (Edit.refuses hcheck _)
        refine Proc.bind_refused ((Proc.bind_done hw).trans ((Proc.bind_done (lift_done hvalid sess)).trans ?_))
        rw [hempty]
        exact (Proc.bind_done rfl).trans (Proc.bind_refused (lift_refused hops sess))
      | ok u' =>
        obtain ⟨wops, hwops, -⟩ := toWal_of_validateOps (rfl : sess.catalog = sess.catalog) (validateOps_ok hops)
        have hwrite : batch.write = .ok (.group wops) := by
          unfold WriteBatch.write
          rw [hwops]; rfl
        have hcheck : checkBatch g.cat sess.wal batch =
            if ∀ f ∈ (LogWrite.group wops).framesOf sess.wal, f.Fits then .ok () else .error sess.wal.frameTooLarge := by
          unfold checkBatch
          rw [hvalid, hempty, ← h.checkOps_eq, hops, hwrite]
          rfl
        obtain ⟨w', hfile, hpath, hlen, hdur, hcase⟩ := (LogWrite.group wops).action_cases sess.wal
        rcases hcase with ⟨hlarge, hact⟩ | ⟨hfit, -⟩
        · -- a frame is too large: the group's number is used up, and nothing else happened
          have hafter : After env sel sess (sess.withWal w') s s G G g g g.ops g.docs :=
            ⟨(h.withWriter hfile hpath hlen hdur).after_self.state, rfl, fun _ _ => rfl, fun h0 => h0⟩
          rw [if_neg hlarge] at hcheck
          refine .refused _ (sess.withWal w') ?_ hafter (Edit.refuses hcheck _)
          have hzoom : onWal (WalWriter.appendGroup wops) sess = .pure (.error sess.wal.frameTooLarge, sess.withWal w') := by
            unfold onWal Proc.zoom
            rw [show WalWriter.appendGroup wops (Session.wal sess) = .pure (.error sess.wal.frameTooLarge, w') from hact]
            rfl
          refine Proc.bind_refused ((Proc.bind_done hw).trans ((Proc.bind_done (lift_done hvalid sess)).trans ?_))
          rw [hempty]
          refine (Proc.bind_done rfl).trans ((Proc.bind_done (lift_done hops sess)).trans ?_)
          exact (Proc.bind_done (lift_done hwops sess)).trans (Proc.bind_refused hzoom)
        · rw [if_pos hfit] at hcheck
          refine .done (Triple.bind ((writeBatch_spec h hro hvalid hempty hops hwrite hfit hroom
            (settles_of_sync hsync rfl _)).mono (fun report sess' t hpost => ?_) (fun c n img hdies => ?_) (fun _ _ _ hf => hf)))
          · obtain ⟨hreport, g', ops', docs', hafter⟩ := hpost
            refine Triple.pure ⟨g', hafter.caughtUp (hsync.imp_right (fun hf => by rw [hf]; rfl)), ?_⟩
            rw [hreport, h.countOp_eq, hafter.holds]
            exact Edit.accepts hcheck _
          · exact ⟨hdies.1, Edit.dies_of_write (fun _ _ => rfl) hdies.2⟩

/-- **Every edit of a collection answers what the map answers**, and leaves a collection that stands for the map. -/
theorem Edit.goes {e : Edit} (hfits : e.Fits env sess) : Edit.Goes env sel sess s G g e := by
  cases e with
  | insert doc => exact Edit.insert_goes h hro hsync hfits
  | upsert doc => exact Edit.upsert_goes h hro hsync hfits
  | delete id => exact Edit.delete_goes h hro hsync hfits
  | writeBatch batch => exact Edit.writeBatch_goes h hro hsync hfits
  | flush => exact Edit.flush_goes h hro hfits
  | compact options => exact Edit.compact_goes h hro hfits

/-- **The end of an edit.** -/
theorem Edit.ends {e : Edit} (hfits : e.Fits env sess) : Ends device (e.act env) sess s (fun r sess' t =>
    ∃ g', After env sel sess sess' s t G G g g' g'.ops g'.docs ∧ e.Answers g.cat sess.wal g.docs r g'.docs) := by
  cases Edit.goes h hro hsync hfits with
  | refused err sess' hrun hafter hanswers =>
    unfold Ends
    rw [hrun]
    exact ⟨g, hafter, hanswers⟩
  | done hspec => exact hspec.ends (fun _ _ _ hq => hq)

end Goes

end Step

end IshaVectorDb.Engine
