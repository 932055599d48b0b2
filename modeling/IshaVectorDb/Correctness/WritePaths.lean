import IshaVectorDb.Correctness.Sessions
import IshaVectorDb.Correctness.Writes
import IshaVectorDb.Interaction.Calls

/-!
# `Correctness.WritePaths` — one document, written **singly or in a batch**

Both paths check the id, the components and the metadata alike, log the same operation and put the same row. They
differ in three checks: a single write asks for the view's declared dimension and for small content, a batch for as
many bytes as the dimension takes. `sameWrites_iff` says for which documents that makes a difference.
-/

namespace IshaVectorDb.Engine

open Format Interaction

variable {α : Type}

/-! ## The writes, and what follows them -/

/-- `Collection::upsert`, with what comes behind the put. -/
def upsertThen (after : Action Session Unit) (env : Env) (doc : DocumentInput) : Action Session UpsertOutcome := do
  checkWritable env "upsert"
  let s ← Proc.get
  Proc.lift (validate s doc)
  applyPut env doc
  after
  return if (s.locate doc.id).isSome then .updated else .inserted

/-- `Collection::write_batch`, with what comes behind the puts. -/
def writeBatchThen (after : Action Session Unit) (env : Env) (batch : WriteBatch) : Action Session BatchReport := do
  checkWritable env "write a batch"
  Proc.lift batch.validate
  if batch.ops.isEmpty then return BatchReport.zero
  else do
    let s ← Proc.get
    Proc.lift (validateOps s batch.ops.length 0 batch.ops)
    let walOps ← Proc.lift (batch.ops.mapM BatchOp.toWal)
    let txn ← onWal (WalWriter.appendGroup walOps)
    Proc.modify (fun s => s.withState (fun c => { c with nextTxnHint := saturatingSucc txn }))
    let memtable ← Proc.lift (batch.ops.foldlM (BatchOp.apply env.invNorm) s.memtable)
    Proc.modify (fun s => s.withMemtable memtable)
    after
    return batch.ops.foldl (BatchReport.countOp s) BatchReport.zero

theorem upsert_eq (env : Env) (doc : DocumentInput) : upsert env doc = upsertThen (maybeFlush env) env doc := rfl

theorem writeBatch_eq (env : Env) (batch : WriteBatch) :
    writeBatch env batch = writeBatchThen (maybeFlush env) env batch := rfl

/-- A write is accepted, and leaves this: it succeeds up to the flush that may follow it. -/
def Takes (write : Action Session Unit → Action Session α) (sess : Session) (s : MemoryStorage) (sess' : Session)
    (t : MemoryStorage) : Prop := ∃ a, (write (return ()) sess).run device s = ((.ok a, sess'), t)

/-- **An open collection can be written to**: the log's file is there and ends where the writer believes it to. -/
structure ReadyToWrite (sess : Session) (s : MemoryStorage) : Prop where
  good : GoodCatalog sess.catalog
  shaped : sess.memtable.Shaped sess.catalog.dimension
  log : LogOpen sess.wal s
  atEnd : sess.wal.bytes = (logBytes s sess.wal.path).length

/-- Between two operations a collection can be written to. -/
theorem State.readyToWrite {env : Env} {sel : Sel} {sess : Session} {s : MemoryStorage} {G D : Str → Option Ghost}
    {g : Ghost} {ops : List LogOp} {docs : DocMap} (h : State env sel sess s G D g ops docs) : ReadyToWrite sess s := by
  obtain ⟨d, hd, hfile, hpath, -, hlen, -⟩ := h.walFile
  have hcat : sess.catalog = g.cat := h.live.mem.catalog
  refine ⟨by rw [hcat]; exact g.good, by rw [hcat]; exact h.live.mem.shaped, ⟨by rw [hpath]; exact hfile, d, ?_⟩, ?_⟩
  · rw [hpath]
    exact hd
  · rw [hpath, logBytes_file hd]
    exact hlen

/-! ## The log -/

/-- **A write to the log** is taken when its frames are small enough, and changes nothing when they are not. -/
theorem LogWrite.run {sess : Session} {s : MemoryStorage} (h : ReadyToWrite sess s) (a : LogWrite) :
    ((∀ f ∈ a.framesOf sess.wal, f.Fits) ∧ ∃ r w t, (onWal a.action sess).run device s = ((.ok r, sess.withWal w), t) ∧
        logBytes t sess.wal.path = logBytes s sess.wal.path ++ framesBytes (a.framesOf sess.wal)) ∨
      (¬ (∀ f ∈ a.framesOf sess.wal, f.Fits) ∧ ∃ e w, (onWal a.action sess).run device s
        = ((.error e, sess.withWal w), s)) := by
  have hzoom : ∀ {r w t}, (a.action sess.wal).run device s = ((r, w), t) →
      (onWal a.action sess).run device s = ((r, sess.withWal w), t) := by
    intro r w t hr
    show ((a.action sess.wal).bind (fun r => .pure (r.1, sess.withWal r.2))).run device s = _
    rw [Prog.run_bind, hr]
    rfl
  by_cases hfits : ∀ f ∈ a.framesOf sess.wal, f.Fits
  · refine .inl ⟨hfits, ?_⟩
    obtain ⟨res, w, t, hrun, -, -, hlog, -, hok⟩ := a.outcome h.log (show (Fault.none : Fault DbError).Survived from trivial)
    obtain ⟨r, rfl⟩ := hok rfl h.atEnd hfits
    rw [Prog.runWith_none] at hrun
    obtain ⟨hres, ht⟩ := Prod.mk.inj hrun
    refine ⟨r, w, t, hzoom (Prod.ext (Option.some.inj hres) ht), ?_⟩
    rw [hlog]
    exact congrArg _ (if_pos hfits)
  · obtain ⟨w, -, -, -, -, ⟨-, hact⟩ | ⟨hall, -⟩⟩ := a.action_cases sess.wal
    · refine .inr ⟨hfits, sess.wal.frameTooLarge, w, hzoom ?_⟩
      rw [hact]
      rfl
    · exact absurd hall hfits

/-! ## What the two paths check -/

section Checks

variable (sess : Session) (doc : DocumentInput)

/-- A document as an operation of a batch. -/
def DocumentInput.toOp : BatchOp := .upsert doc.id doc.vector.toBytes doc.metadata doc.content

/-- The checks that both paths make. -/
structure CommonChecks : Prop where
  id : doc.id.validate sess.catalog.idKind = .ok ()
  finite : doc.vector.checkFinite = .ok ()
  metadata : DocumentInput.checkMetadata doc.metadata = .ok ()

/-- The content is over the documented limit. -/
def LargeContent : Prop := ∃ c ∈ doc.content, Limits.maxContentBytes < c.length

/-- The vector has as many bytes as the collection's dimension takes. -/
def ProperLength : Prop := doc.vector.toBytes.length = VectorDType.f32.rowStride sess.catalog.dimension

end Checks

theorem words32_u32 (w : UInt32) (rest : Bytes) : words32 (Writer.u32 w ++ rest) = w :: words32 rest := by
  have hlen : (Writer.u32 w).length = 4 := Writer.u32_length w
  have hval : UInt32.ofNat (Parsing.leNat (Writer.u32 w)) = w := Parsing.leNat_u32 w
  match hb : Writer.u32 w, hlen with
  | [a, b, c, d], _ =>
    rw [hb] at hval
    show UInt32.ofNat (Parsing.leNat [a, b, c, d]) :: words32 rest = _
    rw [hval]

/-- A vector's stored bytes have its components. -/
theorem words32_toBytes (v : VectorView) : words32 v.toBytes = v.toF32 := by
  cases v with
  | raw dtype bytes dimension => rfl
  | f32 values =>
    show words32 (values.flatMap Writer.u32) = values
    induction values with
    | nil => rfl
    | cons w values ih => rw [List.flatMap_cons, words32_u32, ih]

theorem checkContent_iff {content : Option Bytes} : DocumentInput.checkContent content = .ok () ↔
    ¬ ∃ c ∈ content, Limits.maxContentBytes < c.length := by
  cases content with
  | none =>
    refine ⟨fun _ => ?_, fun _ => rfl⟩
    rintro ⟨c, hc, -⟩
    cases hc
  | some c =>
    unfold DocumentInput.checkContent
    dsimp only
    by_cases hlong : Limits.maxContentBytes < c.length
    · rw [if_pos hlong]
      exact ⟨fun h => (by cases h), fun h => absurd ⟨c, rfl, hlong⟩ h⟩
    · rw [if_neg hlong]
      refine ⟨fun _ => ?_, fun _ => rfl⟩
      rintro ⟨c', hc', hlong'⟩
      exact hlong (Option.mem_some_iff.mp hc' ▸ hlong')

section Paths

variable {sess : Session} {s : MemoryStorage} {doc : DocumentInput} {env : Env}

theorem checkDimension_iff {v : VectorView} {collection : Bytes} {expected : UInt32} :
    v.checkDimension collection expected = .ok () ↔ v.dimension = expected := by
  unfold VectorView.checkDimension
  by_cases hd : v.dimension = expected
  · rw [if_neg (not_not.mpr hd)]
    exact ⟨fun _ => hd, fun _ => rfl⟩
  · rw [if_pos hd]
    exact ⟨fun h => (nomatch h), fun h => absurd h hd⟩

/-- **A single write's checks.** -/
theorem validate_iff : validate sess doc = .ok () ↔
    CommonChecks sess doc ∧ doc.vector.dimension = sess.catalog.dimension ∧ ¬ LargeContent doc := by
  unfold validate DocumentInput.validate VectorView.validate
  constructor
  · intro h
    obtain ⟨⟨⟩, hid, h⟩ := Parsing.except_bind_eq_ok.mp h
    obtain ⟨⟨⟩, hvector, h⟩ := Parsing.except_bind_eq_ok.mp h
    obtain ⟨⟨⟩, hmetadata, hcontent⟩ := Parsing.except_bind_eq_ok.mp h
    obtain ⟨⟨⟩, hdim, hfinite⟩ := Parsing.except_bind_eq_ok.mp hvector
    exact ⟨⟨hid, hfinite, hmetadata⟩, checkDimension_iff.mp hdim, checkContent_iff.mp hcontent⟩
  · rintro ⟨⟨hid, hfinite, hmetadata⟩, hdim, hcontent⟩
    rw [hid, checkDimension_iff.mpr hdim, hfinite, hmetadata, checkContent_iff.mpr hcontent]
    rfl

/-- **A batch's checks on one operation.** -/
theorem validateOp_iff : validateOp sess doc.toOp = .ok () ↔ CommonChecks sess doc ∧ ProperLength sess doc := by
  unfold DocumentInput.toOp validateOp ProperLength VectorView.ofRaw
  dsimp only
  have hraw : (VectorView.raw .f32 doc.vector.toBytes sess.catalog.dimension).checkFinite = doc.vector.checkFinite :=
    congrArg (VectorView.checkFiniteFrom 0) (words32_toBytes doc.vector)
  constructor
  · intro h
    obtain ⟨⟨⟩, hid, h⟩ := Parsing.except_bind_eq_ok.mp h
    obtain ⟨view, hview, h⟩ := Parsing.except_bind_eq_ok.mp h
    obtain ⟨⟨⟩, hvalid, hmetadata⟩ := Parsing.except_bind_eq_ok.mp h
    obtain ⟨⟨⟩, -, hfinite⟩ := Parsing.except_bind_eq_ok.mp hvalid
    split at hview
    · cases hview
    · rename_i hlen
      obtain rfl := Except.ok.inj hview
      exact ⟨⟨hid, hraw ▸ hfinite, hmetadata⟩, not_not.mp hlen⟩
  · rintro ⟨⟨hid, hfinite, hmetadata⟩, hlen⟩
    have hdim : (VectorView.raw .f32 doc.vector.toBytes sess.catalog.dimension).checkDimension sess.name.bytes
        sess.catalog.dimension = .ok () := checkDimension_iff.mpr rfl
    rw [hid, if_neg (not_not.mpr hlen)]
    show (do (VectorView.raw .f32 doc.vector.toBytes sess.catalog.dimension).validate _ _
             DocumentInput.checkMetadata doc.metadata) = _
    unfold VectorView.validate
    rw [hdim, hraw, hfinite, hmetadata]
    rfl

end Paths

/-! ## What each path comes to -/

/-- What a single write hands to the log. -/
def DocumentInput.write (doc : DocumentInput) : Except DbError LogWrite := doc.toOp.toWal.map .single

/-- A document as a batch of one. -/
def DocumentInput.alone (doc : DocumentInput) : WriteBatch := WriteBatch.new.upsert doc

/-- The frames of what is handed to the log are small enough. -/
def FramesFit (sess : Session) (write : Except DbError LogWrite) : Prop :=
  ∀ a, write = .ok a → ∀ f ∈ a.framesOf sess.wal, f.Fits

/-- **A write comes to its end**: it is taken, its frames behind the log and its rows in the memtable, or refused with
    nothing logged and nothing put. -/
def ComesTo (sess : Session) (s : MemoryStorage) (taken : Prop) (write : Except DbError LogWrite) (memtable : Memtable)
    (out : (Except DbError α × Session) × MemoryStorage) : Prop :=
  (taken ∧ ∃ a r sess' t, write = .ok a ∧ out = ((.ok r, sess'), t) ∧ sess'.memtable = memtable ∧
      logBytes t sess.wal.path = logBytes s sess.wal.path ++ framesBytes (a.framesOf sess.wal)) ∨
    (¬ taken ∧ ∃ e sess', out = ((.error e, sess'), s) ∧ sess'.memtable = sess.memtable)

section Outcomes

variable {sess : Session} {s : MemoryStorage} {doc : DocumentInput} {env : Env}

/-- The operation that logs a document which passes the checks. -/
theorem CommonChecks.toWal (h : CommonChecks sess doc) : ∃ md, encodeMetadata doc.metadata = .ok md ∧
    doc.toOp.toWal = .ok (.put doc.id.toBytes doc.vector.toBytes md doc.content) := by
  obtain ⟨md, hmd, -⟩ := encodeMetadata_of_validate h.metadata
  refine ⟨md, hmd, ?_⟩
  show (encodeMetadata doc.metadata >>= fun encoded => _) = _
  rw [hmd]
  rfl

theorem checkWritable_run (hro : env.config.readOnly = false) (operation : String) :
    ((checkWritable env operation : Action Session Unit) sess).run device s = ((.ok (), sess), s) := by
  unfold checkWritable
  rw [hro]
  rfl

theorem lift_run {r : Except DbError α} {a : α} (h : r = .ok a) :
    ((Proc.lift r : Action Session α) sess).run device s = ((.ok a, sess), s) := by
  rw [h]
  rfl

theorem lift_fails {r : Except DbError α} {e : DbError} (h : r = .error e) :
    ((Proc.lift r : Action Session α) sess).run device s = ((.error e, sess), s) := by
  rw [h]
  rfl

theorem get_run : ((Proc.get : Action Session Session) sess).run device s = ((.ok sess, sess), s) := rfl

/-- **An upsert puts what it logged, or refuses with nothing changed.** -/
theorem applyPut_comesTo (h : ReadyToWrite sess s) (hcommon : CommonChecks sess doc)
    (hdim : doc.vector.dimension = sess.catalog.dimension) :
    ComesTo sess s (FramesFit sess doc.write) doc.write (sess.memtable.applyOp env.invNorm (.put doc.id doc.stored))
      ((applyPut env doc sess).run device s) := by
  obtain ⟨md, hmd, hop⟩ := hcommon.toWal
  have hwrite : doc.write = .ok (.single (.put doc.id.toBytes doc.vector.toBytes md doc.content)) := by
    unfold DocumentInput.write
    rw [hop]
    rfl
  unfold applyPut
  rw [Proc.run_bind (lift_run hmd)]
  rcases LogWrite.run h (.single (.put doc.id.toBytes doc.vector.toBytes md doc.content)) with
    ⟨hfits, r, w, t, hrun, hlog⟩ | ⟨hno, e, w, hrun⟩
  all_goals change Prog.run device (onWal (WalWriter.append _) sess) s = _ at hrun
  · refine .inl ⟨fun a ha => ?_, _, (), (sess.withWal w).withMemtable _, t, hwrite, ?_, rfl, hlog⟩
    · rw [hwrite] at ha
      obtain rfl := Except.ok.inj ha
      exact hfits
    have hput : (sess.withWal w).memtable.putView env.invNorm doc.id doc.vector doc.metadata doc.content =
        .ok (sess.memtable.applyOp env.invNorm (.put doc.id doc.stored)) :=
      Memtable.putView_eq h.shaped hdim doc.id doc.metadata doc.content
    rw [Proc.run_bind hrun, Proc.run_bind get_run, Proc.run_bind (lift_run hput)]
    rfl
  · refine .inr ⟨fun hall => hno (hall _ hwrite), e, _, Proc.run_bind_error hrun, rfl⟩

/-- **A single write is taken, or refused with nothing changed.** -/
theorem upsert_comesTo (h : ReadyToWrite sess s) (hro : env.config.readOnly = false) (doc : DocumentInput) :
    ComesTo sess s (validate sess doc = .ok () ∧ FramesFit sess doc.write) doc.write
      (sess.memtable.applyOp env.invNorm (.put doc.id doc.stored))
      ((upsertThen (return ()) env doc sess).run device s) := by
  unfold upsertThen
  rw [Proc.run_bind (checkWritable_run hro _), Proc.run_bind get_run]
  cases hvalid : validate sess doc with
  | error e =>
    exact .inr ⟨fun hc => (nomatch hc.1), e, sess, Proc.run_bind_error (lift_fails rfl), rfl⟩
  | ok u =>
    obtain ⟨hcommon, hdim, -⟩ := validate_iff.mp hvalid
    rw [Proc.run_bind (lift_run rfl)]
    have happlied : ComesTo sess s _ _ _ ((applyPut env doc sess).run device s) := applyPut_comesTo h hcommon hdim
    rcases happlied with
      ⟨hfits, a, r, sess', t, hwrite, hrun, hmem, hlog⟩ | ⟨hno, e, sess', hrun, hmem⟩
    · refine .inl ⟨⟨rfl, hfits⟩, a, if (sess.locate doc.id).isSome then .updated else .inserted, sess', t,
        hwrite, ?_, hmem, hlog⟩
      rw [Proc.run_bind hrun]
      rfl
    · exact .inr ⟨fun hc => hno hc.2, e, sess', Proc.run_bind_error hrun, hmem⟩

/-- **A batch is taken, or refused with nothing changed.** -/
theorem writeBatch_comesTo (h : ReadyToWrite sess s) (hro : env.config.readOnly = false) {batch : WriteBatch}
    (hne : batch.ops.isEmpty = false) :
    ComesTo sess s ((batch.validate = .ok () ∧ validateOps sess batch.ops.length 0 batch.ops = .ok ()) ∧
        FramesFit sess batch.write) batch.write (batch.logged.foldl (Memtable.applyOp env.invNorm) sess.memtable)
      ((writeBatchThen (return ()) env batch sess).run device s) := by
  unfold writeBatchThen
  rw [Proc.run_bind (checkWritable_run hro _), hne]
  cases hvalid : batch.validate with
  | error e => exact .inr ⟨fun hc => (nomatch hc.1.1), e, sess, Proc.run_bind_error (lift_fails rfl), rfl⟩
  | ok u =>
    rw [Proc.run_bind (lift_run rfl)]
    show ComesTo _ _ _ _ _ (Prog.run device ((do
      let s ← Proc.get
      _ : Action Session BatchReport) sess) s)
    rw [Proc.run_bind get_run]
    cases hops : validateOps sess batch.ops.length 0 batch.ops with
    | error e => exact .inr ⟨fun hc => (nomatch hc.1.2), e, sess, Proc.run_bind_error (lift_fails rfl), rfl⟩
    | ok u =>
      have hall := validateOps_ok hops
      obtain ⟨wops, hwops, -⟩ := toWal_of_validateOps rfl hall
      have hwrite : batch.write = .ok (.group wops) := by
        unfold WriteBatch.write
        rw [hwops]
        rfl
      rw [Proc.run_bind (lift_run rfl), Proc.run_bind (lift_run hwops)]
      rcases LogWrite.run h (.group wops) with ⟨hfits, r, w, t, hrun, hlog⟩ | ⟨hno, e, w, hrun⟩
      all_goals change Prog.run device (onWal (WalWriter.appendGroup _) sess) s = _ at hrun
      · refine .inl ⟨⟨⟨rfl, rfl⟩, fun a ha => ?_⟩, _, batch.ops.foldl (BatchReport.countOp sess) BatchReport.zero,
          ((sess.withWal w).withState (fun c => { c with nextTxnHint := saturatingSucc r })).withMemtable _, t, hwrite, ?_,
          rfl, hlog⟩
        · rw [hwrite] at ha
          obtain rfl := Except.ok.inj ha
          exact hfits
        have happly : batch.ops.foldlM (BatchOp.apply env.invNorm) sess.memtable = _ := apply_batch rfl hall h.shaped
        rw [Proc.run_bind hrun]
        show Prog.run device ((Proc.lift (batch.ops.foldlM (BatchOp.apply env.invNorm) sess.memtable) >>= _ :
          Action Session BatchReport) _) t = _
        rw [happly]
        rfl
      · exact .inr ⟨fun hc => hno (hc.2 _ hwrite), e, _, Proc.run_bind_error hrun, rfl⟩

end Outcomes

/-! ## The two paths compared -/

/-- **The two paths do the same with a document**: they accept it or refuse it alike, leave the same rows and log the
    same operation, and a batch that is refused has logged and applied nothing. -/
structure SameWrites (env : Env) (sess : Session) (s : MemoryStorage) (doc : DocumentInput) : Prop where
  accepts : (∃ sess' t, Takes (upsertThen · env doc) sess s sess' t) ↔
    ∃ sess' t, Takes (writeBatchThen · env doc.alone) sess s sess' t
  stored : ∀ sess₁ t₁ sess₂ t₂, Takes (upsertThen · env doc) sess s sess₁ t₁ →
    Takes (writeBatchThen · env doc.alone) sess s sess₂ t₂ → sess₁.memtable = sess₂.memtable ∧ ∃ op,
      logBytes t₁ sess.wal.path = logBytes s sess.wal.path ++ framesBytes ((LogWrite.single op).framesOf sess.wal) ∧
      logBytes t₂ sess.wal.path = logBytes s sess.wal.path ++ framesBytes ((LogWrite.group [op]).framesOf sess.wal)
  refused : ∀ (batch : WriteBatch) e sess' t,
    (writeBatchThen (return ()) env batch sess).run device s = ((.error e, sess'), t) →
      t = s ∧ sess'.memtable = sess.memtable

section Compared

variable {sess : Session} {s : MemoryStorage} {doc : DocumentInput} {env : Env}

theorem ComesTo.takes_iff {taken : Prop} {write : Except DbError LogWrite} {memtable : Memtable}
    {m : Action Session Unit → Action Session α}
    (h : ComesTo sess s taken write memtable ((m (return ()) sess).run device s)) :
    (∃ sess' t, Takes m sess s sess' t) ↔ taken := by
  rcases h with ⟨htaken, a, r, sess', t, -, hrun, -⟩ | ⟨hno, e, sess', hrun, -⟩
  · exact ⟨fun _ => htaken, fun _ => ⟨sess', t, r, hrun⟩⟩
  · refine ⟨fun ⟨_, _, r, hr⟩ => ?_, fun hc => absurd hc hno⟩
    rw [hrun] at hr
    cases hr

theorem ComesTo.taken {taken : Prop} {write : Except DbError LogWrite} {memtable : Memtable}
    {m : Action Session Unit → Action Session α}
    (h : ComesTo sess s taken write memtable ((m (return ()) sess).run device s)) {sess' : Session} {t : MemoryStorage}
    (ht : Takes m sess s sess' t) : sess'.memtable = memtable ∧ ∃ a, write = .ok a ∧
      logBytes t sess.wal.path = logBytes s sess.wal.path ++ framesBytes (a.framesOf sess.wal) := by
  obtain ⟨r, hr⟩ := ht
  rcases h with ⟨-, a, r', sess₁, t₁, hwrite, hrun, hmem, hlog⟩ | ⟨-, e, sess₁, hrun, -⟩
  · rw [hrun] at hr
    cases hr
    exact ⟨hmem, a, hwrite, hlog⟩
  · rw [hrun] at hr
    cases hr

/-- Both paths log the same operation. -/
theorem write_alone {a b : LogWrite} (ha : doc.write = .ok a) (hb : doc.alone.write = .ok b) :
    ∃ op, a = .single op ∧ b = .group [op] := by
  have hwrite : doc.alone.write = doc.toOp.toWal.map (fun op => .group [op]) := by
    show ([doc.toOp].mapM BatchOp.toWal).map LogWrite.group = _
    rw [List.mapM_cons]
    cases doc.toOp.toWal with
    | error e => rfl
    | ok op => rfl
  unfold DocumentInput.write at ha
  rw [hwrite] at hb
  cases hop : doc.toOp.toWal with
  | error e =>
    rw [hop] at ha
    cases ha
  | ok op =>
    rw [hop] at ha hb
    exact ⟨op, (Except.ok.inj ha).symm, (Except.ok.inj hb).symm⟩

/-- A batch of one document passes the checks where the document does. -/
theorem alone_checks : (doc.alone.validate = .ok () ∧ validateOps sess doc.alone.ops.length 0 doc.alone.ops = .ok ()) ↔
    validateOp sess doc.toOp = .ok () := by
  have hfew : ¬ Limits.maxBatchOps < 1 := by decide
  refine ⟨fun h => validateOps_ok h.2 _ (List.mem_singleton.mpr rfl), fun h => ⟨if_neg hfew, ?_⟩⟩
  show validateOps sess 1 0 [doc.toOp] = _
  unfold validateOps
  rw [h]
  rfl

theorem VectorView.wellFormed_of {v : VectorView} {dimension : UInt32} (hdim : v.dimension = dimension)
    (hlen : v.toBytes.length = VectorDType.f32.rowStride dimension) : v.WellFormed := by
  subst hdim
  cases v with
  | raw dtype bytes dimension =>
    cases dtype
    exact hlen
  | f32 values =>
    have hbytes : (values.flatMap Writer.u32).length = 4 * values.length := by
      rw [List.length_flatMap]
      simp [Nat.mul_comm]
    have hcount : 4 * values.length = 4 * (UInt32.ofNat values.length).toNat := by
      rw [← hbytes]
      exact hlen
    have := (UInt32.ofNat values.length).toNat_lt
    show values.length < 2 ^ 32
    omega

/-- A commit record is small. -/
theorem commit_fits (sequence txnId count : UInt64) : WalFrame.Fits ⟨sequence, txnId, .commit count⟩ := by
  have hv : ∀ v, (Writer.varint v).length ≤ 10 := varint_length_le
  have h1 := hv sequence
  have h2 := hv txnId
  have h3 := hv count
  show (Writer.varint sequence ++ (Writer.varint txnId ++ ([(3 : UInt8)] ++ Writer.varint count))).length ≤ maxFrameBody
  simp only [List.length_append, List.length_singleton]
  unfold maxFrameBody
  omega

/-- **A document within every limit is logged on either path.** -/
theorem framesFit_proper (h : ReadyToWrite sess s) (hcommon : CommonChecks sess doc)
    (hdim : doc.vector.dimension = sess.catalog.dimension) (hlen : ProperLength sess doc) (hsmall : ¬ LargeContent doc) :
    FramesFit sess doc.write ∧ FramesFit sess doc.alone.write := by
  have hvalid : doc.validate sess.name.bytes sess.catalog.dimension sess.catalog.idKind = .ok () :=
    validate_iff.mpr ⟨hcommon, hdim, hsmall⟩
  obtain ⟨md, hok⟩ := accepted_of_validate h.good (VectorView.wellFormed_of hdim hlen) hvalid
  have hop : doc.toOp.toWal = .ok (.put doc.id.toBytes doc.vector.toBytes md doc.content) := by
    show (encodeMetadata doc.metadata >>= fun encoded => _) = _
    rw [hok.encodes]
    rfl
  have hsingle : doc.write = .ok (.single (.put doc.id.toBytes doc.vector.toBytes md doc.content)) := by
    unfold DocumentInput.write
    rw [hop]
    rfl
  refine ⟨fun a ha f hf => ?_, fun b hb f hf => ?_⟩
  · rw [hsingle] at ha
    obtain rfl := Except.ok.inj ha
    obtain rfl := List.mem_singleton.mp hf
    exact hok.fits _ _
  · obtain ⟨op, hop', rfl⟩ := write_alone hsingle hb
    obtain rfl := LogWrite.single.inj hop'
    rcases List.mem_append.mp hf with hf | hf
    · obtain rfl := List.mem_singleton.mp hf
      exact hok.fits _ _
    · obtain rfl := List.mem_singleton.mp hf
      exact commit_fits _ _ _

theorem checkWritable_refuses (hro : env.config.readOnly = true) (operation : String) :
    ((checkWritable env operation : Action Session Unit) sess).run device s
      = ((.error (.readOnly operation), sess), s) := by
  unfold checkWritable
  rw [hro]
  rfl

/-- A refused batch changes nothing, in a collection that can be written to. -/
theorem writeBatch_refused (h : ReadyToWrite sess s) {batch : WriteBatch} {e : DbError} {sess' : Session}
    {t : MemoryStorage} (hrun : (writeBatchThen (return ()) env batch sess).run device s = ((.error e, sess'), t)) :
    t = s ∧ sess'.memtable = sess.memtable := by
  cases hro : env.config.readOnly with
  | true =>
    have hrefused : (writeBatchThen (return ()) env batch sess).run device s = _ :=
      Proc.run_bind_error (checkWritable_refuses hro _)
    rw [hrefused] at hrun
    cases hrun
    exact ⟨rfl, rfl⟩
  | false =>
    cases hempty : batch.ops.isEmpty with
    | false =>
      rcases writeBatch_comesTo h hro hempty with ⟨-, a, r, sess₁, t₁, -, hout, -⟩ | ⟨-, e₁, sess₁, hout, hmem⟩
      · rw [hout] at hrun
        cases hrun
      · rw [hout] at hrun
        cases hrun
        exact ⟨rfl, hmem⟩
    | true =>
      -- nothing to do
      unfold writeBatchThen at hrun
      rw [Proc.run_bind (checkWritable_run hro _), hempty] at hrun
      cases hvalid : batch.validate with
      | error e₁ =>
        rw [hvalid, Proc.run_bind_error (lift_fails rfl)] at hrun
        cases hrun
        exact ⟨rfl, rfl⟩
      | ok u =>
        rw [hvalid, Proc.run_bind (lift_run rfl)] at hrun
        cases hrun

/-- When two tests with a part in common agree. -/
theorem agree_iff {declared proper large one two : Prop} (h : declared → proper → ¬ large → one ∧ two) :
    ((declared ∧ ¬ large) ∧ one ↔ proper ∧ two) ↔
      (declared → ¬ proper → large ∨ ¬ one) ∧ (proper → ¬ declared ∨ large → ¬ two) := by
  grind

/-- **The two paths do the same** with a document that one of the common checks refuses, and with one where the
    checks that only one path makes decide nothing. -/
theorem sameWrites_iff (h : ReadyToWrite sess s) (doc : DocumentInput) : SameWrites env sess s doc ↔
    env.config.readOnly = true ∨ ¬ CommonChecks sess doc ∨
      ((doc.vector.dimension = sess.catalog.dimension → ¬ ProperLength sess doc →
          LargeContent doc ∨ ¬ FramesFit sess doc.write) ∧
        (ProperLength sess doc → doc.vector.dimension ≠ sess.catalog.dimension ∨ LargeContent doc →
          ¬ FramesFit sess doc.alone.write)) := by
  cases hro : env.config.readOnly with
  | true =>
    refine ⟨fun _ => .inl rfl, fun _ => ⟨⟨?_, ?_⟩, ?_, fun batch e sess' t => writeBatch_refused h⟩⟩
    · rintro ⟨sess', t, r, hr⟩
      have hrefused : (upsertThen (return ()) env doc sess).run device s = _ :=
        Proc.run_bind_error (checkWritable_refuses hro _)
      rw [hrefused] at hr
      cases hr
    · rintro ⟨sess', t, r, hr⟩
      have hrefused : (writeBatchThen (return ()) env doc.alone sess).run device s = _ :=
        Proc.run_bind_error (checkWritable_refuses hro _)
      rw [hrefused] at hr
      cases hr
    · rintro sess₁ t₁ sess₂ t₂ ⟨r, hr⟩ -
      have hrefused : (upsertThen (return ()) env doc sess).run device s = _ :=
        Proc.run_bind_error (checkWritable_refuses hro _)
      rw [hrefused] at hr
      cases hr
  | false =>
    have hone := upsert_comesTo h hro doc
    have hbatch := writeBatch_comesTo h hro (show doc.alone.ops.isEmpty = false from rfl)
    have hsingly : (∃ sess' t, Takes (upsertThen · env doc) sess s sess' t) ↔ _ := hone.takes_iff
    have hgrouped : (∃ sess' t, Takes (writeBatchThen · env doc.alone) sess s sess' t) ↔ _ := hbatch.takes_iff
    rw [validate_iff] at hsingly
    rw [alone_checks, validateOp_iff] at hgrouped
    have haccepts : SameWrites env sess s doc ↔ ((∃ sess' t, Takes (upsertThen · env doc) sess s sess' t) ↔
        ∃ sess' t, Takes (writeBatchThen · env doc.alone) sess s sess' t) := by
      refine ⟨SameWrites.accepts, fun heq => ⟨heq, ?_, fun batch e sess' t => writeBatch_refused h⟩⟩
      intro sess₁ t₁ sess₂ t₂ h₁ h₂
      obtain ⟨hmem₁, a, ha, hlog₁⟩ := hone.taken h₁
      obtain ⟨hmem₂, b, hb, hlog₂⟩ := hbatch.taken h₂
      obtain ⟨op, rfl, rfl⟩ := write_alone ha hb
      exact ⟨hmem₁.trans hmem₂.symm, op, hlog₁, hlog₂⟩
    rw [haccepts, hsingly, hgrouped]
    -- a document within every limit fits the log on either path; the rest is propositional
    by_cases hcommon : CommonChecks sess doc
    · simp only [hcommon, true_and, not_true, false_or, Bool.false_eq_true]
      exact agree_iff (framesFit_proper h hcommon)
    · simp [hcommon]

end Compared

/-! ## Content over the limit -/

section Example

/-- A new collection of vectors with one component. -/
def someSession : Session :=
  ⟨⟨⟨1, ⟨List.replicate 16 0, rfl⟩, 0, 0, [⟨someName, [], none, 0, 0, 0⟩]⟩, .a⟩, someCatalog, Memtable.new 1 .f32, [], someWriter, 1, 1⟩

theorem someSession_ready : ReadyToWrite someSession someStorage :=
  ⟨⟨rfl, ⟨rfl, by decide⟩, by decide⟩, ⟨rfl, rfl, rfl⟩, ⟨rfl, ⟨[], []⟩, by decide⟩, by decide⟩

/-- A document with a zero vector and so many bytes of content. -/
def docWith (contentLen : Nat) : DocumentInput :=
  ⟨.str ⟨[97], utf8_a⟩, .f32 [0], none, some (List.replicate contentLen 0)⟩

theorem docWith_checks (contentLen : Nat) : CommonChecks someSession (docWith contentLen) :=
  ⟨rfl, rfl, rfl⟩

theorem docWith_fits {contentLen : Nat} (h : contentLen ≤ 2 * 1024 * 1024) :
    FramesFit someSession (docWith contentLen).alone.write := by
  intro a ha f hf
  obtain rfl : LogWrite.group [.put [97] [0, 0, 0, 0] [] (some (List.replicate contentLen 0))] = a :=
    Except.ok.inj ha
  rcases List.mem_append.mp hf with hf | hf
  · obtain rfl := List.mem_singleton.mp hf
    apply put_fits
    show 1 + 4 + 0 + (List.replicate contentLen (0 : UInt8)).length + 64 ≤ maxFrameBody
    rw [List.length_replicate]
    unfold maxFrameBody
    omega
  · obtain rfl := List.mem_singleton.mp hf
    exact commit_fits _ _ _

theorem docWith_large {contentLen : Nat} : LargeContent (docWith contentLen) ↔ Limits.maxContentBytes < contentLen := by
  refine ⟨fun ⟨c, hc, hlong⟩ => ?_, fun h => ⟨_, rfl, by rw [List.length_replicate]; exact h⟩⟩
  obtain rfl := Option.mem_some_iff.mp hc
  rwa [List.length_replicate] at hlong

theorem sameWrites_small : SameWrites someEnv someSession someStorage (docWith 3) :=
  (sameWrites_iff someSession_ready (docWith 3)).mpr (.inr (.inr ⟨fun _ hlen => absurd rfl hlen,
    fun _ hc => absurd (docWith_large.mp (hc.resolve_left (fun hne => hne rfl))) (by decide)⟩))

theorem docWith_refused {contentLen : Nat} (h : Limits.maxContentBytes < contentLen) :
    ¬ ∃ sess' t, Takes (upsertThen · someEnv (docWith contentLen)) someSession someStorage sess' t := by
  intro htakes
  have htaken := (upsert_comesTo someSession_ready rfl (docWith contentLen)).takes_iff.mp htakes
  exact (validate_iff.mp htaken.1).2.2 (docWith_large.mpr h)

theorem docWith_batched {contentLen : Nat} (h : contentLen ≤ 2 * 1024 * 1024) :
    ∃ sess' t, Takes (writeBatchThen · someEnv (docWith contentLen).alone) someSession someStorage sess' t := by
  have hbatch := writeBatch_comesTo someSession_ready (show someEnv.config.readOnly = false from rfl)
    (show (docWith contentLen).alone.ops.isEmpty = false from rfl)
  have hvalid : validateOp someSession (docWith contentLen).toOp = .ok () :=
    validateOp_iff.mpr ⟨docWith_checks contentLen, rfl⟩
  exact hbatch.takes_iff.mpr ⟨alone_checks.mpr hvalid, docWith_fits h⟩

/-- **One byte over the limit of a content**: the batch takes the document, the single write refuses it. -/
theorem large_content_batched : ¬ (∀ (env : Env) (sess : Session) (s : MemoryStorage) (doc : DocumentInput),
      ReadyToWrite sess s → SameWrites env sess s doc) ∧
    (¬ ∃ sess' t, Takes (upsertThen · someEnv (docWith 1048577)) someSession someStorage sess' t) ∧
    ∃ sess' t, Takes (writeBatchThen · someEnv (docWith 1048577).alone) someSession someStorage sess' t := by
  have hrefused := docWith_refused (show Limits.maxContentBytes < 1048577 by decide)
  have htaken := docWith_batched (show 1048577 ≤ 2 * 1024 * 1024 by decide)
  exact ⟨fun hall => hrefused ((hall _ _ _ _ someSession_ready).accepts.mpr htaken), hrefused, htaken⟩

end Example

end IshaVectorDb.Engine
