import IshaVectorDb.Correctness.Batches
import IshaVectorDb.Correctness.Compaction

/-!
# `Correctness.Writes` — the **writes**, call by call

A document that passes the checks can be stored and framed (`accepted_of_validate`). Logging writes and applying them to the
memtable leaves a state again, in which the process's log has grown and the durable one with it when the log was synced
(`State.logged`); an automatic flush may follow (`maybeFlush_spec`).
-/

namespace IshaVectorDb.Engine

open Format Interaction KeyLog

/-! ## Documents that pass the checks -/

section Checks

variable {cat : Catalog}

/-- Metadata that encodes and content of a sensible length make a record. -/
theorem record_writable {md : Option Metadata} {bs : Bytes} (h : encodeMetadata md = .ok bs) {content : Option Bytes}
    (hc : ∀ c ∈ content, c.length < 2 ^ 31) : MetaRecord.Writable ⟨md.map Metadata.toValue, content⟩ := by
  have hcontent : (content.elim [] Writer.blob).length ≤ 10 + 2 ^ 31 := by
    cases content with
    | none => exact Nat.zero_le _
    | some c =>
      show (Writer.blob c).length ≤ _
      have := hc c rfl
      have := varint_length_le (UInt64.ofNat c.length)
      rw [Writer.blob_length]; omega
  cases md with
  | none =>
    refine ⟨fun v hv => (Option.not_mem_none _ hv).elim,
      MetaRecord.flagByte ⟨none, content⟩ :: content.elim [] Writer.blob, rfl, ?_⟩
    rw [List.length_cons]; omega
  | some m =>
    have he : m.encode = .ok bs := h
    have hlen := Metadata.length_le_of_encode he
    have henc := Metadata.encode_eq_ok he
    refine ⟨fun v hv => by obtain rfl := Option.mem_some_iff.mp hv; exact m.sorted, ?_⟩
    refine ⟨MetaRecord.flagByte ⟨some m.toValue, content⟩ :: (Writer.blob bs ++ content.elim [] Writer.blob), ?_, ?_⟩
    · show (m.toValue.encode.map Writer.blob >>= fun metadata =>
        pure (MetaRecord.flagByte ⟨some m.toValue, content⟩ :: (metadata ++ content.elim [] Writer.blob))) = _
      rw [henc]; rfl
    · have := varint_length_le (UInt64.ofNat bs.length)
      unfold Limits.maxMetadataBytes at hlen
      rw [List.length_cons, List.length_append, Writer.blob_length]; omega

/-- A frame is small when what it carries is. -/
theorem put_fits {id vector metadata : Bytes} {content : Option Bytes} (sequence txnId : UInt64)
    (h : id.length + vector.length + metadata.length + (content.elim 0 List.length) + 64 ≤ maxFrameBody) :
    WalFrame.Fits ⟨sequence, txnId, .put id vector metadata content⟩ := by
  have hv : ∀ v, (Writer.varint v).length ≤ 10 := varint_length_le
  have h1 := hv sequence
  have h2 := hv txnId
  have h3 := hv (UInt64.ofNat id.length)
  have h4 := hv (UInt64.ofNat vector.length)
  have h5 := hv (UInt64.ofNat metadata.length)
  have hcontent : (WalOp.contentBytes content).length ≤ 11 + content.elim 0 List.length := by
    cases content with
    | none => exact (by decide : 1 ≤ 11)
    | some c =>
      show ([1] ++ Writer.blob c).length ≤ 11 + c.length
      have := hv (UInt64.ofNat c.length)
      rw [List.length_append, Writer.blob_length, List.length_singleton]; omega
  show (Writer.varint sequence ++ (Writer.varint txnId ++ ([(1 : UInt8)] ++ (Writer.blob id ++ (Writer.blob vector ++
    (Writer.blob metadata ++ WalOp.contentBytes content)))))).length ≤ maxFrameBody
  simp only [List.length_append, Writer.blob_length, List.length_singleton]
  omega

theorem delete_fits {id : Bytes} (sequence txnId : UInt64) (h : id.length + 64 ≤ maxFrameBody) :
    WalFrame.Fits ⟨sequence, txnId, .delete id⟩ := by
  have hv : ∀ v, (Writer.varint v).length ≤ 10 := varint_length_le
  have h1 := hv sequence
  have h2 := hv txnId
  have h3 := hv (UInt64.ofNat id.length)
  show (Writer.varint sequence ++ (Writer.varint txnId ++ ([(2 : UInt8)] ++ Writer.blob id))).length ≤ maxFrameBody
  simp only [List.length_append, Writer.blob_length, List.length_singleton]
  omega

/-- A document as the collection keeps it. -/
def DocumentInput.stored (doc : DocumentInput) : Doc := ⟨doc.vector.toBytes, doc.metadata, doc.content⟩

/-- What the checks on a document establish. -/
structure Accepted (cat : Catalog) (doc : DocumentInput) (metadata : Bytes) : Prop where
  dimension : doc.vector.dimension = cat.dimension
  encodes : encodeMetadata doc.metadata = .ok metadata
  ok : DocOk cat doc.id doc.stored
  fits : ∀ sequence txnId, WalFrame.Fits ⟨sequence, txnId, .put doc.id.toBytes doc.vector.toBytes metadata doc.content⟩

theorem encodeMetadata_of_validate {md : Option Metadata} (h : DocumentInput.checkMetadata md = .ok ()) :
    ∃ bs, encodeMetadata md = .ok bs ∧ bs.length ≤ Limits.maxMetadataBytes := by
  cases md with
  | none => exact ⟨[], rfl, Nat.zero_le _⟩
  | some m =>
    have hv : m.validate = .ok () := h
    cases he : m.toValue.encode with
    | error e =>
      exfalso
      unfold Metadata.validate at hv
      rw [he] at hv
      split at hv <;> cases hv
    | ok bs =>
      have henc : m.encode = .ok bs := by
        unfold Metadata.encode
        rw [hv, he]; rfl
      exact ⟨bs, henc, Metadata.length_le_of_encode henc⟩

/-- **A document that passes the checks can be stored and logged.** -/
theorem accepted_of_validate (hcat : GoodCatalog cat) {doc : DocumentInput} {collection : Bytes}
    (hview : doc.vector.WellFormed) (h : doc.validate collection cat.dimension cat.idKind = .ok ()) :
    ∃ metadata, Accepted cat doc metadata := by
  obtain ⟨⟨⟩, hid, h⟩ := Parsing.except_bind_eq_ok.mp h
  obtain ⟨⟨⟩, hvector, h⟩ := Parsing.except_bind_eq_ok.mp h
  obtain ⟨⟨⟩, hmetadata, hcontent⟩ := Parsing.except_bind_eq_ok.mp h
  have hdim : doc.vector.dimension = cat.dimension := by
    obtain ⟨⟨⟩, hd, -⟩ := Parsing.except_bind_eq_ok.mp hvector
    unfold VectorView.checkDimension at hd
    split at hd
    · cases hd
    · rename_i hne; exact not_not.mp hne
  have hlen : ∀ c ∈ doc.content, c.length ≤ Limits.maxContentBytes := fun c hc => by
    have hc : doc.content = some c := hc
    rw [hc] at hcontent
    have hcheck : (if Limits.maxContentBytes < c.length then
        (.error (.validation (.metadataTooLarge contentLabel c.length Limits.maxContentBytes)) : Except DbError Unit)
      else .ok ()) = .ok () := hcontent
    split at hcheck
    · cases hcheck
    · omega
  obtain ⟨md, hmd, hmdlen⟩ := encodeMetadata_of_validate hmetadata
  have hidlen := DocId.toBytes_lt_of_validate hid
  have hvec : doc.vector.toBytes.length = cat.rowStride := by
    rw [VectorView.toBytes_length hview, hdim, rowStride_eq]
  unfold Limits.maxDocIdLen at hidlen
  unfold Limits.maxContentBytes at hlen
  unfold Limits.maxMetadataBytes at hmdlen
  refine ⟨md, hdim, hmd, ⟨DocId.ofKind_of_validate hid, by omega, hvec, ?_⟩, fun sequence txnId => put_fits _ _ ?_⟩
  · exact record_writable hmd (fun c hc => by have := hlen c hc; omega)
  · have hstride := hcat.stride_lt
    have hc : doc.content.elim 0 List.length ≤ 1024 * 1024 := by
      cases hcont : doc.content with
      | none => exact Nat.zero_le _
      | some c => exact hlen c hcont
    unfold maxFrameBody
    omega

end Checks

/-! ## The state after writes -/

/-- The collection after more writes. -/
def Ghost.logged (g : Ghost) (more : List LogOp) : Ghost := g.withLog (g.ops ++ more) (replay g.docs more)

/-- **What a view holds of the log after an append**: what it held before when it is the durable one and the log was not
    synced, all of it otherwise. -/
inductive Views (sel : Sel) (synced : Bool) (ops : List LogOp) (docs : DocMap) (g' : Ghost) : List LogOp → DocMap → Prop
  | lags (hsel : sel = .durable) (hsync : synced = false) : Views sel synced ops docs g' ops docs
  | follows (h : sel = .live ∨ synced = true) : Views sel synced ops docs g' g'.ops g'.docs

/-- **What an append that got to its end leaves**: the log's file grown, and the writer at its end. -/
structure Written (env : Env) (s : MemoryStorage) (g : Ghost) (more : List LogOp) (synced : Bool) (w : WalWriter)
    (t : MemoryStorage) : Prop where
  file : w.file = ⟨.walFile g.name 1, true⟩
  path : w.path = .walFile g.name 1
  durability : w.durability = env.config.durability
  landed : ∃ d bytes, s.get (.walFile g.name 1) = some (.file d) ∧ LogHolds g.cat (d.live ++ bytes) (g.ops ++ more) ∧
    t = s.put (.walFile g.name 1) (.file (loggedData d bytes synced)) ∧ w.bytes = (d.live ++ bytes).length

/-- The session after writes were logged and applied. -/
structure Logged (invNorm : InvNorm) (sess sess' : Session) (g : Ghost) (more : List LogOp) (w : WalWriter) : Prop where
  store : sess'.store = sess.store
  catalog : sess'.coll.catalog = sess.coll.catalog
  segments : sess'.segments = sess.segments
  next : sess'.nextSegmentId = sess.nextSegmentId
  memtable : sess'.memtable = Memtable.ofOps invNorm g.cat.dimension (g.ops ++ more)
  wal : sess'.wal = w

section Logging

variable {env : Env} {sel : Sel} {sess : Session} {s : MemoryStorage} {G D : Str → Option Ghost} {g : Ghost}
  {ops : List LogOp} {docs : DocMap} {more : List LogOp}

/-- Under every manifest that the view might adopt, the segments stand for the documents with the whole log. -/
theorem State.names_live (h : State env sel sess s G D g ops docs) {m : Manifest} (hm : Candidate (s.image sel) sess.store m)
    {e : CollectionEntry} (he : e ∈ m.collections) (hname : e.name = g.name) : Names g.pool g.ops g.docs e.segments := by
  obtain ⟨rest, hrest⟩ := h.seen.lag
  have hentry := (h.seen.disk.entryInv (g := g.withLog ops docs) h.seen.there hm he hname).names.append rest
  have hlist := (h.seen.names.append rest).docs
  rw [hrest, h.live.seen.names.docs] at hlist
  have hentry : Names g.pool (ops ++ rest) (replay docs rest) e.segments := hentry
  rw [hrest, ← hlist] at hentry
  exact hentry

/-- **The view with the whole log and more.** -/
theorem State.caughtUp (h : State env sel sess s G D g ops docs) {bytes : Bytes}
    (hlog : LogHolds g.cat bytes (g.ops ++ more)) (hfew : (g.ops ++ more).countP Op.isPut ≤ 2 ^ 32) :
    DiskInv (Function.update (s.image sel) (.walFile g.name 1) (some bytes)) sess.store
      (Function.update D g.name (some (g.logged more))) :=
  h.seen.disk.relog (g := g.withLog ops docs) h.seen.there hlog hfew
    (fun _ hm _ he hname => (h.names_live hm he hname).append more)

/-- **Writes that were logged and applied leave a state.** -/
theorem State.logged (h : State env sel sess s G D g ops docs) {synced : Bool} {w : WalWriter} {t : MemoryStorage}
    (hw : Written env s g more synced w t) (hfew : (g.ops ++ more).countP Op.isPut ≤ 2 ^ 32) {sess' : Session}
    (hs : Logged env.invNorm sess sess' g more w) :
    ∃ ops' docs', Views sel synced ops docs (g.logged more) ops' docs' ∧
      After env sel sess sess' s t G D g (g.logged more) ops' docs' := by
  obtain ⟨hfile, hpath, hdur, d, bytes, hd, hlog, rfl, hlen⟩ := hw
  set t := s.put (.walFile g.name 1) (.file (loggedData d bytes synced)) with ht
  have hshape : Shape t := h.shape.put_file rfl (h.shape.nested _ _ hd) _
  have himg : ∀ sel, t.image sel = Function.update (s.image sel) (.walFile g.name 1) (some (sel.of (loggedData d bytes synced))) :=
    fun sel => MemoryStorage.image_put_file s _ _ sel
  have hself : ∀ (F : Str → Option Ghost) (a : Ghost), Function.update F g.name (some a) g.name = some a :=
    fun F a => Function.update_self _ _ _
  obtain ⟨segs, hsegs, hlist⟩ := h.live.mem.segments
  have hlist' : SegList (g.logged more) segs := ⟨hlist.pooled, hlist.ascending, hlist.names.append more⟩
  have hopened : sess'.segments = segs.map Seg.data := hs.segments.trans hsegs
  have hwal : sess'.coll.state.wal = w := hs.wal
  have hlive : LiveInv env.invNorm env.config.durability sess' (t.image .live)
      (Function.update G g.name (some (g.logged more))) (g.logged more) := by
    refine ⟨?_, hself G _, ⟨hs.catalog.trans h.live.mem.catalog, hs.memtable, hfew, hlog.ok, ⟨segs, hopened, hlist'⟩,
      ?_, ?_⟩⟩
    · rw [himg, hs.store]
      exact h.live.disk.relog h.live.here hlog hfew
        (fun m hm e he hname => (h.live.disk.entryInv h.live.here hm he hname).names.append more)
    · rw [hwal]
      refine ⟨hfile, hpath, hdur, d.live ++ bytes, ?_, hlen⟩
      rw [himg]; exact Function.update_self _ _ _
    · exact (congrArg UInt64.toNat hs.next).trans h.live.mem.next
  have hothers : ∀ name, name ≠ g.name → t.image .live (.walFile name 1) = s.image .live (.walFile name 1) := fun name hn => by
    rw [himg, Function.update_of_ne (fun he => hn (DbPath.walFile.inj he).1)]
  have hnames : ∀ {o c}, Names g.pool o c (sess.segments.map SegmentData.ref) →
      Names g.pool o c (sess'.segments.map SegmentData.ref) := fun hn => by rw [hs.segments]; exact hn
  have hfollows : sel = .live ∨ synced = true → SeenInv sess' (t.image sel)
      (Function.update D g.name (some ((g.logged more).withLog (g.logged more).ops (g.logged more).docs))) (g.logged more)
      (g.logged more).ops (g.logged more).docs := fun hv => by
    refine ⟨?_, hself D _, List.prefix_refl _, hnames (h.live.seen.names.append more)⟩
    have hof : sel.of (loggedData d bytes synced) = d.live ++ bytes := by
      rcases hv with rfl | rfl
      · rfl
      · cases sel <;> rfl
    rw [himg, hof, hs.store]
    exact h.caughtUp hlog hfew
  have hsteady : Steady sel sess.store s → Steady sel sess'.store (s.put (.walFile g.name 1) (.file (loggedData d bytes synced))) :=
    fun h0 => by
      rw [hs.store]
      exact h0.congr (fun view => by rw [MemoryStorage.image_put_file, Function.update_of_ne DbPath.noConfusion])
  by_cases hv : sel = .live ∨ synced = true
  · exact ⟨_, _, .follows hv, ⟨hshape, hlive, hfollows hv⟩, rfl, hothers, hsteady⟩
  · -- the durable view of an unsynced append is the one before it
    have hsel : sel = .durable := by
      cases sel with
      | live => exact absurd (.inl rfl) hv
      | durable => rfl
    have hsync : synced = false := by
      cases synced with
      | true => exact absurd (.inr rfl) hv
      | false => rfl
    refine ⟨ops, docs, .lags hsel hsync, ⟨hshape, hlive, ?_, hself D _, ?_, hnames h.seen.names⟩, rfl, hothers, hsteady⟩
    · subst hsel hsync
      rw [himg, hs.store]
      show DiskInv (Function.update (s.image .durable) _ (some d.durable)) _ (Function.update D g.name (some (g.withLog ops docs)))
      rw [Function.update_eq_self_iff.mpr (MemoryStorage.image_file hd .durable).symm,
        Function.update_eq_self_iff.mpr h.seen.there.symm]
      exact h.seen.disk
    · exact h.seen.lag.trans (List.prefix_append _ _)

/-! ## Logging -/

/-- **What a death inside a write leaves**: unless it tears the log that the process sees, the documents before the write
    or those after it. -/
def WriteDies (sel : Sel) (D : Str → Option Ghost) (name : Str) (docs : DocMap) (c : Call) (n : Nat) (img : Image) : Prop :=
  (sel = .live → ¬ c.Tears n) → RecoversEither img (docsOf D) name docs

/-- The log's file and what the writer knows of it. -/
theorem State.walFile (h : State env sel sess s G D g ops docs) :
    ∃ d, s.get (.walFile g.name 1) = some (.file d) ∧ sess.wal.file = ⟨.walFile g.name 1, true⟩ ∧
      sess.wal.path = .walFile g.name 1 ∧ sess.wal.durability = env.config.durability ∧ sess.wal.bytes = d.live.length ∧
      LogHolds g.cat d.live g.ops := by
  obtain ⟨hfile, hpath, hdur, bytes, hbytes, hlen⟩ := h.live.mem.wal
  obtain ⟨d, hd, hof⟩ := MemoryStorage.file_of_image hbytes
  obtain rfl : d.live = bytes := hof
  refine ⟨d, hd, hfile, hpath, hdur, hlen, ?_⟩
  have hlog := (h.live.disk.collDisk h.live.here).log
  unfold Image.log at hlog
  rw [hbytes] at hlog
  exact hlog

/-- The operations record the writes. -/
def Recorded (cat : Catalog) (wops : List WalOp) (more : List LogOp) : Prop :=
  List.Forall₂ (fun wop op => ∀ sequence txnId, Records cat ⟨sequence, txnId, wop⟩ op) wops more

theorem recorded_frames {cat : Catalog} {wops : List WalOp} {more : List LogOp} (h : Recorded cat wops more)
    (sequence txnId : UInt64) : List.Forall₂ (Records cat) (WalWriter.groupFrames sequence txnId wops) more := by
  induction h generalizing sequence with
  | nil => exact .nil
  | cons hop _ ih => exact .cons (hop _ _) (ih (sequence + 1))

/-- **The log after a write** holds what the write records. -/
theorem LogHolds.write {cat : Catalog} {bytes : Bytes} {ops : List LogOp} (h : LogHolds cat bytes ops) {a : LogWrite}
    {sequence txnId : UInt64} (hfits : ∀ f ∈ a.frames sequence txnId, f.Fits) {more : List LogOp}
    (hrec : Recorded cat a.ops more) : LogHolds cat (bytes ++ framesBytes (a.frames sequence txnId)) (ops ++ more) := by
  cases a with
  | single wop =>
    have hfit : (WalFrame.standalone sequence wop).Fits := hfits _ (List.mem_singleton.mpr rfl)
    obtain ⟨op, rest, hop, hrest, rfl⟩ := List.forall₂_cons_left_iff.mp hrec
    obtain rfl := List.forall₂_nil_left_iff.mp hrest
    have hb : framesBytes ((LogWrite.single wop).frames sequence txnId) = (WalFrame.standalone sequence wop).bytes :=
      List.append_nil _
    rw [hb]
    exact h.append hfit rfl (hop _ _)
  | group wops => exact h.appendGroup hfits (fun seq => recorded_frames hrec seq txnId)

/-- **A write is logged.** -/
theorem logWrite_spec (h : State env sel sess s G D g ops docs) {a : LogWrite} (hfits : ∀ f ∈ a.framesOf sess.wal, f.Fits)
    (hrec : Recorded g.cat a.ops more) (hfew : (g.ops ++ more).countP Op.isPut ≤ 2 ^ 32)
    {Q : UInt64 → Session → MemoryStorage → Prop} {K : Call → Nat → Image → Prop} {F : Call → Session → Image → Prop}
    (hQ : ∀ r w t, Written env s g more (a.syncs env.config.durability) w t → Q r (sess.withWal w) t)
    (hK : ∀ c n img, WriteDies sel D g.name (g.logged more).docs c n img → K c n img) (hF : ∀ c x img, F c x img) :
    Spec sel (onWal a.action) sess s Q K F := by
  obtain ⟨d, hd, hfile, hpath, hdur, hlen, hlog⟩ := h.walFile
  have hgrown := hlog.write hfits hrec
  obtain ⟨w', hfile', hpath', hlen', hdur', hcase⟩ := a.action_cases sess.wal
  rcases hcase with ⟨hno, -⟩ | ⟨-, next, r, hact⟩
  · exact absurd hfits hno
  rw [hpath] at hpath'
  refine Triple.zoom (Triple.of_eq hact ?_)
  refine appendBytes_spec (d := d) h.shape (by rw [hfile', hfile, hpath']) (by rw [hpath']; exact hd) (by rw [hlen', hlen]) ?_
    (fun c n => hK c n _ (fun _ => .inl h.seen.disk.recovers)) (fun c n => hK c n _ (fun _ => .inr ?_))
    (fun hl c n k ht => hK c n _ (fun hno => absurd ht (hno hl))) (fun c x img => hF _ _ _)
  · rw [hdur, hpath']
    refine hQ r _ _ ⟨hfile'.trans hfile, hpath', hdur'.trans hdur, d, _, hd, hgrown, rfl, ?_⟩
    show w'.bytes + _ = _
    rw [List.length_append, hlen', hlen]
    rfl
  · have hdisk := (h.caughtUp hgrown hfew).recovers
    rw [show (fun name => (Function.update D g.name (some (g.logged more)) name).map Ghost.docs) =
      docsOf (Function.update D g.name (some (g.logged more))) from rfl, docsOf_update] at hdisk
    rw [hpath']; exact hdisk

end Logging

/-! ## The whole of a write -/

/-- The memtable after more writes. -/
def Session.grown (invNorm : InvNorm) (sess : Session) (more : List LogOp) : Memtable :=
  more.foldl (Memtable.applyOp invNorm) sess.memtable

/-- The writes make the memtable large enough for a flush. -/
def Overflows (env : Env) (sess : Session) (more : List LogOp) : Prop :=
  env.config.flushThresholdBytes ≤ (sess.grown env.invNorm more).byteSize

instance (env : Env) (sess : Session) (more : List LogOp) : Decidable (Overflows env sess more) :=
  inferInstanceAs (Decidable (_ ≤ _))

/-- **Writes have room**: the rows of the memtable can be numbered, and a flush that follows has room. -/
structure WriteRoom (env : Env) (sess : Session) (more : List LogOp) : Prop where
  rows : (sess.grown env.invNorm more).rows.length ≤ 2 ^ 32
  flush : Overflows env sess more → Room sess (sess.grown env.invNorm more)

/-- **What a write leaves**: the documents with its writes. When no flush followed, its writes are pending, and a view
    that missed them is the durable one of an unsynced log; behind a flush nothing is pending. -/
structure AfterWrite (env : Env) (sel : Sel) (synced : Bool) (sess : Session) (s : MemoryStorage) (G D : Str → Option Ghost)
    (g : Ghost) (ops : List LogOp) (docs : DocMap) (more : List LogOp) (sess' : Session) (t : MemoryStorage) (g' : Ghost)
    (ops' : List LogOp) (docs' : DocMap) : Prop where
  after : After env sel sess sess' s t G D g g' ops' docs'
  holds : g'.docs = replay g.docs more
  flushed : Overflows env sess more → g'.ops = [] ∧ ops' = [] ∧ docs' = g'.docs
  pending : ¬ Overflows env sess more → g'.ops = g.ops ++ more ∧
    (sel = .durable ∧ synced = false ∧ ops' = ops ∧ docs' = docs ∨ ops' = g'.ops ∧ docs' = g'.docs)

theorem After.trans {env : Env} {sel : Sel} {sess sess' sess'' : Session} {s t u : MemoryStorage} {G D : Str → Option Ghost}
    {g g1 g2 : Ghost} {ops1 ops2 : List LogOp} {docs1 docs2 : DocMap} (h : After env sel sess sess' s t G D g g1 ops1 docs1)
    (h' : After env sel sess' sess'' t u (Function.update G g.name (some g1)) (Function.update D g.name (some (g1.withLog ops1 docs1)))
      g1 g2 ops2 docs2) : After env sel sess sess'' s u G D g g2 ops2 docs2 := by
  have hname : g1.name = g.name := congrArg Catalog.name h.cat
  obtain ⟨hstate, hcat, hothers, hsteady⟩ := h'
  rw [hname, Function.update_idem, Function.update_idem] at hstate
  refine ⟨hstate, hcat.trans h.cat, fun name hn => ?_, fun h0 => hsteady (h.steady h0)⟩
  rw [hothers name (by rw [hname]; exact hn)]
  exact h.others name hn

section Writing

variable {env : Env} {sel : Sel} {sess : Session} {s : MemoryStorage} {G D : Str → Option Ghost} {g : Ghost}
  {ops : List LogOp} {docs : DocMap} {more : List LogOp}

theorem State.grown_eq (h : State env sel sess s G D g ops docs) (more : List LogOp) :
    sess.grown env.invNorm more = Memtable.ofOps env.invNorm g.cat.dimension (g.ops ++ more) := by
  have hm : sess.memtable = Memtable.ofOps env.invNorm g.cat.dimension g.ops := h.live.mem.memtable
  unfold Session.grown
  rw [hm]
  unfold Memtable.ofOps
  rw [List.foldl_append]

theorem WriteRoom.few (h : WriteRoom env sess more) (hs : State env sel sess s G D g ops docs) :
    (g.ops ++ more).countP Op.isPut ≤ 2 ^ 32 := by
  have hrows := h.rows
  rwa [hs.grown_eq, Memtable.rows_length_ofOps] at hrows

/-- The session whose log and memtable took the writes over. -/
def Applied (env : Env) (sess : Session) (more : List LogOp) (w : WalWriter) (sess' : Session) : Prop :=
  ∃ hint, sess' = ((sess.withWal w).withState (fun c => { c with nextTxnHint := hint })).withMemtable
    (sess.grown env.invNorm more)

/-- **From the log to the end of a write**: the memtable took the writes over, and a flush may follow. -/
theorem maybeFlush_spec (h : State env sel sess s G D g ops docs) (hroom : WriteRoom env sess more) {synced : Bool}
    (hset : Overflows env sess more → sel = .durable → synced = false → Settled (g.logged more) ops docs) {w : WalWriter}
    {t : MemoryStorage} (hw : Written env s g more synced w t) {sess' : Session}
    (hsess : Applied env sess more w sess') {Q : Unit → Session → MemoryStorage → Prop} {K : Call → Nat → Image → Prop}
    (hQ : ∀ sess'' t' g' ops' docs', AfterWrite env sel synced sess s G D g ops docs more sess'' t' g' ops' docs' → Q () sess'' t')
    (hK : ∀ c n img, WriteDies sel D g.name (replay g.docs more) c n img → K c n img) :
    Spec sel (maybeFlush env) sess' t Q K (fun _ _ _ => True) := by
  have hgrown := h.grown_eq more
  have hmem : sess'.memtable = sess.grown env.invNorm more := by obtain ⟨hint, rfl⟩ := hsess; rfl
  have hlogged : Logged env.invNorm sess sess' g more w := by
    obtain ⟨hint, rfl⟩ := hsess
    exact ⟨rfl, rfl, rfl, rfl, hgrown, rfl⟩
  obtain ⟨ops1, docs1, hview, hafter⟩ := h.logged hw (hroom.few h) hlogged
  unfold maybeFlush
  refine Triple.bind (Triple.get ?_)
  by_cases hover : Overflows env sess more
  · have hover' : env.config.flushThresholdBytes ≤ sess'.memtable.byteSize := by rw [hmem]; exact hover
    rw [if_pos hover']
    have hroom' : Room sess' sess'.memtable := by
      rw [hmem]
      obtain ⟨⟨h1, h2, h3, h4⟩, h5, h6⟩ := hroom.flush hover
      obtain ⟨hint, rfl⟩ := hsess
      exact ⟨⟨h1, h2, h3, h4⟩, h5, h6⟩
    have hsettled : Settled (g.logged more) ops1 docs1 := by
      cases hview with
      | lags hsel hsync => exact hset hover hsel hsync
      | follows => exact hafter.state.live.settled
    refine (doFlush_spec hafter.state hsettled (fun _ => hroom')).mono (fun _ sess'' t' hflush => ?_) (fun c n img hdies => ?_)
      (fun _ _ _ hf => ⟨hf.1, trivial⟩)
    · obtain ⟨g', hops, hdocs, ha⟩ := hflush
      have hdocs' : g'.docs = replay g.docs more := hdocs
      exact hQ sess'' t' g' [] (g.logged more).docs ⟨hafter.trans ha, hdocs', fun _ => ⟨hops, rfl, hdocs.symm⟩,
        fun hno => absurd hover hno⟩
    · refine ⟨hdies.1, hK c n _ (fun htear => ?_)⟩
      have hdies := hdies.2 (fun hl htb => htear hl htb.1)
      rw [docsOf_update] at hdies
      have hD : docsOf D g.name = some docs := by unfold docsOf; rw [h.seen.there]; rfl
      have hname : (g.logged more).name = g.name := rfl
      have hlogdocs : (g.logged more).docs = replay g.docs more := rfl
      rw [hname, hlogdocs] at hdies
      unfold RecoversEither at hdies ⊢
      rw [Function.update_idem] at hdies
      refine hdies.elim (fun hr => ?_) .inr
      cases hview with
      | lags =>
        have hsame : Function.update (docsOf D) g.name (some docs) = docsOf D := by
          rw [← hD]; exact Function.update_eq_self _ _
        rw [show ((g.logged more).withLog ops docs).docs = docs from rfl, hsame] at hr
        exact .inl hr
      | follows => exact .inr hr
  · have hover' : ¬ env.config.flushThresholdBytes ≤ sess'.memtable.byteSize := by rw [hmem]; exact hover
    rw [if_neg hover']
    refine Triple.pure (hQ sess' t (g.logged more) ops1 docs1 ⟨hafter, rfl, fun hyes => absurd hyes hover,
      fun _ => ⟨rfl, ?_⟩⟩)
    cases hview with
    | lags hsel hsync => exact .inl ⟨hsel, hsync, rfl, rfl⟩
    | follows => exact .inr ⟨rfl, rfl⟩

/-- **An accepted document is logged and put.** -/
theorem applyPut_spec (h : State env sel sess s G D g ops docs) {doc : DocumentInput} {md : Bytes}
    (hdoc : Accepted g.cat doc md) (hroom : WriteRoom env sess [.put doc.id doc.stored])
    {Q : Unit → Session → MemoryStorage → Prop} {K : Call → Nat → Image → Prop} {F : Call → Session → Image → Prop}
    (hQ : ∀ w t sess', Written env s g [.put doc.id doc.stored] env.config.durability.syncsEveryWrite w t →
      Applied env sess [.put doc.id doc.stored] w sess' → Q () sess' t)
    (hK : ∀ c n img, WriteDies sel D g.name (replay g.docs [.put doc.id doc.stored]) c n img → K c n img)
    (hF : ∀ c x img, F c x img) : Spec sel (applyPut env doc) sess s Q K F := by
  have hrec : Recorded g.cat [.put doc.id.toBytes doc.vector.toBytes md doc.content] [.put doc.id doc.stored] :=
    .cons (fun _ _ => ⟨hdoc.ok, md, hdoc.encodes, rfl⟩) .nil
  have hput : sess.memtable.putView env.invNorm doc.id doc.vector doc.metadata doc.content =
      .ok (sess.memtable.applyOp env.invNorm (.put doc.id ⟨doc.vector.toBytes, doc.metadata, doc.content⟩)) :=
    Memtable.putView_eq h.live.mem.shaped hdoc.dimension doc.id doc.metadata doc.content
  unfold applyPut
  refine Triple.bind (Triple.lift hdoc.encodes (Triple.bind ?_))
  refine logWrite_spec (a := .single _) h (fun f hf => ?_) hrec (hroom.few h) (fun r w t hw => ?_) hK hF
  · obtain rfl := List.mem_singleton.mp hf
    exact hdoc.fits _ _
  · refine Triple.bind (Triple.get (Triple.bind (Triple.lift hput (Triple.modify ?_))))
    exact hQ w t _ hw ⟨sess.coll.state.nextTxnHint, rfl⟩

/-- An unsynced log, seen by the durable view, settles under a flush that the writes bring about. -/
def Settles (env : Env) (sel : Sel) (synced : Bool) (sess : Session) (g : Ghost) (ops : List LogOp) (docs : DocMap)
    (more : List LogOp) : Prop :=
  Overflows env sess more → sel = .durable → synced = false → Settled (g.logged more) ops docs

/-! ## The calls -/

/-- **A document is inserted.** -/
theorem insert_spec (h : State env sel sess s G D g ops docs) (hro : env.config.readOnly = false) {doc : DocumentInput}
    (hview : doc.vector.WellFormed) (hvalid : validate sess doc = .ok ()) (hnew : (sess.locate doc.id).isSome = false)
    (hroom : WriteRoom env sess [.put doc.id doc.stored])
    (hset : Settles env sel env.config.durability.syncsEveryWrite sess g ops docs [.put doc.id doc.stored]) :
    Spec sel (insert env doc) sess s
      (fun _ sess' t => ∃ g' ops' docs', AfterWrite env sel env.config.durability.syncsEveryWrite sess s G D g ops docs
        [.put doc.id doc.stored] sess' t g' ops' docs')
      (WriteDies sel D g.name (replay g.docs [.put doc.id doc.stored])) (fun _ _ _ => True) := by
  have hcat : sess.coll.catalog = g.cat := h.live.mem.catalog
  have hvalid' := hvalid
  unfold validate Session.catalog at hvalid'
  rw [hcat] at hvalid'
  obtain ⟨md, hdoc⟩ := accepted_of_validate g.good hview hvalid'
  unfold insert checkWritable
  rw [hro]
  refine Triple.bind (Triple.pure (Triple.bind (Triple.get (Triple.bind (Triple.lift hvalid ?_)))))
  rw [hnew]
  refine Triple.bind (applyPut_spec h hdoc hroom (fun w t sess' hw hs => ?_) (fun _ _ _ hd => hd) (fun _ _ _ => trivial))
  exact maybeFlush_spec h hroom hset hw hs (fun sess'' t' g' ops' docs' ha => ⟨g', ops', docs', ha⟩) (fun _ _ _ hd => hd)

/-- **A document is inserted or replaced.** -/
theorem upsert_spec (h : State env sel sess s G D g ops docs) (hro : env.config.readOnly = false) {doc : DocumentInput}
    (hview : doc.vector.WellFormed) (hvalid : validate sess doc = .ok ())
    (hroom : WriteRoom env sess [.put doc.id doc.stored])
    (hset : Settles env sel env.config.durability.syncsEveryWrite sess g ops docs [.put doc.id doc.stored]) :
    Spec sel (upsert env doc) sess s
      (fun outcome sess' t => outcome = (if (sess.locate doc.id).isSome then .updated else .inserted) ∧
        ∃ g' ops' docs', AfterWrite env sel env.config.durability.syncsEveryWrite sess s G D g ops docs
          [.put doc.id doc.stored] sess' t g' ops' docs')
      (WriteDies sel D g.name (replay g.docs [.put doc.id doc.stored])) (fun _ _ _ => True) := by
  have hcat : sess.coll.catalog = g.cat := h.live.mem.catalog
  have hvalid' := hvalid
  unfold validate Session.catalog at hvalid'
  rw [hcat] at hvalid'
  obtain ⟨md, hdoc⟩ := accepted_of_validate g.good hview hvalid'
  unfold upsert checkWritable
  rw [hro]
  refine Triple.bind (Triple.pure (Triple.bind (Triple.get (Triple.bind (Triple.lift hvalid ?_)))))
  refine Triple.bind (applyPut_spec h hdoc hroom (fun w t sess' hw hs => ?_) (fun _ _ _ hd => hd) (fun _ _ _ => trivial))
  refine Triple.bind (maybeFlush_spec h hroom hset hw hs (fun sess'' t' g' ops' docs' ha => ?_) (fun _ _ _ hd => hd))
  exact Triple.pure ⟨rfl, g', ops', docs', ha⟩

/-- **A document is deleted**, or its absence recorded. -/
theorem delete_spec (h : State env sel sess s G D g ops docs) (hro : env.config.readOnly = false) {id : DocId}
    (hvalid : id.validate sess.catalog.idKind = .ok ()) (hroom : WriteRoom env sess [.del id])
    (hset : Settles env sel env.config.durability.syncsEveryWrite sess g ops docs [.del id]) :
    Spec sel (delete env id) sess s
      (fun found sess' t => found = (sess.locate id).isSome ∧
        ∃ g' ops' docs', AfterWrite env sel env.config.durability.syncsEveryWrite sess s G D g ops docs [.del id] sess' t g' ops' docs')
      (WriteDies sel D g.name (replay g.docs [.del id])) (fun _ _ _ => True) := by
  have hcat : sess.catalog = g.cat := h.live.mem.catalog
  rw [hcat] at hvalid
  have hrec : Recorded g.cat [.delete id.toBytes] [.del id] :=
    .cons (fun _ _ => ⟨DocId.ofKind_of_validate hvalid, rfl⟩) .nil
  have hlen := DocId.toBytes_lt_of_validate hvalid
  unfold Limits.maxDocIdLen at hlen
  unfold delete checkWritable
  rw [hro]
  refine Triple.bind (Triple.pure (Triple.bind (Triple.get (Triple.bind ?_))))
  refine logWrite_spec (a := .single _) h (fun f hf => ?_) hrec (hroom.few h) (fun r w t hw => ?_) (fun _ _ _ hd => hd)
    (fun _ _ _ => trivial)
  · obtain rfl := List.mem_singleton.mp hf
    exact delete_fits _ _ (by unfold maxFrameBody; omega)
  refine Triple.bind (Triple.modify (Triple.bind ?_))
  refine maybeFlush_spec h hroom hset hw ⟨sess.coll.state.nextTxnHint, rfl⟩ (fun sess'' t' g' ops' docs' ha => ?_) (fun _ _ _ hd => hd)
  exact Triple.pure ⟨rfl, g', ops', docs', ha⟩

end Writing

/-! ## Batches -/

/-- An operation of a batch as a write. -/
def BatchOp.logged : BatchOp → LogOp
  | .upsert id vector metadata content => .put id ⟨vector, metadata, content⟩
  | .delete id => .del id

/-- The writes of a batch. -/
def WriteBatch.logged (batch : WriteBatch) : List LogOp := batch.ops.map BatchOp.logged

/-- The content of a document whose frame is small enough is small itself. -/
theorem content_of_fits {sequence txnId : UInt64} {id vector metadata content : Bytes}
    (h : WalFrame.Fits ⟨sequence, txnId, .put id vector metadata (some content)⟩) : content.length ≤ maxFrameBody := by
  have hbody : (Writer.varint sequence ++ (Writer.varint txnId ++ ([(1 : UInt8)] ++ (Writer.blob id ++ (Writer.blob vector ++
    (Writer.blob metadata ++ WalOp.contentBytes (some content))))))).length ≤ maxFrameBody := h
  have hcontent : (WalOp.contentBytes (some content)).length = 1 + (Writer.blob content).length := by
    show ([1] ++ Writer.blob content).length = _
    rw [List.length_append, List.length_singleton]
  simp only [List.length_append, hcontent] at hbody
  rw [Writer.blob_length content] at hbody
  omega

section Batch

variable {cat : Catalog} {sess : Session}

/-- **An operation that passes the checks has an encoding**, which records its write when its frame is small enough. -/
theorem recorded_of_validateOp (hcat : sess.catalog = cat) {op : BatchOp} (h : validateOp sess op = .ok ()) :
    ∃ wop, op.toWal = .ok wop ∧ (∀ sequence txnId, WalFrame.Fits ⟨sequence, txnId, wop⟩ →
      ∀ sequence txnId, Records cat ⟨sequence, txnId, wop⟩ op.logged) := by
  cases op with
  | upsert id vector md content =>
    obtain ⟨⟨⟩, hid, h⟩ := Parsing.except_bind_eq_ok.mp h
    obtain ⟨view, hview, h⟩ := Parsing.except_bind_eq_ok.mp h
    obtain ⟨⟨⟩, -, hmd⟩ := Parsing.except_bind_eq_ok.mp h
    rw [hcat] at hid hview
    have hlen : vector.length = cat.rowStride := by
      unfold VectorView.ofRaw at hview
      split at hview
      · cases hview
      · rename_i hne
        rw [rowStride_eq]; exact not_not.mp hne
    obtain ⟨encoded, henc, -⟩ := encodeMetadata_of_validate hmd
    have hidlen := DocId.toBytes_lt_of_validate hid
    unfold Limits.maxDocIdLen at hidlen
    refine ⟨.put id.toBytes vector encoded content, ?_, fun q x hfit _ _ => ⟨?_, encoded, henc, rfl⟩⟩
    · show (encodeMetadata md >>= fun encoded => pure (WalOp.put id.toBytes vector encoded content)) = _
      rw [henc]; rfl
    · refine ⟨DocId.ofKind_of_validate hid, by omega, hlen, record_writable henc (fun c hc => ?_)⟩
      have hc : content = some c := hc
      subst hc
      have := content_of_fits hfit
      unfold maxFrameBody at this
      omega
  | delete id =>
    have hid : id.validate sess.catalog.idKind = .ok () := h
    rw [hcat] at hid
    exact ⟨.delete id.toBytes, rfl, fun _ _ _ _ _ => ⟨DocId.ofKind_of_validate hid, rfl⟩⟩

theorem validateOps_ok {total : Nat} {l : List BatchOp} {index : Nat} (h : validateOps sess total index l = .ok ()) :
    ∀ op ∈ l, validateOp sess op = .ok () := by
  induction l generalizing index with
  | nil => exact nofun
  | cons op l ih =>
    unfold validateOps at h
    split at h
    · rename_i hop
      exact List.forall_mem_cons.mpr ⟨hop, ih h⟩
    · cases h

/-- **A batch that passes the checks has an encoding.** -/
theorem toWal_of_validateOps (hcat : sess.catalog = cat) {l : List BatchOp} (h : ∀ op ∈ l, validateOp sess op = .ok ()) :
    ∃ wops, l.mapM BatchOp.toWal = .ok wops ∧
      ((∀ wop ∈ wops, ∃ sequence txnId, WalFrame.Fits ⟨sequence, txnId, wop⟩) → Recorded cat wops (l.map BatchOp.logged)) := by
  induction l with
  | nil => exact ⟨[], rfl, fun _ => .nil⟩
  | cons op l ih =>
    obtain ⟨hop, hl⟩ := List.forall_mem_cons.mp h
    obtain ⟨wop, hwop, hrec⟩ := recorded_of_validateOp hcat hop
    obtain ⟨wops, hwops, hrecs⟩ := ih hl
    refine ⟨wop :: wops, ?_, fun hfits => ?_⟩
    · rw [List.mapM_cons, hwop, Parsing.except_ok_bind, hwops]; rfl
    · obtain ⟨⟨q, x, hfit⟩, hrest⟩ := List.forall_mem_cons.mp hfits
      exact .cons (hrec q x hfit) (hrecs hrest)

/-- The operations of a batch, applied one after the other. -/
theorem apply_batch {invNorm : InvNorm} (hcat : sess.catalog = cat) {l : List BatchOp}
    (h : ∀ op ∈ l, validateOp sess op = .ok ()) {m : Memtable} (hm : m.Shaped cat.dimension) :
    l.foldlM (BatchOp.apply invNorm) m = .ok ((l.map BatchOp.logged).foldl (Memtable.applyOp invNorm) m) := by
  induction l generalizing m with
  | nil => rfl
  | cons op l ih =>
    obtain ⟨hop, hl⟩ := List.forall_mem_cons.mp h
    have hstep : op.apply invNorm m = .ok (m.applyOp invNorm op.logged) := by
      cases op with
      | upsert id vector md content =>
        obtain ⟨⟨⟩, -, hop⟩ := Parsing.except_bind_eq_ok.mp hop
        obtain ⟨view, hview, -⟩ := Parsing.except_bind_eq_ok.mp hop
        rw [hcat] at hview
        have hlen : vector.length = VectorDType.f32.rowStride cat.dimension := by
          unfold VectorView.ofRaw at hview
          split at hview
          · cases hview
          · rename_i hne; exact not_not.mp hne
        exact Memtable.putBytes_eq hm hlen id md content
      | delete id => rfl
    rw [List.foldlM_cons, hstep, Parsing.except_ok_bind, List.map_cons, List.foldl_cons]
    exact ih hl (hm.applyOp _)

end Batch

section BatchCall

variable {env : Env} {sel : Sel} {sess : Session} {s : MemoryStorage} {G D : Str → Option Ghost} {g : Ghost}
  {ops : List LogOp} {docs : DocMap}

/-- What a batch that passes the checks hands to the log. -/
def WriteBatch.write (batch : WriteBatch) : Except DbError LogWrite := (batch.ops.mapM BatchOp.toWal).map .group

/-- **A batch is written.** -/
theorem writeBatch_spec (h : State env sel sess s G D g ops docs) (hro : env.config.readOnly = false) {batch : WriteBatch}
    (hvalid : batch.validate = .ok ()) (hne : batch.ops.isEmpty = false)
    (hops : validateOps sess batch.ops.length 0 batch.ops = .ok ()) {a : LogWrite} (ha : batch.write = .ok a)
    (hfits : ∀ f ∈ a.framesOf sess.wal, f.Fits) (hroom : WriteRoom env sess batch.logged)
    (hset : Settles env sel env.config.durability.syncsOnCommit sess g ops docs batch.logged) :
    Spec sel (writeBatch env batch) sess s
      (fun report sess' t => report = batch.ops.foldl (BatchReport.countOp sess) BatchReport.zero ∧
        ∃ g' ops' docs', AfterWrite env sel env.config.durability.syncsOnCommit sess s G D g ops docs batch.logged
          sess' t g' ops' docs')
      (WriteDies sel D g.name (replay g.docs batch.logged)) (fun _ _ _ => True) := by
  have hcat : sess.catalog = g.cat := h.live.mem.catalog
  have hall := validateOps_ok hops
  obtain ⟨wops, hwops, hrec⟩ := toWal_of_validateOps hcat hall
  have ha' : a = .group wops := by
    unfold WriteBatch.write at ha
    rw [hwops] at ha
    exact (Except.ok.inj ha).symm
  subst ha'
  have hfit : ∀ wop ∈ wops, ∃ sequence txnId, WalFrame.Fits ⟨sequence, txnId, wop⟩ := fun wop hwop => by
    have hmem : wop ∈ (WalWriter.groupFrames sess.wal.nextSequence sess.wal.nextTxn wops).map WalFrame.op := by
      rw [groupFrames_ops]; exact hwop
    obtain ⟨f, hf, rfl⟩ := List.mem_map.mp hmem
    exact ⟨f.sequence, f.txnId, hfits f (List.mem_append_left _ hf)⟩
  have happly : batch.ops.foldlM (BatchOp.apply env.invNorm) sess.memtable = .ok _ :=
    apply_batch hcat hall h.live.mem.shaped
  unfold writeBatch checkWritable
  rw [hro]
  refine Triple.bind (Triple.pure (Triple.bind (Triple.lift hvalid ?_)))
  rw [hne]
  refine Triple.bind (Triple.get (Triple.bind (Triple.lift hops (Triple.bind (Triple.lift hwops (Triple.bind ?_))))))
  refine logWrite_spec (a := .group wops) h hfits (hrec hfit) (hroom.few h) (fun r w t hw => ?_) (fun _ _ _ hd => hd)
    (fun _ _ _ => trivial)
  refine Triple.bind (Triple.modify (Triple.bind (Triple.lift happly (Triple.bind (Triple.modify (Triple.bind ?_))))))
  refine maybeFlush_spec h hroom hset hw ⟨saturatingSucc r, rfl⟩ (fun sess'' t' g' ops' docs' hafter => ?_) (fun _ _ _ hd => hd)
  exact Triple.pure ⟨rfl, g', ops', docs', hafter⟩

end BatchCall

end IshaVectorDb.Engine
