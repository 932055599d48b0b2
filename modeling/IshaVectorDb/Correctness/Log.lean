import IshaVectorDb.Correctness.Files
import IshaVectorDb.Correctness.Segments

/-!
# `Correctness.Log` — what the **write-ahead log** says

`LogHolds cat bytes ops`: the log's bytes are frames that record the writes `ops`, every one of them committed.
Replaying such a log gives exactly the memtable of these writes (`replayScan_of`), and appending a frame or a
group extends them (`LogHolds.append`, `LogHolds.appendGroup`).
-/

namespace IshaVectorDb.Engine

open Format Interaction KeyLog

variable {cat : Catalog}

theorem rowStride_eq (cat : Catalog) : cat.rowStride = VectorDType.f32.rowStride cat.dimension := by
  unfold Catalog.rowStride; cases cat.dtype; rfl

/-! ## Documents and frames -/

/-- The document can be stored in the collection. -/
structure DocOk (cat : Catalog) (id : DocId) (d : Doc) : Prop where
  kind : id.OfKind cat.idKind
  idLength : id.toBytes.length < 2 ^ 16
  vector : d.vector.length = cat.rowStride
  record : MetaRecord.Writable ⟨d.metadata.map Metadata.toValue, d.content⟩

/-- The frame records the write. -/
def Records (cat : Catalog) (f : WalFrame) : LogOp → Prop
  | .put id d => DocOk cat id d ∧ ∃ md, encodeMetadata d.metadata = .ok md ∧
      f.op = .put id.toBytes d.vector md d.content
  | .del id => id.OfKind cat.idKind ∧ f.op = .delete id.toBytes

theorem Records.not_commit {f : WalFrame} {op : LogOp} (h : Records cat f op) : f.op.isCommit = false := by
  cases op with
  | put id d => obtain ⟨-, md, -, hf⟩ := h; rw [hf]; rfl
  | del id => obtain ⟨-, hf⟩ := h; rw [hf]; rfl

/-- The write can be stored in the collection; a deletion of any id can. -/
def OpOk (cat : Catalog) : LogOp → Prop
  | .put id d => DocOk cat id d
  | .del _ => True

theorem Records.ok {f : WalFrame} {op : LogOp} (h : Records cat f op) : OpOk cat op := by
  cases op with
  | put id d => exact h.1
  | del id => trivial

theorem replayMetadata_of {m : Option Metadata} {md : Bytes} (h : encodeMetadata m = .ok md) :
    replayMetadata md = .ok m := by
  cases m with
  | none =>
    obtain rfl : [] = md := Except.ok.inj h
    rfl
  | some m =>
    have he : m.encode = .ok md := h
    have hne : md.isEmpty = false := by
      rw [List.isEmpty_eq_false_iff]; exact Metadata.encode_ne_nil he
    unfold replayMetadata
    rw [hne, Metadata.decode_encode he]; rfl

/-- **Replaying a frame carries out its write.** -/
theorem replayFrame_of {invNorm : InvNorm} {f : WalFrame} {op : LogOp} (h : Records cat f op) {m : Memtable}
    (hm : m.Shaped cat.dimension) :
    replayFrame invNorm cat.idKind m f = .ok (m.applyOp invNorm op) := by
  unfold replayFrame
  cases op with
  | put id d =>
    obtain ⟨hok, md, hmd, hf⟩ := h
    have hlen : d.vector.length = VectorDType.f32.rowStride cat.dimension := by rw [hok.vector, rowStride_eq]
    rw [hf]
    simp only [DocId.fromBytes_toBytes hok.kind, replayMetadata_of hmd, Parsing.except_ok_bind]
    exact Memtable.putBytes_eq hm hlen id d.metadata d.content
  | del id =>
    obtain ⟨hk, hf⟩ := h
    rw [hf]
    simp only [DocId.fromBytes_toBytes hk, Parsing.except_ok_bind]
    rfl

theorem replayFrames_of {invNorm : InvNorm} {frames : List WalFrame} {ops : List LogOp}
    (h : List.Forall₂ (Records cat) frames ops) {m : Memtable} (hm : m.Shaped cat.dimension) :
    frames.foldlM (replayFrame invNorm cat.idKind) m = .ok (ops.foldl (Memtable.applyOp invNorm) m) := by
  induction h generalizing m with
  | nil => rfl
  | cons hf _ ih =>
    rw [List.foldlM_cons, replayFrame_of hf hm, Parsing.except_ok_bind]
    exact ih (hm.applyOp _)

/-! ## Logs -/

/-- The frames that do something, rather than commit what others did. -/
def opFrames (frames : List WalFrame) : List WalFrame := frames.filter (fun f => !f.op.isCommit)

/-- Every write in the log is committed. -/
def Clean (frames : List WalFrame) : Prop := ∀ f ∈ opFrames frames, f.txnId = 0 ∨ f.txnId ∈ committedTxns frames

/-- **The log holds these writes.** -/
def LogHolds (cat : Catalog) (bytes : Bytes) (ops : List LogOp) : Prop :=
  ∃ frames, bytes = framesBytes frames ∧ (∀ f ∈ frames, f.Fits) ∧ Clean frames ∧
    List.Forall₂ (Records cat) (opFrames frames) ops

theorem LogHolds.nil (cat : Catalog) : LogHolds cat [] [] := ⟨[], rfl, nofun, nofun, .nil⟩

theorem LogHolds.ok {bytes : Bytes} {ops : List LogOp} (h : LogHolds cat bytes ops) : ∀ op ∈ ops, OpOk cat op := by
  obtain ⟨frames, -, -, -, hrec⟩ := h
  intro op hop
  obtain ⟨f, -, hf⟩ := exists_of_forall₂ hrec.flip hop
  exact Records.ok hf

theorem sized_of_ok {ops : List LogOp} (h : ∀ op ∈ ops, OpOk cat op) :
    Memtable.Sized (VectorDType.f32.rowStride cat.dimension) ops := by
  intro id d hd
  have hok : DocOk cat id d := h _ hd
  rw [hok.vector, rowStride_eq]

theorem committed_of_clean {frames : List WalFrame} (h : Clean frames) (tail : WalTail) (validBytes : Nat) :
    WalScan.committed ⟨frames, tail, validBytes⟩ = opFrames frames := by
  unfold WalScan.committed
  refine List.filter_eq_self.mpr (fun f hf => ?_)
  rcases h f hf with h0 | hc
  · simp [h0]
  · simp [hc]

/-- **Replaying a log gives the memtable of its writes.** -/
theorem replayScan_of (invNorm : InvNorm) {bytes : Bytes} {ops : List LogOp} (h : LogHolds cat bytes ops)
    (path : DbPath) : ∃ report, report.truncatedTail = false ∧
      replayScan invNorm cat.idKind path (scan bytes) (Memtable.new cat.dimension .f32) =
        .ok (report, Memtable.ofOps invNorm cat.dimension ops) := by
  obtain ⟨frames, rfl, hfits, hclean, hrec⟩ := h
  have hscan := scan_frames hfits
  have hcomm := committed_of_clean hclean .clean (framesBytes frames).length
  have hfold : (opFrames frames).foldlM (replayFrame invNorm cat.idKind) (Memtable.new cat.dimension .f32) =
      .ok (Memtable.ofOps invNorm cat.dimension ops) := replayFrames_of hrec ⟨rfl, rfl, rfl⟩
  refine ⟨⟨(opFrames frames).length, (frames.filter (fun f => ¬ f.op.isCommit)).length - (opFrames frames).length,
    lastSequence frames, (framesBytes frames).length, false⟩, rfl, ?_⟩
  unfold replayScan
  rw [hscan]
  simp only [hcomm, hfold, Parsing.except_ok_bind]
  rfl

/-! ## Growing a log -/

theorem opFrames_append (xs ys : List WalFrame) : opFrames (xs ++ ys) = opFrames xs ++ opFrames ys :=
  List.filter_append _ _

theorem committedTxns_append (xs ys : List WalFrame) :
    committedTxns (xs ++ ys) = committedTxns xs ++ committedTxns ys := by
  unfold committedTxns; rw [List.filter_append, List.map_append]

theorem Clean.append {xs ys : List WalFrame} (hx : Clean xs)
    (hy : ∀ f ∈ opFrames ys, f.txnId = 0 ∨ f.txnId ∈ committedTxns ys) : Clean (xs ++ ys) := by
  intro f hf
  rw [committedTxns_append, List.mem_append]
  rw [opFrames_append, List.mem_append] at hf
  rcases hf with hf | hf
  · exact (hx f hf).imp_right Or.inl
  · exact (hy f hf).imp_right Or.inr

/-- A clean extension of a log. -/
theorem LogHolds.extend {bytes : Bytes} {ops : List LogOp} (h : LogHolds cat bytes ops) {frames : List WalFrame}
    (hfits : ∀ f ∈ frames, f.Fits) (hclean : ∀ f ∈ opFrames frames, f.txnId = 0 ∨ f.txnId ∈ committedTxns frames)
    {more : List LogOp} (hrec : List.Forall₂ (Records cat) (opFrames frames) more) :
    LogHolds cat (bytes ++ framesBytes frames) (ops ++ more) := by
  obtain ⟨old, rfl, hold, hcold, hrold⟩ := h
  refine ⟨old ++ frames, (framesBytes_append old frames).symm, fun f hf => ?_, hcold.append hclean, ?_⟩
  · rcases List.mem_append.mp hf with hf | hf
    · exact hold f hf
    · exact hfits f hf
  · rw [opFrames_append]; exact List.rel_append hrold hrec

/-- **One standalone frame.** -/
theorem LogHolds.append {bytes : Bytes} {ops : List LogOp} (h : LogHolds cat bytes ops) {f : WalFrame}
    (hfit : f.Fits) (htxn : f.txnId = 0) {op : LogOp} (hrec : Records cat f op) :
    LogHolds cat (bytes ++ f.bytes) (ops ++ [op]) := by
  have hop : opFrames [f] = [f] := by unfold opFrames; simp [hrec.not_commit]
  have hb : framesBytes [f] = f.bytes := by rw [framesBytes_cons]; simp
  rw [← hb]
  refine h.extend (fun g hg => ?_) (fun g hg => ?_) ?_
  · obtain rfl := List.mem_singleton.mp hg; exact hfit
  · rw [hop] at hg
    obtain rfl := List.mem_singleton.mp hg; exact .inl htxn
  · rw [hop]; exact .cons hrec .nil

/-- A logged operation as the frame of a group. -/
theorem opFrames_group (sequence txnId : UInt64) {ops : List WalOp} (h : ∀ op ∈ ops, op.isCommit = false) :
    opFrames (WalWriter.groupFrames sequence txnId ops) = WalWriter.groupFrames sequence txnId ops := by
  induction ops generalizing sequence with
  | nil => rfl
  | cons op ops ih =>
    have hop : op.isCommit = false := h op List.mem_cons_self
    unfold WalWriter.groupFrames opFrames
    rw [List.filter_cons_of_pos (by simp [WalFrame.inTxn, hop])]
    exact congrArg _ (ih (sequence + 1) (fun o ho => h o (List.mem_cons_of_mem _ ho)))

theorem txnId_group {sequence txnId : UInt64} {ops : List WalOp} {f : WalFrame}
    (h : f ∈ WalWriter.groupFrames sequence txnId ops) : f.txnId = txnId := by
  induction ops generalizing sequence with
  | nil => cases h
  | cons op ops ih =>
    rcases List.mem_cons.mp h with rfl | h
    · rfl
    · exact ih h

/-- **One group, committed by its last frame.** -/
theorem LogHolds.appendGroup {bytes : Bytes} {ops more : List LogOp} (h : LogHolds cat bytes ops)
    {sequence txnId last count : UInt64} {walOps : List WalOp}
    (hfits : ∀ f ∈ WalWriter.groupFrames sequence txnId walOps ++ [WalFrame.inTxn last txnId (.commit count)], f.Fits)
    (hrec : ∀ seq, List.Forall₂ (Records cat) (WalWriter.groupFrames seq txnId walOps) more) :
    LogHolds cat (bytes ++ framesBytes (WalWriter.groupFrames sequence txnId walOps ++
      [WalFrame.inTxn last txnId (.commit count)])) (ops ++ more) := by
  have hnot : ∀ f ∈ WalWriter.groupFrames sequence txnId walOps, f.op.isCommit = false := by
    intro f hf
    obtain ⟨op, -, hr⟩ := exists_of_forall₂ (hrec sequence) hf
    exact hr.not_commit
  have hops : opFrames (WalWriter.groupFrames sequence txnId walOps ++ [WalFrame.inTxn last txnId (.commit count)]) =
      WalWriter.groupFrames sequence txnId walOps := by
    rw [opFrames_append]
    have hlast : opFrames [WalFrame.inTxn last txnId (.commit count)] = [] := rfl
    rw [hlast, List.append_nil]
    exact List.filter_eq_self.mpr (fun f hf => by simp [hnot f hf])
  refine h.extend hfits (fun f hf => ?_) ?_
  · rw [hops] at hf
    refine .inr ?_
    rw [committedTxns_append, List.mem_append]
    refine .inr ?_
    rw [txnId_group hf]
    exact List.mem_singleton.mpr rfl
  · rw [hops]; exact hrec sequence

theorem encodeFrames_of {frames : List WalFrame} (h : ∀ f ∈ frames, f.Fits) :
    WalWriter.encodeFrames frames = .ok (framesBytes frames) := by
  induction frames with
  | nil => rfl
  | cons f frames ih =>
    have hf : f.encode = .ok f.bytes := if_pos (h f List.mem_cons_self)
    unfold WalWriter.encodeFrames
    rw [hf, ih (fun g hg => h g (List.mem_cons_of_mem _ hg))]; rfl

/-- A group with a frame that is too large is refused as a whole. -/
theorem encodeFrames_error {frames : List WalFrame} (h : ¬ ∀ f ∈ frames, f.Fits) :
    WalWriter.encodeFrames frames = .error (.malformed 0 (.inconsistent "frame body length")) := by
  induction frames with
  | nil => exact absurd nofun h
  | cons f frames ih =>
    unfold WalWriter.encodeFrames
    by_cases hf : f.Fits
    · have hrest : ¬ ∀ g ∈ frames, g.Fits := fun hg => h (List.forall_mem_cons.mpr ⟨hf, hg⟩)
      rw [show f.encode = .ok f.bytes from if_pos hf, ih hrest]
      rfl
    · rw [show f.encode = .error _ from if_neg hf]
      rfl

end IshaVectorDb.Engine
