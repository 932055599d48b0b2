import IshaVectorDb.Correctness.Calls
import IshaVectorDb.Correctness.LogRuns

/-!
# `Correctness.Reopening` — what an **open** makes of the log

Whatever the collection's directory holds, an open that succeeds found a log that is not corrupt, cut it back to
its whole frames, and left a writer that stands at their end and counts its batches from one (`open_log`).
-/

namespace IshaVectorDb.Engine

open Format Interaction

variable {S : Type} {x : S} {s : MemoryStorage} {path : DbPath} {d : FileData}

/-! ## The parts of an open -/

theorem run_call {c : Call} {r : Except DbError c.Reply} {s' : MemoryStorage} (h : device.step c s = (r, s')) :
    (call c x).run device s = ((r, x), s') := by
  show (((device.step c s).1, x), (device.step c s).2) = _
  rw [h]

theorem readFile_run (hd : s.get path = some (.file d)) :
    (readFile path x).run device s = ((.ok (some d.live), x), s) := by
  have hmeta : device.step (.metadata path) s = (.ok (some d.live.length), s) := by
    rw [step_metadata, metadata_file hd]
  have hopen : device.step (.openFile path .read) s = (.ok ⟨path, false⟩, s) := MemoryStorage.openFile_file .read hd
  have hread : device.step (.readAt ⟨path, false⟩ d.live.length 0) s = (.ok d.live, s) := by
    show (MemoryStorage.readAt s ⟨path, false⟩ d.live.length 0, s) = _
    unfold MemoryStorage.readAt
    rw [hd]
    simp
  unfold readFile
  rw [Proc.run_bind (run_call hmeta)]
  simp only
  rw [Proc.run_bind (run_call hopen), Proc.run_bind (run_call hread)]
  rfl

theorem readFile_run_none (hnone : s.get path = none) : (readFile path x).run device s = ((.ok none, x), s) := by
  have hmeta : device.step (.metadata path) s = (.ok none, s) := by rw [step_metadata, metadata_none hnone]
  unfold readFile
  rw [Proc.run_bind (run_call hmeta)]
  rfl

/-- Cutting a file back, when it is longer. -/
theorem truncateTail_run (hd : s.get path = some (.file d)) {n : Nat} (hn : n ≤ d.live.length) :
    ∃ d' s', (truncateTail path n x).run device s = ((.ok (), x), s') ∧ s'.get path = some (.file d') ∧
      d'.live = d.live.take n := by
  have hmeta : device.step (.metadata path) s = (.ok (some d.live.length), s) := by
    rw [step_metadata, metadata_file hd]
  unfold truncateTail
  rw [Proc.run_bind (run_call hmeta)]
  by_cases hle : d.live.length ≤ n
  · simp only [if_pos hle]
    exact ⟨d, s, rfl, hd, (List.take_of_length_le hle).symm⟩
  · have hopen : device.step (.openFile path .readWrite) s = (.ok ⟨path, true⟩, s) :=
      MemoryStorage.openFile_file .readWrite hd
    have hput := MemoryStorage.get_put_self s path (.file ⟨resize d.live n, d.durable⟩)
    have hcut : resize d.live n = d.live.take n := by
      unfold resize
      rw [Nat.sub_eq_zero_of_le hn, List.replicate_zero, List.append_nil]
    simp only [if_neg hle]
    rw [Proc.run_bind (run_call hopen), Proc.run_bind (run_call (step_truncate hd n)), run_call (step_syncData hput)]
    exact ⟨_, _, rfl, MemoryStorage.get_put_self _ _ _, hcut⟩

/-- Opening a log that is there, or making an empty one. -/
theorem walOpen_run {first : UInt64} {durability : Durability} {w : WalWriter} {x' : S} {s' : MemoryStorage}
    (h : (WalWriter.open path first durability x).run device s = ((.ok w, x'), s')) :
    w = ⟨⟨path, true⟩, path, first, 1, (logBytes s path).length, durability, false⟩ ∧
      ∃ d, s'.get path = some (.file d) ∧ d.live = logBytes s path := by
  obtain ⟨file, x₁, s₁, hopen, h⟩ := Proc.run_bind_ok h
  obtain ⟨bytes, x₂, s₂, hlen, h⟩ := Proc.run_bind_ok h
  cases h
  have hfile : (s.openFile path .create) = (.ok file, s₁) := by
    have hstep : (((s.openFile path .create).1, x), (s.openFile path .create).2) = ((.ok file, x₁), s₁) := hopen
    obtain ⟨h1, h2⟩ := Prod.mk.inj hstep
    exact Prod.ext (Prod.mk.inj h1).1 h2
  have hread : s₁.len file = .ok bytes ∧ s' = s₁ := by
    have hstep : ((s₁.len file, x₁), s₁) = ((.ok bytes, x'), s') := hlen
    obtain ⟨h1, h2⟩ := Prod.mk.inj hstep
    exact ⟨(Prod.mk.inj h1).1, h2.symm⟩
  obtain ⟨hbytes, rfl⟩ := hread
  -- whichever way the file came about, it holds what the path held
  have hthere : file = ⟨path, true⟩ ∧ ∃ d, s'.get path = some (.file d) ∧ d.live = logBytes s path := by
    unfold MemoryStorage.openFile at hfile
    cases hg : s.get path with
    | none =>
      rw [hg] at hfile
      simp only at hfile
      split at hfile
      · cases hfile
        refine ⟨rfl, ⟨[], []⟩, MemoryStorage.get_put_self _ _ _, ?_⟩
        unfold logBytes
        rw [hg]
      · cases hfile
    | some e =>
      rw [hg] at hfile
      cases e with
      | dir => cases hfile
      | file d =>
        cases hfile
        exact ⟨rfl, d, hg, (logBytes_file hg).symm⟩
  obtain ⟨rfl, d, hd, hlive⟩ := hthere
  refine ⟨?_, d, hd, hlive⟩
  unfold MemoryStorage.len at hbytes
  rw [hd] at hbytes
  rw [← hlive, ← Except.ok.inj hbytes]

/-- What a replay that succeeded says of the scan. -/
theorem replayScan_ok {invNorm : InvNorm} {idKind : IdKind} {scan : WalScan} {memtable memtable' : Memtable}
    {report : ReplayReport} (h : replayScan invNorm idKind path scan memtable = .ok (report, memtable')) :
    ¬ scan.tail.IsCorrupt ∧ report.lastSequence = lastSequence scan.frames ∧ report.validBytes = scan.validBytes ∧
      (report.truncatedTail = true ↔ scan.tail ≠ .clean) := by
  obtain ⟨frames, tail, validBytes⟩ := scan
  unfold replayScan at h
  cases tail with
  | corrupt offset reason => cases h
  | clean =>
    simp only at h
    cases hfold : (WalScan.committed ⟨frames, .clean, validBytes⟩).foldlM (replayFrame invNorm idKind) memtable with
    | error e => rw [hfold] at h; cases h
    | ok m =>
      rw [hfold] at h
      cases h
      exact ⟨id, rfl, rfl, by simp⟩
  | torn offset trailing =>
    simp only at h
    cases hfold : (WalScan.committed ⟨frames, .torn offset trailing, validBytes⟩).foldlM
        (replayFrame invNorm idKind) memtable with
    | error e => rw [hfold] at h; cases h
    | ok m =>
      rw [hfold] at h
      cases h
      exact ⟨id, rfl, rfl, by simp⟩

/-- A scan counts no byte that is not there, and every byte when the tail is clean. -/
theorem validBytes_le (bs : Bytes) : (scan bs).validBytes ≤ bs.length ∧
    ((scan bs).tail = .clean → (scan bs).validBytes = bs.length) := by
  obtain ⟨fs, rest, hfits, rfl, ⟨rfl, hscan⟩ | ⟨e, hne, he, hscan⟩⟩ := scan_split bs
  · rw [hscan, List.append_nil]
    exact ⟨Nat.le_refl _, fun _ => rfl⟩
  · rw [hscan, List.length_append]
    refine ⟨Nat.le_add_right _ _, fun hclean => ?_⟩
    unfold tailOf at hclean
    split at hclean <;> cases hclean

/-- What a replay that succeeded found, and left as it was. -/
theorem replayInto_run {invNorm : InvNorm} {idKind : IdKind} {memtable memtable' : Memtable} {report : ReplayReport}
    {x' : S} {s' : MemoryStorage}
    (h : (replayInto invNorm path idKind memtable x).run device s = ((.ok (report, memtable'), x'), s')) :
    s' = s ∧ s.get path ≠ some .dir ∧ ¬ (scan (logBytes s path)).tail.IsCorrupt ∧
      report.lastSequence = lastSequence (scan (logBytes s path)).frames ∧
      report.validBytes = (scan (logBytes s path)).validBytes ∧
      (report.truncatedTail = true ↔ (scan (logBytes s path)).tail ≠ .clean) := by
  unfold replayInto at h
  cases hg : s.get path with
  | none =>
    have hempty : logBytes s path = [] := by unfold logBytes; rw [hg]
    have hscan : scan (logBytes s path) = ⟨[], .clean, 0⟩ := by rw [hempty]; rfl
    rw [Proc.run_bind (readFile_run_none hg)] at h
    cases h
    rw [hscan]
    exact ⟨rfl, nofun, id, rfl, rfl, by simp⟩
  | some e =>
    cases e with
    | dir =>
      -- a directory has no bytes to read
      obtain ⟨found, x₁, s₁, hread, -⟩ := Proc.run_bind_ok h
      obtain ⟨len, x₂, s₂, hmeta, hread⟩ := Proc.run_bind_ok hread
      have hlen : ((Except.ok (s.metadata path), x), s) = ((Except.ok len, x₂), s₂) := hmeta
      have hsome : s.metadata path = some 0 := by unfold MemoryStorage.metadata; rw [hg]
      rw [hsome] at hlen
      cases hlen
      obtain ⟨file, x₃, s₃, hopen, -⟩ := Proc.run_bind_ok hread
      have hfail : (((s.openFile path .read).1, x), (s.openFile path .read).2) = ((Except.ok file, x₃), s₃) := hopen
      unfold MemoryStorage.openFile at hfail
      rw [hg] at hfail
      cases hfail
    | file d =>
      rw [Proc.run_bind (readFile_run hg)] at h
      have hreplay : ((replayScan invNorm idKind path (scan d.live) memtable, x), s) =
          ((Except.ok (report, memtable'), x'), s') := h
      obtain ⟨hpair, rfl⟩ := Prod.mk.inj hreplay
      rw [logBytes_file hg]
      exact ⟨rfl, nofun, replayScan_ok (Prod.mk.inj hpair).1⟩

/-- Repairing the tail leaves the log's whole frames. -/
theorem repairTail_run {env : Env} (hro : env.config.readOnly = false) {report : ReplayReport}
    (hdir : s.get path ≠ some .dir) (hvalid : report.validBytes = (scan (logBytes s path)).validBytes)
    (htail : report.truncatedTail = true ↔ (scan (logBytes s path)).tail ≠ .clean) {x' : S} {s' : MemoryStorage}
    (h : (repairTail env path report x).run device s = ((.ok (), x'), s')) :
    logBytes s' path = (logBytes s path).take (scan (logBytes s path)).validBytes := by
  obtain ⟨hle, hall⟩ := validBytes_le (logBytes s path)
  unfold repairTail at h
  by_cases htorn : report.truncatedTail = true
  · rw [htorn, hro] at h
    simp only [Bool.not_false, Bool.and_self, if_true] at h
    cases hg : s.get path with
    | none =>
      -- nothing is torn where there is no log
      have hempty : logBytes s path = [] := by unfold logBytes; rw [hg]
      refine absurd ?_ (htail.mp htorn)
      rw [hempty]
      rfl
    | some e =>
      cases e with
      | dir => exact absurd hg hdir
      | file d =>
        rw [logBytes_file hg] at hvalid hle ⊢
        rw [hvalid] at h
        obtain ⟨d', s₁, hrun, hd', hlive⟩ := @truncateTail_run S x s path d hg _ hle
        rw [hrun] at h
        cases h
        rw [logBytes_file hd', hlive]
  · have hclean : (scan (logBytes s path)).tail = .clean := by
      by_contra hne
      exact htorn (htail.mpr hne)
    have hfalse : report.truncatedTail = false := by simpa using htorn
    rw [hfalse] at h
    simp only [Bool.false_and, Bool.false_eq_true, if_false] at h
    cases h
    rw [hall hclean, List.take_length]

/-! ## The open -/

theorem logBytes_congr {t : MemoryStorage} (h : t.get path = s.get path) : logBytes t path = logBytes s path := by
  unfold logBytes
  rw [h]

/-- **An open that succeeds** cuts the log back to its whole frames and puts a new writer at their end. -/
theorem open_log {env : Env} (hro : env.config.readOnly = false) {catalog : Catalog} {entry : CollectionEntry}
    {coll : CollInner} {x' : S} {s' : MemoryStorage}
    (h : (CollInner.open env catalog entry x).run device s = ((.ok coll, x'), s'))
    (hpath : path = .walFile catalog.name 1) :
    ¬ (scan (logBytes s path)).tail.IsCorrupt ∧
      logBytes s' path = (logBytes s path).take (scan (logBytes s path)).validBytes ∧
      coll.state.wal = ⟨⟨path, true⟩, path, saturatingSucc (lastSequence (scan (logBytes s path)).frames), 1,
        (logBytes s' path).length, env.config.durability, false⟩ ∧ ∃ d, s'.get path = some (.file d) := by
  obtain ⟨_, x₁, s₁, hclean, h⟩ := Proc.run_bind_ok h
  obtain ⟨segments, x₂, s₂, hsegments, h⟩ := Proc.run_bind_ok h
  obtain ⟨walPath, x₃, s₃, hlayout, h⟩ := Proc.run_bind_ok h
  obtain ⟨⟨report, memtable⟩, x₄, s₄, hreplay, h⟩ := Proc.run_bind_ok h
  obtain ⟨_, x₅, s₅, hrepair, h⟩ := Proc.run_bind_ok h
  obtain ⟨wal, x₆, s₆, hopen, h⟩ := Proc.run_bind_ok h
  cases h
  -- clearing away and reading the segments do not touch the log
  have h₁ : s₁.get path = s.get path := by
    have hkeep := @Prog.Calls.run _ _ _ _ _ _ device (fun t => t.get path = s.get path) _
      (cleanUp_calls env catalog.name entry x) (fun c t hc ht => ?_) s rfl
    · rw [hclean] at hkeep
      exact hkeep
    · rcases hc with hc | ⟨-, id, which, rfl⟩
      · rw [step_read hc]; exact ht
      · rw [step_removeFile (by rw [hpath]; exact nofun)]; exact ht
  have h₂ : s₂ = s₁ := by
    have hkeep := @Prog.Calls.run _ _ _ _ _ _ device (fun t => t = s₁) _
      (Proc.Calls.mapList entry.segments (fun seg _ => segmentOpen_calls catalog seg) x₁)
      (fun c t hc ht => by rw [step_read hc]; exact ht) s₁ rfl
    rw [hsegments] at hkeep
    exact hkeep
  have h₃ : walPath = path ∧ s₃ = s₂ := by
    have hlift : ((Layout.walFile catalog.name 1, x₂), s₂) = ((Except.ok walPath, x₃), s₃) := hlayout
    obtain ⟨hpair, rfl⟩ := Prod.mk.inj hlift
    have hok := (Prod.mk.inj hpair).1
    unfold Layout.walFile Layout.under at hok
    cases hname : checkCollectionName catalog.name with
    | error e => rw [hname] at hok; cases hok
    | ok u =>
      rw [hname] at hok
      exact ⟨by rw [hpath]; exact (Except.ok.inj hok).symm, rfl⟩
  obtain ⟨rfl, rfl⟩ := h₃
  subst h₂
  obtain ⟨rfl, hdir, hcorrupt, hlast, hvalid, htail⟩ := replayInto_run hreplay
  have hrepaired := repairTail_run hro hdir hvalid htail hrepair
  obtain ⟨hwal, d, hd, hlive⟩ := walOpen_run hopen
  have hlog : logBytes s' walPath = logBytes s₅ walPath := (logBytes_file hd).trans hlive
  rw [logBytes_congr h₁] at hcorrupt hrepaired hlast
  refine ⟨hcorrupt, hlog.trans hrepaired, ?_, d, hd⟩
  show wal = _
  rw [hwal, hlast, hlog]

end IshaVectorDb.Engine
