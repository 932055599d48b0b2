import IshaVectorDb.Correctness.Batches

/-!
# `Correctness.LogRuns` — a **session** of writes to a log, some of them failing

In a session the process writes and carries on, whatever each write reports. `LogSession.replayable` says that
the log stays replayable as long as no write lands behind a frame that an earlier one left unfinished, and the
batches keep their numbers apart; `torn_then_written` is what happens otherwise.
-/

namespace IshaVectorDb.Engine

open Format Interaction

/-! ## What a log may hold after a session -/

/-- Writes in the order they were asked for, each with whether it was acknowledged. -/
abbrev History := List (LogWrite × Bool)

/-- **Which writes of a history count**: every acknowledged one, and any of the others, each in its place. -/
inductive Kept : History → List LogWrite → Prop
  | nil : Kept [] []
  | keep {history : History} {kept : List LogWrite} (a : LogWrite) (acked : Bool) (h : Kept history kept) :
      Kept (history ++ [(a, acked)]) (kept ++ [a])
  | drop {history : History} {kept : List LogWrite} (a : LogWrite) (h : Kept history kept) :
      Kept (history ++ [(a, false)]) kept

/-- **The log can be replayed**: its tail is not corrupt, and replay applies what it would have applied before the
    session, then every acknowledged write in order, and of each other write all or nothing. -/
def Replayable (before : Bytes) (history : History) (log : Bytes) : Prop :=
  ¬ (scan log).tail.IsCorrupt ∧ ∃ kept, Kept history kept ∧
    (scan log).committed.map WalFrame.op = (scan before).committed.map WalFrame.op ++ kept.flatMap LogWrite.ops

/-- **A session**: writes one after the other, each under a fault that the process survives and that `allowed`
    allows to the write in the writer's state and on the log it finds. -/
inductive LogSession (allowed : LogWrite → Fault DbError → WalWriter → Bytes → Prop) (w₀ : WalWriter)
    (s₀ : MemoryStorage) : History → WalWriter → MemoryStorage → Prop
  | start : LogSession allowed w₀ s₀ [] w₀ s₀
  | write {history : History} {w w' : WalWriter} {s s' : MemoryStorage} {res : Except DbError UInt64} (a : LogWrite)
      (fault : Fault DbError) (h : LogSession allowed w₀ s₀ history w s) (ha : a.Proper) (hf : fault.Survived)
      (hallowed : allowed a fault w (logBytes s w.path))
      (hrun : (a.action w).runWith device s fault = (some (res, w'), s')) :
      LogSession allowed w₀ s₀ (history ++ [(a, res.isOk)]) w' s'

/-- A batch of which `written` reaches the log takes a number of its own: whole, it commits no operation that waits
    in the log; cut short, none of its operations is committed already. -/
def LogWrite.Numbered (a : LogWrite) (w : WalWriter) (frames : List WalFrame) (written : Bytes) : Prop := match a with
  | .single _ => True
  | .group _ => w.nextTxn ≠ 0 ∧
      if written = a.encoded w then ¬ Waiting frames w.nextTxn
      else (scan written).frames ≠ [] → w.nextTxn ∉ committedTxns frames

/-- **A harmless write**: nothing of it reaches the log; or the log ends in an unfinished frame and still does
    afterwards; or the log ends with a whole frame, and a batch takes a number of its own. -/
def LogWrite.Harmless (a : LogWrite) (fault : Fault DbError) (w : WalWriter) (log : Bytes) : Prop :=
  a.reaching w fault = [] ∨
    (scan log).tail ≠ .clean ∧ WalFrame.Incomplete (log.drop (scan log).validBytes ++ a.reaching w fault) ∨
    (scan log).tail = .clean ∧ a.Numbered w (scan log).frames (a.reaching w fault)

/-! ## Logs that end in an unfinished frame -/

/-- The beginning of a frame is incomplete. -/
theorem incomplete_take {f : WalFrame} (hf : f.Fits) {n : Nat} (hn : n < f.bytes.length) :
    WalFrame.Incomplete (f.bytes.take n) := by
  have hlen : (f.bytes.take n).length = n := by rw [List.length_take]; omega
  by_cases h8 : n < frameHeaderLen
  · exact .inl (by rw [hlen]; exact h8)
  have hfirst : (f.bytes.take n).take 4 = Writer.u32 (UInt32.ofNat f.body.length) := by
    have h4 : 4 ≤ n := by
      have : frameHeaderLen = 8 := rfl
      omega
    rw [List.take_take, Nat.min_eq_left h4]
    exact List.take_left' (Writer.u32_length _)
  have hdecl : WalFrame.declaredLen (f.bytes.take n) = f.body.length := by
    unfold WalFrame.declaredLen
    rw [hfirst]
    have hlt := Parsing.leNat_lt (Writer.u32 (UInt32.ofNat f.body.length))
    have h256 : (256 : Nat) ^ 4 = 2 ^ 32 := by decide
    rw [Writer.u32_length, h256] at hlt
    have hword : Parsing.leNat (Writer.u32 (UInt32.ofNat f.body.length)) % 2 ^ 32 = f.body.length := by
      rw [← UInt32.toNat_ofNat', Writer.u32, Parsing.leNat_u32, WalFrame.bodyLen_toNat hf]
    exact (Nat.mod_eq_of_lt hlt).symm.trans hword
  refine .inr ⟨by rw [hdecl]; exact hf, ?_⟩
  rw [hdecl, hlen, ← WalFrame.bytes_length]
  exact hn

/-- The scan of whole frames and at most one that is incomplete. -/
theorem scan_incomplete {fs : List WalFrame} (h : ∀ f ∈ fs, f.Fits) {tear : Bytes}
    (htear : tear = [] ∨ WalFrame.Incomplete tear) :
    (scan (framesBytes fs ++ tear)).frames = fs ∧ (scan (framesBytes fs ++ tear)).validBytes = (framesBytes fs).length ∧
      ¬ (scan (framesBytes fs ++ tear)).tail.IsCorrupt ∧
      ((scan (framesBytes fs ++ tear)).tail = .clean ↔ tear = []) := by
  by_cases hnil : tear = []
  · rw [hnil, List.append_nil, scan_frames h]
    exact ⟨rfl, rfl, id, fun _ => rfl, fun _ => rfl⟩
  · obtain ⟨e, he, hT⟩ := WalFrame.decodeAt_incomplete (htear.resolve_left hnil) (framesBytes fs).length
    rw [scan_rest h hnil he, tailOf, if_pos hT]
    exact ⟨rfl, rfl, id, fun h => (by cases h), fun h => absurd h hnil⟩

/-! ## The invariant of a session -/

/-- **How a session stands**: the log is whole frames and at most one unfinished frame, the frames are those of
    `base` and of the pieces that the session wrote, and the writer believes the log to end where it ends or
    before; before, when a frame is unfinished. -/
structure Standing (base : List WalFrame) (history : History) (w : WalWriter) (s : MemoryStorage)
    (frames : List WalFrame) (tear : Bytes) (pieces : List Piece) : Prop where
  opened : LogOpen w s
  log : logBytes s w.path = framesBytes frames ++ tear
  fits : ∀ f ∈ frames, f.Fits
  torn : tear = [] ∨ WalFrame.Incomplete tear
  told : Told base frames pieces
  kept : Kept history (pieces.filterMap Piece.write)
  believed : w.bytes ≤ (logBytes s w.path).length
  short : tear ≠ [] → w.bytes < (logBytes s w.path).length

theorem LogWrite.framesOf_ne_nil (a : LogWrite) (w : WalWriter) : a.framesOf w ≠ [] := by
  cases a with
  | single op => exact List.cons_ne_nil _ _
  | group ops => exact List.append_ne_nil_of_right_ne_nil _ (List.cons_ne_nil _ _)

theorem framesBytes_ne_nil {fs : List WalFrame} (h : fs ≠ []) : framesBytes fs ≠ [] := by
  intro hnil
  have hlen := length_le_framesBytes fs
  rw [hnil] at hlen
  exact h (List.length_eq_zero_iff.mp (Nat.le_zero.mp hlen))

/-- What reaches the log is all of the write, or the beginning of it. -/
theorem LogWrite.reaching_cases (a : LogWrite) (w : WalWriter) (fault : Fault DbError) :
    a.reaching w fault = a.encoded w ∨ ∃ n, n < (a.encoded w).length ∧ a.reaching w fault = (a.encoded w).take n := by
  unfold reaching
  split
  · rename_i n
    by_cases hn : n < (a.encoded w).length
    · exact .inr ⟨n, hn, rfl⟩
    · exact .inl (List.take_of_length_le (Nat.not_lt.mp hn))
  · exact .inl rfl

section Step

variable {base : List WalFrame} {history : History} {w w' : WalWriter} {s s' : MemoryStorage} {frames : List WalFrame}
  {tear : Bytes} {pieces : List Piece}

/-- **A failed write that adds no whole frame**: nothing of it counts. -/
theorem Standing.failed (h : Standing base history w s frames tear pieces) (hopen : LogOpen w' s')
    (hpath : w'.path = w.path) (hbytes : w'.bytes = w.bytes) {written : Bytes}
    (hlog : logBytes s' w.path = logBytes s w.path ++ written)
    (htear : tear ++ written = [] ∨ WalFrame.Incomplete (tear ++ written)) (a : LogWrite) :
    Standing base (history ++ [(a, false)]) w' s' frames (tear ++ written) pieces := by
  have hlen : (logBytes s' w'.path).length = (logBytes s w.path).length + written.length := by
    rw [hpath, hlog, List.length_append]
  have hle := h.believed
  refine ⟨hopen, ?_, h.fits, htear, h.told, .drop a h.kept, ?_, ?_⟩
  · rw [hpath, hlog, h.log, List.append_assoc]
  · rw [hlen, hbytes]; omega
  · intro hne
    rw [hlen, hbytes]
    by_cases hnil : tear = []
    · have hpos : 0 < written.length := by
        apply List.length_pos_iff.mpr
        intro hw
        exact hne (by rw [hnil, hw]; rfl)
      omega
    · have hshort := h.short hnil
      omega

/-- **A write that reaches the log whole.** -/
theorem Standing.whole (h : Standing base history w s frames [] pieces) (hopen : LogOpen w' s')
    (hpath : w'.path = w.path) (hbytes : w'.bytes ≤ (logBytes s' w'.path).length) {a : LogWrite} (ha : a.Proper)
    (hfits : ∀ f ∈ a.framesOf w, f.Fits) (hlog : logBytes s' w.path = logBytes s w.path ++ framesBytes (a.framesOf w))
    (hnumber : ∀ ops, a = .group ops → w.nextTxn ≠ 0 ∧ ¬ Waiting frames w.nextTxn) (acked : Bool) :
    Standing base (history ++ [(a, acked)]) w' s' (frames ++ a.framesOf w) []
      (pieces ++ [.whole a w.nextSequence w.nextTxn]) := by
  refine ⟨hopen, ?_, ?_, .inl rfl, h.told.write ha hnumber, ?_, hbytes, fun hne => absurd rfl hne⟩
  · rw [hpath, hlog, h.log, List.append_nil, List.append_nil, framesBytes_append]
  · intro f hf
    rcases List.mem_append.mp hf with hf | hf
    · exact h.fits f hf
    · exact hfits f hf
  · rw [List.filterMap_append]
    exact h.kept.keep a acked

/-- **A batch cut short behind whole frames**: it stays uncommitted. -/
theorem Standing.cutShort (h : Standing base history w s frames [] pieces) (hopen : LogOpen w' s')
    (hpath : w'.path = w.path) (hbytes : w'.bytes = w.bytes) {a : LogWrite} (ha : a.Proper)
    (hfits : ∀ f ∈ a.framesOf w, f.Fits) {j : Nat} (h0 : 0 < j) (hj : j < (a.framesOf w).length) {rest : Bytes}
    (hrest : rest = [] ∨ WalFrame.Incomplete rest)
    (hlog : logBytes s' w.path = logBytes s w.path ++ (framesBytes ((a.framesOf w).take j) ++ rest))
    (hnumber : ∀ ops, a = .group ops → w.nextTxn ≠ 0 ∧ w.nextTxn ∉ committedTxns frames) :
    ∃ pieces', Standing base (history ++ [(a, false)]) w' s' (frames ++ (a.framesOf w).take j) rest pieces' := by
  cases a with
  | single op =>
    have h1 : j < 1 := hj
    omega
  | group ops =>
    obtain ⟨hzero, hapart⟩ := hnumber ops rfl
    have hproper : (Piece.whole (.group ops) w.nextSequence w.nextTxn).Proper := ⟨ha, fun _ _ => hzero⟩
    obtain ⟨cut, hpart, htake, -⟩ := piece_take hproper h0 hj
    have htaken : (((LogWrite.group ops).framesOf w).take j) = WalWriter.groupFrames w.nextSequence w.nextTxn cut := htake
    have hlen : (logBytes s w.path).length < (logBytes s' w'.path).length := by
      have hpos : 0 < (framesBytes (((LogWrite.group ops).framesOf w).take j)).length := by
        apply List.length_pos_iff.mpr
        apply framesBytes_ne_nil
        intro hnil
        have := congrArg List.length hnil
        rw [List.length_take, List.length_nil] at this
        omega
      rw [hpath, hlog, List.length_append, List.length_append]
      omega
    have hle := h.believed
    have htold : Told base (frames ++ WalWriter.groupFrames w.nextSequence w.nextTxn cut)
        (pieces ++ [.part cut w.nextSequence w.nextTxn]) := h.told.cutShort hpart hapart
    rw [← htaken] at htold
    refine ⟨_, hopen, ?_, ?_, hrest, htold, ?_, by omega, fun _ => by omega⟩
    · rw [hpath, hlog, h.log, List.append_nil, framesBytes_append, List.append_assoc]
    · intro f hf
      rcases List.mem_append.mp hf with hf | hf
      · exact h.fits f hf
      · exact hfits f (List.mem_of_mem_take hf)
    · rw [List.filterMap_append]
      exact (List.append_nil _).symm ▸ h.kept.drop _

/-- **One harmless write.** -/
theorem Standing.step (h : Standing base history w s frames tear pieces) {a : LogWrite} (ha : a.Proper)
    {fault : Fault DbError} (hf : fault.Survived) (hharm : a.Harmless fault w (logBytes s w.path))
    {res : Except DbError UInt64} (hrun : (a.action w).runWith device s fault = (some (res, w'), s')) :
    ∃ frames' tear' pieces', Standing base (history ++ [(a, res.isOk)]) w' s' frames' tear' pieces' := by
  obtain ⟨res1, w1, s1, hrun1, hopen, hpath, hlog, hres, -⟩ := a.outcome h.opened hf
  rw [hrun] at hrun1
  obtain ⟨hpair, rfl⟩ := Prod.mk.inj hrun1
  obtain ⟨rfl, rfl⟩ := Prod.mk.inj (Option.some.inj hpair)
  obtain ⟨hframes, hvalid, -, hclean⟩ := scan_incomplete h.fits h.torn
  rw [← h.log] at hframes hvalid hclean
  have hne := framesBytes_ne_nil (a.framesOf_ne_nil w)
  rcases hharm with hnone | ⟨htail, hinc⟩ | ⟨htail, hnumber⟩
  · -- nothing reaches the log, so the write was not acknowledged
    rcases hres with ⟨⟨e, rfl⟩, hbytes⟩ | ⟨-, hall, -, -⟩
    · refine ⟨frames, tear ++ a.reaching w fault, pieces, h.failed hopen hpath hbytes hlog ?_ a⟩
      rw [hnone, List.append_nil]
      exact h.torn
    · exact absurd (hall.symm.trans hnone) hne
  · -- behind an unfinished frame the writer is mistaken about the end of the log, so it refuses every write
    have htear : tear ≠ [] := fun hnil => htail (hclean.mpr hnil)
    have hrest : (logBytes s w.path).drop (scan (logBytes s w.path)).validBytes = tear := by
      rw [hvalid, h.log, List.drop_left]
    rw [hrest] at hinc
    rcases hres with ⟨⟨e, rfl⟩, hbytes⟩ | ⟨-, -, hend, -⟩
    · exact ⟨frames, tear ++ a.reaching w fault, pieces, h.failed hopen hpath hbytes hlog (.inr hinc) a⟩
    · have hlt := h.short htear
      omega
  obtain rfl := hclean.mp htail
  rw [hframes] at hnumber
  by_cases hfits : ∀ f ∈ a.framesOf w, f.Fits
  swap
  · -- too large to frame: nothing reaches the log
    have hnil : a.encoded w = [] := if_neg hfits
    have hnone : a.reaching w fault = [] := by
      rcases a.reaching_cases w fault with hall | ⟨n, hn, -⟩
      · rw [hall, hnil]
      · rw [hnil] at hn
        exact absurd hn (Nat.not_lt_zero n)
    rcases hres with ⟨⟨e, rfl⟩, hbytes⟩ | ⟨hall, -⟩
    · refine ⟨frames, [] ++ a.reaching w fault, pieces, h.failed hopen hpath hbytes hlog ?_ a⟩
      rw [hnone]
      exact .inl rfl
    · exact absurd hall hfits
  have hencoded : a.encoded w = framesBytes (a.framesOf w) := if_pos hfits
  have hle := h.believed
  rcases a.reaching_cases w fault with hall | ⟨n, hn, hcut⟩
  · -- the whole write reaches the log
    rw [hall, hencoded] at hlog
    refine ⟨_, [], _, h.whole hopen hpath ?_ ha hfits hlog (fun ops he => ?_) res.isOk⟩
    · rw [hpath]
      rcases hres with ⟨-, hbytes⟩ | ⟨-, -, -, hbytes⟩
      · rw [hbytes, hlog, List.length_append]; omega
      · exact Nat.le_of_eq hbytes
    · subst he
      obtain ⟨hzero, hfree⟩ := hnumber
      rw [if_pos hall] at hfree
      exact ⟨hzero, hfree⟩
  · -- some of it does: whole frames, and the beginning of the next one
    have hpart : a.reaching w fault ≠ a.encoded w := by
      intro heq
      have hlen := congrArg List.length (hcut.symm.trans heq)
      rw [List.length_take] at hlen
      omega
    rcases hres with ⟨⟨e, rfl⟩, hbytes⟩ | ⟨-, hall, -⟩
    swap
    · exact absurd (hall.trans hencoded.symm) hpart
    rw [hencoded] at hn hcut
    obtain ⟨j, hj, rest, hsplit, hrest, hlt⟩ : ∃ j ≤ (a.framesOf w).length, ∃ rest,
        a.reaching w fault = framesBytes ((a.framesOf w).take j) ++ rest ∧ (rest = [] ∨ WalFrame.Incomplete rest) ∧
          j < (a.framesOf w).length := by
      obtain ⟨j, hj, -, ⟨hlen, hc⟩ | ⟨f, m, hfj, -, hm, -, hc⟩⟩ := take_framesBytes (a.framesOf w) n (Nat.le_of_lt hn)
      · refine ⟨j, hj, [], ?_, .inl rfl, ?_⟩
        · rw [hcut, hc, List.append_nil]
        · by_contra hge
          rw [List.take_of_length_le (Nat.not_lt.mp hge)] at hlen
          omega
      · have hfit := hfits f (List.mem_of_getElem? hfj)
        refine ⟨j, hj, f.bytes.take m, hcut.trans hc, .inr (incomplete_take hfit hm), ?_⟩
        exact (List.getElem?_eq_some_iff.mp hfj).1
    by_cases h0 : j = 0
    · -- not even the first frame
      rw [h0] at hsplit
      have hmine : a.reaching w fault = rest := hsplit
      exact ⟨frames, [] ++ a.reaching w fault, pieces, h.failed hopen hpath hbytes hlog (by rw [hmine]; exact hrest) a⟩
    · rw [hsplit] at hlog
      obtain ⟨pieces', hstand⟩ := h.cutShort hopen hpath hbytes ha hfits (Nat.pos_of_ne_zero h0) hlt hrest hlog (by
        intro ops he
        subst he
        obtain ⟨hzero, hfree⟩ := hnumber
        rw [if_neg hpart] at hfree
        refine ⟨hzero, hfree ?_⟩
        have htaken : ∀ f ∈ ((LogWrite.group ops).framesOf w).take j, f.Fits := fun f hf =>
          hfits f (List.mem_of_mem_take hf)
        rw [hsplit, (scan_incomplete htaken hrest).1]
        intro hnil
        have hlen := congrArg List.length hnil
        rw [List.length_take, List.length_nil] at hlen
        omega)
      exact ⟨_, rest, pieces', hstand⟩

end Step

/-! ## Sessions -/

/-- A log that was opened: whole frames, and a writer that knows where they end. -/
structure LogReady (w : WalWriter) (s : MemoryStorage) : Prop where
  opened : LogOpen w s
  clean : (scan (logBytes s w.path)).tail = .clean
  believed : w.bytes = (logBytes s w.path).length

/-- **A session of harmless writes keeps the log replayable**, in every state it reaches. -/
theorem LogSession.replayable {w₀ w : WalWriter} {s₀ s : MemoryStorage} {history : History} (h₀ : LogReady w₀ s₀)
    (h : LogSession LogWrite.Harmless w₀ s₀ history w s) :
    Replayable (logBytes s₀ w₀.path) history (logBytes s w.path) := by
  obtain ⟨base, rest, hfits, hlog, hcase⟩ := scan_split (logBytes s₀ w₀.path)
  have hclean : rest = [] ∧ scan (logBytes s₀ w₀.path) = ⟨base, .clean, (framesBytes base).length⟩ := by
    rcases hcase with hcase | ⟨e, hne, he, hscan⟩
    · exact hcase
    · have htail := h₀.clean
      rw [hscan] at htail
      unfold tailOf at htail
      split at htail <;> cases htail
  obtain ⟨rfl, hscan⟩ := hclean
  -- the invariant, from the opened log on
  have hstand : ∃ frames tear pieces, Standing base history w s frames tear pieces := by
    induction h with
    | start =>
      refine ⟨base, [], [], h₀.opened, hlog, hfits, .inl rfl, Told.start base, .nil, Nat.le_of_eq h₀.believed, ?_⟩
      intro hne
      exact absurd rfl hne
    | write a fault _ ha hf hharm hrun ih =>
      obtain ⟨frames, tear, pieces, hs⟩ := ih
      exact hs.step ha hf hharm hrun
  obtain ⟨frames, tear, pieces, hs⟩ := hstand
  obtain ⟨hframes, -, hcorrupt, -⟩ := scan_incomplete hs.fits hs.torn
  rw [← hs.log] at hframes hcorrupt
  refine ⟨hcorrupt, _, hs.kept, ?_⟩
  have hcommitted := hs.told.committed (scan (logBytes s w.path)).tail .clean (scan (logBytes s w.path)).validBytes
    (framesBytes base).length
  rw [applied_eq] at hcommitted
  rw [hscan, ← hcommitted, ← hframes]

/-- The path of a log. -/
def someLog : DbPath := .walFile ⟨[100], utf8_d⟩ 1

/-- A writer on an empty log. -/
def someWriter : WalWriter := ⟨⟨someLog, true⟩, someLog, 1, 1, 0, .full, false⟩

/-- Storage with an empty log. -/
def someStorage : MemoryStorage := MemoryStorage.new.put someLog (.file ⟨[], []⟩)

theorem someReady : LogReady someWriter someStorage :=
  ⟨⟨rfl, ⟨[], []⟩, by decide⟩, by decide, by decide⟩

/-- A write that is acknowledged, and one of which nine bytes are left. -/
theorem replayable_after_torn : ∃ w s,
    LogSession LogWrite.Harmless someWriter someStorage
      [(.single (.delete [7]), true), (.single (.delete [9]), false)] w s ∧
    Replayable (logBytes someStorage someLog) [(.single (.delete [7]), true), (.single (.delete [9]), false)]
      (logBytes s w.path) := by
  have h : LogSession LogWrite.Harmless someWriter someStorage _ _ _ :=
    (LogSession.start.write (.single (.delete [7])) .none (by decide) trivial (.inr (.inr ⟨by decide +kernel, trivial⟩))
      rfl).write (.single (.delete [9])) (.fail 0 .databaseNotFound 9) (by decide) trivial
        (.inr (.inr ⟨by decide +kernel, trivial⟩)) rfl
  exact ⟨_, _, h, LogSession.replayable someReady h⟩

/-- **Written behind a torn frame**: nine bytes of one write are left, and the next one lands behind them. -/
theorem torn_then_written : LogReady someWriter someStorage ∧ ∃ history w s,
    LogSession (fun _ _ _ _ => True) someWriter someStorage history w s ∧
    ¬ Replayable (logBytes someStorage someLog) history (logBytes s w.path) := by
  refine ⟨someReady, ?_⟩
  have h : LogSession (fun _ _ _ _ => True) someWriter someStorage _ _ _ :=
    (LogSession.start.write (.single (.delete [7])) (.fail 0 .databaseNotFound 9) (by decide) trivial trivial
      rfl).write (.single (.delete [9])) .none (by decide) trivial trivial rfl
  exact ⟨_, _, _, h, fun hreplay => hreplay.1 (by decide +kernel)⟩

end IshaVectorDb.Engine
