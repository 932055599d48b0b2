import IshaVectorDb.Correctness.Reopening
import IshaVectorDb.Interaction.Keeps

/-!
# `Correctness.Sessions` — **sessions** of writes on one log, each cut off anywhere

A session appends to the log and ends with the log cut off at any byte; the next open cuts it back to its whole
frames, and its writer counts batches from one again. `LogSessions.allOrNothing` says that replay applies the
writes that are all there and nothing of the others, as long as no batch that is cut off shares its number with
one that is committed. Which numbers those are, the `ledger` of the events says. `reused_number` is what happens
otherwise.
-/

namespace IshaVectorDb.Engine

open Format Interaction

/-! ## What a log holds -/

/-- What happens to a log: a write, acknowledged or not, or a cut that leaves so many frames whole. -/
inductive LogEvent
  | wrote (a : LogWrite) (acked : Bool)
  | cut (frames : Nat)

/-- **The writes that a log holds** after some events: the acknowledged ones, in order, and after a cut the first
    so many of them. -/
inductive Holds : List LogEvent → List LogWrite → Prop
  | nil : Holds [] []
  | wrote {events : List LogEvent} {held : List LogWrite} (a : LogWrite) (h : Holds events held) :
      Holds (events ++ [.wrote a true]) (held ++ [a])
  | refused {events : List LogEvent} {held : List LogWrite} (a : LogWrite) (h : Holds events held) :
      Holds (events ++ [.wrote a false]) held
  | cut {events : List LogEvent} {held held' : List LogWrite} (frames : Nat) (h : Holds events held)
      (hle : held' <+: held) : Holds (events ++ [.cut frames]) held'

/-- **Every write all or nothing**: replay applies writes that the log can hold, each with all of its operations,
    and no other operation. -/
def AllOrNothing (events : List LogEvent) (log : Bytes) : Prop :=
  ∃ held, Holds events held ∧ (scan log).committed.map WalFrame.op = held.flatMap LogWrite.ops

/-- What the writers of a log have written, and how many batches the last of them was asked for. -/
structure Ledger where
  entries : List LogEntry
  batches : Nat

namespace Ledger

/-- The number of the next batch: a session counts from one, in 64 bits. -/
def number (l : Ledger) : UInt64 := UInt64.ofNat (l.batches + 1)

/-- A batch that is refused takes a number as well; after a cut, another session counts. -/
def after (l : Ledger) : LogEvent → Ledger
  | .wrote (.single _) acked => ⟨if acked then l.entries ++ [.single] else l.entries, l.batches⟩
  | .wrote (.group ops) acked =>
      ⟨if acked then l.entries ++ [.whole l.number (ops.length + 1)] else l.entries, l.batches + 1⟩
  | .cut frames => ⟨LogEntry.cut frames l.entries, 0⟩

/-- **The batches in the log share no number with the next one** unless all of their frames are there. -/
def Fresh (l : Ledger) : Prop := l.number ≠ 0 ∧ ∀ frames, LogEntry.part l.number frames ∉ l.entries

end Ledger

/-- What the log's writers wrote, by what happened to the log. -/
def ledger (events : List LogEvent) : Ledger := events.foldl Ledger.after ⟨[], 0⟩

theorem ledger_append (events : List LogEvent) (e : LogEvent) : ledger (events ++ [e]) = (ledger events).after e :=
  List.foldl_concat _ _ _ _

/-- **Sessions on the collection `name`**, the first on an empty log. Between two of them the log is cut off at any
    byte, and what else the storage holds may change in any way; each open is the collection's, and the writer it
    gives carries the session's writes out. `mayWrite` and `mayCut` restrict the writes, and the cuts by how many
    frames they leave whole. -/
inductive LogSessions (mayWrite : Ledger → LogWrite → WalWriter → Prop) (mayCut : Ledger → Nat → Prop) (name : Str) :
    List LogEvent → WalWriter → MemoryStorage → Prop
  | first {env : Env} {catalog : Catalog} {entry : CollectionEntry} {coll : CollInner} {s s' : MemoryStorage}
      (hro : env.config.readOnly = false) (hname : catalog.name = name) (hempty : logBytes s (.walFile name 1) = [])
      (hopen : (CollInner.open env catalog entry ()).run device s = ((.ok coll, ()), s')) :
      LogSessions mayWrite mayCut name [] coll.state.wal s'
  | write {events : List LogEvent} {w w' : WalWriter} {s s' : MemoryStorage} {res : Except DbError UInt64}
      (a : LogWrite) (h : LogSessions mayWrite mayCut name events w s) (ha : a.Proper)
      (hmay : mayWrite (ledger events) a w) (hrun : (a.action w).run device s = ((res, w'), s')) :
      LogSessions mayWrite mayCut name (events ++ [.wrote a res.isOk]) w' s'
  | reopen {events : List LogEvent} {w : WalWriter} {s s₁ s' : MemoryStorage} {env : Env} {catalog : Catalog}
      {entry : CollectionEntry} {coll : CollInner} (k frames : Nat) (h : LogSessions mayWrite mayCut name events w s)
      (hcut : logBytes s₁ (.walFile name 1) = (logBytes s (.walFile name 1)).take k)
      (hwhole : (scan (logBytes s₁ (.walFile name 1))).frames.length = frames)
      (hmay : mayCut (ledger events) frames) (hro : env.config.readOnly = false) (hname : catalog.name = name)
      (hopen : (CollInner.open env catalog entry ()).run device s₁ = ((.ok coll, ()), s')) :
      LogSessions mayWrite mayCut name (events ++ [.cut frames]) coll.state.wal s'

/-- A batch whose frames reach the log takes a number that no batch there has of which only part is left. -/
def FreshNumber (l : Ledger) (a : LogWrite) (w : WalWriter) : Prop :=
  ∀ ops, a = .group ops → (∀ f ∈ a.framesOf w, f.Fits) → l.Fresh

/-- The batch that a cut falls into has not the number of a whole batch before it. -/
def SparedNumbers (l : Ledger) (frames : Nat) : Prop := LogEntry.Spared frames l.entries

/-! ## The invariant -/

/-- **How the log stands between two writes**: it is whole frames, and they are the frames of the pieces, whose
    whole writes are what the log holds. The ledger has the pieces, and the number the writer goes on with. -/
structure Kempt (name : Str) (events : List LogEvent) (w : WalWriter) (s : MemoryStorage) (frames : List WalFrame)
    (pieces : List Piece) : Prop where
  opened : LogOpen w s
  path : w.path = .walFile name 1
  log : logBytes s w.path = framesBytes frames
  believed : w.bytes = (logBytes s w.path).length
  fits : ∀ f ∈ frames, f.Fits
  told : Told [] frames pieces
  holds : Holds events (pieces.filterMap Piece.write)
  entries : (ledger events).entries = pieces.map Piece.entry
  numbered : w.nextTxn = (ledger events).number

/-- Handing bytes to the log takes no number. -/
theorem WalWriter.finish_numbers (bytes : Bytes) (next : UInt64 → UInt64) (r : UInt64) (synced : Bool) (t : UInt64) :
    Keeps (fun w : WalWriter => w.nextTxn = t) (WalWriter.finish bytes next r synced) (fun _ => True) := by
  have hwrite : Keeps (fun w : WalWriter => w.nextTxn = t) (WalWriter.write bytes) (fun _ => True) :=
    .next (Keeps.any .get) fun w => .next (.call _) fun offset => .ite (fun _ => .throw _) (fun _ => .modify (fun _ h => h))
  have hsync : Keeps (fun w : WalWriter => w.nextTxn = t) WalWriter.sync (fun _ => True) :=
    .next (Keeps.any .get) fun w => .next (.call _) fun _ => .modify (fun _ h => h)
  exact .next hwrite fun _ => .next (.modify (fun _ h => h)) fun _ =>
    .ite (fun _ => .next hsync (fun _ => .pure trivial)) (fun _ => .pure trivial)

/-- **A batch takes the next number**, whether it is written or refused, and nothing else takes one. -/
theorem LogWrite.action_numbers (a : LogWrite) (w w' : WalWriter) {res : Except DbError UInt64}
    (h : (a.action w).Outcome (res, w')) : w'.nextTxn = match a with
      | .single _ => w.nextTxn
      | .group _ => w.nextTxn + 1 := by
  cases a with
  | single op =>
    have hkeeps : Keeps (fun v : WalWriter => v.nextTxn = w.nextTxn)
        (Proc.bind (Proc.lift (formatAt w.path (WalFrame.standalone w.nextSequence op).encode))
          (fun bytes => WalWriter.finish bytes (· + 1) w.nextSequence w.durability.syncsEveryWrite)) (fun _ => True) :=
      .next (.lift (fun _ _ => trivial)) fun bytes => WalWriter.finish_numbers bytes _ _ _ _
    exact (hkeeps w rfl _ h).1
  | group ops =>
    have hkeeps : Keeps (fun v : WalWriter => v.nextTxn = w.nextTxn + 1)
        (Proc.bind (Proc.lift (formatAt w.path (WalWriter.encodeFrames ((LogWrite.group ops).framesOf w))))
          (fun bytes => WalWriter.finish bytes (fun _ => w.nextSequence + UInt64.ofNat ops.length + 1) w.nextTxn
            w.durability.syncsOnCommit)) (fun _ => True) :=
      .next (.lift (fun _ _ => trivial)) fun bytes => WalWriter.finish_numbers bytes _ _ _ _
    exact (hkeeps { w with nextTxn := w.nextTxn + 1 } rfl _ h).1

section Step

variable {name : Str} {events : List LogEvent} {w w' : WalWriter} {s s' : MemoryStorage} {frames : List WalFrame}
  {pieces : List Piece}

theorem Kempt.scan_eq (h : Kempt name events w s frames pieces) :
    scan (logBytes s w.path) = ⟨frames, .clean, (framesBytes frames).length⟩ := by
  rw [h.log]
  exact scan_frames h.fits

/-- A number that no batch in part has is one that nothing waits for. -/
theorem Kempt.fresh (h : Kempt name events w s frames pieces) (hfresh : (ledger events).Fresh) :
    w.nextTxn ≠ 0 ∧ ¬ Waiting frames w.nextTxn := by
  obtain ⟨h0, hpart⟩ := hfresh
  rw [← h.numbered] at h0 hpart
  refine ⟨h0, fun hwaiting => ?_⟩
  obtain ⟨hnot, f, hf, hnum⟩ := hwaiting
  have hsplit : frames = pieces.flatMap Piece.frames := h.told.split
  rw [hsplit] at hf hnot
  obtain ⟨hf, hop⟩ := List.mem_filter.mp hf
  obtain ⟨p, hp, hf⟩ := List.mem_flatMap.mp hf
  cases p with
  | part ops sequence txnId =>
    rw [txnId_group hf] at hnum
    refine hpart ops.length ?_
    rw [h.entries, ← hnum]
    exact List.mem_map_of_mem (f := Piece.entry) hp
  | whole a sequence txnId =>
    cases a with
    | single op =>
      obtain rfl := List.mem_singleton.mp hf
      exact h0 hnum.symm
    | group ops =>
      have htxn : f.txnId = txnId := by
        rcases List.mem_append.mp hf with hf | hf
        · exact txnId_group hf
        · rw [List.mem_singleton.mp hf]; rfl
      rw [← hnum, htxn] at hnot
      exact hnot ((mem_committedTxns_pieces h.told.proper).mpr ⟨ops, sequence, hp⟩)

/-- **One write.** -/
theorem Kempt.write (h : Kempt name events w s frames pieces) {a : LogWrite} (ha : a.Proper)
    (hfresh : FreshNumber (ledger events) a w) {res : Except DbError UInt64}
    (hrun : (a.action w).run device s = ((res, w'), s')) :
    ∃ frames' pieces', Kempt name (events ++ [.wrote a res.isOk]) w' s' frames' pieces' := by
  obtain ⟨res1, w1, s1, hrun1, hopen, hpath, hlog, hres, hok⟩ := @LogWrite.outcome a w s h.opened .none trivial
  rw [Prog.runWith_none, hrun] at hrun1
  obtain ⟨hpair, rfl⟩ := Prod.mk.inj hrun1
  obtain ⟨rfl, rfl⟩ := Prod.mk.inj (Option.some.inj hpair)
  have hreach : a.reaching w .none = a.encoded w := rfl
  have hout := Prog.outcome_run device (a.action w) s
  rw [hrun] at hout
  have hnumbers := a.action_numbers w w' hout
  have hnumbered : w'.nextTxn = (ledger (events ++ [.wrote a res.isOk])).number := by
    rw [hnumbers, ledger_append, h.numbered]
    cases a with
    | single op => rfl
    | group ops => exact (UInt64.ofNat_add _ 1).symm
  by_cases hfits : ∀ f ∈ a.framesOf w, f.Fits
  · obtain ⟨r, rfl⟩ := hok rfl h.believed hfits
    rcases hres with ⟨⟨e, he⟩, -⟩ | ⟨-, hall, -, hbytes⟩
    · cases he
    rw [hall, h.log, ← framesBytes_append] at hlog
    have htold : Told [] (frames ++ a.framesOf w) (pieces ++ [.whole a w.nextSequence w.nextTxn]) :=
      h.told.write ha (fun ops he => h.fresh (hfresh ops he hfits))
    refine ⟨frames ++ a.framesOf w, pieces ++ [.whole a w.nextSequence w.nextTxn], hopen, hpath.trans h.path, ?_, ?_,
      ?_, htold, ?_, ?_, hnumbered⟩
    · rw [hpath]; exact hlog
    · rw [hpath]; exact hbytes
    · intro f hf
      rcases List.mem_append.mp hf with hf | hf
      · exact h.fits f hf
      · exact hfits f hf
    · rw [List.filterMap_append]
      exact h.holds.wrote a
    · rw [ledger_append, List.map_append, ← h.entries, h.numbered]
      cases a with
      | single op => rfl
      | group ops => rfl
  · -- a write with a frame that is too large changes nothing
    rcases hres with ⟨⟨e, rfl⟩, hbytes⟩ | ⟨hall, -⟩
    · have hnil : a.encoded w = [] := if_neg hfits
      rw [hreach, hnil, List.append_nil] at hlog
      refine ⟨frames, pieces, hopen, hpath.trans h.path, ?_, ?_, h.fits, h.told, h.holds.refused a, ?_, hnumbered⟩
      · rw [hpath, hlog]; exact h.log
      · rw [hpath, hbytes, hlog]; exact h.believed
      · rw [ledger_append, ← h.entries]
        cases a with
        | single op => rfl
        | group ops => rfl
    · exact absurd hall hfits

/-- A cut and the repair of the tail leave the first so many frames. -/
theorem cut_back {fs : List WalFrame} (h : ∀ f ∈ fs, f.Fits) (k : Nat) : ∃ j, j ≤ fs.length ∧
    (scan ((framesBytes fs).take k)).frames = fs.take j ∧
      ((framesBytes fs).take k).take (scan ((framesBytes fs).take k)).validBytes = framesBytes (fs.take j) := by
  obtain ⟨j, hj, hframes, hvalid, -⟩ := scan_cut h k
  refine ⟨j, hj, hframes, ?_⟩
  have hle := (validBytes_le ((framesBytes fs).take k)).1
  rw [hvalid, List.length_take] at hle
  have hsplit : framesBytes fs = framesBytes (fs.take j) ++ framesBytes (fs.drop j) := by
    rw [← framesBytes_append, List.take_append_drop]
  rw [hvalid, List.take_take, Nat.min_eq_left (by omega), hsplit]
  exact List.take_left' rfl

/-- **One cut**, and the open after it. -/
theorem Kempt.reopen (h : Kempt name events w s frames pieces) {s₁ : MemoryStorage} {env : Env} {catalog : Catalog}
    {entry : CollectionEntry} {coll : CollInner} {k whole : Nat}
    (hcut : logBytes s₁ (.walFile name 1) = (logBytes s (.walFile name 1)).take k)
    (hwhole : (scan (logBytes s₁ (.walFile name 1))).frames.length = whole)
    (hspared : SparedNumbers (ledger events) whole) (hro : env.config.readOnly = false) (hname : catalog.name = name)
    (hopen : (CollInner.open env catalog entry ()).run device s₁ = ((.ok coll, ()), s')) :
    ∃ frames' pieces', Kempt name (events ++ [.cut whole]) coll.state.wal s' frames' pieces' := by
  obtain ⟨-, hlog, hwal, d, hd⟩ := open_log hro hopen (show DbPath.walFile name 1 = _ by rw [hname])
  have hpath : coll.state.wal.path = .walFile name 1 := by rw [hwal]
  have hframes := h.log
  rw [h.path] at hframes
  rw [hcut, hframes] at hlog hwhole
  obtain ⟨j, hj, hscan, hback⟩ := cut_back h.fits k
  obtain rfl : j = whole := by
    rw [← hwhole, hscan, List.length_take_of_le hj]
  unfold SparedNumbers at hspared
  rw [h.entries] at hspared
  obtain ⟨kept, htold, hle, hentries⟩ := h.told.take hspared
  refine ⟨frames.take j, kept, ⟨?_, d, by rw [hpath]; exact hd⟩, hpath, ?_, ?_, ?_, htold, h.holds.cut j hle, ?_, ?_⟩
  · rw [hpath, hwal]
  · rw [hpath, hlog, hback]
  · rw [hpath, hwal]
  · intro f hf
    exact h.fits f (List.mem_of_mem_take hf)
  · rw [ledger_append, hentries, ← h.entries]
    rfl
  · rw [ledger_append, hwal]
    rfl

end Step

/-! ## Runs -/

/-- **Batches are all or nothing in every state that sessions reach**, when no batch that is cut off shares its
    number with a whole one: not with one before it in the log when it is cut off, nor with one written later. -/
theorem LogSessions.allOrNothing {name : Str} {events : List LogEvent} {w : WalWriter} {s : MemoryStorage}
    (h : LogSessions FreshNumber SparedNumbers name events w s) : AllOrNothing events (logBytes s w.path) := by
  have hkempt : ∃ frames pieces, Kempt name events w s frames pieces := by
    induction h with
    | first hro hname hempty hopen =>
      obtain ⟨-, hlog, hwal, d, hd⟩ := open_log hro hopen (show DbPath.walFile name 1 = _ by rw [hname])
      rw [hempty, List.take_nil] at hlog
      have hpath := congrArg WalWriter.path hwal
      refine ⟨[], [], ⟨?_, d, by rw [hpath]; exact hd⟩, hpath, ?_, ?_, nofun, Told.start [], .nil, rfl, ?_⟩
      · rw [hpath, hwal]
      · rw [hpath]; exact hlog
      · rw [hpath, hwal]
      · rw [hwal]; rfl
    | write a _ ha hfresh hrun ih =>
      obtain ⟨frames, pieces, hk⟩ := ih
      exact hk.write ha hfresh hrun
    | reopen k whole _ hcut hwhole hspared hro hname hopen ih =>
      obtain ⟨frames, pieces, hk⟩ := ih
      exact hk.reopen hcut hwhole hspared hro hname hopen
  obtain ⟨frames, pieces, hk⟩ := hkempt
  refine ⟨pieces.filterMap Piece.write, hk.holds, ?_⟩
  have hcommitted := hk.told.committed .clean .clean (framesBytes frames).length 0
  rw [applied_eq] at hcommitted
  rw [hk.scan_eq]
  exact hcommitted

/-! ## A batch cut off, and another one under its number -/

theorem Holds.nil_inv {events : List LogEvent} {held : List LogWrite} (h : Holds events held) (hnil : events = []) :
    held = [] := by
  cases h with
  | nil => rfl
  | _ => exact absurd hnil (List.append_ne_nil_of_right_ne_nil _ (List.cons_ne_nil _ _))

theorem Holds.wrote_inv {all events : List LogEvent} {a : LogWrite} {held : List LogWrite} (h : Holds all held)
    (hall : all = events ++ [.wrote a true]) : ∃ held', Holds events held' ∧ held = held' ++ [a] := by
  cases h with
  | nil => exact absurd hall.symm (List.append_ne_nil_of_right_ne_nil _ (List.cons_ne_nil _ _))
  | wrote b h =>
    obtain ⟨rfl, he⟩ := List.append_inj' hall rfl
    cases he
    exact ⟨_, h, rfl⟩
  | refused b h => cases (List.append_inj' hall rfl).2
  | cut frames h hle => cases (List.append_inj' hall rfl).2

theorem Holds.cut_inv {all events : List LogEvent} {whole : Nat} {held : List LogWrite} (h : Holds all held)
    (hall : all = events ++ [.cut whole]) : ∃ held', Holds events held' ∧ held <+: held' := by
  cases h with
  | nil => exact absurd hall.symm (List.append_ne_nil_of_right_ne_nil _ (List.cons_ne_nil _ _))
  | wrote b h => cases (List.append_inj' hall rfl).2
  | refused b h => cases (List.append_inj' hall rfl).2
  | cut frames h hle =>
    obtain ⟨rfl, -⟩ := List.append_inj' hall rfl
    exact ⟨_, h, hle⟩

section Example

def someName : Str := ⟨[100], utf8_d⟩

def someCatalog : Catalog := ⟨someName, 1, .l2, .f32, .str 8, .flat, 0⟩

def someEnv : Env := ⟨⟨true, false, .full, 1⟩, 0, fun _ => ⟨0, Reader.finite32_zero⟩⟩

/-- The storage of a database with the collection's log directory. -/
def someDirs : MemoryStorage := MemoryStorage.new.put (.walDir someName) .dir

/-- Open the collection, which has no segments. -/
def someOpen (s : MemoryStorage) : (Except DbError CollInner × Unit) × MemoryStorage :=
  (CollInner.open someEnv someCatalog ⟨someName, [], none, 0, 0, 0⟩ ()).run device s

/-- The writer that the open leaves. -/
def openedWriter (s : MemoryStorage) : WalWriter :=
  ⟨⟨someLog, true⟩, someLog, saturatingSucc (lastSequence (scan (logBytes s someLog)).frames), 1,
    (logBytes (someOpen s).2 someLog).length, .full, false⟩

theorem someOpen_wal {s : MemoryStorage} (h : (someOpen s).1.1.isOk = true) : ∃ coll,
    (CollInner.open someEnv someCatalog ⟨someName, [], none, 0, 0, 0⟩ ()).run device s =
      ((.ok coll, ()), (someOpen s).2) ∧ coll.state.wal = openedWriter s := by
  cases hr : (CollInner.open someEnv someCatalog ⟨someName, [], none, 0, 0, 0⟩ ()).run device s with
  | mk r s' =>
    have hopen : someOpen s = (r, s') := hr
    obtain ⟨r, u⟩ := r
    unfold openedWriter
    rw [hopen] at h ⊢
    cases r with
    | error e => cases h
    | ok coll =>
      obtain ⟨-, -, hwal, -⟩ := @open_log Unit () s someLog someEnv rfl someCatalog _ coll () s' hr rfl
      exact ⟨coll, rfl, hwal⟩

def batchAB : LogWrite := .group [.delete [97], .delete [98]]

def batchC : LogWrite := .group [.delete [99]]

/-- The log cut off behind the first frame of the batch `batchAB`. -/
def cutLog : MemoryStorage := someDirs.put someLog (.file ⟨(WalFrame.inTxn 1 1 (.delete [97])).bytes, []⟩)

/-- A batch, the log cut off behind its first operation, and a reopening. -/
theorem allOrNothing_cut : ∃ w s,
    LogSessions FreshNumber SparedNumbers someName [.wrote batchAB true, .cut 1] w s ∧
    AllOrNothing [.wrote batchAB true, .cut 1] (logBytes s w.path) := by
  obtain ⟨coll₁, h₁, hw₁⟩ := someOpen_wal (show (someOpen someDirs).1.1.isOk = true by decide +kernel)
  have hs₁ : LogSessions FreshNumber SparedNumbers someName [] _ _ := .first rfl rfl (by decide) h₁
  rw [hw₁] at hs₁
  have hs₂ := hs₁.write batchAB (by decide) (fun _ _ _ => ⟨by decide, fun _ => List.not_mem_nil⟩) rfl
  rw [show Except.isOk _ = true by decide +kernel] at hs₂
  obtain ⟨coll₃, h₃, hw₃⟩ := someOpen_wal (show (someOpen cutLog).1.1.isOk = true by decide +kernel)
  -- the batch is the only one in the log, so there is none before it
  have hspared : SparedNumbers (ledger ([] ++ [.wrote batchAB true])) 1 := by
    intro before number n rest hsplit _ _ n' hmem
    cases before with
    | nil => cases hmem
    | cons e before => exact absurd (congrArg List.length hsplit) (by simp [ledger, Ledger.after, batchAB])
  have hs₃ := hs₂.reopen 13 1 (show logBytes cutLog someLog = _ by decide +kernel)
    (show (scan (logBytes cutLog someLog)).frames.length = 1 by decide +kernel) hspared rfl rfl h₃
  exact ⟨_, _, hs₃, hs₃.allOrNothing⟩

/-- **A number used twice**: `batchAB` is cut off behind its first operation, and the next session's first batch,
    under the same number, commits that operation. -/
theorem reused_number : ∃ events w s, LogSessions (fun _ _ _ => True) (fun _ _ => True) someName events w s ∧
    ¬ AllOrNothing events (logBytes s w.path) := by
  obtain ⟨coll₁, h₁, hw₁⟩ := someOpen_wal (show (someOpen someDirs).1.1.isOk = true by decide +kernel)
  have hs₁ : LogSessions (fun _ _ _ => True) (fun _ _ => True) someName [] _ _ := .first rfl rfl (by decide) h₁
  rw [hw₁] at hs₁
  have hs₂ := hs₁.write batchAB (by decide) trivial rfl
  rw [show Except.isOk _ = true by decide +kernel] at hs₂
  obtain ⟨coll₃, h₃, hw₃⟩ := someOpen_wal (show (someOpen cutLog).1.1.isOk = true by decide +kernel)
  have hs₃ := hs₂.reopen 13 1 (show logBytes cutLog someLog = _ by decide +kernel)
    (show (scan (logBytes cutLog someLog)).frames.length = 1 by decide +kernel) trivial rfl rfl h₃
  rw [hw₃] at hs₃
  have hs₄ := hs₃.write batchC (by decide) trivial rfl
  rw [show Except.isOk _ = true by decide +kernel] at hs₄
  refine ⟨_, _, _, hs₄, ?_⟩
  rintro ⟨held, hheld, hops⟩
  -- the log can hold the second batch behind some of the first, which it would have to apply whole
  obtain ⟨held₃, hheld₃, rfl⟩ := hheld.wrote_inv rfl
  obtain ⟨held₂, hheld₂, hle⟩ := hheld₃.cut_inv rfl
  obtain ⟨held₁, hheld₁, rfl⟩ := hheld₂.wrote_inv rfl
  rw [hheld₁.nil_inv rfl] at hle
  have hboth : [WalOp.delete [97], .delete [99]] = _ := Eq.trans (by decide +kernel) hops
  rcases List.prefix_cons_iff.mp hle with rfl | ⟨rest, rfl, hrest⟩
  · exact absurd hboth (by decide)
  · rw [List.prefix_nil.mp hrest] at hboth
    exact absurd hboth (by decide)

end Example

end IshaVectorDb.Engine
