import IshaVectorDb.Interaction.Faults
import IshaVectorDb.Correctness.LogScan

/-!
# `Correctness.LogWrites` — a write to the log, **whatever befalls it**

A write is one operation or one batch. `LogWrite.outcome` says what it leaves in the log's file when at most one
of its storage calls fails: the log before it, and behind that as many of its bytes as reached the file. Nothing
is said about where the writer believes the log to end, because a failed append leaves the two apart.
-/

namespace IshaVectorDb.Engine

open Format Interaction

/-- One write: a standalone operation or a batch. -/
inductive LogWrite
  | single (op : WalOp)
  | group (ops : List WalOp)
deriving DecidableEq

namespace LogWrite

/-- The operations it asks for. -/
def ops : LogWrite → List WalOp
  | single op => [op]
  | group ops => ops

/-- The writer's method that carries it out. -/
def action : LogWrite → Action WalWriter UInt64
  | single op => WalWriter.append op
  | group ops => WalWriter.appendGroup ops

/-- Whether it is made durable at once. -/
def syncs (mode : Durability) : LogWrite → Bool
  | single _ => mode.syncsEveryWrite
  | group _ => mode.syncsOnCommit

/-- Its frames, at a sequence number and a transaction number. -/
def frames (sequence txnId : UInt64) : LogWrite → List WalFrame
  | single op => [WalFrame.standalone sequence op]
  | group ops => WalWriter.groupFrames sequence txnId ops ++
      [WalFrame.inTxn (sequence + UInt64.ofNat ops.length) txnId (.commit (UInt64.ofNat ops.length))]

/-- The frames that the writer would give it. -/
def framesOf (a : LogWrite) (w : WalWriter) : List WalFrame := a.frames w.nextSequence w.nextTxn

/-- The bytes it hands to the file: none when one of its frames is too large. -/
def encoded (a : LogWrite) (w : WalWriter) : Bytes :=
  if ∀ f ∈ a.framesOf w, f.Fits then framesBytes (a.framesOf w) else []

/-- The bytes that reach the file: a failing append leaves any number of the first of them. -/
def reaching (a : LogWrite) (w : WalWriter) : Fault DbError → Bytes
  | .fail 0 _ n => (a.encoded w).take n
  | _ => a.encoded w

end LogWrite

/-- What the storage holds under the log's path. -/
def logBytes (s : MemoryStorage) (path : DbPath) : Bytes := match s.get path with
  | some (.file d) => d.live
  | _ => []

theorem logBytes_file {s : MemoryStorage} {path : DbPath} {d : FileData} (h : s.get path = some (.file d)) :
    logBytes s path = d.live := by unfold logBytes; rw [h]

/-- A log's file is there, open for writing. -/
structure LogOpen (w : WalWriter) (s : MemoryStorage) : Prop where
  file : w.file = ⟨w.path, true⟩
  there : ∃ d, s.get w.path = some (.file d)

/-! ## The calls of a write -/

/-- What a write does once its bytes are encoded. -/
def WalWriter.finish (bytes : Bytes) (next : UInt64 → UInt64) (r : UInt64) (synced : Bool) : Action WalWriter UInt64 := do
  WalWriter.write bytes
  Proc.modify (fun w => { w with nextSequence := next w.nextSequence })
  if synced then do
    WalWriter.sync
    return r
  else return r

/-- The memory of a writer whose bytes landed at the end of the log. -/
def WalWriter.landed (w : WalWriter) (bytes : Bytes) (next : UInt64 → UInt64) : WalWriter :=
  { w with bytes := w.bytes + bytes.length, nextSequence := next w.nextSequence, unsynced := true }

theorem WalWriter.finish_eq (w : WalWriter) (bytes : Bytes) (next : UInt64 → UInt64) (r : UInt64) (synced : Bool) :
    WalWriter.finish bytes next r synced w = Prog.call (Call.append w.file bytes) (fun reply => match reply with
      | .error e => .pure (.error e, w)
      | .ok offset =>
        if offset ≠ w.bytes then .pure (.error (w.landedElsewhere offset), w)
        else if synced then
          Prog.call (Call.syncData w.file) (fun reply => match reply with
            | .error e => .pure (.error e, w.landed bytes next)
            | .ok _ => .pure (.ok r, { w.landed bytes next with unsynced := false }))
        else .pure (.ok r, w.landed bytes next)) := by
  show Prog.call (Call.append w.file bytes) _ = _
  congr 1
  funext reply
  cases reply with
  | error e => rfl
  | ok offset =>
    show Prog.bind ((if offset ≠ w.bytes then _ else _ : Action WalWriter Unit) w) _ =
      if offset ≠ w.bytes then _ else _
    by_cases h : offset ≠ w.bytes
    · rw [if_pos h, if_pos h]; rfl
    · rw [if_neg h, if_neg h]
      cases synced with
      | false => rfl
      | true =>
        rw [if_pos rfl]
        show Prog.call (Call.syncData w.file) _ = _
        congr 1
        funext reply
        cases reply <;> rfl

/-- The bytes of an append that reach the file. -/
def reachingOf (bytes : Bytes) : Fault DbError → Bytes
  | .fail 0 _ n => bytes.take n
  | _ => bytes

/-- **What is left when bytes were handed to the log**, should one of the calls fail. Unless the bytes landed
    where the writer believed the log to end, it reports an error and keeps its belief. -/
theorem WalWriter.finish_outcome {w : WalWriter} {s : MemoryStorage} (hlog : LogOpen w s) (bytes : Bytes)
    (next : UInt64 → UInt64) (r : UInt64) (synced : Bool) {fault : Fault DbError} (hf : fault.Survived) :
    ∃ res w' s', (WalWriter.finish bytes next r synced w).runWith device s fault = (some (res, w'), s') ∧
      LogOpen w' s' ∧ w'.path = w.path ∧ logBytes s' w.path = logBytes s w.path ++ reachingOf bytes fault ∧
      ((∃ e, res = .error e) ∧ w'.bytes = w.bytes ∨
        reachingOf bytes fault = bytes ∧ w.bytes = (logBytes s w.path).length ∧
          w'.bytes = (logBytes s' w.path).length) ∧
      (fault = .none → w.bytes = (logBytes s w.path).length → ∃ x, res = .ok x) := by
  obtain ⟨hfile, d, hd⟩ := hlog
  have hstep : ∀ bs : Bytes, device.step (Call.append w.file bs) s =
      (.ok d.live.length, s.put w.path (.file ⟨d.live ++ bs, d.durable⟩)) := fun bs => by
    rw [hfile]; exact step_append hd bs
  have hfail : ∀ n, device.fail (Call.append w.file bytes) n s =
      s.put w.path (.file ⟨d.live ++ bytes.take n, d.durable⟩) := fun n => congrArg Prod.snd (hstep (bytes.take n))
  have hsync : ∀ d', device.step (Call.syncData w.file) (s.put w.path (.file d')) =
      (.ok (), (s.put w.path (.file d')).put w.path (.file ⟨d'.live, d'.live⟩)) := fun d' => by
    rw [hfile]; exact step_syncData (MemoryStorage.get_put_self s w.path _)
  have hnosync : ∀ n t, device.fail (Call.syncData w.file) n t = t := fun n t => ite_self t
  have hput : ∀ (w' : WalWriter) (t : MemoryStorage) (d' : FileData), w'.file = w.file → w'.path = w.path →
      LogOpen w' (t.put w.path (.file d')) := fun w' t d' hf hp =>
    ⟨by rw [hf, hp]; exact hfile, d', by rw [hp]; exact MemoryStorage.get_put_self t w.path _⟩
  have hbytes : ∀ (t : MemoryStorage) (d' : FileData), logBytes (t.put w.path (.file d')) w.path = d'.live := fun t d' =>
    logBytes_file (MemoryStorage.get_put_self t w.path _)
  rw [logBytes_file hd, finish_eq]
  -- once the bytes are in the file, neither the sync nor its failure takes them out again
  have hrest : ∀ fault' : Fault DbError, fault'.Survived → ∃ res w' s',
      (if d.live.length ≠ w.bytes then .pure (.error (w.landedElsewhere d.live.length), w)
        else if synced then
          Prog.call (Call.syncData w.file) (fun reply => match reply with
            | .error e => .pure (.error e, w.landed bytes next)
            | .ok _ => .pure (.ok r, { w.landed bytes next with unsynced := false }))
        else .pure (.ok r, w.landed bytes next) : Prog Call Call.Reply DbError (Except DbError UInt64 × WalWriter)).runWith
          device (s.put w.path (.file ⟨d.live ++ bytes, d.durable⟩)) fault' = (some (res, w'), s') ∧
        LogOpen w' s' ∧ w'.path = w.path ∧ logBytes s' w.path = d.live ++ bytes ∧
        ((∃ e, res = .error e) ∧ w'.bytes = w.bytes ∨
          w.bytes = d.live.length ∧ w'.bytes = (d.live ++ bytes).length) ∧
        (fault' = .none → w.bytes = d.live.length → ∃ x, res = .ok x) := by
    intro fault' hf'
    by_cases hend : d.live.length ≠ w.bytes
    · rw [if_pos hend]
      exact ⟨_, w, _, Prog.runWith_pure _ _, hput _ _ _ rfl rfl, rfl, hbytes _ _, .inl ⟨⟨_, rfl⟩, rfl⟩,
        fun _ hbelieved => absurd hbelieved.symm hend⟩
    rw [if_neg hend]
    have hlanded : w.bytes = d.live.length ∧ w.bytes + bytes.length = (d.live ++ bytes).length := by
      rw [List.length_append, not_not.mp hend]
      exact ⟨rfl, rfl⟩
    split
    · cases fault' with
      | none =>
        rw [Prog.runWith_call_none, hsync]
        exact ⟨_, _, _, Prog.runWith_pure _ _, hput _ _ _ rfl rfl, rfl, hbytes _ _, .inr hlanded, fun _ _ => ⟨_, rfl⟩⟩
      | fail i e n =>
        cases i with
        | zero =>
          rw [Prog.runWith_call_fail, hnosync]
          exact ⟨_, _, _, Prog.runWith_pure _ _, hput _ _ _ rfl rfl, rfl, hbytes _ _, .inr hlanded, nofun⟩
        | succ i =>
          rw [Prog.runWith_call_later, hsync]
          exact ⟨_, _, _, Prog.runWith_pure _ _, hput _ _ _ rfl rfl, rfl, hbytes _ _, .inr hlanded, fun _ _ => ⟨_, rfl⟩⟩
      | die i n => exact absurd hf' id
    · exact ⟨_, _, _, Prog.runWith_pure _ _, hput _ _ _ rfl rfl, rfl, hbytes _ _, .inr hlanded, fun _ _ => ⟨_, rfl⟩⟩
  cases fault with
  | none =>
    rw [Prog.runWith_call_none, hstep]
    obtain ⟨res, w', s', hrun, hopen, hpath, hlog, hcase, hok⟩ := hrest .none trivial
    rw [← hlog] at hcase
    exact ⟨res, w', s', hrun, hopen, hpath, hlog, hcase.imp_right (fun h => ⟨rfl, h⟩), hok⟩
  | fail i e n =>
    cases i with
    | zero =>
      rw [Prog.runWith_call_fail, hfail]
      exact ⟨_, w, _, Prog.runWith_pure _ _, hput _ _ _ rfl rfl, rfl, hbytes _ _, .inl ⟨⟨e, rfl⟩, rfl⟩, nofun⟩
    | succ i =>
      rw [Prog.runWith_call_later, hstep]
      obtain ⟨res, w', s', hrun, hopen, hpath, hlog, hcase, -⟩ := hrest (.fail i e n) trivial
      rw [← hlog] at hcase
      exact ⟨res, w', s', hrun, hopen, hpath, hlog, hcase.imp_right (fun h => ⟨rfl, h⟩), nofun⟩
  | die i n => exact absurd hf id

/-! ## The outcome of a write -/

/-- The error of a write one of whose frames is too large. -/
def WalWriter.frameTooLarge (w : WalWriter) : DbError := fromFormatAt w.path (.malformed 0 (.inconsistent "frame body length"))

/-- A write is refused before its first call, or it hands its bytes to the log. -/
theorem LogWrite.action_cases (a : LogWrite) (w : WalWriter) : ∃ w' : WalWriter,
    w'.file = w.file ∧ w'.path = w.path ∧ w'.bytes = w.bytes ∧ w'.durability = w.durability ∧
    ((¬ (∀ f ∈ a.framesOf w, f.Fits) ∧ a.action w = .pure (.error w.frameTooLarge, w')) ∨
      ((∀ f ∈ a.framesOf w, f.Fits) ∧ ∃ next r,
        a.action w = WalWriter.finish (framesBytes (a.framesOf w)) next r (a.syncs w.durability) w')) := by
  cases a with
  | single op =>
    refine ⟨w, rfl, rfl, rfl, rfl, ?_⟩
    have hact : (LogWrite.single op).action w = Proc.bind
        (Proc.lift (formatAt w.path (WalFrame.standalone w.nextSequence op).encode))
        (fun bytes => WalWriter.finish bytes (· + 1) w.nextSequence w.durability.syncsEveryWrite) w := rfl
    rw [hact]
    by_cases hfit : (WalFrame.standalone w.nextSequence op).Fits
    · refine .inr ⟨fun f hf => ?_, (· + 1), w.nextSequence, ?_⟩
      · rw [List.mem_singleton.mp hf]; exact hfit
      · have hbytes : framesBytes ((LogWrite.single op).framesOf w) = (WalFrame.standalone w.nextSequence op).bytes :=
          List.append_nil _
        rw [hbytes, show (WalFrame.standalone w.nextSequence op).encode = .ok _ from if_pos hfit]
        rfl
    · have he : (WalFrame.standalone w.nextSequence op).encode =
          .error (.malformed 0 (.inconsistent "frame body length")) := if_neg hfit
      refine .inl ⟨fun hall => hfit (hall _ (List.mem_singleton.mpr rfl)), ?_⟩
      rw [he]
      rfl
  | group ops =>
    refine ⟨{ w with nextTxn := w.nextTxn + 1 }, rfl, rfl, rfl, rfl, ?_⟩
    have hact : (LogWrite.group ops).action w = Proc.bind
        (Proc.lift (formatAt w.path (WalWriter.encodeFrames ((LogWrite.group ops).framesOf w))))
        (fun bytes => WalWriter.finish bytes (fun _ => w.nextSequence + UInt64.ofNat ops.length + 1) w.nextTxn
          w.durability.syncsOnCommit) { w with nextTxn := w.nextTxn + 1 } := rfl
    rw [hact]
    by_cases hfits : ∀ f ∈ (LogWrite.group ops).framesOf w, f.Fits
    · refine .inr ⟨hfits, fun _ => w.nextSequence + UInt64.ofNat ops.length + 1, w.nextTxn, ?_⟩
      rw [encodeFrames_of hfits]
      rfl
    · refine .inl ⟨hfits, ?_⟩
      rw [encodeFrames_error hfits]
      rfl

/-- **What a write leaves**, should one of its calls fail: the log as it was, and behind it the bytes that
    reached the file. Either it reports an error, and the writer's belief about the length of the log stays as it
    was, or all of its bytes landed where the writer believed the log to end. When no call fails, that belief is
    right and the frames are small enough, the write is acknowledged. -/
theorem LogWrite.outcome (a : LogWrite) {w : WalWriter} {s : MemoryStorage} (hlog : LogOpen w s)
    {fault : Fault DbError} (hf : fault.Survived) :
    ∃ res w' s', (a.action w).runWith device s fault = (some (res, w'), s') ∧ LogOpen w' s' ∧ w'.path = w.path ∧
      logBytes s' w.path = logBytes s w.path ++ a.reaching w fault ∧
      ((∃ e, res = .error e) ∧ w'.bytes = w.bytes ∨
        (∀ f ∈ a.framesOf w, f.Fits) ∧ a.reaching w fault = framesBytes (a.framesOf w) ∧
          w.bytes = (logBytes s w.path).length ∧ w'.bytes = (logBytes s' w.path).length) ∧
      (fault = .none → w.bytes = (logBytes s w.path).length → (∀ f ∈ a.framesOf w, f.Fits) → ∃ x, res = .ok x) := by
  obtain ⟨w', hfile, hpath, hlen, -, hcase⟩ := a.action_cases w
  have hlog' : LogOpen w' s := ⟨by rw [hfile, hpath]; exact hlog.file, by rw [hpath]; exact hlog.there⟩
  rcases hcase with ⟨hfits, hact⟩ | ⟨hfits, next, r, hact⟩
  · -- refused before its first call
    have hnone : a.reaching w fault = [] := by
      have hnil : a.encoded w = [] := if_neg hfits
      unfold reaching
      split
      · rw [hnil, List.take_nil]
      · exact hnil
    rw [hact, Prog.runWith_pure, hnone, List.append_nil]
    exact ⟨_, w', s, rfl, hlog', hpath, rfl, .inl ⟨⟨_, rfl⟩, hlen⟩, fun _ _ hall => absurd hall hfits⟩
  · have hbytes : a.encoded w = framesBytes (a.framesOf w) := if_pos hfits
    have hreach : a.reaching w fault = reachingOf (framesBytes (a.framesOf w)) fault := by
      unfold reaching reachingOf
      rw [hbytes]
    rw [hact, hreach]
    obtain ⟨res, w1, s1, hrun, hopen, hp, hb, hres, hok⟩ :=
      WalWriter.finish_outcome hlog' (framesBytes (a.framesOf w)) next r (a.syncs w.durability) hf
    rw [hpath] at hp hb hres hok
    rw [hlen] at hres hok
    exact ⟨res, w1, s1, hrun, hopen, hp, hb, hres.imp_right (fun h => ⟨hfits, h⟩), fun hnone hend _ => hok hnone hend⟩

end IshaVectorDb.Engine
