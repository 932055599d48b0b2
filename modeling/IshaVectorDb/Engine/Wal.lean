import IshaVectorDb.Engine.Segment
import IshaVectorDb.Format.Wal

/-!
# `Engine.Wal` — appending to the log and replaying it

A group of operations is written with one append, its commit record last. Replay applies the committed frames
of the log to a memtable; a torn tail is cut off before anything is appended behind it.
-/

namespace IshaVectorDb.Engine

open Format Interaction

variable {S : Type}

/-- How aggressively writes are made durable. -/
inductive Durability
  | full
  | batch
  | relaxed
deriving DecidableEq, Repr

namespace Durability

def syncsEveryWrite : Durability → Bool
  | full => true
  | _ => false

def syncsOnCommit : Durability → Bool
  | full => true
  | batch => true
  | relaxed => false

end Durability

/-! ## Appending -/

/-- Appends frames to one log file. -/
structure WalWriter where
  file : File
  path : DbPath
  nextSequence : UInt64
  nextTxn : UInt64
  bytes : Nat
  durability : Durability
  unsynced : Bool
deriving DecidableEq

namespace WalWriter

/-- Make everything appended so far durable. -/
def sync : Action WalWriter Unit := do
  let w ← Proc.get
  call (.syncData w.file)
  Proc.modify (fun w => { w with unsynced := false })

/-- The error of an append that landed elsewhere than at the end of the log. -/
def landedElsewhere (w : WalWriter) (offset : Nat) : DbError :=
  .storage (.io w.path .append ("append landed at " ++ toString offset ++ " but the log is " ++ toString w.bytes ++
    " bytes; another writer?"))

/-- Append bytes that must land at the end of the log as this writer knows it. -/
def write (bytes : Bytes) : Action WalWriter Unit := do
  let w ← Proc.get
  let offset ← call (.append w.file bytes)
  if offset ≠ w.bytes then Proc.throw (landedElsewhere w offset)
  else Proc.modify (fun w => { w with bytes := w.bytes + bytes.length, unsynced := true })

/-- Append one standalone operation. -/
def append (op : WalOp) : Action WalWriter UInt64 := do
  let w ← Proc.get
  let bytes ← Proc.lift (formatAt w.path (WalFrame.standalone w.nextSequence op).encode)
  write bytes
  Proc.modify (fun w => { w with nextSequence := w.nextSequence + 1 })
  if w.durability.syncsEveryWrite then do
    sync
    return w.nextSequence
  else return w.nextSequence

/-- The frames of a group: its operations under consecutive sequence numbers, then the commit record. -/
def groupFrames (sequence txnId : UInt64) (ops : List WalOp) : List WalFrame :=
  match ops with
  | [] => []
  | op :: rest => WalFrame.inTxn sequence txnId op :: groupFrames (sequence + 1) txnId rest

/-- Encode frames one after the other. -/
def encodeFrames : List WalFrame → Except FormatError Bytes
  | [] => .ok []
  | f :: rest => do
      let head ← f.encode
      let tail ← encodeFrames rest
      return head ++ tail

/-- Append a group of operations followed by their commit record, as one write. -/
def appendGroup (ops : List WalOp) : Action WalWriter UInt64 := do
  let w ← Proc.get
  let txnId := w.nextTxn
  Proc.modify (fun w => { w with nextTxn := w.nextTxn + 1 })
  let last := w.nextSequence + UInt64.ofNat ops.length
  let frames := groupFrames w.nextSequence txnId ops ++
    [WalFrame.inTxn last txnId (.commit (UInt64.ofNat ops.length))]
  let bytes ← Proc.lift (formatAt w.path (encodeFrames frames))
  write bytes
  Proc.modify (fun w => { w with nextSequence := last + 1 })
  if w.durability.syncsOnCommit then do
    sync
    return txnId
  else return txnId

end WalWriter

/-- Open a log for appending, creating it if it does not exist. -/
def WalWriter.open (path : DbPath) (firstSequence : UInt64) (durability : Durability) : Action S WalWriter := do
  let file ← call (.openFile path .create)
  let bytes ← call (.len file)
  return ⟨file, path, firstSequence, 1, bytes, durability, false⟩

/-! ## Replaying -/

/-- What a replay did. -/
structure ReplayReport where
  applied : Nat
  rolledBack : Nat
  lastSequence : UInt64
  validBytes : Nat
  truncatedTail : Bool
deriving DecidableEq

/-- The highest sequence among frames, zero when there are none. -/
def lastSequence (frames : List WalFrame) : UInt64 :=
  frames.foldl (fun best f => if best < f.sequence then f.sequence else best) 0

/-- A frame's metadata; no bytes are no metadata. -/
def replayMetadata (metadata : Bytes) : Except DbError (Option Metadata) :=
  if metadata.isEmpty then .ok none else (Metadata.decode metadata).map some

/-- Apply one committed frame to the memtable. -/
def replayFrame (invNorm : InvNorm) (idKind : IdKind) (memtable : Memtable) (frame : WalFrame) :
    Except DbError Memtable :=
  match frame.op with
  | .put id vector metadata content => do
      let docId ← DocId.fromBytes idKind id
      let md ← replayMetadata metadata
      memtable.putBytes invNorm docId vector md content
  | .delete id => do
      let docId ← DocId.fromBytes idKind id
      return memtable.delete docId
  | .commit _ => .ok memtable

/-- Apply the committed frames of a scan. -/
def replayScan (invNorm : InvNorm) (idKind : IdKind) (path : DbPath) (scan : WalScan) (memtable : Memtable) :
    Except DbError (ReplayReport × Memtable) := do
  match scan.tail with
  | .corrupt offset reason => .error (.corruption (.malformedStructure path offset (.format reason)))
  | tail => do
      let committed := scan.committed
      let memtable ← committed.foldlM (replayFrame invNorm idKind) memtable
      let nonCommit := (scan.frames.filter (fun f => ¬ f.op.isCommit)).length
      return (⟨committed.length, nonCommit - committed.length, lastSequence scan.frames, scan.validBytes,
        tail ≠ .clean⟩, memtable)

/-- Replay a log file into a memtable; a missing log means nothing was written since the last checkpoint. -/
def replayInto (invNorm : InvNorm) (path : DbPath) (idKind : IdKind) (memtable : Memtable) :
    Action S (ReplayReport × Memtable) := do
  let found ← readFile path
  match found with
  | none => return (⟨0, 0, 0, 0, false⟩, memtable)
  | some bytes => Proc.lift (replayScan invNorm idKind path (scan bytes) memtable)

/-- Discard a torn tail, so that the next append starts at a frame boundary. -/
def truncateTail (path : DbPath) (validBytes : Nat) : Action S Unit := do
  let found ← call (.metadata path)
  match found with
  | none => return ()
  | some len =>
      if len ≤ validBytes then return ()
      else do
        let file ← call (.openFile path .readWrite)
        call (.truncate file validBytes)
        call (.syncData file)

end IshaVectorDb.Engine
