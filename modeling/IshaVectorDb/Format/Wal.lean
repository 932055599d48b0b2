import IshaVectorDb.Parsing.Slices
import IshaVectorDb.Format.Block

/-!
# `Format.Wal` — the write-ahead log's frames

A frame is `body_len ++ crc32c ++ body`. A scan reads frames until one does not decode, and tells a torn tail
(not enough bytes) from damage (enough bytes, wrong ones). `scan_frames` is the scan of a whole log,
`scan_cut` the scan of a log cut at any byte: some prefix of its frames, and never damage.
-/

namespace IshaVectorDb.Format

open Parsing

/-- Bytes of framing before each body. -/
def frameHeaderLen : Nat := 8

/-- Largest body a single frame may declare. -/
def maxFrameBody : Nat := 64 * 1024 * 1024

/-- What a frame does. -/
inductive WalOp
  | put (id vector metadata : Bytes) (content : Option Bytes)
  | delete (id : Bytes)
  | commit (opCount : UInt64)
deriving DecidableEq, Repr

namespace WalOp

def code : WalOp → UInt8
  | put _ _ _ _ => 1
  | delete _ => 2
  | commit _ => 3

def isCommit : WalOp → Bool
  | commit _ => true
  | _ => false

def contentBytes : Option Bytes → Bytes
  | some c => [1] ++ Writer.blob c
  | none => [0]

def payload : WalOp → Bytes
  | put id vector metadata content =>
      Writer.blob id ++ (Writer.blob vector ++ (Writer.blob metadata ++ contentBytes content))
  | delete id => Writer.blob id
  | commit opCount => Writer.varint opCount

end WalOp

/-- One log record; `txnId` is 0 for a standalone operation. -/
structure WalFrame where
  sequence : UInt64
  txnId : UInt64
  op : WalOp
deriving DecidableEq, Repr

namespace WalFrame

def standalone (sequence : UInt64) (op : WalOp) : WalFrame := ⟨sequence, 0, op⟩

def inTxn (sequence txnId : UInt64) (op : WalOp) : WalFrame := ⟨sequence, txnId, op⟩

def body (f : WalFrame) : Bytes :=
  Writer.varint f.sequence ++ (Writer.varint f.txnId ++ ([f.op.code] ++ f.op.payload))

/-- The frame's bytes, framing and all. -/
def bytes (f : WalFrame) : Bytes :=
  Writer.u32 (UInt32.ofNat f.body.length) ++ (Writer.u32 (crc32c f.body) ++ f.body)

/-- Whether the body is small enough to frame. -/
def Fits (f : WalFrame) : Prop := f.body.length ≤ maxFrameBody

instance (f : WalFrame) : Decidable f.Fits := inferInstanceAs (Decidable (_ ≤ _))

/-- Encode the frame, refusing a body that is too large. -/
def encode (f : WalFrame) : Except FormatError Bytes :=
  if f.Fits then .ok f.bytes else .error (.malformed 0 (.inconsistent "frame body length"))

def readContent : Reader (Option Bytes) := do
  let hasContent ← Reader.u8
  if hasContent = 0 then return none
  else if hasContent = 1 then return some (← Reader.blob)
  else do
    let at_ ← position
    fail (.malformed at_ (.unknownDiscriminant "content flag" hasContent))

def readOp (opAt : Nat) (code : UInt8) : Reader WalOp :=
  if code = 1 then do
    let id ← Reader.blob
    let vector ← Reader.blob
    let metadata ← Reader.blob
    let content ← readContent
    return .put id vector metadata content
  else if code = 2 then do
    let id ← Reader.blob
    return .delete id
  else if code = 3 then do
    let opCount ← Reader.varint
    return .commit opCount
  else fail (.malformed opAt (.unknownDiscriminant "wal op" code))

def readBody : Reader WalFrame := do
  let sequence ← Reader.varint
  let txnId ← Reader.varint
  let opAt ← position
  let code ← Reader.u8
  let op ← readOp opAt code
  Reader.expectEnd "wal frame body"
  return ⟨sequence, txnId, op⟩

/-- Read one frame and its total encoded length. -/
def read : Reader (WalFrame × Nat) := do
  let lenAt ← position
  let bodyLen ← Reader.u32
  let storedCrc ← Reader.u32
  if maxFrameBody < bodyLen.toNat then fail (.lengthExceedsInput lenAt bodyLen.toNat maxFrameBody)
  else do
    -- too few bytes for the declared body is the torn-tail signal
    let body ← Reader.bytes bodyLen.toNat
    if crc32c body ≠ storedCrc then fail (.checksumMismatch lenAt storedCrc (crc32c body))
    else do
      let frame ← checked ((readBody ⟨body, lenAt + frameHeaderLen⟩).map Prod.fst)
      return (frame, frameHeaderLen + bodyLen.toNat)

/-- Decode one frame from the front of `bs`. -/
def decodeAt (bs : Bytes) (base : Nat) : Except FormatError (WalFrame × Nat) :=
  (read ⟨bs, base⟩).map Prod.fst

end WalFrame

/-- How a log ended. -/
inductive WalTail
  | clean
  | torn (offset trailingBytes : Nat)
  | corrupt (offset : Nat) (reason : FormatError)
deriving DecidableEq, Repr

/-- The result of reading a log file. -/
structure WalScan where
  frames : List WalFrame
  tail : WalTail
  validBytes : Nat
deriving DecidableEq, Repr

/-- The loop of `scan`: read frames from `offset` on. A frame takes eight bytes or more, so the length of
    the log bounds the rounds. -/
def scanLoop : Nat → Bytes → Nat → WalScan
  | 0, _, offset => ⟨[], .clean, offset⟩
  | fuel + 1, rest, offset =>
      if rest.isEmpty then ⟨[], .clean, offset⟩
      else match WalFrame.decodeAt rest offset with
        | .ok (frame, len) =>
            let scan := scanLoop fuel (rest.drop len) (offset + len)
            ⟨frame :: scan.frames, scan.tail, scan.validBytes⟩
        | .error e =>
            if e.isTruncation then ⟨[], .torn offset rest.length, offset⟩
            else ⟨[], .corrupt offset e, offset⟩

/-- Read every frame in a log. -/
def scan (bs : Bytes) : WalScan := scanLoop (bs.length + 1) bs 0

/-- The transactions whose commit record is present. -/
def committedTxns (frames : List WalFrame) : List UInt64 :=
  (frames.filter (fun f => f.op.isCommit)).map WalFrame.txnId

/-- Frames belonging to committed work only. -/
def WalScan.committed (s : WalScan) : List WalFrame :=
  (s.frames.filter (fun f => !f.op.isCommit)).filter
    (fun f => f.txnId = 0 || (committedTxns s.frames).contains f.txnId)

/-! ## One frame's round trip -/

namespace WalFrame

theorem reads_content {o : Option Bytes} (h : (WalOp.contentBytes o).length < 2 ^ 64) :
    Reads readContent (WalOp.contentBytes o) o := by
  cases o with
  | none => exact (Reader.reads_u8 0).bind_nil (Reads.pure none)
  | some c =>
    have hc : c.length < 2 ^ 64 := by
      simp only [WalOp.contentBytes, List.length_append, Writer.blob_length] at h; omega
    refine (Reader.reads_u8 1).bind ?_
    exact (Reader.reads_blob hc).bind_nil (Reads.pure (some c))

theorem reads_op {op : WalOp} (opAt : Nat) (h : op.payload.length < 2 ^ 64) :
    Reads (readOp opAt op.code) op.payload op := by
  cases op with
  | put id vector metadata content =>
    simp only [WalOp.payload, List.length_append, Writer.blob_length] at h
    refine (Reader.reads_blob (by omega)).bind ((Reader.reads_blob (by omega)).bind ?_)
    refine (Reader.reads_blob (by omega)).bind ((reads_content (by omega)).bind_nil ?_)
    exact Reads.pure _
  | delete id =>
    simp only [WalOp.payload, Writer.blob_length] at h
    exact (Reader.reads_blob (by omega)).bind_nil (Reads.pure (WalOp.delete id))
  | commit opCount => exact (Reader.reads_varint opCount).bind_nil (Reads.pure (WalOp.commit opCount))

theorem readsAll_body {f : WalFrame} (h : f.Fits) : ReadsAll readBody f.body f := by
  have hlen : f.op.payload.length < 2 ^ 64 := by
    have h' : f.body.length ≤ 64 * 1024 * 1024 := h
    simp only [body, List.length_append] at h'; omega
  refine ReadsAll.bind (Reader.reads_varint _) (ReadsAll.bind (Reader.reads_varint _) ?_)
  refine ReadsAll.position_bind (fun opAt => ReadsAll.bind (Reader.reads_u8 _) ?_)
  refine ReadsAll.bind_nil (ReadsAll.of_reads (reads_op opAt hlen)) ?_
  exact ReadsAll.bind_nil (Reader.readsAll_expectEnd _) (ReadsAll.pure f)

theorem bodyLen_toNat {f : WalFrame} (h : f.Fits) : (UInt32.ofNat f.body.length).toNat = f.body.length := by
  have h' : f.body.length ≤ 64 * 1024 * 1024 := h
  rw [UInt32.toNat_ofNat']; exact Nat.mod_eq_of_lt (by omega)

@[simp] theorem bytes_length (f : WalFrame) : f.bytes.length = frameHeaderLen + f.body.length := by
  simp [bytes, frameHeaderLen]; omega

theorem bytes_length_ge (f : WalFrame) : 8 ≤ f.bytes.length := by
  rw [bytes_length]; exact Nat.le_add_right 8 _

/-- **A frame decodes to itself**, whatever follows it in the log. -/
theorem reads_frame {f : WalFrame} (h : f.Fits) : Reads read f.bytes (f, f.bytes.length) := by
  have hn := bodyLen_toNat h
  have hmax : ¬ maxFrameBody < (UInt32.ofNat f.body.length).toNat := by
    rw [hn]; exact Nat.not_lt.mpr h
  refine Reads.position_bind (fun lenAt => ?_)
  refine (Reader.reads_u32 _).bind ((Reader.reads_u32 _).bind ?_)
  rw [if_neg hmax, hn, bytes_length]
  refine (Reader.reads_bytes rfl).bind_nil ?_
  rw [if_neg (fun hne => hne rfl)]
  refine Reads.checked_bind (a := f) ?_ (Reads.pure _)
  rw [readsAll_body h]; rfl

/-- **A torn frame is reported as truncated**, wherever the tear is. -/
theorem torn_frame {f : WalFrame} (h : f.Fits) : Torn Reader.Cut read f.bytes := by
  have hn := bodyLen_toNat h
  have hmax : ¬ maxFrameBody < (UInt32.ofNat f.body.length).toNat := by
    rw [hn]; exact Nat.not_lt.mpr h
  refine Torn.position_bind (fun lenAt => ?_)
  refine (Reader.torn_u32 _).bind (Reader.reads_u32 _) ((Reader.torn_u32 _).bind (Reader.reads_u32 _) ?_)
  rw [if_neg hmax, hn]
  exact (Reader.torn_bytes rfl).bind_left

theorem decodeAt_bytes {f : WalFrame} (h : f.Fits) (rest : Bytes) (base : Nat) :
    decodeAt (f.bytes ++ rest) base = .ok (f, f.bytes.length) := by
  unfold decodeAt
  rw [reads_frame h]; rfl

theorem decodeAt_torn {f : WalFrame} (h : f.Fits) {k : Nat} (hk : k < f.bytes.length) (base : Nat) :
    ∃ e, decodeAt (f.bytes.take k) base = .error e ∧ e.isTruncation = true := by
  obtain ⟨e, he, hT⟩ := torn_frame h k hk base
  exact ⟨e, by unfold decodeAt; rw [he]; rfl, hT⟩

end WalFrame

/-! ## Whole logs -/

/-- The bytes of a list of frames. -/
def framesBytes (fs : List WalFrame) : Bytes := fs.flatMap WalFrame.bytes

@[simp] theorem framesBytes_nil : framesBytes [] = [] := rfl

@[simp] theorem framesBytes_cons (f : WalFrame) (fs : List WalFrame) :
    framesBytes (f :: fs) = f.bytes ++ framesBytes fs := rfl

theorem framesBytes_append (fs gs : List WalFrame) :
    framesBytes (fs ++ gs) = framesBytes fs ++ framesBytes gs := List.flatMap_append

theorem length_le_framesBytes (fs : List WalFrame) : fs.length ≤ (framesBytes fs).length := by
  induction fs with
  | nil => simp
  | cons f fs ih =>
    have := f.bytes_length_ge
    rw [framesBytes_cons, List.length_cons, List.length_append]; omega

/-- The scan of frames followed by `t` is those frames, then the scan of `t`. -/
theorem scanLoop_frames {fs : List WalFrame} (h : ∀ f ∈ fs, f.Fits) (t : Bytes) :
    ∀ fuel offset, fs.length < fuel → scanLoop fuel (framesBytes fs ++ t) offset =
      let rest := scanLoop (fuel - fs.length) t (offset + (framesBytes fs).length)
      ⟨fs ++ rest.frames, rest.tail, rest.validBytes⟩ := by
  induction fs with
  | nil => intro fuel offset _; rfl
  | cons f fs ih =>
    intro fuel offset hfuel
    rw [List.length_cons] at hfuel
    obtain ⟨fuel, rfl⟩ : ∃ n, fuel = n + 1 := ⟨fuel - 1, by omega⟩
    have hf := h f List.mem_cons_self
    have hne : (f.bytes ++ (framesBytes fs ++ t)).isEmpty = false := by
      rw [List.isEmpty_eq_false_iff, ← List.length_pos_iff, List.length_append]
      have := f.bytes_length_ge; omega
    rw [framesBytes_cons, List.append_assoc, scanLoop, hne]
    simp only [Bool.false_eq_true, if_false]
    rw [WalFrame.decodeAt_bytes hf]
    simp only [List.drop_left]
    rw [ih (fun g hg => h g (List.mem_cons_of_mem _ hg)) fuel _ (by omega)]
    simp only [List.length_cons, List.length_append, List.cons_append, Nat.add_sub_add_right, Nat.add_assoc]

/-- **The scan of a whole log.** -/
theorem scan_frames {fs : List WalFrame} (h : ∀ f ∈ fs, f.Fits) :
    scan (framesBytes fs) = ⟨fs, .clean, (framesBytes fs).length⟩ := by
  have hl := length_le_framesBytes fs
  have hs := scanLoop_frames h [] ((framesBytes fs).length + 1) 0 (by omega)
  rw [List.append_nil] at hs
  obtain ⟨n, hn⟩ : ∃ n, (framesBytes fs).length + 1 - fs.length = n + 1 :=
    ⟨(framesBytes fs).length - fs.length, by omega⟩
  rw [scan, hs, hn]
  simp [scanLoop]

/-- The scan of frames followed by the torn beginning of another. -/
theorem scan_torn {fs : List WalFrame} {f : WalFrame} (h : ∀ f ∈ fs, f.Fits) (hf : f.Fits) {k : Nat}
    (h0 : 0 < k) (hk : k < f.bytes.length) :
    scan (framesBytes fs ++ f.bytes.take k) =
      ⟨fs, .torn (framesBytes fs).length k, (framesBytes fs).length⟩ := by
  have hl := length_le_framesBytes fs
  have hlen : (f.bytes.take k).length = k := by rw [List.length_take]; omega
  have hs := scanLoop_frames h (f.bytes.take k) ((framesBytes fs ++ f.bytes.take k).length + 1) 0
    (by rw [List.length_append]; omega)
  obtain ⟨n, hn⟩ : ∃ n, (framesBytes fs ++ f.bytes.take k).length + 1 - fs.length = n + 1 :=
    ⟨(framesBytes fs ++ f.bytes.take k).length - fs.length, by rw [List.length_append]; omega⟩
  have hne : (f.bytes.take k).isEmpty = false := by
    rw [List.isEmpty_eq_false_iff, ← List.length_pos_iff]; omega
  obtain ⟨e, he, hT⟩ := WalFrame.decodeAt_torn hf hk (0 + (framesBytes fs).length)
  rw [scan, hs, hn, scanLoop, hne, he]
  rw [WalFrame.bytes_length] at hk
  simp [hT, Nat.le_of_lt hk]

/-- A cut through a log falls behind some number of whole frames: right behind them, or into the next one. -/
theorem take_framesBytes (fs : List WalFrame) :
    ∀ k ≤ (framesBytes fs).length, ∃ j ≤ fs.length, (framesBytes (fs.take j)).length ≤ k ∧
      ((framesBytes (fs.take j)).length = k ∧ (framesBytes fs).take k = framesBytes (fs.take j) ∨
        ∃ f n, fs[j]? = some f ∧ 0 < n ∧ n < f.bytes.length ∧ k = (framesBytes (fs.take j)).length + n ∧
          (framesBytes fs).take k = framesBytes (fs.take j) ++ f.bytes.take n) :=
  take_flatMap WalFrame.bytes fs

/-- **The scan of a log cut at any byte** is a prefix of its frames: the cut is between two frames and the
    log looks clean, or inside one and its tail is torn. It never looks damaged. -/
theorem scan_cut {fs : List WalFrame} (h : ∀ f ∈ fs, f.Fits) (k : Nat) :
    ∃ j ≤ fs.length, (scan ((framesBytes fs).take k)).frames = fs.take j ∧
      (scan ((framesBytes fs).take k)).validBytes = (framesBytes (fs.take j)).length ∧
      (((framesBytes fs).take k = framesBytes (fs.take j) ∧
          (scan ((framesBytes fs).take k)).tail = .clean) ∨
        ∃ o n, (scan ((framesBytes fs).take k)).tail = .torn o n) := by
  by_cases hk : (framesBytes fs).length ≤ k
  · rw [List.take_of_length_le hk, scan_frames h]
    exact ⟨fs.length, le_rfl, by simp, by simp, .inl ⟨by simp, rfl⟩⟩
  obtain ⟨j, hj, -, hcase⟩ := take_framesBytes fs k (by omega)
  have hfits : ∀ f ∈ fs.take j, f.Fits := fun f hf => h f (List.mem_of_mem_take hf)
  refine ⟨j, hj, ?_⟩
  rcases hcase with ⟨-, hc⟩ | ⟨f, n, hf, hn0, hn, -, hc⟩
  · rw [hc, scan_frames hfits]; exact ⟨rfl, rfl, .inl ⟨rfl, rfl⟩⟩
  · rw [hc, scan_torn hfits (h f (List.mem_of_getElem? hf)) hn0 hn]; exact ⟨rfl, rfl, .inr ⟨_, _, rfl⟩⟩

end IshaVectorDb.Format
