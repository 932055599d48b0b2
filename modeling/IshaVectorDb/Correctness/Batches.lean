import IshaVectorDb.Correctness.LogWrites

/-!
# `Correctness.Batches` — which writes a log **applies**

A log that writes were appended to, some of them cut short, is the log it was and a list of *pieces*: whole
writes, and batches that miss their commit record (`Told`). As long as a batch cut short shares its transaction
number with no commit record in the log, replay applies the whole writes and nothing of the others
(`Told.committed`). Each way a log changes keeps this, under the condition that keeps the numbers apart.
-/

namespace IshaVectorDb.Engine

open Format Interaction

/-- What the log has of a write: all of its frames, or some of a batch's without their commit record. -/
inductive Piece
  | whole (a : LogWrite) (sequence txnId : UInt64)
  | part (ops : List WalOp) (sequence txnId : UInt64)

namespace Piece

def frames : Piece → List WalFrame
  | whole a sequence txnId => a.frames sequence txnId
  | part ops sequence txnId => WalWriter.groupFrames sequence txnId ops

def sequence : Piece → UInt64
  | whole _ sequence _ => sequence
  | part _ sequence _ => sequence

def txnId : Piece → UInt64
  | whole _ _ txnId => txnId
  | part _ _ txnId => txnId

/-- The write, when it is all there. -/
def write : Piece → Option LogWrite
  | whole a _ _ => some a
  | part _ _ _ => none

/-- What replay makes of it. -/
def applied : Piece → List WalOp
  | whole a _ _ => a.ops
  | part _ _ _ => []

end Piece

/-- The write asks for operations, not for commit records. -/
def LogWrite.Proper (a : LogWrite) : Prop := ∀ op ∈ a.ops, op.isCommit = false

instance (a : LogWrite) : Decidable a.Proper := inferInstanceAs (Decidable (∀ op ∈ a.ops, op.isCommit = false))

/-- A piece as the writer makes it: a batch has a number, and a batch cut short has a frame in the log. -/
def Piece.Proper : Piece → Prop
  | .whole a _ txnId => a.Proper ∧ (∀ ops, a = .group ops → txnId ≠ 0)
  | .part ops _ txnId => ops ≠ [] ∧ (∀ op ∈ ops, op.isCommit = false) ∧ txnId ≠ 0

/-- What the log has of a write, without what is in it: a single operation, a whole batch, or some of a batch's frames, each with
    how many frames that are. A batch goes by its number. -/
inductive LogEntry
  | single
  | whole (number : UInt64) (frames : Nat)
  | part (number : UInt64) (frames : Nat)
deriving DecidableEq

namespace LogEntry

def frames : LogEntry → Nat
  | single => 1
  | whole _ frames => frames
  | part _ frames => frames

/-- How many frames there are of these. -/
def total (entries : List LogEntry) : Nat := (entries.map frames).sum

/-- What is left of an entry when so many of its frames are, fewer than all. -/
def shorten (frames : Nat) : LogEntry → List LogEntry
  | single => []
  | whole number _ => if frames = 0 then [] else [part number frames]
  | part number _ => if frames = 0 then [] else [part number frames]

/-- What is left when only the first so many frames are. -/
def cut : Nat → List LogEntry → List LogEntry
  | _, [] => []
  | frames, e :: rest => if e.frames ≤ frames then e :: cut (frames - e.frames) rest else e.shorten frames

/-- **A cut spares the numbers**: the batch that it falls into has not the number of a whole batch before it. -/
def Spared (frames : Nat) (entries : List LogEntry) : Prop :=
  ∀ before number n rest, entries = before ++ whole number n :: rest → total before < frames → frames < total before + n →
    ∀ n', whole number n' ∉ before

end LogEntry

/-- The piece as an entry. -/
def Piece.entry : Piece → LogEntry
  | .whole (.single _) _ _ => .single
  | .whole (.group ops) _ txnId => .whole txnId (ops.length + 1)
  | .part ops _ txnId => .part txnId ops.length

/-- **The log tells its pieces apart**, and what it held before them from them. -/
structure Told (base frames : List WalFrame) (pieces : List Piece) : Prop where
  split : frames = base ++ pieces.flatMap Piece.frames
  proper : ∀ p ∈ pieces, p.Proper
  apart : ∀ ops sequence txnId, Piece.part ops sequence txnId ∈ pieces → txnId ∉ committedTxns frames
  before : ∀ f ∈ opFrames base, f.txnId ≠ 0 → f.txnId ∉ committedTxns base → f.txnId ∉ committedTxns frames

/-- An operation in the log waits for its number to be committed. -/
def Waiting (frames : List WalFrame) (txnId : UInt64) : Prop :=
  txnId ∉ committedTxns frames ∧ ∃ f ∈ opFrames frames, f.txnId = txnId

theorem Told.start (base : List WalFrame) : Told base base [] :=
  ⟨(List.append_nil base).symm, nofun, nofun, fun _ _ _ h => h⟩

/-! ## Replay -/

theorem groupFrames_ops (sequence txnId : UInt64) (ops : List WalOp) :
    (WalWriter.groupFrames sequence txnId ops).map WalFrame.op = ops := by
  induction ops generalizing sequence with
  | nil => rfl
  | cons op ops ih => rw [WalWriter.groupFrames, List.map_cons, ih]; rfl

theorem groupFrames_length (sequence txnId : UInt64) (ops : List WalOp) :
    (WalWriter.groupFrames sequence txnId ops).length = ops.length := by
  rw [← List.length_map (f := WalFrame.op), groupFrames_ops]

theorem groupFrames_take (sequence txnId : UInt64) (ops : List WalOp) (m : Nat) :
    (WalWriter.groupFrames sequence txnId ops).take m = WalWriter.groupFrames sequence txnId (ops.take m) := by
  induction ops generalizing sequence m with
  | nil => rw [List.take_nil]; exact List.take_nil
  | cons op ops ih =>
    cases m with
    | zero => rfl
    | succ m => rw [WalWriter.groupFrames, List.take_succ_cons, List.take_succ_cons, ih]; rfl

theorem committedTxns_group {sequence txnId : UInt64} {ops : List WalOp} (h : ∀ op ∈ ops, op.isCommit = false) :
    committedTxns (WalWriter.groupFrames sequence txnId ops) = [] := by
  induction ops generalizing sequence with
  | nil => rfl
  | cons op ops ih =>
    obtain ⟨hop, hops⟩ := List.forall_mem_cons.mp h
    unfold WalWriter.groupFrames committedTxns
    rw [List.filter_cons_of_neg (by simp [WalFrame.inTxn, hop])]
    exact ih hops

/-- What a piece adds to the numbers that are committed. -/
theorem committedTxns_piece {p : Piece} (h : p.Proper) : committedTxns p.frames = match p with
    | .whole (.group _) _ txnId => [txnId]
    | _ => [] := by
  cases p with
  | whole a sequence txnId =>
    cases a with
    | single op =>
      have hop : op.isCommit = false := h.1 op (List.mem_singleton.mpr rfl)
      show committedTxns [WalFrame.standalone sequence op] = []
      unfold committedTxns
      rw [List.filter_cons_of_neg (by simp [WalFrame.standalone, hop])]
      rfl
    | group ops =>
      have hops : ∀ op ∈ ops, op.isCommit = false := h.1
      show committedTxns (WalWriter.groupFrames sequence txnId ops ++ _) = [txnId]
      rw [committedTxns_append, committedTxns_group hops]
      rfl
  | part ops sequence txnId => exact committedTxns_group h.2.1

/-- The frames of a piece that replay looks at, under the numbers it takes for committed. -/
theorem applied_piece {p : Piece} (h : p.Proper) (txns : List UInt64) (hsub : ∀ t ∈ committedTxns p.frames, t ∈ txns)
    (hpart : ∀ ops sequence txnId, p = .part ops sequence txnId → txnId ∉ txns) :
    ((opFrames p.frames).filter (fun f => f.txnId = 0 || txns.contains f.txnId)).map WalFrame.op = p.applied := by
  rw [committedTxns_piece h] at hsub
  cases p with
  | whole a sequence txnId =>
    cases a with
    | single op =>
      have hop : op.isCommit = false := h.1 op (List.mem_singleton.mpr rfl)
      show ((opFrames [WalFrame.standalone sequence op]).filter _).map _ = [op]
      unfold opFrames
      rw [List.filter_cons_of_pos (by simp [WalFrame.standalone, hop]), List.filter_nil,
        List.filter_cons_of_pos (by simp [WalFrame.standalone])]
      rfl
    | group ops =>
      have hproper : ∀ op ∈ ops, op.isCommit = false := h.1
      have hops : opFrames ((LogWrite.group ops).frames sequence txnId) = WalWriter.groupFrames sequence txnId ops := by
        rw [LogWrite.frames, opFrames_append, opFrames_group _ _ hproper]
        exact List.append_nil _
      show ((opFrames ((LogWrite.group ops).frames sequence txnId)).filter _).map _ = ops
      rw [hops, List.filter_eq_self.mpr, groupFrames_ops]
      intro f hf
      have hin : txnId ∈ txns := hsub txnId (List.mem_singleton.mpr rfl)
      simp [txnId_group hf, hin]
  | part ops sequence txnId =>
    have hnot := hpart ops sequence txnId rfl
    show ((opFrames (WalWriter.groupFrames sequence txnId ops)).filter _).map _ = []
    rw [opFrames_group _ _ h.2.1, List.filter_eq_nil_iff.mpr, List.map_nil]
    intro f hf
    simp [txnId_group hf, hnot, h.2.2]

theorem mem_committedTxns_append {t : UInt64} {xs ys : List WalFrame} :
    t ∈ committedTxns (xs ++ ys) ↔ t ∈ committedTxns xs ∨ t ∈ committedTxns ys := by
  rw [committedTxns_append, List.mem_append]

/-- **Replay applies what it applied before and the whole writes, in order, and nothing else.** -/
theorem Told.committed {base frames : List WalFrame} {pieces : List Piece} (h : Told base frames pieces)
    (tail tail' : WalTail) (validBytes validBytes' : Nat) :
    (WalScan.committed ⟨frames, tail, validBytes⟩).map WalFrame.op =
      (WalScan.committed ⟨base, tail', validBytes'⟩).map WalFrame.op ++ pieces.flatMap Piece.applied := by
  have hall : ∀ ps : List Piece, (∀ p ∈ ps, p ∈ pieces) →
      ((opFrames (ps.flatMap Piece.frames)).filter
        (fun f => f.txnId = 0 || (committedTxns frames).contains f.txnId)).map WalFrame.op = ps.flatMap Piece.applied := by
    intro ps
    induction ps with
    | nil => intro _; rfl
    | cons p ps ih =>
      intro hmem
      obtain ⟨hp, hps⟩ := List.forall_mem_cons.mp hmem
      have hpiece := applied_piece (h.proper p hp) (committedTxns frames) (fun t ht => ?_)
        (fun ops sequence txnId he => h.apart ops sequence txnId (he ▸ hp))
      · rw [List.flatMap_cons, List.flatMap_cons, opFrames_append, List.filter_append, List.map_append, hpiece, ih hps]
      · rw [h.split, mem_committedTxns_append]
        refine .inr ?_
        unfold committedTxns at ht ⊢
        obtain ⟨f, hf, rfl⟩ := List.mem_map.mp ht
        obtain ⟨hf, hcommit⟩ := List.mem_filter.mp hf
        exact List.mem_map_of_mem (List.mem_filter.mpr ⟨List.mem_flatMap.mpr ⟨p, hp, hf⟩, hcommit⟩)
  -- what the new commit records carry, no operation of the old log waits for
  have hbase : (opFrames base).filter (fun f => f.txnId = 0 || (committedTxns frames).contains f.txnId) =
      (opFrames base).filter (fun f => f.txnId = 0 || (committedTxns base).contains f.txnId) := by
    apply List.filter_congr
    intro f hf
    by_cases h0 : f.txnId = 0
    · simp [h0]
    by_cases hin : f.txnId ∈ committedTxns base
    · have hin' : f.txnId ∈ committedTxns frames := by
        rw [h.split, mem_committedTxns_append]; exact .inl hin
      simp [hin, hin']
    · have hout := h.before f hf h0 hin
      simp [hin, hout]
  have hframes : opFrames frames = opFrames base ++ opFrames (pieces.flatMap Piece.frames) := by
    rw [← opFrames_append, ← h.split]
  have hpieces := hall pieces (fun _ hp => hp)
  show ((opFrames frames).filter _).map WalFrame.op = ((opFrames base).filter _).map WalFrame.op ++ _
  rw [← hpieces, ← hbase, hframes, List.filter_append, List.map_append]

/-- The pieces that are applied are the writes that are all there. -/
theorem applied_eq (pieces : List Piece) :
    pieces.flatMap Piece.applied = (pieces.filterMap Piece.write).flatMap LogWrite.ops := by
  induction pieces with
  | nil => rfl
  | cons p ps ih =>
    rw [List.flatMap_cons, ih]
    cases p with
    | whole a sequence txnId => rfl
    | part ops sequence txnId => rfl

/-! ## How a log changes -/

/-- A batch cut short waits for its number to be committed. -/
theorem Told.waiting {base frames : List WalFrame} {pieces : List Piece} (h : Told base frames pieces)
    {ops : List WalOp} {sequence txnId : UInt64} (hp : Piece.part ops sequence txnId ∈ pieces) :
    Waiting frames txnId := by
  refine ⟨h.apart _ _ _ hp, ?_⟩
  obtain ⟨hne, hops, -⟩ := h.proper _ hp
  cases ops with
  | nil => exact absurd rfl hne
  | cons op ops =>
    have hop : op.isCommit = false := hops op List.mem_cons_self
    refine ⟨WalFrame.inTxn sequence txnId op, List.mem_filter.mpr ⟨?_, by simp [WalFrame.inTxn, hop]⟩, rfl⟩
    rw [h.split, List.mem_append]
    exact .inr (List.mem_flatMap.mpr ⟨_, hp, List.mem_cons_self⟩)

/-- What waited before the pieces came still waits. -/
theorem Told.waiting_before {base frames : List WalFrame} {pieces : List Piece} (h : Told base frames pieces)
    {f : WalFrame} (hf : f ∈ opFrames base) (h0 : f.txnId ≠ 0) (hin : f.txnId ∉ committedTxns base) :
    Waiting frames f.txnId := by
  refine ⟨h.before f hf h0 hin, f, ?_, rfl⟩
  rw [h.split, opFrames_append, List.mem_append]
  exact .inl hf

/-- **A whole write**: a batch must not take the number of one that was cut short. -/
theorem Told.write {base frames : List WalFrame} {pieces : List Piece} (h : Told base frames pieces) {a : LogWrite}
    (ha : a.Proper) {sequence txnId : UInt64} (hbatch : ∀ ops, a = .group ops → txnId ≠ 0 ∧ ¬ Waiting frames txnId) :
    Told base (frames ++ a.frames sequence txnId) (pieces ++ [.whole a sequence txnId]) := by
  have hproper : (Piece.whole a sequence txnId).Proper := ⟨ha, fun ops he => (hbatch ops he).1⟩
  -- the only number that a write commits is its own
  have hown : ∀ t, t ∈ committedTxns (a.frames sequence txnId) → ¬ Waiting frames t := by
    intro t ht
    have hframes : committedTxns (a.frames sequence txnId) = committedTxns (Piece.whole a sequence txnId).frames := rfl
    rw [hframes, committedTxns_piece hproper] at ht
    cases a with
    | single op => cases ht
    | group ops =>
      rw [List.mem_singleton.mp ht]
      exact (hbatch ops rfl).2
  refine ⟨?_, fun p hp => ?_, fun ops s t hp hmem => ?_, fun f hf h0 hin hmem => ?_⟩
  · rw [List.flatMap_append, ← List.append_assoc, ← h.split, List.flatMap_singleton]; rfl
  · rcases List.mem_append.mp hp with hp | hp
    · exact h.proper p hp
    · rw [List.mem_singleton.mp hp]; exact hproper
  · rcases List.mem_append.mp hp with hold | hp
    · rcases mem_committedTxns_append.mp hmem with hmem | hmem
      · exact h.apart _ _ _ hold hmem
      · exact hown t hmem (h.waiting hold)
    · cases List.mem_singleton.mp hp
  · rcases mem_committedTxns_append.mp hmem with hmem | hmem
    · exact h.before f hf h0 hin hmem
    · exact hown _ hmem (h.waiting_before hf h0 hin)

/-- **A batch cut short**: no commit record in the log may carry its number. -/
theorem Told.cutShort {base frames : List WalFrame} {pieces : List Piece} (h : Told base frames pieces)
    {ops : List WalOp} {sequence txnId : UInt64} (hp : (Piece.part ops sequence txnId).Proper)
    (hapart : txnId ∉ committedTxns frames) :
    Told base (frames ++ WalWriter.groupFrames sequence txnId ops) (pieces ++ [.part ops sequence txnId]) := by
  have hnone : committedTxns (frames ++ WalWriter.groupFrames sequence txnId ops) = committedTxns frames := by
    rw [committedTxns_append, committedTxns_group hp.2.1, List.append_nil]
  refine ⟨?_, fun p hmem => ?_, fun ops' s t hmem => ?_, fun f hf h0 hin => ?_⟩
  · rw [List.flatMap_append, ← List.append_assoc, ← h.split, List.flatMap_singleton]; rfl
  · rcases List.mem_append.mp hmem with hmem | hmem
    · exact h.proper p hmem
    · rw [List.mem_singleton.mp hmem]; exact hp
  · rw [hnone]
    rcases List.mem_append.mp hmem with hmem | hmem
    · exact h.apart _ _ _ hmem
    · obtain ⟨-, -, rfl⟩ := Piece.part.inj (List.mem_singleton.mp hmem)
      exact hapart
  · rw [hnone]; exact h.before f hf h0 hin

/-- The first frames of a piece, fewer than all: nothing, or the beginning of a batch. -/
theorem piece_take {p : Piece} (h : p.Proper) {m : Nat} (h0 : 0 < m) (hm : m < p.frames.length) :
    ∃ ops, (Piece.part ops p.sequence p.txnId).Proper ∧ p.frames.take m = (Piece.part ops p.sequence p.txnId).frames ∧
      ops.length = m := by
  -- the frames kept are those of the first `m` operations
  have hpart : ∀ (ops : List WalOp) (sequence txnId : UInt64), m ≤ ops.length → (∀ op ∈ ops, op.isCommit = false) →
      txnId ≠ 0 → (Piece.part (ops.take m) sequence txnId).Proper := by
    intro ops sequence txnId hle hops ht
    refine ⟨?_, fun op hop => hops op (List.mem_of_mem_take hop), ht⟩
    intro hnil
    have hlen := congrArg List.length hnil
    rw [List.length_take, List.length_nil] at hlen
    omega
  cases p with
  | whole a sequence txnId =>
    cases a with
    | single op =>
      have h1 : m < 1 := hm
      omega
    | group ops =>
      have hlen : (Piece.whole (.group ops) sequence txnId).frames.length = ops.length + 1 := by
        show (WalWriter.groupFrames sequence txnId ops ++ [_]).length = _
        rw [List.length_append, groupFrames_length]; rfl
      rw [hlen] at hm
      refine ⟨ops.take m, hpart ops sequence txnId (by omega) h.1 (h.2 ops rfl), ?_, List.length_take_of_le (by omega)⟩
      show (WalWriter.groupFrames sequence txnId ops ++ [_]).take m = WalWriter.groupFrames sequence txnId (ops.take m)
      rw [List.take_append_of_le_length (by rw [groupFrames_length]; omega), groupFrames_take]
  | part ops sequence txnId =>
    have hlen : m < ops.length := by
      rw [← groupFrames_length sequence txnId ops]; exact hm
    exact ⟨ops.take m, hpart ops sequence txnId (by omega) h.2.1 h.2.2, groupFrames_take _ _ _ _,
      List.length_take_of_le (by omega)⟩

/-! ## A log cut off -/

/-- A number that is committed is that of a whole batch. -/
theorem mem_committedTxns_pieces {pieces : List Piece} (h : ∀ p ∈ pieces, p.Proper) {t : UInt64} :
    t ∈ committedTxns (pieces.flatMap Piece.frames) ↔ ∃ ops sequence, Piece.whole (.group ops) sequence t ∈ pieces := by
  induction pieces with
  | nil => exact ⟨nofun, fun ⟨_, _, h⟩ => nomatch h⟩
  | cons p pieces ih =>
    obtain ⟨hp, hrest⟩ := List.forall_mem_cons.mp h
    rw [List.flatMap_cons, mem_committedTxns_append, ih hrest, committedTxns_piece hp]
    constructor
    · rintro (hmem | ⟨ops, sequence, hmem⟩)
      · split at hmem
        · obtain rfl := List.mem_singleton.mp hmem
          exact ⟨_, _, List.mem_cons_self⟩
        · cases hmem
      · exact ⟨ops, sequence, List.mem_cons_of_mem _ hmem⟩
    · rintro ⟨ops, sequence, hmem⟩
      rcases List.mem_cons.mp hmem with rfl | hmem
      · exact .inl (List.mem_singleton.mpr rfl)
      · exact .inr ⟨ops, sequence, hmem⟩

theorem entry_frames (p : Piece) : p.entry.frames = p.frames.length := by
  cases p with
  | whole a sequence txnId =>
    cases a with
    | single op => rfl
    | group ops =>
      show ops.length + 1 = (WalWriter.groupFrames sequence txnId ops ++ [_]).length
      rw [List.length_append, groupFrames_length]
      rfl
  | part ops sequence txnId => exact (groupFrames_length sequence txnId ops).symm

theorem total_entries (pieces : List Piece) : LogEntry.total (pieces.map Piece.entry) = (pieces.flatMap Piece.frames).length := by
  induction pieces with
  | nil => rfl
  | cons p pieces ih =>
    rw [List.flatMap_cons, List.length_append, ← entry_frames, ← ih]
    rfl

theorem LogEntry.cut_cons (frames : Nat) (e : LogEntry) (rest : List LogEntry) :
    cut frames (e :: rest) = if e.frames ≤ frames then e :: cut (frames - e.frames) rest else e.shorten frames :=
  rfl

/-- A cut behind whole entries goes on in the rest. -/
theorem LogEntry.cut_append (before rest : List LogEntry) (m : Nat) :
    LogEntry.cut (LogEntry.total before + m) (before ++ rest) = before ++ LogEntry.cut m rest := by
  induction before with
  | nil =>
    rw [show LogEntry.total [] = 0 from rfl, Nat.zero_add]
    rfl
  | cons e before ih =>
    have htotal : LogEntry.total (e :: before) = e.frames + LogEntry.total before := rfl
    rw [List.cons_append, htotal, cut_cons, if_pos (by omega), show e.frames + LogEntry.total before + m - e.frames = LogEntry.total before + m by omega, ih]
    rfl

/-- A cut right behind whole entries leaves nothing of the rest. -/
theorem cut_zero {pieces : List Piece} (h : ∀ p ∈ pieces, p.Proper) : LogEntry.cut 0 (pieces.map Piece.entry) = [] := by
  cases pieces with
  | nil => rfl
  | cons p pieces =>
    have hp := h p List.mem_cons_self
    rw [List.map_cons, LogEntry.cut_cons]
    cases p with
    | whole a sequence txnId => cases a <;> rfl
    | part ops sequence txnId =>
      have hlarge : ¬ (Piece.part ops sequence txnId).entry.frames ≤ 0 := fun hle =>
        hp.1 (List.length_eq_zero_iff.mp (Nat.le_zero.mp hle))
      rw [if_neg hlarge]
      rfl

/-- **A log cut behind any frame**: the batch that lost its end must keep a number of its own. -/
theorem Told.take {frames : List WalFrame} {pieces : List Piece} (h : Told [] frames pieces) {j : Nat}
    (hspared : LogEntry.Spared j (pieces.map Piece.entry)) :
    ∃ kept, Told [] (frames.take j) kept ∧ kept.filterMap Piece.write <+: pieces.filterMap Piece.write ∧
      kept.map Piece.entry = LogEntry.cut j (pieces.map Piece.entry) := by
  have hsplit : frames = pieces.flatMap Piece.frames := h.split
  have hsub : ∀ t, t ∈ committedTxns (frames.take j) → t ∈ committedTxns frames := by
    intro t ht
    rw [← List.take_append_drop j frames, mem_committedTxns_append]
    exact .inl ht
  by_cases hj : frames.length < j
  · -- nothing is cut off
    refine ⟨pieces, by rw [List.take_of_length_le hj.le]; exact h, List.prefix_rfl, ?_⟩
    have hcut := LogEntry.cut_append (pieces.map Piece.entry) [] (j - frames.length)
    rw [total_entries, ← hsplit, show frames.length + (j - frames.length) = j by omega, List.append_nil] at hcut
    rw [hcut]
    exact (List.append_nil _).symm
  have hlen : j ≤ (pieces.flatMap Piece.frames).length := by rw [← hsplit]; omega
  obtain ⟨i, hi, -, hcase⟩ := Parsing.take_flatMap Piece.frames pieces j hlen
  rw [← hsplit] at hcase
  have hproper : ∀ p ∈ pieces.take i, p.Proper := fun p hp => h.proper p (List.mem_of_mem_take hp)
  have hkept : (pieces.take i).filterMap Piece.write <+: pieces.filterMap Piece.write :=
    (List.take_prefix i pieces).filterMap _
  have hentries : pieces.map Piece.entry = (pieces.take i).map Piece.entry ++ (pieces.drop i).map Piece.entry := by
    rw [← List.map_append, List.take_append_drop]
  rcases hcase with ⟨hat, hc⟩ | ⟨p, m, hp, h0, hm, hat, hc⟩
  · refine ⟨pieces.take i, ⟨hc, hproper, fun ops s t hmem ht => h.apart ops s t (List.mem_of_mem_take hmem) (hsub t ht),
      nofun⟩, hkept, ?_⟩
    have hcut := LogEntry.cut_append ((pieces.take i).map Piece.entry) ((pieces.drop i).map Piece.entry) 0
    rw [← hentries, total_entries, hat, Nat.add_zero, cut_zero (fun q hq => h.proper q (List.mem_of_mem_drop hq)),
      List.append_nil] at hcut
    exact hcut.symm
  · have hmem := List.mem_of_getElem? hp
    obtain ⟨hlt, hget⟩ := List.getElem?_eq_some_iff.mp hp
    have hdrop : (pieces.drop i).map Piece.entry = p.entry :: (pieces.drop (i + 1)).map Piece.entry := by
      rw [List.drop_eq_getElem_cons hlt, hget]
      rfl
    obtain ⟨ops, hpart, htake, hsize⟩ := piece_take (h.proper p hmem) h0 hm
    have hfront : Told [] ((pieces.take i).flatMap Piece.frames) (pieces.take i) := by
      refine ⟨rfl, hproper, fun ops' s t hmem ht => h.apart ops' s t (List.mem_of_mem_take hmem) (hsub t ?_), nofun⟩
      rw [hc, mem_committedTxns_append]
      exact .inl ht
    -- a whole batch is spared by the cut, a part of one was apart before it
    have hown : p.txnId ∉ committedTxns ((pieces.take i).flatMap Piece.frames) := by
      intro hcommitted
      cases p with
      | part ops' s t =>
        refine h.apart ops' s t hmem (hsub t ?_)
        rw [hc, mem_committedTxns_append]
        exact .inl hcommitted
      | whole a s t =>
        obtain ⟨ops', s', hwhole⟩ := (mem_committedTxns_pieces hproper).mp hcommitted
        cases a with
        | single op =>
          have hone : m < 1 := hm
          omega
        | group ops =>
          rw [← entry_frames] at hm
          refine hspared _ t (ops.length + 1) _ (hentries.trans (congrArg _ hdrop)) ?_ ?_ (ops'.length + 1)
            (List.mem_map_of_mem (f := Piece.entry) hwhole)
          · rw [total_entries]; omega
          · rw [total_entries, hat]
            exact Nat.add_lt_add_left hm _
    rw [htake] at hc
    refine ⟨pieces.take i ++ [Piece.part ops p.sequence p.txnId], by rw [hc]; exact hfront.cutShort hpart hown, ?_, ?_⟩
    · rw [List.filterMap_append]
      exact (List.append_nil _).symm ▸ hkept
    · have hcut := LogEntry.cut_append ((pieces.take i).map Piece.entry) ((pieces.drop i).map Piece.entry) m
      rw [← hentries, total_entries, ← hat, hdrop] at hcut
      rw [hcut, List.map_append]
      congr 1
      rw [LogEntry.cut_cons, if_neg (by rw [entry_frames]; omega)]
      cases p with
      | part ops' s t =>
        show [LogEntry.part t ops.length] = if m = 0 then [] else [.part t m]
        rw [if_neg (by omega), hsize]
      | whole a s t =>
        cases a with
        | single op =>
          have hone : m < 1 := hm
          omega
        | group ops' =>
          show [LogEntry.part t ops.length] = if m = 0 then [] else [.part t m]
          rw [if_neg (by omega), hsize]

end IshaVectorDb.Engine
