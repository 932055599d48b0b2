import IshaVectorDb.Format.Block
import IshaVectorDb.Packed.Words
import IshaVectorDb.Parsing.Slices
import Mathlib.Data.List.Range

/-!
# `Format.Tombstones` — a segment's live-row bitmap

Bit `r` set means row `r` is live; the bitmap is the only mutable part of a segment. `Wf` is what its decoder
enforces (one word for every 64 rows, no bit past the last row). Under it the words are a set of rows:
`isLive_kill`, `isLive_allLive` and `liveCount_eq` say which, and `decode_encode` is the file's round trip. Over any kills
all of it stays true (`kills_keep_count`).
-/

namespace IshaVectorDb.Format

open Parsing

/-- A live-row bitmap, 64 rows a word. -/
structure Tombstones where
  rows : UInt32
  generation : UInt32
  words : List (BitVec 64)
deriving DecidableEq, Repr

/-- `n.div_ceil(64)`. -/
def wordCount (rows : Nat) : Nat := (rows + 63) / 64

namespace Tombstones

/-- The mask of one row within its word. -/
def mask (index : Nat) : BitVec 64 := 1#64 <<< (index % 64)

/-- All rows live. -/
def allLive (rows : UInt32) (generation : UInt32) : Tombstones :=
  let full := List.replicate (wordCount rows.toNat) (BitVec.allOnes 64)
  let used := rows.toNat % 64
  ⟨rows, generation, if used = 0 then full
    else full.dropLast ++ (full.getLast?.map (fun w => w &&& (mask used - 1#64))).toList⟩

/-- Whether row `index` is live. -/
def isLive (t : Tombstones) (index : Nat) : Bool :=
  if t.rows.toNat ≤ index then false
  else match t.words[index / 64]? with
    | some w => w &&& mask index ≠ 0#64
    | none => false

/-- Mark a row dead, saying whether it changed. -/
def kill (t : Tombstones) (index : Nat) : Bool × Tombstones :=
  if t.rows.toNat ≤ index then (false, t)
  else match t.words[index / 64]? with
    | none => (false, t)
    | some w =>
        if w &&& mask index = 0#64 then (false, t)
        else (true, { t with words := t.words.set (index / 64) (w &&& ~~~ mask index) })

/-- `u64::count_ones`. -/
def countOnes (w : BitVec 64) : Nat := (List.range 64).countP (fun i => w.getLsbD i)

/-- Live rows. -/
def liveCount (t : Tombstones) : Nat := (t.words.map countOnes).sum

def payload (t : Tombstones) : Bytes :=
  Writer.u32 t.rows ++ (Writer.u32 t.generation ++ (Writer.reserved 8 ++
    t.words.flatMap (fun w => Writer.u64 ⟨w⟩)))

/-- Encode a `.del` file. -/
def encode (t : Tombstones) : Bytes := encodeBlock .deleted t.payload

def read : Reader Tombstones := do
  let rows ← Reader.u32
  let generation ← Reader.u32
  Reader.reserved 8
  let left ← remaining
  let expectedWords := wordCount rows.toNat
  if left ≠ expectedWords * 8 then fail (.malformed 16 (.inconsistent "bitmap length"))
  else do
    let words ← times Reader.u64 expectedWords
    let used := rows.toNat % 64
    -- bits past the final row must be clear
    if used ≠ 0 ∧ words.getLast?.any (fun w => w.toBitVec &&& ~~~ (mask used - 1#64) ≠ 0#64) then
      fail (.malformed 16 (.inconsistent "bitmap tail"))
    else do
      Reader.expectEnd "tombstones"
      return ⟨rows, generation, words.map UInt64.toBitVec⟩

/-- Decode a `.del` file. -/
def decode (bs : Bytes) : Except FormatError Tombstones := do
  let payload ← decodeBlock bs .deleted
  (read ⟨payload, 0⟩).map Prod.fst

/-! ## Rows -/

/-- What the decoder enforces: a word for every 64 rows and no bit past the last row. -/
structure Wf (t : Tombstones) : Prop where
  size : t.words.length = wordCount t.rows.toNat
  tail : ∀ i, t.rows.toNat ≤ i → ∀ w ∈ t.words[i / 64]?, w.getLsbD (i % 64) = false

/-- The words are those of a set of rows. -/
theorem wf_iff {t : Tombstones} : t.Wf ↔ Packed.Within t.words t.rows.toNat := by
  constructor
  · intro h
    refine ⟨h.size, fun i hi => ?_⟩
    cases hw : t.words[i / 64]? with
    | none => exact Packed.bit_of_le (List.getElem?_eq_none_iff.mp hw)
    | some w => rw [Packed.bit_of_word hw, h.tail i hi w hw]
  · intro h
    refine ⟨h.size, fun i hi w hw => ?_⟩
    rw [← Packed.bit_of_word hw, h.tail i hi]

theorem isLive_eq (t : Tombstones) (index : Nat) :
    t.isLive index = (decide (index < t.rows.toNat) && Packed.bit t.words index) := by
  unfold isLive
  split
  · rename_i h
    rw [decide_eq_false (Nat.not_lt.mpr h), Bool.false_and]
  · rename_i h
    rw [decide_eq_true (Nat.lt_of_not_le h), Bool.true_and]
    cases hw : t.words[index / 64]? with
    | none => rw [Packed.bit_of_le (List.getElem?_eq_none_iff.mp hw)]
    | some w =>
      rw [Packed.bit_of_word hw]
      exact Packed.and_single_ne_zero (by omega) w index

theorem isLive_lt {t : Tombstones} {index : Nat} (h : t.isLive index = true) : index < t.rows.toNat := by
  rw [isLive_eq] at h
  simp only [Bool.and_eq_true, decide_eq_true_eq] at h
  exact h.1

/-- A row past the end is not live. -/
theorem isLive_of_le {t : Tombstones} {index : Nat} (h : t.rows.toNat ≤ index) : t.isLive index = false := by
  rw [isLive_eq, decide_eq_false (Nat.not_lt.mpr h), Bool.false_and]

/-- A kill changes something exactly when the row was live. -/
theorem kill_changed (t : Tombstones) (index : Nat) : (t.kill index).1 = t.isLive index := by
  unfold kill isLive
  split
  · rfl
  · cases hw : t.words[index / 64]? with
    | none => rfl
    | some w =>
      by_cases hz : w &&& mask index = 0#64
      · simp [hz]
      · simp [hz]

/-- A kill that changes nothing is no kill. -/
theorem kill_dead {t : Tombstones} {index : Nat} (h : t.isLive index = false) : (t.kill index).2 = t := by
  rw [← kill_changed] at h
  unfold kill at h ⊢
  split_ifs at h ⊢
  · rfl
  · cases hw : t.words[index / 64]? with
    | none => rfl
    | some w =>
      rw [hw] at h
      by_cases hz : w &&& mask index = 0#64
      · simp [hz]
      · simp [hz] at h

/-- **A kill of a live row** takes its bit out of its word. -/
theorem kill_live {t : Tombstones} {index : Nat} (h : t.isLive index = true) : ∃ w, t.words[index / 64]? = some w ∧
    (t.kill index).2 = { t with words := t.words.set (index / 64) (w &&& ~~~ mask index) } := by
  have hlt := isLive_lt h
  rw [← kill_changed] at h
  unfold kill at h ⊢
  rw [if_neg (Nat.not_le.mpr hlt)] at h ⊢
  cases hw : t.words[index / 64]? with
  | none => rw [hw] at h; cases h
  | some w =>
    rw [hw] at h
    refine ⟨w, rfl, ?_⟩
    by_cases hz : w &&& mask index = 0#64
    · simp [hz] at h
    · simp [hz]

@[simp] theorem kill_rows (t : Tombstones) (index : Nat) : (t.kill index).2.rows = t.rows := by
  cases h : t.isLive index with
  | false => rw [kill_dead h]
  | true =>
    obtain ⟨w, -, hkill⟩ := kill_live h
    rw [hkill]

@[simp] theorem kill_generation (t : Tombstones) (index : Nat) : (t.kill index).2.generation = t.generation := by
  cases h : t.isLive index with
  | false => rw [kill_dead h]
  | true =>
    obtain ⟨w, -, hkill⟩ := kill_live h
    rw [hkill]

/-- **Killing a row kills that row and no other.** -/
theorem isLive_kill (t : Tombstones) (i j : Nat) : (t.kill i).2.isLive j = (t.isLive j && decide (j ≠ i)) := by
  cases h : t.isLive i with
  | false =>
    rw [kill_dead h]
    by_cases hji : j = i
    · rw [hji, h, Bool.false_and]
    · rw [decide_eq_true hji, Bool.and_true]
  | true =>
    obtain ⟨w, hw, hkill⟩ := kill_live h
    rw [hkill, isLive_eq, isLive_eq, Bool.and_assoc]
    congr 1
    exact Packed.bit_erase (by omega) hw j

theorem Wf.kill {t : Tombstones} (h : t.Wf) (index : Nat) : (t.kill index).2.Wf := by
  cases hl : t.isLive index with
  | false => rw [kill_dead hl]; exact h
  | true =>
    obtain ⟨w, hw, hkill⟩ := kill_live hl
    have hin := wf_iff.mp h
    rw [hkill]
    refine wf_iff.mpr ⟨List.length_set.trans hin.size, fun i hi => ?_⟩
    refine (Packed.bit_erase (by omega) hw i).trans ?_
    rw [hin.tail i hi, Bool.false_and]

/-- **The live count is the number of live rows.** -/
theorem liveCount_eq {t : Tombstones} (h : t.Wf) :
    t.liveCount = (List.range t.rows.toNat).countP t.isLive := by
  refine ((wf_iff.mp h).sum_ones (by omega)).trans (List.countP_congr fun i hi => ?_)
  rw [isLive_eq, decide_eq_true (List.mem_range.mp hi), Bool.true_and]

theorem liveCount_le {t : Tombstones} (h : t.Wf) : t.liveCount ≤ t.rows.toNat := by
  rw [liveCount_eq h]
  exact Nat.le_trans List.countP_le_length (by rw [List.length_range])

/-! ## The fresh bitmap -/

/-- Its words are full ones, the last one trimmed. -/
theorem allLive_words (rows generation : UInt32) : (allLive rows generation).words =
    Packed.trim rows.toNat (List.replicate (wordCount rows.toNat) (BitVec.allOnes 64)) := by
  have hmask : mask (rows.toNat % 64) = Packed.single 64 rows.toNat := by
    unfold mask Packed.single
    rw [Nat.mod_mod]
  unfold allLive Packed.trim
  rw [← hmask]

theorem allLive_wf (rows generation : UInt32) : (allLive rows generation).Wf := by
  refine wf_iff.mpr ?_
  rw [allLive_words]
  exact Packed.within_trim (by omega) List.length_replicate

/-- **Every row of a fresh bitmap is live.** -/
theorem isLive_allLive (rows generation : UInt32) (i : Nat) :
    (allLive rows generation).isLive i = decide (i < rows.toNat) := by
  have hsize : (List.replicate (wordCount rows.toNat) (BitVec.allOnes 64)).length = Packed.wordsFor 64 rows.toNat :=
    List.length_replicate
  rw [isLive_eq, allLive_words, Packed.bit_trim (by omega) hsize, Packed.bit_replicate_allOnes (by omega)]
  show (decide (i < rows.toNat) && _) = _
  by_cases hi : i < rows.toNat
  · have hword : i / 64 < wordCount rows.toNat := Packed.div_lt_wordsFor (w := 64) (by omega) hi
    rw [decide_eq_true hi, decide_eq_true hword]
    rfl
  · rw [decide_eq_false hi, Bool.false_and]

/-! ## Round trip -/

theorem payload_length (t : Tombstones) : t.payload.length = 16 + 8 * t.words.length := by
  have hw : (t.words.flatMap (fun w => Writer.u64 ⟨w⟩)).length = t.words.length * 8 :=
    length_flatMap_stride (fun w _ => Writer.u64_length _)
  simp only [payload, List.length_append, Writer.u32_length, Writer.reserved_length, hw]
  omega

theorem Wf.payload_lt {t : Tombstones} (h : t.Wf) : t.payload.length + 36 < 2 ^ 64 := by
  have hr := t.rows.toNat_lt
  rw [payload_length, h.size, wordCount]
  omega

/-- The decoder's look at the last word. -/
theorem tail_iff {n : Nat} {words : List UInt64} (hsize : words.length = wordCount n) :
    (∀ i, n ≤ i → Packed.bit (words.map UInt64.toBitVec) i = false) ↔
      ¬ (n % 64 ≠ 0 ∧ words.getLast?.any (fun w => w.toBitVec &&& ~~~ (mask (n % 64) - 1#64) ≠ 0#64) = true) := by
  have hmask : mask (n % 64) = Packed.single 64 n := by
    unfold mask Packed.single
    rw [Nat.mod_mod]
  rw [Packed.tail_iff (by omega) (by rw [List.length_map]; exact hsize), hmask, List.getLast?_map]
  cases words.getLast? <;> rfl

theorem Wf.tail_clear {t : Tombstones} (h : t.Wf) : ¬ (t.rows.toNat % 64 ≠ 0 ∧
    (t.words.map UInt64.ofBitVec).getLast?.any
      (fun w => w.toBitVec &&& ~~~ (mask (t.rows.toNat % 64) - 1#64) ≠ 0#64) = true) := by
  have hback : (t.words.map UInt64.ofBitVec).map UInt64.toBitVec = t.words := by
    rw [List.map_map]; exact List.map_id _
  refine (tail_iff (by rw [List.length_map]; exact h.size)).mp fun i hi => ?_
  rw [hback]
  exact (wf_iff.mp h).tail i hi

theorem readsAll_payload {t : Tombstones} (h : t.Wf) : ReadsAll read t.payload t := by
  have hbytes : t.words.flatMap (fun w => Writer.u64 ⟨w⟩) = (t.words.map UInt64.ofBitVec).flatMap Writer.u64 := by
    rw [List.flatMap_map]
  have hleft : (t.words.flatMap (fun w => Writer.u64 ⟨w⟩)).length = wordCount t.rows.toNat * 8 := by
    rw [← h.size]; exact length_flatMap_stride (fun w _ => Writer.u64_length _)
  refine ReadsAll.bind (Reader.reads_u32 _) (ReadsAll.bind (Reader.reads_u32 _) ?_)
  refine ReadsAll.bind (Reader.reads_reserved 8) (ReadsAll.remaining_bind ?_)
  rw [if_neg (not_not.mpr hleft), hbytes]
  have hn : wordCount t.rows.toNat = (t.words.map UInt64.ofBitVec).length := by rw [List.length_map, h.size]
  rw [hn]
  refine ReadsAll.bind_nil (ReadsAll.of_reads (Reads.times (fun w _ => Reader.reads_u64 w))) ?_
  rw [if_neg h.tail_clear]
  refine ReadsAll.bind_nil (Reader.readsAll_expectEnd _) ?_
  have hback : (t.words.map UInt64.ofBitVec).map UInt64.toBitVec = t.words := by
    rw [List.map_map]; exact List.map_id _
  rw [hback]; exact ReadsAll.pure t

/-- **The round trip of a `.del` file.** -/
theorem decode_encode {t : Tombstones} (h : t.Wf) : decode t.encode = .ok t := by
  have hd : decodeBlock (encodeBlock .deleted t.payload ++ []) .deleted = .ok t.payload :=
    decodeBlock_encodeBlock h.payload_lt []
  rw [List.append_nil] at hd
  unfold decode encode
  rw [hd]
  show (read ⟨t.payload, 0⟩).map Prod.fst = _
  rw [readsAll_payload h 0]; rfl

/-- **What decodes** has a word for every 64 rows and no bit past the last row. -/
theorem decode_wf {bs : Bytes} {t : Tombstones} (h : decode bs = .ok t) : t.Wf := by
  have hread : Yields read Wf := by
    refine Yields.skip (fun rows => Yields.skip (fun generation => Yields.skip (fun _ => Yields.skip (fun left => ?_))))
    refine Yields.ite (fun _ => Yields.fail _) (fun _ => Yields.bind (Yields.times_length _) (fun words hwords => ?_))
    refine Yields.ite (fun _ => Yields.fail _) (fun hclear => Yields.skip (fun _ => Yields.pure ?_))
    exact wf_iff.mpr ⟨(List.length_map _).trans hwords, (tail_iff hwords).mpr hclear⟩
  obtain ⟨payload, -, h⟩ := except_bind_eq_ok.mp h
  cases hr : read ⟨payload, 0⟩ with
  | error e => rw [hr] at h; cases h
  | ok a =>
    rw [hr] at h
    obtain rfl : a.1 = t := Except.ok.inj h
    exact hread _ a.1 a.2 hr

/-- **A torn `.del` file does not decode.** -/
theorem decode_torn {t : Tombstones} (h : t.Wf) {k : Nat} (hk : k < t.encode.length) :
    ∃ e, decode (t.encode.take k) = .error e := by
  have hk' : k < (encodeBlock .deleted t.payload).length := hk
  obtain ⟨e, he, -⟩ := decodeBlock_torn h.payload_lt hk'
  exact ⟨e, by unfold decode encode; rw [he]; rfl⟩

/-! ## Kills, one after another -/

/-- A bitmap that no row was killed in yet: a fresh one, or one that was read. -/
inductive Initial : Tombstones → Prop
  | allLive (rows generation : UInt32) : Initial (allLive rows generation)
  | decoded (bs : Bytes) (t : Tombstones) (h : decode bs = .ok t) : Initial t

theorem Initial.wf {t : Tombstones} (h : t.Initial) : t.Wf := by
  cases h with
  | allLive rows generation => exact allLive_wf rows generation
  | decoded bs t h => exact decode_wf h

/-- Kill one row after another. -/
def killAll (t : Tombstones) (rows : List Nat) : Tombstones := rows.foldl (fun t i => (t.kill i).2) t

theorem killAll_rows (t : Tombstones) (rows : List Nat) : (t.killAll rows).rows = t.rows := by
  induction rows generalizing t with
  | nil => rfl
  | cons i rows ih => exact (ih _).trans (kill_rows t i)

theorem Wf.killAll {t : Tombstones} (h : t.Wf) (rows : List Nat) : (t.killAll rows).Wf := by
  induction rows generalizing t with
  | nil => exact h
  | cons i rows ih => exact ih (h.kill i)

/-- **The rows that are left** are those that no kill named. -/
theorem isLive_killAll (t : Tombstones) (rows : List Nat) (j : Nat) :
    (t.killAll rows).isLive j = (t.isLive j && decide (j ∉ rows)) := by
  induction rows generalizing t with
  | nil => exact (Bool.and_true _).symm
  | cons i rows ih =>
    refine (ih _).trans ?_
    rw [isLive_kill, Bool.and_assoc, ← Bool.decide_and]
    congr 2
    exact propext (not_or.symm.trans (not_congr List.mem_cons.symm))

/-- **A tombstone bitmap keeps its count**, over any kills from a fresh bitmap or one that was read: the count is that of
    the live rows, the next kill says whether its row was live and takes that row only, no row past the end is live, and
    the file reads back as the same bitmap. -/
theorem kills_keep_count {t : Tombstones} (h : t.Initial) (rows : List Nat) :
    (t.killAll rows).liveCount = (List.range t.rows.toNat).countP (t.killAll rows).isLive ∧
      (t.killAll rows).liveCount ≤ t.rows.toNat ∧
      (∀ j, (t.killAll rows).isLive j = (t.isLive j && decide (j ∉ rows))) ∧
      (∀ i, ((t.killAll rows).kill i).1 = (t.killAll rows).isLive i ∧
        ∀ j, ((t.killAll rows).kill i).2.isLive j = ((t.killAll rows).isLive j && decide (j ≠ i))) ∧
      (∀ j, t.rows.toNat ≤ j → (t.killAll rows).isLive j = false) ∧
      decode (t.killAll rows).encode = .ok (t.killAll rows) := by
  have hwf := h.wf.killAll rows
  have hrows := killAll_rows t rows
  refine ⟨?_, ?_, isLive_killAll t rows, fun i => ⟨kill_changed _ i, isLive_kill _ i⟩, fun j hj => ?_, decode_encode hwf⟩
  · rw [liveCount_eq hwf, hrows]
  · rw [← hrows]
    exact liveCount_le hwf
  · exact isLive_of_le (by rw [hrows]; exact hj)

theorem kills_keep_count_seventy : ((allLive 70 1).killAll [3, 69, 70, 3]).liveCount =
    (List.range 70).countP ((allLive 70 1).killAll [3, 69, 70, 3]).isLive :=
  (kills_keep_count (.allLive 70 1) [3, 69, 70, 3]).1

end Tombstones

end IshaVectorDb.Format
