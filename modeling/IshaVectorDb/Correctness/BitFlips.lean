import IshaVectorDb.Parsing.Flips
import IshaVectorDb.Correctness.LogScan

/-!
# `Correctness.BitFlips` — one **flipped bit** in a log of whole frames

The scan stops at the frame the bit is in, whatever field it is in (`scan_flip`). A flip in the checksum or in
the body is seen by the checksum. A flip in the length moves the end of the body, and the checksum of another
span of bytes may match by chance; there it is the body's own grammar that refuses, since no body begins another
one (`body_unique`).
-/

namespace IshaVectorDb.Format

open Parsing

namespace WalFrame

/-! ## No body begins another -/

/-- The fields of a body, without the check that it ends there. -/
def readFields : Reader WalFrame := do
  let sequence ← Reader.varint
  let txnId ← Reader.varint
  let opAt ← position
  let code ← Reader.u8
  let op ← readOp opAt code
  return ⟨sequence, txnId, op⟩

theorem reads_fields {f : WalFrame} (h : f.Fits) : Reads readFields f.body f := by
  have hlen : f.op.payload.length < 2 ^ 64 := by
    have h' : f.body.length ≤ 64 * 1024 * 1024 := h
    simp only [body, List.length_append] at h'; omega
  refine Reads.bind (Reader.reads_varint _) (Reads.bind (Reader.reads_varint _) ?_)
  refine Reads.position_bind (fun opAt => Reads.bind (Reader.reads_u8 _) ?_)
  exact Reads.bind_nil (reads_op opAt hlen) (Reads.pure f)

/-- **No frame's body begins another's**: bytes that start with both are about one frame. -/
theorem body_unique {f g : WalFrame} (hf : f.Fits) (hg : g.Fits) {xs ys : Bytes}
    (h : f.body ++ xs = g.body ++ ys) : f = g := by
  have hread := reads_fields hf xs 0
  rw [h, reads_fields hg ys 0] at hread
  exact (Prod.mk.inj (Except.ok.inj hread)).1.symm

/-- A body with bytes behind it is refused for these, and not for an early end. -/
theorem not_bodyEnds_append {f : WalFrame} (h : f.Fits) {b : UInt8} {xs : Bytes} : ¬ BodyEnds (f.body ++ b :: xs) := by
  intro hends
  obtain ⟨e, he, hT⟩ := runsOut_body.mpr (show BodyEnds (⟨f.body ++ b :: xs, 0⟩ : Input).rest from hends)
  have hread : readBody = (readFields >>= fun g => do
      Reader.expectEnd "wal frame body"
      return g) := by
    funext i
    simp only [readBody, readFields, bind_assoc, pure_bind]
  rw [hread, bind_of_ok (reads_fields h (b :: xs) 0)] at he
  cases he
  cases hT

/-! ## The header of a flipped frame -/

/-- What two words declare about the bytes behind them. -/
theorem declared {l c rest : Bytes} (hl : l.length = 4) (hc : c.length = 4) :
    declaredLen (l ++ (c ++ rest)) = leNat l ∧ declaredCrc (l ++ (c ++ rest)) = UInt32.ofNat (leNat c) ∧
      declaredBody (l ++ (c ++ rest)) = rest.take (leNat l) := by
  have hlen : declaredLen (l ++ (c ++ rest)) = leNat l := by
    unfold declaredLen
    rw [List.take_append_of_le_length (by omega), List.take_of_length_le (by omega)]
  have hcrc : ((l ++ (c ++ rest)).drop 4).take 4 = c := by
    rw [← hl, List.drop_left, hl, ← hc, List.take_left]
  have hbody : (l ++ (c ++ rest)).drop frameHeaderLen = rest := by
    have h8 : frameHeaderLen = (l ++ c).length := by rw [List.length_append, hl, hc]; rfl
    rw [← List.append_assoc, h8, List.drop_left]
  refine ⟨hlen, ?_, ?_⟩
  · rw [declaredCrc, hcrc]
  · rw [declaredBody, hlen, hbody]

theorem leNat_bodyLen {f : WalFrame} (h : f.Fits) : leNat (Writer.u32 (UInt32.ofNat f.body.length)) = f.body.length := by
  have hlt := (UInt32.ofNat f.body.length).toNat_lt
  rw [Writer.u32, leNat_leBytes_of_lt (by omega), bodyLen_toNat h]

/-- Which field of the frame bit `j` is in, and what the flip makes of it. -/
theorem flip_cases (f : WalFrame) {j : Nat} (hj : j < 8 * f.bytes.length) (after : Bytes) :
    (j < 32 ∧ flipBit f.bytes j ++ after =
        flipBit (Writer.u32 (UInt32.ofNat f.body.length)) j ++ (Writer.u32 (crc32c f.body) ++ (f.body ++ after))) ∨
    (∃ k < 32, 32 ≤ j ∧ flipBit f.bytes j ++ after =
        Writer.u32 (UInt32.ofNat f.body.length) ++ (flipBit (Writer.u32 (crc32c f.body)) k ++ (f.body ++ after))) ∨
    ∃ k < 8 * f.body.length, 32 ≤ j ∧ flipBit f.bytes j ++ after =
        Writer.u32 (UInt32.ofNat f.body.length) ++ (Writer.u32 (crc32c f.body) ++ (flipBit f.body k ++ after)) := by
  have hl : (Writer.u32 (UInt32.ofNat f.body.length)).length = 4 := by simp
  have hc : (Writer.u32 (crc32c f.body)).length = 4 := by simp
  have hbytes : f.bytes.length = 8 + f.body.length := f.bytes_length
  by_cases h32 : j < 32
  · refine .inl ⟨h32, ?_⟩
    rw [bytes, flipBit_append_left _ _ _ (by omega), List.append_assoc, List.append_assoc]
  by_cases h64 : j < 64
  · obtain ⟨k, rfl⟩ : ∃ k, j = 8 * (Writer.u32 (UInt32.ofNat f.body.length)).length + k := ⟨j - 32, by omega⟩
    refine .inr (.inl ⟨k, by omega, by omega, ?_⟩)
    rw [bytes, flipBit_append_right, flipBit_append_left _ _ _ (by omega), List.append_assoc, List.append_assoc]
  · obtain ⟨k, rfl⟩ : ∃ k, j = 8 * (Writer.u32 (UInt32.ofNat f.body.length)).length +
        (8 * (Writer.u32 (crc32c f.body)).length + k) := ⟨j - 64, by omega⟩
    refine .inr (.inr ⟨k, by omega, by omega, ?_⟩)
    rw [bytes, flipBit_append_right, flipBit_append_right, List.append_assoc, List.append_assoc]

/-- A complete frame whose checksum is another's. -/
theorem decodeAt_mismatch {l c cs : Bytes} (hl : l.length = 4) (hc : c.length = 4) (hlen : leNat l = cs.length)
    (hmax : cs.length ≤ maxFrameBody) (hne : crc32c cs ≠ UInt32.ofNat (leNat c)) (after : Bytes) (o : Nat) :
    ∃ expected found, decodeAt (l ++ (c ++ (cs ++ after))) o = .error (.checksumMismatch o expected found) := by
  obtain ⟨hdl, hdc, hdb⟩ := @declared _ _ (cs ++ after) hl hc
  rw [hlen] at hdl
  rw [hlen, List.take_left] at hdb
  have hcomplete : Complete (l ++ (c ++ (cs ++ after))) := by
    refine ⟨?_, by rw [hdl]; exact hmax, ?_⟩
    · simp only [List.length_append, hl, hc, frameHeaderLen]; omega
    · rw [hdl]; simp only [List.length_append, hl, hc, frameHeaderLen]; omega
  have hcrc : crc32c (declaredBody (l ++ (c ++ (cs ++ after)))) ≠ declaredCrc (l ++ (c ++ (cs ++ after))) := by
    rw [hdb, hdc]; exact hne
  exact ⟨_, _, (decodeAt_complete hcomplete o).trans (if_pos hcrc)⟩

/-- **A flip outside the length is seen by the checksum.** -/
theorem decodeAt_flip_covered {f : WalFrame} (h : f.Fits) {j : Nat} (hj : j < 8 * f.bytes.length) (h32 : 32 ≤ j)
    (after : Bytes) (o : Nat) : ∃ expected found,
      decodeAt (flipBit f.bytes j ++ after) o = .error (.checksumMismatch o expected found) := by
  have hl : (Writer.u32 (UInt32.ofNat f.body.length)).length = 4 := by simp
  have hc : (Writer.u32 (crc32c f.body)).length = 4 := by simp
  have hword : leNat (Writer.u32 (crc32c f.body)) = (crc32c f.body).toNat := by
    rw [Writer.u32, leNat_leBytes_of_lt (by have := (crc32c f.body).toNat_lt; omega)]
  rcases flip_cases f hj after with ⟨hlt, -⟩ | ⟨k, hk, -, hflip⟩ | ⟨k, hk, -, hflip⟩
  · omega
  · -- the stored checksum is another one
    have hck : (flipBit (Writer.u32 (crc32c f.body)) k).length = 4 := by rw [flipBit_length, hc]
    rw [hflip]
    refine decodeAt_mismatch hl hck (leNat_bodyLen h) h (fun heq => ?_) after o
    have hlt := leNat_lt (flipBit (Writer.u32 (crc32c f.body)) k)
    rw [hck] at hlt
    have hnat := congrArg UInt32.toNat heq
    rw [UInt32.toNat_ofNat', Nat.mod_eq_of_lt (by omega), leNat_flipBit _ _ (by rw [hc]; omega), hword] at hnat
    have h0 : 2 ^ k = 0 := Nat.xor_right_inj.mp ((hnat.symm).trans (Nat.xor_zero _).symm)
    exact absurd h0 (by positivity)
  · -- the body is another one, and so is its checksum
    rw [hflip]
    refine decodeAt_mismatch hl hc (by rw [leNat_bodyLen h, flipBit_length]) (by rw [flipBit_length]; exact h)
      (fun heq => ?_) after o
    obtain ⟨xs, b, b', ys, hbody, hflipped, hbne⟩ := flipBit_split f.body k hk
    rw [hword, UInt32.ofNat_toNat, hflipped, hbody] at heq
    exact hbne (crc32c_byte heq).symm

/-- **A flip in the length is seen by the body's grammar**, whatever the checksum says of the other span. -/
theorem decodeAt_flip_length {f : WalFrame} (h : f.Fits) {j : Nat} (h32 : j < 32) (after : Bytes) (o : Nat) :
    ∃ e, decodeAt (flipBit f.bytes j ++ after) o = .error e := by
  have hl : (Writer.u32 (UInt32.ofNat f.body.length)).length = 4 := by simp
  have hj : j < 8 * f.bytes.length := by rw [bytes_length, frameHeaderLen]; omega
  cases hd : decodeAt (flipBit f.bytes j ++ after) o with
  | error e => exact ⟨e, rfl⟩
  | ok r =>
    obtain ⟨g, n⟩ := r
    obtain ⟨hg, -, hbs⟩ := decodeAt_ok hd
    rcases flip_cases f hj after with ⟨-, hflip⟩ | ⟨k, -, hge, -⟩ | ⟨k, -, hge, -⟩
    · rw [hflip, bytes, List.append_assoc, List.append_assoc] at hbs
      obtain ⟨hwords, hrest⟩ := List.append_inj hbs (by rw [flipBit_length]; simp)
      obtain ⟨-, hbodies⟩ := List.append_inj hrest (by simp)
      obtain rfl := body_unique h hg hbodies
      exact absurd hwords (flipBit_ne (by rw [hl]; omega))
    · omega
    · omega

/-- **A frame with one bit flipped does not decode**, to itself or to anything else. -/
theorem decodeAt_flip {f : WalFrame} (h : f.Fits) {j : Nat} (hj : j < 8 * f.bytes.length) (after : Bytes) (o : Nat) :
    ∃ e, decodeAt (flipBit f.bytes j ++ after) o = .error e := by
  by_cases h32 : j < 32
  · exact decodeAt_flip_length h h32 after o
  · obtain ⟨_, _, he⟩ := decodeAt_flip_covered h hj (Nat.not_lt.mp h32) after o
    exact ⟨_, he⟩

end WalFrame

/-! ## The log -/

/-- The frames before number `i`, that frame, and those behind it. -/
theorem framesBytes_split {fs : List WalFrame} {i : Nat} {f : WalFrame} (h : fs[i]? = some f) :
    framesBytes fs = framesBytes (fs.take i) ++ (f.bytes ++ framesBytes (fs.drop (i + 1))) := by
  obtain ⟨hi, rfl⟩ := List.getElem?_eq_some_iff.mp h
  conv_lhs => rw [← List.take_append_drop i fs, List.drop_eq_getElem_cons hi]
  rw [framesBytes_append, framesBytes_cons]

/-- A bit of frame `i`, flipped. -/
theorem flipBit_framesBytes {fs : List WalFrame} {i : Nat} {f : WalFrame} (h : fs[i]? = some f) {j : Nat}
    (hj : j < 8 * f.bytes.length) : flipBit (framesBytes fs) (8 * (framesBytes (fs.take i)).length + j) =
      framesBytes (fs.take i) ++ (flipBit f.bytes j ++ framesBytes (fs.drop (i + 1))) := by
  rw [framesBytes_split h, flipBit_append_right, flipBit_append_left _ _ _ hj]

/-- Every bit of the log is a bit of one of its frames. -/
theorem bit_position (fs : List WalFrame) : ∀ k, k < 8 * (framesBytes fs).length →
    ∃ i f j, fs[i]? = some f ∧ j < 8 * f.bytes.length ∧ k = 8 * (framesBytes (fs.take i)).length + j := by
  induction fs with
  | nil => intro k hk; exact absurd hk (Nat.not_lt_zero _)
  | cons f fs ih =>
    intro k hk
    rw [framesBytes_cons, List.length_append] at hk
    by_cases hlt : k < 8 * f.bytes.length
    · exact ⟨0, f, k, rfl, hlt, by simp⟩
    · obtain ⟨i, g, j, hg, hj, hk'⟩ := ih (k - 8 * f.bytes.length) (by omega)
      refine ⟨i + 1, g, j, hg, hj, ?_⟩
      rw [List.take_succ_cons, framesBytes_cons, List.length_append]
      omega

/-- The scan of a log with a bit of frame `i` flipped: the frames before it, and what its bytes fail with. -/
theorem scan_flip_frame {fs : List WalFrame} (hfits : ∀ f ∈ fs, f.Fits) {i : Nat} {f : WalFrame} (h : fs[i]? = some f)
    {j : Nat} (hj : j < 8 * f.bytes.length) : ∃ e,
      WalFrame.decodeAt (flipBit f.bytes j ++ framesBytes (fs.drop (i + 1))) (framesBytes (fs.take i)).length =
          .error e ∧
      scan (flipBit (framesBytes fs) (8 * (framesBytes (fs.take i)).length + j)) =
        ⟨fs.take i, tailOf (framesBytes (fs.take i)).length (flipBit f.bytes j ++ framesBytes (fs.drop (i + 1))) e,
          (framesBytes (fs.take i)).length⟩ := by
  obtain ⟨e, he⟩ := WalFrame.decodeAt_flip (hfits f (List.mem_of_getElem? h)) hj (framesBytes (fs.drop (i + 1)))
    (framesBytes (fs.take i)).length
  refine ⟨e, he, ?_⟩
  rw [flipBit_framesBytes h hj]
  refine scan_rest (fun g hg => hfits g (List.mem_of_mem_take hg)) ?_ he
  intro hnil
  have hlen := congrArg List.length hnil
  rw [List.length_append, flipBit_length, List.length_nil] at hlen
  have := f.bytes_length_ge
  omega

/-- **A flipped bit never rewrites history.** The scan gives exactly the frames before the one the bit is in, and
    its tail is not clean. -/
theorem scan_flip {fs : List WalFrame} {log : Bytes} (h : Engine.WalWriter.encodeFrames fs = .ok log) {k : Nat}
    (hk : k < 8 * log.length) :
    ∃ i < fs.length, (framesBytes (fs.take i)).length ≤ k / 8 ∧ k / 8 < (framesBytes (fs.take (i + 1))).length ∧
      (scan (flipBit log k)).frames = fs.take i ∧
      (scan (flipBit log k)).validBytes = (framesBytes (fs.take i)).length ∧
      (scan (flipBit log k)).tail ≠ .clean := by
  obtain ⟨hfits, rfl⟩ := encodeFrames_ok h
  obtain ⟨i, f, j, hf, hj, rfl⟩ := bit_position fs k hk
  obtain ⟨e, -, hscan⟩ := scan_flip_frame hfits hf hj
  obtain ⟨hi, -⟩ := List.getElem?_eq_some_iff.mp hf
  rw [hscan]
  refine ⟨i, hi, by omega, ?_, rfl, rfl, ?_⟩
  · rw [framesBytes_take_succ hf]; omega
  · unfold tailOf
    split
    · exact nofun
    · exact nofun

/-- A bit of the second frame's nineteenth byte, which is one of its checksum's. -/
theorem scan_flip_two_frames : ∃ log, Engine.WalWriter.encodeFrames twoFrames = .ok log ∧
    (scan (flipBit log 253)).frames = [.standalone 1 (.delete [7])] ∧ (scan (flipBit log 253)).validBytes = 13 ∧
    (scan (flipBit log 253)).tail ≠ .clean := by
  obtain ⟨i, hi, hle, hlt, hframes, hvalid, htail⟩ := @scan_flip twoFrames _ rfl 253 (by decide +kernel)
  have hlens : (framesBytes (twoFrames.take 1)).length = 13 ∧ (framesBytes (twoFrames.take 0)).length = 0 := by
    decide +kernel
  have hi : i < 2 := hi
  obtain rfl : i = 1 := by
    by_contra hne
    obtain rfl : i = 0 := by omega
    rw [hlens.1] at hlt
    omega
  exact ⟨_, rfl, hframes, hvalid.trans hlens.1, htail⟩

end IshaVectorDb.Format
