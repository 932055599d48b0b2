import IshaVectorDb.Format.Segment

/-!
# `Format.Bursts` — a damaged block **never goes unnoticed**

A block is four runs of bytes one behind the other: the fields the header's checksum covers, that checksum, four bytes
that must be zero, and the payload with its own checksum. What is read as a block has the first two sealed, the zeros,
and the last two sealed (`FileHeader.decode_ok`, `sealed_of_checkPayload`). A burst of at most 32 bits falls into one of
the runs or across a border of two, and each run alone keeps it out (`Sealed.eq_of_burst`), so that a block with such a
burst that still reads is the block itself (`eq_of_verifies`).
-/

namespace IshaVectorDb.Format

open Parsing

/-! ## What a reader has read -/

namespace Reader

theorem bytes_ok {n : Nat} {i j : Input} {bs : Bytes} (h : bytes n i = .ok (bs, j)) :
    bs.length = n ∧ i.rest = bs ++ j.rest := by
  unfold bytes at h
  split at h
  · rename_i hle
    cases h
    exact ⟨List.length_take_of_le hle, (List.take_append_drop n i.rest).symm⟩
  · cases h

/-- A number read from `n` bytes. -/
theorem word_ok {α : Type} {n : Nat} {f : Bytes → α} {i j : Input} {v : α}
    (h : (do return f (← bytes n) : Reader α) i = .ok (v, j)) :
    ∃ bs : Bytes, bs.length = n ∧ v = f bs ∧ i.rest = bs ++ j.rest := by
  obtain ⟨bs, k, hbs, hv⟩ := bind_eq_ok.mp h
  cases hv
  obtain ⟨hlen, hrest⟩ := bytes_ok hbs
  exact ⟨bs, hlen, rfl, hrest⟩

theorem reserved_ok {n : Nat} {i j : Input} (h : reserved n i = .ok ((), j)) : i.rest = Writer.reserved n ++ j.rest := by
  unfold reserved at h
  rw [position_bind_apply] at h
  obtain ⟨bs, k, hbs, h⟩ := bind_eq_ok.mp h
  obtain ⟨hlen, hrest⟩ := bytes_ok hbs
  split at h
  · cases h
  · rename_i hzero
    cases h
    have hall : bs = Writer.reserved n := by
      apply List.eq_replicate_iff.mpr
      refine ⟨hlen, fun b hb => ?_⟩
      rw [List.any_eq_true] at hzero
      by_contra hne
      exact hzero ⟨b, hb, by simpa using hne⟩
    rw [hrest, hall]

end Reader

/-! ## What a header has that decodes -/

namespace FileHeader

/-- The fields after the magic are twenty bytes, the last four of them the checksum. -/
theorem fields_ok {i j : Input} {version flagBits : UInt16} {len : UInt32} {payloadLen : UInt64} {storedCrc : UInt32}
    (h : fields i = .ok ((version, flagBits, len, payloadLen, storedCrc), j)) :
    ∃ front word : Bytes, front.length = 16 ∧ word.length = 4 ∧ storedCrc = UInt32.ofNat (leNat word) ∧
      i.rest = front ++ (word ++ j.rest) := by
  unfold fields at h
  obtain ⟨v, i1, hv, h⟩ := bind_eq_ok.mp h
  obtain ⟨fl, i2, hfl, h⟩ := bind_eq_ok.mp h
  obtain ⟨hl, i3, hhl, h⟩ := bind_eq_ok.mp h
  obtain ⟨pl, i4, hpl, h⟩ := bind_eq_ok.mp h
  obtain ⟨crc, i5, hcrc, h⟩ := bind_eq_ok.mp h
  cases h
  obtain ⟨b1, hlen1, -, hrest1⟩ := Reader.word_ok hv
  obtain ⟨b2, hlen2, -, hrest2⟩ := Reader.word_ok hfl
  obtain ⟨b3, hlen3, -, hrest3⟩ := Reader.word_ok hhl
  obtain ⟨b4, hlen4, -, hrest4⟩ := Reader.word_ok hpl
  obtain ⟨word, hlen5, hword, hrest5⟩ := Reader.word_ok hcrc
  refine ⟨b1 ++ (b2 ++ (b3 ++ b4)), word, ?_, hlen5, hword, ?_⟩
  · rw [List.length_append, List.length_append, List.length_append, hlen1, hlen2, hlen3, hlen4]
  · rw [hrest1, hrest2, hrest3, hrest4, hrest5]
    simp only [List.append_assoc]

/-- A check that passes has compared the checksums and read the zeros. -/
theorem check_ok {kind : FileKind} {covered : Bytes} {version flagBits : UInt16} {len : UInt32} {payloadLen : UInt64}
    {storedCrc : UInt32} {i j : Input} {header : FileHeader}
    (h : check kind covered (version, flagBits, len, payloadLen, storedCrc) i = .ok (header, j)) :
    crc32c covered = storedCrc ∧ i.rest = Writer.reserved 4 ++ j.rest := by
  simp only [check] at h
  by_cases hcrc : crc32c covered ≠ storedCrc
  · rw [if_pos hcrc] at h; cases h
  rw [if_neg hcrc] at h
  by_cases hversion : version < minReadableVersion ∨ formatVersion < version
  · rw [if_pos hversion] at h; cases h
  rw [if_neg hversion] at h
  by_cases hflags : 3 < flagBits
  · rw [if_pos hflags] at h; cases h
  rw [if_neg hflags] at h
  by_cases hlen : len < 32
  · rw [if_pos hlen] at h; cases h
  rw [if_neg hlen] at h
  obtain ⟨u, k, hzeros, h⟩ := bind_eq_ok.mp h
  cases h
  exact ⟨not_not.mp hcrc, Reader.reserved_ok hzeros⟩

/-- **A header that decodes** is twenty-four bytes with their checksum behind them, and zeros behind that. -/
theorem decode_ok {bs : Bytes} {kind : FileKind} {header : FileHeader} (h : decode bs kind = .ok header) :
    ∃ covered word rest, bs = covered ++ word ++ (Writer.reserved 4 ++ rest) ∧ covered.length = 24 ∧
      Sealed covered word := by
  unfold decode at h
  obtain ⟨found, hany, -⟩ := except_bind_eq_ok.mp h
  unfold decodeAny at hany
  split at hany
  · cases hany
  rename_i hshort
  split at hany
  · cases hany
  split at hany
  · cases hany
  rename_i found hfound
  cases hread : (fields >>= check found (bs.take crcCovers)) ⟨bs.drop 8, 8⟩ with
  | error e => rw [hread] at hany; cases hany
  | ok r =>
    obtain ⟨header', j⟩ := r
    obtain ⟨⟨version, flagBits, len, payloadLen, storedCrc⟩, i, hfields, hcheck⟩ := bind_eq_ok.mp hread
    obtain ⟨front, word, hfront, hword, hstored, hrest⟩ := fields_ok hfields
    obtain ⟨hcrc, hzeros⟩ := check_ok hcheck
    -- the magic and the fields before the checksum are what it covers
    have hbytes : bs = (bs.take 8 ++ front) ++ (word ++ i.rest) := by
      rw [List.append_assoc, ← hrest, List.take_append_drop]
    have hcovered : (bs.take 8 ++ front).length = 24 := by
      rw [List.length_append, List.length_take_of_le (Nat.not_lt.mp hshort), hfront]
    have htake : bs.take crcCovers = bs.take 8 ++ front := by
      conv_lhs => rw [hbytes]
      exact List.take_left' hcovered
    refine ⟨bs.take 8 ++ front, word, j.rest, ?_, hcovered, hword, ?_⟩
    · rw [← hzeros, List.append_assoc, ← hbytes]
    · rw [← htake, hcrc, hstored]

end FileHeader

/-! ## A block that reads -/

variable {kind : FileKind} {payload damaged : Bytes}

/-- A payload whose checksum agrees is sealed, if nothing follows the checksum. -/
theorem sealed_of_checkPayload {header tail : Bytes} {len : Nat} (htail : tail.length = len + 4)
    (h : checkPayload (header ++ tail) header.length len = .ok ()) : Sealed (tail.take len) (tail.drop len) := by
  have hword : (tail.drop len).length = trailerLen := by rw [List.length_drop, htail]; exact Nat.add_sub_cancel_left _ _
  refine ⟨hword, ?_⟩
  simp only [checkPayload] at h
  rw [← List.drop_drop, List.drop_left, List.take_of_length_le (le_of_eq hword)] at h
  by_contra hne
  rw [if_pos hne] at h
  cases h

theorem sealed_header (kind : FileKind) (len : UInt64) : ∃ word, (FileHeader.new kind len).encode =
    (FileHeader.new kind len).covered ++ word ++ Writer.reserved 4 ∧ Sealed (FileHeader.new kind len).covered word := by
  refine ⟨Writer.u32 (crc32c (FileHeader.new kind len).covered), ?_, Writer.u32_length _, ?_⟩
  · rw [FileHeader.encode, List.append_assoc]
  · exact (leNat_u32 _).symm

/-- **A block that verifies with a burst in it is the block.** -/
theorem eq_of_verifies (h : payload.length + 36 < 2 ^ 64) (hd : Differ 32 damaged (encodeBlock kind payload))
    (hok : verifyBlock damaged kind = .ok ()) : damaged = encodeBlock kind payload := by
  obtain ⟨⟨start, len⟩, hlocate, hcheck⟩ := except_bind_eq_ok.mp hok
  obtain ⟨header, hdecode, -⟩ := except_bind_eq_ok.mp hlocate
  obtain ⟨covered, word, rest, rfl, hcovered, hsealed⟩ := FileHeader.decode_ok hdecode
  obtain ⟨word0, henc, hsealed0⟩ := sealed_header kind (UInt64.ofNat payload.length)
  have hblock : encodeBlock kind payload = (FileHeader.new kind (UInt64.ofNat payload.length)).covered ++ word0 ++
      (Writer.reserved 4 ++ (payload ++ Writer.u32 (crc32c payload))) := by
    rw [encodeBlock, henc, List.append_assoc]
  rw [hblock] at hd
  -- the header's fields and their checksum are as they were
  have hfront : (covered ++ word).length = ((FileHeader.new kind (UInt64.ofNat payload.length)).covered ++ word0).length := by
    rw [List.length_append, List.length_append, hcovered, FileHeader.covered_length, hsealed.1, hsealed0.1]
  have hsame := hsealed.eq_of_burst hsealed0 (hd.of_append_left hfront)
  -- so the payload is located where it was
  have hrest := (hd.of_append_right hfront).of_append_right rfl
  have hlen : rest.length = payload.length + 4 := by
    rw [hrest.length, List.length_append, Writer.u32_length]
  have hdamaged : covered ++ word ++ (Writer.reserved 4 ++ rest) =
      (FileHeader.new kind (UInt64.ofNat payload.length)).encode ++ rest := by
    rw [hsame, henc, List.append_assoc _ (Writer.reserved 4)]
  rw [hdamaged] at hlocate hcheck ⊢
  rw [locate_new h (le_of_eq hlen.symm)] at hlocate
  cases hlocate
  -- and it is sealed, as it was
  rw [← FileHeader.encode_length (FileHeader.new kind (UInt64.ofNat payload.length))] at hcheck
  have hsealedRest := sealed_of_checkPayload hlen hcheck
  have hsealedPayload : Sealed payload (Writer.u32 (crc32c payload)) := ⟨Writer.u32_length _, (leNat_u32 _).symm⟩
  have hparts := hsealedRest.eq_of_burst hsealedPayload (by rwa [List.take_append_drop])
  rw [List.take_append_drop] at hparts
  rw [hparts]
  rfl

/-- A block that decodes verifies. -/
theorem verifies_of_decodes {bs : Bytes} (h : decodeBlock bs kind = .ok payload) : verifyBlock bs kind = .ok () := by
  obtain ⟨⟨start, len⟩, hlocate, h⟩ := except_bind_eq_ok.mp h
  obtain ⟨u, hcheck, -⟩ := except_bind_eq_ok.mp h
  unfold verifyBlock
  rw [hlocate]
  exact hcheck

/-- The bytes are what one of the two block writers makes for the kind. -/
def WrittenBlock (kind : FileKind) (block : Bytes) : Prop :=
  (∃ payload, block = encodeBlock kind payload) ∨ (kind = .vectors ∧ ∃ w : VectorBlockWriter, block = w.finish)

/-- **A damaged block never goes unnoticed.** A block of either writer that is altered within a window of at most 32
    bits, anywhere in it, is refused by both readers. The length is that of a byte vector. -/
theorem burst_refused {kind : FileKind} {block damaged : Bytes} {width : Nat} (hblock : WrittenBlock kind block)
    (hlen : block.length < 2 ^ 63) (hwidth : width ≤ 32) (hd : Differ width damaged block) (hne : damaged ≠ block) :
    (∃ e, decodeBlock damaged kind = .error e) ∧ ∃ e, verifyBlock damaged kind = .error e := by
  obtain ⟨payload, rfl⟩ : ∃ payload, block = encodeBlock kind payload := by
    rcases hblock with hpayload | ⟨rfl, w, rfl⟩
    · exact hpayload
    · exact ⟨_, rfl⟩
  rw [encodeBlock_length] at hlen
  have hverify : verifyBlock damaged kind ≠ .ok () := fun hok =>
    hne (eq_of_verifies (by omega) (hd.mono hwidth) hok)
  constructor
  · cases hdec : decodeBlock damaged kind with
    | error e => exact ⟨e, rfl⟩
    | ok found => exact absurd (verifies_of_decodes hdec) hverify
  · cases hver : verifyBlock damaged kind with
    | error e => exact ⟨e, rfl⟩
    | ok u => exact absurd hver hverify

/-- A vector file of one row. -/
def oneRow : VectorBlockWriter := ⟨1, 4, 1, [1, 2, 3, 4]⟩

/-- The same file with the end of the padding and the start of the row overwritten. -/
def oneRowDamaged : Bytes := oneRow.finish.take 62 ++ [5, 0, 7, 7] ++ oneRow.finish.drop 66

theorem burst_refused_oneRow : (∃ e, decodeBlock oneRowDamaged .vectors = .error e) ∧
    ∃ e, verifyBlock oneRowDamaged .vectors = .error e := by
  have hwhole : oneRow.finish.take 62 ++ [0, 0, 1, 2] ++ oneRow.finish.drop 66 = oneRow.finish := by decide +kernel
  have hd : Differ 32 oneRowDamaged oneRow.finish := by
    have h : Differ (8 * 4) oneRowDamaged (oneRow.finish.take 62 ++ [0, 0, 1, 2] ++ oneRow.finish.drop 66) :=
      Differ.splice _ _ (show [5, 0, 7, 7].length = [0, 0, 1, 2].length from rfl)
    rwa [hwhole] at h
  exact burst_refused (.inr ⟨rfl, oneRow, rfl⟩) (by decide +kernel) (le_refl 32) hd (by decide +kernel)

end IshaVectorDb.Format
