import IshaVectorDb.Correctness.ReadOnly

/-!
# `Correctness.IndexSnapshots` — which **stored snapshots** an index is given

A load opens the stored block without comparing its payload with the checksum behind it. So it gives what a verified
read gives exactly where that checksum is right, where no payload is located, or where the file is over the size a
load refuses (`load_verified_iff`); a payload altered behind an intact header is handed to the index.
-/

namespace IshaVectorDb.Engine

open Format Parsing Interaction Index

variable {S : Type}

/-- What a load of a file with these bytes should come to: the payload of the whole block that the bytes are, and
    no payload if they are not one. A file over the size limit may be refused. -/
def LoadsVerified (bs : Bytes) (out : (Except DbError (Option Bytes) × S) × MemoryStorage) : Prop :=
  ∃ r, out.1.1 = .ok r ∧ (r = (decodeBlock bs .index).toOption ∨ StoredSnapshots.maxLen < bs.length ∧ r = none)

/-- Every payload that the header locates has its checksum behind it. -/
def ChecksumFits (bs : Bytes) : Prop := ∀ start len, locate bs .index = .ok (start, len) →
  crc32c ((bs.drop start).take len) = UInt32.ofNat (leNat ((bs.drop (start + len)).take trailerLen))

theorem storedPayload_file {s : MemoryStorage} {name : Str} {kind : IndexKind} {path : DbPath} {bs : Bytes}
    (hpath : Layout.indexFile name kind 0 = .ok path) (hfile : s.image .live path = some bs) :
    storedPayload s name kind = if bs.length = 0 ∨ StoredSnapshots.maxLen < bs.length then none
      else (openBlock bs .index).toOption := by
  unfold storedPayload
  rw [hpath]
  dsimp only
  rw [hfile]

theorem locate_nil (kind : FileKind) : ∃ e, locate [] kind = .error e := by
  unfold locate FileHeader.decode FileHeader.decodeAny
  exact ⟨_, rfl⟩

/-- Opening and decoding agree where the checksum fits, and only there. -/
theorem openBlock_eq_decodeBlock_iff {bs : Bytes} :
    (openBlock bs .index).toOption = (decodeBlock bs .index).toOption ↔ ChecksumFits bs := by
  unfold openBlock decodeBlock ChecksumFits
  cases hl : locate bs .index with
  | error e =>
    -- neither reads a payload
    exact ⟨fun _ start len h => (nomatch h), fun _ => rfl⟩
  | ok found =>
    obtain ⟨start, len⟩ := found
    show some _ = (do checkPayload bs start len; return _ : Except FormatError Bytes).toOption ↔ _
    unfold checkPayload
    by_cases hcrc : crc32c ((bs.drop start).take len)
        = UInt32.ofNat (leNat ((bs.drop (start + len)).take trailerLen))
    · rw [if_neg (not_not.mpr hcrc)]
      refine ⟨fun _ start' len' h => ?_, fun _ => rfl⟩
      obtain ⟨rfl, rfl⟩ := Prod.mk.inj (Except.ok.inj h)
      exact hcrc
    · rw [if_pos hcrc]
      exact ⟨fun h => (nomatch h), fun h => absurd (h start len rfl) hcrc⟩

theorem decodeBlock_toOption_nil (kind : FileKind) : (decodeBlock [] kind).toOption = none := by
  obtain ⟨e, he⟩ := locate_nil kind
  unfold decodeBlock
  rw [he]
  rfl

theorem checksumFits_nil : ChecksumFits [] := by
  obtain ⟨e, he⟩ := locate_nil .index
  intro start len h
  rw [he] at h
  cases h

/-- **A load gives the verified payload** exactly where the stored checksum fits, or the file is over the limit. -/
theorem load_verified_iff {s : MemoryStorage} {name : Str} {kind : IndexKind} {path : DbPath} {bs : Bytes}
    (hpath : Layout.indexFile name kind 0 = .ok path) (hfile : s.image .live path = some bs) (x : S) :
    LoadsVerified bs ((StoredSnapshots.load name kind x).run device s) ↔
      (bs.length ≤ StoredSnapshots.maxLen → ChecksumFits bs) := by
  rw [snapshotLoad_run, storedPayload_file hpath hfile]
  by_cases hlong : StoredSnapshots.maxLen < bs.length
  · rw [if_pos (Or.inr hlong)]
    exact ⟨fun _ h => absurd h (by omega), fun _ => ⟨none, rfl, Or.inr ⟨hlong, rfl⟩⟩⟩
  by_cases hempty : bs.length = 0
  · rw [if_pos (Or.inl hempty)]
    obtain rfl := List.length_eq_zero_iff.mp hempty
    exact ⟨fun _ _ => checksumFits_nil, fun _ => ⟨none, rfl, Or.inl (decodeBlock_toOption_nil .index).symm⟩⟩
  rw [if_neg (by rintro (h | h) <;> contradiction)]
  constructor
  · rintro ⟨r, hr, hsame | ⟨hover, -⟩⟩ -
    · obtain rfl := Except.ok.inj hr
      exact openBlock_eq_decodeBlock_iff.mp hsame
    · exact absurd hover hlong
  · intro h
    exact ⟨_, rfl, Or.inl (openBlock_eq_decodeBlock_iff.mpr (h (by omega)))⟩

/-! ## A payload altered behind its header -/

/-- The block of the payload `[1]`, with the payload byte changed to 2. -/
def alteredSnapshot : Bytes := (encodeBlock .index [1]).set 32 2

/-- A storage whose one file is the collection's stored graph. -/
def withSnapshot (bs : Bytes) : MemoryStorage :=
  MemoryStorage.new.put (.indexFile someName .hnsw 0) (.file ⟨bs, bs⟩)

theorem load_verified_written : LoadsVerified (encodeBlock .index [1])
    ((StoredSnapshots.load someName .hnsw ()).run device (withSnapshot (encodeBlock .index [1]))) := by
  refine (load_verified_iff rfl (by rfl) ()).mpr (fun _ => ?_)
  exact openBlock_eq_decodeBlock_iff.mp (by decide +kernel)

theorem altered_opens : openBlock alteredSnapshot .index = .ok [2] ∧
    (decodeBlock alteredSnapshot .index).toOption = none := by decide +kernel

/-- A snapshot whose payload was altered after it was written is handed to the index as it now is. -/
theorem altered_snapshot_loads : ¬ (∀ (s : MemoryStorage) (bs : Bytes),
      s.image .live (.indexFile someName .hnsw 0) = some bs →
        LoadsVerified bs ((StoredSnapshots.load someName .hnsw ()).run device s)) ∧
    (StoredSnapshots.load someName .hnsw ()).run device (withSnapshot alteredSnapshot)
      = ((.ok (some [2]), ()), withSnapshot alteredSnapshot) := by
  obtain ⟨hopens, hdecodes⟩ := altered_opens
  have hloads : (StoredSnapshots.load someName .hnsw ()).run device (withSnapshot alteredSnapshot)
      = ((.ok (some [2]), ()), withSnapshot alteredSnapshot) := by
    have hpayload : storedPayload (withSnapshot alteredSnapshot) someName .hnsw = some [2] := by
      rw [storedPayload_file rfl (by rfl : _ = some alteredSnapshot)]
      rw [if_neg (by decide), hopens]
      rfl
    rw [snapshotLoad_run, hpayload]
  refine ⟨fun hall => ?_, hloads⟩
  obtain ⟨r, hr, hsame | ⟨hlong, -⟩⟩ := hall (withSnapshot alteredSnapshot) alteredSnapshot rfl
  · rw [hloads] at hr
    rw [← Except.ok.inj hr, hdecodes] at hsame
    cases hsame
  · exact absurd hlong (by decide)

end IshaVectorDb.Engine
