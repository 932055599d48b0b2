import IshaVectorDb.Correctness.BitFlips
import IshaVectorDb.Correctness.Sessions

/-!
# `Correctness.Damage` — damage inside the log, **reported or repaired away**

A log of whole frames in which one bit is flipped, in a frame that others follow, is damaged, and a replay should say
so. Whether it does hangs on the one field the checksum does not cover: a length that now points past the end of
the log reads as an interrupted write, and so does one that cuts the body short in a place where the checksum
matches by chance (`LengthMisleads`, `damageReported_iff`).
-/

namespace IshaVectorDb.Format

open Parsing

namespace WalFrame

/-- **The flip of bit `j` makes the length mislead**, with `after` bytes of log behind the frame: the length it then
    declares ends past the log, or within the body, before a field that is due and under a checksum that matches. -/
def LengthMisleads (f : WalFrame) (after j : Nat) : Prop :=
  j < 32 ∧ (f.body.length ^^^ 2 ^ j ≤ maxFrameBody ∧ f.body.length + after < f.body.length ^^^ 2 ^ j ∨
    f.body.length ^^^ 2 ^ j < f.body.length ∧
      crc32c (f.body.take (f.body.length ^^^ 2 ^ j)) = crc32c f.body ∧ BodyEnds (f.body.take (f.body.length ^^^ 2 ^ j)))

/-- What the header of a frame declares when bit `j` of its length is flipped. -/
theorem declared_flip {f : WalFrame} (h : f.Fits) {j : Nat} (h32 : j < 32) (after : Bytes) :
    declaredLen (flipBit f.bytes j ++ after) = f.body.length ^^^ 2 ^ j ∧
      declaredCrc (flipBit f.bytes j ++ after) = crc32c f.body ∧
      declaredBody (flipBit f.bytes j ++ after) = (f.body ++ after).take (f.body.length ^^^ 2 ^ j) := by
  have hl : (Writer.u32 (UInt32.ofNat f.body.length)).length = 4 := by simp
  have hc : (Writer.u32 (crc32c f.body)).length = 4 := by simp
  have hj : j < 8 * f.bytes.length := by rw [bytes_length, frameHeaderLen]; omega
  have hlen : leNat (flipBit (Writer.u32 (UInt32.ofNat f.body.length)) j) = f.body.length ^^^ 2 ^ j := by
    rw [leNat_flipBit _ _ (by omega), leNat_bodyLen h]
  rcases flip_cases f hj after with ⟨-, hflip⟩ | ⟨k, -, hge, -⟩ | ⟨k, -, hge, -⟩
  · obtain ⟨hdl, hdc, hdb⟩ := @declared _ _ (f.body ++ after)
      ((flipBit_length (Writer.u32 (UInt32.ofNat f.body.length)) j).trans hl) hc
    rw [hflip, hdl, hdc, hdb, hlen]
    exact ⟨rfl, leNat_u32 _, rfl⟩
  · omega
  · omega

/-- **A flipped frame reads as an interrupted write** exactly when the flip makes its length mislead. -/
theorem flip_truncation_iff {f : WalFrame} (h : f.Fits) {j : Nat} (hj : j < 8 * f.bytes.length) (after : Bytes) {o : Nat}
    {e : FormatError} (he : decodeAt (flipBit f.bytes j ++ after) o = .error e) :
    e.isTruncation = true ↔ f.LengthMisleads after.length j := by
  by_cases h32 : j < 32
  · have hmax : f.body.length ≤ maxFrameBody := h
    obtain ⟨hdl, hdc, hdb⟩ := declared_flip h h32 after
    have hlen : (flipBit f.bytes j ++ after).length = frameHeaderLen + f.body.length + after.length := by
      rw [List.length_append, flipBit_length, bytes_length]
    have hne : f.body.length ^^^ 2 ^ j ≠ f.body.length := by
      intro heq
      have h0 : 2 ^ j = 0 := Nat.xor_right_inj.mp (heq.trans (Nat.xor_zero _).symm)
      exact absurd h0 (by positivity)
    have hinc : Incomplete (flipBit f.bytes j ++ after) ↔
        f.body.length ^^^ 2 ^ j ≤ maxFrameBody ∧ f.body.length + after.length < f.body.length ^^^ 2 ^ j := by
      unfold Incomplete
      rw [hdl, hlen]
      omega
    have hcut : CutShort (flipBit f.bytes j ++ after) ↔ f.body.length ^^^ 2 ^ j < f.body.length ∧
        crc32c (f.body.take (f.body.length ^^^ 2 ^ j)) = crc32c f.body ∧
        BodyEnds (f.body.take (f.body.length ^^^ 2 ^ j)) := by
      unfold CutShort Complete
      rw [hdl, hdc, hdb, hlen]
      by_cases hshort : f.body.length ^^^ 2 ^ j < f.body.length
      · rw [List.take_append_of_le_length (Nat.le_of_lt hshort)]
        exact ⟨fun hc => ⟨hshort, hc.2⟩, fun hc => ⟨by omega, hc.2⟩⟩
      · refine ⟨fun hc => absurd hc.2.2 ?_, fun hc => absurd hc.1 hshort⟩
        -- a longer body is the old one and more, which nothing ends too early
        obtain ⟨n, hn⟩ : ∃ n, f.body.length ^^^ 2 ^ j = f.body.length + (n + 1) :=
          ⟨(f.body.length ^^^ 2 ^ j) - f.body.length - 1, by omega⟩
        have hrest : after ≠ [] := by
          rintro rfl
          have hle := hc.1.2.2
          simp only [List.length_nil] at hle
          omega
        obtain ⟨b, xs, rfl⟩ := List.exists_cons_of_ne_nil hrest
        rw [hn, List.take_length_add_append, List.take_succ_cons]
        exact not_bodyEnds_append h
    rw [truncation_iff he, hinc, hcut]
    exact ⟨fun h => ⟨h32, h⟩, fun h => h.2⟩
  · obtain ⟨_, _, he'⟩ := decodeAt_flip_covered h hj (Nat.not_lt.mp h32) after o
    cases he.symm.trans he'
    exact ⟨fun hT => absurd hT Bool.false_ne_true, fun hm => absurd hm.1 h32⟩

end WalFrame

end IshaVectorDb.Format

namespace IshaVectorDb.Engine

open Format Interaction Parsing

variable {S : Type} {x : S} {s : MemoryStorage}

/-- **The damage in a log is reported.** A replay of the bytes `bs` fails with the corruption found, whatever it is
    replayed into, and opening a collection that has `bs` as its log leaves the log as it is. -/
structure DamageReported (bs : Bytes) : Prop where
  replay : ∃ offset reason, ∀ invNorm idKind path memtable,
    replayScan invNorm idKind path (scan bs) memtable =
      .error (.corruption (.malformedStructure path offset (.format reason)))
  kept : ∀ (env : Env) (catalog : Catalog) (entry : CollectionEntry) (s : MemoryStorage),
    logBytes s (.walFile catalog.name 1) = bs →
      logBytes ((CollInner.open env catalog entry ()).run device s).2 (.walFile catalog.name 1) = bs

/-- Clearing away what aborted flushes left keeps the log. -/
theorem cleanUp_keeps (env : Env) (catalog : Catalog) (entry : CollectionEntry) :
    ((cleanUp env catalog.name entry x).run device s).2.get (.walFile catalog.name 1) =
      s.get (.walFile catalog.name 1) := by
  apply @Prog.Calls.run _ _ _ _ _ _ device (fun t => t.get (.walFile catalog.name 1) = s.get (.walFile catalog.name 1))
    _ (cleanUp_calls env catalog.name entry x) _ s rfl
  intro c t hc ht
  rcases hc with hc | ⟨-, id, which, rfl⟩
  · rw [step_read hc]; exact ht
  · have hne : DbPath.walFile catalog.name 1 ≠ .segmentFile catalog.name id which := nofun
    exact (step_removeFile hne t).trans ht

/-- An open that finds the log corrupt does not touch it. -/
theorem open_corrupt {env : Env} {catalog : Catalog} {entry : CollectionEntry}
    (h : (scan (logBytes s (.walFile catalog.name 1))).tail.IsCorrupt) :
    logBytes ((CollInner.open env catalog entry x).run device s).2 (.walFile catalog.name 1) =
      logBytes s (.walFile catalog.name 1) := by
  apply logBytes_congr
  have hclean := @cleanUp_keeps S x s env catalog entry
  apply @Proc.keep_bind _ _ _ _ _ _ _ device
    (fun t => t.get (.walFile catalog.name 1) = s.get (.walFile catalog.name 1)) _ _ x s hclean
  intro _ x₁ s₁ hrun
  rw [hrun] at hclean
  -- from here on to the replay nothing is written, and the replay fails
  have hstill : Proc.Still device (do
      let segments ← Proc.mapList (SegmentData.open catalog) entry.segments
      let walPath ← Proc.lift (Layout.walFile catalog.name 1)
      let replayed ← replayInto env.invNorm walPath catalog.idKind (Memtable.new catalog.dimension .f32)
      repairTail env walPath replayed.1
      let wal ← WalWriter.open walPath (saturatingSucc replayed.1.lastSequence) env.config.durability
      return (⟨catalog, ⟨replayed.2, segments, wal, firstFreeId entry.segments, 1⟩⟩ : CollInner)) x₁ s₁ := by
    apply Proc.Still.bind
    · exact Proc.Still.of_calls (Proc.Calls.mapList entry.segments (fun seg _ => segmentOpen_calls catalog seg))
        (fun c hc => step_read hc s₁)
    intro segments x₂ _
    apply Proc.Still.bind (Proc.Still.lift _)
    intro walPath x₃ hlift
    obtain rfl : walPath = .walFile catalog.name 1 := by
      have hok : (Layout.walFile catalog.name 1) = .ok walPath := (Prod.mk.inj (Prod.mk.inj hlift).1).1
      unfold Layout.walFile Layout.under at hok
      cases hname : checkCollectionName catalog.name with
      | error e => rw [hname] at hok; cases hok
      | ok u => rw [hname] at hok; exact (Except.ok.inj hok).symm
    apply Proc.Still.bind
    · exact Proc.Still.of_calls (replayInto_calls _ _ _ _) (fun c hc => step_read hc s₁)
    rintro ⟨report, memtable⟩ x₄ hreplay
    obtain ⟨-, -, hcorrupt, -⟩ := replayInto_run hreplay
    rw [logBytes_congr hclean] at hcorrupt
    exact absurd h hcorrupt
  exact (congrArg (MemoryStorage.get · _) hstill).trans hclean

/-- A corrupt tail is reported. -/
theorem damageReported_of_corrupt {bs : Bytes} (h : (scan bs).tail.IsCorrupt) : DamageReported bs := by
  constructor
  · cases htail : (scan bs).tail with
    | clean => rw [htail] at h; exact h.elim
    | torn offset trailing => rw [htail] at h; exact h.elim
    | corrupt offset reason =>
      refine ⟨offset, reason, fun invNorm idKind path memtable => ?_⟩
      unfold replayScan
      rw [htail]
  · rintro env catalog entry s rfl
    exact open_corrupt h

/-- Nothing else is: a replay that gets past the tail does not know which file it replays. -/
theorem corrupt_of_damageReported {bs : Bytes} (h : DamageReported bs) : (scan bs).tail.IsCorrupt := by
  obtain ⟨offset, reason, hreplay⟩ := h.replay
  have hroot := hreplay (fun _ => ⟨0, by decide⟩) .u64 .root (Memtable.new 1 .f32)
  have hother := hreplay (fun _ => ⟨0, by decide⟩) .u64 .collectionsDir (Memtable.new 1 .f32)
  cases htail : (scan bs).tail with
  | corrupt offset' reason' => trivial
  | clean =>
    unfold replayScan at hroot hother
    rw [htail] at hroot hother
    cases hroot.symm.trans hother
  | torn offset' trailing =>
    unfold replayScan at hroot hother
    rw [htail] at hroot hother
    cases hroot.symm.trans hother

theorem damageReported_iff_corrupt {bs : Bytes} : DamageReported bs ↔ (scan bs).tail.IsCorrupt :=
  ⟨corrupt_of_damageReported, damageReported_of_corrupt⟩

/-- **When damage inside the log is reported**: a bit flipped in a frame that others follow is told as corruption, and
    the log left as it is, unless the flip makes the frame's length mislead. -/
theorem damageReported_iff {fs : List WalFrame} {log : Bytes} (h : WalWriter.encodeFrames fs = .ok log) {i : Nat}
    (hlast : i + 1 < fs.length) {j : Nat} (hj : j < 8 * (fs[i]).bytes.length) :
    DamageReported (flipBit log (8 * (framesBytes (fs.take i)).length + j)) ↔
      ¬ (fs[i]).LengthMisleads (framesBytes (fs.drop (i + 1))).length j := by
  obtain ⟨hfits, rfl⟩ := encodeFrames_ok h
  have hf : fs[i]? = some fs[i] := List.getElem?_eq_getElem (by omega)
  obtain ⟨e, he, hscan⟩ := scan_flip_frame hfits hf hj
  have htrunc := WalFrame.flip_truncation_iff (hfits _ (List.mem_of_getElem? hf)) hj _ he
  rw [damageReported_iff_corrupt, hscan, ← htrunc]
  unfold tailOf
  by_cases hT : e.isTruncation = true
  · rw [if_pos hT]
    exact ⟨fun hc => hc.elim, fun hc => absurd hT hc⟩
  · rw [if_neg hT]
    exact ⟨fun _ => hT, fun _ => trivial⟩

theorem damageReported_two_deletes : ∃ log,
    WalWriter.encodeFrames [.standalone 1 (.delete [7]), .standalone 2 (.delete [8])] = .ok log ∧
      DamageReported (flipBit log 64) := by
  refine ⟨_, rfl, ?_⟩
  have hiff := @damageReported_iff [.standalone 1 (.delete [7]), .standalone 2 (.delete [8])] _ rfl 0 (by decide) 64
    (by decide +kernel)
  refine hiff.mpr (fun hmisleads => ?_)
  exact absurd hmisleads.1 (by decide)

/-- A storage whose one file is the log `bs`. -/
def storageOf (bs : Bytes) : MemoryStorage := MemoryStorage.new.put (.walFile someName 1) (.file ⟨bs, bs⟩)

/-- Two acknowledged deletes, one bit flipped in the length of the first: nothing is reported, and the open empties
    the log. -/
theorem flipped_length_discards : ¬ (∀ (fs : List WalFrame) (log : Bytes), WalWriter.encodeFrames fs = .ok log →
      ∀ i, (hlast : i + 1 < fs.length) → ∀ j, j < 8 * (fs[i]).bytes.length →
        DamageReported (flipBit log (8 * (framesBytes (fs.take i)).length + j))) ∧
    ∃ log, WalWriter.encodeFrames [.standalone 1 (.delete [7]), .standalone 2 (.delete [8])] = .ok log ∧
      scan (flipBit log 16) = ⟨[], .torn 0 26, 0⟩ ∧
      logBytes ((CollInner.open someEnv someCatalog ⟨someName, [], none, 0, 0, 0⟩ ()).run device
        (storageOf (flipBit log 16))).2 (.walFile someName 1) = [] := by
  have hscan : scan (flipBit (framesBytes [.standalone 1 (.delete [7]), .standalone 2 (.delete [8])]) 16) =
      ⟨[], .torn 0 26, 0⟩ := by decide +kernel
  refine ⟨fun hall => ?_, _, rfl, hscan, by decide +kernel⟩
  have hreported := hall [.standalone 1 (.delete [7]), .standalone 2 (.delete [8])] _ rfl 0 (by decide) 16
    (by decide +kernel)
  have hcorrupt := corrupt_of_damageReported hreported
  exact hcorrupt

end IshaVectorDb.Engine
