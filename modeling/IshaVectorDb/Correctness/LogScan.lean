import IshaVectorDb.Format.Canonical
import IshaVectorDb.Correctness.Log

/-!
# `Correctness.LogScan` — the scan of **arbitrary bytes**, and of a log cut anywhere

Whatever bytes stand in the log, `scan` splits them into the encodings of whole frames and a rest that is not
one (`scan_split`). What the rest can be decides the tail: `decodeAt_incomplete`, `decodeAt_oversized` and
`decodeAt_complete` go through it, and only a complete frame whose body ends too early is put on the wrong
side.
-/

namespace IshaVectorDb.Format

open Parsing

namespace WalFrame

/-! ## What stands at the front of the bytes -/

/-- The body length that a header at the front declares. -/
def declaredLen (bs : Bytes) : Nat := leNat (bs.take 4)

/-- The checksum that a header at the front declares. -/
def declaredCrc (bs : Bytes) : UInt32 := UInt32.ofNat (leNat ((bs.drop 4).take 4))

/-- The bytes behind the header, as many as it declares. -/
def declaredBody (bs : Bytes) : Bytes := (bs.drop frameHeaderLen).take (declaredLen bs)

/-- Fewer bytes than a header, or fewer than the body it declares, within what a frame may declare. -/
def Incomplete (bs : Bytes) : Prop :=
  bs.length < frameHeaderLen ∨ declaredLen bs ≤ maxFrameBody ∧ bs.length < frameHeaderLen + declaredLen bs

/-- A header, and all of the body it declares. -/
def Complete (bs : Bytes) : Prop :=
  frameHeaderLen ≤ bs.length ∧ declaredLen bs ≤ maxFrameBody ∧ frameHeaderLen + declaredLen bs ≤ bs.length

/-- A complete frame that fails its checksum, or its structure: its body is the body of no frame. -/
def Damaged (bs : Bytes) : Prop :=
  Complete bs ∧ (crc32c (declaredBody bs) ≠ declaredCrc bs ∨ ∀ f : WalFrame, f.body ≠ declaredBody bs)

/-- A complete frame under a matching checksum whose body ends where another field is due. -/
def CutShort (bs : Bytes) : Prop :=
  Complete bs ∧ crc32c (declaredBody bs) = declaredCrc bs ∧ BodyEnds (declaredBody bs)

instance (bs : Bytes) : Decidable (Incomplete bs) := inferInstanceAs (Decidable (_ ∨ _ ∧ _))

instance (bs : Bytes) : Decidable (Complete bs) := inferInstanceAs (Decidable (_ ∧ _ ∧ _))

theorem declaredLen_lt (bs : Bytes) : declaredLen bs < 2 ^ 32 := by
  have h := leNat_lt (bs.take 4)
  have hle : 256 ^ (bs.take 4).length ≤ 256 ^ 4 := Nat.pow_le_pow_right (by omega) (List.length_take_le _ _)
  unfold declaredLen
  omega

theorem u32_apply {bs : Bytes} {o : Nat} (h : 4 ≤ bs.length) :
    Reader.u32 ⟨bs, o⟩ = .ok (UInt32.ofNat (leNat (bs.take 4)), ⟨bs.drop 4, o + 4⟩) := by
  have hb : Reader.bytes 4 ⟨bs, o⟩ = .ok (bs.take 4, ⟨bs.drop 4, o + 4⟩) := if_pos h
  exact bind_of_ok hb

/-- What the reader does behind the header. -/
theorem read_header {bs : Bytes} (h : frameHeaderLen ≤ bs.length) (o : Nat) : read ⟨bs, o⟩ =
    (if maxFrameBody < declaredLen bs then
      (fail (.lengthExceedsInput o (declaredLen bs) maxFrameBody) : Reader (WalFrame × Nat))
    else do
      let body ← Reader.bytes (declaredLen bs)
      if crc32c body ≠ declaredCrc bs then fail (.checksumMismatch o (declaredCrc bs) (crc32c body))
      else do
        let frame ← checked ((readBody ⟨body, o + frameHeaderLen⟩).map Prod.fst)
        return (frame, frameHeaderLen + declaredLen bs)) ⟨bs.drop frameHeaderLen, o + frameHeaderLen⟩ := by
  have h8 : 8 ≤ bs.length := h
  have hlen : (UInt32.ofNat (leNat (bs.take 4))).toNat = declaredLen bs := by
    rw [UInt32.toNat_ofNat']; exact Nat.mod_eq_of_lt (declaredLen_lt bs)
  have hdrop : (bs.drop 4).drop 4 = bs.drop frameHeaderLen := List.drop_drop
  unfold read
  rw [position_bind_apply, bind_of_ok (u32_apply (by omega)),
    bind_of_ok (u32_apply (by rw [List.length_drop]; omega)), hlen, hdrop]
  rfl

/-- Too few bytes are told as such, wherever they end. -/
theorem decodeAt_incomplete {bs : Bytes} (h : Incomplete bs) (o : Nat) :
    ∃ e, decodeAt bs o = .error e ∧ e.isTruncation = true := by
  unfold decodeAt
  by_cases h8 : frameHeaderLen ≤ bs.length
  · obtain ⟨hmax, hlt⟩ : declaredLen bs ≤ maxFrameBody ∧ bs.length < frameHeaderLen + declaredLen bs :=
      h.resolve_left (Nat.not_lt.mpr h8)
    have hshort : (⟨bs.drop frameHeaderLen, o + frameHeaderLen⟩ : Input).rest.length < declaredLen bs := by
      rw [List.length_drop]; omega
    rw [read_header h8, if_neg (Nat.not_lt.mpr hmax), bind_of_error (Reader.bytes_short hshort)]
    exact ⟨_, rfl, rfl⟩
  · have h8' : bs.length < 8 := Nat.not_le.mp h8
    unfold read
    rw [position_bind_apply]
    by_cases h4 : 4 ≤ bs.length
    · have hshort : (⟨bs.drop 4, o + 4⟩ : Input).rest.length < 4 := by rw [List.length_drop]; omega
      have he : Reader.u32 ⟨bs.drop 4, o + 4⟩ = .error _ := bind_of_error (Reader.bytes_short hshort)
      rw [bind_of_ok (u32_apply h4), bind_of_error he]
      exact ⟨_, rfl, rfl⟩
    · have hshort : (⟨bs, o⟩ : Input).rest.length < 4 := Nat.not_le.mp h4
      have he : Reader.u32 ⟨bs, o⟩ = .error _ := bind_of_error (Reader.bytes_short hshort)
      rw [bind_of_error he]
      exact ⟨_, rfl, rfl⟩

/-- A length no frame may declare is not a torn tail, whatever follows. -/
theorem decodeAt_oversized {bs : Bytes} (h8 : frameHeaderLen ≤ bs.length) (h : maxFrameBody < declaredLen bs)
    (o : Nat) : decodeAt bs o = .error (.lengthExceedsInput o (declaredLen bs) maxFrameBody) := by
  unfold decodeAt
  rw [read_header h8, if_pos h]
  rfl

/-- A complete frame is its checksum's word against its body, and then the body's own. -/
theorem decodeAt_complete {bs : Bytes} (h : Complete bs) (o : Nat) :
    decodeAt bs o = if crc32c (declaredBody bs) ≠ declaredCrc bs then
        .error (.checksumMismatch o (declaredCrc bs) (crc32c (declaredBody bs)))
      else (readBody ⟨declaredBody bs, o + frameHeaderLen⟩).map
        (fun r => (r.1, frameHeaderLen + declaredLen bs)) := by
  obtain ⟨h8, hmax, hlen⟩ := h
  have hbody : Reader.bytes (declaredLen bs) ⟨bs.drop frameHeaderLen, o + frameHeaderLen⟩ =
      .ok (declaredBody bs, ⟨(bs.drop frameHeaderLen).drop (declaredLen bs), o + frameHeaderLen + declaredLen bs⟩) :=
    if_pos (by rw [List.length_drop]; omega)
  unfold decodeAt
  rw [read_header h8, if_neg (Nat.not_lt.mpr hmax), bind_of_ok hbody]
  by_cases hcrc : crc32c (declaredBody bs) ≠ declaredCrc bs
  · rw [if_pos hcrc, if_pos hcrc]; rfl
  · rw [if_neg hcrc, if_neg hcrc]
    cases hb : readBody ⟨declaredBody bs, o + frameHeaderLen⟩ with
    | error e => rw [bind_of_error (e := e) (by rfl)]; rfl
    | ok r => rfl

/-- **A frame that decodes is the encoding of what it decodes to.** -/
theorem decodeAt_ok {bs : Bytes} {o n : Nat} {f : WalFrame} (h : decodeAt bs o = .ok (f, n)) :
    f.Fits ∧ n = f.bytes.length ∧ bs = f.bytes ++ bs.drop n := by
  by_cases hinc : Incomplete bs
  · obtain ⟨e, he, -⟩ := decodeAt_incomplete hinc o
    rw [he] at h; cases h
  have h8 : frameHeaderLen ≤ bs.length := Nat.not_lt.mp fun hlt => hinc (.inl hlt)
  by_cases hmax : maxFrameBody < declaredLen bs
  · rw [decodeAt_oversized h8 hmax] at h; cases h
  have hlen : frameHeaderLen + declaredLen bs ≤ bs.length :=
    Nat.not_lt.mp fun hlt => hinc (.inr ⟨Nat.not_lt.mp hmax, hlt⟩)
  rw [decodeAt_complete ⟨h8, Nat.not_lt.mp hmax, hlen⟩] at h
  by_cases hcrc : crc32c (declaredBody bs) ≠ declaredCrc bs
  · rw [if_pos hcrc] at h; cases h
  rw [if_neg hcrc] at h
  cases hb : readBody ⟨declaredBody bs, o + frameHeaderLen⟩ with
  | error e => rw [hb] at h; cases h
  | ok r =>
    obtain ⟨g, j⟩ := r
    rw [hb] at h
    cases h
    have hbody : declaredBody bs = g.body := body_ok hb
    have hblen : g.body.length = declaredLen bs := by
      rw [← hbody, declaredBody, List.length_take, List.length_drop]; omega
    have hfits : g.Fits := by rw [Fits, hblen]; exact Nat.not_lt.mp hmax
    have h8' : 8 ≤ bs.length := h8
    have hword : ∀ cs : Bytes, cs.length = 4 → Writer.u32 (UInt32.ofNat (leNat cs)) = cs := fun cs hcs => by
      have hlt := leNat_lt cs
      rw [hcs] at hlt
      have hn : (UInt32.ofNat (leNat cs)).toNat = leNat cs := by
        rw [UInt32.toNat_ofNat']; exact Nat.mod_eq_of_lt hlt
      have hle := leBytes_leNat cs
      rw [hcs] at hle
      rw [Writer.u32, hn, hle]
    have hfirst : Writer.u32 (UInt32.ofNat g.body.length) = bs.take 4 := by
      rw [hblen]; exact hword _ (by rw [List.length_take]; omega)
    have hsecond : Writer.u32 (crc32c g.body) = (bs.drop 4).take 4 := by
      rw [← hbody, not_not.mp hcrc]; exact hword _ (by rw [List.length_take, List.length_drop]; omega)
    have hrest : bs.drop 4 = (bs.drop 4).take 4 ++ bs.drop frameHeaderLen := by
      conv_lhs => rw [← List.take_append_drop 4 (bs.drop 4), List.drop_drop]
      rfl
    have htail : bs.drop frameHeaderLen = g.body ++ bs.drop (frameHeaderLen + declaredLen bs) := by
      conv_lhs => rw [← List.take_append_drop (declaredLen bs) (bs.drop frameHeaderLen), List.drop_drop]
      rw [← hbody]; rfl
    refine ⟨hfits, by rw [bytes_length, hblen], ?_⟩
    rw [bytes, hfirst, hsecond, List.append_assoc, List.append_assoc, ← htail, ← hrest, List.take_append_drop]

end WalFrame

/-! ## A log cut at any byte -/

/-- Whether byte `k` lies between two frames, or at either end of them. -/
def OnBoundary (fs : List WalFrame) (k : Nat) : Prop := ∃ i ≤ fs.length, (framesBytes (fs.take i)).length = k

theorem framesBytes_take_le (fs : List WalFrame) {i j : Nat} (h : i ≤ j) :
    (framesBytes (fs.take i)).length ≤ (framesBytes (fs.take j)).length := by
  have hsplit : fs.take j = fs.take i ++ (fs.take j).drop i := by
    conv_lhs => rw [← List.take_append_drop i (fs.take j), List.take_take, Nat.min_eq_left h]
  rw [hsplit, framesBytes_append, List.length_append]
  exact Nat.le_add_right _ _

theorem framesBytes_take_succ {fs : List WalFrame} {j : Nat} {f : WalFrame} (h : fs[j]? = some f) :
    (framesBytes (fs.take (j + 1))).length = (framesBytes (fs.take j)).length + f.bytes.length := by
  rw [List.take_add_one, h, Option.toList_some, framesBytes_append, List.length_append, framesBytes_cons,
    framesBytes_nil, List.append_nil]

/-- A log that was written is the bytes of its frames, each small enough. -/
theorem encodeFrames_ok {fs : List WalFrame} {log : Bytes} (h : Engine.WalWriter.encodeFrames fs = .ok log) :
    (∀ f ∈ fs, f.Fits) ∧ log = framesBytes fs := by
  by_cases hfits : ∀ f ∈ fs, f.Fits
  · rw [Engine.encodeFrames_of hfits] at h
    exact ⟨hfits, (Except.ok.inj h).symm⟩
  · have he := Engine.encodeFrames_error hfits
    rw [he] at h; cases h

/-- **The prefix law.** The scan of the bytes before byte `k` gives the frames that lie wholly before it: as
    many as fit, and no byte of another one counts as valid. The tail is clean on a boundary and torn inside a
    frame; the whole log scans to all of its frames. -/
theorem scan_take {fs : List WalFrame} {log : Bytes} (h : Engine.WalWriter.encodeFrames fs = .ok log) {k : Nat}
    (hk : k ≤ log.length) :
    (∃ j ≤ fs.length, (framesBytes (fs.take j)).length ≤ k ∧
      (∀ i ≤ fs.length, (framesBytes (fs.take i)).length ≤ k → i ≤ j) ∧
      (scan (log.take k)).frames = fs.take j ∧
      (scan (log.take k)).validBytes = (framesBytes (fs.take j)).length ∧
      (OnBoundary fs k ∧ (scan (log.take k)).tail = .clean ∨
        ¬ OnBoundary fs k ∧ (scan (log.take k)).tail =
          .torn (framesBytes (fs.take j)).length (k - (framesBytes (fs.take j)).length))) ∧
    scan log = ⟨fs, .clean, log.length⟩ := by
  obtain ⟨hfits, rfl⟩ := encodeFrames_ok h
  refine ⟨?_, scan_frames hfits⟩
  obtain ⟨j, hj, hle, hcase⟩ := take_framesBytes fs k hk
  have htaken : ∀ f ∈ fs.take j, f.Fits := fun f hf => hfits f (List.mem_of_mem_take hf)
  rcases hcase with ⟨heq, hc⟩ | ⟨f, n, hf, hn0, hn, hkn, hc⟩
  · -- on a boundary, and a further frame would take further bytes
    refine ⟨j, hj, hle, fun i hi hik => ?_, ?_⟩
    · by_contra hij
      have hlt : j < fs.length := by omega
      have hnext := framesBytes_take_succ (List.getElem?_eq_getElem hlt)
      have hle' := framesBytes_take_le fs (show j + 1 ≤ i by omega)
      have := WalFrame.bytes_length_ge fs[j]
      omega
    · rw [hc, scan_frames htaken]
      exact ⟨rfl, rfl, .inl ⟨⟨j, hj, heq⟩, rfl⟩⟩
  · -- inside frame `j`
    have hnext := framesBytes_take_succ hf
    have hlast : ∀ i ≤ fs.length, (framesBytes (fs.take i)).length ≤ k → i ≤ j := by
      intro i _ hik
      by_contra hij
      have hle' := framesBytes_take_le fs (show j + 1 ≤ i by omega)
      omega
    refine ⟨j, hj, hle, hlast, ?_⟩
    rw [hc, scan_torn htaken (hfits f (List.mem_of_getElem? hf)) hn0 hn]
    refine ⟨rfl, rfl, .inr ⟨?_, ?_⟩⟩
    · rintro ⟨i, hi, hik⟩
      have hij := hlast i hi (Nat.le_of_eq hik)
      have hle' := framesBytes_take_le fs hij
      omega
    · rw [hkn, Nat.add_sub_cancel_left]

/-- Two frames, of 13 bytes and 20. -/
def twoFrames : List WalFrame := [.standalone 1 (.delete [7]), .inTxn 2 1 (.put [7] [0, 0] [] (some [1]))]

/-- Seven bytes into the second frame. -/
theorem scan_take_two_frames : ∃ log, Engine.WalWriter.encodeFrames twoFrames = .ok log ∧ log.length = 33 ∧
    (scan (log.take 20)).frames = [.standalone 1 (.delete [7])] ∧ (scan (log.take 20)).tail = .torn 13 7 ∧
    scan log = ⟨twoFrames, .clean, log.length⟩ := by
  obtain ⟨⟨j, hj, hle, hlast, hframes, -, htail⟩, hwhole⟩ := @scan_take twoFrames _ rfl 20 (by decide +kernel)
  have hlens : (framesBytes (twoFrames.take 0)).length = 0 ∧ (framesBytes (twoFrames.take 1)).length = 13 ∧
      (framesBytes (twoFrames.take 2)).length = 33 := by decide +kernel
  have hj : j ≤ 2 := hj
  obtain rfl : j = 1 := by
    have h1 := hlast 1 (by decide) (by rw [hlens.2.1]; decide)
    have h2 : j ≠ 2 := by
      rintro rfl
      rw [hlens.2.2] at hle
      omega
    omega
  refine ⟨_, rfl, by decide +kernel, hframes, ?_, hwhole⟩
  rcases htail with ⟨⟨i, hi, hat⟩, -⟩ | ⟨-, htorn⟩
  · -- no frame ends at byte 20
    have hi : i ≤ 2 := hi
    obtain rfl | rfl | rfl : i = 0 ∨ i = 1 ∨ i = 2 := by omega
    · rw [hlens.1] at hat; cases hat
    · rw [hlens.2.1] at hat; cases hat
    · rw [hlens.2.2] at hat; cases hat
  · rw [htorn, hlens.2.1]

/-! ## Arbitrary bytes -/

/-- How the tail looks when the rest `rest` of the log, from byte `offset` on, does not decode. -/
def tailOf (offset : Nat) (rest : Bytes) (e : FormatError) : WalTail :=
  if e.isTruncation then .torn offset rest.length else .corrupt offset e

theorem scanLoop_split (fuel : Nat) : ∀ (bs : Bytes) (offset : Nat), bs.length < fuel →
    ∃ fs rest, (∀ f ∈ fs, f.Fits) ∧ bs = framesBytes fs ++ rest ∧
      (rest = [] ∧ scanLoop fuel bs offset = ⟨fs, .clean, offset + (framesBytes fs).length⟩ ∨
        ∃ e, rest ≠ [] ∧ WalFrame.decodeAt rest (offset + (framesBytes fs).length) = .error e ∧
          scanLoop fuel bs offset = ⟨fs, tailOf (offset + (framesBytes fs).length) rest e,
            offset + (framesBytes fs).length⟩) := by
  induction fuel with
  | zero => intro bs offset h; exact absurd h (Nat.not_lt_zero _)
  | succ fuel ih =>
    intro bs offset hfuel
    rw [scanLoop]
    by_cases hempty : bs.isEmpty
    · rw [if_pos hempty]
      exact ⟨[], bs, List.forall_mem_nil _, rfl, .inl ⟨List.isEmpty_iff.mp hempty, rfl⟩⟩
    have hne : bs ≠ [] := fun h => hempty (List.isEmpty_iff.mpr h)
    rw [if_neg hempty]
    cases hd : WalFrame.decodeAt bs offset with
    | error e =>
      refine ⟨[], bs, List.forall_mem_nil _, rfl, .inr ⟨e, hne, hd, ?_⟩⟩
      unfold tailOf
      by_cases hT : e.isTruncation
      · simp only [if_pos hT]; rfl
      · simp only [if_neg hT]; rfl
    | ok r =>
      obtain ⟨f, n⟩ := r
      obtain ⟨hf, hn, hbs⟩ := WalFrame.decodeAt_ok hd
      have hlen : bs.length = f.bytes.length + (bs.drop n).length := by
        conv_lhs => rw [hbs]
        rw [List.length_append]
      have := f.bytes_length_ge
      obtain ⟨fs, rest, hfits, hrest, hcase⟩ := ih (bs.drop n) (offset + n) (by omega)
      refine ⟨f :: fs, rest, List.forall_mem_cons.mpr ⟨hf, hfits⟩, ?_, ?_⟩
      · rw [framesBytes_cons, List.append_assoc, ← hrest]; exact hbs
      · have hoff : offset + n + (framesBytes fs).length = offset + (framesBytes (f :: fs)).length := by
          rw [framesBytes_cons, List.length_append, hn, Nat.add_assoc]
        rw [hoff] at hcase
        rcases hcase with ⟨h0, hs⟩ | ⟨e, h0, he, hs⟩
        · exact .inl ⟨h0, by simp only [hs]⟩
        · exact .inr ⟨e, h0, he, by simp only [hs]⟩

/-- **Any bytes are whole frames and a rest**, and the scan finds both. -/
theorem scan_split (bs : Bytes) : ∃ fs rest, (∀ f ∈ fs, f.Fits) ∧ bs = framesBytes fs ++ rest ∧
    (rest = [] ∧ scan bs = ⟨fs, .clean, (framesBytes fs).length⟩ ∨
      ∃ e, rest ≠ [] ∧ WalFrame.decodeAt rest (framesBytes fs).length = .error e ∧
        scan bs = ⟨fs, tailOf (framesBytes fs).length rest e, (framesBytes fs).length⟩) := by
  have h := scanLoop_split (bs.length + 1) bs 0 (by omega)
  simp only [Nat.zero_add] at h
  exact h

/-- The scan of whole frames and a rest that does not decode. -/
theorem scan_rest {fs : List WalFrame} (h : ∀ f ∈ fs, f.Fits) {rest : Bytes} (hne : rest ≠ []) {e : FormatError}
    (he : WalFrame.decodeAt rest (framesBytes fs).length = .error e) :
    scan (framesBytes fs ++ rest) = ⟨fs, tailOf (framesBytes fs).length rest e, (framesBytes fs).length⟩ := by
  have hl := length_le_framesBytes fs
  have hs := scanLoop_frames h rest ((framesBytes fs ++ rest).length + 1) 0 (by rw [List.length_append]; omega)
  obtain ⟨n, hn⟩ : ∃ n, (framesBytes fs ++ rest).length + 1 - fs.length = n + 1 :=
    ⟨(framesBytes fs ++ rest).length - fs.length, by rw [List.length_append]; omega⟩
  have hempty : ¬ rest.isEmpty := fun h => hne (List.isEmpty_iff.mp h)
  rw [scan, hs, hn, scanLoop, if_neg hempty, Nat.zero_add, he]
  unfold tailOf
  by_cases hT : e.isTruncation
  · simp [hT]
  · simp [hT]

namespace WalTail

def IsTorn : WalTail → Prop
  | torn _ _ => True
  | _ => False

def IsCorrupt : WalTail → Prop
  | corrupt _ _ => True
  | _ => False

instance : DecidablePred IsCorrupt
  | clean => isFalse id
  | torn _ _ => isFalse id
  | corrupt _ _ => isTrue trivial

end WalTail

/-- **The tail is told right**: torn when, and only when, what is left is the beginning of a frame, and corrupt
    whenever it is a complete frame that is damaged. -/
def TailTold (bs : Bytes) : Prop :=
  ((scan bs).tail.IsTorn ↔
    bs.drop (scan bs).validBytes ≠ [] ∧ WalFrame.Incomplete (bs.drop (scan bs).validBytes)) ∧
  (WalFrame.Damaged (bs.drop (scan bs).validBytes) → (scan bs).tail.IsCorrupt)

theorem not_incomplete {bs : Bytes} (h : WalFrame.Complete bs) : ¬ WalFrame.Incomplete bs := by
  rintro (hlt | ⟨-, hlt⟩)
  · exact absurd h.1 (Nat.not_le.mpr hlt)
  · exact absurd h.2.2 (Nat.not_le.mpr hlt)

/-- What the decoder says of a complete frame cut short: the words for a torn tail. -/
theorem decodeAt_cutShort {bs : Bytes} (h : WalFrame.CutShort bs) (o : Nat) :
    ∃ e, WalFrame.decodeAt bs o = .error e ∧ e.isTruncation = true := by
  obtain ⟨hcomplete, hcrc, hends⟩ := h
  obtain ⟨e, he, hT⟩ := WalFrame.runsOut_body.mpr (show WalFrame.BodyEnds
    (⟨WalFrame.declaredBody bs, o + frameHeaderLen⟩ : Input).rest from hends)
  refine ⟨e, ?_, hT⟩
  rw [WalFrame.decodeAt_complete hcomplete, if_neg (fun hne => hne hcrc), he]
  rfl

/-- **Which rests are taken for a torn tail**: those that end too early, and the complete frames cut short. -/
theorem truncation_iff {rest : Bytes} {o : Nat} {e : FormatError} (he : WalFrame.decodeAt rest o = .error e) :
    e.isTruncation = true ↔ WalFrame.Incomplete rest ∨ WalFrame.CutShort rest := by
  constructor
  · intro hT
    by_cases hinc : WalFrame.Incomplete rest
    · exact .inl hinc
    have h8 : frameHeaderLen ≤ rest.length := Nat.not_lt.mp fun hlt => hinc (.inl hlt)
    by_cases hmax : maxFrameBody < WalFrame.declaredLen rest
    · rw [WalFrame.decodeAt_oversized h8 hmax] at he
      cases he; cases hT
    have hcomplete : WalFrame.Complete rest := ⟨h8, Nat.not_lt.mp hmax,
      Nat.not_lt.mp fun hlt => hinc (.inr ⟨Nat.not_lt.mp hmax, hlt⟩)⟩
    rw [WalFrame.decodeAt_complete hcomplete] at he
    by_cases hcrc : crc32c (WalFrame.declaredBody rest) = WalFrame.declaredCrc rest
    · rw [if_neg (fun hne => hne hcrc)] at he
      cases hb : WalFrame.readBody ⟨WalFrame.declaredBody rest, o + frameHeaderLen⟩ with
      | error e' =>
        rw [hb] at he
        cases he
        exact .inr ⟨hcomplete, hcrc, WalFrame.runsOut_body.mp ⟨_, hb, hT⟩⟩
      | ok r => rw [hb] at he; cases he
    · rw [if_pos hcrc] at he
      cases he; cases hT
  · rintro (hinc | hcut)
    · obtain ⟨e', he', hT⟩ := WalFrame.decodeAt_incomplete hinc o
      cases he.symm.trans he'
      exact hT
    · obtain ⟨e', he', hT⟩ := decodeAt_cutShort hcut o
      cases he.symm.trans he'
      exact hT

/-- **When torn and corrupt tails are told apart**: unless behind some whole frames there stands a complete one,
    its checksum right, whose body ends where another field is due. -/
theorem tailTold_iff (bs : Bytes) : TailTold bs ↔
    ¬ ∃ fs rest, (∀ f ∈ fs, f.Fits) ∧ bs = framesBytes fs ++ rest ∧ WalFrame.CutShort rest := by
  constructor
  · rintro ⟨htorn, -⟩ ⟨fs, rest, hfits, rfl, hcut⟩
    obtain ⟨e, he, hT⟩ := decodeAt_cutShort hcut (framesBytes fs).length
    have hne : rest ≠ [] := by rintro rfl; exact absurd hcut.1.1 (by decide)
    rw [scan_rest hfits hne he] at htorn
    simp only [tailOf, if_pos hT, List.drop_left] at htorn
    exact not_incomplete hcut.1 (htorn.mp trivial).2
  · intro hno
    obtain ⟨fs, rest, hfits, rfl, ⟨rfl, hscan⟩ | ⟨e, hne, he, hscan⟩⟩ := scan_split bs
    · unfold TailTold
      rw [hscan, List.drop_left]
      exact ⟨⟨fun h => h.elim, fun h => absurd rfl h.1⟩, fun h => absurd h.1.1 (by decide)⟩
    · unfold TailTold
      rw [hscan, List.drop_left]
      have hcut : ¬ WalFrame.CutShort rest := fun hcut => hno ⟨fs, rest, hfits, rfl, hcut⟩
      have htrunc := truncation_iff he
      rw [or_iff_left hcut] at htrunc
      unfold tailOf
      by_cases hinc : WalFrame.Incomplete rest
      · rw [if_pos (htrunc.mpr hinc)]
        exact ⟨⟨fun _ => ⟨hne, hinc⟩, fun _ => trivial⟩, fun hd => absurd hinc (not_incomplete hd.1)⟩
      · -- enough bytes: every failure but running out of the body is corruption
        rw [if_neg (fun hT => hinc (htrunc.mp hT))]
        exact ⟨⟨fun h => h.elim, fun h => absurd h.2 hinc⟩, fun _ => trivial⟩

/-- Eight zero bytes are a complete frame, with an empty body and its right checksum, and read as a torn tail. -/
theorem zeros_not_told : ¬ TailTold (List.replicate 8 0) := by
  rintro ⟨-, hdamaged⟩
  have hscan : scan (List.replicate 8 0) = ⟨[], .torn 0 8, 0⟩ := by decide +kernel
  rw [hscan] at hdamaged
  refine hdamaged ⟨by decide +kernel, .inr fun f hf => ?_⟩
  have hlen := congrArg List.length hf
  have hpos := Writer.varint_length_pos f.sequence
  rw [WalFrame.body, List.length_append] at hlen
  have h0 : (WalFrame.declaredBody (List.drop (WalScan.validBytes ⟨[], .torn 0 8, 0⟩) (List.replicate 8 0))).length = 0 := by
    decide +kernel
  omega

end IshaVectorDb.Format
