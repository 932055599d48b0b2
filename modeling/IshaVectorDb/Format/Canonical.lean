import IshaVectorDb.Parsing.RunsOut
import IshaVectorDb.Format.Wal

/-!
# `Format.Canonical` — what the readers **accept** is what the writers wrote

The round trips say that a reader takes what the writer wrote. This file is the other half for the log: a
reader that succeeds has taken exactly the writer's bytes, so a frame that decodes is the encoding of what it
decodes to. It also says, field by field, on which bytes a reader *runs out* (`Varint.Unfinished` for a number,
`WalFrame.BodyEnds` for a frame's body).
-/

namespace IshaVectorDb.Format

open Parsing

namespace Varint

/-- A number the decoder reads on and on: every byte promises another one, up to the longest encoding. -/
def Unfinished (bs : List UInt8) : Prop :=
  (∀ b ∈ bs, 128 ≤ b.toNat) ∧ bs.length ≤ maxLenU64 ∧ ∀ b, bs[9]? = some b → b.toNat ≤ 129

theorem digits_lt {i acc b : Nat} (hi : i < 10) (hacc : acc < 128 ^ i) (hb : b < 128)
    (htop : ¬ (7 * i = 63 ∧ 1 < b)) : acc + b * 128 ^ i < 2 ^ 64 := by
  by_cases h9 : i = 9
  · subst h9
    have hb1 : b ≤ 1 := by omega
    have : b * 128 ^ 9 ≤ 1 * 128 ^ 9 := Nat.mul_le_mul_right _ hb1
    omega
  · have hle : 128 ^ (i + 1) ≤ 128 ^ 9 := Nat.pow_le_pow_right (by omega) (by omega)
    have : b * 128 ^ i ≤ 127 * 128 ^ i := Nat.mul_le_mul_right _ (by omega)
    rw [Nat.pow_succ] at hle
    omega

/-- Decoding from byte `i` on, with `acc` read before: what it takes is the encoding of the digits it adds. -/
theorem decodeLoop_ok (bs : List UInt8) :
    ∀ i acc v n, acc < 128 ^ i → decodeLoop bs i acc (7 * i) = .ok (v, n) →
      ∃ d m, v = acc + d * 128 ^ i ∧ n = i + m ∧ m ≤ bs.length ∧ bs.take m = encodeLoop (10 - i) d ∧
        (0 < d ∨ i = 0) ∧ v < 2 ^ 64 := by
  have hmax : maxLenU64 = 10 := rfl
  induction bs with
  | nil => intro i acc v n _ h; cases h
  | cons b rest ih =>
    intro i acc v n hacc h
    have hb := b.toNat_lt
    have hbyte : b = UInt8.ofNat b.toNat := by simp
    rw [decodeLoop, Nat.pow_mul] at h
    by_cases hi : maxLenU64 ≤ i
    · simp only [if_pos hi] at h; cases h
    by_cases htop : 7 * i = 63 ∧ 1 < b.toNat % 128
    · simp only [if_neg hi, if_pos htop] at h; cases h
    obtain ⟨k, hk⟩ : ∃ k, 10 - i = k + 1 := ⟨9 - i, by omega⟩
    simp only [if_neg hi, if_neg htop] at h
    by_cases hlast : b.toNat < 128
    · have hmod : b.toNat % 128 = b.toNat := by omega
      rw [if_pos hlast, hmod] at h
      by_cases hzero : 0 < i ∧ b.toNat = 0
      · rw [if_pos hzero] at h; cases h
      rw [if_neg hzero] at h
      by_cases hlen : encodedLen (acc + b.toNat * 128 ^ i) ≠ i + 1
      · rw [if_pos hlen] at h; cases h
      rw [if_neg hlen] at h
      cases h
      refine ⟨b.toNat, 1, rfl, rfl, by simp, ?_, by omega, ?_⟩
      · rw [hk, encodeLoop, if_pos (by omega), hmod, ← hbyte]; rfl
      · exact digits_lt (by omega) hacc hlast (by omega)
    · rw [if_neg hlast, show 7 * i + 7 = 7 * (i + 1) by ring] at h
      have hacc' : acc + b.toNat % 128 * 128 ^ i < 128 ^ (i + 1) := by
        have : b.toNat % 128 * 128 ^ i ≤ 127 * 128 ^ i := Nat.mul_le_mul_right _ (by omega)
        rw [Nat.pow_succ]; omega
      obtain ⟨d, m, hv, hn, hm, htake, hd, hlt⟩ := ih _ _ v n hacc' h
      have hd : 0 < d := by omega
      refine ⟨b.toNat % 128 + 128 * d, m + 1, ?_, by omega, by rw [List.length_cons]; omega, ?_, by omega, hlt⟩
      · rw [hv, Nat.pow_succ]; ring
      · have h1 : (b.toNat % 128 + 128 * d) % 128 + 128 = b.toNat := by omega
        have h2 : (b.toNat % 128 + 128 * d) / 128 = d := by omega
        rw [List.take_succ_cons, htake, hk, encodeLoop, if_neg (by omega), h1, h2, ← hbyte,
          show 10 - (i + 1) = k by omega]

/-- **Only the shortest form of a number is accepted.** -/
theorem decodeU64_ok {bs : List UInt8} {v : UInt64} {n : Nat} (h : decodeU64 bs = .ok (v, n)) :
    n ≤ bs.length ∧ bs.take n = encodeU64 v := by
  unfold decodeU64 at h
  split at h
  · rename_i w m hok
    cases h
    obtain ⟨d, m, hv, hn, hm, htake, -, hlt⟩ := decodeLoop_ok bs 0 0 w n (by simp) hok
    have hd : d = w := by rw [hv]; simp
    have hw : (UInt64.ofNat w).toNat = w := by rw [UInt64.toNat_ofNat']; exact Nat.mod_eq_of_lt hlt
    rw [show n = m by omega]
    refine ⟨hm, ?_⟩
    rw [htake, hd, encodeU64, hw]; rfl
  · cases h

theorem decodeLoop_truncated (bs : List UInt8) :
    ∀ i acc, i ≤ 10 → (decodeLoop bs i acc (7 * i) = .error .truncated ↔
      (∀ b ∈ bs, 128 ≤ b.toNat) ∧ i + bs.length ≤ 10 ∧ ∀ b, i ≤ 9 → bs[9 - i]? = some b → b.toNat ≤ 129) := by
  have hmax : maxLenU64 = 10 := rfl
  induction bs with
  | nil =>
    intro i acc hi
    exact ⟨fun _ => ⟨fun b hb => absurd hb List.not_mem_nil, by simpa using hi, fun b _ hb => by simp at hb⟩,
      fun _ => rfl⟩
  | cons b rest ih =>
    intro i acc hi
    have hb := b.toNat_lt
    rw [decodeLoop]
    by_cases hlen : maxLenU64 ≤ i
    · simp only [if_pos hlen]
      refine ⟨fun h => (by cases h), fun h => ?_⟩
      have := h.2.1
      rw [List.length_cons] at this; omega
    by_cases htop : 7 * i = 63 ∧ 1 < b.toNat % 128
    · simp only [if_neg hlen, if_pos htop]
      refine ⟨fun h => (by cases h), fun h => ?_⟩
      have h9 := h.2.2 b (by omega) (by rw [show 9 - i = 0 by omega]; rfl)
      have := h.1 b List.mem_cons_self
      omega
    simp only [if_neg hlen, if_neg htop]
    by_cases hlast : b.toNat < 128
    · rw [if_pos hlast]
      refine ⟨fun h => ?_, fun h => absurd (h.1 b List.mem_cons_self) (by omega)⟩
      split at h
      · cases h
      · split at h <;> cases h
    · rw [if_neg hlast, show 7 * i + 7 = 7 * (i + 1) by ring, ih _ _ (by omega), List.forall_mem_cons,
        List.length_cons]
      -- the tenth byte of the whole is the one the rest counts from here
      have hidx : (∀ c, i + 1 ≤ 9 → rest[9 - (i + 1)]? = some c → c.toNat ≤ 129) ↔
          ∀ c, i ≤ 9 → (b :: rest)[9 - i]? = some c → c.toNat ≤ 129 := by
        by_cases h9 : i = 9
        · subst h9
          refine ⟨fun _ c _ hc => ?_, fun _ c hle => by omega⟩
          rw [show 9 - 9 = 0 from rfl, List.getElem?_cons_zero] at hc
          cases hc; omega
        · have h1 : 9 - i = (9 - (i + 1)) + 1 := by omega
          rw [h1, List.getElem?_cons_succ]
          exact ⟨fun h c _ => h c (by omega), fun h c _ => h c (by omega)⟩
      rw [hidx]
      constructor
      · rintro ⟨h1, h2, h3⟩; exact ⟨⟨by omega, h1⟩, by omega, h3⟩
      · rintro ⟨⟨_, h1⟩, h2, h3⟩; exact ⟨h1, by omega, h3⟩

/-- **The decoder runs out exactly on the unfinished numbers.** -/
theorem decodeU64_truncated {bs : List UInt8} : decodeU64 bs = .error .truncated ↔ Unfinished bs := by
  have h := decodeLoop_truncated bs 0 0 (by omega)
  rw [show 7 * 0 = 0 from rfl, Nat.zero_add] at h
  have hd : decodeU64 bs = .error .truncated ↔ decodeLoop bs 0 0 0 = .error .truncated := by
    unfold decodeU64
    split
    · rename_i hok; rw [hok]; simp
    · rename_i he; rw [he]; simp
  rw [hd, h]
  exact ⟨fun ⟨h1, h2, h3⟩ => ⟨h1, h2, fun b hb => h3 b (by omega) hb⟩,
    fun ⟨h1, h2, h3⟩ => ⟨h1, h2, fun b _ hb => h3 b hb⟩⟩

end Varint

/-! ## The fields -/

namespace Reader

theorem varint_ok {i j : Input} {v : UInt64} (h : varint i = .ok (v, j)) : i.rest = Writer.varint v ++ j.rest := by
  unfold varint at h
  split at h
  · rename_i w n hd
    cases h
    obtain ⟨-, htake⟩ := Varint.decodeU64_ok hd
    rw [Writer.varint, ← htake, List.take_append_drop]
  all_goals cases h

theorem varint_iff {i j : Input} {v : UInt64} : varint i = .ok (v, j) ↔
    i.rest = Writer.varint v ++ j.rest ∧ j.offset = i.offset + (Writer.varint v).length := by
  have hread : ∀ rest : Bytes, i.rest = Writer.varint v ++ rest →
      varint i = .ok (v, ⟨rest, i.offset + (Writer.varint v).length⟩) := fun rest hr => by
    have h := reads_varint v rest i.offset
    rwa [← hr] at h
  constructor
  · intro h
    have hr := varint_ok h
    have hj := (h.symm.trans (hread j.rest hr))
    cases j
    cases hj
    exact ⟨hr, rfl⟩
  · rintro ⟨hr, ho⟩
    rw [hread _ hr, ← ho]

theorem runsOut_varint {i : Input} : RunsOut Cut varint i ↔ Varint.Unfinished i.rest := by
  rw [← Varint.decodeU64_truncated]
  unfold RunsOut varint
  cases hd : Varint.decodeU64 i.rest with
  | ok r => simp
  | error e => cases e <;> simp [Cut, FormatError.isTruncation]

theorem blob_ok {i j : Input} {bs : Bytes} (h : blob i = .ok (bs, j)) :
    bs.length < 2 ^ 64 ∧ i.rest = Writer.blob bs ++ j.rest := by
  obtain ⟨⟨len, k⟩, hv, hb⟩ := except_bind_eq_ok.mp (show (varint i >>= fun r => bytesClaimed r.1 i.offset r.2) = _ from h)
  have hrest := varint_ok hv
  simp only [bytesClaimed] at hb
  split at hb
  · cases hb
  rename_i hlen
  unfold bytes at hb
  rw [if_pos (by omega)] at hb
  cases hb
  have hl : (k.rest.take len.toNat).length = len.toNat := by rw [List.length_take]; omega
  refine ⟨by rw [hl]; exact len.toNat_lt, ?_⟩
  rw [Writer.blob, hl, UInt64.ofNat_toNat, List.append_assoc, List.take_append_drop, hrest]

theorem blob_iff {i j : Input} {bs : Bytes} : blob i = .ok (bs, j) ↔ bs.length < 2 ^ 64 ∧
    i.rest = Writer.blob bs ++ j.rest ∧ j.offset = i.offset + (Writer.blob bs).length := by
  have hread : ∀ rest : Bytes, bs.length < 2 ^ 64 → i.rest = Writer.blob bs ++ rest →
      blob i = .ok (bs, ⟨rest, i.offset + (Writer.blob bs).length⟩) := fun rest hl hr => by
    have h := reads_blob hl rest i.offset
    rwa [← hr] at h
  constructor
  · intro h
    obtain ⟨hl, hr⟩ := blob_ok h
    have hj := (h.symm.trans (hread j.rest hl hr))
    cases j
    cases hj
    exact ⟨hl, hr, rfl⟩
  · rintro ⟨hl, hr, ho⟩
    rw [hread _ hl hr, ← ho]

/-- A byte string runs out in its length only: too few bytes behind it are another failure. -/
theorem runsOut_blob {i : Input} : RunsOut Cut blob i ↔ Varint.Unfinished i.rest := by
  rw [← runsOut_varint]
  refine RunsOut.position_bind_iff.trans (RunsOut.bind_iff.trans ⟨fun h => h.elim id ?_, .inl⟩)
  rintro ⟨len, j, -, e, he, hT⟩
  unfold bytesClaimed at he
  split at he
  · cases he; cases hT
  · unfold bytes at he
    rw [if_pos (by omega)] at he; cases he

theorem u8_iff {i j : Input} {b : UInt8} : u8 i = .ok (b, j) ↔ i.rest = b :: j.rest ∧ j.offset = i.offset + 1 := by
  unfold u8
  obtain ⟨rest, o⟩ := i
  cases rest with
  | nil => simp
  | cons a rest =>
    obtain ⟨rest', o'⟩ := j
    simp only [Except.ok.injEq, Prod.mk.injEq, Input.mk.injEq, List.cons.injEq]
    constructor
    · rintro ⟨rfl, rfl, rfl⟩; exact ⟨⟨rfl, rfl⟩, rfl⟩
    · rintro ⟨⟨rfl, rfl⟩, rfl⟩; exact ⟨rfl, rfl, rfl⟩

theorem runsOut_u8 {i : Input} : RunsOut Cut u8 i ↔ i.rest = [] := by
  unfold RunsOut u8
  cases i.rest with
  | nil => simp [Cut, FormatError.isTruncation]
  | cons a rest => simp

theorem expectEnd_ok {field : String} {i j : Input} (h : expectEnd field i = .ok ((), j)) : i.rest = [] ∧ j = i := by
  unfold expectEnd at h
  split at h
  · cases h
    rename_i hr
    exact ⟨List.isEmpty_iff.mp hr, rfl⟩
  · cases h

theorem not_runsOut_expectEnd {field : String} {i : Input} : ¬ RunsOut Cut (expectEnd field) i := by
  rintro ⟨e, he, hT⟩
  unfold expectEnd at he
  split at he
  · cases he
  · cases he; cases hT

/-- A sequence that starts with a number. -/
theorem runsOut_varint_bind {α : Type} {f : UInt64 → Reader α} {i : Input} {P : UInt64 → Bytes → Prop}
    (hf : ∀ v rest o, RunsOut Cut (f v) ⟨rest, o⟩ ↔ P v rest) : RunsOut Cut (varint >>= f) i ↔
      Varint.Unfinished i.rest ∨ ∃ v rest, i.rest = Writer.varint v ++ rest ∧ P v rest := by
  rw [RunsOut.bind_iff, runsOut_varint]
  refine or_congr Iff.rfl ⟨?_, ?_⟩
  · rintro ⟨v, j, hv, hout⟩
    exact ⟨v, j.rest, (varint_iff.mp hv).1, (hf v _ j.offset).mp hout⟩
  · rintro ⟨v, rest, hr, hP⟩
    exact ⟨v, ⟨rest, _⟩, varint_iff.mpr ⟨hr, rfl⟩, (hf v rest _).mpr hP⟩

/-- A sequence that starts with a byte string. -/
theorem runsOut_blob_bind {α : Type} {f : Bytes → Reader α} {i : Input} {P : Bytes → Bytes → Prop}
    (hf : ∀ bs rest o, RunsOut Cut (f bs) ⟨rest, o⟩ ↔ P bs rest) : RunsOut Cut (blob >>= f) i ↔
      Varint.Unfinished i.rest ∨ ∃ bs rest, bs.length < 2 ^ 64 ∧ i.rest = Writer.blob bs ++ rest ∧ P bs rest := by
  rw [RunsOut.bind_iff, runsOut_blob]
  refine or_congr Iff.rfl ⟨?_, ?_⟩
  · rintro ⟨bs, j, hb, hout⟩
    obtain ⟨hl, hr, -⟩ := blob_iff.mp hb
    exact ⟨bs, j.rest, hl, hr, (hf bs _ j.offset).mp hout⟩
  · rintro ⟨bs, rest, hl, hr, hP⟩
    exact ⟨bs, ⟨rest, _⟩, blob_iff.mpr ⟨hl, hr, rfl⟩, (hf bs rest _).mpr hP⟩

/-- A sequence that starts with a byte. -/
theorem runsOut_u8_bind {α : Type} {f : UInt8 → Reader α} {i : Input} {P : UInt8 → Bytes → Prop}
    (hf : ∀ b rest o, RunsOut Cut (f b) ⟨rest, o⟩ ↔ P b rest) : RunsOut Cut (u8 >>= f) i ↔
      i.rest = [] ∨ ∃ b rest, i.rest = b :: rest ∧ P b rest := by
  rw [RunsOut.bind_iff, runsOut_u8]
  refine or_congr Iff.rfl ⟨?_, ?_⟩
  · rintro ⟨b, j, hb, hout⟩
    exact ⟨b, j.rest, (u8_iff.mp hb).1, (hf b _ j.offset).mp hout⟩
  · rintro ⟨b, rest, hr, hP⟩
    exact ⟨b, ⟨rest, _⟩, u8_iff.mpr ⟨hr, rfl⟩, (hf b rest _).mpr hP⟩

end Reader

/-! ## A frame's body -/

/-- The bytes end where the length of one of the next `n` byte strings is due, or behind these where the
    content flag is, or the length of the content. -/
def WalOp.BlobsEnd : Nat → Bytes → Prop
  | 0, bs => bs = [] ∨ ∃ flag rest, bs = flag :: rest ∧ flag = 1 ∧ Varint.Unfinished rest
  | n + 1, bs => Varint.Unfinished bs ∨
      ∃ blob rest, blob.length < 2 ^ 64 ∧ bs = Writer.blob blob ++ rest ∧ WalOp.BlobsEnd n rest

/-- The bytes end where the operation's code is due, or inside its payload where a number or the content flag
    is. -/
def WalOp.OpEnds (bs : Bytes) : Prop :=
  bs = [] ∨ ∃ code rest, bs = code :: rest ∧
    (code = 1 ∧ WalOp.BlobsEnd 3 rest ∨ (code = 2 ∨ code = 3) ∧ Varint.Unfinished rest)

namespace WalFrame

/-- **The body ends too early**: where a number or a one-byte field is due, be it all there from the frame's
    point of view. A body that ends inside a byte string is another matter: its length is a lie. -/
def BodyEnds (bs : Bytes) : Prop :=
  Varint.Unfinished bs ∨ ∃ sequence rest, bs = Writer.varint sequence ++ rest ∧
    (Varint.Unfinished rest ∨ ∃ txnId rest', rest = Writer.varint txnId ++ rest' ∧ WalOp.OpEnds rest')

theorem content_ok {i j : Input} {o : Option Bytes} (h : readContent i = .ok (o, j)) :
    i.rest = WalOp.contentBytes o ++ j.rest := by
  obtain ⟨⟨flag, k⟩, hf, h⟩ := except_bind_eq_ok.mp
    (show (Reader.u8 i >>= fun r => (if r.1 = 0 then pure none else if r.1 = 1 then
      (do return some (← Reader.blob)) else do
        let at_ ← position
        fail (.malformed at_ (.unknownDiscriminant "content flag" r.1)) : Reader (Option Bytes)) r.2) = _ from h)
  have hr := (Reader.u8_iff.mp hf).1
  by_cases h0 : flag = 0
  · simp only [if_pos h0] at h
    cases h
    rw [hr, h0]; rfl
  by_cases h1 : flag = 1
  · simp only [if_neg h0, if_pos h1] at h
    obtain ⟨⟨c, k'⟩, hc, h⟩ := except_bind_eq_ok.mp (show (Reader.blob k >>= fun r =>
      (pure (some r.1) : Reader (Option Bytes)) r.2) = _ from h)
    cases h
    rw [hr, h1, (Reader.blob_ok hc).2, WalOp.contentBytes, List.append_assoc]; rfl
  · simp only [if_neg h0, if_neg h1] at h; cases h

theorem op_ok {opAt : Nat} {code : UInt8} {i j : Input} {op : WalOp} (h : readOp opAt code i = .ok (op, j)) :
    code = op.code ∧ i.rest = op.payload ++ j.rest := by
  unfold readOp at h
  by_cases h1 : code = 1
  · rw [if_pos h1] at h
    obtain ⟨⟨id, i1⟩, hid, h⟩ := except_bind_eq_ok.mp h
    obtain ⟨⟨vector, i2⟩, hvector, h⟩ := except_bind_eq_ok.mp h
    obtain ⟨⟨metadata, i3⟩, hmetadata, h⟩ := except_bind_eq_ok.mp h
    obtain ⟨⟨content, i4⟩, hcontent, h⟩ := except_bind_eq_ok.mp h
    cases h
    refine ⟨h1, ?_⟩
    rw [(Reader.blob_ok hid).2, (Reader.blob_ok hvector).2, (Reader.blob_ok hmetadata).2, content_ok hcontent]
    simp only [WalOp.payload, List.append_assoc]
  by_cases h2 : code = 2
  · rw [if_neg h1, if_pos h2] at h
    obtain ⟨⟨id, i1⟩, hid, h⟩ := except_bind_eq_ok.mp h
    cases h
    exact ⟨h2, (Reader.blob_ok hid).2⟩
  by_cases h3 : code = 3
  · rw [if_neg h1, if_neg h2, if_pos h3] at h
    obtain ⟨⟨opCount, i1⟩, hcount, h⟩ := except_bind_eq_ok.mp h
    cases h
    exact ⟨h3, Reader.varint_ok hcount⟩
  · rw [if_neg h1, if_neg h2, if_neg h3] at h; cases h

/-- **Only the encoding of a frame is accepted as its body.** -/
theorem body_ok {i j : Input} {f : WalFrame} (h : readBody i = .ok (f, j)) : i.rest = f.body := by
  obtain ⟨⟨sequence, i1⟩, hsequence, h⟩ := except_bind_eq_ok.mp h
  obtain ⟨⟨txnId, i2⟩, htxn, h⟩ := except_bind_eq_ok.mp h
  obtain ⟨⟨code, i4⟩, hcode, h⟩ := except_bind_eq_ok.mp h
  obtain ⟨⟨op, i5⟩, hop, h⟩ := except_bind_eq_ok.mp h
  obtain ⟨⟨_, i6⟩, hend, h⟩ := except_bind_eq_ok.mp h
  cases h
  obtain ⟨hcode', hpayload⟩ := op_ok hop
  rw [Reader.varint_ok hsequence, Reader.varint_ok htxn, (Reader.u8_iff.mp hcode).1, hpayload,
    (Reader.expectEnd_ok hend).1, hcode', List.append_nil]
  rfl

theorem runsOut_content {i : Input} : RunsOut Reader.Cut readContent i ↔ WalOp.BlobsEnd 0 i.rest := by
  refine Reader.runsOut_u8_bind (fun flag rest o => ?_)
  by_cases h0 : flag = 0
  · rw [if_pos h0]
    exact ⟨fun h => absurd h RunsOut.not_pure, fun h => absurd (h.1.symm.trans h0) (by decide)⟩
  by_cases h1 : flag = 1
  · rw [if_neg h0, if_pos h1, RunsOut.bind_pure_iff, Reader.runsOut_blob]
    exact ⟨fun h => ⟨h1, h⟩, fun h => h.2⟩
  · rw [if_neg h0, if_neg h1]
    refine ⟨fun h => ?_, fun h => absurd h.1 h1⟩
    have hfail : RunsOut Reader.Cut
        (fail (.malformed o (.unknownDiscriminant "content flag" flag)) : Reader (Option Bytes)) ⟨rest, o⟩ := h
    cases RunsOut.fail_iff.mp hfail

theorem runsOut_op {opAt : Nat} {code : UInt8} {i : Input} : RunsOut Reader.Cut (readOp opAt code) i ↔
    code = 1 ∧ WalOp.BlobsEnd 3 i.rest ∨ (code = 2 ∨ code = 3) ∧ Varint.Unfinished i.rest := by
  unfold readOp
  by_cases h1 : code = 1
  · rw [if_pos h1]
    have hblobs : RunsOut Reader.Cut (do
        let id ← Reader.blob
        let vector ← Reader.blob
        let metadata ← Reader.blob
        let content ← readContent
        return WalOp.put id vector metadata content : Reader WalOp) i ↔ WalOp.BlobsEnd 3 i.rest := by
      refine Reader.runsOut_blob_bind (fun id rest o => ?_)
      refine Reader.runsOut_blob_bind (fun vector rest o => ?_)
      refine Reader.runsOut_blob_bind (fun metadata rest o => ?_)
      rw [RunsOut.bind_pure_iff, runsOut_content]
    rw [hblobs, h1]
    simp
  by_cases h2 : code = 2
  · rw [if_neg h1, if_pos h2, RunsOut.bind_pure_iff, Reader.runsOut_blob, h2]
    simp
  by_cases h3 : code = 3
  · rw [if_neg h1, if_neg h2, if_pos h3, RunsOut.bind_pure_iff, Reader.runsOut_varint, h3]
    simp
  · rw [if_neg h1, if_neg h2, if_neg h3, RunsOut.fail_iff]
    refine ⟨fun h => (by cases h), fun h => ?_⟩
    rcases h with ⟨h, -⟩ | ⟨h | h, -⟩
    · exact absurd h h1
    · exact absurd h h2
    · exact absurd h h3

/-- **A body is read to its end and found too short exactly when it ends too early.** -/
theorem runsOut_body {i : Input} : RunsOut Reader.Cut readBody i ↔ BodyEnds i.rest := by
  refine Reader.runsOut_varint_bind (fun sequence rest o => ?_)
  refine Reader.runsOut_varint_bind (fun txnId rest o => ?_)
  refine RunsOut.position_bind_iff.trans (Reader.runsOut_u8_bind (fun code rest o => ?_))
  rw [RunsOut.bind_iff, runsOut_op]
  refine ⟨fun h => h.elim id ?_, .inl⟩
  -- behind the operation only the end of the body is checked
  rintro ⟨op, j, -, hout⟩
  rw [RunsOut.bind_iff] at hout
  rcases hout with hout | ⟨_, _, -, hout⟩
  · exact absurd hout Reader.not_runsOut_expectEnd
  · exact absurd hout RunsOut.not_pure

end WalFrame

end IshaVectorDb.Format
