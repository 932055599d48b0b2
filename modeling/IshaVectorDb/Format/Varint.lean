import Mathlib.Data.List.Basic
import Mathlib.Tactic.Ring
import Mathlib.Tactic.Linarith

/-!
# `Format.Varint` — LEB128 variable-length integers

Lengths and ids inside records. The decoder is bounded by ten bytes and accepts only the shortest form of
each number; `decodeU64_encodeU64` is the round trip every composite format rests on.
-/

namespace IshaVectorDb.Format.Varint

/-- Longest encoding of a `u64`. -/
def maxLenU64 : Nat := 10

/-- Why a varint was refused. -/
inductive VarintError
  | truncated
  | overflow
  | nonCanonical
deriving DecidableEq, Repr

/-- The shift loop of `encoded_len`; ten rounds exhaust a `u64`. -/
def lenLoop : Nat → Nat → Nat
  | 0, _ => 0
  | fuel + 1, v => if v = 0 then 0 else 1 + lenLoop fuel (v / 128)

/-- Bytes the encoding of `value` takes. -/
def encodedLen (value : Nat) : Nat := 1 + lenLoop maxLenU64 (value / 128)

/-- The push loop of `encode_u64`: seven bits a byte, the high bit set on all but the last. -/
def encodeLoop : Nat → Nat → List UInt8
  | 0, _ => []
  | fuel + 1, v =>
      if v / 128 = 0 then [UInt8.ofNat (v % 128)]
      else UInt8.ofNat (v % 128 + 128) :: encodeLoop fuel (v / 128)

/-- Encode a `u64`. -/
def encodeU64 (value : UInt64) : List UInt8 := encodeLoop maxLenU64 value.toNat

/-- The byte loop of `decode_u64`, at byte `i` with `value` read so far. -/
def decodeLoop : List UInt8 → Nat → Nat → Nat → Except VarintError (Nat × Nat)
  | [], _, _, _ => .error .truncated
  | byte :: rest, i, value, shift =>
      let payload := byte.toNat % 128
      if maxLenU64 ≤ i then .error .overflow
      -- the tenth byte may only carry the single remaining bit
      else if shift = 63 ∧ 1 < payload then .error .overflow
      else if byte.toNat < 128 then
        if 0 < i ∧ payload = 0 then .error .nonCanonical
        else if encodedLen (value + payload * 2 ^ shift) ≠ i + 1 then .error .nonCanonical
        else .ok (value + payload * 2 ^ shift, i + 1)
      else decodeLoop rest (i + 1) (value + payload * 2 ^ shift) (shift + 7)

/-- Decode a `u64` from the front of a buffer, with the number of bytes it took. -/
def decodeU64 (buf : List UInt8) : Except VarintError (UInt64 × Nat) :=
  match decodeLoop buf 0 0 0 with
  | .ok (v, n) => .ok (UInt64.ofNat v, n)
  | .error e => .error e

/-! ## The length of an encoding -/

@[simp] theorem lenLoop_zero (fuel : Nat) : lenLoop fuel 0 = 0 := by cases fuel <;> simp [lenLoop]

theorem lenLoop_eq (k : Nat) :
    ∀ fuel v, k + 1 ≤ fuel → 128 ^ k ≤ v → v < 128 ^ (k + 1) → lenLoop fuel v = k + 1 := by
  induction k with
  | zero =>
    intro fuel v hk hge hlt
    obtain ⟨fuel, rfl⟩ : ∃ f, fuel = f + 1 := ⟨fuel - 1, by omega⟩
    have hdiv : v / 128 = 0 := by simp at hlt; omega
    rw [lenLoop, if_neg (by simp at hge; omega), hdiv, lenLoop_zero]
  | succ k ih =>
    intro fuel v hk hge hlt
    obtain ⟨fuel, rfl⟩ : ∃ f, fuel = f + 1 := ⟨fuel - 1, by omega⟩
    have hpos : 0 < 128 ^ k := Nat.pow_pos (by omega)
    rw [Nat.pow_succ] at hge
    rw [Nat.pow_succ] at hlt
    rw [lenLoop, if_neg (by omega), ih fuel (v / 128) (by omega) (by omega) (by omega), Nat.add_comm]

theorem encodedLen_digit {i acc v : Nat} (hi : i < 10) (hacc : acc < 128 ^ i) (hv : v < 128)
    (hnz : 0 < v ∨ i = 0) : encodedLen (acc + v * 128 ^ i) = i + 1 := by
  have hl : lenLoop maxLenU64 ((acc + v * 128 ^ i) / 128) = i := by
    cases i with
    | zero =>
      have hz : (acc + v * 128 ^ 0) / 128 = 0 := by simp at hacc ⊢; omega
      rw [hz, lenLoop_zero]
    | succ j =>
      have hv1 : 1 ≤ v := by omega
      have hlow : 128 ^ (j + 1) ≤ v * 128 ^ (j + 1) := Nat.le_mul_of_pos_left _ hv1
      have hhigh : v * 128 ^ (j + 1) ≤ 127 * 128 ^ (j + 1) := Nat.mul_le_mul_right _ (by omega)
      have hmax : maxLenU64 = 10 := rfl
      refine lenLoop_eq j _ _ (by omega) ?_ ?_
      · rw [Nat.pow_succ] at hlow ⊢; omega
      · rw [Nat.pow_succ] at hacc hlow hhigh ⊢; omega
  rw [encodedLen, hl, Nat.add_comm]

/-! ## Round trip -/

/-- Decoding from byte `i` on: what was read before is `acc`, what is still to come is `v`. -/
theorem decodeLoop_encodeLoop (rest : List UInt8) (fuel : Nat) :
    ∀ v i acc, v < 128 ^ (fuel + 1) → acc < 128 ^ i → fuel + 1 + i ≤ 10 → (0 < v ∨ i = 0) →
      acc + v * 128 ^ i < 2 ^ 64 →
      decodeLoop (encodeLoop (fuel + 1) v ++ rest) i acc (7 * i) =
        .ok (acc + v * 128 ^ i, i + (encodeLoop (fuel + 1) v).length) := by
  have hpow : ∀ i, (2 : Nat) ^ (7 * i) = 128 ^ i := fun i => by rw [Nat.pow_mul]
  have hmax : maxLenU64 = 10 := rfl
  -- the tenth byte of a `u64` carries at most one bit
  have htop : ∀ d i acc r, acc + (d + 128 * r) * 128 ^ i < 2 ^ 64 → ¬ (7 * i = 63 ∧ 1 < d) := by
    rintro d i acc r hlt ⟨h63, hd⟩
    obtain rfl : i = 9 := by omega
    have h2 : 2 * 128 ^ 9 ≤ (d + 128 * r) * 128 ^ 9 := Nat.mul_le_mul_right _ (by omega)
    omega
  induction fuel with
  | zero =>
    intro v i acc hv hacc hi hnz hlt
    have hv' : v < 128 := by simpa using hv
    have hdiv : v / 128 = 0 := by omega
    have hb : (UInt8.ofNat v).toNat = v := by rw [UInt8.toNat_ofNat']; omega
    have hpay : v % 128 = v := by omega
    rw [encodeLoop, if_pos hdiv]
    simp only [List.singleton_append, decodeLoop, hb, hpow, hpay, List.length_singleton]
    rw [if_neg (by omega), if_neg (htop v i acc 0 (by simpa using hlt)), if_pos hv', if_neg (by omega),
      if_neg (not_not.mpr (encodedLen_digit (by omega) hacc hv' hnz))]
  | succ fuel ih =>
    intro v i acc hv hacc hi hnz hlt
    by_cases hdiv : v / 128 = 0
    · have hv' : v < 128 := by omega
      have hb : (UInt8.ofNat v).toNat = v := by rw [UInt8.toNat_ofNat']; omega
      have hpay : v % 128 = v := by omega
      rw [encodeLoop, if_pos hdiv]
      simp only [List.singleton_append, decodeLoop, hb, hpow, hpay, List.length_singleton]
      rw [if_neg (by omega), if_neg (htop v i acc 0 (by simpa using hlt)), if_pos hv', if_neg (by omega),
        if_neg (not_not.mpr (encodedLen_digit (by omega) hacc hv' hnz))]
    · have hb : (UInt8.ofNat (v % 128 + 128)).toNat = v % 128 + 128 := by rw [UInt8.toNat_ofNat']; omega
      have hpay : (v % 128 + 128) % 128 = v % 128 := by omega
      have hsplit : v % 128 + 128 * (v / 128) = v := by omega
      have hsum : acc + v % 128 * 128 ^ i + v / 128 * 128 ^ (i + 1) = acc + v * 128 ^ i := by
        rw [Nat.pow_succ]
        conv_rhs => rw [← hsplit]
        ring
      rw [encodeLoop, if_neg hdiv]
      simp only [List.cons_append, decodeLoop, hb, hpow, hpay, List.length_cons]
      rw [if_neg (by omega), if_neg (htop (v % 128) i acc (v / 128) (by rw [hsplit]; exact hlt)),
        if_neg (by omega), show 7 * i + 7 = 7 * (i + 1) by ring,
        ih (v / 128) (i + 1) (acc + v % 128 * 128 ^ i) ?_ ?_ (by omega) (Or.inl (by omega)) (by rw [hsum]; exact hlt),
        hsum]
      · congr 2; omega
      · rw [Nat.pow_succ] at hv; omega
      · have : v % 128 * 128 ^ i ≤ 127 * 128 ^ i := Nat.mul_le_mul_right _ (by omega)
        rw [Nat.pow_succ]; omega

/-- **The round trip.** Whatever follows it, an encoded number decodes to itself and reports its length. -/
theorem decodeU64_encodeU64 (value : UInt64) (rest : List UInt8) :
    decodeU64 (encodeU64 value ++ rest) = .ok (value, (encodeU64 value).length) := by
  have hlt : value.toNat < 2 ^ 64 := value.toNat_lt
  have h := decodeLoop_encodeLoop rest 9 value.toNat 0 0 (by omega) (by simp) (by omega) (Or.inr rfl)
    (by simpa using hlt)
  have hz : (7 : Nat) * 0 = 0 := rfl
  have he : encodeU64 value = encodeLoop (9 + 1) value.toNat := rfl
  rw [hz] at h
  rw [decodeU64, he, h]
  simp [UInt64.ofNat_toNat]

theorem encodeLoop_length_pos (fuel v : Nat) : 0 < (encodeLoop (fuel + 1) v).length := by
  rw [encodeLoop]; split <;> simp

/-- No number is encoded in nothing. -/
theorem encodeU64_length_pos (value : UInt64) : 0 < (encodeU64 value).length :=
  encodeLoop_length_pos 9 value.toNat

theorem encodeLoop_length_le (fuel v : Nat) : (encodeLoop fuel v).length ≤ fuel := by
  induction fuel generalizing v with
  | zero => simp [encodeLoop]
  | succ fuel ih =>
    rw [encodeLoop]
    split
    · simp
    · have := ih (v / 128)
      rw [List.length_cons]; omega

/-- Ten bytes are enough for any `u64`. -/
theorem encodeU64_length_le (value : UInt64) : (encodeU64 value).length ≤ 10 := encodeLoop_length_le 10 _

end IshaVectorDb.Format.Varint
