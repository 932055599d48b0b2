import IshaVectorDb.Format.ValueCanonical

/-!
# `Format.Zigzag` — signed varints, and varints are **exact**

A signed number is folded onto the unsigned ones by its sign (`zigzag`), so that small negatives stay small. The
shifts and exclusive ors of the source are arithmetic on the number's bits (`zigzag_toNat`, `unzigzag_toNat`), the
same arithmetic the tagged values are written with, and that arithmetic is undone both ways. With the decoder's
canonical form this makes every number, signed or not, have exactly one spelling.
-/

namespace IshaVectorDb.Format.Varint

/-- `zigzag`: the arithmetic shift fills the word with the sign. -/
def zigzag (value : Int64) : UInt64 := ((value <<< 1) ^^^ (value >>> 63)).toUInt64

/-- `unzigzag`. -/
def unzigzag (value : UInt64) : Int64 := (value >>> 1).toInt64 ^^^ -(value &&& 1).toInt64

/-- `encode_i64`. -/
def encodeI64 (value : Int64) : List UInt8 := encodeU64 (zigzag value)

/-- `decode_i64`. -/
def decodeI64 (buf : List UInt8) : Except VarintError (Int64 × Nat) :=
  match decodeU64 buf with
  | .ok (v, n) => .ok (unzigzag v, n)
  | .error e => .error e

/-! ## The words as numbers -/

theorem sshiftRight_sign (x : BitVec 64) : x.sshiftRight 63 = if x.msb then BitVec.allOnes 64 else 0#64 := by
  ext i hi
  rw [BitVec.getElem_sshiftRight]
  have hmsb : x.msb = x.getLsbD 63 := by rw [BitVec.msb_eq_getLsbD_last]
  rcases Nat.eq_zero_or_pos i with rfl | hpos
  -- the lowest bit is the sign itself, the others are shifted in
  · cases hx : x.msb with
    | true => simp [← BitVec.getLsbD_eq_getElem, ← hmsb, hx]
    | false => simp [← BitVec.getLsbD_eq_getElem, ← hmsb, hx]
  · rw [dif_neg (by omega)]
    cases hx : x.msb with
    | true => rw [if_pos rfl, BitVec.getElem_allOnes]
    | false => rw [if_neg (by simp), BitVec.getElem_zero]

theorem zigzag_toNat (x : Int64) : (zigzag x).toNat =
    if x.toUInt64.toNat < 2 ^ 63 then 2 * x.toUInt64.toNat else 2 ^ 65 - 1 - 2 * x.toUInt64.toNat := by
  have hbits : (zigzag x).toBitVec = (x.toBitVec <<< 1) ^^^ x.toBitVec.sshiftRight 63 := rfl
  have hword : x.toUInt64.toNat = x.toBitVec.toNat := rfl
  have hx := x.toBitVec.isLt
  rw [← UInt64.toNat_toBitVec, hbits, hword, sshiftRight_sign]
  cases hsign : x.toBitVec.msb with
  | true =>
    have hge := BitVec.msb_eq_true_iff_two_mul_ge.mp hsign
    rw [if_pos rfl, BitVec.xor_allOnes, BitVec.toNat_not, BitVec.toNat_shiftLeft, Nat.shiftLeft_eq,
      if_neg (by omega)]
    omega
  | false =>
    have hlt := BitVec.msb_eq_false_iff_two_mul_lt.mp hsign
    rw [if_neg (by simp), BitVec.xor_zero, BitVec.toNat_shiftLeft, Nat.shiftLeft_eq, if_pos (by omega)]
    omega

theorem unzigzag_toNat (n : UInt64) : (unzigzag n).toUInt64.toNat =
    if n.toNat % 2 = 0 then n.toNat / 2 else 2 ^ 64 - 1 - n.toNat / 2 := by
  have hbits : (unzigzag n).toUInt64.toBitVec = (n.toBitVec >>> 1) ^^^ -(n.toBitVec &&& 1#64) := rfl
  have hword : n.toNat = n.toBitVec.toNat := rfl
  have hn := n.toBitVec.isLt
  have hlow : n.toBitVec &&& 1#64 = BitVec.ofNat 64 (n.toBitVec.toNat % 2) := by
    apply BitVec.eq_of_toNat_eq
    rw [BitVec.toNat_and, BitVec.toNat_ofNat, BitVec.toNat_ofNat, Nat.mod_eq_of_lt (by omega : 1 < 2 ^ 64),
      Nat.and_one_is_mod]
    omega
  rw [← UInt64.toNat_toBitVec, hbits, hword, hlow]
  rcases Nat.mod_two_eq_zero_or_one n.toBitVec.toNat with h | h
  · rw [h, if_pos rfl]
    simp [Nat.shiftRight_eq_div_pow]
  -- minus one is all ones: the exclusive or is the complement
  · rw [h, if_neg (by omega), show -(BitVec.ofNat 64 1) = BitVec.allOnes 64 by decide, BitVec.xor_allOnes,
      BitVec.toNat_not, BitVec.toNat_ushiftRight, Nat.shiftRight_eq_div_pow]

/-- The tagged values' zigzag is this one, on the bits of the signed number. -/
theorem zigzag_eq (x : Int64) : zigzag x = Format.zigzag x.toUInt64 := by
  have hx := x.toUInt64.toNat_lt
  apply UInt64.toNat.inj
  unfold Format.zigzag
  rw [zigzag_toNat, UInt64.toNat_ofNat']
  split <;> omega

theorem unzigzag_eq (n : UInt64) : (unzigzag n).toUInt64 = Format.unzigzag n := by
  have hn := n.toNat_lt
  apply UInt64.toNat.inj
  unfold Format.unzigzag
  rw [unzigzag_toNat, UInt64.toNat_ofNat']
  split <;> omega

/-! ## One spelling a number -/

theorem unzigzag_leftInverse : Function.LeftInverse unzigzag zigzag := by
  intro x
  have hbits : (unzigzag (zigzag x)).toUInt64 = x.toUInt64 := by
    rw [unzigzag_eq, zigzag_eq, Format.unzigzag_zigzag]
  rw [← Int64.toInt64_toUInt64 (unzigzag (zigzag x)), hbits, Int64.toInt64_toUInt64]

theorem unzigzag_rightInverse : Function.RightInverse unzigzag zigzag := by
  intro n
  rw [zigzag_eq, unzigzag_eq, Format.zigzag_unzigzag]

theorem decodeU64_iff {buf : List UInt8} {v : UInt64} {n : Nat} :
    decodeU64 buf = .ok (v, n) ↔ n ≤ buf.length ∧ buf.take n = encodeU64 v := by
  constructor
  · exact decodeU64_ok
  · rintro ⟨hn, htake⟩
    have hlen : (encodeU64 v).length = n := by rw [← htake, List.length_take, Nat.min_eq_left hn]
    have hround := decodeU64_encodeU64 v (buf.drop n)
    rw [← htake, List.take_append_drop, htake, hlen] at hround
    exact hround

theorem decodeI64_iff {buf : List UInt8} {x : Int64} {n : Nat} :
    decodeI64 buf = .ok (x, n) ↔ decodeU64 buf = .ok (zigzag x, n) := by
  unfold decodeI64
  cases hd : decodeU64 buf with
  | error e => simp
  | ok got =>
    obtain ⟨v, m⟩ := got
    constructor
    · intro h
      cases h
      rw [unzigzag_rightInverse v]
    · intro h
      cases h
      show Except.ok (unzigzag (zigzag x), n) = Except.ok (x, n)
      rw [unzigzag_leftInverse x]

/-- **Varints are exact and canonical.** A buffer decodes to `v` in `n` bytes exactly when its first `n` bytes are
    the encoding of `v`; zigzag is a bijection between the signed and the unsigned 64-bit numbers; and a signed
    number decodes, whatever follows it, from its own encoding and from no other bytes. -/
theorem varints_exact :
    (∀ (buf : List UInt8) (v : UInt64) (n : Nat),
      decodeU64 buf = .ok (v, n) ↔ n ≤ buf.length ∧ buf.take n = encodeU64 v) ∧
    (Function.LeftInverse unzigzag zigzag ∧ Function.RightInverse unzigzag zigzag ∧ Function.Bijective zigzag) ∧
    (∀ (x : Int64) (rest : List UInt8),
      decodeI64 (encodeI64 x ++ rest) = .ok (x, (encodeI64 x).length)) ∧
    ∀ (buf : List UInt8) (x : Int64) (n : Nat),
      decodeI64 buf = .ok (x, n) ↔ n ≤ buf.length ∧ buf.take n = encodeI64 x := by
  refine ⟨fun buf v n => decodeU64_iff,
    ⟨unzigzag_leftInverse, unzigzag_rightInverse, unzigzag_leftInverse.injective, unzigzag_rightInverse.surjective⟩,
    ?_, ?_⟩
  · intro x rest
    rw [decodeI64_iff]
    exact decodeU64_encodeU64 (zigzag x) rest
  · intro buf x n
    rw [decodeI64_iff]
    exact decodeU64_iff

end IshaVectorDb.Format.Varint
