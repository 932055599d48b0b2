import IshaVectorDb.Parsing.Bits

/-!
# `Parsing.Flips` — one **flipped bit** in a string of bytes

`flipBit bs k` is `bs` with bit `k` inverted, the low bit of the first byte being bit 0. The flip is local
(`flipBit_append_left`, `flipBit_append_right`), always changes its byte (`flipBit_split`) and, on a
little-endian number, adds or takes away `2 ^ k` without a carry (`leNat_flipBit`).
-/

namespace Parsing

/-- The bytes with bit `k` inverted. -/
def flipBit : List UInt8 → Nat → List UInt8
  | [], _ => []
  | b :: bs, k => if k < 8 then (b ^^^ UInt8.ofNat (2 ^ k)) :: bs else b :: flipBit bs (k - 8)

@[simp] theorem flipBit_length (bs : List UInt8) : ∀ k, (flipBit bs k).length = bs.length := by
  induction bs with
  | nil => exact fun _ => rfl
  | cons b bs ih =>
    intro k
    rw [flipBit]
    split
    · rfl
    · rw [List.length_cons, ih, List.length_cons]

theorem flipBit_append_left (bs cs : List UInt8) :
    ∀ k, k < 8 * bs.length → flipBit (bs ++ cs) k = flipBit bs k ++ cs := by
  induction bs with
  | nil => intro k hk; exact absurd hk (Nat.not_lt_zero _)
  | cons b bs ih =>
    intro k hk
    rw [List.length_cons] at hk
    rw [List.cons_append, flipBit, flipBit]
    split
    · rfl
    · rw [ih (k - 8) (by omega), List.cons_append]

theorem flipBit_append_right (bs cs : List UInt8) (j : Nat) :
    flipBit (bs ++ cs) (8 * bs.length + j) = bs ++ flipBit cs j := by
  induction bs with
  | nil => rw [List.length_nil, Nat.mul_zero, Nat.zero_add, List.nil_append, List.nil_append]
  | cons b bs ih =>
    have hk : 8 * (bs.length + 1) + j - 8 = 8 * bs.length + j := by omega
    rw [List.length_cons, List.cons_append, flipBit, if_neg (by omega), hk, ih, List.cons_append]

/-- The mask of a bit is not nothing. -/
theorem xor_bit_ne (b : UInt8) {k : Nat} (hk : k < 8) : b ^^^ UInt8.ofNat (2 ^ k) ≠ b := by
  intro h
  have hnat := congrArg UInt8.toNat h
  have hmask : 2 ^ k < 2 ^ 8 := Nat.pow_lt_pow_right (by omega) hk
  rw [UInt8.toNat_xor, UInt8.toNat_ofNat', Nat.mod_eq_of_lt hmask] at hnat
  have h0 : 2 ^ k = 0 := by
    apply (Nat.xor_right_inj (x := b.toNat)).mp
    rw [hnat, Nat.xor_zero]
  exact absurd h0 (by positivity)

/-- **The flip changes one byte**, and nothing around it. -/
theorem flipBit_split (bs : List UInt8) : ∀ k, k < 8 * bs.length →
    ∃ xs b b' ys, bs = xs ++ b :: ys ∧ flipBit bs k = xs ++ b' :: ys ∧ b ≠ b' := by
  induction bs with
  | nil => intro k hk; exact absurd hk (Nat.not_lt_zero _)
  | cons b bs ih =>
    intro k hk
    rw [List.length_cons] at hk
    rw [flipBit]
    by_cases h8 : k < 8
    · rw [if_pos h8]
      exact ⟨[], b, _, bs, rfl, rfl, (xor_bit_ne b h8).symm⟩
    · obtain ⟨xs, c, c', ys, hbs, hflip, hne⟩ := ih (k - 8) (by omega)
      rw [if_neg h8]
      exact ⟨b :: xs, c, c', ys, by rw [hbs, List.cons_append], by rw [hflip, List.cons_append], hne⟩

theorem flipBit_ne {bs : List UInt8} {k : Nat} (hk : k < 8 * bs.length) : flipBit bs k ≠ bs := by
  obtain ⟨xs, b, b', ys, hbs, hflip, hne⟩ := flipBit_split bs k hk
  intro h
  rw [hflip, hbs] at h
  exact hne (List.cons.inj (List.append_cancel_left h)).1.symm

/-- **On a number**, the flip of bit `k` is the exclusive or with `2 ^ k`. -/
theorem leNat_flipBit (bs : List UInt8) : ∀ k, k < 8 * bs.length → leNat (flipBit bs k) = leNat bs ^^^ 2 ^ k := by
  induction bs with
  | nil => intro k hk; exact absurd hk (Nat.not_lt_zero _)
  | cons b bs ih =>
    intro k hk
    rw [List.length_cons] at hk
    have hb : b.toNat < 2 ^ 8 := b.toNat_lt
    rw [flipBit, leNat]
    by_cases h8 : k < 8
    · have hmask : 2 ^ k < 2 ^ 8 := Nat.pow_lt_pow_right (by omega) h8
      have hlow : (b.toNat + 2 ^ 8 * leNat bs) ^^^ (2 ^ k + 2 ^ 8 * 0) = _ := xor_parts hb hmask
      rw [if_pos h8, leNat, UInt8.toNat_xor, UInt8.toNat_ofNat', Nat.mod_eq_of_lt hmask]
      rw [Nat.mul_zero, Nat.add_zero, Nat.xor_zero] at hlow
      exact hlow.symm
    · have hpow : 2 ^ k = 256 * 2 ^ (k - 8) := by
        rw [show (256 : Nat) = 2 ^ 8 by rfl, ← Nat.pow_add]; congr 1; omega
      have hhigh : (b.toNat + 2 ^ 8 * leNat bs) ^^^ (0 + 2 ^ 8 * 2 ^ (k - 8)) = _ := xor_parts hb (Nat.two_pow_pos 8)
      rw [Nat.zero_add, Nat.xor_zero] at hhigh
      rw [if_neg h8, leNat, ih (k - 8) (by omega), hpow]
      exact hhigh.symm

end Parsing
