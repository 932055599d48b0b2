import IshaVectorDb.Parsing.LittleEndian
import Mathlib.Data.Nat.Bitwise

/-!
# `Parsing.Bits` — exclusive or on numbers in parts, and the **bits of a string of bytes**

`xor_parts` takes an exclusive or apart at any bit. The bits of a string of bytes are counted from the low bit of the
first byte (`bitAt`), which are the bits of the little-endian number it stands for (`testBit_leNat`); two strings
`Differ` within a window of bits when they are alike outside it, and so their numbers differ by one short number shifted
to the window (`Differ.leNat`).
-/

namespace Parsing

/-- **Exclusive or in parts**: low bits with low bits, high bits with high bits. -/
theorem xor_parts {n a b c d : Nat} (hb : b < 2 ^ n) (hd : d < 2 ^ n) :
    (b + 2 ^ n * a) ^^^ (d + 2 ^ n * c) = (b ^^^ d) + 2 ^ n * (a ^^^ c) := by
  have hdiv := Nat.xor_div_two_pow (a := b + 2 ^ n * a) (b := d + 2 ^ n * c) (n := n)
  have hmod := Nat.xor_mod_two_pow (a := b + 2 ^ n * a) (b := d + 2 ^ n * c) (n := n)
  have hpos := Nat.two_pow_pos n
  rw [Nat.add_mul_div_left _ _ hpos, Nat.add_mul_div_left _ _ hpos, Nat.div_eq_of_lt hb, Nat.div_eq_of_lt hd,
    Nat.zero_add, Nat.zero_add] at hdiv
  rw [Nat.add_mul_mod_self_left, Nat.add_mul_mod_self_left, Nat.mod_eq_of_lt hb, Nat.mod_eq_of_lt hd] at hmod
  rw [← Nat.mod_add_div ((b + 2 ^ n * a) ^^^ (d + 2 ^ n * c)) (2 ^ n), hdiv, hmod]

/-- A number's low part, set beside its high part. -/
theorem xor_low_high {n b : Nat} (hb : b < 2 ^ n) (a : Nat) : b ^^^ 2 ^ n * a = b + 2 ^ n * a := by
  have h := xor_parts (a := 0) (c := a) hb (Nat.two_pow_pos n)
  rwa [Nat.mul_zero, Nat.add_zero, Nat.zero_add, Nat.xor_zero, Nat.zero_xor] at h

/-! ## The bits of a string of bytes -/

/-- Bit `i`, the low bit of the first byte being bit 0. -/
def bitAt (bs : List UInt8) (i : Nat) : Bool := (bs[i / 8]?.getD 0).toNat.testBit (i % 8)

/-- **The bits of the bytes are the bits of the number.** -/
theorem testBit_leNat (bs : List UInt8) (i : Nat) : (leNat bs).testBit i = bitAt bs i := by
  induction bs generalizing i with
  | nil =>
    show Nat.testBit 0 i = Nat.testBit 0 (i % 8)
    rw [Nat.zero_testBit, Nat.zero_testBit]
  | cons b bs ih =>
    have hb : b.toNat < 2 ^ 8 := b.toNat_lt
    rw [leNat, Nat.add_comm, show 256 = 2 ^ 8 by rfl, Nat.testBit_two_pow_mul_add _ hb]
    by_cases h8 : i < 8
    · rw [if_pos h8, bitAt, Nat.div_eq_of_lt h8, Nat.mod_eq_of_lt h8]
      rfl
    · obtain ⟨j, rfl⟩ : ∃ j, i = j + 8 := ⟨i - 8, by omega⟩
      rw [if_neg h8, Nat.add_sub_cancel, ih, bitAt, bitAt, Nat.add_div_right _ (by omega), Nat.add_mod_right]
      rfl

/-- There are no bits behind the bytes. -/
theorem bitAt_of_le {bs : List UInt8} {i : Nat} (h : 8 * bs.length ≤ i) : bitAt bs i = false := by
  unfold bitAt
  rw [List.getElem?_eq_none (by omega)]
  exact Nat.zero_testBit _

theorem bitAt_append_left (bs cs : List UInt8) {i : Nat} (h : i < 8 * bs.length) : bitAt (bs ++ cs) i = bitAt bs i := by
  unfold bitAt
  rw [List.getElem?_append_left (by omega)]

theorem bitAt_append_right (bs cs : List UInt8) (i : Nat) : bitAt (bs ++ cs) (8 * bs.length + i) = bitAt cs i := by
  have hdiv : (8 * bs.length + i) / 8 = bs.length + i / 8 := by omega
  have hmod : (8 * bs.length + i) % 8 = i % 8 := by omega
  unfold bitAt
  rw [hdiv, hmod, List.getElem?_append_right (Nat.le_add_right _ _), Nat.add_sub_cancel_left]

/-- **Alike outside a window** of `width` bits. -/
structure Differ (width : Nat) (bs cs : List UInt8) : Prop where
  length : bs.length = cs.length
  window : ∃ start, ∀ i, i < start ∨ start + width ≤ i → bitAt bs i = bitAt cs i

namespace Differ

variable {width : Nat} {bs cs bs' cs' : List UInt8}

theorem mono {wider : Nat} (h : Differ width bs cs) (hw : width ≤ wider) : Differ wider bs cs := by
  obtain ⟨start, hsame⟩ := h.window
  refine ⟨h.length, start, fun i hi => hsame i ?_⟩
  omega

/-- Bytes replaced by as many others are a window of their bits. -/
theorem splice (xs ys : List UInt8) {as as' : List UInt8} (hlen : as.length = as'.length) :
    Differ (8 * as.length) (xs ++ as ++ ys) (xs ++ as' ++ ys) := by
  have hfront : (xs ++ as).length = (xs ++ as').length := by rw [List.length_append, List.length_append, hlen]
  refine ⟨by rw [List.length_append, hfront, ← List.length_append], 8 * xs.length, fun i hi => ?_⟩
  rcases hi with hlow | hhigh
  · rw [List.append_assoc, List.append_assoc, bitAt_append_left _ _ hlow, bitAt_append_left _ _ hlow]
  · obtain ⟨j, rfl⟩ : ∃ j, i = 8 * (xs ++ as).length + j := by
      refine ⟨i - 8 * (xs ++ as).length, ?_⟩
      rw [List.length_append]
      omega
    rw [bitAt_append_right, hfront, bitAt_append_right]

/-- **The front of the strings** differs within the same window. -/
theorem of_append_left (h : Differ width (bs ++ bs') (cs ++ cs')) (hlen : bs.length = cs.length) : Differ width bs cs := by
  obtain ⟨start, hsame⟩ := h.window
  refine ⟨hlen, start, fun i hi => ?_⟩
  by_cases hin : i < 8 * bs.length
  · have hi' := hsame i hi
    rwa [bitAt_append_left _ _ hin, bitAt_append_left _ _ (hlen ▸ hin)] at hi'
  · rw [bitAt_of_le (by omega), bitAt_of_le (by omega)]

/-- **The rest of the strings** differs within what the window leaves of it. -/
theorem of_append_right (h : Differ width (bs ++ bs') (cs ++ cs')) (hlen : bs.length = cs.length) :
    Differ width bs' cs' := by
  obtain ⟨start, hsame⟩ := h.window
  have hall := h.length
  rw [List.length_append, List.length_append, hlen] at hall
  refine ⟨Nat.add_left_cancel hall, start - 8 * bs.length, fun i hi => ?_⟩
  have hi' := hsame (8 * bs.length + i) (by omega)
  rwa [bitAt_append_right, hlen, bitAt_append_right] at hi'

/-- The window starts in the strings. -/
theorem inside (h : Differ width bs cs) : ∃ start ≤ 8 * bs.length, ∀ i, i < start ∨ start + width ≤ i →
    bitAt bs i = bitAt cs i := by
  obtain ⟨start, hsame⟩ := h.window
  by_cases hin : start ≤ 8 * bs.length
  · exact ⟨start, hin, hsame⟩
  · refine ⟨0, Nat.zero_le _, fun i _ => ?_⟩
    by_cases hi : i < start
    · exact hsame i (.inl hi)
    · rw [bitAt_of_le (by omega), bitAt_of_le (by rw [← h.length]; omega)]

/-- **As numbers** the strings differ by a number of the window's width, shifted to the window. -/
theorem leNat (h : Differ width bs cs) : ∃ start ≤ 8 * bs.length, ∃ e < 2 ^ width,
    Parsing.leNat bs ^^^ Parsing.leNat cs = 2 ^ start * e := by
  obtain ⟨start, hin, hsame⟩ := h.inside
  generalize hD : Parsing.leNat bs ^^^ Parsing.leNat cs = D
  have hbit : ∀ i, i < start ∨ start + width ≤ i → D.testBit i = false := by
    intro i hi
    rw [← hD, Nat.testBit_xor, testBit_leNat, testBit_leNat, hsame i hi, Bool.xor_self]
  refine ⟨start, hin, D / 2 ^ start, ?_, ?_⟩
  · apply Nat.lt_pow_two_of_testBit
    intro i hi
    rw [Nat.testBit_div_two_pow]
    exact hbit _ (.inr (by omega))
  · apply Nat.eq_of_testBit_eq
    intro i
    rw [Nat.testBit_two_pow_mul]
    by_cases hi : start ≤ i
    · rw [decide_eq_true hi, Bool.true_and, Nat.testBit_div_two_pow]
      congr 1; omega
    · rw [hbit i (.inl (by omega)), decide_eq_false hi, Bool.false_and]

end Differ

/-- Strings of one length that stand for one number are one string. -/
theorem leNat_injective {bs cs : List UInt8} (hlen : bs.length = cs.length) (h : leNat bs = leNat cs) : bs = cs := by
  rw [← leBytes_leNat bs, ← leBytes_leNat cs, hlen, h]

end Parsing
