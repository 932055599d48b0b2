import IshaVectorDb.Parsing.ShiftRegister
import Mathlib.Algebra.CharP.Two
import Mathlib.Algebra.Field.ZMod
import Mathlib.Algebra.Polynomial.Div

/-!
# `Parsing.Remainders` — a shift register **divides polynomials**

A register of width `w` stands for a polynomial over the field of two elements, its lowest bit for the highest coefficient
(`polyOf`). A round multiplies by `X` and takes off the generator when a coefficient comes out at the top (`polyOf_round`).
So feeding bits into the register, each into its lowest bit before a round, leaves the remainder of the message that they
are (`polyOf_feed`); and feeding the bits of a number one by one is the same as putting the number under all the rounds at
once (`foldl_feed`).
-/

namespace ShiftRegister

open Polynomial

variable {w poly : Nat}

/-- A bit as a coefficient. -/
def coefficient (b : Bool) : ZMod 2 := b.toNat

theorem coefficient_xor (a b : Bool) : coefficient (a ^^ b) = coefficient a + coefficient b := by
  cases a <;> cases b <;> decide

/-- **The polynomial of a register**, its lowest bit first. -/
noncomputable def polyOf (w x : Nat) : (ZMod 2)[X] :=
  ∑ i ∈ Finset.range w, C (coefficient (x.testBit (w - 1 - i))) * X ^ i

/-- The generator of a register's feedback: the bit that comes out, and what it puts in. -/
noncomputable def generator (w poly : Nat) : (ZMod 2)[X] := X ^ w + polyOf w poly

/-- **The polynomial of a message**, its first bit the highest coefficient. -/
noncomputable def messageOf : List Bool → (ZMod 2)[X]
  | [] => 0
  | b :: rest => C (coefficient b) * X ^ rest.length + messageOf rest

/-! ## Registers as polynomials -/

theorem coeff_polyOf (w x i : Nat) : (polyOf w x).coeff i = if i < w then coefficient (x.testBit (w - 1 - i)) else 0 := by
  unfold polyOf
  rw [finsetSum_coeff]
  simp only [coeff_C_mul_X_pow]
  rw [Finset.sum_ite_eq]
  simp only [Finset.mem_range]

theorem polyOf_xor (w x y : Nat) : polyOf w (x ^^^ y) = polyOf w x + polyOf w y := by
  ext i
  rw [coeff_add, coeff_polyOf, coeff_polyOf, coeff_polyOf]
  split
  · rw [Nat.testBit_xor, coefficient_xor]
  · rw [add_zero]

theorem degree_polyOf (w x : Nat) : (polyOf w x).degree < w := by
  rw [degree_lt_iff_coeff_zero]
  intro i hi
  rw [coeff_polyOf, if_neg (by omega)]

/-- Registers of one width are told by their polynomials. -/
theorem polyOf_injective {x y : Nat} (hx : x < 2 ^ w) (hy : y < 2 ^ w) (h : polyOf w x = polyOf w y) : x = y := by
  apply Nat.eq_of_testBit_eq
  intro i
  by_cases hi : i < w
  · have hc := congrArg (fun p => p.coeff (w - 1 - i)) h
    rw [coeff_polyOf, coeff_polyOf, if_pos (by omega), if_pos (by omega), show w - 1 - (w - 1 - i) = i by omega] at hc
    cases hxi : x.testBit i <;> cases hyi : y.testBit i <;> rw [hxi, hyi] at hc <;>
      first | rfl | exact absurd hc (by decide)
  · have hpow : 2 ^ w ≤ 2 ^ i := Nat.pow_le_pow_right (by omega) (by omega)
    rw [Nat.testBit_lt_two_pow (by omega), Nat.testBit_lt_two_pow (by omega)]

theorem monic_generator (w poly : Nat) : (generator w poly).Monic := monic_X_pow_add (degree_polyOf w poly)

theorem degree_generator (w poly : Nat) : (generator w poly).degree = w := by
  unfold generator
  rw [degree_add_eq_left_of_degree_lt, degree_X_pow]
  rw [degree_X_pow]
  exact degree_polyOf w poly

/-- What falls out at the bottom of the register comes out at the top of the polynomial. -/
theorem X_mul_polyOf {x : Nat} (hx : x < 2 ^ w) :
    X * polyOf w x = polyOf w (x / 2) + C (coefficient (x.testBit 0)) * X ^ w := by
  ext i
  rw [coeff_add, coeff_C_mul_X_pow, coeff_polyOf]
  cases i with
  | zero =>
    rw [coeff_X_mul_zero]
    by_cases hw : w = 0
    · subst hw
      obtain rfl : x = 0 := by omega
      rw [if_neg (by omega), if_pos rfl]
      rfl
    · have hbit : (x / 2).testBit (w - 1 - 0) = false := by
        apply Nat.testBit_lt_two_pow
        have hpow : 2 ^ w = 2 * 2 ^ (w - 1 - 0) := by rw [← Nat.pow_succ']; congr 1; omega
        omega
      rw [if_pos (by omega), if_neg (by omega), hbit]
      rfl
  | succ i =>
    rw [coeff_X_mul, coeff_polyOf]
    rcases Nat.lt_trichotomy (i + 1) w with hlt | heq | hgt
    · rw [if_pos (by omega), if_pos hlt, if_neg (by omega), add_zero, ← Nat.testBit_succ,
        show (w - 1 - (i + 1)).succ = w - 1 - i by omega]
    · rw [if_pos (by omega), if_neg (by omega), if_pos heq, zero_add, show w - 1 - i = 0 by omega]
    · rw [if_neg (by omega), if_neg (by omega), if_neg (by omega), add_zero]

/-- **A round** multiplies by `X`, and takes off the generator if a bit fell out. -/
theorem polyOf_round {x : Nat} (hx : x < 2 ^ w) :
    polyOf w (shiftRound poly x) = X * polyOf w x + C (coefficient (x.testBit 0)) * generator w poly := by
  have hfeedback : polyOf w (poly * (x % 2)) = C (coefficient (x.testBit 0)) * polyOf w poly := by
    rw [Nat.testBit_zero]
    rcases Nat.mod_two_eq_zero_or_one x with hbit | hbit
    · rw [hbit, Nat.mul_zero]
      ext i
      rw [coeff_polyOf]
      simp [coefficient]
    · rw [hbit, Nat.mul_one]
      simp [coefficient]
  unfold shiftRound generator
  rw [polyOf_xor, hfeedback, X_mul_polyOf hx, mul_add]
  -- the coefficient that came out is there twice, and so not at all
  rw [add_assoc, CharTwo.add_cancel_left]

/-! ## Bits fed one by one -/

/-- A bit goes in at the bottom, and then a round. -/
def feed (poly x : Nat) (b : Bool) : Nat := shiftRound poly (x ^^^ b.toNat)

/-- The low bits of a number, the lowest first. -/
def bitsOf (n x : Nat) : List Bool := (List.range n).map x.testBit

theorem bitsOf_succ (n x : Nat) : bitsOf (n + 1) x = x.testBit 0 :: bitsOf n (x / 2) := by
  unfold bitsOf
  rw [List.range_succ_eq_map, List.map_cons, List.map_map]
  congr 1
  exact List.map_congr_left fun i _ => Nat.testBit_succ x i

/-- A number is its lowest bit and the rest. -/
theorem bit_xor_double (x : Nat) : (x.testBit 0).toNat ^^^ 2 * (x / 2) = x := by
  have hbit : (x.testBit 0).toNat = x % 2 := by
    rw [Nat.testBit_zero]
    rcases Nat.mod_two_eq_zero_or_one x with h | h <;> rw [h] <;> rfl
  have hxor := Parsing.xor_low_high (n := 1) (b := x % 2) (by omega) (x / 2)
  rw [Nat.pow_one] at hxor
  rw [hbit, hxor, Nat.mod_add_div]

/-- **Bits fed one by one** are a number put under all the rounds at once. -/
theorem foldl_feed (n : Nat) {x : Nat} (hx : x < 2 ^ n) (s : Nat) :
    (bitsOf n x).foldl (feed poly) s = (shiftRound poly)^[n] (s ^^^ x) := by
  induction n generalizing x s with
  | zero =>
    obtain rfl : x = 0 := by omega
    exact (Nat.xor_zero s).symm
  | succ n ih =>
    have hhalf : x / 2 < 2 ^ n := by rw [Nat.pow_succ] at hx; omega
    rw [bitsOf_succ, List.foldl_cons, ih hhalf, Function.iterate_succ_apply]
    congr 1
    conv_rhs => rw [← bit_xor_double x, ← Nat.xor_assoc, shiftRound_xor, shiftRound_two_mul]
    rfl

/-- A bit put into the bottom of a register leaves it as wide as it is. -/
theorem xor_bit_lt (hw : 0 < w) {x : Nat} (hx : x < 2 ^ w) (b : Bool) : x ^^^ b.toNat < 2 ^ w := by
  have hone : 2 ^ 1 ≤ 2 ^ w := Nat.pow_le_pow_right (by omega) hw
  exact Nat.xor_lt_two_pow hx (lt_of_lt_of_le b.toNat_lt hone)

theorem feed_lt (hw : 0 < w) (hpoly : poly < 2 ^ w) {x : Nat} (hx : x < 2 ^ w) (b : Bool) : feed poly x b < 2 ^ w :=
  shiftRound_lt hpoly (xor_bit_lt hw hx b)

/-- A bit at the bottom of the register is the highest coefficient. -/
theorem polyOf_bit (hw : 0 < w) (b : Bool) : polyOf w b.toNat = C (coefficient b) * X ^ (w - 1) := by
  ext i
  rw [coeff_polyOf, coeff_C_mul_X_pow]
  by_cases hi : i = w - 1
  · rw [if_pos (by omega), if_pos hi, show w - 1 - i = 0 by omega]
    cases b <;> rfl
  · rw [if_neg hi]
    split
    · obtain ⟨k, hk⟩ : ∃ k, w - 1 - i = k + 1 := ⟨w - 1 - i - 1, by omega⟩
      rw [hk, Nat.testBit_succ, show b.toNat / 2 = 0 by cases b <;> rfl, Nat.zero_testBit]
      rfl
    · rfl

/-- **One bit fed.** -/
theorem polyOf_feed_bit (hw : 0 < w) {x : Nat} (hx : x < 2 ^ w) (b : Bool) :
    ∃ q, polyOf w (feed poly x b) = X * polyOf w x + C (coefficient b) * X ^ w + q * generator w poly := by
  have hin := xor_bit_lt hw hx b
  refine ⟨C (coefficient ((x ^^^ b.toNat).testBit 0)), (polyOf_round hin).trans ?_⟩
  rw [polyOf_xor, mul_add, polyOf_bit hw, mul_left_comm, ← pow_succ', Nat.sub_add_cancel hw]

/-- **A message fed into the register** leaves itself, moved up by the width and over what was in the register, less a
    multiple of the generator. -/
theorem polyOf_feed (hw : 0 < w) (hpoly : poly < 2 ^ w) (bits : List Bool) {x : Nat} (hx : x < 2 ^ w) :
    ∃ q, polyOf w (bits.foldl (feed poly) x) =
      X ^ bits.length * polyOf w x + X ^ w * messageOf bits + q * generator w poly := by
  induction bits generalizing x with
  | nil =>
    refine ⟨0, ?_⟩
    rw [messageOf, mul_zero, zero_mul, add_zero, add_zero, List.length_nil, pow_zero, one_mul]
    rfl
  | cons b bits ih =>
    obtain ⟨q, hq⟩ := ih (feed_lt hw hpoly hx b)
    obtain ⟨q', hq'⟩ : ∃ q', polyOf w (feed poly x b) = _ + q' * generator w poly := polyOf_feed_bit hw hx b
    refine ⟨X ^ bits.length * q' + q, hq.trans ?_⟩
    rw [hq', messageOf, List.length_cons, pow_succ]
    ring

/-- **The register ends with the remainder.** -/
theorem polyOf_foldl (hw : 0 < w) (hpoly : poly < 2 ^ w) (bits : List Bool) {x : Nat} (hx : x < 2 ^ w) :
    polyOf w (bits.foldl (feed poly) x) =
      (X ^ bits.length * polyOf w x + X ^ w * messageOf bits) %ₘ generator w poly := by
  obtain ⟨q, hq⟩ := polyOf_feed hw hpoly bits hx
  refine (div_modByMonic_unique (-q) _ (monic_generator w poly) ⟨?_, ?_⟩).2.symm
  · rw [hq]
    ring
  · rw [degree_generator]
    exact degree_polyOf w _

end ShiftRegister
