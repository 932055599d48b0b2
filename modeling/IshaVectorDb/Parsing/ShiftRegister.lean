import IshaVectorDb.Parsing.Bits
import Mathlib.Logic.Function.Iterate

/-!
# `Parsing.ShiftRegister` — a **feedback shift register**, and the bursts it always sees

One round shifts a number right and, when a bit falls out, takes the exclusive or with the register's polynomial.
A round is linear (`shiftRound_xor`), undoes a shift left (`shiftRound_two_mul`), and loses nothing of a number of the
register's width (`shiftRound_eq_zero`). So a whole message may stand above the register as one number, and a
difference of at most the register's width, wherever it stands in the message, is still there after any number of
rounds that reaches it (`rounds_burst`).
-/

namespace ShiftRegister

variable {poly w x : Nat}

/-- One round: the polynomial enters when a bit falls out. -/
def shiftRound (poly x : Nat) : Nat := (x / 2) ^^^ (poly * (x % 2))

theorem xor_half (x y : Nat) : (x ^^^ y) / 2 = x / 2 ^^^ y / 2 := by
  have h := Nat.xor_div_two_pow (a := x) (b := y) (n := 1)
  rwa [Nat.pow_one] at h

theorem xor_bit (x y : Nat) : (x ^^^ y) % 2 = x % 2 ^^^ y % 2 := by
  have h := Nat.xor_mod_two_pow (a := x) (b := y) (n := 1)
  rwa [Nat.pow_one] at h

/-- Multiples by a bit add up bit by bit. -/
theorem mul_bit_xor (poly : Nat) {b c : Nat} (hb : b < 2) (hc : c < 2) :
    poly * (b ^^^ c) = poly * b ^^^ poly * c := by
  obtain rfl | rfl : b = 0 ∨ b = 1 := by omega
  · rw [Nat.zero_xor, Nat.mul_zero, Nat.zero_xor]
  · obtain rfl | rfl : c = 0 ∨ c = 1 := by omega
    · rw [Nat.xor_zero, Nat.mul_zero, Nat.xor_zero]
    · rw [Nat.xor_self, Nat.xor_self, Nat.mul_zero]

/-- **A round is linear.** -/
theorem shiftRound_xor (poly x y : Nat) : shiftRound poly (x ^^^ y) = shiftRound poly x ^^^ shiftRound poly y := by
  unfold shiftRound
  rw [xor_half, xor_bit, mul_bit_xor poly (Nat.mod_lt _ Nat.two_pos) (Nat.mod_lt _ Nat.two_pos)]
  -- the two halves and the two feedbacks change places
  rw [Nat.xor_assoc, Nat.xor_assoc]
  congr 1
  rw [← Nat.xor_assoc, ← Nat.xor_assoc, Nat.xor_comm (y / 2)]

/-- Nothing falls out of an even number. -/
theorem shiftRound_two_mul (poly x : Nat) : shiftRound poly (2 * x) = x := by
  unfold shiftRound
  rw [Nat.mul_mod_right, Nat.mul_zero, Nat.xor_zero, Nat.mul_div_cancel_left _ Nat.two_pos]

theorem shiftRound_lt (hpoly : poly < 2 ^ w) (h : x < 2 ^ w) : shiftRound poly x < 2 ^ w := by
  apply Nat.xor_lt_two_pow
  · exact lt_of_le_of_lt (Nat.div_le_self x 2) h
  · rcases Nat.mod_two_eq_zero_or_one x with hbit | hbit
    · rw [hbit, Nat.mul_zero]; exact Nat.two_pow_pos w
    · rw [hbit, Nat.mul_one]; exact hpoly

/-- **A round loses nothing of the register's width**, since the polynomial has the top bit. -/
theorem shiftRound_eq_zero (htop : 2 ^ w ≤ 2 * poly + 1) (h : x < 2 ^ w) (h0 : shiftRound poly x = 0) : x = 0 := by
  have heq : x / 2 = poly * (x % 2) := Nat.xor_eq_zero_iff.mp h0
  rcases Nat.mod_two_eq_zero_or_one x with hbit | hbit
  · rw [hbit, Nat.mul_zero] at heq; omega
  · rw [hbit, Nat.mul_one] at heq; omega

/-! ## Many rounds -/

theorem rounds_xor (poly n x y : Nat) :
    (shiftRound poly)^[n] (x ^^^ y) = (shiftRound poly)^[n] x ^^^ (shiftRound poly)^[n] y := by
  induction n generalizing x y with
  | zero => rfl
  | succ n ih => rw [Function.iterate_succ_apply, Function.iterate_succ_apply, Function.iterate_succ_apply,
      shiftRound_xor, ih]

/-- What stands `n` bits up comes down unchanged. -/
theorem rounds_shifted (poly n x : Nat) : (shiftRound poly)^[n] (2 ^ n * x) = x := by
  induction n with
  | zero => rw [Nat.pow_zero, Nat.one_mul]; rfl
  | succ n ih =>
    rw [Function.iterate_succ_apply, Nat.pow_succ, Nat.mul_comm (2 ^ n) 2, Nat.mul_assoc, shiftRound_two_mul]
    exact ih

theorem rounds_eq_zero (hpoly : poly < 2 ^ w) (htop : 2 ^ w ≤ 2 * poly + 1) (n : Nat) (h : x < 2 ^ w)
    (h0 : (shiftRound poly)^[n] x = 0) : x = 0 := by
  induction n generalizing x with
  | zero => exact h0
  | succ n ih => exact shiftRound_eq_zero htop h (ih (shiftRound_lt hpoly h) h0)

/-- **A burst no wider than the register is seen**: the rounds that pass the foot of the burst do not make it
    nothing. -/
theorem rounds_burst (hpoly : poly < 2 ^ w) (htop : 2 ^ w ≤ 2 * poly + 1) {k n e : Nat} (hk : k ≤ n) (he : e < 2 ^ w)
    (h0 : (shiftRound poly)^[n] (2 ^ k * e) = 0) : e = 0 := by
  obtain ⟨m, rfl⟩ : ∃ m, n = m + k := ⟨n - k, by omega⟩
  rw [Function.iterate_add_apply, rounds_shifted] at h0
  exact rounds_eq_zero hpoly htop m he h0

/-- What is below the foot and what is above it go their own ways. -/
theorem rounds_split (poly n x : Nat) :
    (shiftRound poly)^[n] x = x / 2 ^ n ^^^ (shiftRound poly)^[n] (x % 2 ^ n) := by
  have hx : 2 ^ n * (x / 2 ^ n) ^^^ x % 2 ^ n = x := by
    rw [Nat.xor_comm, Parsing.xor_low_high (Nat.mod_lt _ (Nat.two_pow_pos n)), Nat.mod_add_div]
  conv_lhs => rw [← hx]
  rw [rounds_xor, rounds_shifted]

end ShiftRegister
