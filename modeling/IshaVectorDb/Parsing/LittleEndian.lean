import Mathlib.Data.List.Basic
import Mathlib.Tactic.Ring
import Mathlib.Tactic.Linarith

/-!
# `Parsing.LittleEndian` — numbers as little-endian bytes

`leBytes k n` is the `k`-byte form of `n` (taken modulo `256 ^ k`), `leNat` reads it back. The fixed-width
instances are stated for `UInt16`, `UInt32` and `UInt64`, where nothing is lost.
-/

namespace Parsing

/-- `n` in `k` bytes, lowest byte first. -/
def leBytes : Nat → Nat → List UInt8
  | 0, _ => []
  | k + 1, n => UInt8.ofNat n :: leBytes k (n / 256)

/-- The number that bytes, lowest first, stand for. -/
def leNat : List UInt8 → Nat
  | [] => 0
  | b :: bs => b.toNat + 256 * leNat bs

@[simp] theorem leBytes_length (k n : Nat) : (leBytes k n).length = k := by
  induction k generalizing n with
  | zero => rfl
  | succ k ih => simp [leBytes, ih]

theorem leNat_leBytes (k n : Nat) : leNat (leBytes k n) = n % 256 ^ k := by
  induction k generalizing n with
  | zero => simp [leBytes, leNat, Nat.mod_one]
  | succ k ih =>
    have hb : (UInt8.ofNat n).toNat = n % 256 := UInt8.toNat_ofNat'
    rw [leBytes, leNat, ih, hb, Nat.pow_succ, Nat.mul_comm (256 ^ k) 256, Nat.mod_mul]

theorem leNat_leBytes_of_lt {k n : Nat} (h : n < 256 ^ k) : leNat (leBytes k n) = n := by
  rw [leNat_leBytes, Nat.mod_eq_of_lt h]

theorem leNat_lt (bs : List UInt8) : leNat bs < 256 ^ bs.length := by
  induction bs with
  | nil => simp [leNat]
  | cons b bs ih =>
    have hb : b.toNat < 256 := b.toNat_lt
    rw [leNat, List.length_cons, Nat.pow_succ]
    omega

theorem leBytes_leNat (bs : List UInt8) : leBytes bs.length (leNat bs) = bs := by
  induction bs with
  | nil => rfl
  | cons b bs ih =>
    have hb : b.toNat < 256 := b.toNat_lt
    have hdiv : (b.toNat + 256 * leNat bs) / 256 = leNat bs := by omega
    have hhead : UInt8.ofNat (b.toNat + 256 * leNat bs) = b := by
      apply UInt8.toNat.inj
      rw [UInt8.toNat_ofNat']
      omega
    rw [leNat, List.length_cons, leBytes, hdiv, ih, hhead]

/-! ## Fixed widths -/

theorem leNat_u16 (v : UInt16) : UInt16.ofNat (leNat (leBytes 2 v.toNat)) = v := by
  rw [leNat_leBytes_of_lt (by have := v.toNat_lt; omega)]
  exact UInt16.ofNat_toNat

theorem leNat_u32 (v : UInt32) : UInt32.ofNat (leNat (leBytes 4 v.toNat)) = v := by
  rw [leNat_leBytes_of_lt (by have := v.toNat_lt; omega)]
  exact UInt32.ofNat_toNat

theorem leNat_u64 (v : UInt64) : UInt64.ofNat (leNat (leBytes 8 v.toNat)) = v := by
  rw [leNat_leBytes_of_lt (by have := v.toNat_lt; omega)]
  exact UInt64.ofNat_toNat

end Parsing
