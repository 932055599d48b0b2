import IshaVectorDb.Lanes.Sums
import Mathlib.Data.Fin.VecNotation
import Mathlib.Tactic.Ring

/-!
# `Index.Kernels` — the **vectorised kernels**, in exact arithmetic

The inner product and the squared distance of two slices, for AVX2, NEON and WebAssembly. Each goes over the shorter
length in blocks of a register, folds the lanes with the instructions it has, and finishes with a scalar tail.
`kernels_compute` is that each of them returns what the scalar reference returns over any commutative ring, for slices of
any lengths, and reads each component below the shorter length once and none beyond it.
-/

namespace IshaVectorDb.Index.Kernels

open Lanes

variable {R : Type} [CommRing R]

/-! ## The reference -/

/-- Inner product of two slices. -/
def dot (a b : List R) : R := ((a.zip b).map (fun p => p.1 * p.2)).sum

/-- Squared Euclidean distance between two slices. -/
def l2Squared (a b : List R) : R := ((a.zip b).map (fun p => (p.1 - p.2) * (p.1 - p.2))).sum

/-! ## Instructions -/

/-- `_mm256_fmadd_ps`: multiply the first two and add the third, lane by lane. -/
def fmadd {w : Nat} (x y z : Register w R) : Register w R := fun l => x l * y l + z l

/-- `vfmaq_f32`: add the product of the last two to the first. -/
def vfma {w : Nat} (z x y : Register w R) : Register w R := fun l => z l + x l * y l

def add {w : Nat} (x y : Register w R) : Register w R := fun l => x l + y l
def sub {w : Nat} (x y : Register w R) : Register w R := fun l => x l - y l
def mul {w : Nat} (x y : Register w R) : Register w R := fun l => x l * y l

/-- `_mm256_castps256_ps128`: the low half. -/
def castLow (v : Register 8 R) : Register 4 R := ![v 0, v 1, v 2, v 3]

/-- `_mm256_extractf128_ps(v, 1)`: the high half. -/
def extractHigh (v : Register 8 R) : Register 4 R := ![v 4, v 5, v 6, v 7]

/-- `_mm_movehl_ps`: the high half of the second, then that of the first. -/
def movehl (a b : Register 4 R) : Register 4 R := ![b 2, b 3, a 2, a 3]

/-- `_mm_shuffle_ps`: two lanes of each, each chosen by two bits. -/
def shuffle (a b : Register 4 R) (imm : Nat) : Register 4 R :=
  ![a (Fin.ofNat 4 imm), a (Fin.ofNat 4 (imm / 4)), b (Fin.ofNat 4 (imm / 16)), b (Fin.ofNat 4 (imm / 64))]

/-- Sum the eight lanes. -/
def horizontalAvx2 (v : Register 8 R) : R :=
  let lo := castLow v
  let hi := extractHigh v
  let sum := add lo hi
  let shuf := movehl sum sum
  let sum := add sum shuf
  let shuf := shuffle sum sum 1
  add sum shuf 0

/-- `vaddvq_f32`: sum the four lanes. -/
def horizontalNeon (v : Register 4 R) : R := ∑ l, v l

/-- The four lanes, extracted and added in turn. -/
def horizontalSimd128 (v : Register 4 R) : R := v 0 + v 1 + v 2 + v 3

/-! ## Kernels -/

def dotAvx2 (m : Memory R) (na nb : Nat) : Traced R :=
  twoAccumulators m (min na nb) 8 (fun acc x y => fmadd x y acc) horizontalAvx2 (fun sum x y => sum + x * y)

def l2SquaredAvx2 (m : Memory R) (na nb : Nat) : Traced R :=
  twoAccumulators m (min na nb) 8 (fun acc x y => let d := sub x y; fmadd d d acc) horizontalAvx2
    (fun sum x y => let d := x - y; sum + d * d)

def dotNeon (m : Memory R) (na nb : Nat) : Traced R :=
  twoAccumulators m (min na nb) 4 vfma horizontalNeon (fun sum x y => sum + x * y)

def l2SquaredNeon (m : Memory R) (na nb : Nat) : Traced R :=
  twoAccumulators m (min na nb) 4 (fun acc x y => let d := sub x y; vfma acc d d) horizontalNeon
    (fun sum x y => let d := x - y; sum + d * d)

def dotSimd128 (m : Memory R) (na nb : Nat) : Traced R :=
  oneAccumulator m (min na nb) 4 (fun acc x y => add acc (mul x y)) horizontalSimd128 (fun sum x y => sum + x * y)

def l2SquaredSimd128 (m : Memory R) (na nb : Nat) : Traced R :=
  oneAccumulator m (min na nb) 4 (fun acc x y => let d := sub x y; add acc (mul d d)) horizontalSimd128
    (fun sum x y => let d := x - y; sum + d * d)

/-! ## Folding the lanes -/

theorem horizontalAvx2_folds : Folds (horizontalAvx2 (R := R)) := by
  intro v
  have hlanes : horizontalAvx2 v = v 0 + v 4 + (v 2 + v 6) + (v 1 + v 5 + (v 3 + v 7)) := rfl
  rw [hlanes, Fin.sum_univ_eight]
  ring

theorem horizontalSimd128_folds : Folds (horizontalSimd128 (R := R)) := by
  intro v
  rw [Fin.sum_univ_four]
  rfl

/-! ## The kernels against the reference -/

/-- **A kernel computes a reference**: on any two slices, whatever lies beyond them in memory, it returns what the
    reference does, and it reads each component below the shorter length once from each and no other. -/
structure Computes (kernel : Memory R → Nat → Nat → Traced R) (reference : List R → List R → R) : Prop where
  value : ∀ (a b : List R) (m : Memory R), Holds m a b → (kernel m a.length b.length).value = reference a b
  reads : ∀ (a b : List R) (m : Memory R), Holds m a b → ∀ o i,
    (kernel m a.length b.length).reads.count (o, i) = if i < min a.length b.length then 1 else 0

/-- A kernel that adds up the terms of the reference. -/
theorem computes_of_does {kernel : Memory R → Nat → Nat → Traced R} (term : R → R → R)
    (h : ∀ (m : Memory R) (na nb : Nat),
      Does (kernel m na nb) (fun r => r = total m term 0 (min na nb)) (span 0 (min na nb))) :
    Computes kernel (fun a b => ((a.zip b).map (fun p => term p.1 p.2)).sum) := by
  refine ⟨fun a b m hm => ?_, fun a b m _ o i => ?_⟩
  · rw [(h m a.length b.length).value, total_zip hm]
  · rw [(h m a.length b.length).reads.count_eq, count_span]

/-- **The kernels compute the reference sum**, over any commutative ring. -/
theorem kernels_compute :
    (Computes (dotAvx2 (R := R)) dot ∧ Computes (l2SquaredAvx2 (R := R)) l2Squared) ∧
    (Computes (dotNeon (R := R)) dot ∧ Computes (l2SquaredNeon (R := R)) l2Squared) ∧
    (Computes (dotSimd128 (R := R)) dot ∧ Computes (l2SquaredSimd128 (R := R)) l2Squared) := by
  refine ⟨⟨?_, ?_⟩, ⟨?_, ?_⟩, ?_, ?_⟩
  · exact computes_of_does (fun x y => x * y) (fun m na nb =>
      twoAccumulators_does (fun _ _ _ _ => add_comm _ _) horizontalAvx2_folds (fun _ _ _ => rfl))
  · exact computes_of_does (fun x y => (x - y) * (x - y)) (fun m na nb =>
      twoAccumulators_does (fun _ _ _ _ => add_comm _ _) horizontalAvx2_folds (fun _ _ _ => rfl))
  · exact computes_of_does (fun x y => x * y) (fun m na nb =>
      twoAccumulators_does (fun _ _ _ _ => rfl) (fun _ => rfl) (fun _ _ _ => rfl))
  · exact computes_of_does (fun x y => (x - y) * (x - y)) (fun m na nb =>
      twoAccumulators_does (fun _ _ _ _ => rfl) (fun _ => rfl) (fun _ _ _ => rfl))
  · exact computes_of_does (fun x y => x * y) (fun m na nb =>
      oneAccumulator_does (fun _ _ _ _ => rfl) horizontalSimd128_folds (fun _ _ _ => rfl))
  · exact computes_of_does (fun x y => (x - y) * (x - y)) (fun m na nb =>
      oneAccumulator_does (fun _ _ _ _ => rfl) horizontalSimd128_folds (fun _ _ _ => rfl))

end IshaVectorDb.Index.Kernels
