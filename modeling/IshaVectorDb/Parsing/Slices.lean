import Mathlib.Data.List.Basic
import Mathlib.Tactic.Linarith

/-!
# `Parsing.Slices` — finding an item inside concatenated items

`slice bs start len` is the part of a buffer an index points at. `slice_flatMap` locates item `i` of
concatenated items by the lengths of the items before it, `slice_chunk` by a stride.
-/

namespace Parsing

variable {α β : Type}

/-- `len` bytes of a buffer from `start` on, if there are that many. -/
def slice (bs : List β) (start len : Nat) : Option (List β) :=
  if start + len ≤ bs.length then some ((bs.drop start).take len) else none

/-- The items before number `i`, concatenated, are as long as the offset of item `i`. -/
def offsetOf (f : α → List β) (l : List α) (i : Nat) : Nat := ((l.take i).flatMap f).length

theorem flatMap_split (f : α → List β) (l : List α) (i : Nat) :
    l.flatMap f = (l.take i).flatMap f ++ (l.drop i).flatMap f := by
  rw [← List.flatMap_append, List.take_append_drop]

/-- **A cut through concatenated items** falls behind some number of whole items: right behind them, or into the
    next one. -/
theorem take_flatMap (f : α → List β) (l : List α) :
    ∀ k ≤ (l.flatMap f).length, ∃ j ≤ l.length, ((l.take j).flatMap f).length ≤ k ∧
      (((l.take j).flatMap f).length = k ∧ (l.flatMap f).take k = (l.take j).flatMap f ∨
        ∃ a n, l[j]? = some a ∧ 0 < n ∧ n < (f a).length ∧ k = ((l.take j).flatMap f).length + n ∧
          (l.flatMap f).take k = (l.take j).flatMap f ++ (f a).take n) := by
  induction l with
  | nil =>
    intro k hk
    obtain rfl : k = 0 := Nat.le_zero.mp hk
    exact ⟨0, le_rfl, le_rfl, .inl ⟨rfl, rfl⟩⟩
  | cons b l ih =>
    intro k hk
    rw [List.flatMap_cons, List.length_append] at hk
    by_cases h0 : k = 0
    · exact ⟨0, by simp, by simp, .inl ⟨by simp [h0], by simp [h0]⟩⟩
    by_cases hlt : k < (f b).length
    · refine ⟨0, by simp, by simp, .inr ⟨b, k, rfl, by omega, hlt, by simp, ?_⟩⟩
      rw [List.flatMap_cons, List.take_append_of_le_length (by omega)]; rfl
    · obtain ⟨j, hj, hle, hcase⟩ := ih (k - (f b).length) (by omega)
      have htake : ((b :: l).flatMap f).take k = f b ++ (l.flatMap f).take (k - (f b).length) := by
        rw [List.flatMap_cons, List.take_append, List.take_of_length_le (by omega)]
      have hlen : (((b :: l).take (j + 1)).flatMap f).length = (f b).length + ((l.take j).flatMap f).length := by
        rw [List.take_succ_cons, List.flatMap_cons, List.length_append]
      refine ⟨j + 1, by rw [List.length_cons]; omega, by omega, ?_⟩
      rcases hcase with ⟨heq, hc⟩ | ⟨a, n, ha, hn0, hn, hk', hc⟩
      · exact .inl ⟨by omega, by rw [htake, hc, List.take_succ_cons, List.flatMap_cons]⟩
      · refine .inr ⟨a, n, ha, hn0, hn, by omega, ?_⟩
        rw [htake, hc, List.take_succ_cons, List.flatMap_cons, List.append_assoc]

theorem drop_offsetOf (f : α → List β) (l : List α) (i : Nat) :
    (l.flatMap f).drop (offsetOf f l i) = (l.drop i).flatMap f := by
  rw [flatMap_split f l i]; exact List.drop_left

theorem offsetOf_succ (f : α → List β) {l : List α} {i : Nat} (h : i < l.length) :
    offsetOf f l (i + 1) = offsetOf f l i + (f l[i]).length := by
  unfold offsetOf
  rw [List.take_succ_eq_append_getElem h, List.flatMap_append, List.length_append, List.flatMap_singleton]

theorem offsetOf_le (f : α → List β) (l : List α) (i : Nat) : offsetOf f l i ≤ (l.flatMap f).length := by
  rw [flatMap_split f l i, List.length_append]; exact Nat.le_add_right _ _

theorem offsetOf_add_le (f : α → List β) {l : List α} {i : Nat} (h : i < l.length) :
    offsetOf f l i + (f l[i]).length ≤ (l.flatMap f).length := by
  rw [← offsetOf_succ f h]; exact offsetOf_le f l (i + 1)

/-- **Item `i` is where the lengths before it say.** -/
theorem slice_flatMap (f : α → List β) {l : List α} {i : Nat} (h : i < l.length) :
    slice (l.flatMap f) (offsetOf f l i) (f l[i]).length = some (f l[i]) := by
  unfold slice
  rw [if_pos (offsetOf_add_le f h), drop_offsetOf, List.drop_eq_getElem_cons h, List.flatMap_cons, List.take_left]

theorem offsetOf_stride {f : α → List β} {k : Nat} {l : List α} (hk : ∀ a ∈ l, (f a).length = k) {i : Nat}
    (h : i ≤ l.length) : offsetOf f l i = i * k := by
  induction i with
  | zero => simp [offsetOf]
  | succ i ih =>
    rw [offsetOf_succ f (by omega), ih (by omega), hk _ (List.getElem_mem _), Nat.succ_mul]

theorem length_flatMap_stride {f : α → List β} {k : Nat} {l : List α} (hk : ∀ a ∈ l, (f a).length = k) :
    (l.flatMap f).length = l.length * k := by
  have h := offsetOf_stride hk (le_refl l.length)
  rwa [offsetOf, List.take_length] at h

/-- **Row `i` of fixed-stride rows.** -/
theorem slice_chunk {f : α → List β} {k : Nat} {l : List α} (hk : ∀ a ∈ l, (f a).length = k) {i : Nat}
    (h : i < l.length) : slice (l.flatMap f) (i * k) k = some (f l[i]) := by
  have hs := slice_flatMap f h
  rwa [offsetOf_stride hk (by omega), hk _ (List.getElem_mem _)] at hs

/-- What a buffer holds, it still holds when more follows. -/
theorem slice_append_left {bs item : List β} {start len : Nat} (h : slice bs start len = some item)
    (rest : List β) : slice (bs ++ rest) start len = some item := by
  unfold slice at h ⊢
  by_cases hle : start + len ≤ bs.length
  · rw [if_pos hle] at h
    rw [if_pos (by rw [List.length_append]; omega), ← h, List.drop_append_of_le_length (by omega),
      List.take_append_of_le_length (by rw [List.length_drop]; omega)]
  · rw [if_neg hle] at h; cases h

/-- The item appended last is at the old end. -/
theorem slice_append_right (bs item : List β) : slice (bs ++ item) bs.length item.length = some item := by
  unfold slice
  rw [if_pos (by rw [List.length_append]), List.drop_left, List.take_length]

/-- Behind a known front, a buffer is what follows it. -/
theorem slice_append_skip (bs rest : List β) (start len : Nat) :
    slice (bs ++ rest) (bs.length + start) len = slice rest start len := by
  unfold slice
  rw [List.length_append, ← List.drop_drop, List.drop_left]
  by_cases h : start + len ≤ rest.length
  · rw [if_pos h, if_pos (by omega)]
  · rw [if_neg h, if_neg (by omega)]

end Parsing
