import IshaVectorDb.Beam.Search
import Mathlib.Data.List.Sort

/-!
# `Beam.Best` — the **first `k` of a list** in an order

A collector that holds `k` items at most and lets the last of them go needs no more than those to know what it would
hold after any more: `best_cons_best`. What it does with one more item is read off `best_of_last`: when it is full, the
last of the items it would hold falls out.
-/

namespace Beam

variable {α : Type}

section Order

variable (r : α → α → Prop) [DecidableRel r]

/-- The first `k` of a list in order. -/
def best (k : Nat) (l : List α) : List α := (l.insertionSort r).take k

/-- Inserting reaches the first `k` only through the first `k`. -/
theorem take_orderedInsert (c : α) (l : List α) (k : Nat) :
    (l.orderedInsert r c).take k = ((l.take k).orderedInsert r c).take k := by
  induction l generalizing k with
  | nil => rw [List.take_nil]
  | cons b l ih =>
    cases k with
    | zero => rfl
    | succ k =>
      rw [List.take_succ_cons, List.orderedInsert_cons, List.orderedInsert_cons]
      by_cases hcb : r c b
      · rw [if_pos hcb, if_pos hcb, List.take_succ_cons, List.take_succ_cons]
        cases k with
        | zero => rfl
        | succ k => rw [List.take_succ_cons, List.take_succ_cons, List.take_take, Nat.min_eq_left (Nat.le_succ k)]
      · rw [if_neg hcb, if_neg hcb, List.take_succ_cons, List.take_succ_cons, ih k]

theorem best_of_length_le {k : Nat} {l : List α} (h : l.length ≤ k) : best r k l = l.insertionSort r := by
  unfold best
  exact List.take_of_length_le (by rw [List.length_insertionSort]; exact h)

variable [Std.Total r] [IsTrans α r]

theorem best_pairwise (k : Nat) (l : List α) : (best r k l).Pairwise r :=
  (List.pairwise_insertionSort r l).sublist (List.take_sublist k _)

/-- An item is among the first `k`, or these are `k` and none of them comes after it. -/
theorem best_complete (k : Nat) {l : List α} {a : α} (h : a ∈ l) :
    a ∈ best r k l ∨ (best r k l).length = k ∧ ∀ b ∈ best r k l, r b a := by
  have hsplit : best r k l ++ (l.insertionSort r).drop k = l.insertionSort r := List.take_append_drop k _
  have hsorted := List.pairwise_insertionSort r l
  rw [← hsplit] at hsorted
  have hmem : a ∈ best r k l ++ (l.insertionSort r).drop k := by
    rw [hsplit]
    exact (List.mem_insertionSort r).mpr h
  rcases List.mem_append.mp hmem with hbest | hrest
  · exact .inl hbest
  · refine .inr ⟨?_, fun b hb => (List.pairwise_append.mp hsorted).2.2 b hb a hrest⟩
    have hpos := List.length_pos_of_mem hrest
    rw [List.length_drop] at hpos
    exact List.length_take.trans (Nat.min_eq_left (by omega))

/-- **What is not among the first `k` does not matter** to the first `k` with one more. -/
theorem best_cons_best (k : Nat) (c : α) (l : List α) : best r k (c :: best r k l) = best r k (c :: l) := by
  have hsorted : (best r k l).insertionSort r = best r k l := (best_pairwise r k l).insertionSort_eq
  unfold best at hsorted ⊢
  rw [List.insertionSort_cons, List.insertionSort_cons, hsorted]
  exact (take_orderedInsert r c (l.insertionSort r) k).symm

variable [Std.Antisymm r]

theorem insertionSort_perm {l l' : List α} (h : l.Perm l') : l.insertionSort r = l'.insertionSort r :=
  ((List.perm_insertionSort r l).trans (h.trans (List.perm_insertionSort r l').symm)).eq_of_pairwise'
    (List.pairwise_insertionSort r l) (List.pairwise_insertionSort r l')

/-- **The order of the list does not matter.** -/
theorem best_perm {l l' : List α} (h : l.Perm l') (k : Nat) : best r k l = best r k l' := by
  unfold best
  rw [insertionSort_perm r h]

/-- **Of one item too many the last falls out.** -/
theorem best_of_last {l kept : List α} {last : α} (h : l.Perm (last :: kept)) (hlast : ∀ a ∈ kept, r a last) :
    best r kept.length l = kept.insertionSort r := by
  have hsorted : (kept.insertionSort r ++ [last]).Pairwise r := by
    refine List.pairwise_append.mpr ⟨List.pairwise_insertionSort r kept, List.pairwise_singleton _ _, fun a ha b hb => ?_⟩
    obtain rfl := List.mem_singleton.mp hb
    exact hlast a ((List.mem_insertionSort r).mp ha)
  have hperm : (l.insertionSort r).Perm (kept.insertionSort r ++ [last]) :=
    (List.perm_insertionSort r l).trans (h.trans ((List.Perm.cons last (List.perm_insertionSort r kept).symm).trans
      (List.perm_append_singleton last _).symm))
  have heq : l.insertionSort r = kept.insertionSort r ++ [last] :=
    hperm.eq_of_pairwise' (List.pairwise_insertionSort r l) hsorted
  unfold best
  rw [heq]
  exact List.take_left' (List.length_insertionSort r kept)

end Order

/-! ## The foremost item -/

/-- Only an empty list has no foremost item. -/
theorem Queue.foremost_none {ahead : α → α → Bool} {l : List α} (h : Queue.foremost ahead l = none) : l = [] := by
  cases l with
  | nil => rfl
  | cons a l =>
    unfold Queue.foremost at h
    split at h <;> cases h

/-- **No item is ahead of the foremost one**, when `ahead` is the strict side of a total order. -/
theorem Queue.foremost_last {ahead : α → α → Bool} [Std.Total (fun a b => ahead a b = false)]
    [IsTrans α (fun a b => ahead a b = false)] {l : List α} {b : α} (h : Queue.foremost ahead l = some b) :
    ∀ a ∈ l, ahead a b = false := by
  have hself : ∀ a, ahead a a = false := fun a => (Std.Total.total (r := fun a b => ahead a b = false) a a).elim id id
  induction l generalizing b with
  | nil => cases h
  | cons c l ih =>
    unfold Queue.foremost at h
    intro a ha
    cases hrest : Queue.foremost ahead l with
    | none =>
      -- nothing is left behind the first item
      rw [hrest] at h
      obtain rfl := Option.some.inj h
      rw [Queue.foremost_none hrest] at ha
      obtain rfl := List.mem_singleton.mp ha
      exact hself a
    | some d =>
      rw [hrest] at h
      have hd := ih hrest
      obtain rfl := Option.some.inj h
      by_cases hdc : ahead d c = true
      · rw [if_pos hdc]
        rcases List.mem_cons.mp ha with rfl | ha
        · exact (Std.Total.total (r := fun a b => ahead a b = false) a d).resolve_right (by rw [hdc]; decide)
        · exact hd a ha
      · rw [if_neg hdc]
        rw [Bool.not_eq_true] at hdc
        rcases List.mem_cons.mp ha with rfl | ha
        · exact hself a
        · exact IsTrans.trans (r := fun a b => ahead a b = false) a d c (hd a ha) hdc

end Beam
