import Mathlib.Data.List.Basic
import Mathlib.Data.List.GetD
import Mathlib.Tactic.Common

/-!
# `Blocks.Sparse` — **one array kept in blocks**, some of them short and some not there

A long array is cut into blocks of one size, and each block is a list that may stop early: behind its end, and in a
block that is not there, the array is blank. `cell` reads such an array at one index, `window` at several in a row, and
`patched` is an array with a list written over it.

A loop that goes over a stretch of the array does so one block at a time. `slice_eq_window` and `cell_patch` are its
rounds: what a slice of one block shows, and what a write into one block changes. `window_add` and `patched_append` put
the rounds together.
-/

namespace Blocks

variable {α : Type}

/-! ## Arrays without an end -/

/-- The cells of a stretch. -/
def window (f : Nat → α) (start n : Nat) : List α := (List.range n).map (fun k => f (start + k))

theorem getElem?_window (f : Nat → α) (start n k : Nat) :
    (window f start n)[k]? = if k < n then some (f (start + k)) else none := by
  unfold window
  rw [List.getElem?_map]
  split
  · next hk => rw [List.getElem?_range hk]; rfl
  · next hk => rw [List.getElem?_eq_none (by rw [List.length_range]; omega)]; rfl

/-- A stretch is its first part and the rest. -/
theorem window_add (f : Nat → α) (start m n : Nat) :
    window f start (m + n) = window f start m ++ window f (start + m) n := by
  simp only [window, List.range_add, List.map_append, List.map_map, Function.comp_def, Nat.add_assoc]

/-- The array with `src` written from `start` on. -/
def patched (f : Nat → α) (src : List α) (start i : Nat) : α :=
  if start ≤ i then src.getD (i - start) (f i) else f i

@[simp] theorem patched_nil (f : Nat → α) (start : Nat) : patched f [] start = f := by
  funext i
  simp [patched]

theorem patched_before {f : Nat → α} {src : List α} {start i : Nat} (h : i < start) : patched f src start i = f i :=
  if_neg (Nat.not_le.mpr h)

theorem patched_behind {f : Nat → α} {src : List α} {start i : Nat} (h : start + src.length ≤ i) :
    patched f src start i = f i := by
  unfold patched
  rw [if_pos (by omega), List.getD_eq_default _ _ (by omega)]

/-- Writing two lists behind each other is writing the first, then the second. -/
theorem patched_append (f : Nat → α) (a b : List α) (start : Nat) :
    patched f (a ++ b) start = patched (patched f a start) b (start + a.length) := by
  funext i
  rcases Nat.lt_or_ge i start with hbefore | hstart
  · rw [patched_before hbefore, patched_before (by omega), patched_before hbefore]
  · rcases Nat.lt_or_ge i (start + a.length) with hfirst | hsecond
    · rw [patched_before hfirst]
      unfold patched
      rw [if_pos hstart, if_pos hstart, List.getD_append _ _ _ _ (by omega)]
    · unfold patched
      rw [if_pos hstart, if_pos hsecond, if_pos hstart, List.getD_append_right _ _ _ _ (by omega),
        List.getD_eq_default a _ (by omega), Nat.sub_sub]

/-! ## Blocks -/

section

variable {size start k : Nat}

theorem div_within (h : start % size + k < size) : (start + k) / size = start / size := by
  have hstart := Nat.div_add_mod start size
  rw [Nat.div_eq_iff (by omega)]
  constructor
  · rw [Nat.mul_comm]; omega
  · rw [Nat.mul_comm]; omega

theorem mod_within (h : start % size + k < size) : (start + k) % size = start % size + k := by
  have hstart := Nat.div_add_mod start size
  have hk := Nat.div_add_mod (start + k) size
  rw [div_within h] at hk
  omega

end

section

variable (blank : α) {size : Nat} (block : Nat → List α)

/-- **The array that the blocks make up**, at one index. -/
def cell (size : Nat) (i : Nat) : α := (block (i / size)).getD (i % size) blank

/-- **One round of a read**: the slice of a block, filled up with blanks, is a stretch of the array. -/
theorem slice_eq_window {start n : Nat} (h : start % size + n ≤ size) :
    (((block (start / size)).drop (start % size)).take n) ++
        List.replicate (n - (((block (start / size)).drop (start % size)).take n).length) blank =
      window (cell blank block size) start n := by
  apply List.ext_getElem?
  intro k
  rw [getElem?_window]
  rcases Nat.lt_or_ge k n with hk | hk
  · rw [if_pos hk]
    unfold cell
    rw [div_within (by omega), mod_within (by omega), List.getElem?_append]
    split
    · next hin =>
      rw [List.getElem?_take, if_pos hk, List.getElem?_drop]
      rw [List.length_take, List.length_drop] at hin
      rw [List.getD_eq_getElem _ _ (by omega), List.getElem?_eq_getElem (by omega)]
    · next hout =>
      rw [List.length_take, List.length_drop] at hout ⊢
      rw [List.getD_eq_default _ _ (by omega), List.getElem?_replicate, if_pos (by omega)]
  · rw [if_neg (by omega), List.getElem?_eq_none]
    rw [List.length_append, List.length_replicate, List.length_take]
    omega

/-- **One round of a write**: a block that is written into, with the others as they were, is the array written into. -/
theorem cell_patch {start : Nat} {src : List α} (h : start % size + src.length ≤ size) {block' : Nat → List α}
    (hnew : ∀ j, (block' (start / size)).getD j blank =
      patched (fun j => (block (start / size)).getD j blank) src (start % size) j)
    (hothers : ∀ n, n ≠ start / size → block' n = block n) :
    cell blank block' size = patched (cell blank block size) src start := by
  funext i
  by_cases hin : start ≤ i ∧ i < start + src.length
  · obtain ⟨k, rfl⟩ := Nat.exists_eq_add_of_le hin.1
    unfold cell
    rw [div_within (by omega), mod_within (by omega), hnew]
    unfold patched
    rw [if_pos (by omega), if_pos (by omega), Nat.add_sub_cancel_left, Nat.add_sub_cancel_left,
      List.getD_eq_getElem _ _ (by omega), List.getD_eq_getElem _ _ (by omega)]
  · have hsame : patched (cell blank block size) src start i = cell blank block size i := by
      rcases Nat.lt_or_ge i start with hlow | hlow
      · exact patched_before hlow
      · exact patched_behind (by omega)
    rw [hsame]
    unfold cell
    by_cases hblock : i / size = start / size
    · rw [hblock, hnew]
      have hi := Nat.div_add_mod i size
      have hstart := Nat.div_add_mod start size
      rw [hblock] at hi
      rcases Nat.lt_or_ge (i % size) (start % size) with hlow | hlow
      · exact patched_before hlow
      · exact patched_behind (by omega)
    · rw [hothers _ hblock]

end

end Blocks
