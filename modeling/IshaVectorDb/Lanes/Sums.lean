import Mathlib.Algebra.BigOperators.Fin
import Mathlib.Algebra.BigOperators.Intervals
import Mathlib.Data.List.Perm.Basic
import Mathlib.Tactic.Abel

/-!
# `Lanes.Sums` — a sum over two arrays, **several lanes at a time**

A vector loop goes over two arrays in blocks of a register's width. It keeps one partial sum a lane, in one accumulator
or in two that take turns, folds the lanes when less than a block is left, and adds what is left element by element.
`Traced` computations record which elements they read, so that a loop's reads are part of what it does.

`twoWide_does` and `oneWide_does` are what such loops compute in exact arithmetic: for any width, the sum of every term
below the length, each element of each array read once and nothing else.
-/

namespace Lanes

/-! ## Computations that read -/

inductive Operand
  | left
  | right
deriving DecidableEq, Repr

/-- A value, and the elements read for it in their order. -/
structure Traced (α : Type) where
  value : α
  reads : List (Operand × Nat)

instance : Monad Traced where
  pure a := ⟨a, []⟩
  bind x f := ⟨(f x.value).value, x.reads ++ (f x.value).reads⟩

/-- **What a computation does**: its value is so, and it reads these elements, in whatever order. -/
structure Does {α : Type} (x : Traced α) (P : α → Prop) (reads : List (Operand × Nat)) : Prop where
  value : P x.value
  reads : x.reads.Perm reads

namespace Does

variable {α β : Type} {x : Traced α} {f : α → Traced β} {P P' : α → Prop} {Q : β → Prop} {s s' t : List (Operand × Nat)}

theorem pure {a : α} (h : P a) : Does (Pure.pure a : Traced α) P [] := ⟨h, .refl []⟩

theorem bind (hx : Does x P s) (hf : ∀ a, P a → Does (f a) Q t) : Does (x >>= f) Q (s ++ t) :=
  ⟨(hf _ hx.value).value, hx.reads.append (hf _ hx.value).reads⟩

theorem weaken (h : Does x P s) (hP : ∀ a, P a → P' a) (hs : s.Perm s') : Does x P' s' :=
  ⟨hP _ h.value, h.reads.trans hs⟩

end Does

/-! ## Arrays and registers -/

variable {R : Type}

/-- What lies at each place of the two arrays, and beyond them. -/
abbrev Memory (R : Type) := Operand → Nat → R

/-- A register of `w` lanes. -/
abbrev Register (w : Nat) (R : Type) := Fin w → R

/-- One element. -/
def read (m : Memory R) (o : Operand) (i : Nat) : Traced R := ⟨m o i, [(o, i)]⟩

/-- A register's width of elements from a place on. -/
def load (m : Memory R) (w : Nat) (o : Operand) (i : Nat) : Traced (Register w R) :=
  ⟨fun l => m o (i + l), (List.range' i w).map (fun j => (o, j))⟩

/-- Both arrays' elements from `lo` up to `hi`. -/
def span (lo hi : Nat) : List (Operand × Nat) := (List.range' lo (hi - lo)).flatMap (fun j => [(.left, j), (.right, j)])

theorem span_self (i : Nat) : span i i = [] := by
  unfold span
  rw [Nat.sub_self]
  rfl

theorem span_append {lo mid hi : Nat} (h : lo ≤ mid) (h' : mid ≤ hi) : span lo mid ++ span mid hi = span lo hi := by
  unfold span
  have hlen : hi - lo = (mid - lo) + (hi - mid) := by omega
  rw [← List.flatMap_append, hlen, ← List.range'_append_1, Nat.add_sub_cancel' h]

theorem span_one (i : Nat) : span i (i + 1) = [(.left, i), (.right, i)] := by
  unfold span
  rw [Nat.add_sub_cancel_left]
  rfl

/-- A block of each array is a span. -/
theorem blocks_perm (i w : Nat) : ((List.range' i w).map (fun j => (Operand.left, j)) ++
    (List.range' i w).map (fun j => (Operand.right, j))).Perm (span i (i + w)) := by
  unfold span
  rw [Nat.add_sub_cancel_left]
  have h := List.map_append_flatMap_perm (List.range' i w) (fun j => (Operand.left, j)) (fun j => [(Operand.right, j)])
  rwa [← List.map_eq_flatMap] at h

/-! ## Loops -/

section Loops

variable (m : Memory R) (n w : Nat)

/-- Load a block of each array and put it into an accumulator. -/
def block (step : Register w R → Register w R → Register w R → Register w R) (acc : Register w R) (i : Nat) :
    Traced (Register w R) := do
  let x ← load m w .left i
  let y ← load m w .right i
  return step acc x y

/-- Two blocks a round, each with its own accumulator. -/
def twoWide [NeZero w] (step : Register w R → Register w R → Register w R → Register w R) (i : Nat)
    (acc0 acc1 : Register w R) : Traced (Nat × Register w R × Register w R) :=
  if _h : i + 2 * w ≤ n then do
    let acc0 ← block m w step acc0 i
    let acc1 ← block m w step acc1 (i + w)
    twoWide step (i + 2 * w) acc0 acc1
  else return (i, acc0, acc1)
termination_by n - i
decreasing_by
  have := NeZero.pos w
  omega

/-- One block a round. -/
def oneWide [NeZero w] (step : Register w R → Register w R → Register w R → Register w R) (i : Nat)
    (acc : Register w R) : Traced (Nat × Register w R) :=
  if _h : i + w ≤ n then do
    let acc ← block m w step acc i
    oneWide step (i + w) acc
  else return (i, acc)
termination_by n - i
decreasing_by
  have := NeZero.pos w
  omega

/-- What is left, element by element. -/
def tail (step : R → R → R → R) (i : Nat) (sum : R) : Traced R :=
  if _h : i < n then do
    let x ← read m .left i
    let y ← read m .right i
    tail step (i + 1) (step sum x y)
  else return sum
termination_by n - i

/-- One block more, if there is one. -/
def oneMore (step : Register w R → Register w R → Register w R → Register w R) (i : Nat) (acc : Register w R) :
    Traced (Nat × Register w R) :=
  if i + w ≤ n then do
    let acc ← block m w step acc i
    return (i + w, acc)
  else return (i, acc)

/-- **A loop with two accumulators**, then one block more if there is one, the lanes folded, and the tail. -/
def twoAccumulators [Zero R] [Add R] [NeZero w] (step : Register w R → Register w R → Register w R → Register w R)
    (horizontal : Register w R → R) (tailStep : R → R → R → R) : Traced R := do
  let (i, acc0, acc1) ← twoWide m n w step 0 (fun _ => 0) (fun _ => 0)
  let (i, acc0) ← oneMore m n w step i acc0
  tail m n tailStep i (horizontal (fun l => acc0 l + acc1 l))

/-- **A loop with one accumulator**, the lanes folded, and the tail. -/
def oneAccumulator [Zero R] [NeZero w] (step : Register w R → Register w R → Register w R → Register w R)
    (horizontal : Register w R → R) (tailStep : R → R → R → R) : Traced R := do
  let (i, acc) ← oneWide m n w step 0 (fun _ => 0)
  tail m n tailStep i (horizontal acc)

end Loops

/-! ## What the loops do -/

section Spec

variable [AddCommMonoid R] (m : Memory R) (term : R → R → R) {n w : Nat}

/-- The sum of the terms from `lo` up to `hi`. -/
def total (lo hi : Nat) : R := ∑ j ∈ Finset.Ico lo hi, term (m .left j) (m .right j)

theorem total_append {lo mid hi : Nat} (h : lo ≤ mid) (h' : mid ≤ hi) :
    total m term lo mid + total m term mid hi = total m term lo hi := Finset.sum_Ico_consecutive _ h h'

theorem total_self (i : Nat) : total m term i i = 0 := by
  unfold total
  rw [Finset.Ico_self, Finset.sum_empty]

theorem total_one (i : Nat) : total m term i (i + 1) = term (m .left i) (m .right i) := by
  unfold total
  rw [Nat.Ico_succ_singleton, Finset.sum_singleton]

theorem total_block (i w : Nat) :
    ∑ l : Fin w, term (m .left (i + l)) (m .right (i + l)) = total m term i (i + w) := by
  unfold total
  rw [Finset.sum_Ico_eq_sum_range, Nat.add_sub_cancel_left, Finset.sum_range]

/-- A step that adds each lane's term to its accumulator. -/
def AddsTerms (step : Register w R → Register w R → Register w R → Register w R) : Prop :=
  ∀ acc x y l, step acc x y l = acc l + term (x l) (y l)

variable {m term} {step : Register w R → Register w R → Register w R → Register w R}

theorem block_does (hstep : AddsTerms term step) (acc : Register w R) (i : Nat) :
    Does (block m w step acc i) (fun acc' => ∑ l, acc' l = ∑ l, acc l + total m term i (i + w)) (span i (i + w)) := by
  refine ⟨?_, ?_⟩
  · show ∑ l, step acc (fun l => m .left (i + l)) (fun l => m .right (i + l)) l = _
    rw [← total_block, ← Finset.sum_add_distrib]
    exact Finset.sum_congr rfl (fun l _ => hstep acc _ _ l)
  · show ((List.range' i w).map _ ++ ((List.range' i w).map _ ++ [])).Perm _
    rw [List.append_nil]
    exact blocks_perm i w

/-- Where a loop of whole strides stops. -/
def stopAt (stride n i : Nat) : Nat := i + (n - i) / stride * stride

theorem le_stopAt (stride n i : Nat) : i ≤ stopAt stride n i := Nat.le_add_right _ _

theorem stopAt_le (stride : Nat) {n i : Nat} (hi : i ≤ n) : stopAt stride n i ≤ n := by
  have := Nat.div_mul_le_self (n - i) stride
  unfold stopAt
  omega

theorem stopAt_step (stride : Nat) {n i : Nat} (hpos : 0 < stride) (h : i + stride ≤ n) :
    stopAt stride n (i + stride) = stopAt stride n i := by
  unfold stopAt
  have hsub : n - i = n - (i + stride) + stride := by omega
  rw [hsub, Nat.add_div_right _ hpos, Nat.succ_mul]
  omega

theorem stopAt_done {stride n i : Nat} (hpos : 0 < stride) (h : n < i + stride) : stopAt stride n i = i := by
  unfold stopAt
  rw [Nat.div_eq_of_lt (by omega), Nat.zero_mul, Nat.add_zero]

/-- **The loop with two accumulators** stops where no two blocks are left, with the terms up to there in them. -/
theorem twoWide_does [NeZero w] (hstep : AddsTerms term step) {i : Nat} (hi : i ≤ n) (acc0 acc1 : Register w R) :
    Does (twoWide m n w step i acc0 acc1)
      (fun r => r.1 = stopAt (2 * w) n i ∧
        ∑ l, r.2.1 l + ∑ l, r.2.2 l = ∑ l, acc0 l + ∑ l, acc1 l + total m term i (stopAt (2 * w) n i))
      (span i (stopAt (2 * w) n i)) := by
  induction hk : n - i using Nat.strong_induction_on generalizing i acc0 acc1 with
  | _ k ih =>
    have hpos := NeZero.pos w
    unfold twoWide
    split
    · rename_i hroom
      have hstop := stopAt_step (2 * w) (by omega) hroom
      have hge := le_stopAt (2 * w) n (i + 2 * w)
      rw [hstop] at hge
      refine Does.weaken ((block_does hstep acc0 i).bind (t := span (i + w) (stopAt (2 * w) n i)) (fun a0 h0 => ?_))
        (fun _ h => h) (by rw [span_append (Nat.le_add_right _ _) (by omega)])
      refine Does.weaken ((block_does hstep acc1 (i + w)).bind (t := span (i + 2 * w) (stopAt (2 * w) n i))
        (fun a1 h1 => ?_)) (fun _ h => h) ?_
      · refine (ih (n - (i + 2 * w)) (by omega) hroom a0 a1 rfl).weaken (fun r hr => ?_) (by rw [hstop])
        rw [hstop] at hr
        refine ⟨hr.1, ?_⟩
        rw [hr.2, h0, h1, ← total_append m term (Nat.le_add_right i w) (show i + w ≤ stopAt (2 * w) n i by omega),
          ← total_append m term (show i + w ≤ i + 2 * w by omega) hge, show i + w + w = i + 2 * w by omega]
        abel
      · rw [show i + w + w = i + 2 * w by omega, span_append (by omega) hge]
    · rename_i hfull
      rw [stopAt_done (by omega) (by omega), span_self, total_self]
      exact Does.pure ⟨rfl, (add_zero _).symm⟩

/-- **The loop with one accumulator.** -/
theorem oneWide_does [NeZero w] (hstep : AddsTerms term step) {i : Nat} (hi : i ≤ n) (acc : Register w R) :
    Does (oneWide m n w step i acc)
      (fun r => r.1 = stopAt w n i ∧ ∑ l, r.2 l = ∑ l, acc l + total m term i (stopAt w n i)) (span i (stopAt w n i)) := by
  induction hk : n - i using Nat.strong_induction_on generalizing i acc with
  | _ k ih =>
    have hpos := NeZero.pos w
    unfold oneWide
    split
    · rename_i hroom
      have hstop := stopAt_step _ hpos hroom
      have hge := le_stopAt w n (i + w)
      rw [hstop] at hge
      refine Does.weaken ((block_does hstep acc i).bind (t := span (i + w) (stopAt w n i)) (fun a ha => ?_))
        (fun _ h => h) (by rw [span_append (Nat.le_add_right _ _) hge])
      refine (ih (n - (i + w)) (by omega) hroom a rfl).weaken (fun r hr => ?_) (by rw [hstop])
      rw [hstop] at hr
      refine ⟨hr.1, ?_⟩
      rw [hr.2, ha, add_assoc, total_append m term (Nat.le_add_right i w) hge]
    · rename_i hfull
      rw [stopAt_done hpos (by omega), span_self, total_self]
      exact Does.pure ⟨rfl, (add_zero _).symm⟩

/-- **The scalar tail** adds the terms that are left. -/
theorem tail_does {step : R → R → R → R} (hstep : ∀ sum x y, step sum x y = sum + term x y) {i : Nat} (hi : i ≤ n)
    (sum : R) : Does (tail m n step i sum) (fun r => r = sum + total m term i n) (span i n) := by
  induction hk : n - i generalizing i sum with
  | zero =>
    obtain rfl : i = n := by omega
    unfold tail
    rw [dif_neg (Nat.lt_irrefl i), span_self, total_self]
    exact Does.pure (add_zero _).symm
  | succ k ih =>
    have hlt : i < n := by omega
    unfold tail
    rw [dif_pos hlt]
    have hnext := ih (i := i + 1) hlt (step sum (m .left i) (m .right i)) (by omega)
    refine ⟨?_, ?_⟩
    · show (tail m n step (i + 1) (step sum (m .left i) (m .right i))).value = _
      rw [hnext.value, hstep, add_assoc, ← total_one m term i, total_append m term (Nat.le_succ i) hlt]
    · rw [← span_append (Nat.le_succ i) hlt, span_one]
      exact hnext.reads.append_left [(.left, i), (.right, i)]

/-- Folding the lanes of a register: their sum. -/
def Folds (horizontal : Register w R → R) : Prop := ∀ v, horizontal v = ∑ l, v l

variable {horizontal : Register w R → R} {tailStep : R → R → R → R}

/-- Where one block more leaves off. -/
def moreAt (w n i : Nat) : Nat := if i + w ≤ n then i + w else i

theorem le_moreAt (w n i : Nat) : i ≤ moreAt w n i := by
  unfold moreAt
  split <;> omega

theorem moreAt_le {w n i : Nat} (hi : i ≤ n) : moreAt w n i ≤ n := by
  unfold moreAt
  split <;> omega

theorem oneMore_does (hstep : AddsTerms term step) (i : Nat) (acc : Register w R) :
    Does (oneMore m n w step i acc)
      (fun r => r.1 = moreAt w n i ∧ ∑ l, r.2 l = ∑ l, acc l + total m term i (moreAt w n i)) (span i (moreAt w n i)) := by
  unfold oneMore moreAt
  split
  · exact ((block_does hstep acc i).bind (fun a ha => Does.pure ⟨rfl, ha⟩)).weaken (fun _ h => h)
      (by rw [List.append_nil])
  · rw [span_self, total_self]
    exact Does.pure ⟨rfl, (add_zero _).symm⟩

theorem twoAccumulators_does [NeZero w] (hstep : AddsTerms term step) (hfold : Folds horizontal)
    (htail : ∀ sum x y, tailStep sum x y = sum + term x y) :
    Does (twoAccumulators m n w step horizontal tailStep) (fun r => r = total m term 0 n) (span 0 n) := by
  have hle := stopAt_le (2 * w) (Nat.zero_le n)
  have hge := le_moreAt w n (stopAt (2 * w) n 0)
  have hmore : moreAt w n (stopAt (2 * w) n 0) ≤ n := moreAt_le hle
  refine Does.weaken ((twoWide_does hstep (Nat.zero_le n) _ _).bind (t := span (stopAt (2 * w) n 0) n) ?_)
    (fun _ h => h) (by rw [span_append (Nat.zero_le _) hle])
  rintro ⟨i, acc0, acc1⟩ ⟨rfl, hsum⟩
  rw [Finset.sum_const_zero, zero_add, zero_add] at hsum
  refine Does.weaken ((oneMore_does hstep _ acc0).bind (t := span (moreAt w n (stopAt (2 * w) n 0)) n) ?_)
    (fun _ h => h) (by rw [span_append hge hmore])
  rintro ⟨i, acc⟩ ⟨rfl, hacc⟩
  refine (tail_does htail hmore _).weaken (fun r hr => ?_) (.refl _)
  dsimp only at hacc hsum
  have hlanes : ∑ l, (acc l + acc1 l) = total m term 0 (moreAt w n (stopAt (2 * w) n 0)) := by
    rw [Finset.sum_add_distrib, hacc, add_right_comm, hsum, total_append m term (Nat.zero_le _) hge]
  rw [hr, hfold, hlanes, total_append m term (Nat.zero_le _) hmore]

theorem oneAccumulator_does [NeZero w] (hstep : AddsTerms term step) (hfold : Folds horizontal)
    (htail : ∀ sum x y, tailStep sum x y = sum + term x y) :
    Does (oneAccumulator m n w step horizontal tailStep) (fun r => r = total m term 0 n) (span 0 n) := by
  have hle := stopAt_le w (Nat.zero_le n)
  refine Does.weaken ((oneWide_does hstep (Nat.zero_le n) _).bind (t := span (stopAt w n 0) n) ?_)
    (fun _ h => h) (by rw [span_append (Nat.zero_le _) hle])
  rintro ⟨i, acc⟩ ⟨rfl, hsum⟩
  rw [Finset.sum_const_zero, zero_add] at hsum
  refine (tail_does htail hle _).weaken (fun r hr => ?_) (.refl _)
  dsimp only at hsum
  rw [hr, hfold, hsum, total_append m term (Nat.zero_le _) hle]

/-! ## Lists in memory -/

/-- The memory of two lists: beyond their ends there may be anything. -/
structure Holds (m : Memory R) (a b : List R) : Prop where
  left : ∀ i (h : i < a.length), m .left i = a[i]
  right : ∀ i (h : i < b.length), m .right i = b[i]

/-- The sum of all the terms is the sum over the zipped lists. -/
theorem total_zip {a b : List R} (h : Holds m a b) :
    total m term 0 (min a.length b.length) = ((a.zip b).map (fun p => term p.1 p.2)).sum := by
  have hlist : (a.zip b).map (fun p => term p.1 p.2) =
      List.ofFn (fun i : Fin (min a.length b.length) => term (m .left i) (m .right i)) := by
    apply List.ext_getElem
    · rw [List.length_map, List.length_zip, List.length_ofFn]
    · intro i hi _
      rw [List.length_map, List.length_zip] at hi
      rw [List.getElem_map, List.getElem_zip, List.getElem_ofFn, h.left i (by omega), h.right i (by omega)]
  rw [hlist, List.sum_ofFn]
  unfold total
  rw [← Finset.range_eq_Ico, Finset.sum_range]

/-- In a span each element is read once, and no other is. -/
theorem count_span (n : Nat) (o : Operand) (i : Nat) : (span 0 n).count (o, i) = if i < n then 1 else 0 := by
  unfold span
  rw [Nat.sub_zero, ← List.range_eq_range']
  induction n with
  | zero => rfl
  | succ n ih =>
    rw [List.range_succ, List.flatMap_append, List.count_append, ih, List.flatMap_singleton]
    by_cases hi : i = n
    · subst hi
      rw [if_neg (Nat.lt_irrefl i), if_pos (Nat.lt_succ_self i)]
      cases o <;> simp
    · have hout : List.count (o, i) [(Operand.left, n), (Operand.right, n)] = 0 := by
        rw [List.count_eq_zero]
        simp [hi]
      rw [hout]
      split <;> split <;> omega

end Spec

end Lanes
