import IshaVectorDb.Beam.Best
import IshaVectorDb.Engine.Query

/-!
# `Correctness.TopK` — the collector keeps **the best `k`**

The collector holds `k` candidates at most and replaces the worst of them when a better one is offered. `Holds` says that
what it keeps is the best of all that was offered and is not below the minimum; `Holds.offer` is one offer and
`Holds.offerAll` any sequence. So what it gives at the end is the front of the sorted offers, in whatever order they came
(`intoSorted_exact`).
-/

namespace IshaVectorDb.Index

open Format Beam Engine

namespace TopK

variable {t : TopK} {c : Candidate} {cs : List Candidate}

/-! ## One offer -/

theorem offer_k (t : TopK) (c : Candidate) : (t.offer c).1.k = t.k ∧ (t.offer c).1.minScore = t.minScore := by
  unfold offer
  dsimp only
  split
  · exact ⟨rfl, rfl⟩
  split
  · exact ⟨rfl, rfl⟩
  split
  · exact ⟨rfl, rfl⟩
  split
  · split <;> exact ⟨rfl, rfl⟩
  · exact ⟨rfl, rfl⟩

/-- What is kept was kept before, or is the candidate offered. -/
theorem offer_subperm (t : TopK) (c : Candidate) : (t.offer c).1.heap.Subperm (c :: t.heap) := by
  have hsame : t.heap.Subperm (c :: t.heap) := (List.sublist_cons_self c t.heap).subperm
  unfold offer
  dsimp only
  split
  · exact hsame
  split
  · exact hsame
  split
  · exact .refl _
  split
  · split
    · exact (List.erase_sublist.cons_cons c).subperm
    · exact hsame
  · exact hsame

/-- Without a minimum, a candidate is turned away only by a full collector. -/
theorem offer_length (hmin : t.minScore = none) (hle : t.heap.length ≤ t.k) (c : Candidate) :
    (t.offer c).1.heap.length = min t.k (t.heap.length + 1) := by
  unfold offer
  dsimp only
  rw [hmin]
  split
  · rename_i hzero
    show t.heap.length = _
    omega
  rw [if_neg (by simp)]
  split
  · show t.heap.length + 1 = _
    omega
  rename_i hpos hfull
  split
  · rename_i worst hworst
    have hmem := Queue.foremost_mem hworst
    split
    · show (t.heap.erase worst).length + 1 = _
      rw [List.length_erase_of_mem hmem]
      have := List.length_pos_of_mem hmem
      omega
    · show t.heap.length = _
      omega
  · show t.heap.length = _
    omega

theorem offerAll_subperm (t : TopK) (cs : List Candidate) : (t.offerAll cs).heap.Subperm (cs ++ t.heap) := by
  induction cs generalizing t with
  | nil => exact .refl _
  | cons c cs ih =>
    have hrest := ih (t.offer c).1
    have hstep : (cs ++ (t.offer c).1.heap).Subperm (cs ++ c :: t.heap) := (List.subperm_append_left cs).mpr (offer_subperm t c)
    exact (hrest.trans hstep).trans List.perm_middle.subperm

theorem offerAll_length (hmin : t.minScore = none) (hle : t.heap.length ≤ t.k) (cs : List Candidate) :
    (t.offerAll cs).heap.length = min t.k (t.heap.length + cs.length) := by
  induction cs generalizing t with
  | nil => show t.heap.length = min t.k (t.heap.length + 0); omega
  | cons c cs ih =>
    have hstep := offer_length hmin hle c
    obtain ⟨hk, hm⟩ := offer_k t c
    show ((t.offer c).1.offerAll cs).heap.length = _
    rw [ih (hm.trans hmin) (by rw [hstep, hk]; exact Nat.min_le_left _ _), hk, hstep, List.length_cons]
    omega

/-! ## The order of the candidates -/

theorem totalKey_inj {a b : UInt32} (h : totalKey a = totalKey b) : a = b := by
  have ha := a.toNat_lt
  have hb := b.toNat_lt
  apply UInt32.toNat.inj
  unfold totalKey at h
  split at h <;> split at h <;> omega

/-- What is less as a number is less in the total order. -/
theorem totalKey_lt_of_gt {a b : UInt32} (h : Score.gt a b = true) : totalKey b < totalKey a := by
  have ha := a.toNat_lt
  have hb := b.toNat_lt
  obtain ⟨x, y, hx, hy, hlt⟩ := Score.gt_iff.mp h
  unfold Score.key at hx hy
  unfold totalKey
  dsimp only at hx hy
  split at hx
  · cases hx
  split at hy
  · cases hy
  obtain rfl := Option.some.inj hx
  obtain rfl := Option.some.inj hy
  split_ifs at hlt ⊢ <;> omega

/-- `a` gives way before `b`, as a relation of their keys. -/
theorem worse_iff {a b : Candidate} : worse a b = true ↔
    totalKey a.score < totalKey b.score ∨ totalKey a.score = totalKey b.score ∧ b.row.value < a.row.value := by
  unfold worse
  simp

theorem not_worse_iff {a b : Candidate} : worse a b = false ↔
    totalKey b.score < totalKey a.score ∨ totalKey a.score = totalKey b.score ∧ a.row.value ≤ b.row.value := by
  rw [← Bool.not_eq_true, worse_iff, UInt64.lt_iff_toNat_lt, UInt64.le_iff_toNat_le]
  omega

instance : Std.Total (fun a b : Candidate => worse a b = false) where
  total a b := by
    rw [not_worse_iff, not_worse_iff, UInt64.le_iff_toNat_le, UInt64.le_iff_toNat_le]
    omega

instance : IsTrans Candidate (fun a b => worse a b = false) where
  trans a b c := by
    rw [not_worse_iff, not_worse_iff, not_worse_iff, UInt64.le_iff_toNat_le, UInt64.le_iff_toNat_le, UInt64.le_iff_toNat_le]
    omega

instance : Std.Antisymm (fun a b : Candidate => worse a b = false) where
  antisymm a b := by
    rw [not_worse_iff, not_worse_iff, UInt64.le_iff_toNat_le, UInt64.le_iff_toNat_le]
    intro hab hba
    have hscore : a.score = b.score := totalKey_inj (by omega)
    have hrow : a.row.value = b.row.value := UInt64.toNat.inj (by omega)
    cases a with
    | mk row score =>
      cases b with
      | mk row' score' =>
        cases row
        cases row'
        simp only at hscore hrow
        rw [hscore, hrow]

/-! ## What is kept -/

/-- A score that is not below the minimum. -/
def AtLeast (minScore : Option UInt32) (c : Candidate) : Bool := !minScore.any (fun least => Score.gt least c.score)

/-- The best so many of some offers. -/
def bestOf (k : Nat) (minScore : Option UInt32) (cs : List Candidate) : List Candidate :=
  best (fun a b => worse a b = false) k (cs.filter (AtLeast minScore))

/-- **The collector holds the best** of what was offered to it. -/
def Holds (t : TopK) (cs : List Candidate) : Prop := t.heap.Perm (bestOf t.k t.minScore cs)

theorem Holds.length_le (h : t.Holds cs) : t.heap.length ≤ t.k := by
  rw [h.length_eq]
  exact List.length_take_le _ _

/-- What one more offer would leave, said of what is kept. -/
theorem Holds.cons_accepted (h : t.Holds cs) (hc : AtLeast t.minScore c = true) :
    bestOf t.k t.minScore (c :: cs) = best (fun a b => worse a b = false) t.k (c :: t.heap) := by
  unfold bestOf
  rw [List.filter_cons_of_pos hc, ← best_cons_best]
  exact best_perm _ (List.Perm.cons c h.symm) _

/-- **One offer.** -/
theorem Holds.offer (h : t.Holds cs) (c : Candidate) : (t.offer c).1.Holds (c :: cs) := by
  obtain ⟨hk, hmin⟩ := offer_k t c
  have hle := h.length_le
  unfold Holds
  rw [hk, hmin]
  unfold TopK.offer
  dsimp only
  by_cases hzero : t.k = 0
  · -- nothing is collected
    rw [if_pos hzero]
    have hempty : t.heap = [] := List.length_eq_zero_iff.mp (by omega)
    rw [hempty, hzero]
    exact .refl _
  rw [if_neg hzero]
  by_cases hbelow : t.minScore.any (fun least => Score.gt least c.score) = true
  · rw [if_pos hbelow]
    have hc : ¬ AtLeast t.minScore c = true := by
      unfold AtLeast
      rw [hbelow]
      decide
    unfold bestOf
    rw [List.filter_cons_of_neg hc]
    exact h
  rw [if_neg hbelow]
  have hc : AtLeast t.minScore c = true := by
    unfold AtLeast
    rw [Bool.not_eq_true] at hbelow
    rw [hbelow]
    rfl
  rw [h.cons_accepted hc]
  by_cases hroom : t.heap.length < t.k
  · rw [if_pos hroom, best_of_length_le _ (by rw [List.length_cons]; omega)]
    exact (List.perm_insertionSort _ _).symm
  rw [if_neg hroom]
  have hfull : t.heap.length = t.k := by omega
  cases hworst : Queue.foremost worse t.heap with
  | none =>
    -- a full collector has a worst candidate
    have := Queue.foremost_none hworst
    rw [this] at hfull
    exact absurd hfull.symm hzero
  | some worst =>
    have hmem := Queue.foremost_mem hworst
    have hlast := Queue.foremost_last hworst
    dsimp only
    by_cases hbetter : worse worst c = true
    · -- the worst gives way
      rw [if_pos hbetter]
      have hlen : (c :: t.heap.erase worst).length = t.k := by
        rw [List.length_cons, List.length_erase_of_mem hmem]
        omega
      have hperm : (c :: t.heap).Perm (worst :: c :: t.heap.erase worst) :=
        ((List.perm_cons_erase hmem).cons c).trans (.swap _ _ _)
      rw [← hlen, best_of_last _ hperm]
      · exact (List.perm_insertionSort _ _).symm
      · intro a ha
        rcases List.mem_cons.mp ha with rfl | ha
        · exact (Std.Total.total (r := fun a b => worse a b = false) a worst).resolve_right (by rw [hbetter]; decide)
        · exact hlast a (List.mem_of_mem_erase ha)
    · -- the newcomer is no better than the worst
      rw [if_neg hbetter]
      rw [Bool.not_eq_true] at hbetter
      rw [← hfull, best_of_last _ (.refl _)]
      · exact (List.perm_insertionSort _ _).symm
      · intro a ha
        exact IsTrans.trans (r := fun a b => worse a b = false) a worst c (hlast a ha) hbetter

/-! ## Any sequence of offers -/

theorem Holds.new (k : Nat) (minScore : Option UInt32) : (TopK.new k minScore).Holds [] := by
  show List.Perm [] ([].take k)
  rw [List.take_nil]

theorem Holds.offerAll {before : List Candidate} (h : t.Holds before) (cs : List Candidate) :
    (t.offerAll cs).Holds (cs.reverse ++ before) := by
  induction cs generalizing t before with
  | nil => exact h
  | cons c cs ih =>
    rw [List.reverse_cons, List.append_assoc]
    exact ih (h.offer c)

theorem offerAll_k (t : TopK) (cs : List Candidate) : (t.offerAll cs).k = t.k ∧ (t.offerAll cs).minScore = t.minScore := by
  induction cs generalizing t with
  | nil => exact ⟨rfl, rfl⟩
  | cons c cs ih =>
    obtain ⟨hk, hmin⟩ := ih (t.offer c).1
    obtain ⟨hk', hmin'⟩ := offer_k t c
    exact ⟨hk.trans hk', hmin.trans hmin'⟩

/-- What the collector holds, sorted, is the best of the offers. -/
theorem Holds.intoSorted (h : t.Holds cs) : t.intoSorted = bestOf t.k t.minScore cs := by
  unfold TopK.intoSorted
  rw [insertionSort_perm _ h]
  exact (best_pairwise _ _ _).insertionSort_eq

theorem bestOf_perm {cs cs' : List Candidate} (h : cs.Perm cs') (k : Nat) (minScore : Option UInt32) :
    bestOf k minScore cs = bestOf k minScore cs' := best_perm _ (h.filter _) _

theorem intoSorted_offerAll (k : Nat) (minScore : Option UInt32) (cs : List Candidate) :
    ((TopK.new k minScore).offerAll cs).intoSorted = bestOf k minScore cs := by
  obtain ⟨hk, hmin⟩ := offerAll_k (TopK.new k minScore) cs
  rw [((Holds.new k minScore).offerAll cs).intoSorted, hk, hmin, List.append_nil]
  exact bestOf_perm (List.reverse_perm cs) k minScore

/-! ## The cut-off -/

/-- The cut-off is the score of the worst that a full collector keeps. -/
theorem cutoff_eq_some {cut : UInt32} (h : t.cutoff = some cut) :
    t.k ≤ t.heap.length ∧ ∃ worst, Queue.foremost worse t.heap = some worst ∧ worst.score = cut := by
  unfold cutoff isFull at h
  by_cases hfull : t.k ≤ t.heap.length
  · rw [if_pos (by simpa using hfull)] at h
    obtain ⟨worst, hworst, hcut⟩ := Option.map_eq_some_iff.mp h
    exact ⟨hfull, worst, hworst, hcut⟩
  · rw [if_neg (by simpa using hfull)] at h
    cases h

/-- **What does not beat the worst kept** is turned away by a full collector. -/
theorem offer_rejected {worst : Candidate} (hfull : t.k ≤ t.heap.length)
    (hworst : Queue.foremost worse t.heap = some worst) (hc : worse worst c = false) :
    (t.offer c).2 = false ∧ (t.offer c).1.heap = t.heap := by
  unfold offer
  dsimp only
  split
  · exact ⟨rfl, rfl⟩
  split
  · exact ⟨rfl, rfl⟩
  rw [if_neg (by omega), hworst]
  dsimp only
  rw [if_neg (by rw [hc]; decide)]
  exact ⟨rfl, rfl⟩

/-- What does, and is not below the minimum, is taken. -/
theorem offer_taken {worst : Candidate} (hfull : t.k ≤ t.heap.length)
    (hworst : Queue.foremost worse t.heap = some worst) (hzero : t.k ≠ 0) (hmin : AtLeast t.minScore c = true)
    (hc : worse worst c = true) : (t.offer c).2 = true := by
  have hbelow : ¬ t.minScore.any (fun least => Score.gt least c.score) = true := by
    unfold AtLeast at hmin
    rw [Bool.not_eq_true'] at hmin
    rw [hmin]
    decide
  unfold offer
  dsimp only
  rw [if_neg hzero, if_neg hbelow, if_neg (by omega), hworst]
  dsimp only
  rw [if_pos hc]

/-- The number of offers counted does not matter to what is kept. -/
theorem offerAll_heap {t t' : TopK} (hk : t.k = t'.k) (hmin : t.minScore = t'.minScore) (hheap : t.heap = t'.heap)
    (cs : List Candidate) : (t.offerAll cs).heap = (t'.offerAll cs).heap := by
  induction cs generalizing t t' with
  | nil => exact hheap
  | cons c cs ih =>
    refine ih ((offer_k t c).1.trans (hk.trans (offer_k t' c).1.symm))
      ((offer_k t c).2.trans (hmin.trans (offer_k t' c).2.symm)) ?_
    unfold offer
    dsimp only
    rw [hk, hmin, hheap]
    split
    · rfl
    split
    · rfl
    split
    · rfl
    split
    · split <;> rfl
    · rfl

end TopK

/-- **Top-k selection is exact and does not depend on the order.** What any sequence of offers leaves is the front of
    the sorted offers that are not below the minimum; the same offers in another order leave the same. A score below the
    cut-off, as a number or in the total order, changes nothing then or later, and a score equal to the cut-off is taken
    exactly if a kept candidate with that score has a larger row. -/
theorem TopK.intoSorted_exact (k : Nat) (minScore : Option UInt32) (cs : List Candidate) :
    ((TopK.new k minScore).offerAll cs).intoSorted =
        ((cs.filter (TopK.AtLeast minScore)).insertionSort (fun a b => TopK.worse a b = false)).take k ∧
      (∀ cs', cs.Perm cs' →
        ((TopK.new k minScore).offerAll cs').intoSorted = ((TopK.new k minScore).offerAll cs).intoSorted) ∧
      ∀ t cut, t = (TopK.new k minScore).offerAll cs → t.cutoff = some cut → ∀ c : Candidate,
        (Score.gt cut c.score = true ∨ totalKey c.score < totalKey cut →
          (t.offer c).2 = false ∧ ∀ rest, ((t.offer c).1.offerAll rest).intoSorted = (t.offerAll rest).intoSorted) ∧
        (c.score = cut → ((t.offer c).2 = true ↔ ∃ w ∈ t.heap, w.score = cut ∧ c.row.value < w.row.value)) := by
  refine ⟨intoSorted_offerAll k minScore cs, fun cs' hperm => ?_, ?_⟩
  · rw [intoSorted_offerAll, intoSorted_offerAll]
    exact (bestOf_perm hperm k minScore).symm
  · rintro t cut rfl hcut c
    have hholds := (Holds.new k minScore).offerAll cs
    obtain ⟨hk, hmin⟩ := offerAll_k (TopK.new k minScore) cs
    generalize (TopK.new k minScore).offerAll cs = t at hholds hcut hk hmin
    obtain ⟨hfull, worst, hworst, rfl⟩ := cutoff_eq_some hcut
    have hmem := Queue.foremost_mem hworst
    have hlast := Queue.foremost_last hworst
    constructor
    · intro hbelow
      have hless : totalKey c.score < totalKey worst.score := hbelow.elim totalKey_lt_of_gt id
      obtain ⟨hfalse, hheap⟩ := offer_rejected hfull hworst (c := c) (not_worse_iff.mpr (.inl hless))
      obtain ⟨hk', hmin'⟩ := offer_k t c
      refine ⟨hfalse, fun rest => ?_⟩
      unfold TopK.intoSorted
      rw [offerAll_heap hk' hmin' hheap rest]
    · intro hscore
      constructor
      · intro htaken
        by_cases hbeats : worse worst c = true
        · refine ⟨worst, hmem, rfl, ?_⟩
          rcases worse_iff.mp hbeats with hless | ⟨-, hrow⟩
          · rw [hscore] at hless
            exact absurd hless (Nat.lt_irrefl _)
          · exact hrow
        · rw [Bool.not_eq_true] at hbeats
          rw [(offer_rejected hfull hworst hbeats).1] at htaken
          cases htaken
      · rintro ⟨w, hw, hwscore, hrow⟩
        -- the worst kept has a row at least as large as `w`
        have hle : w.row.value ≤ worst.row.value := by
          rcases not_worse_iff.mp (hlast w hw) with hless | ⟨-, hle⟩
          · rw [hwscore] at hless
            exact absurd hless (Nat.lt_irrefl _)
          · exact hle
        have hzero : t.k ≠ 0 := by
          have := List.length_pos_of_mem hmem
          have := hholds.length_le
          omega
        refine offer_taken hfull hworst hzero ?_ (worse_iff.mpr (.inr ⟨by rw [hscore], UInt64.lt_of_lt_of_le hrow hle⟩))
        -- a kept candidate with this score was not below the minimum
        have hkept : worst ∈ bestOf t.k t.minScore (cs.reverse ++ []) := hholds.mem_iff.mp hmem
        have hfiltered := (List.mem_insertionSort _).mp (List.mem_of_mem_take hkept)
        have hatLeast := (List.mem_filter.mp hfiltered).2
        unfold AtLeast at hatLeast ⊢
        rw [hscore]
        exact hatLeast

end IshaVectorDb.Index
