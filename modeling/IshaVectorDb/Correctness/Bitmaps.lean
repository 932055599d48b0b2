import IshaVectorDb.Engine.Bitmap

/-!
# `Correctness.Bitmaps` — the **bitmap keeps its count**

A bitmap's words are as many as its length needs and have no bit from there on, and its number is that of its bits
(`Bitmap.Counted`). Every operation keeps this, growing included, so over any sequence of them the number is right, the
iterator gives exactly the set bits in order, and the words give the bitmap back (`bitmap_keeps_count`).
-/

namespace IshaVectorDb.Engine

open Packed

namespace Bitmap

/-- **The number is right**: it counts the bits, and there is none at or beyond the length. -/
structure Counted (b : Bitmap) : Prop where
  within : Within b.words b.len
  count : b.ones = (List.range b.len).countP (bit b.words)

section

variable {b : Bitmap} {i : Nat} {value : Bool}

theorem get_eq (b : Bitmap) (i : Nat) : b.get i = (decide (i < b.len) && bit b.words i) := by
  unfold get
  split
  · rename_i h
    rw [decide_eq_false (Nat.not_lt.mpr h), Bool.false_and]
  · rename_i h
    rw [decide_eq_true (Nat.lt_of_not_le h), Bool.true_and]
    cases hw : b.words[i / 64]? with
    | none => rw [bit_of_le (List.getElem?_eq_none_iff.mp hw)]
    | some w =>
      rw [bit_of_word hw]
      exact and_single_ne_zero (by omega) w i

/-- The bits within the length are all there are. -/
theorem Counted.get (h : b.Counted) (i : Nat) : b.get i = bit b.words i := by
  rw [get_eq]
  by_cases hi : i < b.len
  · rw [decide_eq_true hi, Bool.true_and]
  · rw [h.within.tail i (by omega), Bool.and_false]

/-- A bit within the length has its word. -/
theorem Counted.word (h : b.Counted) (hi : i < b.len) : ∃ w, b.words[i / 64]? = some w := by
  have hlt : i / 64 < b.words.length := by
    rw [h.within.size]
    exact div_lt_wordsFor (by omega) hi
  exact ⟨_, List.getElem?_eq_getElem hlt⟩

/-! ## What each operation does -/

theorem clearTail_eq (b : Bitmap) : b.clearTail = { b with words := trim b.len b.words } := by
  unfold clearTail trim single
  dsimp only
  split
  · rfl
  · rfl

theorem Counted.new (len : Nat) : (Bitmap.new len).Counted := by
  refine ⟨⟨List.length_replicate, fun i _ => bit_replicate_zero _ i⟩, ?_⟩
  refine (List.countP_eq_zero.mpr fun i _ => ?_).symm
  rw [show (Bitmap.new len).words = List.replicate ((len + 63) / 64) 0#64 from rfl, bit_replicate_zero]
  exact Bool.false_ne_true

theorem Counted.allSet (len : Nat) : (Bitmap.allSet len).Counted := by
  have hsize : (List.replicate ((len + 63) / 64) (BitVec.allOnes 64)).length = wordsFor 64 len := List.length_replicate
  unfold Bitmap.allSet
  rw [clearTail_eq]
  refine ⟨within_trim (by omega) hsize, ?_⟩
  -- all numbers below the length are in full words
  symm
  refine (List.countP_eq_length.mpr fun i hi => ?_).trans List.length_range
  have hi : i < len := List.mem_range.mp hi
  rw [bit_trim (by omega) hsize, bit_replicate_allOnes (by omega), decide_eq_true hi, Bool.and_true]
  exact decide_eq_true (div_lt_wordsFor (w := 64) (by omega) hi)

theorem Counted.fromWords (words : List (BitVec 64)) (len : Nat) : (Bitmap.fromWords words len).Counted := by
  have hin : Within (trim len (resize words ((len + 63) / 64))) len := within_trim (by omega) (length_resize _ _)
  unfold Bitmap.fromWords
  rw [clearTail_eq]
  exact ⟨hin, hin.sum_ones (by omega)⟩

/-- **A bit given its own value** changes nothing. -/
theorem assign_same (h : b.get i = value ∨ b.len ≤ i) : b.assign i value = (false, b) := by
  unfold assign
  split
  · rfl
  · rename_i hin
    cases hw : b.words[i / 64]? with
    | none => rfl
    | some w =>
      rcases h with h | h
      · rw [get_eq, decide_eq_true (Nat.lt_of_not_le hin), Bool.true_and, bit_of_word hw,
          ← and_single_ne_zero (by omega) w i] at h
        exact if_pos h
      · omega

/-- **A bit given the other value** is the only one that changes, and the number follows. -/
theorem Counted.assign_other (h : b.Counted) (hi : i < b.len) (hget : b.get i = !value) :
    ∃ words, b.assign i value = (true, ⟨words, b.len, if value then b.ones + 1 else b.ones - 1⟩) ∧
      words.length = b.words.length ∧ ∀ j, bit words j = if j = i then value else bit b.words j := by
  obtain ⟨w, hw⟩ := h.word hi
  have hbit : bit b.words i = !value := (h.get i).symm.trans hget
  have hwas : decide (w &&& (1#64 <<< (i % 64)) ≠ 0#64) = !value := by
    rw [← hbit, bit_of_word hw]
    exact and_single_ne_zero (by omega) w i
  unfold assign
  rw [if_neg (by omega), hw]
  dsimp only
  rw [hwas, if_neg (by cases value <;> decide)]
  cases value with
  | true =>
    refine ⟨_, rfl, List.length_set, fun j => (bit_insert (by omega) hw j).trans ?_⟩
    by_cases hj : j = i
    · rw [if_pos hj, decide_eq_true hj, Bool.or_true]
    · rw [if_neg hj, decide_eq_false hj, Bool.or_false]
  | false =>
    refine ⟨_, rfl, List.length_set, fun j => (bit_erase (by omega) hw j).trans ?_⟩
    by_cases hj : j = i
    · rw [if_pos hj, decide_eq_false (fun hne => hne hj), Bool.and_false]
    · rw [if_neg hj, decide_eq_true hj, Bool.and_true]

theorem Counted.assign (h : b.Counted) (i : Nat) (value : Bool) : (b.assign i value).2.Counted := by
  by_cases hsame : b.get i = value ∨ b.len ≤ i
  · rw [assign_same hsame]
    exact h
  · obtain ⟨hget, hin⟩ := not_or.mp hsame
    have hi : i < b.len := Nat.lt_of_not_le hin
    have hget : b.get i = !value := by cases value <;> cases hb : b.get i <;> simp_all
    obtain ⟨words, hassign, hlen, hbits⟩ := h.assign_other hi hget
    rw [hassign]
    refine ⟨⟨hlen.trans h.within.size, fun j hj => ?_⟩, ?_⟩
    · have hj : b.len ≤ j := hj
      rw [hbits, if_neg (by omega), h.within.tail j hj]
    · have hold : bit b.words i = !value := (h.get i).symm.trans hget
      have hcount := h.count
      cases value with
      | true =>
        show b.ones + 1 = (List.range b.len).countP (bit words)
        rw [hcount, ← countP_insert hi hold]
        refine List.countP_congr fun j _ => ?_
        rw [hbits]
        by_cases hj : j = i
        · rw [if_pos hj, decide_eq_true hj, Bool.or_true]
        · rw [if_neg hj, decide_eq_false hj, Bool.or_false]
      | false =>
        show b.ones - 1 = (List.range b.len).countP (bit words)
        rw [hcount, ← countP_erase hi hold, Nat.add_sub_cancel]
        refine List.countP_congr fun j _ => ?_
        rw [hbits]
        by_cases hj : j = i
        · rw [if_pos hj, decide_eq_false (fun hne => hne hj), Bool.and_false]
        · rw [if_neg hj, decide_eq_true hj, Bool.and_true]

/-- Growing adds no bits. -/
theorem Counted.grow (h : b.Counted) (newLen : Nat) : (b.grow newLen).Counted := by
  unfold Bitmap.grow
  split
  · exact h
  · rename_i hlt
    have hle : b.words.length ≤ (newLen + 63) / 64 := by
      rw [h.within.size]
      exact wordsFor_le (by omega)
    have hbits : ∀ j, bit (resize b.words ((newLen + 63) / 64)) j = bit b.words j := fun j => by
      rw [bit_resize]
      by_cases hj : j / 64 < b.words.length
      · rw [decide_eq_true (Nat.lt_of_lt_of_le hj hle), Bool.and_true]
      · rw [bit_of_le (by omega), Bool.false_and]
    refine ⟨⟨length_resize _ _, fun j hj => ?_⟩, ?_⟩
    · have hj : newLen ≤ j := hj
      rw [hbits, h.within.tail j (by omega)]
    · show b.ones = (List.range newLen).countP _
      obtain ⟨d, hd⟩ := Nat.exists_eq_add_of_le (Nat.le_of_not_le hlt)
      rw [hd, countP_range_add, h.count]
      have hnone : (List.range d).countP (fun j => bit (resize b.words ((newLen + 63) / 64)) (b.len + j)) = 0 :=
        List.countP_eq_zero.mpr fun j _ => by
          rw [hbits, h.within.tail _ (Nat.le_add_right _ _)]
          exact Bool.false_ne_true
      rw [← hd, hnone, Nat.add_zero]
      exact List.countP_congr fun j _ => by rw [hbits]

theorem Counted.clearAll (h : b.Counted) : b.clearAll.Counted := by
  refine ⟨⟨List.length_replicate.trans h.within.size, fun i _ => bit_replicate_zero _ i⟩, ?_⟩
  refine (List.countP_eq_zero.mpr fun i _ => ?_).symm
  rw [show b.clearAll.words = List.replicate b.words.length 0#64 from rfl, bit_replicate_zero]
  exact Bool.false_ne_true

/-- **The words give the bitmap back.** -/
theorem Counted.fromWords_asWords (h : b.Counted) : Bitmap.fromWords b.asWords b.len = b := by
  have hsize : (resize b.words ((b.len + 63) / 64)).length = wordsFor 64 b.len := length_resize _ _
  have hwords : trim b.len (resize b.words ((b.len + 63) / 64)) = b.words := by
    refine ext_bit (by omega) ((within_trim (by omega) hsize).size.trans h.within.size.symm) fun i => ?_
    rw [bit_trim (by omega) hsize, bit_resize]
    by_cases hi : i < b.len
    · have hword : i / 64 < (b.len + 63) / 64 := div_lt_wordsFor (w := 64) (by omega) hi
      rw [decide_eq_true hi, decide_eq_true hword, Bool.and_true, Bool.and_true]
    · rw [h.within.tail i (by omega), Bool.false_and, Bool.false_and]
  unfold Bitmap.fromWords asWords
  rw [clearTail_eq]
  dsimp only
  rw [hwords, h.within.sum_ones (by omega), ← h.count]

end

end Bitmap

/-! ## The iterator -/

namespace SetBits

variable {words : List (BitVec 64)} {q : Nat} {x : BitVec 64}

/-- Where two iterators go on alike, they give the same. -/
theorem Gives.congr {s s' : SetBits} {l : List Nat} (h : Gives s' l) (hnext : s.next = s'.next) : Gives s l := by
  cases h with
  | done h => exact .done (hnext.trans h)
  | more h hrest => exact .more (hnext.trans h) hrest

/-- A word with bits left gives the lowest. -/
theorem next_of_ne_zero (hx : x ≠ 0#64) :
    next ⟨words, q, x⟩ = (some (q * 64 + x.ctz.toNat), ⟨words, q, x &&& (x - 1#64)⟩) := by
  rw [next, if_pos hx]

/-- A word without passes to the next. -/
theorem next_of_word {y : BitVec 64} (hy : words[q + 1]? = some y) : next ⟨words, q, 0#64⟩ = next ⟨words, q + 1, y⟩ := by
  rw [next, if_neg (fun h => h rfl)]
  split
  · rename_i hnone
    rw [hy] at hnone
    cases hnone
  · rename_i z hz
    rw [hy] at hz
    rw [Option.some.inj hz]

theorem next_of_end (h : words.length ≤ q + 1) : next ⟨words, q, 0#64⟩ = (none, ⟨words, q + 1, 0#64⟩) := by
  have hnone : words[q + 1]? = none := List.getElem?_eq_none h
  rw [next, if_neg (fun h => h rfl)]
  split
  · rfl
  · rename_i z hz
    rw [hnone] at hz
    cases hz

/-- **A word is given bit by bit**, and then what is behind it. -/
theorem Gives.word {rest : List Nat} (h : Gives ⟨words, q, 0#64⟩ rest) (x : BitVec 64) :
    Gives ⟨words, q, x⟩ ((membersOf x).map (64 * q + ·) ++ rest) := by
  generalize hn : (membersOf x).length = n
  induction n generalizing x with
  | zero =>
    have hx : x = 0#64 := by
      by_contra hne
      rw [membersOf_lowest hne] at hn
      cases hn
    rw [hx, membersOf_zero]
    exact h
  | succ n ih =>
    have hx : x ≠ 0#64 := fun h0 => by
      rw [h0, membersOf_zero] at hn
      cases hn
    rw [membersOf_lowest hx] at hn ⊢
    rw [List.map_cons, List.cons_append, Nat.mul_comm 64 q]
    refine .more (next_of_ne_zero hx) ?_
    rw [Nat.mul_comm q 64]
    exact ih _ (Nat.succ.inj hn)

/-- **Behind a word** it gives the members of the words that follow. -/
theorem gives_behind (words : List (BitVec 64)) (q : Nat) : Gives ⟨words, q, 0#64⟩ (membersFrom words (q + 1)) := by
  generalize hn : words.length - q = n
  induction n generalizing q with
  | zero =>
    rw [membersFrom_end (by omega)]
    exact .done (next_of_end (by omega))
  | succ n ih =>
    cases hy : words[q + 1]? with
    | none =>
      have hle : words.length ≤ q + 1 := List.getElem?_eq_none_iff.mp hy
      rw [membersFrom_end hle]
      exact .done (next_of_end hle)
    | some y =>
      rw [membersFrom_word hy]
      exact ((ih (q + 1) (by omega)).word y).congr (next_of_word hy)

end SetBits

/-- **The iterator gives the set bits in order.** -/
theorem Bitmap.Counted.gives {b : Bitmap} (h : b.Counted) :
    SetBits.Gives b.iterSet ((List.range b.len).filter b.get) := by
  have hget : (List.range b.len).filter b.get = membersFrom b.words 0 := by
    rw [h.within.members_eq (by omega)]
    exact List.filter_congr fun i _ => h.get i
  rw [hget]
  unfold Bitmap.iterSet
  cases hwords : b.words with
  | nil => exact SetBits.gives_behind [] 0
  | cons x words =>
    rw [membersFrom_word (show (x :: words)[0]? = some x from rfl)]
    exact (SetBits.gives_behind (x :: words) 0).word x

/-! ## Sequences of operations -/

theorem BitmapOp.counted {b : Bitmap} (h : b.Counted) (op : BitmapOp) : (op.apply b).Counted := by
  cases op with
  | new len => exact .new len
  | allSet len => exact .allSet len
  | fromWords words len => exact .fromWords words len
  | set i => exact h.assign i true
  | clear i => exact h.assign i false
  | grow newLen => exact h.grow newLen
  | clearAll => exact h.clearAll

/-- The bitmap after operations, from an empty one; where one of them makes a bitmap, it starts from there. -/
def Bitmap.after (ops : List BitmapOp) : Bitmap := ops.foldl BitmapOp.apply (.new 0)

theorem Bitmap.counted_after (ops : List BitmapOp) : (Bitmap.after ops).Counted := by
  suffices h : ∀ b : Bitmap, b.Counted → (ops.foldl BitmapOp.apply b).Counted from h _ (.new 0)
  induction ops with
  | nil => exact fun b hb => hb
  | cons op ops ih => exact fun b hb => ih _ (BitmapOp.counted hb op)

/-- **The bitmap keeps its count**, over any operations: the number is that of the set bits below the length, there is no
    bit from there on, the iterator gives the set bits in order, and the words give the bitmap back. -/
theorem bitmap_keeps_count (ops : List BitmapOp) : let b := Bitmap.after ops
    b.count = (List.range b.len).countP b.get ∧ (∀ i, b.len ≤ i → bit b.words i = false ∧ b.get i = false) ∧
      SetBits.Gives b.iterSet ((List.range b.len).filter b.get) ∧ Bitmap.fromWords b.asWords b.len = b := by
  have h := Bitmap.counted_after ops
  refine ⟨?_, fun i hi => ⟨h.within.tail i hi, ?_⟩, h.gives, h.fromWords_asWords⟩
  · refine h.count.trans (List.countP_congr fun i _ => ?_)
    rw [h.get]
  · rw [h.get, h.within.tail i hi]

example : (Bitmap.after [.fromWords [BitVec.allOnes 64] 10, .grow 100, .set 99, .set 99, .clear 3]).count = 10 := by decide

end IshaVectorDb.Engine
