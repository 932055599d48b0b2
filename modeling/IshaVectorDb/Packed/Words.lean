import Mathlib.Data.List.Range
import Mathlib.Order.Defs.LinearOrder
import Mathlib.Algebra.Ring.Nat
import Mathlib.Tactic.Set

/-!
# `Packed.Words` — a **set of numbers packed into words**

Number `i` is in the set when bit `i % w` of word `i / w` is set. A word is added to or taken from by a mask of one bit
(`bit_insert`, `bit_erase`), a partial last word is masked (`bit_trim`), words are appended or cut off (`bit_resize`).
Words that are as many as `n` numbers need and have no bit from `n` on are `Within` it: their bits are those of the numbers
below `n` (`Within.sum_ones`). Words of one length are told by their bits (`ext_bit`), and taking the lowest bit of a word
off until none is left, word after word, goes through the numbers in order (`membersOf_lowest`, `Within.members_eq`).
-/

namespace Packed

variable {w : Nat}

/-! ## Bits of words -/

/-- The bit of a number, none behind the words. -/
def bit (words : List (BitVec w)) (i : Nat) : Bool := words[i / w]?.any (fun x => x.getLsbD (i % w))

/-- The mask of one number within its word. -/
def single (w i : Nat) : BitVec w := 1#w <<< (i % w)

/-- Words for so many numbers. -/
def wordsFor (w n : Nat) : Nat := (n + (w - 1)) / w

theorem getLsbD_single (hw : 0 < w) (i j : Nat) : (single w i).getLsbD j = decide (i % w = j) := by
  have hi : i % w < w := Nat.mod_lt _ hw
  unfold single
  rw [← BitVec.twoPow_eq, BitVec.getLsbD_twoPow, decide_eq_true hi, Bool.true_and]

/-- A word shares a bit with the mask when it has it. -/
theorem and_single_ne_zero (hw : 0 < w) (x : BitVec w) (i : Nat) :
    decide (x &&& single w i ≠ 0#w) = x.getLsbD (i % w) := by
  have hi : i % w < w := Nat.mod_lt _ hw
  unfold single
  rw [← BitVec.twoPow_eq, BitVec.and_twoPow]
  cases hb : x.getLsbD (i % w) with
  | false => simp
  | true =>
    have htwo : BitVec.twoPow w (i % w) ≠ 0#w := fun h0 => by
      have hbit := congrArg (fun y => y.getLsbD (i % w)) h0
      simp [hi] at hbit
    simp [htwo]

theorem getLsbD_erase (hw : 0 < w) (x : BitVec w) (i : Nat) {j : Nat} (hj : j < w) :
    (x &&& ~~~ single w i).getLsbD j = (x.getLsbD j && decide (j ≠ i % w)) := by
  rw [BitVec.getLsbD_and, BitVec.getLsbD_not, getLsbD_single hw, decide_eq_true hj, Bool.true_and, ← decide_not]
  congr 2
  exact propext ne_comm

theorem getLsbD_insert (hw : 0 < w) (x : BitVec w) (i j : Nat) :
    (x ||| single w i).getLsbD j = (x.getLsbD j || decide (j = i % w)) := by
  rw [BitVec.getLsbD_or, getLsbD_single hw]
  congr 2
  exact propext eq_comm

/-- The bits below the one of the mask. -/
theorem getLsbD_low (hw : 0 < w) (n j : Nat) : (single w n - 1#w).getLsbD j = decide (j < n % w) := by
  have hlt := Nat.mod_lt n hw
  have hpow : 2 ^ (n % w) < 2 ^ w := Nat.pow_lt_pow_right (by omega) hlt
  have hpos : 0 < 2 ^ (n % w) := Nat.two_pow_pos _
  have hone : 1 % 2 ^ w = 1 := Nat.mod_eq_of_lt (by omega)
  have hnat : (single w n - 1#w).toNat = 2 ^ (n % w) - 1 := by
    unfold single
    rw [← BitVec.twoPow_eq, BitVec.toNat_sub, BitVec.toNat_twoPow, Nat.mod_eq_of_lt hpow, BitVec.toNat_ofNat, hone,
      show 2 ^ w - 1 + 2 ^ (n % w) = 2 ^ w + (2 ^ (n % w) - 1) by omega, Nat.add_mod_left]
    exact Nat.mod_eq_of_lt (by omega)
  rw [BitVec.getLsbD, hnat, Nat.testBit_two_pow_sub_one]

/-- A number is its word and its place in it. -/
theorem eq_of_div_mod {i j : Nat} (hd : i / w = j / w) (hm : i % w = j % w) : i = j := by
  rw [← Nat.div_add_mod i w, ← Nat.div_add_mod j w, hd, hm]

theorem bit_of_le {words : List (BitVec w)} {i : Nat} (h : words.length ≤ i / w) : bit words i = false := by
  unfold bit
  rw [List.getElem?_eq_none h]
  rfl

theorem bit_of_word {words : List (BitVec w)} {i : Nat} {x : BitVec w} (h : words[i / w]? = some x) :
    bit words i = x.getLsbD (i % w) := by
  unfold bit
  rw [h]
  rfl

/-! ## Changing words -/

/-- **One word replaced.** -/
theorem bit_set {words : List (BitVec w)} {k : Nat} (hk : k < words.length) (x : BitVec w) (j : Nat) :
    bit (words.set k x) j = if j / w = k then x.getLsbD (j % w) else bit words j := by
  unfold bit
  split
  · rename_i hj
    rw [hj, List.getElem?_set_self hk]
    rfl
  · rename_i hj
    rw [List.getElem?_set_ne (fun h => hj h.symm)]

/-- **One number taken out.** -/
theorem bit_erase (hw : 0 < w) {words : List (BitVec w)} {i : Nat} {x : BitVec w} (hx : words[i / w]? = some x) (j : Nat) :
    bit (words.set (i / w) (x &&& ~~~ single w i)) j = (bit words j && decide (j ≠ i)) := by
  rw [bit_set (List.getElem?_eq_some_iff.mp hx).1]
  split
  · rename_i hj
    rw [getLsbD_erase hw x i (Nat.mod_lt j hw), bit_of_word (by rw [hj]; exact hx)]
    congr 1
    rw [decide_eq_decide]
    exact ⟨fun h he => h (by rw [he]), fun h hm => h (eq_of_div_mod hj hm)⟩
  · rename_i hj
    rw [decide_eq_true (show j ≠ i from fun h => hj (by rw [h])), Bool.and_true]

/-- **One number put in.** -/
theorem bit_insert (hw : 0 < w) {words : List (BitVec w)} {i : Nat} {x : BitVec w} (hx : words[i / w]? = some x) (j : Nat) :
    bit (words.set (i / w) (x ||| single w i)) j = (bit words j || decide (j = i)) := by
  rw [bit_set (List.getElem?_eq_some_iff.mp hx).1]
  split
  · rename_i hj
    rw [getLsbD_insert hw x i, bit_of_word (by rw [hj]; exact hx)]
    congr 1
    rw [decide_eq_decide]
    exact ⟨fun hm => eq_of_div_mod hj hm, fun he => by rw [he]⟩
  · rename_i hj
    rw [decide_eq_false (show ¬ j = i from fun h => hj (by rw [h])), Bool.or_false]

/-- Zero words hold nothing. -/
theorem bit_replicate_zero (n i : Nat) : bit (List.replicate n 0#w) i = false := by
  unfold bit
  rw [List.getElem?_replicate]
  split
  · exact BitVec.getLsbD_zero
  · rfl

/-- Full words hold everything up to their end. -/
theorem bit_replicate_allOnes (hw : 0 < w) (n i : Nat) : bit (List.replicate n (BitVec.allOnes w)) i = decide (i / w < n) := by
  unfold bit
  rw [List.getElem?_replicate]
  split
  · rename_i hi
    rw [Option.any_some, BitVec.getLsbD_allOnes, decide_eq_true hi]
    exact decide_eq_true (Nat.mod_lt _ hw)
  · rename_i hi
    rw [decide_eq_false hi]
    rfl

/-- Cut or extended to `n` words, with zero words. -/
def resize (words : List (BitVec w)) (n : Nat) : List (BitVec w) := words.take n ++ List.replicate (n - words.length) 0#w

theorem length_resize (words : List (BitVec w)) (n : Nat) : (resize words n).length = n := by
  unfold resize
  rw [List.length_append, List.length_take, List.length_replicate]
  omega

/-- **Words cut off lose their bits; words added have none.** -/
theorem bit_resize (words : List (BitVec w)) (n i : Nat) : bit (resize words n) i = (bit words i && decide (i / w < n)) := by
  unfold resize bit
  by_cases hi : i / w < n
  · rw [decide_eq_true hi, Bool.and_true]
    by_cases hin : i / w < words.length
    · rw [List.getElem?_append_left (by rw [List.length_take]; omega), List.getElem?_take, if_pos hi]
    · have hnone : words[i / w]? = none := List.getElem?_eq_none (by omega)
      rw [List.getElem?_append_right (by rw [List.length_take]; omega), List.getElem?_replicate, hnone]
      split
      · exact BitVec.getLsbD_zero
      · rfl
  · rw [decide_eq_false hi, Bool.and_false, List.getElem?_eq_none]
    · rfl
    · rw [List.length_append, List.length_take, List.length_replicate]
      omega

/-- The bits of the last word from `n % w` on are cleared, unless it is used to its end. -/
def trim (n : Nat) (words : List (BitVec w)) : List (BitVec w) :=
  if n % w = 0 then words else words.dropLast ++ (words.getLast?.map (fun x => x &&& (single w n - 1#w))).toList

theorem length_trim (n : Nat) (words : List (BitVec w)) : (trim n words).length = words.length := by
  unfold trim
  split
  · rfl
  · rcases List.eq_nil_or_concat words with rfl | ⟨front, x, rfl⟩
    · rfl
    · simp

/-! ## As many words as needed -/

theorem wordsFor_eq (hw : 0 < w) (n : Nat) : wordsFor w n = if n % w = 0 then n / w else n / w + 1 := by
  unfold wordsFor
  have hn := Nat.div_add_mod n w
  have hlt := Nat.mod_lt n hw
  split
  · rename_i h0
    rw [show n + (w - 1) = (w - 1) + w * (n / w) by omega, Nat.add_mul_div_left _ _ hw, Nat.div_eq_of_lt (by omega),
      Nat.zero_add]
  · rename_i h0
    rw [show n + (w - 1) = (n % w - 1) + w * (n / w + 1) by rw [Nat.mul_add]; omega, Nat.add_mul_div_left _ _ hw,
      Nat.div_eq_of_lt (by omega), Nat.zero_add]

/-- A number below `n` has a word. -/
theorem div_lt_wordsFor (hw : 0 < w) {n i : Nat} (h : i < n) : i / w < wordsFor w n := by
  have hle : i / w ≤ n / w := Nat.div_le_div_right (Nat.le_of_lt h)
  rw [wordsFor_eq hw]
  split
  · rename_i h0
    refine Nat.div_lt_of_lt_mul ?_
    have hn := Nat.div_add_mod n w
    omega
  · omega

theorem wordsFor_le {n m : Nat} (h : n ≤ m) : wordsFor w n ≤ wordsFor w m :=
  Nat.div_le_div_right (Nat.add_le_add_right h _)

/-- A number past `n` that has a word is in the last one, past the part that is used. -/
theorem last_of_le (hw : 0 < w) {n i : Nat} (h : n ≤ i) (hi : i / w < wordsFor w n) :
    n % w ≠ 0 ∧ i / w + 1 = wordsFor w n ∧ n % w ≤ i % w := by
  have hle : n / w ≤ i / w := Nat.div_le_div_right h
  rw [wordsFor_eq hw] at hi ⊢
  split at hi
  · omega
  · rename_i h0
    have hq : i / w = n / w := by omega
    have hn := Nat.div_add_mod n w
    have hi' := Nat.div_add_mod i w
    rw [hq] at hi'
    exact ⟨h0, by rw [if_neg h0, hq], by omega⟩

/-- A number below `n` in the last word is in the part that is used. -/
theorem lt_of_last (hw : 0 < w) {n i : Nat} (h : i < n) (h0 : n % w ≠ 0) (hi : i / w + 1 = wordsFor w n) : i % w < n % w := by
  rw [wordsFor_eq hw, if_neg h0] at hi
  have hn := Nat.div_add_mod n w
  have hi' := Nat.div_add_mod i w
  rw [show i / w = n / w by omega] at hi'
  omega

/-- **As many words as `n` numbers need**, and no number from `n` on. -/
structure Within (words : List (BitVec w)) (n : Nat) : Prop where
  size : words.length = wordsFor w n
  tail : ∀ i, n ≤ i → bit words i = false

/-- **A trimmed list of words** holds what it held below `n`. -/
theorem bit_trim (hw : 0 < w) {n : Nat} {words : List (BitVec w)} (hsize : words.length = wordsFor w n) (i : Nat) :
    bit (trim n words) i = (bit words i && decide (i < n)) := by
  have hin : ∀ j, n ≤ j → words.length ≤ j / w ∨ n % w ≠ 0 ∧ j / w + 1 = words.length ∧ n % w ≤ j % w := fun j hj => by
    by_cases hlt : j / w < words.length
    · rw [hsize] at hlt ⊢
      exact .inr (last_of_le hw hj hlt)
    · exact .inl (by omega)
  unfold trim
  split
  · rename_i h0
    by_cases hi : i < n
    · rw [decide_eq_true hi, Bool.and_true]
    · rcases hin i (by omega) with hout | ⟨hne, -⟩
      · rw [bit_of_le hout, Bool.false_and]
      · exact absurd h0 hne
  · rename_i h0
    rcases List.eq_nil_or_concat words with rfl | ⟨front, x, rfl⟩
    · rfl
    rw [List.concat_eq_append] at hin hsize ⊢
    rw [List.dropLast_concat, List.getLast?_concat]
    show bit (front ++ [x &&& (single w n - 1#w)]) i = _
    rw [List.length_append, List.length_singleton] at hin hsize
    rcases Nat.lt_trichotomy (i / w) front.length with hlt | heq | hgt
    · -- a word before the last is as it was
      have hbelow : i < n := by
        by_contra hge
        rcases hin i (by omega) with hout | ⟨-, hlast, -⟩
        · omega
        · omega
      unfold bit
      rw [List.getElem?_append_left hlt, List.getElem?_append_left hlt, decide_eq_true hbelow, Bool.and_true]
    · have hget : ∀ y : BitVec w, (front ++ [y])[i / w]? = some y := fun y => by
        rw [heq, List.getElem?_append_right (Nat.le_refl _), Nat.sub_self]
        rfl
      rw [bit_of_word (hget _), bit_of_word (hget _), BitVec.getLsbD_and, getLsbD_low hw]
      congr 1
      rw [decide_eq_decide]
      refine ⟨fun hlow => ?_, fun hi => lt_of_last hw hi h0 (by omega)⟩
      by_contra hge
      rcases hin i (by omega) with hout | ⟨-, -, hhigh⟩
      · omega
      · omega
    · rw [bit_of_le (by rw [List.length_append, List.length_singleton]; omega),
        bit_of_le (by rw [List.length_append, List.length_singleton]; omega), Bool.false_and]

theorem within_trim (hw : 0 < w) {n : Nat} {words : List (BitVec w)} (hsize : words.length = wordsFor w n) :
    Within (trim n words) n := by
  refine ⟨(length_trim n words).trans hsize, fun i hi => ?_⟩
  rw [bit_trim hw hsize, decide_eq_false (by omega), Bool.and_false]

/-- The bits past the part of the last word that is used. -/
theorem getLsbD_and_not_low (hw : 0 < w) (n : Nat) (x : BitVec w) {j : Nat} (hj : j < w) :
    (x &&& ~~~ (single w n - 1#w)).getLsbD j = (x.getLsbD j && decide (n % w ≤ j)) := by
  rw [BitVec.getLsbD_and, BitVec.getLsbD_not, getLsbD_low hw, decide_eq_true hj, Bool.true_and, ← decide_not]
  congr 2
  exact propext Nat.not_lt

/-- **The last word tells** whether there is a number from `n` on. -/
theorem tail_iff (hw : 0 < w) {n : Nat} {words : List (BitVec w)} (hsize : words.length = wordsFor w n) :
    (∀ i, n ≤ i → bit words i = false) ↔
      ¬ (n % w ≠ 0 ∧ words.getLast?.any (fun x => x &&& ~~~ (single w n - 1#w) ≠ 0#w) = true) := by
  have hlast : words.getLast? = words[words.length - 1]? := List.getLast?_eq_getElem?
  constructor
  · rintro htail ⟨h0, hany⟩
    cases hx : words.getLast? with
    | none => rw [hx] at hany; cases hany
    | some x =>
      rw [hx] at hany
      refine of_decide_eq_true hany (BitVec.eq_of_getLsbD_eq fun j hj => ?_)
      rw [getLsbD_and_not_low hw n x hj, BitVec.getLsbD_zero]
      by_cases hjn : n % w ≤ j
      · -- place `j` of the last word is the place of a number from `n` on
        have hdiv : (w * (n / w) + j) / w = n / w := by rw [Nat.mul_add_div hw, Nat.div_eq_of_lt hj, Nat.add_zero]
        have hmod : (w * (n / w) + j) % w = j := by rw [Nat.mul_add_mod, Nat.mod_eq_of_lt hj]
        have hq : words.length - 1 = n / w := by rw [hsize, wordsFor_eq hw, if_neg h0, Nat.add_sub_cancel]
        have hn := Nat.div_add_mod n w
        have hbit := htail (w * (n / w) + j) (by omega)
        rw [bit_of_word (x := x) (by rw [hdiv, ← hq, ← hlast]; exact hx), hmod] at hbit
        rw [hbit, Bool.false_and]
      · rw [decide_eq_false hjn, Bool.and_false]
  · intro hclear i hi
    by_cases hin : i / w < words.length
    · obtain ⟨h0, hq, hplace⟩ := last_of_le hw hi (hsize ▸ hin)
      have hx : words.getLast? = some words[i / w] := by
        rw [hlast, hsize, ← hq, Nat.add_sub_cancel]
        exact List.getElem?_eq_getElem hin
      rw [bit_of_word (List.getElem?_eq_getElem hin)]
      by_contra hset
      refine hclear ⟨h0, ?_⟩
      rw [hx]
      refine decide_eq_true fun hzero => hset ?_
      have hbit := congrArg (fun y => y.getLsbD (i % w)) hzero
      rwa [getLsbD_and_not_low hw n _ (Nat.mod_lt i hw), decide_eq_true hplace, Bool.and_true, BitVec.getLsbD_zero] at hbit
    · exact bit_of_le (by omega)

/-! ## Counting -/

/-- The set bits of a word. -/
def ones (x : BitVec w) : Nat := (List.range w).countP (fun i => x.getLsbD i)

theorem countP_range_add (p : Nat → Bool) (a b : Nat) :
    (List.range (a + b)).countP p = (List.range a).countP p + (List.range b).countP (fun i => p (a + i)) := by
  rw [List.range_add, List.countP_append, List.countP_map]; rfl

/-- **The set bits of the words** are the numbers in them. -/
theorem sum_ones (hw : 0 < w) (words : List (BitVec w)) :
    (words.map ones).sum = (List.range (w * words.length)).countP (bit words) := by
  induction words with
  | nil => rfl
  | cons x words ih =>
    rw [List.map_cons, List.sum_cons, ih, List.length_cons, Nat.mul_succ, Nat.add_comm _ w, countP_range_add]
    congr 1
    · refine List.countP_congr fun i hi => ?_
      have hi : i < w := List.mem_range.mp hi
      have hword : (x :: words)[i / w]? = some x := by rw [Nat.div_eq_of_lt hi]; rfl
      rw [bit_of_word hword, Nat.mod_eq_of_lt hi]
    · refine List.countP_congr fun i _ => ?_
      unfold bit
      rw [Nat.add_div_left _ hw, Nat.add_mod_left]
      rfl

/-- The words reach as far as the numbers. -/
theorem Within.cover (hw : 0 < w) {words : List (BitVec w)} {n : Nat} (h : Within words n) : n ≤ w * words.length := by
  rw [h.size, wordsFor_eq hw]
  have hn := Nat.div_add_mod n w
  split
  · omega
  · rw [Nat.mul_add]
    have hlt := Nat.mod_lt n hw
    omega

/-- **Below `n`**, when there is nothing from `n` on. -/
theorem Within.sum_ones (hw : 0 < w) {words : List (BitVec w)} {n : Nat} (h : Within words n) :
    (words.map ones).sum = (List.range n).countP (bit words) := by
  obtain ⟨d, hd⟩ := Nat.exists_eq_add_of_le (h.cover hw)
  rw [Packed.sum_ones hw, hd, countP_range_add, Nat.add_eq_left, List.countP_eq_zero]
  intro i _
  rw [h.tail _ (Nat.le_add_right n i)]
  exact Bool.false_ne_true

/-- One number more. -/
theorem countP_insert {p : Nat → Bool} {n i : Nat} (hi : i < n) (hp : p i = false) :
    (List.range n).countP (fun j => p j || decide (j = i)) = (List.range n).countP p + 1 := by
  induction n with
  | zero => omega
  | succ n ih =>
    rw [List.range_succ, List.countP_append, List.countP_append, List.countP_singleton, List.countP_singleton]
    by_cases hin : i = n
    · subst hin
      have hsame : (List.range i).countP (fun j => p j || decide (j = i)) = (List.range i).countP p :=
        List.countP_congr fun j hj => by
          rw [decide_eq_false (Nat.ne_of_lt (List.mem_range.mp hj)), Bool.or_false]
      rw [hsame, hp, decide_eq_true rfl]
      rfl
    · rw [ih (by omega), decide_eq_false (Ne.symm hin), Bool.or_false]
      omega

/-- One number less. -/
theorem countP_erase {p : Nat → Bool} {n i : Nat} (hi : i < n) (hp : p i = true) :
    (List.range n).countP (fun j => p j && decide (j ≠ i)) + 1 = (List.range n).countP p := by
  rw [← countP_insert hi (show (p i && decide (i ≠ i)) = false by rw [decide_eq_false (fun h => h rfl), Bool.and_false])]
  refine List.countP_congr fun j _ => ?_
  by_cases hj : j = i
  · rw [hj, hp, decide_eq_true rfl, Bool.or_true]
  · rw [decide_eq_true hj, decide_eq_false hj, Bool.and_true, Bool.or_false]

/-- **The bits tell the words.** -/
theorem ext_bit (hw : 0 < w) {xs ys : List (BitVec w)} (hlen : xs.length = ys.length) (h : ∀ i, bit xs i = bit ys i) :
    xs = ys := by
  apply List.ext_getElem hlen
  intro q hx hy
  apply BitVec.eq_of_getLsbD_eq
  intro j hj
  have hdiv : (w * q + j) / w = q := by rw [Nat.mul_add_div hw, Nat.div_eq_of_lt hj, Nat.add_zero]
  have hmod : (w * q + j) % w = j := by rw [Nat.mul_add_mod, Nat.mod_eq_of_lt hj]
  have hbit := h (w * q + j)
  rwa [bit_of_word (x := xs[q]) (by rw [hdiv]; exact List.getElem?_eq_getElem hx),
    bit_of_word (x := ys[q]) (by rw [hdiv]; exact List.getElem?_eq_getElem hy), hmod] at hbit

/-! ## In order -/

/-- A word is an odd number above its lowest bit. -/
theorem toNat_eq_ctz {x : BitVec w} (hx : x ≠ 0#w) : ∃ m, x.toNat = 2 ^ x.ctz.toNat * (2 * m + 1) := by
  set k := x.ctz.toNat with hk
  have hlow : x.toNat % 2 ^ k = 0 := by
    apply Nat.eq_of_testBit_eq
    intro i
    rw [Nat.testBit_mod_two_pow, Nat.zero_testBit]
    by_cases hi : i < k
    · rw [BitVec.testBit_toNat, BitVec.getLsbD_false_of_lt_ctz hi, Bool.and_false]
    · rw [decide_eq_false hi, Bool.false_and]
  have hodd : x.toNat / 2 ^ k % 2 = 1 := by
    have hbit := BitVec.getLsbD_true_ctz_of_ne_zero hx
    rw [← BitVec.testBit_toNat, ← hk, Nat.testBit_eq_decide_div_mod_eq] at hbit
    exact of_decide_eq_true hbit
  refine ⟨x.toNat / 2 ^ k / 2, ?_⟩
  have hx' := Nat.div_add_mod x.toNat (2 ^ k)
  have hm := Nat.div_add_mod (x.toNat / 2 ^ k) 2
  rw [hlow, Nat.add_zero] at hx'
  rw [hodd] at hm
  rw [hm, hx']

/-- **The lowest bit taken off** leaves the others. -/
theorem getLsbD_and_sub_one {x : BitVec w} (hx : x ≠ 0#w) (j : Nat) :
    (x &&& (x - 1#w)).getLsbD j = (x.getLsbD j && decide (j ≠ x.ctz.toNat)) := by
  obtain ⟨m, hm⟩ := toNat_eq_ctz hx
  set k := x.ctz.toNat
  have hpos := Nat.two_pow_pos k
  -- one less: the lowest bit goes, and those below it come up
  have hpred : (x - 1#w).toNat = 2 ^ k * (2 * m) + (2 ^ k - 1) := by
    have hlt := x.isLt
    have hone : 1 % 2 ^ w = 1 := Nat.mod_eq_of_lt (by rw [Nat.mul_add] at hm; omega)
    rw [BitVec.toNat_sub, BitVec.toNat_ofNat, hone, hm, Nat.mul_add, Nat.mul_one]
    rw [hm, Nat.mul_add, Nat.mul_one] at hlt
    rw [show 2 ^ w - 1 + (2 ^ k * (2 * m) + 2 ^ k) = 2 ^ w + (2 ^ k * (2 * m) + (2 ^ k - 1)) by omega, Nat.add_mod_left]
    exact Nat.mod_eq_of_lt (by omega)
  rw [BitVec.getLsbD_and, ← BitVec.testBit_toNat, ← BitVec.testBit_toNat, hpred, hm,
    Nat.testBit_two_pow_mul_add _ (show 2 ^ k - 1 < 2 ^ k by omega), Nat.testBit_two_pow_mul]
  rcases Nat.lt_trichotomy j k with hlt | rfl | hgt
  · rw [decide_eq_false (show ¬ j ≥ k by omega)]
    rfl
  · rw [if_neg (Nat.lt_irrefl _), Nat.sub_self, decide_eq_false (show ¬ k ≠ k from fun h => h rfl), Bool.and_false,
      Nat.testBit_zero]
    simp
  · obtain ⟨d, rfl⟩ : ∃ d, j = k + 1 + d := ⟨j - (k + 1), by omega⟩
    rw [if_neg (by omega), show k + 1 + d - k = d + 1 by omega, Nat.testBit_succ, Nat.testBit_succ,
      show 2 * m / 2 = (2 * m + 1) / 2 by omega, decide_eq_true (show k + 1 + d ≠ k by omega), Bool.and_true,
      decide_eq_true (show k + 1 + d ≥ k by omega), Bool.true_and, Bool.and_self]

/-- The numbers in one word. -/
def membersOf (x : BitVec w) : List Nat := (List.range w).filter (fun i => x.getLsbD i)

theorem membersOf_zero : membersOf 0#w = [] := List.filter_eq_nil_iff.mpr fun _ _ => by simp

/-- **The lowest bit is the first member**, and the word without it has the others. -/
theorem membersOf_lowest {x : BitVec w} (hx : x ≠ 0#w) :
    membersOf x = x.ctz.toNat :: membersOf (x &&& (x - 1#w)) := by
  set k := x.ctz.toNat with hk
  have hkw : k < w := by
    by_contra hge
    have hbit := BitVec.getLsbD_true_ctz_of_ne_zero hx
    rw [← hk, BitVec.getLsbD_of_ge _ _ (by omega)] at hbit
    cases hbit
  have hsplit : List.range w = List.range k ++ k :: List.range' (k + 1) (w - (k + 1)) := by
    rw [List.range_eq_range', List.range_eq_range', ← List.range'_succ, show w - (k + 1) + 1 = w - k by omega]
    have happ := List.range'_append_1 (s := 0) (m := k) (n := w - k)
    rw [Nat.zero_add, Nat.add_sub_cancel' (Nat.le_of_lt hkw)] at happ
    exact happ.symm
  have hlow : ∀ j ∈ List.range k, x.getLsbD j = false := fun j hj =>
    BitVec.getLsbD_false_of_lt_ctz (List.mem_range.mp hj)
  have hnone : ∀ y : BitVec w, (∀ j ∈ List.range k, y.getLsbD j = false) → (List.range k).filter (fun i => y.getLsbD i) = [] :=
    fun y hy => List.filter_eq_nil_iff.mpr fun j hj => by rw [hy j hj]; exact Bool.false_ne_true
  have hrest : ∀ j ∈ List.range' (k + 1) (w - (k + 1)), (x &&& (x - 1#w)).getLsbD j = x.getLsbD j := fun j hj => by
    have hgt : k + 1 ≤ j := (List.mem_range'_1.mp hj).1
    rw [getLsbD_and_sub_one hx, decide_eq_true (show j ≠ x.ctz.toNat by omega), Bool.and_true]
  unfold membersOf
  rw [hsplit, List.filter_append, List.filter_append, hnone x hlow, hnone _ (fun j hj => by
      rw [getLsbD_and_sub_one hx, hlow j hj, Bool.false_and]), List.nil_append, List.nil_append,
    List.filter_cons_of_pos (BitVec.getLsbD_true_ctz_of_ne_zero hx), List.filter_cons_of_neg (by
      rw [getLsbD_and_sub_one hx, decide_eq_false (show ¬ k ≠ x.ctz.toNat from fun h => h rfl), Bool.and_false]
      exact Bool.false_ne_true)]
  congr 1
  exact List.filter_congr fun j hj => (hrest j hj).symm

/-- The numbers in the words from a word on. -/
def membersFrom (words : List (BitVec w)) (q : Nat) : List Nat :=
  (List.range' (w * q) (w * words.length - w * q)).filter (bit words)

theorem membersFrom_end {words : List (BitVec w)} {q : Nat} (h : words.length ≤ q) : membersFrom words q = [] := by
  unfold membersFrom
  rw [Nat.sub_eq_zero_of_le (Nat.mul_le_mul_left w h)]
  rfl

/-- **A word's numbers, and those behind it.** -/
theorem membersFrom_word {words : List (BitVec w)} {q : Nat} {x : BitVec w} (h : words[q]? = some x) :
    membersFrom words q = (membersOf x).map (w * q + ·) ++ membersFrom words (q + 1) := by
  have hq : q < words.length := (List.getElem?_eq_some_iff.mp h).1
  have hle : w * (q + 1) ≤ w * words.length := Nat.mul_le_mul_left w hq
  rw [Nat.mul_add, Nat.mul_one] at hle
  unfold membersFrom membersOf
  rw [Nat.mul_add w q 1, Nat.mul_one,
    show w * words.length - w * q = w + (w * words.length - (w * q + w)) by omega, ← List.range'_append_1,
    List.filter_append, List.range'_eq_map_range (s := w * q), List.filter_map]
  congr 2
  refine List.filter_congr fun i hi => ?_
  have hi : i < w := List.mem_range.mp hi
  have hdiv : (w * q + i) / w = q := by
    rw [Nat.mul_add_div (Nat.pos_of_ne_zero (fun h0 => by omega)), Nat.div_eq_of_lt hi, Nat.add_zero]
  show bit words (w * q + i) = x.getLsbD i
  rw [bit_of_word (by rw [hdiv]; exact h), Nat.mul_add_mod, Nat.mod_eq_of_lt hi]

/-- **All of them, in order**, are the numbers below `n`. -/
theorem Within.members_eq (hw : 0 < w) {words : List (BitVec w)} {n : Nat} (h : Within words n) :
    membersFrom words 0 = (List.range n).filter (bit words) := by
  obtain ⟨d, hd⟩ := Nat.exists_eq_add_of_le (h.cover hw)
  unfold membersFrom
  rw [Nat.mul_zero, Nat.sub_zero, hd, ← List.range'_append_1, List.filter_append, ← List.range_eq_range']
  have hnone : (List.range' (0 + n) d).filter (bit words) = [] := List.filter_eq_nil_iff.mpr fun i hi => by
    rw [h.tail i (by have := (List.mem_range'_1.mp hi).1; omega)]
    exact Bool.false_ne_true
  rw [hnone, List.append_nil]

end Packed
