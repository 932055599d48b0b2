import IshaVectorDb.Blocks.Sparse
import IshaVectorDb.Sdk.IndexedDb
import Mathlib.Data.Nat.Digits.Lemmas

/-!
# `Correctness.PathArrays` — the blocks of a path make up **one array**, and what each operation makes of it

`tape` is the array of a path, without an end. Reading shows a stretch of it, writing writes into it, and dropping
blocks blanks whatever lies in a block whose key is taken for one of the path's. What keys are taken so is a matter of
their text: a block's number reads back, and no two paths and numbers have the same key.
-/

namespace IshaVectorDb.Sdk.IndexedDb

open Format Engine Blocks

/-! ## Maps -/

section

variable {V : Type} {key other : Bytes}

theorem lookup_kreplace (l : List (Sigma fun _ : Bytes => V)) (value : V) :
    (l.kreplace key value).dlookup other =
      if other = key then (l.dlookup key).map (fun _ => value) else l.dlookup other := by
  induction l with
  | nil => split <;> rfl
  | cons e l ih =>
    by_cases hk : key = e.1
    · obtain ⟨k, v⟩ := e
      subst hk
      rw [show List.kreplace key value (⟨key, v⟩ :: l) = ⟨key, value⟩ :: l from
        List.lookmap_cons_some _ l (if_pos rfl)]
      by_cases ho : other = key
      · subst ho; simp
      · rw [if_neg ho, List.dlookup_cons_ne _ _ ho, List.dlookup_cons_ne _ _ ho]
    · rw [show List.kreplace key value (e :: l) = e :: List.kreplace key value l from
        List.lookmap_cons_none _ l (if_neg hk)]
      by_cases ho : other = e.1
      · subst ho
        rw [if_neg (Ne.symm hk), List.dlookup_cons_eq, List.dlookup_cons_eq]
      · rw [List.dlookup_cons_ne _ e ho, ih, List.dlookup_cons_ne _ e ho, List.dlookup_cons_ne _ e hk]

/-- **A set key has its value**, and every other the one it had. -/
theorem lookup_set (m : TextMap V) (value : V) :
    (m.set key value).lookup other = if other = key then some value else m.lookup other := by
  unfold TextMap.set
  split
  · next hkey =>
    have hsome : (m.entries.dlookup key).isSome := AList.lookup_isSome.mpr hkey
    show (m.entries.kreplace key value).dlookup other = _
    rw [lookup_kreplace]
    split
    · obtain ⟨v, hv⟩ := Option.isSome_iff_exists.mp hsome
      rw [hv]; rfl
    · rfl
  · by_cases ho : other = key
    · subst ho; rw [AList.lookup_insert, if_pos rfl]
    · rw [AList.lookup_insert_ne ho, if_neg ho]

theorem lookup_erase (m : TextMap V) : (m.erase key).lookup other = if other = key then none else m.lookup other := by
  by_cases ho : other = key
  · subst ho; rw [AList.lookup_erase, if_pos rfl]
  · rw [AList.lookup_erase_ne ho, if_neg ho]

end

/-! ## Keys -/

theorem isDigit_iff {b : UInt8} : isDigit b = true ↔ ∃ d < 10, b = UInt8.ofNat (48 + d) := by
  constructor
  · intro h
    obtain ⟨hlow, hhigh⟩ : (0x30 : UInt8) ≤ b ∧ b ≤ 0x39 := by simpa [isDigit] using h
    rw [UInt8.le_iff_toNat_le] at hlow hhigh
    have hlow : 48 ≤ b.toNat := hlow
    have hhigh : b.toNat ≤ 57 := hhigh
    refine ⟨b.toNat - 48, by omega, ?_⟩
    rw [Nat.add_sub_cancel' hlow, UInt8.ofNat_toNat]
  · rintro ⟨d, hd, rfl⟩
    interval_cases d <;> rfl

theorem isDigit_of_mem_decimal {n : Nat} {b : UInt8} (h : b ∈ decimal n) : isDigit b = true := by
  unfold decimal at h
  split at h
  · rw [List.mem_singleton] at h
    subst h; rfl
  · rw [List.mem_reverse, List.mem_map] at h
    obtain ⟨d, hd, rfl⟩ := h
    exact isDigit_iff.mpr ⟨d, Nat.digits_lt_base (by decide) hd, rfl⟩

theorem ne_blank_of_isDigit {b : UInt8} (h : isDigit b = true) : b ≠ 0x20 := by
  rintro rfl
  exact absurd h (by decide)

/-- A key's path and its number stand apart. -/
theorem blockKey_inj {path other : Bytes} {n m : Nat} (h : blockKey path n = blockKey other m) :
    path = other ∧ decimal n = decimal m := by
  have hdigits : ∀ (k : Nat) (rest : Bytes) {l : Bytes}, decimal k ≠ l ++ 0x20 :: rest := by
    intro k rest l hk
    have hmem : (0x20 : UInt8) ∈ decimal k := by rw [hk]; simp
    exact ne_blank_of_isDigit (isDigit_of_mem_decimal hmem) rfl
  rcases List.append_eq_append_iff.mp h with ⟨l, hother, hrest⟩ | ⟨l, hpath, hrest⟩
  · cases l with
    | nil =>
      rw [List.append_nil] at hother
      exact ⟨hother.symm, (List.cons.inj hrest).2⟩
    | cons b l =>
      obtain ⟨_, hrest⟩ := List.cons.inj hrest
      exact absurd hrest (hdigits n _)
  · cases l with
    | nil =>
      rw [List.append_nil] at hpath
      exact ⟨hpath, (List.cons.inj hrest).2.symm⟩
    | cons b l =>
      obtain ⟨_, hrest⟩ := List.cons.inj hrest
      exact absurd hrest (hdigits m _)

theorem skipBlanks_of_isDigit {b : UInt8} (h : isDigit b = true) (rest : Bytes) :
    skipBlanks (b :: rest) = b :: rest := by
  obtain ⟨d, hd, rfl⟩ := isDigit_iff.mp h
  interval_cases d <;> simp [skipBlanks]

theorem skipBlanks_decimal (n : Nat) : skipBlanks (decimal n) = decimal n := by
  cases h : decimal n with
  | nil => rfl
  | cons b rest =>
    exact skipBlanks_of_isDigit (isDigit_of_mem_decimal (by rw [h]; exact List.mem_cons_self)) rest

theorem digit_value {d : Nat} (h : d < 10) : (UInt8.ofNat (48 + d)).toNat - 48 = d := by
  interval_cases d <;> rfl

theorem foldr_digits (l : List Nat) (h : ∀ d ∈ l, d < 10) :
    (l.map (fun d => UInt8.ofNat (48 + d))).foldr (fun b n => 10 * n + (b.toNat - 48)) 0 = Nat.ofDigits 10 l := by
  induction l with
  | nil => rfl
  | cons d l ih =>
    rw [List.map_cons, List.foldr_cons, ih (fun e he => h e (List.mem_cons_of_mem _ he)),
      digit_value (h d List.mem_cons_self), Nat.ofDigits_cons, Nat.add_comm]

/-- A block's number reads back. -/
theorem number_decimal (n : Nat) : number (decimal n) = some n := by
  unfold number
  rw [skipBlanks_decimal, if_pos (List.all_eq_true.mpr (fun _ => isDigit_of_mem_decimal))]
  congr 1
  unfold decimal
  split
  · next h => subst h; rfl
  · rw [List.foldl_reverse, foldr_digits _ (fun d hd => Nat.digits_lt_base (by decide) hd), Nat.ofDigits_digits]

/-- Of its own blocks, a path reaches those from the size on. -/
theorem reaches_own (path : Bytes) (size n : Nat) :
    Adapter.reaches path size (blockKey path n) = decide ((size + blockBytes - 1) / blockBytes ≤ n) := by
  unfold Adapter.reaches blockKey
  have hstarts : (path ++ [0x20]).isPrefixOf (path ++ 0x20 :: decimal n) = true := by
    refine List.isPrefixOf_iff_prefix.mpr ⟨decimal n, ?_⟩
    rw [List.append_assoc]; rfl
  have hdrop : (path ++ 0x20 :: decimal n).drop (path.length + 1) = decimal n := by
    rw [List.append_cons, List.drop_left' (by simp)]
  rw [hstarts, hdrop, number_decimal, Bool.true_and]

theorem blockKey_eq_iff {path other : Bytes} {n m : Nat} : blockKey path n = blockKey other m ↔ path = other ∧ n = m := by
  constructor
  · intro h
    obtain ⟨hpath, hdigits⟩ := blockKey_inj h
    refine ⟨hpath, ?_⟩
    have hnumber := congrArg number hdigits
    rw [number_decimal, number_decimal] at hnumber
    exact Option.some.inj hnumber
  · rintro ⟨rfl, rfl⟩
    rfl

/-! ## Arrays of bytes -/

/-- A file as an array without an end: behind its own it is blank. -/
def spread (bs : Bytes) (i : Nat) : UInt8 := bs.getD i 0

theorem spread_of_le {bs : Bytes} {i : Nat} (h : bs.length ≤ i) : spread bs i = 0 := List.getD_eq_default _ _ h

theorem length_resize (bs : Bytes) (len : Nat) : (resize bs len).length = len := by
  unfold resize
  rw [List.length_append, List.length_take, List.length_replicate]
  omega

theorem spread_resize (bs : Bytes) (len i : Nat) : spread (resize bs len) i = if i < len then spread bs i else 0 := by
  split
  · next hi =>
    unfold spread resize
    rcases Nat.lt_or_ge i (bs.take len).length with hin | hout
    · rw [List.getD_append _ _ _ _ hin]
      rw [List.length_take] at hin
      rw [List.getD_eq_getElem _ _ (by rw [List.length_take]; exact hin), List.getElem_take,
        List.getD_eq_getElem _ _ (by omega)]
    · rw [List.getD_append_right _ _ _ _ hout]
      rw [List.length_take] at hout
      rw [List.getD_eq_getElem _ _ (by rw [List.length_replicate, List.length_take]; omega), List.getElem_replicate,
        List.getD_eq_default _ _ (by omega)]
  · next hi => exact spread_of_le (by rw [length_resize]; omega)

theorem length_overwrite (bs new : Bytes) (offset : Nat) :
    (overwrite bs new offset).length = max bs.length (offset + new.length) := by
  unfold overwrite
  rw [List.length_append, List.length_append, List.length_take, length_resize, List.length_drop]
  omega

/-- **Overwriting a file** is writing into its array. -/
theorem spread_overwrite (bs new : Bytes) (offset : Nat) :
    spread (overwrite bs new offset) = patched (spread bs) new offset := by
  funext i
  have htake : ((resize bs (max bs.length (offset + new.length))).take offset).length = offset := by
    rw [List.length_take, length_resize]; omega
  unfold spread overwrite
  rw [List.append_assoc]
  rcases Nat.lt_or_ge i offset with hbefore | hstart
  · rw [patched_before hbefore, List.getD_append _ _ _ _ (by omega)]
    have hresized : (resize bs (max bs.length (offset + new.length))).getD i 0 = bs.getD i 0 := by
      have h := spread_resize bs (max bs.length (offset + new.length)) i
      rwa [if_pos (by omega)] at h
    rw [← hresized, List.getD_eq_getElem _ _ (by omega), List.getElem_take,
      List.getD_eq_getElem _ _ (by rw [length_resize]; omega)]
  · rw [List.getD_append_right _ _ _ _ (by omega), htake]
    rcases Nat.lt_or_ge i (offset + new.length) with hnew | hbehind
    · unfold patched
      rw [if_pos hstart, List.getD_append _ _ _ _ (by omega), List.getD_eq_getElem _ _ (by omega),
        List.getD_eq_getElem _ _ (by omega)]
    · rw [patched_behind hbehind, List.getD_append_right _ _ _ _ (by omega)]
      show (bs.drop (offset + new.length)).getD _ 0 = _
      rw [List.getD_eq_getElem?_getD, List.getElem?_drop, List.getD_eq_getElem?_getD]
      congr 2; omega

/-- **Reading a file** is reading its array, up to the file's end. -/
theorem read_eq_window (bs : Bytes) (len offset : Nat) :
    (bs.drop offset).take len = window (spread bs) offset (min len (bs.length - offset)) := by
  apply List.ext_getElem?
  intro k
  rw [getElem?_window, List.getElem?_take]
  rcases Nat.lt_or_ge k len with hk | hk
  · rw [if_pos hk, List.getElem?_drop]
    rcases Nat.lt_or_ge (offset + k) bs.length with hin | hout
    · rw [if_pos (by omega), List.getElem?_eq_getElem hin]
      unfold spread
      rw [List.getD_eq_getElem _ _ hin]
    · rw [if_neg (by omega), List.getElem?_eq_none hout]
  · rw [if_neg (by omega), if_neg (by omega)]

/-! ## The array of a path -/

section

variable {a : Adapter} {path key : Bytes}

/-- **The array** that a path's blocks make up. -/
def Adapter.tape (a : Adapter) (path : Bytes) : Nat → UInt8 := cell 0 (a.block path) blockBytes

theorem block_setBlock (block : Bytes) (other : Bytes) (n m : Nat) :
    (a.setBlock (blockKey path n) block).block other m = if other = path ∧ m = n then block else a.block other m := by
  unfold Image.block
  show ((a.blocks.set (blockKey path n) block).lookup (blockKey other m)).getD [] = _
  simp only [lookup_set, blockKey_eq_iff]
  split <;> rfl

theorem round53_of_le {n : Nat} (h : n ≤ 2 ^ 53) : round53 n = n := by
  rcases Nat.lt_or_eq_of_le h with hlt | rfl
  · exact if_pos hlt
  · decide

theorem le_round53 {n : Nat} (h : 2 ^ 53 ≤ n) : 2 ^ 53 ≤ round53 n := by
  have hn : n ≠ 0 := by omega
  have hlog : 53 ≤ n.log2 := (Nat.le_log2 hn).mpr h
  have hfloor : 2 ^ 52 ≤ n / 2 ^ (n.log2 - 52) := by
    rw [Nat.le_div_iff_mul_le (Nat.two_pow_pos _), ← Nat.pow_add, Nat.add_sub_cancel' (by omega)]
    exact Nat.log2_self_le hn
  have hunit : 2 ≤ 2 ^ (n.log2 - 52) := Nat.le_self_pow (by omega) 2
  unfold round53
  rw [if_neg (by omega)]
  have hsum : 2 ^ 52 * 2 ≤ n / 2 ^ (n.log2 - 52) * 2 ^ (n.log2 - 52) := Nat.mul_le_mul hfloor hunit
  dsimp only
  split
  · exact le_trans hsum (Nat.mul_le_mul_right _ (Nat.le_succ _))
  · exact hsum

/-- Reading goes on to the end of the file or of what is asked for. -/
theorem readLoop_eq {size : Nat} (hsize : size ≤ 2 ^ 53) (len offset rounds written : Nat)
    (hrounds : len - written ≤ rounds) :
    a.readLoop path len offset size rounds written =
      window (a.tape path) (offset + written) (min (len - written) (size - (offset + written))) := by
  induction rounds generalizing written with
  | zero =>
    rw [show min (len - written) (size - (offset + written)) = 0 by omega]
    rfl
  | succ rounds ih =>
    unfold Image.readLoop
    dsimp only
    split
    · next hstop =>
      rw [show min (len - written) (size - (offset + written)) = 0 by
        rcases hstop with h | h
        · omega
        · rcases Nat.lt_or_ge (2 ^ 53) (offset + written) with hlarge | hsmall
          · omega
          · rw [round53_of_le hsmall] at h
            omega]
      rfl
    · next hgo =>
      rw [not_or, Nat.not_le, Nat.not_le] at hgo
      have hexact : round53 (offset + written) = offset + written := by
        rcases Nat.lt_or_ge (2 ^ 53) (offset + written) with hlarge | hsmall
        · have := le_round53 hlarge.le
          omega
        · exact round53_of_le hsmall
      rw [hexact] at hgo ⊢
      have hblock : (offset + written) % blockBytes < blockBytes := Nat.mod_lt _ (by decide)
      obtain ⟨n, hn⟩ : ∃ n, n = min (min (blockBytes - (offset + written) % blockBytes) (size - (offset + written)))
        (len - written) := ⟨_, rfl⟩
      rw [← hn, slice_eq_window _ (a.block path) (by omega), ih _ (by omega), ← Nat.add_assoc]
      show window (a.tape path) _ _ ++ _ = _
      rw [← window_add]
      congr 1
      omega

/-- **A read** shows the array, up to the file's size. -/
theorem readInto_eq {size : Nat} (hsize : size ≤ 2 ^ 53) (len offset : Nat) :
    a.readInto path len offset size = window (a.tape path) offset (min len (size - offset)) :=
  readLoop_eq hsize len offset len 0 (Nat.le_refl _)

/-! ## Writing -/

theorem tape_setBlock {at_ : Nat} {src : Bytes} (h : at_ % blockBytes + src.length ≤ blockBytes) (other : Bytes) :
    (a.setBlock (blockKey path (at_ / blockBytes)) (overwrite (a.block path (at_ / blockBytes)) src (at_ % blockBytes))).tape
        other =
      if other = path then patched (a.tape path) src at_ else a.tape other := by
  split
  · next ho =>
    subst ho
    refine cell_patch 0 (a.block other) h (fun j => ?_) (fun n hn => ?_)
    · rw [block_setBlock, if_pos ⟨rfl, rfl⟩]
      exact congrFun (spread_overwrite _ _ _) j
    · rw [block_setBlock, if_neg (fun h => hn h.2)]
  · next ho =>
    funext i
    unfold Adapter.tape cell
    rw [block_setBlock, if_neg (fun h => ho h.1)]

theorem tape_writeLoop {src : Bytes} {offset : Nat} (hfits : offset + src.length ≤ 2 ^ 53) (other : Bytes)
    (rounds done : Nat) (hrounds : src.length - done ≤ rounds) (a : Adapter) :
    (Adapter.writeLoop path src offset rounds done a).tape other =
      if other = path then patched (a.tape path) (src.drop done) (offset + done) else a.tape other := by
  induction rounds generalizing done a with
  | zero =>
    rw [List.drop_eq_nil_of_le (by omega), patched_nil]
    split
    · next ho => subst ho; rfl
    · rfl
  | succ rounds ih =>
    unfold Adapter.writeLoop
    dsimp only
    split
    · next hdone =>
      rw [List.drop_eq_nil_of_le (by omega), patched_nil]
      split
      · next ho => subst ho; rfl
      · rfl
    · next hleft =>
      rw [round53_of_le (by omega)]
      have hblock : (offset + done) % blockBytes < blockBytes := Nat.mod_lt _ (by decide)
      obtain ⟨n, hn⟩ : ∃ n, n = min (blockBytes - (offset + done) % blockBytes) (src.length - done) := ⟨_, rfl⟩
      have hlength : ((src.drop done).take n).length = n := by
        rw [List.length_take, List.length_drop]; omega
      rw [← hn, ih _ (by omega), tape_setBlock (by omega), tape_setBlock (by omega), if_pos rfl]
      split
      · rw [← Nat.add_assoc, ← List.drop_drop]
        have happend := patched_append (a.tape path) ((src.drop done).take n) ((src.drop done).drop n) (offset + done)
        rw [List.take_append_drop, hlength] at happend
        exact happend.symm
      · rfl

/-- **A write** is a write into the array of its path. -/
theorem tape_writeFrom {src : Bytes} {offset : Nat} (hfits : offset + src.length ≤ 2 ^ 53) (other : Bytes) (a : Adapter) :
    (Adapter.writeFrom path src offset a).tape other =
      if other = path then patched (a.tape path) src offset else a.tape other :=
  tape_writeLoop hfits other src.length 0 (Nat.le_refl _) a

theorem files_writeLoop (src : Bytes) (offset rounds done : Nat) (a : Adapter) :
    (Adapter.writeLoop path src offset rounds done a).files = a.files := by
  induction rounds generalizing done a with
  | zero => rfl
  | succ rounds ih =>
    unfold Adapter.writeLoop
    dsimp only
    split
    · rfl
    · rw [ih]; rfl

/-! ## Dropping blocks -/

theorem files_dropBlocksFrom (path : Bytes) (size : Nat) (a : Adapter) :
    (Adapter.dropBlocksFrom path size a).files = a.files := by
  unfold Adapter.dropBlocksFrom
  generalize a.blocks.keys = keys
  induction keys generalizing a with
  | nil => rfl
  | cons key keys ih =>
    rw [List.foldl_cons, ih]
    split <;> rfl

theorem lookup_drops (path : Bytes) (size : Nat) (keys : List Bytes) (key : Bytes) (a : Adapter) :
    (keys.foldl (fun a k => if Adapter.reaches path size k then Adapter.dropBlock k a else a) a).blocks.lookup key =
      if key ∈ keys ∧ Adapter.reaches path size key = true then none else a.blocks.lookup key := by
  induction keys generalizing a with
  | nil => simp
  | cons k keys ih =>
    rw [List.foldl_cons, ih]
    by_cases hk : key = k
    · subst hk
      by_cases hreach : Adapter.reaches path size key = true
      · have hkey : key ∈ key :: keys ∧ Adapter.reaches path size key = true := ⟨List.mem_cons_self, hreach⟩
        rw [if_pos hreach, if_pos hkey]
        split
        · rfl
        · exact AList.lookup_erase key a.blocks
      · rw [if_neg hreach, if_neg (fun h => hreach h.2), if_neg (fun h => hreach h.2)]
    · have hsame : (if Adapter.reaches path size k = true then Adapter.dropBlock k a else a).blocks.lookup key =
          a.blocks.lookup key := by
        split
        · exact AList.lookup_erase_ne hk
        · rfl
      rw [hsame]
      simp only [List.mem_cons, hk, false_or]

/-- **Dropping blocks** blanks every byte whose block is taken. -/
theorem tape_dropBlocksFrom (path : Bytes) (size : Nat) (other : Bytes) (i : Nat) (a : Adapter) :
    (Adapter.dropBlocksFrom path size a).tape other i =
      if Adapter.reaches path size (blockKey other (i / blockBytes)) = true then 0 else a.tape other i := by
  unfold Adapter.tape cell Image.block Adapter.dropBlocksFrom
  rw [lookup_drops]
  split
  · next h => rw [if_pos h.2]; rfl
  · next h =>
    split
    · next hreach =>
      have hnone : a.blocks.lookup (blockKey other (i / blockBytes)) = none := by
        rw [AList.lookup_eq_none]
        intro hmem
        exact h ⟨hmem, hreach⟩
      rw [hnone]; rfl
    · rfl

end

end IshaVectorDb.Sdk.IndexedDb
