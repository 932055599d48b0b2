import IshaVectorDb.Format.Canonical
import IshaVectorDb.Format.Value

/-!
# `Format.ValueCanonical` — the value decoder accepts **one spelling** of each value

The other half of `decode_encode`: what decodes is, byte for byte, the encoding of what it decodes to. One spelling
more is read on purpose, a wide map under the plain tag, as the first version of the format wrote it; `Within` says
where the values inside the bytes stand, and `NoWidePlain` that no map there is spelled so. `encode_decode` is the
theorem for every other byte string.
-/

namespace IshaVectorDb.Format

open Parsing

/-! ## What a reader passes over -/

/-- **From `i` to `j` the bytes `bs` are read.** -/
def Passed (i : Input) (bs : Bytes) (j : Input) : Prop := i.rest = bs ++ j.rest ∧ j.offset = i.offset + bs.length

namespace Passed

theorem nil (i : Input) : Passed i [] i := ⟨rfl, rfl⟩

theorem trans {i j k : Input} {bs cs : Bytes} (h : Passed i bs j) (h' : Passed j cs k) : Passed i (bs ++ cs) k :=
  ⟨by rw [h.1, h'.1, List.append_assoc], by rw [h'.2, h.2, List.length_append, Nat.add_assoc]⟩

theorem le {i j : Input} {bs : Bytes} (h : Passed i bs j) : j.rest.length ≤ i.rest.length := by
  rw [h.1, List.length_append]
  exact Nat.le_add_left ..

end Passed

namespace Reader

theorem u8_passed {i j : Input} {b : UInt8} (h : u8 i = .ok (b, j)) : Passed i [b] j := u8_iff.mp h

theorem varint_passed {i j : Input} {v : UInt64} (h : varint i = .ok (v, j)) : Passed i (Writer.varint v) j :=
  varint_iff.mp h

theorem blob_passed {i j : Input} {bs : Bytes} (h : blob i = .ok (bs, j)) : Passed i (Writer.blob bs) j :=
  (blob_iff.mp h).2

theorem bytes_passed {n : Nat} {i j : Input} {bs : Bytes} (h : bytes n i = .ok (bs, j)) :
    Passed i bs j ∧ bs.length = n := by
  unfold bytes at h
  split at h
  · cases h
    have hlen : (i.rest.take n).length = n := by rw [List.length_take]; omega
    exact ⟨⟨(List.take_append_drop n i.rest).symm, by rw [hlen]⟩, hlen⟩
  · cases h

theorem string_passed {i j : Input} {s : Str} (h : string i = .ok (s, j)) : Passed i (Writer.string s) j := by
  obtain ⟨⟨bs, k⟩, hb, h⟩ := except_bind_eq_ok.mp h
  cases hs : fromUtf8 bs with
  | none => simp only [hs] at h; cases h
  | some t =>
    simp only [hs] at h
    cases h
    rw [Writer.string, bytes_of_fromUtf8 hs]
    exact blob_passed hb

theorem u64_passed {i j : Input} {v : UInt64} (h : u64 i = .ok (v, j)) : Passed i (Writer.u64 v) j := by
  obtain ⟨⟨bs, k⟩, hb, h⟩ := except_bind_eq_ok.mp h
  cases h
  obtain ⟨hpassed, hlen⟩ := bytes_passed hb
  have hlt := leNat_lt bs
  rw [hlen] at hlt
  have hn : (UInt64.ofNat (leNat bs)).toNat = leNat bs := by
    rw [UInt64.toNat_ofNat']; exact Nat.mod_eq_of_lt (by omega)
  have hword := leBytes_leNat bs
  rw [hlen] at hword
  rw [Writer.u64, hn, hword]
  exact hpassed

theorem bounded_ok {claimed : UInt64} {most at_ n : Nat} {i j : Input} (h : bounded claimed most at_ i = .ok (n, j)) :
    n = claimed.toNat ∧ j = i ∧ claimed.toNat ≤ most := by
  unfold bounded at h
  split at h
  · cases h
  · cases h; exact ⟨rfl, rfl, by omega⟩

theorem bounded_of_le {claimed : UInt64} {most : Nat} (h : claimed.toNat ≤ most) (at_ : Nat) (i : Input) :
    bounded claimed most at_ i = .ok (claimed.toNat, i) := by
  unfold bounded
  rw [if_neg (by omega)]
  rfl

end Reader

theorem zigzag_unzigzag (n : UInt64) : zigzag (unzigzag n) = n := by
  have hn := n.toNat_lt
  have hu : (unzigzag n).toNat = if n.toNat % 2 = 0 then n.toNat / 2 else 2 ^ 64 - 1 - n.toNat / 2 := by
    unfold unzigzag
    rw [UInt64.toNat_ofNat']
    split <;> omega
  apply UInt64.toNat.inj
  unfold zigzag
  rw [UInt64.toNat_ofNat', hu]
  split_ifs <;> omega

namespace Value

/-! ## What one read is -/

/-- **A value read at `i`**, with `left` levels allowed below it: its tag, and what its tag says of the rest. -/
inductive ReadStep (left : Nat) (i : Input) : Value → Input → Prop
  | null {j : Input} (ht : Reader.u8 i = .ok (0, j)) : ReadStep left i .null j
  | no {j : Input} (ht : Reader.u8 i = .ok (1, j)) : ReadStep left i (.bool false) j
  | yes {j : Input} (ht : Reader.u8 i = .ok (2, j)) : ReadStep left i (.bool true) j
  | i64 {i₁ j : Input} {n : UInt64} (ht : Reader.u8 i = .ok (3, i₁)) (hn : Reader.varint i₁ = .ok (n, j)) :
      ReadStep left i (.i64 (unzigzag n)) j
  | f64 {i₁ j : Input} {bits : UInt64} (ht : Reader.u8 i = .ok (4, i₁)) (hb : Reader.u64 i₁ = .ok (bits, j))
      (hfin : finite64 bits = true) : ReadStep left i (.f64 bits) j
  | str {i₁ j : Input} {s : Str} (ht : Reader.u8 i = .ok (5, i₁)) (hs : Reader.string i₁ = .ok (s, j)) :
      ReadStep left i (.str s) j
  | bytes {i₁ j : Input} {b : Bytes} (ht : Reader.u8 i = .ok (6, i₁)) (hb : Reader.blob i₁ = .ok (b, j)) :
      ReadStep left i (.bytes b) j
  | array {i₁ i₂ j : Input} {count : UInt64} {items : List Value} (ht : Reader.u8 i = .ok (7, i₁))
      (hc : Reader.varint i₁ = .ok (count, i₂)) (hroom : count.toNat ≤ i₂.rest.length)
      (hr : times (readAt left) count.toNat i₂ = .ok (items, j)) : ReadStep left i (.array items) j
  | plain {i₁ i₂ j : Input} {count : UInt64} {entries : List (Str × Value)} (ht : Reader.u8 i = .ok (8, i₁))
      (hc : Reader.varint i₁ = .ok (count, i₂)) (hroom : count.toNat ≤ i₂.rest.length / 2)
      (hr : readEntries (readAt left) none i₂.offset i₂.offset count.toNat 0 none i₂ = .ok (entries, j)) :
      ReadStep left i (.map entries) j
  | indexed {i₁ i₂ i₃ j : Input} {count : UInt64} {table : Bytes} {entries : List (Str × Value)}
      (ht : Reader.u8 i = .ok (9, i₁)) (hc : Reader.varint i₁ = .ok (count, i₂))
      (hroom : count.toNat ≤ i₂.rest.length / (2 + indexEntryBytes)) (hmin : indexMinEntries ≤ count.toNat)
      (htab : Reader.bytes (count.toNat * indexEntryBytes) i₂ = .ok (table, i₃))
      (hr : readEntries (readAt left) (some table) i₂.offset i₃.offset count.toNat 0 none i₃ = .ok (entries, j)) :
      ReadStep left i (.map entries) j

theorem readAt_ok {left : Nat} {i j : Input} {v : Value} (h : readAt (left + 1) i = .ok (v, j)) :
    ReadStep left i v j := by
  rw [readAt, position_bind_apply] at h
  obtain ⟨t, i₁, ht, h⟩ := bind_eq_ok.mp h
  by_cases h0 : t = 0
  · subst h0; cases h; exact .null ht
  by_cases h1 : t = 1
  · subst h1; cases h; exact .no ht
  by_cases h2 : t = 2
  · subst h2; cases h; exact .yes ht
  rw [if_neg h0, if_neg h1, if_neg h2] at h
  by_cases h3 : t = 3
  · rw [if_pos h3] at h
    obtain ⟨n, i₂, hn, h⟩ := bind_eq_ok.mp h
    subst h3; cases h; exact .i64 ht hn
  by_cases h4 : t = 4
  · rw [if_neg h3, if_pos h4, position_bind_apply] at h
    obtain ⟨bits, i₂, hb, h⟩ := bind_eq_ok.mp h
    by_cases hfin : finite64 bits = true
    · rw [if_pos hfin] at h
      subst h4; cases h; exact .f64 ht hb hfin
    · rw [if_neg hfin] at h
      cases h
  by_cases h5 : t = 5
  · rw [if_neg h3, if_neg h4, if_pos h5] at h
    obtain ⟨s, i₂, hs, h⟩ := bind_eq_ok.mp h
    subst h5; cases h; exact .str ht hs
  by_cases h6 : t = 6
  · rw [if_neg h3, if_neg h4, if_neg h5, if_pos h6] at h
    obtain ⟨b, i₂, hb, h⟩ := bind_eq_ok.mp h
    subst h6; cases h; exact .bytes ht hb
  rw [if_neg h3, if_neg h4, if_neg h5, if_neg h6] at h
  by_cases h7 : t = 7
  · rw [if_pos h7, position_bind_apply] at h
    obtain ⟨count, i₂, hc, h⟩ := bind_eq_ok.mp h
    rw [remaining_bind_apply] at h
    obtain ⟨n, i₃, hn, h⟩ := bind_eq_ok.mp h
    obtain ⟨hcount, hstay, hroom⟩ := Reader.bounded_ok hn
    rw [hcount, hstay] at h
    obtain ⟨items, i₄, hr, h⟩ := bind_eq_ok.mp h
    subst h7; cases h; exact .array ht hc hroom hr
  by_cases h8 : t = 8
  · rw [if_neg h7, if_pos h8, position_bind_apply] at h
    obtain ⟨count, i₂, hc, h⟩ := bind_eq_ok.mp h
    rw [remaining_bind_apply] at h
    obtain ⟨n, i₃, hn, h⟩ := bind_eq_ok.mp h
    obtain ⟨hcount, hstay, hroom⟩ := Reader.bounded_ok hn
    rw [hcount, hstay] at h
    rw [position_bind_apply] at h
    obtain ⟨entries, i₄, hr, h⟩ := bind_eq_ok.mp h
    subst h8; cases h; exact .plain ht hc hroom hr
  by_cases h9 : t = 9
  · rw [if_neg h7, if_neg h8, if_pos h9, position_bind_apply] at h
    obtain ⟨count, i₂, hc, h⟩ := bind_eq_ok.mp h
    rw [remaining_bind_apply] at h
    obtain ⟨n, i₃, hn, h⟩ := bind_eq_ok.mp h
    obtain ⟨hcount, hstay, hroom⟩ := Reader.bounded_ok hn
    rw [hcount, hstay] at h
    by_cases hmin : count.toNat < indexMinEntries
    · rw [if_pos hmin] at h
      cases h
    · rw [if_neg hmin, position_bind_apply] at h
      obtain ⟨table, i₄, htab, h⟩ := bind_eq_ok.mp h
      rw [position_bind_apply] at h
      obtain ⟨entries, i₅, hr, h⟩ := bind_eq_ok.mp h
      subst h9; cases h; exact .indexed ht hc hroom (Nat.not_lt.mp hmin) htab hr
  · rw [if_neg h7, if_neg h8, if_neg h9] at h
    cases h

/-- A read is its step, put together again. -/
theorem readAt_of_step {left : Nat} {i j : Input} {v : Value} (h : ReadStep left i v j) :
    readAt (left + 1) i = .ok (v, j) := by
  rw [readAt, position_bind_apply]
  cases h with
  | null ht => rw [bind_of_ok ht]; rfl
  | no ht => rw [bind_of_ok ht]; rfl
  | yes ht => rw [bind_of_ok ht]; rfl
  | @i64 i₁ j n ht hn =>
    rw [bind_of_ok ht]
    exact bind_of_ok hn
  | @f64 i₁ j bits ht hb hfin =>
    rw [bind_of_ok ht, if_neg (by decide), if_neg (by decide), if_neg (by decide), if_neg (by decide),
      if_pos rfl, position_bind_apply]
    rw [bind_of_ok hb, if_pos hfin]
    rfl
  | @str i₁ j s ht hs =>
    rw [bind_of_ok ht]
    exact bind_of_ok hs
  | @bytes i₁ j b ht hb =>
    rw [bind_of_ok ht]
    exact bind_of_ok hb
  | @array i₁ i₂ j count items ht hc hroom hr =>
    rw [bind_of_ok ht, if_neg (by decide), if_neg (by decide), if_neg (by decide), if_neg (by decide),
      if_neg (by decide), if_neg (by decide), if_neg (by decide), if_pos rfl, position_bind_apply]
    rw [bind_of_ok hc, remaining_bind_apply, bind_of_ok (Reader.bounded_of_le hroom _ _), bind_of_ok hr]
    rfl
  | @plain i₁ i₂ j count entries ht hc hroom hr =>
    rw [bind_of_ok ht, if_neg (by decide), if_neg (by decide), if_neg (by decide), if_neg (by decide),
      if_neg (by decide), if_neg (by decide), if_neg (by decide), if_neg (by decide),
      if_pos rfl, position_bind_apply]
    rw [bind_of_ok hc, remaining_bind_apply, bind_of_ok (Reader.bounded_of_le hroom _ _), position_bind_apply, bind_of_ok hr]
    rfl
  | @indexed i₁ i₂ i₃ j count table entries ht hc hroom hmin htab hr =>
    rw [bind_of_ok ht, if_neg (by decide), if_neg (by decide), if_neg (by decide), if_neg (by decide),
      if_neg (by decide), if_neg (by decide), if_neg (by decide), if_neg (by decide), if_neg (by decide),
      if_pos rfl, position_bind_apply]
    rw [bind_of_ok hc, remaining_bind_apply, bind_of_ok (Reader.bounded_of_le hroom _ _), if_neg (Nat.not_lt.mpr hmin),
      position_bind_apply, bind_of_ok htab, position_bind_apply, bind_of_ok hr]
    rfl

/-! ## The values inside -/

/-- `j` is where a value directly inside the one at `i` begins: an item of an array, or an entry's value. -/
inductive Inside (left : Nat) (i : Input) : Input → Prop
  | item {i₁ i₂ j : Input} {count : UInt64} {k : Nat} {items : List Value} (ht : Reader.u8 i = .ok (7, i₁))
      (hc : Reader.varint i₁ = .ok (count, i₂)) (hk : k < count.toNat)
      (hr : times (readAt left) k i₂ = .ok (items, j)) : Inside left i j
  | plain {i₁ i₂ i₃ j : Input} {count : UInt64} {k : Nat} {entries : List (Str × Value)} {key : Str}
      (ht : Reader.u8 i = .ok (8, i₁)) (hc : Reader.varint i₁ = .ok (count, i₂)) (hk : k < count.toNat)
      (hr : readEntries (readAt left) none i₂.offset i₂.offset k 0 none i₂ = .ok (entries, i₃))
      (hkey : Reader.string i₃ = .ok (key, j)) : Inside left i j
  | indexed {i₁ i₂ i₃ i₄ j : Input} {count : UInt64} {table : Bytes} {k : Nat} {entries : List (Str × Value)} {key : Str}
      (ht : Reader.u8 i = .ok (9, i₁)) (hc : Reader.varint i₁ = .ok (count, i₂))
      (htab : Reader.bytes (count.toNat * indexEntryBytes) i₂ = .ok (table, i₃)) (hk : k < count.toNat)
      (hr : readEntries (readAt left) (some table) i₂.offset i₃.offset k 0 none i₃ = .ok (entries, i₄))
      (hkey : Reader.string i₄ = .ok (key, j)) : Inside left i j

/-- **A value inside the value at `i`**, at any depth, begins at `j` and has `left'` levels allowed. -/
inductive Within : Nat → Input → Nat → Input → Prop
  | here (left : Nat) (i : Input) : Within left i left i
  | inside {left left' : Nat} {i j k : Input} (h : Inside left i j) (h' : Within left j left' k) :
      Within (left + 1) i left' k

/-- The encoder writes the value with an offset table. -/
def WrittenIndexed (v : Value) : Prop := ∃ left base bs, v.body left base = .ok (9 :: bs)

/-- **No wide map is spelled plain**, at `i` or inside: none under the plain tag is one the encoder gives a table. -/
def NoWidePlain (left : Nat) (i : Input) : Prop := ∀ left' j j₁ entries k, Within left i left' j →
  Reader.u8 j = .ok (8, j₁) → readAt left' j = .ok (.map entries, k) → ¬ WrittenIndexed (.map entries)

theorem NoWidePlain.inside {left : Nat} {i j : Input} (h : NoWidePlain (left + 1) i) (hj : Inside left i j) :
    NoWidePlain left j := fun left' k k₁ entries k₂ hk => h left' k k₁ entries k₂ (.inside hj hk)

/-! ## What was read is what is written -/

/-- The value read at `i` is written as the bytes that were read. -/
def RereadsAs (left : Nat) (i : Input) (v : Value) (j : Input) : Prop :=
  ∀ base, ∃ bs, v.body left base = .ok bs ∧ Passed i bs j

theorem left_ne_zero {left : Nat} {i j : Input} {v : Value} (h : readAt left i = .ok (v, j)) : left ≠ 0 := by
  rintro rfl
  cases h

/-- Items read one after the other are written as the bytes they were read from. -/
theorem items_reread {left : Nat} (hv : ∀ i v j, readAt left i = .ok (v, j) → NoWidePlain left i → RereadsAs left i v j)
    (n : Nat) : ∀ (i : Input) (items : List Value) (j : Input), times (readAt left) n i = .ok (items, j) →
      (∀ k < n, ∀ vs i', times (readAt left) k i = .ok (vs, i') → NoWidePlain left i') →
      items.length = n ∧ ∀ base, ∃ bs, writeItems left base items = .ok bs ∧ Passed i bs j := by
  induction n with
  | zero =>
    intro i items j h _
    cases h
    exact ⟨rfl, fun base => ⟨[], by rw [writeItems], Passed.nil i⟩⟩
  | succ n ih =>
    intro i items j h hno
    obtain ⟨v, i₁, hread, hrest⟩ := bind_eq_ok.mp (show (readAt left >>= fun v => times (readAt left) n >>= fun vs =>
      pure (v :: vs)) i = .ok (items, j) from h)
    obtain ⟨vs, i₂, htimes, hpure⟩ := bind_eq_ok.mp hrest
    cases hpure
    have hfirst := hv i v i₁ hread (hno 0 (by omega) [] i rfl)
    obtain ⟨hlen, hothers⟩ := ih i₁ vs j htimes (fun k hk ws i' hws => by
      apply hno (k + 1) (by omega) (v :: ws) i'
      show (readAt left >>= fun v => times (readAt left) k >>= fun vs => pure (v :: vs)) i = _
      rw [bind_of_ok hread, bind_of_ok hws, pure_apply])
    refine ⟨by rw [List.length_cons, hlen], fun base => ?_⟩
    obtain ⟨head, hhead, hpassed⟩ := hfirst base
    obtain ⟨tail, htail, hpassed'⟩ := hothers (base + head.length)
    refine ⟨head ++ tail, ?_, hpassed.trans hpassed'⟩
    have hguard : guardDepth left base (v.body left base) = .ok head :=
      guardDepth_eq_ok.mpr ⟨left_ne_zero hread, hhead⟩
    rw [writeItems, hguard, except_ok_bind, htail, except_ok_bind]
    rfl

/-- What a read of entries does first: the table is checked, the key read and held to the order, the value read. -/
theorem readEntries_succ_ok {readValue : Reader Value} {table : Option Bytes} {tableAt entriesBase n index : Nat}
    {previous : Option Str} {i j : Input} {entries : List (Str × Value)}
    (h : readEntries readValue table tableAt entriesBase (n + 1) index previous i = .ok (entries, j)) :
    ∃ key i₁ v i₂ rest, checkTable table tableAt entriesBase i.offset index i = .ok ((), i) ∧
      Reader.string i = .ok (key, i₁) ∧ checkOrder i.offset previous key i₁ = .ok ((), i₁) ∧
      readValue i₁ = .ok (v, i₂) ∧
      readEntries readValue table tableAt entriesBase n (index + 1) (some key) i₂ = .ok (rest, j) ∧
      entries = (key, v) :: rest := by
  rw [readEntries, position_bind_apply] at h
  obtain ⟨_, i₀, htable, h₁⟩ := bind_eq_ok.mp h
  obtain ⟨key, i₁, hkey, h₂⟩ := bind_eq_ok.mp h₁
  obtain ⟨_, i₁', horder, h₃⟩ := bind_eq_ok.mp h₂
  obtain ⟨v, i₂, hvalue, h₄⟩ := bind_eq_ok.mp h₃
  obtain ⟨rest, i₃, hrest, h₅⟩ := bind_eq_ok.mp h₄
  cases h₅
  have hi₀ : i₀ = i := by
    unfold checkTable at htable
    split at htable
    · cases htable; rfl
    · split at htable
      · cases htable; rfl
      · cases htable
  have hi₁ : i₁' = i₁ := by
    unfold checkOrder at horder
    split at horder
    · cases horder; rfl
    · split at horder
      · cases horder; rfl
      · split at horder
        · cases horder
        · cases horder
  subst hi₀ hi₁
  exact ⟨key, i₁', v, i₂, rest, htable, hkey, horder, hvalue, hrest, rfl⟩

/-- The same steps, put together again. -/
theorem readEntries_succ {readValue : Reader Value} {table : Option Bytes} {tableAt entriesBase n index : Nat}
    {previous : Option Str} {i i₁ i₂ j : Input} {key : Str} {v : Value} {rest : List (Str × Value)}
    (htable : checkTable table tableAt entriesBase i.offset index i = .ok ((), i))
    (hkey : Reader.string i = .ok (key, i₁)) (horder : checkOrder i.offset previous key i₁ = .ok ((), i₁))
    (hvalue : readValue i₁ = .ok (v, i₂))
    (hrest : readEntries readValue table tableAt entriesBase n (index + 1) (some key) i₂ = .ok (rest, j)) :
    readEntries readValue table tableAt entriesBase (n + 1) index previous i = .ok ((key, v) :: rest, j) := by
  rw [readEntries, position_bind_apply, bind_of_ok htable, bind_of_ok hkey, bind_of_ok horder, bind_of_ok hvalue,
    bind_of_ok hrest]
  rfl

/-- Entries read one after the other are written as the bytes they were read from, and a table says where. -/
theorem entries_reread {left : Nat}
    (hv : ∀ i v j, readAt left i = .ok (v, j) → NoWidePlain left i → RereadsAs left i v j)
    {table : Option Bytes} {tableAt entriesBase : Nat} (n : Nat) :
    ∀ (index : Nat) (previous : Option Str) (i : Input) (entries : List (Str × Value)) (j : Input),
      readEntries (readAt left) table tableAt entriesBase n index previous i = .ok (entries, j) →
      entriesBase ≤ i.offset →
      (∀ k < n, ∀ es i₁ key i₂, readEntries (readAt left) table tableAt entriesBase k index previous i = .ok (es, i₁) →
        Reader.string i₁ = .ok (key, i₂) → NoWidePlain left i₂) →
      entries.length = n ∧ ∀ base, ∃ offsets bs,
        writeEntries left base (i.offset - entriesBase) entries = .ok (offsets, bs) ∧ Passed i bs j ∧
        ∀ t ∈ table, ∀ m (hm : m < offsets.length), tableOffset t (index + m) = some offsets[m] := by
  induction n with
  | zero =>
    intro index previous i entries j h _ _
    cases h
    exact ⟨rfl, fun base => ⟨[], [], by rw [writeEntries], Passed.nil i, fun t _ m hm => absurd hm (Nat.not_lt_zero m)⟩⟩
  | succ n ih =>
    intro index previous i entries j h hbase hno
    obtain ⟨key, i₁, v, i₂, rest, htable, hkey, horder, hvalue, hrest, rfl⟩ := readEntries_succ_ok h
    have hkeyed := Reader.string_passed hkey
    have hfirst := hv i₁ v i₂ hvalue (hno 0 (by omega) [] i key i₁ rfl hkey)
    obtain ⟨head₀, -, hpassed₀⟩ := hfirst 0
    have hbase₂ : entriesBase ≤ i₂.offset := by rw [hpassed₀.2, hkeyed.2]; omega
    obtain ⟨hlen, hothers⟩ := ih (index + 1) (some key) i₂ rest j hrest hbase₂ (fun k hk es i₃ key' i₄ hes hkey' =>
      hno (k + 1) (by omega) _ i₃ key' i₄ (readEntries_succ htable hkey horder hvalue hes) hkey')
    refine ⟨by rw [List.length_cons, hlen], fun base => ?_⟩
    obtain ⟨head, hhead, hpassed⟩ := hfirst (base + (Writer.string key).length)
    obtain ⟨offsets, tail, htail, hpassed', htab⟩ := hothers (base + ((Writer.string key).length + head.length))
    have hoff : i.offset - entriesBase + ((Writer.string key).length + head.length) = i₂.offset - entriesBase := by
      rw [hpassed.2, hkeyed.2]; omega
    refine ⟨(i.offset - entriesBase) :: offsets, Writer.string key ++ (head ++ tail), ?_, ?_, ?_⟩
    · have hguard : guardDepth left (base + (Writer.string key).length)
          (v.body left (base + (Writer.string key).length)) = .ok head :=
        guardDepth_eq_ok.mpr ⟨left_ne_zero hvalue, hhead⟩
      rw [writeEntries, writeEntry, hguard]
      simp only [except_ok_bind, pure, Except.pure, hoff, htail]
    · exact hkeyed.trans (hpassed.trans hpassed')
    · intro t ht m hm
      cases m with
      | zero =>
        rw [Option.mem_def] at ht
        subst ht
        unfold checkTable at htable
        by_cases hclaimed : tableOffset t index = some (i.offset - entriesBase)
        · exact hclaimed
        · simp only [if_neg hclaimed] at htable
          cases htable
      | succ m =>
        have := htab t ht m (by simpa using hm)
        rw [List.getElem_cons_succ, ← this]
        congr 1
        omega

/-- A table that holds the offsets is their encoding. -/
theorem table_eq {offsets : List Nat} : ∀ {table : Bytes}, table.length = offsets.length * indexEntryBytes →
    (∀ m (hm : m < offsets.length), tableOffset table m = some offsets[m]) →
    table = offsets.flatMap (fun off => Writer.u16 (UInt16.ofNat off)) ∧ ∀ o ∈ offsets, o ≤ 0xFFFF := by
  have h2 : indexEntryBytes = 2 := rfl
  induction offsets with
  | nil =>
    intro table hlen _
    rw [List.length_nil, Nat.zero_mul] at hlen
    exact ⟨List.eq_nil_of_length_eq_zero hlen, nofun⟩
  | cons o offsets ih =>
    intro table hlen htab
    rw [List.length_cons, h2] at hlen
    have htake : (table.take 2).length = 2 := by rw [List.length_take]; omega
    obtain ⟨hrest, hsmall⟩ := @ih (table.drop 2) (by rw [List.length_drop, h2]; omega) (fun m hm => by
      have := htab (m + 1) (by simpa using hm)
      rw [List.getElem_cons_succ] at this
      rw [← this]
      unfold tableOffset
      rw [List.drop_drop, h2, show 2 + m * 2 = (m + 1) * 2 by omega])
    have hfirst : leNat (table.take 2) = o := by
      have := htab 0 (by simp)
      unfold tableOffset at this
      rw [h2, Nat.zero_mul, List.drop_zero, if_pos htake] at this
      exact Option.some.inj this
    have hlt := leNat_lt (table.take 2)
    rw [htake, hfirst] at hlt
    constructor
    · have hword := leBytes_leNat (table.take 2)
      rw [htake, hfirst] at hword
      have hto : (UInt16.ofNat o).toNat = o := by rw [UInt16.toNat_ofNat']; omega
      rw [List.flatMap_cons, ← hrest, Writer.u16, hto, hword, List.take_append_drop]
    · intro o' ho'
      rcases List.mem_cons.mp ho' with rfl | ho'
      · omega
      · exact hsmall o' ho'

theorem ofNat_toNat_length {α : Type} {l : List α} {count : UInt64} (h : l.length = count.toNat) :
    UInt64.ofNat l.length = count := by
  rw [h, UInt64.ofNat_toNat]

/-- **What is read at any position is what is written there**, unless a wide map is spelled plain. -/
theorem rereadsAs (left : Nat) : ∀ (i : Input) (v : Value) (j : Input), readAt left i = .ok (v, j) →
    NoWidePlain left i → RereadsAs left i v j := by
  induction left with
  | zero => intro i v j h _; cases h
  | succ left ih =>
    intro i v j h hno base
    cases readAt_ok h with
    | null ht => exact ⟨[0], by rw [body], Reader.u8_passed ht⟩
    | no ht => exact ⟨[1], by rw [body], Reader.u8_passed ht⟩
    | yes ht => exact ⟨[2], by rw [body], Reader.u8_passed ht⟩
    | @i64 i₁ j n ht hn =>
      refine ⟨[3] ++ Writer.varint n, ?_, (Reader.u8_passed ht).trans (Reader.varint_passed hn)⟩
      rw [body, zigzag_unzigzag]
    | @f64 i₁ j bits ht hb hfin =>
      refine ⟨[4] ++ Writer.u64 bits, ?_, (Reader.u8_passed ht).trans (Reader.u64_passed hb)⟩
      rw [body, if_pos hfin]
    | @str i₁ j s ht hs =>
      refine ⟨[5] ++ Writer.string s, ?_, (Reader.u8_passed ht).trans (Reader.string_passed hs)⟩
      rw [body]
    | @bytes i₁ j b ht hb =>
      refine ⟨[6] ++ Writer.blob b, ?_, (Reader.u8_passed ht).trans (Reader.blob_passed hb)⟩
      rw [body]
    | @array i₁ i₂ j count items ht hc hroom hr =>
      obtain ⟨hlen, hitems⟩ := items_reread ih count.toNat i₂ items j hr
        (fun k hk vs i' hvs => hno.inside (.item ht hc hk hvs))
      obtain ⟨bs, hbs, hpassed⟩ := hitems (base + ([7] ++ Writer.varint count).length)
      refine ⟨[7] ++ Writer.varint count ++ bs, ?_, ((Reader.u8_passed ht).trans (Reader.varint_passed hc)).trans hpassed⟩
      rw [body, ofNat_toNat_length hlen, Nat.add_sub_cancel, hbs]
      rfl
    | @plain i₁ i₂ j count entries ht hc hroom hr =>
      obtain ⟨hlen, hentries⟩ := entries_reread ih count.toNat 0 none i₂ entries j hr (Nat.le_refl _)
        (fun k hk es i₃ key i₄ hes hkey => hno.inside (.plain ht hc hk hes hkey))
      obtain ⟨offsets, bs, hbs, hpassed, -⟩ := hentries (if entries.length < indexMinEntries then
        base + ([8] ++ Writer.varint (UInt64.ofNat entries.length)).length else 0)
      rw [Nat.sub_self] at hbs
      have hbody : (map entries).body (left + 1) base = .ok (mapHead entries.length offsets ++ bs) := by
        rw [body, Nat.add_sub_cancel, hbs]
        rfl
      -- the encoder does not give this map a table
      have hplain : ¬ (indexMinEntries ≤ entries.length ∧ offsets.getLast?.any (· ≤ 0xFFFF)) := by
        intro hwide
        refine hno (left + 1) i i₁ entries j (.here _ _) ht h ⟨left + 1, base,
          (Writer.varint (UInt64.ofNat entries.length) ++
            offsets.flatMap (fun off => Writer.u16 (UInt16.ofNat off))) ++ bs, ?_⟩
        rw [hbody, mapHead, if_pos hwide]
        rfl
      refine ⟨mapHead entries.length offsets ++ bs, hbody, ?_⟩
      rw [mapHead, if_neg hplain, ofNat_toNat_length hlen]
      exact ((Reader.u8_passed ht).trans (Reader.varint_passed hc)).trans hpassed
    | @indexed i₁ i₂ i₃ j count table entries ht hc hroom hmin htab hr =>
      obtain ⟨hlen, hentries⟩ := entries_reread ih count.toNat 0 none i₃ entries j hr (Nat.le_refl _)
        (fun k hk es i₄ key i₅ hes hkey => hno.inside (.indexed ht hc htab hk hes hkey))
      obtain ⟨offsets, bs, hbs, hpassed, hoffsets⟩ := hentries (if entries.length < indexMinEntries then
        base + ([8] ++ Writer.varint (UInt64.ofNat entries.length)).length else 0)
      rw [Nat.sub_self] at hbs
      have hcount := writeEntries_length hbs
      obtain ⟨hpassed₂, htlen⟩ := Reader.bytes_passed htab
      obtain ⟨htable, hsmall⟩ := table_eq (htlen.trans (by rw [hcount, hlen])) (fun m hm => by
        have := hoffsets table rfl m hm
        rwa [Nat.zero_add] at this)
      -- the table's last word is a word
      have hwide : indexMinEntries ≤ entries.length ∧ offsets.getLast?.any (· ≤ 0xFFFF) := by
        refine ⟨by omega, ?_⟩
        cases hlast : offsets.getLast? with
        | none =>
          have hnil := List.getLast?_eq_none_iff.mp hlast
          rw [hnil, List.length_nil] at hcount
          have : indexMinEntries = 8 := rfl
          omega
        | some last => simpa using hsmall last (List.mem_of_getLast? hlast)
      refine ⟨mapHead entries.length offsets ++ bs, ?_, ?_⟩
      · rw [body, Nat.add_sub_cancel, hbs]
        rfl
      · rw [mapHead, if_pos hwide, ofNat_toNat_length hlen, ← htable]
        exact ((Reader.u8_passed ht).trans ((Reader.varint_passed hc).trans hpassed₂)).trans hpassed

/-- **What decodes is the encoding of what it decodes to**, unless a wide map in it is spelled plain. -/
theorem encode_decode {bs : Bytes} {v : Value} (h : decode bs = .ok v) (hno : NoWidePlain maxValueDepth ⟨bs, 0⟩) :
    v.encode = .ok bs := by
  unfold decode at h
  cases hr : readWhole ⟨bs, 0⟩ with
  | error e => rw [hr] at h; cases h
  | ok r =>
    obtain ⟨w, j⟩ := r
    rw [hr] at h
    obtain rfl : w = v := Except.ok.inj h
    obtain ⟨w', i₁, hread, hrest⟩ := bind_eq_ok.mp hr
    obtain ⟨_, i₂, hend, hpure⟩ := bind_eq_ok.mp hrest
    cases hpure
    obtain ⟨bs', hbody, hpassed⟩ := rereadsAs maxValueDepth ⟨bs, 0⟩ w i₁ hread hno 0
    obtain ⟨hnil, -⟩ := Reader.expectEnd_ok hend
    have hbs : bs = bs' := by
      have hrest' := hpassed.1
      rwa [hnil, List.append_nil] at hrest'
    rw [hbs]
    have hguard : guardDepth maxValueDepth 0 (w.body maxValueDepth 0) = .ok bs' :=
      guardDepth_eq_ok.mpr ⟨by decide, hbody⟩
    exact hguard

/-- **The codec is a round trip and canonical.** What `encode` makes of a value decodes, to its last byte, to that
    value; and what decodes, with no wide map spelled plain in it, is what `encode` makes of the value. -/
theorem codec_canonical : (∀ v bs, v.Sorted → v.encode = .ok bs → bs.length < 2 ^ 64 → decode bs = .ok v) ∧
    ∀ bs v, decode bs = .ok v → NoWidePlain maxValueDepth ⟨bs, 0⟩ → v.encode = .ok bs :=
  ⟨fun _ _ hs h hlen => decode_encode hs h hlen, fun _ _ h hno => encode_decode h hno⟩

/-- A map of few entries is written plain. -/
theorem not_writtenIndexed {entries : List (Str × Value)} (h : entries.length < indexMinEntries) :
    ¬ WrittenIndexed (.map entries) := by
  rintro ⟨left, base, bs, hbody⟩
  simp only [body, except_bind_eq_ok] at hbody
  obtain ⟨⟨offsets, rest⟩, -, hr⟩ := hbody
  have hhead : mapHead entries.length offsets ++ rest = 9 :: bs := by simpa [pure, Except.pure] using hr
  rw [mapHead, if_neg (fun hwide => by omega)] at hhead
  have h89 : (8 : UInt8) = 9 := (List.cons.inj hhead).1
  exact absurd h89 (by decide)

/-! ## Short byte strings -/

/-- A map has as many entries as are read. -/
theorem readEntries_length {readValue : Reader Value} {table : Option Bytes} {tableAt entriesBase : Nat} (n : Nat) :
    ∀ {index : Nat} {previous : Option Str} {i j : Input} {entries : List (Str × Value)},
      readEntries readValue table tableAt entriesBase n index previous i = .ok (entries, j) → entries.length = n := by
  induction n with
  | zero => intro _ _ _ _ _ h; cases h; rfl
  | succ n ih =>
    intro _ _ _ _ _ h
    obtain ⟨key, i₁, v, i₂, rest, -, -, -, -, hrest, rfl⟩ := readEntries_succ_ok h
    rw [List.length_cons, ih hrest]

/-- What is read leaves no more than there was. -/
def Shrinks {α : Type} (r : Reader α) : Prop := ∀ {i a j}, r i = .ok (a, j) → j.rest.length ≤ i.rest.length

theorem times_shrinks {r : Reader Value} (hr : Shrinks r) (n : Nat) : Shrinks (times r n) := by
  induction n with
  | zero => intro i vs j h; cases h; exact le_rfl
  | succ n ih =>
    intro i vs j h
    obtain ⟨v, i₁, hv, hrest⟩ := bind_eq_ok.mp (show (r >>= fun v => times r n >>= fun vs => pure (v :: vs)) i = _ from h)
    obtain ⟨ws, i₂, hws, hpure⟩ := bind_eq_ok.mp hrest
    cases hpure
    exact (ih hws).trans (hr hv)

theorem readEntries_shrinks {readValue : Reader Value} (hv : Shrinks readValue) {table : Option Bytes}
    {tableAt entriesBase : Nat} (n index : Nat) (previous : Option Str) :
    Shrinks (readEntries readValue table tableAt entriesBase n index previous) := by
  induction n generalizing index previous with
  | zero => intro i entries j h; cases h; exact le_rfl
  | succ n ih =>
    intro i entries j h
    obtain ⟨key, i₁, v, i₂, rest, -, hkey, -, hvalue, hrest, rfl⟩ := readEntries_succ_ok h
    exact ((ih _ _ hrest).trans (hv hvalue)).trans (Reader.string_passed hkey).le

theorem readAt_shrinks (left : Nat) : Shrinks (readAt left) := by
  induction left with
  | zero => intro i v j h; cases h
  | succ left ih =>
    intro i v j h
    cases readAt_ok h with
    | null ht => exact (Reader.u8_passed ht).le
    | no ht => exact (Reader.u8_passed ht).le
    | yes ht => exact (Reader.u8_passed ht).le
    | i64 ht hn => exact (Reader.varint_passed hn).le.trans (Reader.u8_passed ht).le
    | f64 ht hb _ => exact (Reader.u64_passed hb).le.trans (Reader.u8_passed ht).le
    | str ht hs => exact (Reader.string_passed hs).le.trans (Reader.u8_passed ht).le
    | bytes ht hb => exact (Reader.blob_passed hb).le.trans (Reader.u8_passed ht).le
    | array ht hc _ hr =>
      exact ((times_shrinks ih _ hr).trans (Reader.varint_passed hc).le).trans (Reader.u8_passed ht).le
    | plain ht hc _ hr =>
      exact ((readEntries_shrinks ih _ _ _ hr).trans (Reader.varint_passed hc).le).trans (Reader.u8_passed ht).le
    | indexed ht hc _ _ htab hr =>
      exact (((readEntries_shrinks ih _ _ _ hr).trans (Reader.bytes_passed htab).1.le).trans (Reader.varint_passed hc).le).trans
        (Reader.u8_passed ht).le

theorem Inside.le {left : Nat} {i j : Input} (h : Inside left i j) : j.rest.length ≤ i.rest.length := by
  cases h with
  | item ht hc _ hr =>
    exact ((times_shrinks (readAt_shrinks left) _ hr).trans (Reader.varint_passed hc).le).trans (Reader.u8_passed ht).le
  | plain ht hc _ hr hkey =>
    exact (((Reader.string_passed hkey).le.trans (readEntries_shrinks (readAt_shrinks left) _ _ _ hr)).trans
      (Reader.varint_passed hc).le).trans (Reader.u8_passed ht).le
  | indexed ht hc htab _ hr hkey =>
    exact ((((Reader.string_passed hkey).le.trans (readEntries_shrinks (readAt_shrinks left) _ _ _ hr)).trans
      (Reader.bytes_passed htab).1.le).trans (Reader.varint_passed hc).le).trans (Reader.u8_passed ht).le

theorem Within.le {left left' : Nat} {i j : Input} (h : Within left i left' j) : j.rest.length ≤ i.rest.length := by
  induction h with
  | here => exact le_rfl
  | inside hinside _ ih => exact ih.trans hinside.le

/-- **Eighteen bytes** are the least that a wide map takes under the plain tag: the tag, a count and two bytes an entry. -/
theorem noWidePlain_of_short {left : Nat} {i : Input} (h : i.rest.length < 2 + 2 * indexMinEntries) : NoWidePlain left i := by
  intro left' j j₁ entries k hj h8 hread
  have hshort := hj.le
  cases left' with
  | zero => cases hread
  | succ left' =>
    cases readAt_ok hread with
    | @plain i₁ i₂ _ count _ ht hc hroom hr =>
      have htag := (Reader.u8_passed ht).1
      have hcount := (Reader.varint_passed hc).1
      have hpos := Writer.varint_length_pos count
      have hlen := congrArg List.length htag
      have hlen' := congrArg List.length hcount
      rw [List.length_append] at hlen hlen'
      rw [List.length_singleton] at hlen
      refine not_writtenIndexed ?_
      rw [readEntries_length _ hr]
      omega
    | indexed ht _ _ _ _ _ =>
      rw [h8] at ht
      cases ht

/-- The map with `"a"` null and, under `"b"`, the array of true and the map with `"d"` five. -/
def nestedMap : Value :=
  .map [(⟨[97], utf8_a⟩, .null), (⟨[98], utf8_b⟩, .array [.bool true, .map [(⟨[100], utf8_d⟩, .i64 5)]])]

def nestedBytes : Bytes := [8, 2, 1, 97, 0, 1, 98, 7, 2, 2, 8, 1, 1, 100, 3, 10]

theorem codec_canonical_nested : decode nestedBytes = .ok nestedMap ∧ nestedMap.encode = .ok nestedBytes := by
  have hsorted : nestedMap.Sorted :=
    ⟨List.pairwise_pair.mpr (by decide), trivial, ⟨trivial, ⟨List.pairwise_singleton _ _, trivial, trivial⟩, trivial⟩, trivial⟩
  have hdecode := codec_canonical.1 nestedMap nestedBytes hsorted rfl (by decide)
  exact ⟨hdecode, codec_canonical.2 _ _ hdecode (noWidePlain_of_short (by decide))⟩

end Value

end IshaVectorDb.Format
