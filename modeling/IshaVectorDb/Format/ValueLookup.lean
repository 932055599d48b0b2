import IshaVectorDb.Format.ValueCanonical

/-!
# `Format.ValueLookup` — one field of an encoded map, **without decoding the map**

`find_path` walks the bytes: it skips the values before the key it wants, or finds the key in the offset table by
bisection, and decodes only the value at the end of the path. `descend` is the same question asked of the decoded
value. `walk_spec` says that they agree on everything the encoder writes.
-/

namespace IshaVectorDb.Format

open Parsing

namespace Value

/-! ## Skipping -/

/-- Skip `n` entries: a key and a value each. -/
def skipEntries (skipValue : Reader Unit) : Nat → Reader Unit
  | 0 => pure ()
  | n + 1 => do
      let _ ← Reader.blob
      skipValue
      skipEntries skipValue n

/-- Walk past one value with `left` levels of nesting allowed. -/
def skipAt : Nat → Reader Unit
  | 0 => do
      let at_ ← position
      fail (.malformed at_ (.depthExceeded maxValueDepth))
  | left + 1 => do
      let at_ ← position
      let t ← Reader.u8
      if t = 0 ∨ t = 1 ∨ t = 2 then return ()
      else if t = 3 then do
        let _ ← Reader.varint
        return ()
      else if t = 4 then do
        let _ ← Reader.bytes 8
        return ()
      else if t = 5 ∨ t = 6 then do
        let _ ← Reader.blob
        return ()
      else if t = 7 then do
        let countAt ← position
        let count ← Reader.varint
        let room ← remaining
        let count ← Reader.bounded count room countAt
        let _ ← times (skipAt left) count
        return ()
      else if t = 9 then do
        let countAt ← position
        let count ← Reader.varint
        let room ← remaining
        let count ← Reader.bounded count (room / 4) countAt
        let _ ← Reader.bytes (count * indexEntryBytes)
        skipEntries (skipAt left) count
      else if t = 8 then do
        let countAt ← position
        let count ← Reader.varint
        let room ← remaining
        let count ← Reader.bounded count (room / 2) countAt
        skipEntries (skipAt left) count
      else fail (.malformed at_ (.unknownValueTag t))

/-- Read one value from a reader, leaving anything after it. -/
def readFrom : Reader Value := readAt maxValueDepth

/-- Walk past one encoded value without materialising it. -/
def skipValue : Reader Unit := skipAt maxValueDepth

/-! ## Finding a key -/

/-- Whether a plain map's next `n` entries hold the key; if so the reader is left at its value. Keys ascend, so the
    walk ends at the first larger one. -/
def scanKey (wanted : Bytes) : Nat → Reader Bool
  | 0 => pure false
  | n + 1 => do
      let key ← Reader.blob
      if key < wanted then do
        skipAt maxValueDepth
        scanKey wanted n
      else if key = wanted then return true
      else return false

/-- Bisect a map's table for the key, between entries `lo` and `hi`: where the entry is, if there is one. -/
def bisect (table entries : Bytes) (base : Nat) (wanted : Bytes) : Nat → Nat → Nat → Except FormatError (Option Nat)
  | 0, _, _ => .ok none
  | fuel + 1, lo, hi =>
      if lo < hi then
        let mid := lo + (hi - lo) / 2
        match tableOffset table mid with
        | none => .error (.malformed base (.inconsistent "map offset table"))
        | some off =>
            if entries.length < off then .error (.malformed base (.inconsistent "map offset table"))
            else do
              let (key, _) ← Reader.blob ⟨entries.drop off, base + off⟩
              if key < wanted then bisect table entries base wanted fuel (mid + 1) hi
              else if key = wanted then .ok (some off)
              else bisect table entries base wanted fuel lo mid
      else .ok none

/-- The bytes ahead, without taking them. -/
def peek : Reader Bytes := fun i => .ok (i.rest, i)

/-- Whether an indexed map of `count` entries holds the key; if so the reader is left at its value. The interval
    shrinks in every round, so the count bounds them. -/
def probeKey (wanted : Bytes) (count : Nat) : Reader Bool := do
  let table ← Reader.bytes (count * indexEntryBytes)
  let base ← position
  let entries ← peek
  let hit ← checked (bisect table entries base wanted count 0 count)
  match hit with
  | none => return false
  | some off => do
      let _ ← Reader.bytes off
      let _ ← Reader.blob
      return true

/-- Whether a map is next and holds the key; if so the reader is left at its value. -/
def enterKey (wanted : Bytes) : Reader Bool := do
  let t ← Reader.u8
  if t = 9 then do
    let countAt ← position
    let count ← Reader.varint
    let room ← remaining
    let count ← Reader.bounded count (room / 4) countAt
    probeKey wanted count
  else if t = 8 then do
    let countAt ← position
    let count ← Reader.varint
    let room ← remaining
    let count ← Reader.bounded count (room / 2) countAt
    scanKey wanted count
  else return false

/-- Walk down a path. -/
def walk : List Bytes → Reader (Option Value)
  | [] => pure none
  | wanted :: rest => do
      let found ← enterKey wanted
      if found then
        if rest.isEmpty then do
          let v ← readAt maxValueDepth
          return some v
        else walk rest
      else return none

/-- `path.split('.')`. -/
def segments (path : Str) : List Bytes := path.bytes.splitOn 0x2E

/-- Decode only the value at a dotted path. -/
def findPath (bs : Bytes) (path : Str) : Except FormatError (Option Value) :=
  if bs.isEmpty || path.bytes.isEmpty then .ok none else (walk (segments path) ⟨bs, 0⟩).map Prod.fst

/-! ## The same of a decoded value -/

/-- `BTreeMap::get`. -/
def lookup (wanted : Bytes) (entries : List (Str × Value)) : Option Value :=
  (entries.find? (fun e => e.1.bytes = wanted)).map Prod.snd

/-- Walk down a path through maps. -/
def descend : List Bytes → Value → Option Value
  | [], v => some v
  | wanted :: rest, .map entries => (lookup wanted entries).bind (descend rest)
  | _ :: _, _ => none

@[simp] theorem lookup_nil (wanted : Bytes) : lookup wanted [] = none := rfl

theorem lookup_cons (wanted : Bytes) (e : Str × Value) (rest : List (Str × Value)) :
    lookup wanted (e :: rest) = if e.1.bytes = wanted then some e.2 else lookup wanted rest := by
  unfold lookup
  rw [List.find?_cons]
  by_cases h : e.1.bytes = wanted
  · simp [h]
  · simp [h]

theorem lookup_eq_none {wanted : Bytes} {entries : List (Str × Value)} (h : ∀ e ∈ entries, e.1.bytes ≠ wanted) :
    lookup wanted entries = none := by
  unfold lookup
  rw [Option.map_eq_none_iff, List.find?_eq_none]
  intro e he
  simpa using h e he

/-- Keys ascend, so each is found. -/
theorem lookup_mem {wanted : Bytes} {entries : List (Str × Value)} (hasc : KeysAscend entries) {e : Str × Value}
    (he : e ∈ entries) (hkey : e.1.bytes = wanted) : lookup wanted entries = some e.2 := by
  induction entries with
  | nil => cases he
  | cons e' rest ih =>
    obtain ⟨hlt, hrest⟩ := List.pairwise_cons.mp hasc
    rw [lookup_cons]
    rcases List.mem_cons.mp he with rfl | he
    · rw [if_pos hkey]
    · have hne : e'.1.bytes ≠ wanted := by
        rintro rfl
        have := hlt e.1.bytes (List.mem_map.mpr ⟨e, he, rfl⟩)
        rw [hkey] at this
        exact absurd this (List.lt_irrefl _)
      rw [if_neg hne, ih hrest he]

/-! ## What can be read can be skipped -/

theorem times_mono {α : Type} {p q : Reader α} (h : ∀ i a j, p i = .ok (a, j) → q i = .ok (a, j)) (n : Nat) :
    ∀ i as j, times p n i = .ok (as, j) → times q n i = .ok (as, j) := by
  induction n with
  | zero => intro i as j h; exact h
  | succ n ih =>
    intro i as j hp
    obtain ⟨a, k, ha, hrest⟩ := bind_eq_ok.mp (show (p >>= fun a => times p n >>= fun as => pure (a :: as)) i = _ from hp)
    obtain ⟨as', k', has, hpure⟩ := bind_eq_ok.mp hrest
    show (q >>= fun a => times q n >>= fun as => pure (a :: as)) i = _
    rw [bind_of_ok (h i a k ha), bind_of_ok (ih k as' k' has)]
    exact hpure

theorem readEntries_mono {p q : Reader Value} (h : ∀ i v j, p i = .ok (v, j) → q i = .ok (v, j))
    {table : Option Bytes} {tableAt entriesBase : Nat} (n : Nat) : ∀ index previous i entries j,
      readEntries p table tableAt entriesBase n index previous i = .ok (entries, j) →
      readEntries q table tableAt entriesBase n index previous i = .ok (entries, j) := by
  induction n with
  | zero => intro index previous i entries j h; exact h
  | succ n ih =>
    intro index previous i entries j hp
    obtain ⟨key, i₁, v, i₂, rest, htable, hkey, horder, hvalue, hrest, rfl⟩ := readEntries_succ_ok hp
    exact readEntries_succ htable hkey horder (h i₁ v i₂ hvalue) (ih _ _ i₂ rest j hrest)

/-- More levels allowed change nothing. -/
theorem readAt_mono {left left' : Nat} (hle : left ≤ left') : ∀ i v j, readAt left i = .ok (v, j) →
    readAt left' i = .ok (v, j) := by
  induction left generalizing left' with
  | zero => intro i v j h; cases h
  | succ left ih =>
    intro i v j h
    obtain ⟨left', rfl⟩ : ∃ n, left' = n + 1 := ⟨left' - 1, by omega⟩
    have hmono := ih (show left ≤ left' by omega)
    apply readAt_of_step
    cases readAt_ok h with
    | null ht => exact .null ht
    | no ht => exact .no ht
    | yes ht => exact .yes ht
    | i64 ht hn => exact .i64 ht hn
    | f64 ht hb hfin => exact .f64 ht hb hfin
    | str ht hs => exact .str ht hs
    | bytes ht hb => exact .bytes ht hb
    | array ht hc hroom hr => exact .array ht hc hroom (times_mono hmono _ _ _ _ hr)
    | plain ht hc hroom hr => exact .plain ht hc hroom (readEntries_mono hmono _ _ _ _ _ _ hr)
    | indexed ht hc hroom hmin htab hr =>
      exact .indexed ht hc hroom hmin htab (readEntries_mono hmono _ _ _ _ _ _ hr)

theorem times_skip {α : Type} {p : Reader α} {q : Reader Unit} (h : ∀ i a j, p i = .ok (a, j) → q i = .ok ((), j))
    (n : Nat) : ∀ i as j, times p n i = .ok (as, j) → ∃ us, times q n i = .ok (us, j) := by
  induction n with
  | zero => intro i as j h; cases h; exact ⟨[], rfl⟩
  | succ n ih =>
    intro i as j hp
    obtain ⟨a, k, ha, hrest⟩ := bind_eq_ok.mp (show (p >>= fun a => times p n >>= fun as => pure (a :: as)) i = _ from hp)
    obtain ⟨as', k', has, hpure⟩ := bind_eq_ok.mp hrest
    cases hpure
    obtain ⟨us, hus⟩ := ih k as' _ has
    refine ⟨() :: us, ?_⟩
    show (q >>= fun a => times q n >>= fun as => pure (a :: as)) i = _
    rw [bind_of_ok (h i a k ha), bind_of_ok hus]
    rfl

/-- A string is a byte string first. -/
theorem blob_of_string {i j : Input} {s : Str} (h : Reader.string i = .ok (s, j)) :
    Reader.blob i = .ok (s.bytes, j) := by
  obtain ⟨⟨bs, k⟩, hb, h⟩ := except_bind_eq_ok.mp h
  cases hs : fromUtf8 bs with
  | none => simp only [hs] at h; cases h
  | some t =>
    simp only [hs] at h
    cases h
    rw [bytes_of_fromUtf8 hs]
    exact hb

theorem skipEntries_of_readEntries {p : Reader Value} {q : Reader Unit}
    (h : ∀ i v j, p i = .ok (v, j) → q i = .ok ((), j)) {table : Option Bytes} {tableAt entriesBase : Nat} (n : Nat) :
    ∀ index previous i entries j, readEntries p table tableAt entriesBase n index previous i = .ok (entries, j) →
      skipEntries q n i = .ok ((), j) := by
  induction n with
  | zero => intro index previous i entries j h; cases h; rfl
  | succ n ih =>
    intro index previous i entries j hp
    obtain ⟨key, i₁, v, i₂, rest, htable, hkey, horder, hvalue, hrest, rfl⟩ := readEntries_succ_ok hp
    rw [skipEntries, bind_of_ok (blob_of_string hkey), bind_of_ok (h i₁ v i₂ hvalue)]
    exact ih _ _ i₂ rest j hrest

/-- **A value that reads is skipped**, to where its read ends. -/
theorem skipAt_of_readAt {left : Nat} : ∀ i v j, readAt left i = .ok (v, j) → skipAt left i = .ok ((), j) := by
  induction left with
  | zero => intro i v j h; cases h
  | succ left ih =>
    intro i v j h
    rw [skipAt, position_bind_apply]
    cases readAt_ok h with
    | null ht => rw [bind_of_ok ht]; rfl
    | no ht => rw [bind_of_ok ht]; rfl
    | yes ht => rw [bind_of_ok ht]; rfl
    | i64 ht hn =>
      rw [bind_of_ok ht]
      exact bind_of_ok hn
    | @f64 i₁ j bits ht hb hfin =>
      rw [bind_of_ok ht]
      obtain ⟨bs, i₂, hbs, hpure⟩ := bind_eq_ok.mp hb
      cases hpure
      exact bind_of_ok hbs
    | @str i₁ j s ht hs =>
      rw [bind_of_ok ht]
      exact bind_of_ok (blob_of_string hs)
    | bytes ht hb =>
      rw [bind_of_ok ht]
      exact bind_of_ok hb
    | @array i₁ i₂ j count items ht hc hroom hr =>
      obtain ⟨us, hus⟩ := times_skip ih _ _ _ _ hr
      rw [bind_of_ok ht, if_neg (by decide), if_neg (by decide), if_neg (by decide), if_neg (by decide), if_pos rfl,
        position_bind_apply]
      rw [bind_of_ok hc, remaining_bind_apply, bind_of_ok (Reader.bounded_of_le hroom _ _), bind_of_ok hus]
      rfl
    | @plain i₁ i₂ j count entries ht hc hroom hr =>
      rw [bind_of_ok ht, if_neg (by decide), if_neg (by decide), if_neg (by decide), if_neg (by decide),
        if_neg (by decide), if_neg (by decide), if_pos rfl, position_bind_apply]
      rw [bind_of_ok hc, remaining_bind_apply, bind_of_ok (Reader.bounded_of_le hroom _ _)]
      exact skipEntries_of_readEntries ih _ _ _ _ _ _ hr
    | @indexed i₁ i₂ i₃ j count table entries ht hc hroom hmin htab hr =>
      have hroom : count.toNat ≤ i₂.rest.length / 4 := hroom
      rw [bind_of_ok ht, if_neg (by decide), if_neg (by decide), if_neg (by decide), if_neg (by decide),
        if_neg (by decide), if_pos rfl, position_bind_apply]
      rw [bind_of_ok hc, remaining_bind_apply, bind_of_ok (Reader.bounded_of_le hroom _ _), bind_of_ok htab]
      exact skipEntries_of_readEntries ih _ _ _ _ _ _ hr

/-- **Skipping lands where reading would**, from every position of every byte string. -/
theorem skipValue_of_readFrom (bs : Bytes) (at_ : Nat) (v : Value) (after : Input)
    (h : readFrom ⟨bs.drop at_, at_⟩ = .ok (v, after)) : skipValue ⟨bs.drop at_, at_⟩ = .ok ((), after) :=
  skipAt_of_readAt _ _ _ h

/-- A list of a null and a string, one byte into the bytes and with a byte after it. -/
theorem skipValue_of_readFrom_list :
    skipValue ⟨[9, 7, 2, 0, 5, 1, 0x61, 9].drop 1, 1⟩ = .ok ((), ⟨[9], 7⟩) :=
  skipValue_of_readFrom [9, 7, 2, 0, 5, 1, 0x61, 9] 1 (.array [.null, .str ⟨[0x61], by decide⟩]) ⟨[9], 7⟩ (by rfl)

/-! ## Where a value stands -/

/-- **`v` stands at `i`**: the bytes ahead begin with what the encoder wrote of it, some levels down. -/
def StandsAt (v : Value) (i : Input) : Prop := v.Sorted ∧ ∃ left base bs after, left < maxValueDepth ∧
  v.body (left + 1) base = .ok bs ∧ bs.length < 2 ^ 64 ∧ i.rest = bs ++ after

/-- It can be read there, and skipped. -/
theorem readAt_body {left base : Nat} {v : Value} {bs : Bytes} (hs : v.Sorted) (hleft : left < maxValueDepth)
    (h : v.body (left + 1) base = .ok bs) (hlen : bs.length < 2 ^ 64) (after : Bytes) (o : Nat) :
    readAt maxValueDepth ⟨bs ++ after, o⟩ = .ok (v, ⟨after, o + bs.length⟩) :=
  readAt_mono hleft _ _ _ (reads_body v left base bs hs h hlen after o)

theorem StandsAt.reads {v : Value} {i : Input} (h : StandsAt v i) : ∃ j, readAt maxValueDepth i = .ok (v, j) := by
  obtain ⟨hs, left, base, bs, after, hleft, hbody, hlen, hrest⟩ := h
  obtain ⟨rest, o⟩ := i
  obtain rfl : rest = bs ++ after := hrest
  exact ⟨_, readAt_body hs hleft hbody hlen after o⟩

theorem sortedEntry_iff {e : Str × Value} : SortedEntry e ↔ e.2.Sorted := by
  obtain ⟨key, v⟩ := e
  exact Iff.rfl

theorem sortedEntries_forall {entries : List (Str × Value)} (h : SortedEntries entries) : ∀ e ∈ entries, e.2.Sorted := by
  induction entries with
  | nil => exact nofun
  | cons e' entries ih =>
    obtain ⟨hfirst, hrest⟩ : SortedEntry e' ∧ SortedEntries entries := h
    intro e he
    rcases List.mem_cons.mp he with rfl | he
    · exact sortedEntry_iff.mp hfirst
    · exact ih hrest e he

/-- **What a search for a key comes to**: the reader left at the value, if there is one. -/
def Finds (r : Except FormatError (Bool × Input)) : Option Value → Prop
  | some v => ∃ i, StandsAt v i ∧ r = .ok (true, i)
  | none => ∃ i, r = .ok (false, i)

/-! ## The walk over a plain map -/

theorem scanKey_spec {left : Nat} (hleft : left ≤ maxValueDepth) (wanted : Bytes) (entries : List (Str × Value)) :
    SortedEntries entries → KeysAscend entries → ∀ {base offset : Nat} {offsets : List Nat} {bs : Bytes} (after : Bytes)
      (o : Nat), writeEntries left base offset entries = .ok (offsets, bs) → bs.length < 2 ^ 64 →
      Finds (scanKey wanted entries.length ⟨bs ++ after, o⟩) (lookup wanted entries) := by
  induction entries with
  | nil => intro _ _ base offset offsets bs after o h _; exact ⟨_, rfl⟩
  | cons e entries ih =>
    intro hsorted hasc base offset offsets bs after o h hlen
    obtain ⟨head, offsets', tail, hpos, hbody, ⟨base', hrest⟩, rfl, rfl⟩ := writeEntries_cons_eq_ok h
    obtain ⟨left, rfl⟩ : ∃ n, left = n + 1 := ⟨left - 1, by omega⟩
    have hv : e.2.Sorted := sortedEntries_forall hsorted e List.mem_cons_self
    have hothers : SortedEntries entries := hsorted.2
    simp only [List.length_append] at hlen
    have hkey : e.1.bytes.length < 2 ^ 64 := by rw [Writer.string, Writer.blob_length] at hlen; omega
    obtain ⟨hlt, hasc'⟩ := List.pairwise_cons.mp hasc
    rw [List.length_cons, scanKey, List.append_assoc, List.append_assoc, Writer.string,
      bind_of_ok (Reader.reads_blob hkey _ _), lookup_cons]
    by_cases hless : e.1.bytes < wanted
    · rw [if_pos hless, if_neg (Std.ne_of_lt hless),
        bind_of_ok (skipAt_of_readAt _ _ _ (readAt_body hv (by omega) hbody (by omega) _ _))]
      exact ih hothers hasc' after _ hrest (by omega)
    · rw [if_neg hless]
      by_cases heq : e.1.bytes = wanted
      · rw [if_pos heq, if_pos heq]
        exact ⟨_, ⟨hv, left, _, head, tail ++ after, hleft, hbody, by omega, rfl⟩, rfl⟩
      · -- this key and all after it are larger
        have hmore : wanted < e.1.bytes := Std.lt_of_le_of_ne hless (Ne.symm heq)
        have hnone : lookup wanted entries = none := lookup_eq_none (fun e' he' heq' => by
          have := hlt e'.1.bytes (List.mem_map.mpr ⟨e', he', rfl⟩)
          rw [heq'] at this
          exact List.lt_irrefl _ (List.lt_trans hmore this))
        rw [if_neg heq, if_neg heq, hnone]
        exact ⟨_, rfl⟩

/-! ## The bisection of an offset table -/

/-- Each entry stands at its offset. -/
theorem writeEntries_located {left : Nat} {entries : List (Str × Value)} : ∀ {base offset : Nat} {offsets : List Nat}
    {bs : Bytes}, writeEntries left base offset entries = .ok (offsets, bs) → ∀ k (hk : k < entries.length),
      ∃ pre head tail base', offsets[k]? = some (offset + pre.length) ∧ left ≠ 0 ∧
        entries[k].2.body left base' = .ok head ∧ bs = pre ++ (Writer.string entries[k].1 ++ (head ++ tail)) := by
  induction entries with
  | nil => intro base offset offsets bs _ k hk; exact absurd hk (Nat.not_lt_zero k)
  | cons e entries ih =>
    intro base offset offsets bs h k hk
    obtain ⟨head, offsets', tail, hpos, hbody, ⟨base', hrest⟩, rfl, rfl⟩ := writeEntries_cons_eq_ok h
    cases k with
    | zero => exact ⟨[], head, tail, _, rfl, hpos, hbody, rfl⟩
    | succ k =>
      obtain ⟨pre, head', tail', base'', hoff, -, hbody', htail⟩ := ih hrest k (by simpa using hk)
      refine ⟨Writer.string e.1 ++ (head ++ pre), head', tail', base'', ?_, hpos, hbody', ?_⟩
      · rw [List.getElem?_cons_succ, hoff]
        simp only [List.length_append, Option.some.injEq]
        omega
      · rw [htail]
        simp only [List.append_assoc, List.getElem_cons_succ]

/-- The table says where each key is. -/
def TableOf (table bytes : Bytes) (entries : List (Str × Value)) : Prop := ∀ k (hk : k < entries.length),
  entries[k].1.bytes.length < 2 ^ 64 ∧ ∃ pre rest, tableOffset table k = some pre.length ∧
    bytes = pre ++ (Writer.string entries[k].1 ++ rest)

/-- **The invariant of the bisection**: the key is none of the entries below `lo`, nor of those from `hi` on. -/
structure Narrowed (wanted : Bytes) (entries : List (Str × Value)) (lo hi : Nat) : Prop where
  within : hi ≤ entries.length
  below : ∀ k (hk : k < entries.length), k < lo → entries[k].1.bytes < wanted
  above : ∀ k (hk : k < entries.length), hi ≤ k → wanted < entries[k].1.bytes

theorem keysAscend_getElem {entries : List (Str × Value)} (h : KeysAscend entries) {k m : Nat}
    (hk : k < entries.length) (hm : m < entries.length) (hlt : k < m) : entries[k].1.bytes < entries[m].1.bytes := by
  have := List.pairwise_iff_getElem.mp h k m (by simpa using hk) (by simpa using hm) hlt
  simpa using this

/-- **The bisection finds the key's entry**, or that there is none. -/
theorem bisect_spec {table bytes wanted : Bytes} (base : Nat) {entries : List (Str × Value)} (hasc : KeysAscend entries)
    (htab : TableOf table bytes entries) (fuel : Nat) : ∀ lo hi, hi - lo ≤ fuel → Narrowed wanted entries lo hi →
      (∃ k, ∃ hk : k < entries.length, entries[k].1.bytes = wanted ∧ ∃ off, tableOffset table k = some off ∧
        bisect table bytes base wanted fuel lo hi = .ok (some off)) ∨
      ((∀ e ∈ entries, e.1.bytes ≠ wanted) ∧ bisect table bytes base wanted fuel lo hi = .ok none) := by
  -- an empty interval leaves no entry
  have hempty : ∀ lo hi, ¬ lo < hi → Narrowed wanted entries lo hi → ∀ e ∈ entries, e.1.bytes ≠ wanted := by
    intro lo hi hlt hinv e he
    obtain ⟨k, hk, rfl⟩ := List.mem_iff_getElem.mp he
    by_cases hlo : k < lo
    · exact Std.ne_of_lt (hinv.below k hk hlo)
    · exact (Std.ne_of_lt (hinv.above k hk (by omega))).symm
  induction fuel with
  | zero => intro lo hi hfuel hinv; exact .inr ⟨hempty lo hi (by omega) hinv, rfl⟩
  | succ fuel ih =>
    intro lo hi hfuel hinv
    by_cases hlt : lo < hi
    · have hwithin := hinv.within
      obtain ⟨mid, hmid⟩ : ∃ m, m = lo + (hi - lo) / 2 := ⟨_, rfl⟩
      have hm : mid < entries.length := by omega
      obtain ⟨hkey, pre, rest, hoff, hbytes⟩ := htab mid hm
      have hblob : Reader.blob ⟨bytes.drop pre.length, base + pre.length⟩ = .ok (entries[mid].1.bytes,
          ⟨rest, base + pre.length + (Writer.string entries[mid].1).length⟩) := by
        rw [hbytes, List.drop_left]
        exact Reader.reads_blob hkey rest _
      have hround : bisect table bytes base wanted (fuel + 1) lo hi =
          if entries[mid].1.bytes < wanted then bisect table bytes base wanted fuel (mid + 1) hi
          else if entries[mid].1.bytes = wanted then .ok (some pre.length)
          else bisect table bytes base wanted fuel lo mid := by
        rw [bisect, if_pos hlt, ← hmid]
        simp only [hoff]
        rw [if_neg (by rw [hbytes, List.length_append]; omega), hblob]
        rfl
      rw [hround]
      by_cases hless : entries[mid].1.bytes < wanted
      · rw [if_pos hless]
        refine ih (mid + 1) hi (by omega) ⟨hwithin, fun k hk hk' => ?_, hinv.above⟩
        rcases Nat.lt_or_eq_of_le (Nat.le_of_lt_succ hk') with h | rfl
        · exact List.lt_trans (keysAscend_getElem hasc hk hm h) hless
        · exact hless
      · rw [if_neg hless]
        by_cases heq : entries[mid].1.bytes = wanted
        · exact .inl ⟨mid, hm, heq, pre.length, hoff, by rw [if_pos heq]⟩
        · have hmore : wanted < entries[mid].1.bytes := Std.lt_of_le_of_ne hless (Ne.symm heq)
          rw [if_neg heq]
          refine ih lo mid (by omega) ⟨by omega, hinv.below, fun k hk hk' => ?_⟩
          rcases Nat.lt_or_eq_of_le hk' with h | rfl
          · exact List.lt_trans hmore (keysAscend_getElem hasc hm hk h)
          · exact hmore
    · right
      refine ⟨hempty lo hi hlt hinv, ?_⟩
      rw [bisect, if_neg hlt]

/-- The table and the entries that the encoder writes for a wide map. -/
theorem tableOf_writeEntries {left base : Nat} {entries : List (Str × Value)} {offsets : List Nat} {bs : Bytes}
    (h : writeEntries left base 0 entries = .ok (offsets, bs)) (hlen : bs.length < 2 ^ 64)
    (hsmall : ∀ o ∈ offsets, o ≤ 0xFFFF) (after : Bytes) :
    TableOf (offsets.flatMap (fun off => Writer.u16 (UInt16.ofNat off))) (bs ++ after) entries := by
  intro k hk
  obtain ⟨pre, head, tail, base', hoff, -, -, rfl⟩ := writeEntries_located h k hk
  rw [Nat.zero_add] at hoff
  obtain ⟨hk', hget⟩ := List.getElem?_eq_some_iff.mp hoff
  refine ⟨?_, pre, head ++ tail ++ after, ?_, by simp only [List.append_assoc]⟩
  · simp only [List.length_append, Writer.string, Writer.blob_length] at hlen
    omega
  · rw [tableOffset_flatMap offsets hsmall k hk', hget]

/-- **An indexed map's search** is a lookup. -/
theorem probeKey_spec {left base : Nat} (hleft : left ≤ maxValueDepth) (wanted : Bytes) {entries : List (Str × Value)}
    {offsets : List Nat} {bs : Bytes} (hsorted : SortedEntries entries) (hasc : KeysAscend entries)
    (h : writeEntries left base 0 entries = .ok (offsets, bs)) (hlen : bs.length < 2 ^ 64)
    (hsmall : ∀ o ∈ offsets, o ≤ 0xFFFF) (after : Bytes) (o : Nat) :
    Finds (probeKey wanted entries.length
      ⟨offsets.flatMap (fun off => Writer.u16 (UInt16.ofNat off)) ++ (bs ++ after), o⟩) (lookup wanted entries) := by
  have htlen : (offsets.flatMap (fun off => Writer.u16 (UInt16.ofNat off))).length
      = entries.length * indexEntryBytes := by
    rw [List.length_flatMap, ← writeEntries_length h]
    simp [indexEntryBytes]
  have hpeek : ∀ (f : Bytes → Reader Bool) (i : Input), (peek >>= f) i = f i.rest i := fun f i => bind_of_ok rfl
  rw [probeKey, bind_of_ok (Reader.reads_bytes htlen _ _), position_bind_apply, hpeek]
  have htab := tableOf_writeEntries h hlen hsmall after
  have hinv : Narrowed wanted entries 0 entries.length :=
    ⟨Nat.le_refl _, fun k _ hk => absurd hk (Nat.not_lt_zero k), fun k hk hk' => absurd hk (Nat.not_lt.mpr hk')⟩
  rcases bisect_spec (o + (offsets.flatMap (fun off => Writer.u16 (UInt16.ofNat off))).length) hasc htab entries.length
      0 entries.length (by omega) hinv with ⟨k, hk, hkey, off, hoff, hhit⟩ | ⟨hnone, hmiss⟩
  · -- the entry's key is passed once more, and the reader stands at its value
    rw [hhit, bind_of_ok (checked_ok _ _)]
    obtain ⟨pre, head, tail, base', hget, hpos, hbody, hbs⟩ := writeEntries_located h k hk
    rw [Nat.zero_add] at hget
    obtain ⟨hk', hget⟩ := List.getElem?_eq_some_iff.mp hget
    obtain ⟨left, rfl⟩ : ∃ n, left = n + 1 := ⟨left - 1, by omega⟩
    obtain rfl : pre.length = off := by
      rw [tableOffset_flatMap offsets hsmall k hk', hget] at hoff
      exact Option.some.inj hoff
    have hlens := hlen
    rw [hbs] at hlens
    simp only [List.length_append, Writer.string, Writer.blob_length] at hlens
    rw [lookup_mem hasc (List.getElem_mem hk) hkey, hbs]
    simp only [List.append_assoc]
    rw [bind_of_ok (Reader.reads_bytes rfl _ _), Writer.string, bind_of_ok (Reader.reads_blob (by omega) _ _)]
    exact ⟨_, ⟨sortedEntries_forall hsorted _ (List.getElem_mem hk), left, base', head, tail ++ after, hleft, hbody,
      by omega, rfl⟩, rfl⟩
  · rw [hmiss, bind_of_ok (checked_ok _ _), lookup_eq_none hnone]
    exact ⟨_, rfl⟩

/-! ## The walk -/

/-- The value under a key, if the value is a map that holds it. -/
def child (wanted : Bytes) : Value → Option Value
  | .map entries => lookup wanted entries
  | _ => none

theorem descend_cons (wanted : Bytes) (rest : List Bytes) (v : Value) :
    descend (wanted :: rest) v = (child wanted v).bind (descend rest) := by
  cases v <;> rfl

/-- What is no map begins with no map's tag. -/
theorem enterKey_scalar {wanted : Bytes} {t : UInt8} {rest : Bytes} (h8 : t ≠ 8) (h9 : t ≠ 9) (o : Nat) :
    enterKey wanted ⟨t :: rest, o⟩ = .ok (false, ⟨rest, o + 1⟩) := by
  rw [enterKey, bind_of_ok (a := t) rfl, if_neg h9, if_neg h8]
  rfl

/-- **A search for a key is a lookup**, at whatever value stands there. -/
theorem enterKey_spec (wanted : Bytes) {v : Value} {i : Input} (h : StandsAt v i) :
    Finds (enterKey wanted i) (child wanted v) := by
  obtain ⟨hs, left, base, bs, after, hleft, hbody, hlen, hrest⟩ := h
  obtain ⟨rest, o⟩ := i
  obtain rfl : rest = bs ++ after := hrest
  cases v with
  | null => simp only [body] at hbody; cases hbody; exact ⟨_, enterKey_scalar (by decide) (by decide) o⟩
  | bool b =>
    cases b <;> simp only [body] at hbody <;> cases hbody <;>
      exact ⟨_, enterKey_scalar (by decide) (by decide) o⟩
  | i64 n => simp only [body] at hbody; cases hbody; exact ⟨_, enterKey_scalar (by decide) (by decide) o⟩
  | f64 bits =>
    simp only [body] at hbody
    split at hbody
    · cases hbody; exact ⟨_, enterKey_scalar (by decide) (by decide) o⟩
    · cases hbody
  | str s => simp only [body] at hbody; cases hbody; exact ⟨_, enterKey_scalar (by decide) (by decide) o⟩
  | bytes b => simp only [body] at hbody; cases hbody; exact ⟨_, enterKey_scalar (by decide) (by decide) o⟩
  | array items =>
    simp only [body, except_bind_eq_ok] at hbody
    obtain ⟨rest, -, hr⟩ := hbody
    cases hr
    exact ⟨_, enterKey_scalar (by decide) (by decide) o⟩
  | map entries =>
    simp only [body, except_bind_eq_ok] at hbody
    obtain ⟨⟨offsets, rest⟩, hentries, hr⟩ := hbody
    obtain rfl : mapHead entries.length offsets ++ rest = bs := by simpa [pure, Except.pure] using hr
    obtain ⟨hasc, hsorted⟩ : KeysAscend entries ∧ SortedEntries entries := by simpa only [Sorted] using hs
    have hcount := writeEntries_bytes_length hentries
    have hoffs := writeEntries_length hentries
    simp only [List.length_append] at hlen
    have hn : (UInt64.ofNat entries.length).toNat = entries.length := toNat_ofNat_length (by omega)
    rw [Nat.add_sub_cancel] at hentries
    rw [child, mapHead]
    split
    · -- a table was written, and holds every offset
      rename_i htable
      obtain ⟨hmin, hlast⟩ := htable
      obtain ⟨last, hl, hle⟩ : ∃ last, offsets.getLast? = some last ∧ last ≤ 0xFFFF := by
        cases hg : offsets.getLast? with
        | none => rw [hg] at hlast; cases hlast
        | some l => rw [hg] at hlast; exact ⟨l, rfl, by simpa using hlast⟩
      have hsmall : ∀ o ∈ offsets, o ≤ 0xFFFF := fun o ho =>
        Nat.le_trans ((writeEntries_offsets_le hentries last hl).2 o ho) hle
      have htlen : (offsets.flatMap (fun off => Writer.u16 (UInt16.ofNat off))).length = entries.length * 2 := by
        rw [List.length_flatMap, ← hoffs]
        simp
      simp only [List.append_assoc]
      rw [enterKey, bind_of_ok (Reader.reads_u8 9 _ _), if_pos rfl, position_bind_apply,
        bind_of_ok (Reader.reads_varint _ _ _), remaining_bind_apply, bind_of_ok (Reader.bounded_of_le (by
          rw [hn]
          simp only [List.length_append, htlen]
          omega) _ _), hn]
      exact probeKey_spec (by omega) wanted hsorted hasc hentries (by omega) hsmall after _
    · -- the plain form
      simp only [List.append_assoc]
      rw [enterKey, bind_of_ok (Reader.reads_u8 8 _ _), if_neg (by decide), if_pos rfl, position_bind_apply,
        bind_of_ok (Reader.reads_varint _ _ _), remaining_bind_apply, bind_of_ok (Reader.bounded_of_le (by
          rw [hn]
          simp only [List.length_append]
          omega) _ _), hn]
      exact scanKey_spec (by omega) wanted entries hsorted hasc after _ hentries (by omega)

/-- **The walk over the bytes is the walk over the value**, down every path of one key or more. -/
theorem walk_spec (path : List Bytes) : path ≠ [] → ∀ {v : Value} {i : Input}, StandsAt v i →
    (walk path i).map Prod.fst = .ok (descend path v) := by
  induction path with
  | nil => exact fun h => absurd rfl h
  | cons wanted rest ih =>
    intro _ v i hv
    rw [walk, descend_cons]
    have hfinds := enterKey_spec wanted hv
    cases hchild : child wanted v with
    | none =>
      rw [hchild] at hfinds
      obtain ⟨j, hmiss⟩ := hfinds
      rw [bind_of_ok hmiss]
      rfl
    | some w =>
      rw [hchild] at hfinds
      obtain ⟨j, hw, hhit⟩ := hfinds
      rw [bind_of_ok hhit, if_pos rfl]
      cases rest with
      | nil =>
        obtain ⟨k, hread⟩ := hw.reads
        rw [if_pos List.isEmpty_nil, bind_of_ok hread]
        rfl
      | cons next rest =>
        rw [if_neg (by simp)]
        exact ih (List.cons_ne_nil _ _) hw

theorem segments_ne_nil (path : Str) : segments path ≠ [] := List.splitOn_ne_nil _ _

/-- What was written at the top stands there. -/
theorem standsAt_encode {v : Value} {bs : Bytes} (hs : v.Sorted) (h : v.encode = .ok bs) (hlen : bs.length < 2 ^ 64) :
    StandsAt v ⟨bs, 0⟩ := by
  have hguard : guardDepth maxValueDepth 0 (v.body maxValueDepth 0) = .ok bs := h
  exact ⟨hs, 15, 0, bs, [], by decide, (guardDepth_eq_ok.mp hguard).2, hlen, (List.append_nil bs).symm⟩

/-- **A path of one byte or more finds in the bytes what it finds in the value.** -/
theorem findPath_spec {v : Value} {bs : Bytes} (hs : v.Sorted) (h : v.encode = .ok bs) (hlen : bs.length < 2 ^ 64)
    {path : Str} (hpath : path.bytes ≠ []) : findPath bs path = .ok (descend (segments path) v) := by
  have hne : bs ≠ [] := by
    have hguard : guardDepth maxValueDepth 0 (v.body maxValueDepth 0) = .ok bs := h
    exact List.length_pos_iff.mp (body_length_pos (guardDepth_eq_ok.mp hguard).2)
  rw [findPath, if_neg (by simp [hne, hpath])]
  exact walk_spec _ (segments_ne_nil path) (standsAt_encode hs h hlen)

end Value

end IshaVectorDb.Format
