import IshaVectorDb.Format.Cursor
import Mathlib.Tactic.SplitIfs

/-!
# `Format.Value` — metadata values and their canonical encoding

One logical value has one byte form: map keys ascend, varints are minimal, a map of eight entries or more
carries an offset table. `decode_encode` is the round trip: whatever `encode` accepts of a value whose maps
are sorted, `decode` reads back.
-/

namespace IshaVectorDb.Format

open Parsing

/-- Deepest permitted nesting of arrays and maps. -/
def maxValueDepth : Nat := 16

/-- Field count at or above which a map is written with an offset table. -/
def indexMinEntries : Nat := 8

/-- Bytes per entry in the offset table. -/
def indexEntryBytes : Nat := 2

/-- A metadata value. An `i64` is its two's complement bits and an `f64` its IEEE bits; a map is the sorted
    list of its entries. -/
inductive Value
  | null
  | bool (b : Bool)
  | i64 (v : UInt64)
  | f64 (bits : UInt64)
  | str (s : Str)
  | bytes (b : Bytes)
  | array (items : List Value)
  | map (entries : List (Str × Value))

/-- `f64::is_finite` on the bits: the exponent is not all ones. -/
def finite64 (bits : UInt64) : Bool := bits.toNat / 2 ^ 52 % 2 ^ 11 ≠ 2 ^ 11 - 1

/-! ## Zigzag -/

/-- `(v << 1) ^ (v >> 63)` on the bits of an `i64`: the arithmetic shift is all ones exactly when the value
    is negative, and then the exclusive or is the complement. -/
def zigzag (v : UInt64) : UInt64 :=
  UInt64.ofNat (if v.toNat < 2 ^ 63 then 2 * v.toNat else 2 ^ 65 - 1 - 2 * v.toNat)

/-- `(n >> 1) ^ -(n & 1)`. -/
def unzigzag (n : UInt64) : UInt64 :=
  UInt64.ofNat (if n.toNat % 2 = 0 then n.toNat / 2 else 2 ^ 64 - 1 - n.toNat / 2)

theorem unzigzag_zigzag (v : UInt64) : unzigzag (zigzag v) = v := by
  have hv := v.toNat_lt
  have hz : (zigzag v).toNat = if v.toNat < 2 ^ 63 then 2 * v.toNat else 2 ^ 65 - 1 - 2 * v.toNat := by
    unfold zigzag
    rw [UInt64.toNat_ofNat']
    split <;> omega
  apply UInt64.toNat.inj
  unfold unzigzag
  rw [UInt64.toNat_ofNat', hz]
  split_ifs <;> omega

/-! ## Encoding -/

namespace Value

/-- How deeply a value nests; a scalar is depth 1. -/
def depth : Value → Nat
  | array items => 1 + depths items
  | map entries => 1 + entryDepths entries
  | _ => 1
where
  depths : List Value → Nat
    | [] => 0
    | v :: rest => max v.depth (depths rest)
  entryDepths : List (Str × Value) → Nat
    | [] => 0
    | (_, v) :: rest => max v.depth (entryDepths rest)

/-- Depth is checked on the way down: `left` levels are still allowed at offset `at_`. -/
def guardDepth {α : Type} (left at_ : Nat) (r : Except FormatError α) : Except FormatError α :=
  if left = 0 then .error (.malformed at_ (.depthExceeded maxValueDepth)) else r

/-- The tag, count and table that precede a map's entries, and whether a table is written: offsets are
    `u16`, so a map whose entries outgrow that is written plain. -/
def mapHead (count : Nat) (offsets : List Nat) : Bytes :=
  let n := Writer.varint (UInt64.ofNat count)
  if indexMinEntries ≤ count ∧ offsets.getLast?.any (· ≤ 0xFFFF) then
    [9] ++ (n ++ offsets.flatMap (fun off => Writer.u16 (UInt16.ofNat off)))
  else [8] ++ n

mutual

/-- The bytes a value appends to a writer that holds `base` bytes, its own depth already checked, with
    `left` levels allowed for it and below. -/
def body (left base : Nat) : Value → Except FormatError Bytes
  | .null => .ok [0]
  | .bool false => .ok [1]
  | .bool true => .ok [2]
  | .i64 v => .ok ([3] ++ Writer.varint (zigzag v))
  | .f64 bits => if finite64 bits then .ok ([4] ++ Writer.u64 bits) else .error (.malformed base .nonFiniteFloat)
  | .str s => .ok ([5] ++ Writer.string s)
  | .bytes b => .ok ([6] ++ Writer.blob b)
  | .array items => do
      let head := [7] ++ Writer.varint (UInt64.ofNat items.length)
      let rest ← writeItems (left - 1) (base + head.length) items
      return head ++ rest
  | .map entries => do
      -- a map that may carry a table has its entries written aside, since the table precedes them
      let entriesBase := if entries.length < indexMinEntries then
          base + ([8] ++ Writer.varint (UInt64.ofNat entries.length)).length else 0
      let (offsets, rest) ← writeEntries (left - 1) entriesBase 0 entries
      return mapHead entries.length offsets ++ rest
termination_by structural v => v

def writeItems (left base : Nat) : List Value → Except FormatError Bytes
  | [] => .ok []
  | v :: rest => do
      let head ← guardDepth left base (v.body left base)
      let tail ← writeItems left (base + head.length) rest
      return head ++ tail
termination_by structural l => l

/-- The entries' bytes, and the offset of each key from the first. -/
def writeEntries (left base offset : Nat) : List (Str × Value) → Except FormatError (List Nat × Bytes)
  | [] => .ok ([], [])
  | e :: rest => do
      let (k, head) ← writeEntry left base e
      let n := k.length + head.length
      let (offsets, tail) ← writeEntries left (base + n) (offset + n) rest
      return (offset :: offsets, k ++ (head ++ tail))
termination_by structural l => l

def writeEntry (left base : Nat) : Str × Value → Except FormatError (Bytes × Bytes)
  | (key, v) => do
      let k := Writer.string key
      let head ← guardDepth left (base + k.length) (v.body left (base + k.length))
      return (k, head)
termination_by structural e => e

end

/-- Append a value to a writer that holds `base` bytes. -/
def write (left base : Nat) (v : Value) : Except FormatError Bytes := guardDepth left base (v.body left base)

/-- Encode to bytes. -/
def encode (v : Value) : Except FormatError Bytes := v.write maxValueDepth 0

/-! ## Decoding -/

/-- One entry of a map's offset table. -/
def tableOffset (table : Bytes) (index : Nat) : Option Nat :=
  let entry := (table.drop (index * indexEntryBytes)).take indexEntryBytes
  if entry.length = indexEntryBytes then some (leNat entry) else none

/-- The key order a map is held to. -/
def checkOrder (keyAt : Nat) (previous : Option Str) (key : Str) : Reader Unit :=
  match previous with
  | none => pure ()
  | some prev =>
      if prev.bytes < key.bytes then pure ()
      else if key.bytes = prev.bytes then fail (.malformed keyAt .duplicateKey)
      else fail (.malformed keyAt .keysNotSorted)

/-- Where a table is present, it is validated rather than trusted. -/
def checkTable (table : Option Bytes) (tableAt entriesBase keyAt index : Nat) : Reader Unit :=
  match table with
  | none => pure ()
  | some table =>
      if tableOffset table index = some (keyAt - entriesBase) then pure ()
      else fail (.malformed tableAt (.inconsistent "map offset table"))

/-- Read a map's entries from number `index` on. -/
def readEntries (readValue : Reader Value) (table : Option Bytes) (tableAt entriesBase : Nat) :
    Nat → Nat → Option Str → Reader (List (Str × Value))
  | 0, _, _ => pure []
  | n + 1, index, previous => do
      let keyAt ← position
      checkTable table tableAt entriesBase keyAt index
      let key ← Reader.string
      checkOrder keyAt previous key
      let value ← readValue
      let rest ← readEntries readValue table tableAt entriesBase n (index + 1) (some key)
      return (key, value) :: rest

/-- Read one value with `left` levels of nesting allowed. -/
def readAt : Nat → Reader Value
  | 0 => do
      let at_ ← position
      fail (.malformed at_ (.depthExceeded maxValueDepth))
  | left + 1 => do
      let at_ ← position
      let t ← Reader.u8
      if t = 0 then return .null
      else if t = 1 then return .bool false
      else if t = 2 then return .bool true
      else if t = 3 then return .i64 (unzigzag (← Reader.varint))
      else if t = 4 then do
        let floatAt ← position
        let bits ← Reader.u64
        if finite64 bits then return .f64 bits else fail (.malformed floatAt .nonFiniteFloat)
      else if t = 5 then return .str (← Reader.string)
      else if t = 6 then return .bytes (← Reader.blob)
      else if t = 7 then do
        let countAt ← position
        let count ← Reader.varint
        let room ← remaining
        let count ← Reader.bounded count room countAt
        return .array (← times (readAt left) count)
      else if t = 8 then do
        let countAt ← position
        let count ← Reader.varint
        let room ← remaining
        let count ← Reader.bounded count (room / 2) countAt
        let base ← position
        return .map (← readEntries (readAt left) none base base count 0 none)
      else if t = 9 then do
        let countAt ← position
        let count ← Reader.varint
        let room ← remaining
        let count ← Reader.bounded count (room / (2 + indexEntryBytes)) countAt
        if count < indexMinEntries then fail (.malformed at_ (.inconsistent "map index tag"))
        else do
          let tableAt ← position
          let table ← Reader.bytes (count * indexEntryBytes)
          let base ← position
          return .map (← readEntries (readAt left) (some table) tableAt base count 0 none)
      else fail (.malformed at_ (.unknownValueTag t))

/-- Read one value that takes the whole input. -/
def readWhole : Reader Value := do
  let v ← readAt maxValueDepth
  Reader.expectEnd "value"
  return v

/-- Decode a value, requiring the whole input to be consumed. -/
def decode (bs : Bytes) : Except FormatError Value := (readWhole ⟨bs, 0⟩).map Prod.fst

/-! ## Sorted values -/

/-- Keys that strictly ascend. -/
def KeysAscend (entries : List (Str × Value)) : Prop :=
  (entries.map (fun e => e.1.bytes)).Pairwise (· < ·)

mutual

/-- Every map inside the value has strictly ascending keys, as a `BTreeMap` does. -/
def Sorted : Value → Prop
  | .array items => SortedItems items
  | .map entries => KeysAscend entries ∧ SortedEntries entries
  | _ => True
termination_by structural v => v

def SortedItems : List Value → Prop
  | [] => True
  | v :: rest => v.Sorted ∧ SortedItems rest
termination_by structural l => l

def SortedEntries : List (Str × Value) → Prop
  | [] => True
  | e :: rest => SortedEntry e ∧ SortedEntries rest
termination_by structural l => l

def SortedEntry : Str × Value → Prop
  | (_, v) => v.Sorted
termination_by structural e => e

end

/-! ## Round trip -/

theorem guardDepth_eq_ok {α : Type} {left at_ : Nat} {r : Except FormatError α} {a : α} :
    guardDepth left at_ r = .ok a ↔ left ≠ 0 ∧ r = .ok a := by
  unfold guardDepth
  split_ifs with h
  · exact ⟨fun h' => (nomatch h'), fun h' => absurd h h'.1⟩
  · exact ⟨fun h' => ⟨h, h'⟩, fun h' => h'.2⟩

theorem writeEntry_eq_ok {left base : Nat} {e : Str × Value} {k head : Bytes}
    (h : writeEntry left base e = .ok (k, head)) : k = Writer.string e.1 ∧ left ≠ 0 ∧
      e.2.body left (base + k.length) = .ok head := by
  obtain ⟨key, v⟩ := e
  simp only [writeEntry, except_bind_eq_ok] at h
  obtain ⟨head', hw, hr⟩ := h
  obtain ⟨hleft, hbody⟩ := guardDepth_eq_ok.mp hw
  obtain ⟨rfl, rfl⟩ : Writer.string key = k ∧ head' = head := by simpa [pure, Except.pure] using hr
  exact ⟨rfl, hleft, hbody⟩

theorem writeEntries_cons_eq_ok {left base offset : Nat} {e : Str × Value} {rest : List (Str × Value)}
    {offsets : List Nat} {bs : Bytes} (h : writeEntries left base offset (e :: rest) = .ok (offsets, bs)) :
    ∃ head offsets' tail, left ≠ 0 ∧ e.2.body left (base + (Writer.string e.1).length) = .ok head ∧
      (∃ base', writeEntries left base' (offset + ((Writer.string e.1).length + head.length)) rest
        = .ok (offsets', tail)) ∧
      offsets = offset :: offsets' ∧ bs = Writer.string e.1 ++ (head ++ tail) := by
  simp only [writeEntries, except_bind_eq_ok] at h
  obtain ⟨⟨k, head⟩, hentry, ⟨offsets', tail⟩, hrest, hr⟩ := h
  obtain ⟨rfl, hleft, hbody⟩ := writeEntry_eq_ok hentry
  obtain ⟨rfl, rfl⟩ : offset :: offsets' = offsets ∧ Writer.string e.1 ++ (head ++ tail) = bs := by
    simpa [pure, Except.pure] using hr
  exact ⟨head, offsets', tail, hleft, hbody, ⟨_, hrest⟩, rfl, rfl⟩

theorem writeEntries_length {left : Nat} {entries : List (Str × Value)} :
    ∀ {base offset : Nat} {offsets : List Nat} {bs : Bytes},
      writeEntries left base offset entries = .ok (offsets, bs) → offsets.length = entries.length := by
  induction entries with
  | nil =>
    intro base offset offsets bs h
    simp only [writeEntries] at h
    cases h; rfl
  | cons e rest ih =>
    intro base offset offsets bs h
    obtain ⟨head, offsets', tail, -, -, ⟨base', hrest⟩, rfl, -⟩ := writeEntries_cons_eq_ok h
    rw [List.length_cons, List.length_cons, ih hrest]

theorem body_length_pos {left base : Nat} {v : Value} {bs : Bytes} (h : v.body left base = .ok bs) :
    0 < bs.length := by
  cases v with
  | null => simp only [body] at h; cases h; simp
  | bool b => cases b <;> simp only [body] at h <;> cases h <;> simp
  | i64 v => simp only [body] at h; cases h; simp
  | f64 bits =>
    simp only [body] at h
    split at h
    · cases h; simp
    · cases h
  | str s => simp only [body] at h; cases h; simp
  | bytes b => simp only [body] at h; cases h; simp
  | array items =>
    simp only [body, except_bind_eq_ok] at h
    obtain ⟨rest, -, hr⟩ := h
    cases hr; simp
  | map entries =>
    simp only [body, except_bind_eq_ok] at h
    obtain ⟨⟨offsets, rest⟩, -, hr⟩ := h
    cases hr
    simp only [mapHead]
    split <;> simp

theorem writeItems_length {left : Nat} {items : List Value} :
    ∀ {base : Nat} {bs : Bytes}, writeItems left base items = .ok bs → items.length ≤ bs.length := by
  induction items with
  | nil => intro base bs _; simp
  | cons v rest ih =>
    intro base bs h
    simp only [writeItems, except_bind_eq_ok] at h
    obtain ⟨head, hw, tail, ht, hr⟩ := h
    cases hr
    have h1 := body_length_pos (guardDepth_eq_ok.mp hw).2
    have h2 := ih ht
    rw [List.length_cons, List.length_append]; omega

theorem writeEntries_bytes_length {left : Nat} {entries : List (Str × Value)} :
    ∀ {base offset : Nat} {offsets : List Nat} {bs : Bytes},
      writeEntries left base offset entries = .ok (offsets, bs) → 2 * entries.length ≤ bs.length := by
  induction entries with
  | nil => intro base offset offsets bs _; simp
  | cons e rest ih =>
    intro base offset offsets bs h
    obtain ⟨head, offsets', tail, -, hbody, ⟨base', hrest⟩, -, rfl⟩ := writeEntries_cons_eq_ok h
    have h1 := body_length_pos hbody
    have h2 := ih hrest
    have h3 : 0 < (Writer.string e.1).length := by
      rw [Writer.string, Writer.blob_length]
      have := Writer.varint_length_pos (UInt64.ofNat e.1.bytes.length); omega
    simp only [List.length_cons, List.length_append]; omega

/-- Offsets ascend, so the last one bounds them all. -/
theorem writeEntries_offsets_le {left : Nat} {entries : List (Str × Value)} :
    ∀ {base offset : Nat} {offsets : List Nat} {bs : Bytes},
      writeEntries left base offset entries = .ok (offsets, bs) →
      ∀ last, offsets.getLast? = some last → offset ≤ last ∧ ∀ o ∈ offsets, o ≤ last := by
  induction entries with
  | nil =>
    intro base offset offsets bs h last hl
    simp only [writeEntries] at h
    cases h; cases hl
  | cons e rest ih =>
    intro base offset offsets bs h last hl
    obtain ⟨head, offsets', tail, -, -, ⟨base', hrest⟩, rfl, -⟩ := writeEntries_cons_eq_ok h
    cases hlast : offsets'.getLast? with
    | none =>
      have hnil : offsets' = [] := List.getLast?_eq_none_iff.mp hlast
      subst hnil
      obtain rfl : offset = last := by simpa using hl
      simp
    | some l =>
      have hl' : l = last := by
        rw [List.getLast?_cons, hlast] at hl
        simpa using hl
      subst hl'
      obtain ⟨h1, h2⟩ := ih hrest l hlast
      refine ⟨by omega, fun o ho => ?_⟩
      rcases List.mem_cons.mp ho with rfl | ho
      · omega
      · exact h2 o ho

/-- The table that `mapHead` writes holds every offset. -/
theorem tableOffset_flatMap (offsets : List Nat) (h : ∀ o ∈ offsets, o ≤ 0xFFFF) :
    ∀ i (hi : i < offsets.length),
      tableOffset (offsets.flatMap (fun off => Writer.u16 (UInt16.ofNat off))) i = some offsets[i] := by
  have hread : ∀ o ≤ 0xFFFF, leNat (Writer.u16 (UInt16.ofNat o)) = o := by
    intro o ho
    have hto : (UInt16.ofNat o).toNat = o := by rw [UInt16.toNat_ofNat']; omega
    rw [Writer.u16, hto, leNat_leBytes_of_lt (by omega)]
  have hhead : ∀ o (rest : Bytes), (Writer.u16 (UInt16.ofNat o) ++ rest).take 2 = Writer.u16 (UInt16.ofNat o) :=
    fun o rest => List.take_left' (Writer.u16_length _)
  induction offsets with
  | nil => intro i hi; simp at hi
  | cons o offsets ih =>
    intro i hi
    cases i with
    | zero =>
      simp only [tableOffset, List.flatMap_cons, Nat.zero_mul, List.drop_zero, indexEntryBytes, hhead,
        Writer.u16_length, if_true, hread o (h o List.mem_cons_self), List.getElem_cons_zero]
    | succ i =>
      have hrec := ih (fun o' ho' => h o' (List.mem_cons_of_mem _ ho')) i (by simpa using hi)
      have hdrop : ∀ rest : Bytes, (Writer.u16 (UInt16.ofNat o) ++ rest).drop ((i + 1) * indexEntryBytes)
          = rest.drop (i * indexEntryBytes) := by
        intro rest
        have hsplit : (i + 1) * indexEntryBytes = 2 + i * indexEntryBytes := by
          unfold indexEntryBytes; omega
        rw [hsplit, ← List.drop_drop, List.drop_left' (Writer.u16_length _)]
      rw [tableOffset, List.flatMap_cons, hdrop]
      simpa [tableOffset] using hrec

theorem checkOrder_ok {keyAt : Nat} {previous : Option Str} {key : Str}
    (h : ∀ p ∈ previous, p.bytes < key.bytes) : checkOrder keyAt previous key = pure () := by
  cases previous with
  | none => rfl
  | some p => exact if_pos (h p rfl)

/-- The entries of a map, read from the offset where they stand: the reader at `entriesBase + offset` finds
    each key where the table says it is. -/
theorem readEntries_ok {readValue : Reader Value} {left : Nat} (table : Option Bytes)
    (tableAt entriesBase : Nat) {entries : List (Str × Value)}
    (hread : ∀ e ∈ entries, left ≠ 0 → ∀ base bs, e.2.body left base = .ok bs → bs.length < 2 ^ 64 →
      Reads readValue bs e.2) :
    ∀ {base offset : Nat} (index : Nat) (previous : Option Str) {offsets : List Nat} {bs : Bytes} (rest : Bytes),
      writeEntries left base offset entries = .ok (offsets, bs) → bs.length < 2 ^ 64 →
      (∀ p ∈ previous, ∀ e ∈ entries, p.bytes < e.1.bytes) → KeysAscend entries →
      (∀ t ∈ table, ∀ i (hi : i < offsets.length), tableOffset t (index + i) = some offsets[i]) →
      readEntries readValue table tableAt entriesBase entries.length index previous
        ⟨bs ++ rest, entriesBase + offset⟩ = .ok (entries, ⟨rest, entriesBase + offset + bs.length⟩) := by
  induction entries with
  | nil =>
    intro base offset index previous offsets bs rest h _ _ _ _
    simp only [writeEntries] at h
    cases h; rfl
  | cons e entries ih =>
    intro base offset index previous offsets bs rest h hlen hprev hasc htab
    obtain ⟨head, offsets', tail, hleft, hbody, ⟨base', hrest⟩, rfl, rfl⟩ := writeEntries_cons_eq_ok h
    simp only [List.length_append] at hlen
    have hkey : e.1.bytes.length < 2 ^ 64 := by
      rw [Writer.string, Writer.blob_length] at hlen; omega
    have hasc' := List.pairwise_cons.mp hasc
    have hcheck : checkTable table tableAt entriesBase (entriesBase + offset) index = pure () := by
      cases table with
      | none => rfl
      | some t =>
        have ht := htab t rfl 0 (by simp)
        refine if_pos ?_
        rw [Nat.add_sub_cancel_left]
        simpa using ht
    have hvalue := hread e List.mem_cons_self hleft _ head hbody (by omega)
    have hnext := ih (fun e' he' => hread e' (List.mem_cons_of_mem _ he')) (index + 1) (some e.1) rest hrest
      (by omega)
      (fun p hp e' he' => by
        cases hp
        exact hasc'.1 e'.1.bytes (List.mem_map.mpr ⟨e', he', rfl⟩))
      hasc'.2
      (fun t ht i hi => by
        have := htab t ht (i + 1) (by simpa using hi)
        rw [List.getElem_cons_succ] at this
        rwa [Nat.add_assoc, Nat.add_comm 1 i])
    rw [List.length_cons, readEntries, position_bind_apply, hcheck, bind_of_ok (pure_apply () _), List.append_assoc, bind_of_ok (Reader.reads_string hkey _ _),
      checkOrder_ok (fun p hp => hprev p hp e List.mem_cons_self), bind_of_ok (pure_apply () _),
      List.append_assoc, bind_of_ok (hvalue _ _)]
    have hpos : entriesBase + offset + (Writer.string e.1).length + head.length
        = entriesBase + (offset + ((Writer.string e.1).length + head.length)) := by omega
    rw [hpos, bind_of_ok hnext]
    simp only [pure_apply, List.length_append]
    rw [show entriesBase + (offset + ((Writer.string e.1).length + head.length)) + tail.length
      = entriesBase + offset + ((Writer.string e.1).length + (head.length + tail.length)) by omega]

theorem toNat_ofNat_length {n : Nat} (h : n < 2 ^ 64) : (UInt64.ofNat n).toNat = n := by
  rw [UInt64.toNat_ofNat']; exact Nat.mod_eq_of_lt h

mutual

/-- **A value reads back from its bytes**, at any depth the writer accepted. -/
theorem reads_body : ∀ (v : Value) (left base : Nat) (bs : Bytes), v.Sorted →
    v.body (left + 1) base = .ok bs → bs.length < 2 ^ 64 → Reads (readAt (left + 1)) bs v
  | .null, left, base, bs, _, h, _ => by
    simp only [body] at h; cases h
    exact Reads.position_bind (fun _ => (Reader.reads_u8 0).bind_nil (Reads.pure _))
  | .bool b, left, base, bs, _, h, _ => by
    cases b <;> simp only [body] at h <;> cases h
    · exact Reads.position_bind (fun _ => (Reader.reads_u8 1).bind_nil (Reads.pure _))
    · exact Reads.position_bind (fun _ => (Reader.reads_u8 2).bind_nil (Reads.pure _))
  | .i64 v, left, base, bs, _, h, _ => by
    simp only [body] at h; cases h
    refine Reads.position_bind (fun _ => (Reader.reads_u8 3).bind ((Reader.reads_varint _).bind_nil ?_))
    rw [unzigzag_zigzag]; exact Reads.pure _
  | .f64 bits, left, base, bs, _, h, _ => by
    simp only [body] at h
    split at h
    · rename_i hfin
      cases h
      refine Reads.position_bind (fun _ => (Reader.reads_u8 4).bind ?_)
      refine Reads.position_bind (fun _ => (Reader.reads_u64 bits).bind_nil ?_)
      rw [if_pos hfin]; exact Reads.pure _
    · cases h
  | .str s, left, base, bs, _, h, hlen => by
    simp only [body] at h; cases h
    have hs : s.bytes.length < 2 ^ 64 := by
      simp only [List.length_append, Writer.string, Writer.blob_length] at hlen; omega
    exact Reads.position_bind (fun _ => (Reader.reads_u8 5).bind
      ((Reader.reads_string hs).bind_nil (Reads.pure _)))
  | .bytes b, left, base, bs, _, h, hlen => by
    simp only [body] at h; cases h
    have hb : b.length < 2 ^ 64 := by
      simp only [List.length_append, Writer.blob_length] at hlen; omega
    exact Reads.position_bind (fun _ => (Reader.reads_u8 6).bind
      ((Reader.reads_blob hb).bind_nil (Reads.pure _)))
  | .array items, left, base, bs, hs, h, hlen => by
    simp only [body, except_bind_eq_ok] at h
    obtain ⟨rest, hitems, hr⟩ := h
    cases hr
    rw [List.append_assoc] at hlen ⊢
    simp only [List.length_append] at hlen
    have hcount := writeItems_length hitems
    have hn : (UInt64.ofNat items.length).toNat = items.length := toNat_ofNat_length (by omega)
    have hsorted : SortedItems items := by simpa only [Sorted] using hs
    refine Reads.position_bind (fun _ => (Reader.reads_u8 7).bind (Reads.position_bind (fun countAt => ?_)))
    refine (Reader.reads_varint _).bind (Reads.remaining_bind (fun room hroom => ?_))
    refine Reads.nil_bind (Reader.reads_bounded countAt (by rw [hn]; omega)) ?_
    rw [hn]
    exact (reads_items items left _ rest hsorted hitems (by omega)).bind_nil (Reads.pure _)
  | .map entries, left, base, bs, hs, h, hlen => by
    simp only [body, except_bind_eq_ok] at h
    obtain ⟨⟨offsets, rest⟩, hentries, hr⟩ := h
    obtain rfl : mapHead entries.length offsets ++ rest = bs := by simpa [pure, Except.pure] using hr
    obtain ⟨hasc, hsorted⟩ : KeysAscend entries ∧ SortedEntries entries := by simpa only [Sorted] using hs
    have hcount := writeEntries_bytes_length hentries
    have hoffs := writeEntries_length hentries
    simp only [List.length_append] at hlen
    have hn : (UInt64.ofNat entries.length).toNat = entries.length := toNat_ofNat_length (by omega)
    have hread := reads_entries entries left hsorted
    unfold mapHead
    split
    · -- a table was written, and holds every offset
      rename_i htable
      obtain ⟨hmin, hlast⟩ := htable
      obtain ⟨last, hl, hle⟩ : ∃ last, offsets.getLast? = some last ∧ last ≤ 0xFFFF := by
        cases hg : offsets.getLast? with
        | none => rw [hg] at hlast; cases hlast
        | some l => rw [hg] at hlast; exact ⟨l, rfl, by simpa using hlast⟩
      have hsmall : ∀ o ∈ offsets, o ≤ 0xFFFF := fun o ho =>
        Nat.le_trans ((writeEntries_offsets_le hentries last hl).2 o ho) hle
      have htab := tableOffset_flatMap offsets hsmall
      have htlen : (offsets.flatMap (fun off => Writer.u16 (UInt16.ofNat off))).length
          = entries.length * indexEntryBytes := by
        rw [List.length_flatMap, ← hoffs]
        simp [indexEntryBytes]
      rw [List.append_assoc, List.append_assoc]
      refine Reads.position_bind (fun at_ => (Reader.reads_u8 9).bind (Reads.position_bind (fun countAt => ?_)))
      refine (Reader.reads_varint _).bind (Reads.remaining_bind (fun room hroom => ?_))
      rw [List.length_append, htlen] at hroom
      refine Reads.nil_bind (Reader.reads_bounded countAt ?_) ?_
      · rw [hn]
        show entries.length ≤ room / 4
        have : indexEntryBytes = 2 := rfl
        rw [this] at hroom; omega
      rw [hn, if_neg (by omega)]
      refine Reads.position_bind (fun tableAt => (Reader.reads_bytes htlen).bind ?_)
      intro after o
      have hstep := readEntries_ok (some (offsets.flatMap (fun off => Writer.u16 (UInt16.ofNat off)))) tableAt o
        hread 0 none after hentries (by omega) (fun p hp => nomatch hp) hasc
        (fun t ht i hi => by cases ht; rw [Nat.zero_add]; exact htab i hi)
      rw [Nat.add_zero] at hstep
      rw [position_bind_apply, bind_of_ok hstep]; rfl
    · -- the plain form
      rw [List.append_assoc]
      refine Reads.position_bind (fun at_ => (Reader.reads_u8 8).bind (Reads.position_bind (fun countAt => ?_)))
      refine (Reader.reads_varint _).bind (Reads.remaining_bind (fun room hroom => ?_))
      refine Reads.nil_bind (Reader.reads_bounded countAt (by rw [hn]; omega)) ?_
      rw [hn]
      intro after o
      have hstep := readEntries_ok none o o hread 0 none after hentries (by omega)
        (fun p hp => nomatch hp) hasc (fun t ht => nomatch ht)
      rw [Nat.add_zero] at hstep
      rw [position_bind_apply, bind_of_ok hstep]; rfl
termination_by structural v => v

theorem reads_items : ∀ (items : List Value) (left base : Nat) (bs : Bytes), SortedItems items →
    writeItems left base items = .ok bs → bs.length < 2 ^ 64 →
    Reads (times (readAt left) items.length) bs items
  | [], left, base, bs, _, h, _ => by
    simp only [writeItems] at h; cases h
    exact Reads.pure []
  | v :: rest, left, base, bs, hs, h, hlen => by
    simp only [writeItems, except_bind_eq_ok] at h
    obtain ⟨head, hw, tail, ht, hr⟩ := h
    cases hr
    obtain ⟨hleft, hbody⟩ := guardDepth_eq_ok.mp hw
    obtain ⟨left, rfl⟩ : ∃ n, left = n + 1 := ⟨left - 1, by omega⟩
    rw [List.length_append] at hlen
    obtain ⟨hv, hrest⟩ : v.Sorted ∧ SortedItems rest := by simpa only [SortedItems] using hs
    refine (reads_body v left base head hv hbody (by omega)).bind ?_
    exact (reads_items rest (left + 1) _ tail hrest ht (by omega)).bind_nil (Reads.pure _)
termination_by structural l => l

theorem reads_entries : ∀ (entries : List (Str × Value)) (left : Nat), SortedEntries entries →
    ∀ e ∈ entries, left ≠ 0 → ∀ base bs, e.2.body left base = .ok bs → bs.length < 2 ^ 64 →
      Reads (readAt left) bs e.2
  | [], _, _ => fun e he => nomatch he
  | e :: rest, left, hs => by
    obtain ⟨he, hrest⟩ : SortedEntry e ∧ SortedEntries rest := by simpa only [SortedEntries] using hs
    intro e' he'
    rcases List.mem_cons.mp he' with heq | he'
    · rw [heq]; exact reads_entry e left he
    · exact reads_entries rest left hrest e' he'
termination_by structural l => l

theorem reads_entry : ∀ (e : Str × Value) (left : Nat), SortedEntry e → left ≠ 0 →
    ∀ base bs, e.2.body left base = .ok bs → bs.length < 2 ^ 64 → Reads (readAt left) bs e.2
  | (_, v), left, hs, hleft => by
    intro base bs h hlen
    obtain ⟨left, rfl⟩ : ∃ n, left = n + 1 := ⟨left - 1, by omega⟩
    exact reads_body v left base bs (by simpa only [SortedEntry] using hs) h hlen
termination_by structural e => e

end

/-- **The round trip of a value.** -/
theorem decode_encode {v : Value} {bs : Bytes} (hs : v.Sorted) (h : v.encode = .ok bs)
    (hlen : bs.length < 2 ^ 64) : decode bs = .ok v := by
  have hw : guardDepth maxValueDepth 0 (v.body maxValueDepth 0) = .ok bs := h
  have hbody : v.body maxValueDepth 0 = .ok bs := (guardDepth_eq_ok.mp hw).2
  have hread : Reads (readAt maxValueDepth) bs v := reads_body v 15 0 bs hs hbody hlen
  have hall : ReadsAll readWhole bs v := by
    refine ReadsAll.bind_nil (ReadsAll.of_reads hread) ?_
    exact ReadsAll.bind_nil (Reader.readsAll_expectEnd "value") (ReadsAll.pure v)
  unfold decode
  rw [hall 0]; rfl

/-! ## What the decoder accepts is sorted -/

theorem sortedItems_of_forall {items : List Value} (h : ∀ v ∈ items, v.Sorted) : SortedItems items := by
  induction items with
  | nil => trivial
  | cons v rest ih =>
    exact ⟨h v List.mem_cons_self, ih (fun w hw => h w (List.mem_cons_of_mem _ hw))⟩

theorem checkOrder_yields (keyAt : Nat) (previous : Option Str) (key : Str) :
    Yields (checkOrder keyAt previous key) (fun _ => ∀ prev ∈ previous, prev.bytes < key.bytes) := by
  unfold checkOrder
  cases previous with
  | none => exact Yields.pure (fun _ h => (Option.not_mem_none _ h).elim)
  | some prev =>
    refine Yields.ite (fun hlt => Yields.pure (fun p hp => ?_)) (fun _ => Yields.ite
      (fun _ => Yields.fail _) (fun _ => Yields.fail _))
    obtain rfl := Option.mem_some.mp hp
    exact hlt

/-- Entries read one after the other ascend, each above the key before it. -/
theorem readEntries_yields {readValue : Reader Value} (hv : Yields readValue Sorted) (table : Option Bytes)
    (tableAt entriesBase : Nat) (n index : Nat) (previous : Option Str) :
    Yields (readEntries readValue table tableAt entriesBase n index previous) (fun entries =>
      SortedEntries entries ∧ (∀ prev ∈ previous, ∀ e ∈ entries, prev.bytes < e.1.bytes) ∧
        KeysAscend entries) := by
  induction n generalizing index previous with
  | zero => exact Yields.pure ⟨trivial, fun _ _ _ he => (List.not_mem_nil he).elim, List.Pairwise.nil⟩
  | succ n ih =>
    refine Yields.skip (fun keyAt => Yields.skip (fun _ => Yields.skip (fun key => ?_)))
    refine Yields.bind (checkOrder_yields keyAt previous key) (fun _ hkey => ?_)
    refine Yields.bind hv (fun v hsorted => Yields.bind (ih (index + 1) (some key)) ?_)
    rintro rest ⟨hrest, habove, hasc⟩
    have hlt : ∀ e ∈ rest, key.bytes < e.1.bytes := habove key rfl
    refine Yields.pure ⟨⟨hsorted, hrest⟩, fun prev hprev e he => ?_, ?_⟩
    · rcases List.mem_cons.mp he with rfl | he
      · exact hkey prev hprev
      · exact List.lt_trans (hkey prev hprev) (hlt e he)
    · refine List.pairwise_cons.mpr ⟨fun k hk => ?_, hasc⟩
      obtain ⟨e, he, rfl⟩ := List.mem_map.mp hk
      exact hlt e he

/-- **Every map the decoder builds has strictly ascending keys.** -/
theorem readAt_yields (left : Nat) : Yields (readAt left) Sorted := by
  induction left with
  | zero => exact Yields.skip (fun _ => Yields.fail _)
  | succ left ih =>
    refine Yields.skip (fun at_ => Yields.skip (fun t => ?_))
    refine Yields.ite (fun _ => Yields.pure trivial) (fun _ => ?_)
    refine Yields.ite (fun _ => Yields.pure trivial) (fun _ => ?_)
    refine Yields.ite (fun _ => Yields.pure trivial) (fun _ => ?_)
    refine Yields.ite (fun _ => Yields.skip (fun _ => Yields.pure trivial)) (fun _ => ?_)
    refine Yields.ite (fun _ => Yields.skip (fun _ => Yields.skip (fun _ => Yields.ite
      (fun _ => Yields.pure trivial) (fun _ => Yields.fail _)))) (fun _ => ?_)
    refine Yields.ite (fun _ => Yields.skip (fun _ => Yields.pure trivial)) (fun _ => ?_)
    refine Yields.ite (fun _ => Yields.skip (fun _ => Yields.pure trivial)) (fun _ => ?_)
    refine Yields.ite (fun _ => Yields.skip (fun _ => Yields.skip (fun _ => Yields.skip (fun _ => Yields.skip
      (fun n => Yields.bind (Yields.times ih n) (fun items hitems => Yields.pure ?_)))))) (fun _ => ?_)
    · exact sortedItems_of_forall hitems
    refine Yields.ite (fun _ => Yields.skip (fun _ => Yields.skip (fun _ => Yields.skip (fun _ => Yields.skip
      (fun n => Yields.skip (fun base => Yields.bind (readEntries_yields ih none base base n 0 none)
        (fun entries h => Yields.pure ?_))))))) (fun _ => ?_)
    · exact ⟨h.2.2, h.1⟩
    refine Yields.ite (fun _ => Yields.skip (fun _ => Yields.skip (fun _ => Yields.skip (fun _ => Yields.skip
      (fun n => Yields.ite (fun _ => Yields.fail _) (fun _ => Yields.skip (fun tableAt => Yields.skip
        (fun table => Yields.skip (fun base => Yields.bind
          (readEntries_yields ih (some table) tableAt base n 0 none)
            (fun entries h => Yields.pure ?_)))))))))) (fun _ => Yields.fail _)
    exact ⟨h.2.2, h.1⟩

/-- **What decodes is sorted.** -/
theorem decode_sorted {bs : Bytes} {v : Value} (h : decode bs = .ok v) : v.Sorted := by
  have hwhole : Yields readWhole Sorted :=
    Yields.bind (readAt_yields maxValueDepth) (fun v hv => Yields.skip (fun _ => Yields.pure hv))
  unfold decode at h
  cases hr : readWhole ⟨bs, 0⟩ with
  | error e => rw [hr] at h; cases h
  | ok r =>
    rw [hr] at h
    obtain rfl : r.1 = v := Except.ok.inj h
    exact hwhole _ r.1 r.2 hr

end Value

end IshaVectorDb.Format
