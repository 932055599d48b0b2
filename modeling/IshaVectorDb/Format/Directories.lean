import IshaVectorDb.Format.Segment

/-!
# `Format.Directories` — a row directory after **any sequence of pushes**

`DirectoryWriter.push` checks each id, the heap in front of it and the number of rows before it takes a row. `Holds`
says what the writer has after a sequence of rows, `Holds.push` is one step and `pushAll_holds` the run. `finish` cuts
the start of the heap to 32 bits: `Directory.open_of_holds` is the round trip while the heap starts in range, and
`Directory.field_of_open` that no directory past it opens as what was pushed.
-/

namespace IshaVectorDb.Format

open Parsing
open SegmentWriter (ofNat_toNat_u32 ofNat_toNat_u16)

/-- What one row hands to the directory's writer. -/
structure DirectoryRow where
  id : Bytes
  metaOffset : UInt64
  metaLen : UInt32
  invNorm : UInt32

/-- The row's entry, its id at the given place of the heap. -/
def DirectoryRow.entry (r : DirectoryRow) (idOffset : Nat) : RowEntry :=
  ⟨r.metaOffset, r.metaLen, r.invNorm, UInt32.ofNat idOffset, UInt16.ofNat r.id.length, 0⟩

namespace DirectoryWriter

/-- Push rows one after the other. -/
def pushAll (w : DirectoryWriter) (rows : List DirectoryRow) : Except FormatError DirectoryWriter :=
  rows.foldlM (fun w r => (w.push r.id r.metaOffset r.metaLen r.invNorm).map Prod.snd) w

/-! ## What the writer holds -/

/-- **What a writer holds** after some rows: their ids one after the other, and for each row an entry that points at
    its id. -/
structure Holds (w : DirectoryWriter) (rows : List DirectoryRow) : Prop where
  count : w.entries.length = rows.length
  few : rows.length ≤ 2 ^ 32
  heap : w.heap = rows.flatMap DirectoryRow.id
  entry : ∀ (i : Nat) (r : DirectoryRow), rows[i]? = some r → w.entries[i]? = some (r.entry (offsetOf DirectoryRow.id rows i))
  offset : ∀ i, i < rows.length → offsetOf DirectoryRow.id rows i < 2 ^ 32
  id : ∀ r ∈ rows, r.id.length < 2 ^ 16
  invNorm : ∀ r ∈ rows, Reader.finite32 r.invNorm = true

theorem Holds.empty : Holds ⟨[], []⟩ [] := ⟨rfl, by decide, rfl, nofun, nofun, nofun, nofun⟩

variable {w next : DirectoryWriter} {rows : List DirectoryRow} {r : DirectoryRow}

/-- What a push checks, and what it leaves. -/
theorem push_eq_ok {count : UInt32} (h : w.push r.id r.metaOffset r.metaLen r.invNorm = .ok (count, next)) :
    r.id.length < 2 ^ 16 ∧ w.heap.length < 2 ^ 32 ∧ Reader.finite32 r.invNorm = true ∧ w.entries.length < 2 ^ 32 ∧
      next = ⟨w.entries ++ [r.entry w.heap.length], w.heap ++ r.id⟩ := by
  unfold push at h
  split_ifs at h with hid hheap hfinite hcount
  cases h
  rw [Bool.not_eq_false] at hfinite
  exact ⟨by omega, by omega, hfinite, by omega, rfl⟩

/-- Rows behind an item do not move it. -/
theorem offsetOf_concat {i : Nat} (hi : i ≤ rows.length) (r : DirectoryRow) :
    offsetOf DirectoryRow.id (rows ++ [r]) i = offsetOf DirectoryRow.id rows i := by
  unfold offsetOf
  rw [List.take_append_of_le_length hi]

theorem Holds.heap_length (h : w.Holds rows) : w.heap.length = offsetOf DirectoryRow.id rows rows.length := by
  rw [h.heap, offsetOf, List.take_length]

/-- **One push.** -/
theorem Holds.push (h : w.Holds rows) {count : UInt32}
    (hpush : w.push r.id r.metaOffset r.metaLen r.invNorm = .ok (count, next)) : next.Holds (rows ++ [r]) := by
  obtain ⟨hid, hheap, hfinite, hcount, rfl⟩ := push_eq_ok hpush
  have hsame := h.heap_length
  have hrows := h.count
  refine ⟨?_, ?_, ?_, fun i a ha => ?_, fun i hi => ?_, fun a ha => ?_, fun a ha => ?_⟩
  · rw [List.length_append, List.length_append, hrows]; rfl
  · rw [List.length_append, List.length_singleton]; omega
  · rw [List.flatMap_append, List.flatMap_singleton, h.heap]
  · rcases Nat.lt_or_ge i rows.length with hi | hi
    · rw [List.getElem?_append_left hi] at ha
      rw [List.getElem?_append_left (by omega), offsetOf_concat hi.le]
      exact h.entry i a ha
    · -- the row that was pushed last
      obtain ⟨hlt, -⟩ := List.getElem?_eq_some_iff.mp ha
      rw [List.length_append, List.length_singleton] at hlt
      obtain rfl : i = rows.length := by omega
      rw [List.getElem?_append_right (le_refl _), Nat.sub_self] at ha
      obtain rfl := Option.some.inj ha
      rw [List.getElem?_append_right (by omega), hrows, Nat.sub_self, offsetOf_concat (le_refl _), hsame]
      rfl
  · rw [List.length_append, List.length_singleton] at hi
    rw [offsetOf_concat (by omega)]
    rcases Nat.lt_or_ge i rows.length with hi' | hi'
    · exact h.offset i hi'
    · obtain rfl : i = rows.length := by omega
      rw [← hsame]
      exact hheap
  · rcases List.mem_append.mp ha with ha | ha
    · exact h.id a ha
    · obtain rfl := List.mem_singleton.mp ha
      exact hid
  · rcases List.mem_append.mp ha with ha | ha
    · exact h.invNorm a ha
    · obtain rfl := List.mem_singleton.mp ha
      exact hfinite

/-- **Any sequence of pushes.** -/
theorem Holds.pushAll {before : List DirectoryRow} (h : w.Holds before) (hpush : w.pushAll rows = .ok next) :
    next.Holds (before ++ rows) := by
  induction rows generalizing w before with
  | nil =>
    obtain rfl : w = next := Except.ok.inj hpush
    rw [List.append_nil]
    exact h
  | cons r rows ih =>
    unfold DirectoryWriter.pushAll at hpush
    rw [List.foldlM_cons] at hpush
    obtain ⟨w1, hw1, hrest⟩ := except_bind_eq_ok.mp hpush
    cases hp : w.push r.id r.metaOffset r.metaLen r.invNorm with
    | error e => rw [hp] at hw1; cases hw1
    | ok pushed =>
      obtain ⟨count, next1⟩ := pushed
      rw [hp] at hw1
      obtain rfl : next1 = w1 := Except.ok.inj hw1
      have hnext := ih (h.push hp) hrest
      rwa [List.append_assoc, List.singleton_append] at hnext

theorem pushAll_holds (hpush : DirectoryWriter.pushAll ⟨[], []⟩ rows = .ok w) : w.Holds rows := by
  have h := Holds.empty.pushAll hpush
  rwa [List.nil_append] at h

/-- The heap ends soon after its last id starts. -/
theorem Holds.heap_lt (h : w.Holds rows) : w.heap.length < 2 ^ 60 := by
  rw [h.heap_length]
  cases hn : rows.length with
  | zero =>
    rw [List.length_eq_zero_iff.mp hn]
    decide
  | succ n =>
    have hlt : n < rows.length := by omega
    have hstart := h.offset n hlt
    have hid := h.id rows[n] (List.getElem_mem hlt)
    rw [offsetOf_succ _ hlt]
    omega

end DirectoryWriter

/-! ## Reading the directory back -/

/-- **A directory shows some rows**: as many, and for each its id, the place of its record and its norm. -/
structure Directory.Shows (d : Directory) (rows : List DirectoryRow) : Prop where
  count : d.rows.toNat = rows.length
  entry : ∀ (i : Nat) (r : DirectoryRow), rows[i]? = some r →
    ∃ e, d.entry i = some e ∧ e.metaOffset = r.metaOffset ∧ e.metaLen = r.metaLen ∧
      e.invNorm = r.invNorm
  id : ∀ (i : Nat) (r : DirectoryRow), rows[i]? = some r → d.id i = some r.id

section ReadBack

variable {w : DirectoryWriter} {rows : List DirectoryRow}

theorem DirectoryWriter.Holds.view_entry (h : w.Holds rows) {i : Nat} {r : DirectoryRow} (hr : rows[i]? = some r) :
    w.view.entry i = some (r.entry (offsetOf DirectoryRow.id rows i)) :=
  DirectoryWriter.view_entry (h.entry i r hr) (h.invNorm r (List.mem_of_getElem? hr))

/-- The range an entry gives for its id. -/
theorem DirectoryWriter.Holds.idRange (h : w.Holds rows) {i : Nat} {r : DirectoryRow} (hr : rows[i]? = some r) :
    (r.entry (offsetOf DirectoryRow.id rows i)).idOffset.toNat = offsetOf DirectoryRow.id rows i ∧
      (r.entry (offsetOf DirectoryRow.id rows i)).idLen.toNat = r.id.length := by
  obtain ⟨hi, -⟩ := List.getElem?_eq_some_iff.mp hr
  exact ⟨ofNat_toNat_u32 (h.offset i hi), ofNat_toNat_u16 (h.id r (List.mem_of_getElem? hr))⟩

theorem DirectoryWriter.Holds.view_id (h : w.Holds rows) {i : Nat} {r : DirectoryRow} (hr : rows[i]? = some r) :
    w.view.id i = some r.id := by
  obtain ⟨hoffset, hlen⟩ := h.idRange hr
  obtain ⟨hi, rfl⟩ := List.getElem?_eq_some_iff.mp hr
  have hheap : w.view.heap = rows.flatMap DirectoryRow.id := h.heap
  unfold Directory.id
  rw [h.view_entry hr, Option.bind_eq_bind, Option.bind_some, hoffset, hlen, hheap]
  exact slice_flatMap DirectoryRow.id hi

theorem DirectoryWriter.Holds.view_shows (h : w.Holds rows) (hlt : rows.length < 2 ^ 32) : w.view.Shows rows := by
  refine ⟨?_, fun i r hr => ⟨_, h.view_entry hr, rfl, rfl, rfl⟩, fun i r hr => h.view_id hr⟩
  show (UInt32.ofNat w.entries.length).toNat = _
  rw [h.count]
  exact ofNat_toNat_u32 hlt

/-- **The round trip**, while the heap starts within 32 bits. -/
theorem Directory.open_of_holds (h : w.Holds rows) (hfit : dirPrefixLen + rows.length * dirEntryLen < 2 ^ 32) :
    Directory.open w.finish = .ok w.view := by
  refine Directory.open_finish (by rw [h.count]; exact hfit) h.heap_lt (fun i hi => ?_)
  rw [h.count] at hi
  obtain ⟨hoffset, hlen⟩ := h.idRange (List.getElem?_eq_getElem hi)
  have hheap : w.view.heap = rows.flatMap DirectoryRow.id := h.heap
  have hle := offsetOf_add_le DirectoryRow.id hi
  unfold Directory.checkEntry
  rw [h.view_entry (List.getElem?_eq_getElem hi)]
  simp only [hoffset, hlen, hheap]
  exact if_neg (Nat.not_lt.mpr hle)

/-- **Past 32 bits nothing reads back**: a directory that opens with as many rows as were pushed has its heap in
    range. -/
theorem Directory.field_of_open (h : w.Holds rows) {d : Directory} (hopen : Directory.open w.finish = .ok d)
    (hrows : d.rows.toNat = rows.length) : dirPrefixLen + rows.length * dirEntryLen < 2 ^ 32 := by
  have hfew : w.entries.length ≤ 2 ^ 32 := by
    rw [h.count]
    exact h.few
  obtain ⟨-, hfield⟩ := Directory.rows_of_open_finish hfew h.heap_lt hopen
  rw [h.count] at hfield
  rcases hfield with hfit | hmany
  · exact hfit
  · -- `2 ^ 32` rows do not fit the row count
    have := d.rows.toNat_lt
    omega

end ReadBack

end IshaVectorDb.Format
