import IshaVectorDb.Engine.Segment
import IshaVectorDb.Format.Directories

/-!
# `Correctness.RowLookup` — **finding a document's row** through a directory

Opening a segment reads its directory into a row table: the entries, the ids, and a map from each id to its row.
`readRow_step` is one row of that loop, `readRows_finds` the whole of it: ids that can be told apart all lead to their
rows. With the round trip of the directory itself this gives `directory_round_trip_iff`: a directory answers for the
rows it was given exactly while its heap starts within 32 bits.
-/

namespace IshaVectorDb.Engine

open Format
open SegmentWriter (ofNat_toNat_u32)

namespace SegmentData

/-! ## Reading the row table -/

/-- **A table knows some ids**: each leads to its row, and nothing else leads anywhere. -/
structure RowTable.Knows (table : RowTable) (ids : List DocId) : Prop where
  row : ∀ (i : Nat) (id : DocId), ids[i]? = some id → table.byId.lookup id = some (UInt32.ofNat i)
  none : ∀ id, id ∉ ids → table.byId.lookup id = none

variable {catalog : Catalog} {d : Directory} {table : RowTable} {ids : List DocId}

/-- **One row**: an id the table does not know yet is added to it. -/
theorem readRow_step {id : DocId} (h : table.Knows ids) (hnew : id ∉ ids) {e : RowEntry} {raw : Bytes}
    (hentry : d.entry ids.length = some e) (hraw : d.id ids.length = some raw)
    (hid : DocId.fromBytes catalog.idKind raw = .ok id) :
    ∃ next, readRow catalog d table ids.length = .ok next ∧ next.Knows (ids ++ [id]) := by
  have habsent : (table.byId.lookup id).isSome = false := by rw [h.none id hnew]; rfl
  refine ⟨⟨table.entries ++ [e], table.ids ++ [id], table.byId.insert id (UInt32.ofNat ids.length)⟩, ?_, ?_, ?_⟩
  · unfold readRow
    rw [hentry, hraw]
    simp only [hid, Parsing.except_ok_bind, habsent]
    rfl
  · intro i a ha
    by_cases hsame : a = id
    · -- the new id stands at the end, and only there
      subst hsame
      rcases Nat.lt_or_ge i ids.length with hi | hi
      · rw [List.getElem?_append_left hi] at ha
        exact absurd (List.mem_of_getElem? ha) hnew
      · obtain ⟨hlt, -⟩ := List.getElem?_eq_some_iff.mp ha
        rw [List.length_append, List.length_singleton] at hlt
        obtain rfl : i = ids.length := by omega
        exact AList.lookup_insert _
    · rw [AList.lookup_insert_ne hsame]
      rcases Nat.lt_or_ge i ids.length with hi | hi
      · rw [List.getElem?_append_left hi] at ha
        exact h.row i a ha
      · rw [List.getElem?_append_right hi] at ha
        exact absurd (List.mem_singleton.mp (List.mem_of_getElem? ha)) hsame
  · intro a ha
    rw [List.mem_append, List.mem_singleton, not_or] at ha
    rw [AList.lookup_insert_ne ha.2]
    exact h.none a ha.1

/-- The ids of a collection that a directory's rows name. -/
def Named (catalog : Catalog) (rows : List DirectoryRow) (ids : List DocId) : Prop :=
  List.Forall₂ (fun r id => DocId.fromBytes catalog.idKind r.id = .ok id) rows ids

/-- **The whole table**: ids that can be told apart all lead to their rows. -/
theorem readRows_finds {rows : List DirectoryRow} (hd : d.Shows rows) (hnamed : Named catalog rows ids)
    (hnodup : ids.Nodup) : ∃ table, readRows catalog d = .ok table ∧ table.Knows ids := by
  have hlen : rows.length = ids.length := hnamed.length_eq
  have hupto : ∀ n ≤ ids.length, ∃ table,
      (List.range n).foldlM (readRow catalog d) ⟨[], [], ∅⟩ = .ok table ∧ table.Knows (ids.take n) := by
    intro n hn
    induction n with
    | zero => exact ⟨_, rfl, nofun, fun id _ => AList.lookup_empty id⟩
    | succ n ih =>
      obtain ⟨table, htable, hknows⟩ := ih (by omega)
      have hrow : n < rows.length := by omega
      have htake : (ids.take n).length = n := by rw [List.length_take]; omega
      obtain ⟨e, hentry, -⟩ := hd.entry n rows[n] (List.getElem?_eq_getElem hrow)
      have hraw := hd.id n rows[n] (List.getElem?_eq_getElem hrow)
      have hid : DocId.fromBytes catalog.idKind rows[n].id = .ok ids[n] :=
        (List.forall₂_iff_get.mp hnamed).2 n hrow (by omega)
      have hnew : ids[n] ∉ ids.take n := by
        intro hmem
        obtain ⟨k, hk, hsame⟩ := List.mem_take_iff_getElem.mp hmem
        have := (List.Nodup.getElem_inj_iff hnodup).mp hsame
        omega
      obtain ⟨next, hnext, hknows'⟩ := readRow_step hknows hnew (by rw [htake]; exact hentry)
        (by rw [htake]; exact hraw) hid
      rw [htake] at hnext
      refine ⟨next, ?_, ?_⟩
      · rw [List.range_succ, List.foldlM_append, htable, Parsing.except_ok_bind, List.foldlM_cons, hnext]
        rfl
      · rw [List.take_succ_eq_append_getElem (by omega)]
        exact hknows'
  obtain ⟨table, htable, hknows⟩ := hupto ids.length (le_refl _)
  rw [List.take_length] at hknows
  refine ⟨table, ?_, hknows⟩
  unfold readRows
  rw [hd.count, hlen]
  exact htable

end SegmentData

/-! ## The round trip of a directory -/

/-- **A directory answers for some rows**: it opens with as many of them, gives for each its id and the place of its
    record, and in every collection where the ids can be told apart, looking one up gives its row. -/
def AnswersFor (bytes : Bytes) (rows : List DirectoryRow) : Prop :=
  ∃ d, Directory.open bytes = .ok d ∧ d.Shows rows ∧
    ∀ catalog ids, SegmentData.Named catalog rows ids → ids.Nodup →
      ∃ table, SegmentData.readRows catalog d = .ok table ∧
        ∀ (i : Nat) (id : DocId), ids[i]? = some id → (table.byId.lookup id).map UInt32.toNat = some i

theorem answersFor_of_fit {rows : List DirectoryRow} {w : DirectoryWriter} (h : w.Holds rows)
    (hfit : dirPrefixLen + rows.length * dirEntryLen < 2 ^ 32) : AnswersFor w.finish rows := by
  have hcount : rows.length < 2 ^ 32 := by
    unfold dirPrefixLen dirEntryLen at hfit
    omega
  have hshows := h.view_shows hcount
  refine ⟨w.view, Directory.open_of_holds h hfit, hshows, fun catalog ids hnamed hnodup => ?_⟩
  obtain ⟨table, htable, hknows⟩ := SegmentData.readRows_finds hshows hnamed hnodup
  refine ⟨table, htable, fun i id hi => ?_⟩
  obtain ⟨hlt, -⟩ := List.getElem?_eq_some_iff.mp hi
  have hlen := hnamed.length_eq
  rw [hknows.row i id hi, Option.map_some, ofNat_toNat_u32 (by omega)]

/-- **When a directory round-trips**: its heap starts within 32 bits. -/
theorem directory_round_trip_iff (rows : List DirectoryRow) (w : DirectoryWriter)
    (h : DirectoryWriter.pushAll ⟨[], []⟩ rows = .ok w) :
    AnswersFor w.finish rows ↔ dirPrefixLen + rows.length * dirEntryLen < 2 ^ 32 := by
  have hholds := DirectoryWriter.pushAll_holds h
  constructor
  · rintro ⟨d, hopen, hshows, -⟩
    exact Directory.field_of_open hholds hopen hshows.count
  · exact answersFor_of_fit hholds

/-- Three rows, the second with an id of two bytes and no record. -/
theorem directory_round_trip_iff_three :
    AnswersFor (DirectoryWriter.mk [⟨7, 3, 0, 0, 1, 0⟩, ⟨10, 0, 0, 1, 2, 0⟩, ⟨10, 4, 0, 3, 1, 0⟩] [0x61, 0x62, 0x63, 0x64]).finish
      [⟨[0x61], 7, 3, 0⟩, ⟨[0x62, 0x63], 10, 0, 0⟩, ⟨[0x64], 10, 4, 0⟩] :=
  (directory_round_trip_iff [⟨[0x61], 7, 3, 0⟩, ⟨[0x62, 0x63], 10, 0, 0⟩, ⟨[0x64], 10, 4, 0⟩]
    ⟨[⟨7, 3, 0, 0, 1, 0⟩, ⟨10, 0, 0, 1, 2, 0⟩, ⟨10, 4, 0, 3, 1, 0⟩], [0x61, 0x62, 0x63, 0x64]⟩ rfl).mpr (by decide)

/-- Rows with empty ids are taken up to the last number the row type can hold. -/
theorem pushAll_replicate {k : Nat} : ∀ n, k + n ≤ 2 ^ 32 →
    DirectoryWriter.pushAll ⟨List.replicate k ⟨0, 0, 0, 0, 0, 0⟩, []⟩ (List.replicate n ⟨[], 0, 0, 0⟩) =
      .ok ⟨List.replicate (k + n) ⟨0, 0, 0, 0, 0, 0⟩, []⟩ := by
  intro n
  induction n generalizing k with
  | zero => intro _; rfl
  | succ n ih =>
    intro hn
    have hpush : DirectoryWriter.push ⟨List.replicate k ⟨0, 0, 0, 0, 0, 0⟩, []⟩ [] 0 0 0 =
        .ok (UInt32.ofNat k, ⟨List.replicate (k + 1) ⟨0, 0, 0, 0, 0, 0⟩, []⟩) := by
      unfold DirectoryWriter.push
      have hheap : ¬ 2 ^ 32 ≤ ([] : Bytes).length := by decide
      rw [if_neg hheap, if_neg (by decide), List.length_replicate]
      rw [if_neg (by decide), if_neg (by omega), List.replicate_succ']
      rfl
    unfold DirectoryWriter.pushAll at ih ⊢
    rw [List.replicate_succ, List.foldlM_cons, hpush, Nat.add_comm n 1, ← Nat.add_assoc]
    exact ih (by omega)

/-- The first size at which the heap's start no longer fits: every push is taken, and the directory does not answer. -/
theorem directory_round_trip_fails : ∃ w,
    DirectoryWriter.pushAll ⟨[], []⟩ (List.replicate 178956970 ⟨[], 0, 0, 0⟩) = .ok w ∧
      ¬ AnswersFor w.finish (List.replicate 178956970 ⟨[], 0, 0, 0⟩) := by
  have hpush := pushAll_replicate (k := 0) 178956970 (by decide)
  refine ⟨_, hpush, ?_⟩
  rintro ⟨d, hopen, hshows, -⟩
  have hfit := Directory.field_of_open (DirectoryWriter.pushAll_holds hpush) hopen hshows.count
  rw [List.length_replicate] at hfit
  exact absurd hfit (by decide)

end IshaVectorDb.Engine
