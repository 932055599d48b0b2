import IshaVectorDb.Engine.Document
import IshaVectorDb.Format.ValueLimits

/-!
# `Correctness.MetadataLimits` — metadata is checked **twice**, and the checks do not meet

Metadata is checked for its depth and its size by the engine, and for its depth and its floats by the encoder. The
engine counts a map of scalars as depth 1 and the encoder as depth 2, against the same bound; and a float that is not a
number is left to the encoder, whose errors are about stored bytes. `metadata_classified_iff` says for which metadata
the two together do what is documented: accept what is within the limits and blame the caller for the rest.
-/

namespace IshaVectorDb.Engine

open Format

namespace Metadata

/-- **The documented limits**: nesting, finite floats, and the size of the encoding. -/
structure Within (m : Metadata) : Prop where
  depth : m.depth ≤ Limits.maxMetadataDepth
  finite : m.toValue.Finite
  size : m.toValue.plain.length ≤ Limits.maxMetadataBytes

/-- A validation error: the caller's mistake. -/
def Blames {α : Type} (r : Except DbError α) : Prop := ∃ e, r = .error (.validation e)

/-- The error of what is too deep. -/
def tooDeep (m : Metadata) : DbError := .validation (.metadataDepthExceeded m.depth Limits.maxMetadataDepth)

/-- **Exact and classified**: what is within the limits is accepted, and anything else is a validation error, the depth
    error for what is too deep. -/
structure Classified (m : Metadata) : Prop where
  validate_ok : m.validate = .ok () ↔ Within m
  encode_ok : (∃ bs, m.encode = .ok bs) ↔ Within m
  validate_blames : ¬ Within m → Blames m.validate
  encode_blames : ¬ Within m → Blames m.encode
  deep : Limits.maxMetadataDepth < m.depth → m.validate = .error m.tooDeep ∧ m.encode = .error m.tooDeep

/-! ## The two depths -/

theorem entryDepths_eq (entries : List (Str × Value)) :
    Value.depth.entryDepths entries = (entries.map (fun e => e.2.depth)).foldr max 0 := by
  induction entries with
  | nil => rfl
  | cons e rest ih =>
    rw [show Value.depth.entryDepths (e :: rest) = max e.2.depth (Value.depth.entryDepths rest) from rfl, ih]
    rfl

/-- The encoder counts one more than the engine. -/
theorem depth_toValue (m : Metadata) : m.toValue.depth = m.depth + 1 := by
  show 1 + Value.depth.entryDepths m.entries = m.depth + 1
  rw [entryDepths_eq]
  unfold depth
  split
  · rename_i hempty
    rw [List.isEmpty_iff.mp hempty]
    rfl
  · omega

theorem encode_decided (m : Metadata) :
    Decided m.toValue.encode (m.depth + 1 ≤ maxValueDepth ∧ m.toValue.Finite) m.toValue.plain := by
  rw [← depth_toValue]
  exact Value.write_decided m.toValue maxValueDepth 0

/-! ## What the checks answer -/

variable {m : Metadata}

theorem validate_deep (h : Limits.maxMetadataDepth < m.depth) : m.validate = .error m.tooDeep := by
  unfold validate
  rw [if_pos h]
  rfl

theorem validate_refused (h : ¬ Limits.maxMetadataDepth < m.depth) {e : FormatError} (he : m.toValue.encode = .error e) :
    m.validate = .error (fromFormatAt .root e) := by
  unfold validate
  rw [if_neg h, he]
  rfl

theorem validate_encoded (h : ¬ Limits.maxMetadataDepth < m.depth) {bs : Bytes} (he : m.toValue.encode = .ok bs) :
    m.validate = if Limits.maxMetadataBytes < bs.length then
      .error (.validation (.metadataTooLarge m.culprit bs.length Limits.maxMetadataBytes)) else .ok () := by
  unfold validate
  rw [if_neg h, he]
  show (if Limits.maxMetadataBytes < bs.length then _ else _) = _
  split <;> rfl

theorem encode_of_validate_error {e : DbError} (h : m.validate = .error e) : m.encode = .error e := by
  unfold encode
  rw [h]
  rfl

theorem encode_of_validate_ok (h : m.validate = .ok ()) : m.encode = formatAt .root m.toValue.encode := by
  unfold encode
  rw [h]
  rfl

/-- What the encoder refuses is reported as damage. -/
theorem not_blames_malformed {α : Type} (at_ : Nat) (kind : MalformedKind) :
    ¬ Blames (.error (fromFormatAt .root (.malformed at_ kind)) : Except DbError α) := by
  rintro ⟨e, he⟩
  cases he

theorem classified_deep (h : Limits.maxMetadataDepth < m.depth) : Classified m := by
  have hv := validate_deep h
  have he := encode_of_validate_error hv
  have hnot : ¬ Within m := fun hw => Nat.not_le_of_lt h hw.depth
  refine ⟨⟨fun hok => ?_, fun hw => absurd hw hnot⟩, ⟨fun ⟨bs, hok⟩ => ?_, fun hw => absurd hw hnot⟩, fun _ => ⟨_, hv⟩,
    fun _ => ⟨_, he⟩, fun _ => ⟨hv, he⟩⟩
  · rw [hv] at hok; cases hok
  · rw [he] at hok; cases hok

theorem classified_shallow (h : m.depth + 1 ≤ maxValueDepth) (hfinite : m.toValue.Finite) : Classified m := by
  have hdepth : m.depth ≤ Limits.maxMetadataDepth := Nat.le_of_succ_le h
  have henc := m.encode_decided.ok ⟨h, hfinite⟩
  have hv := validate_encoded (Nat.not_lt_of_le hdepth) henc
  have hdeep : Limits.maxMetadataDepth < m.depth → m.validate = .error m.tooDeep ∧ m.encode = .error m.tooDeep :=
    fun hlt => absurd hlt (Nat.not_lt_of_le hdepth)
  by_cases hsize : Limits.maxMetadataBytes < m.toValue.plain.length
  · rw [if_pos hsize] at hv
    have he := encode_of_validate_error hv
    have hnot : ¬ Within m := fun hw => Nat.not_le_of_lt hsize hw.size
    refine ⟨⟨fun hok => ?_, fun hw => absurd hw hnot⟩, ⟨fun ⟨bs, hok⟩ => ?_, fun hw => absurd hw hnot⟩,
      fun _ => ⟨_, hv⟩, fun _ => ⟨_, he⟩, hdeep⟩
    · rw [hv] at hok; cases hok
    · rw [he] at hok; cases hok
  · rw [if_neg hsize] at hv
    have he := encode_of_validate_ok hv
    rw [henc] at he
    have hwithin : Within m := ⟨hdepth, hfinite, Nat.le_of_not_lt hsize⟩
    exact ⟨⟨fun _ => hwithin, fun _ => hv⟩, ⟨fun _ => hwithin, fun _ => ⟨_, he⟩⟩, absurd hwithin, absurd hwithin, hdeep⟩

/-- **When metadata is classified.** The checks do what is documented for exactly the metadata that is too deep, and the
    metadata of at most one level less than the limit whose floats are all finite. -/
theorem metadata_classified_iff (m : Metadata) :
    Classified m ↔ Limits.maxMetadataDepth < m.depth ∨
      m.depth < Limits.maxMetadataDepth ∧ m.toValue.Finite := by
  constructor
  · intro hc
    by_contra hnot
    have hdepth : ¬ Limits.maxMetadataDepth < m.depth := fun h => hnot (.inl h)
    have hout : ¬ (m.depth + 1 ≤ maxValueDepth ∧ m.toValue.Finite) := fun h => hnot (.inr h)
    obtain ⟨at_, kind, he⟩ := m.encode_decided.refused hout
    have hv := validate_refused hdepth he
    by_cases hw : Within m
    · have hok := hc.validate_ok.mpr hw
      rw [hv] at hok
      cases hok
    · have hblames := hc.validate_blames hw
      rw [hv] at hblames
      exact not_blames_malformed at_ kind hblames
  · rintro (h | ⟨h, hfinite⟩)
    · exact classified_deep h
    · exact classified_shallow h hfinite

/-- Arrays in arrays, a null in the innermost. -/
def nested : Nat → Value
  | 0 => .null
  | n + 1 => .array [nested n]

theorem nested_sorted (n : Nat) : (nested n).Sorted := by
  induction n with
  | zero => simp [nested, Value.Sorted]
  | succ n ih =>
    rw [nested, Value.Sorted, Value.SortedItems, Value.SortedItems]
    exact ⟨ih, trivial⟩

theorem nested_finite (n : Nat) : (nested n).Finite := by
  induction n with
  | zero => simp [nested, Value.Finite]
  | succ n ih =>
    rw [nested, Value.Finite, Value.FiniteItems, Value.FiniteItems]
    exact ⟨ih, trivial⟩

/-- One field holding fifteen arrays in each other: metadata of depth 16, which is the limit. -/
def atLimit : Metadata where
  entries := [(⟨[97], utf8_a⟩, nested 15)]
  sorted := by
    show (Value.map _).Sorted
    rw [Value.Sorted, Value.SortedEntries, Value.SortedEntries, Value.SortedEntry]
    exact ⟨List.pairwise_singleton _ _, nested_sorted 15, trivial⟩

/-- **Metadata of the depth that is allowed is refused**, and as damage to a file. -/
theorem limit_refused : ¬ ∀ m : Metadata, Classified m := by
  intro hall
  have hwithin : Within atLimit := by
    refine ⟨by decide, ?_, by decide⟩
    show (Value.map [(_, nested 15)]).Finite
    rw [Value.Finite, Value.FiniteEntries, Value.FiniteEntries, Value.FiniteEntry]
    exact ⟨nested_finite 15, trivial⟩
  have hout : ¬ (atLimit.depth + 1 ≤ maxValueDepth ∧ atLimit.toValue.Finite) := fun h => absurd h.1 (by decide)
  obtain ⟨at_, kind, he⟩ := atLimit.encode_decided.refused hout
  have hok := (hall atLimit).validate_ok.mpr hwithin
  rw [validate_refused (by decide) he] at hok
  cases hok

end Metadata

end IshaVectorDb.Engine
