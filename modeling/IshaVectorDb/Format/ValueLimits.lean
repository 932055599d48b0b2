import IshaVectorDb.Format.Value

/-!
# `Format.ValueLimits` — when the encoder **refuses** a value

The encoder checks two things on its way down, the depth and that every float is a number, and fails as malformed at the
first that is not so. What it writes does not depend on the checks: `plain` is a value's encoding with nothing checked,
and `write_decided` says that encoding with so many levels allowed gives exactly those bytes for a value of at most that
depth whose floats are finite, and is malformed for any other.
-/

namespace IshaVectorDb.Format

/-- **A write decided**: within its limits it gives these bytes, and beyond them it is malformed. -/
structure Decided {α : Type} (r : Except FormatError α) (within : Prop) (a : α) : Prop where
  ok : within → r = .ok a
  refused : ¬ within → ∃ at_ kind, r = .error (.malformed at_ kind)

namespace Decided

variable {α β : Type} {r : Except FormatError α} {f : α → Except FormatError β} {P Q : Prop} {a : α} {b : β}

theorem pure (a : α) : Decided (.ok a) True a := ⟨fun _ => rfl, fun h => absurd trivial h⟩

theorem congr (h : Decided r P a) (hPQ : P ↔ Q) : Decided r Q a :=
  ⟨fun hq => h.ok (hPQ.mpr hq), fun hq => h.refused (fun hp => hq (hPQ.mp hp))⟩

/-- One write after another: within both limits. -/
theorem bind (hr : Decided r P a) (hf : Decided (f a) Q b) : Decided (r >>= f) (P ∧ Q) b := by
  by_cases hp : P
  · rw [hr.ok hp]
    exact ⟨fun h => hf.ok h.2, fun h => hf.refused (fun hq => h ⟨hp, hq⟩)⟩
  · obtain ⟨at_, kind, he⟩ := hr.refused hp
    rw [he]
    exact ⟨fun h => absurd h.1 hp, fun _ => ⟨at_, kind, rfl⟩⟩

/-- A write and what cannot fail after it. -/
theorem andThen (hr : Decided r P a) (hf : f a = .ok b) : Decided (r >>= f) P b :=
  (hr.bind (Q := True) ⟨fun _ => hf, fun h => absurd trivial h⟩).congr (and_iff_left trivial)

theorem guardDepth (left at_ : Nat) (hr : Decided r P a) : Decided (Value.guardDepth left at_ r) (left ≠ 0 ∧ P) a := by
  unfold Value.guardDepth
  split
  · rename_i hzero
    exact ⟨fun h => absurd hzero h.1, fun _ => ⟨at_, _, rfl⟩⟩
  · rename_i hleft
    exact hr.congr ⟨fun hp => ⟨hleft, hp⟩, And.right⟩

end Decided

namespace Value

mutual

/-- **The encoding of a value**, nothing checked. -/
def plain : Value → Bytes
  | .null => [0]
  | .bool false => [1]
  | .bool true => [2]
  | .i64 v => [3] ++ Writer.varint (zigzag v)
  | .f64 bits => [4] ++ Writer.u64 bits
  | .str s => [5] ++ Writer.string s
  | .bytes b => [6] ++ Writer.blob b
  | .array items => [7] ++ Writer.varint (UInt64.ofNat items.length) ++ plainItems items
  | .map entries => mapHead entries.length (plainEntries 0 entries).1 ++ (plainEntries 0 entries).2
termination_by structural v => v

def plainItems : List Value → Bytes
  | [] => []
  | v :: rest => plain v ++ plainItems rest
termination_by structural l => l

/-- The entries' bytes, and the offset of each key from the first. -/
def plainEntries (offset : Nat) : List (Str × Value) → List Nat × Bytes
  | [] => ([], [])
  | e :: rest =>
      let (k, head) := plainEntry e
      let (offsets, tail) := plainEntries (offset + (k.length + head.length)) rest
      (offset :: offsets, k ++ (head ++ tail))
termination_by structural l => l

def plainEntry : Str × Value → Bytes × Bytes
  | (key, v) => (Writer.string key, plain v)
termination_by structural e => e

end

mutual

/-- Every float of a value is a number. -/
def Finite : Value → Prop
  | .f64 bits => finite64 bits = true
  | .array items => FiniteItems items
  | .map entries => FiniteEntries entries
  | _ => True
termination_by structural v => v

def FiniteItems : List Value → Prop
  | [] => True
  | v :: rest => Finite v ∧ FiniteItems rest
termination_by structural l => l

def FiniteEntries : List (Str × Value) → Prop
  | [] => True
  | e :: rest => FiniteEntry e ∧ FiniteEntries rest
termination_by structural l => l

def FiniteEntry : Str × Value → Prop
  | (_, v) => Finite v
termination_by structural e => e

end

theorem depth_pos (v : Value) : 1 ≤ v.depth := by
  cases v with
  | array items => exact Nat.le_add_right 1 _
  | map entries => exact Nat.le_add_right 1 _
  | _ => exact Nat.le_refl 1

/-- A scalar is within its limits wherever there is room for it. -/
theorem scalar_within {v : Value} {left : Nat} (hleft : left ≠ 0) (hdepth : v.depth = 1) (hfinite : v.Finite) :
    True ↔ v.depth ≤ left ∧ v.Finite :=
  ⟨fun _ => ⟨by omega, hfinite⟩, fun _ => trivial⟩

mutual

/-- **The encoder decided**, with `left` levels allowed for the value and below. -/
theorem body_decided : ∀ (v : Value) (left base : Nat), left ≠ 0 →
    Decided (v.body left base) (v.depth ≤ left ∧ v.Finite) v.plain
  | .null, left, base, hleft => by
    rw [body, plain]
    exact (Decided.pure _).congr (scalar_within hleft rfl (by simp [Finite]))
  | .bool b, left, base, hleft => by
    have hlimits := scalar_within hleft (v := .bool b) rfl (by simp [Finite])
    cases b with
    | false => rw [body, plain]; exact (Decided.pure _).congr hlimits
    | true => rw [body, plain]; exact (Decided.pure _).congr hlimits
  | .i64 v, left, base, hleft => by
    rw [body, plain]
    exact (Decided.pure _).congr (scalar_within hleft rfl (by simp [Finite]))
  | .f64 bits, left, base, hleft => by
    have hdepth : (Value.f64 bits).depth ≤ left := Nat.one_le_iff_ne_zero.mpr hleft
    rw [body, plain, Finite]
    split
    · rename_i hfinite
      exact (Decided.pure _).congr ⟨fun _ => ⟨hdepth, hfinite⟩, fun _ => trivial⟩
    · rename_i hnot
      exact ⟨fun h => absurd h.2 hnot, fun _ => ⟨_, _, rfl⟩⟩
  | .str s, left, base, hleft => by
    rw [body, plain]
    exact (Decided.pure _).congr (scalar_within hleft rfl (by simp [Finite]))
  | .bytes b, left, base, hleft => by
    rw [body, plain]
    exact (Decided.pure _).congr (scalar_within hleft rfl (by simp [Finite]))
  | .array items, left, base, hleft => by
    rw [body, plain, Finite]
    refine Decided.congr (Decided.andThen (items_decided items (left - 1) _) ?_) (and_congr_left fun _ => ?_)
    · rfl
    · unfold depth
      omega
  | .map entries, left, base, hleft => by
    rw [body, plain, Finite]
    refine Decided.congr (Decided.andThen (entries_decided entries (left - 1) _ 0) ?_) (and_congr_left fun _ => ?_)
    · rfl
    · unfold depth
      omega
termination_by structural v => v

theorem items_decided : ∀ (items : List Value) (left base : Nat),
    Decided (writeItems left base items) (depth.depths items ≤ left ∧ FiniteItems items) (plainItems items)
  | [], left, base => by
    rw [writeItems, plainItems]
    exact (Decided.pure _).congr ⟨fun _ => ⟨Nat.zero_le _, by rw [FiniteItems]; trivial⟩, fun _ => trivial⟩
  | v :: rest, left, base => by
    rw [writeItems, plainItems, FiniteItems]
    by_cases hleft : left = 0
    · subst hleft
      refine ⟨fun h => ?_, fun _ => ⟨base, _, rfl⟩⟩
      have hpos := depth_pos v
      have hmax := Nat.le_trans (Nat.le_max_left v.depth (depth.depths rest)) h.1
      omega
    · refine Decided.congr (Decided.bind ((body_decided v left base hleft).guardDepth left base)
        (Decided.andThen (items_decided rest left _) ?_)) ?_
      · rfl
      rw [show depth.depths (v :: rest) = max v.depth (depth.depths rest) from rfl]
      constructor
      · rintro ⟨⟨-, hd, hf⟩, hds, hfs⟩
        exact ⟨Nat.max_le.mpr ⟨hd, hds⟩, hf, hfs⟩
      · rintro ⟨hd, hf, hfs⟩
        obtain ⟨hd, hds⟩ := Nat.max_le.mp hd
        exact ⟨⟨hleft, hd, hf⟩, hds, hfs⟩
termination_by structural l => l

theorem entries_decided : ∀ (entries : List (Str × Value)) (left base offset : Nat),
    Decided (writeEntries left base offset entries) (depth.entryDepths entries ≤ left ∧ FiniteEntries entries)
      (plainEntries offset entries)
  | [], left, base, offset => by
    rw [writeEntries, plainEntries]
    exact (Decided.pure _).congr ⟨fun _ => ⟨Nat.zero_le _, by rw [FiniteEntries]; trivial⟩, fun _ => trivial⟩
  | e :: rest, left, base, offset => by
    rw [writeEntries, plainEntries, FiniteEntries]
    refine Decided.congr (Decided.bind (entry_decided e left base) (Decided.andThen (entries_decided rest left _ _) ?_)) ?_
    · rfl
    rw [show depth.entryDepths (e :: rest) = max e.2.depth (depth.entryDepths rest) from rfl]
    constructor
    · rintro ⟨⟨hd, hf⟩, hds, hfs⟩
      exact ⟨Nat.max_le.mpr ⟨hd, hds⟩, hf, hfs⟩
    · rintro ⟨hd, hf, hfs⟩
      obtain ⟨hd, hds⟩ := Nat.max_le.mp hd
      exact ⟨⟨hd, hf⟩, hds, hfs⟩
termination_by structural l => l

theorem entry_decided : ∀ (e : Str × Value) (left base : Nat),
    Decided (writeEntry left base e) (e.2.depth ≤ left ∧ FiniteEntry e) (plainEntry e)
  | (key, v), left, base => by
    rw [writeEntry, plainEntry, FiniteEntry]
    by_cases hleft : left = 0
    · subst hleft
      refine ⟨fun h => ?_, fun _ => ⟨_, _, rfl⟩⟩
      have hpos := depth_pos v
      have hd : v.depth ≤ 0 := h.1
      omega
    · refine Decided.congr (Decided.andThen ((body_decided v left _ hleft).guardDepth left _) ?_) ?_
      · rfl
      · exact ⟨And.right, fun hlimits => ⟨hleft, hlimits⟩⟩
termination_by structural e => e

end

/-- **Encoding decided**: a value of at most so many levels whose floats are finite. -/
theorem write_decided (v : Value) (left base : Nat) :
    Decided (v.write left base) (v.depth ≤ left ∧ v.Finite) v.plain := by
  unfold write
  by_cases hleft : left = 0
  · subst hleft
    refine ⟨fun h => ?_, fun _ => ⟨base, _, rfl⟩⟩
    have hpos := depth_pos v
    omega
  · exact ((body_decided v left base hleft).guardDepth left base).congr ⟨And.right, fun h => ⟨hleft, h⟩⟩

end Value

end IshaVectorDb.Format
