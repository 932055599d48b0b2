import IshaVectorDb.Engine.Search
import IshaVectorDb.Format.ValueLookup

/-!
# `Engine.Filter` — metadata filters and **their evaluation, which cannot fail**

A filter is an expression over the fields of one document. What it reads a field from is either metadata in memory or
the bytes of a segment's record, one field of which is found without decoding the rest. Numbers compare by value across
the integer and the float, exactly: a float is an integer multiple of `2 ^ -1074`.
-/

namespace IshaVectorDb.Engine

open Format Index

/-! ## Fields by path -/

namespace Metadata

/-- A top-level field. -/
def get (m : Metadata) (key : Str) : Option Value := Value.lookup key.bytes m.entries

/-- A field by dotted path, descending into nested maps. -/
def getPath (m : Metadata) (path : Str) : Option Value :=
  match Value.segments path with
  | [] => none
  | first :: rest => (Value.lookup first m.entries).bind (Value.descend rest)

theorem getPath_eq (m : Metadata) (path : Str) : m.getPath path = Value.descend (Value.segments path) m.toValue := by
  unfold getPath
  cases hp : Value.segments path with
  | nil => exact absurd hp (Value.segments_ne_nil path)
  | cons first rest => rfl

end Metadata

/-- Where a filter reads fields from: metadata in memory, an encoded map, or no metadata at all. -/
inductive Fields
  | decoded (m : Metadata)
  | encoded (bytes : Bytes)
  | empty

/-- Resolve a dotted path; malformed bytes resolve to absent. -/
def Fields.resolve : Fields → Str → Option Value
  | .empty, _ => none
  | .decoded m, path => m.getPath path
  | .encoded bytes, path => match Value.findPath bytes path with
    | .ok found => found
    | .error _ => none

/-! ## Numbers -/

/-- An `i64` as the number it is. -/
def i64Int (v : UInt64) : Int := if v.toNat < 2 ^ 63 then v.toNat else (v.toNat : Int) - 2 ^ 64

/-- Round to 53 significant bits, ties to even. -/
def round53 (n : Nat) : Nat :=
  if n < 2 ^ 53 then n
  else
    let unit := 2 ^ (n.log2 - 52)
    let q := n / unit
    let r := n % unit
    (if unit < 2 * r ∨ (unit = 2 * r ∧ q % 2 = 1) then q + 1 else q) * unit

/-- `x as f64`, in units of `2 ^ -1074`. -/
def i64Key (v : UInt64) : Int :=
  let n := i64Int v
  (if 0 ≤ n then (round53 n.natAbs : Int) else -(round53 n.natAbs : Int)) * 2 ^ 1074

/-- An `f64` in units of `2 ^ -1074`: no number is none, and the infinities lie beyond every finite one. -/
def f64Key (bits : UInt64) : Option Int :=
  let exponent := bits.toNat / 2 ^ 52 % 2 ^ 11
  let fraction := bits.toNat % 2 ^ 52
  if exponent = 2 ^ 11 - 1 ∧ fraction ≠ 0 then none
  else
    let magnitude : Nat :=
      if exponent = 2 ^ 11 - 1 then 2 ^ 2100
      else if exponent = 0 then fraction
      else (2 ^ 52 + fraction) * 2 ^ (exponent - 1)
    some (if bits.toNat < 2 ^ 63 then (magnitude : Int) else -(magnitude : Int))

/-- `PartialOrd::partial_cmp` of floats. -/
def compareKeys (a b : Option Int) : Option Ordering :=
  match a, b with
  | some x, some y => some (compare x y)
  | _, _ => none

/-! ## Comparing values -/

namespace Filter

mutual

/-- Equality between two values: mismatched types are unequal, integers and floats compare numerically. -/
def same : Value → Value → Bool
  | .null, .null => true
  | .bool x, .bool y => x == y
  | .i64 x, .i64 y => x == y
  | .f64 x, .f64 y => compareKeys (f64Key x) (f64Key y) == some .eq
  | .i64 x, .f64 y => compareKeys (some (i64Key x)) (f64Key y) == some .eq
  | .f64 y, .i64 x => compareKeys (some (i64Key x)) (f64Key y) == some .eq
  | .str x, .str y => x == y
  | .bytes x, .bytes y => x == y
  | .array x, .array y => sameItems x y
  | .map x, .map y => sameEntries x y
  | _, _ => false
termination_by structural v => v

/-- Arrays of one length whose items are the same, one by one. -/
def sameItems : List Value → List Value → Bool
  | [], [] => true
  | v :: rest, w :: rest' => same v w && sameItems rest rest'
  | _, _ => false
termination_by structural l => l

/-- Maps of one size whose entries are the same, one by one. -/
def sameEntries : List (Str × Value) → List (Str × Value) → Bool
  | [], [] => true
  | e :: rest, e' :: rest' => sameEntry e e' && sameEntries rest rest'
  | _, _ => false
termination_by structural l => l

def sameEntry : Str × Value → Str × Value → Bool
  | (key, v), e' => key == e'.1 && same v e'.2
termination_by structural e => e

end

/-- Byte strings in lexicographic order. -/
def compareBytes (a b : Bytes) : Ordering := if a < b then .lt else if a = b then .eq else .gt

/-- Order two values, none where no ordering is defined. -/
def cmp : Value → Value → Option Ordering
  | .i64 x, .i64 y => some (compare (i64Int x) (i64Int y))
  | .f64 x, .f64 y => compareKeys (f64Key x) (f64Key y)
  | .i64 x, .f64 y => compareKeys (some (i64Key x)) (f64Key y)
  | .f64 x, .i64 y => compareKeys (f64Key x) (some (i64Key y))
  | .str x, .str y => some (compareBytes x.bytes y.bytes)
  | .bool x, .bool y => some (compare x.toNat y.toNat)
  | .bytes x, .bytes y => some (compareBytes x y)
  | _, _ => none

/-- Equality between a resolved field and a filter's value: an absent field equals null. -/
def equals : Option Value → Value → Bool
  | none, .null => true
  | none, _ => false
  | some a, b => same a b

/-- An ordering comparison, false wherever an ordering is not defined. -/
def ordered (actual : Option Value) (expected : Value) (accept : Ordering → Bool) : Bool :=
  match actual.bind (fun a => cmp a expected) with
  | some o => accept o
  | none => false

end Filter

/-! ## Filters -/

/-- A filter expression. -/
inductive Filter
  | and (children : List Filter)
  | or (children : List Filter)
  | not (child : Filter)
  | eq (field : Str) (value : Value)
  | ne (field : Str) (value : Value)
  | gt (field : Str) (value : Value)
  | gte (field : Str) (value : Value)
  | lt (field : Str) (value : Value)
  | lte (field : Str) (value : Value)
  | in_ (field : Str) (values : List Value)
  | nin (field : Str) (values : List Value)
  | exists_ (field : Str)
  | isNull (field : Str)
  | startsWith (field : Str) (start : Str)
  | contains (field : Str) (value : Value)

namespace Filter

/-- What an operator asks of a resolved field. -/
def startsWithAt (start : Str) : Option Value → Bool
  | some (.str s) => start.bytes.isPrefixOf s.bytes
  | _ => false

def containsAt (value : Value) : Option Value → Bool
  | some (.array items) => items.any (fun item => same item value)
  | _ => false

def isNullAt : Option Value → Bool
  | none => true
  | some .null => true
  | _ => false

mutual

/-- Whether a filter is satisfied by fields from any source. -/
def matchesFields (fields : Fields) : Filter → Bool
  | .and children => matchesAll fields children
  | .or children => matchesAny fields children
  | .not child => !matchesFields fields child
  | .eq field value => equals (fields.resolve field) value
  | .ne field value => !equals (fields.resolve field) value
  | .gt field value => ordered (fields.resolve field) value (· == .gt)
  | .gte field value => ordered (fields.resolve field) value (· != .lt)
  | .lt field value => ordered (fields.resolve field) value (· == .lt)
  | .lte field value => ordered (fields.resolve field) value (· != .gt)
  | .in_ field values => values.any (fun v => equals (fields.resolve field) v)
  | .nin field values => !values.any (fun v => equals (fields.resolve field) v)
  | .exists_ field => (fields.resolve field).isSome
  | .isNull field => isNullAt (fields.resolve field)
  | .startsWith field start => startsWithAt start (fields.resolve field)
  | .contains field value => containsAt value (fields.resolve field)
termination_by structural f => f

/-- An empty conjunction matches everything. -/
def matchesAll (fields : Fields) : List Filter → Bool
  | [] => true
  | child :: rest => matchesFields fields child && matchesAll fields rest
termination_by structural l => l

/-- An empty disjunction matches nothing. -/
def matchesAny (fields : Fields) : List Filter → Bool
  | [] => false
  | child :: rest => matchesFields fields child || matchesAny fields rest
termination_by structural l => l

end

mutual

/-- The fields a filter reads. -/
def referencedFields : Filter → List Str
  | .and children => childFields children
  | .or children => childFields children
  | .not child => referencedFields child
  | .eq field _ => [field]
  | .ne field _ => [field]
  | .gt field _ => [field]
  | .gte field _ => [field]
  | .lt field _ => [field]
  | .lte field _ => [field]
  | .in_ field _ => [field]
  | .nin field _ => [field]
  | .exists_ field => [field]
  | .isNull field => [field]
  | .startsWith field _ => [field]
  | .contains field _ => [field]
termination_by structural f => f

def childFields : List Filter → List Str
  | [] => []
  | child :: rest => referencedFields child ++ childFields rest
termination_by structural l => l

end

mutual

/-- **A filter depends on the fields it reads** and on nothing else. -/
theorem matchesFields_congr {a b : Fields} : ∀ f : Filter,
    (∀ path ∈ f.referencedFields, a.resolve path = b.resolve path) → matchesFields a f = matchesFields b f
  | .and children, h => by
    rw [matchesFields, matchesFields]
    exact (matches_congr children h).1
  | .or children, h => by
    rw [matchesFields, matchesFields]
    exact (matches_congr children h).2
  | .not child, h => by
    rw [matchesFields, matchesFields, matchesFields_congr child h]
  | .eq field _, h => by rw [matchesFields, matchesFields, h field (List.mem_singleton.mpr rfl)]
  | .ne field _, h => by rw [matchesFields, matchesFields, h field (List.mem_singleton.mpr rfl)]
  | .gt field _, h => by rw [matchesFields, matchesFields, h field (List.mem_singleton.mpr rfl)]
  | .gte field _, h => by rw [matchesFields, matchesFields, h field (List.mem_singleton.mpr rfl)]
  | .lt field _, h => by rw [matchesFields, matchesFields, h field (List.mem_singleton.mpr rfl)]
  | .lte field _, h => by rw [matchesFields, matchesFields, h field (List.mem_singleton.mpr rfl)]
  | .in_ field _, h => by rw [matchesFields, matchesFields, h field (List.mem_singleton.mpr rfl)]
  | .nin field _, h => by rw [matchesFields, matchesFields, h field (List.mem_singleton.mpr rfl)]
  | .exists_ field, h => by rw [matchesFields, matchesFields, h field (List.mem_singleton.mpr rfl)]
  | .isNull field, h => by rw [matchesFields, matchesFields, h field (List.mem_singleton.mpr rfl)]
  | .startsWith field _, h => by rw [matchesFields, matchesFields, h field (List.mem_singleton.mpr rfl)]
  | .contains field _, h => by rw [matchesFields, matchesFields, h field (List.mem_singleton.mpr rfl)]
termination_by structural f => f

theorem matches_congr {a b : Fields} : ∀ children : List Filter,
    (∀ path ∈ childFields children, a.resolve path = b.resolve path) →
      matchesAll a children = matchesAll b children ∧ matchesAny a children = matchesAny b children
  | [], _ => ⟨rfl, rfl⟩
  | child :: rest, h => by
    rw [childFields] at h
    have hchild := matchesFields_congr child (fun path hp => h path (List.mem_append_left _ hp))
    obtain ⟨hall, hany⟩ := matches_congr rest (fun path hp => h path (List.mem_append_right _ hp))
    simp only [matchesAll, matchesAny, hchild, hall, hany, and_self]
termination_by structural l => l

end

end Filter

/-! ## The fields of a row -/

namespace CollectionSource

/-- A memtable row's metadata. -/
def memtableMetadata (c : CollectionSource) (row : RowId) : Option Metadata :=
  (c.memtableRows[row.row.toNat]?).bind MemRow.metadata

/-- A segment row's encoded metadata. -/
def segmentMetadataBytes (c : CollectionSource) (row : RowId) : Except DbError (Option Bytes) :=
  match c.state.segments[row.segment.toNat]? with
  | some seg => seg.metadataBytes row.row.toNat
  | none => .ok none

/-- **Whether a row's document satisfies a filter**, wherever the row is. -/
def filterMatches (c : CollectionSource) (filter : Filter) (row : RowId) : Except DbError Bool :=
  if row.segment = memtableSegment then match c.memtableMetadata row with
    | some m => .ok (filter.matchesFields (.decoded m))
    | none => .ok (filter.matchesFields .empty)
  else do
    let found ← c.segmentMetadataBytes row
    match found with
    | some bytes => return filter.matchesFields (.encoded bytes)
    | none => return filter.matchesFields .empty

end CollectionSource

/-- A filter bound to the rows of a collection, with what its validation says. -/
def CompiledFilter (valid : Except DbError Unit) (filter : Filter) : RowFilter := ⟨valid, fun c => c.filterMatches filter⟩

end IshaVectorDb.Engine
