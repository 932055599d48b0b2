import IshaVectorDb.Engine.Database
import Mathlib.Data.Nat.Digits.Defs

/-!
# `Engine.PathText` — the **components** of a path, as they are spelled on disk

`DbPath` names files by what they are; a file system sees the strings that `layout.rs` makes. `components` spells a
path out, one string for each directory on the way down. Every path of a collection starts with the same two:
the directory of all collections, and the collection's name as it was given.
-/

namespace IshaVectorDb.Engine

open Format

/-- A literal of the source. -/
def ascii (text : String) : Bytes := text.toList.map (fun c => UInt8.ofNat c.toNat)

/-- `format!("{id:06}")`. -/
def idText (id : UInt64) : Bytes :=
  (((Nat.digits 10 id.toNat).rightpad 6 0).map (fun d => UInt8.ofNat (48 + d))).reverse

/-- The file extension. -/
def SegmentFile.extension : SegmentFile → Bytes
  | .vectors => ascii "vec"
  | .directory => ascii "dir"
  | .metadata => ascii "meta"
  | .tombstones => ascii "del"

/-- A stable lowercase name, used in file names. -/
def IndexKind.name : IndexKind → Bytes
  | .flat => ascii "flat"
  | .hnsw => ascii "hnsw"

def slotFileName : Slot → Bytes
  | .a => ascii "MANIFEST-A"
  | .b => ascii "MANIFEST-B"

namespace DbPath

/-- The components of a path, outermost first. -/
def components : DbPath → List Bytes
  | root => []
  | manifest slot => [slotFileName slot]
  | collectionsDir => [ascii "collections"]
  | collectionDir name => [ascii "collections", name.bytes]
  | catalog name => [ascii "collections", name.bytes, ascii "CATALOG"]
  | walDir name => [ascii "collections", name.bytes, ascii "wal"]
  | walFile name id => [ascii "collections", name.bytes, ascii "wal", idText id ++ ascii ".wal"]
  | segmentsDir name => [ascii "collections", name.bytes, ascii "segments"]
  | segmentFile name id which =>
      [ascii "collections", name.bytes, ascii "segments", idText id ++ (ascii "." ++ which.extension)]
  | indexDir name => [ascii "collections", name.bytes, ascii "index"]
  | indexFile name kind id =>
      [ascii "collections", name.bytes, ascii "index", kind.name ++ (ascii "-" ++ (idText id ++ ascii ".idx"))]

end DbPath

namespace DbPath

/-- The collection that a path belongs to. -/
def collection : DbPath → Option Str
  | root => none
  | manifest _ => none
  | collectionsDir => none
  | collectionDir name => some name
  | catalog name => some name
  | walDir name => some name
  | walFile name _ => some name
  | segmentsDir name => some name
  | segmentFile name _ _ => some name
  | indexDir name => some name
  | indexFile name _ _ => some name

/-- A collection's paths lie below its name. -/
theorem components_of_collection {p : DbPath} {name : Str} (h : p.collection = some name) :
    ∃ rest, p.components = ascii "collections" :: name.bytes :: rest := by
  cases p with
  | root => cases h
  | manifest slot => cases h
  | collectionsDir => cases h
  | collectionDir name => cases h; exact ⟨_, rfl⟩
  | catalog name => cases h; exact ⟨_, rfl⟩
  | walDir name => cases h; exact ⟨_, rfl⟩
  | walFile name id => cases h; exact ⟨_, rfl⟩
  | segmentsDir name => cases h; exact ⟨_, rfl⟩
  | segmentFile name id which => cases h; exact ⟨_, rfl⟩
  | indexDir name => cases h; exact ⟨_, rfl⟩
  | indexFile name kind id => cases h; exact ⟨_, rfl⟩

end DbPath

/-! ## Comparing without case -/

/-- `u8::to_ascii_lowercase`. -/
def asciiLower (b : UInt8) : UInt8 := if 0x41 ≤ b && b ≤ 0x5A then b + 0x20 else b

/-- A component as a storage that ignores ASCII case compares it. -/
def foldCase (component : Bytes) : Bytes := component.map asciiLower

namespace DbPath

/-- The path as such a storage compares it. -/
def folded (p : DbPath) : List Bytes := p.components.map foldCase

/-- **The paths of two collections are apart**: none is another, nor a directory above it, whatever their case. -/
def Apart (a b : Str) : Prop := ∀ p q : DbPath, p.collection = some a → q.collection = some b →
  ¬ p.folded <+: q.folded ∧ ¬ q.folded <+: p.folded

theorem apart_iff {a b : Str} : Apart a b ↔ foldCase a.bytes ≠ foldCase b.bytes := by
  constructor
  · intro h heq
    apply (h (collectionDir a) (collectionDir b) rfl rfl).1
    show [foldCase (ascii "collections"), foldCase a.bytes] <+: [foldCase (ascii "collections"), foldCase b.bytes]
    exact ⟨[], by rw [heq, List.append_nil]⟩
  · intro hne p q hp hq
    obtain ⟨rest, hp'⟩ := components_of_collection hp
    obtain ⟨rest', hq'⟩ := components_of_collection hq
    rw [folded, folded, hp', hq']
    -- behind the common directory stand the two names
    simp only [List.map_cons, List.cons_prefix_cons]
    exact ⟨fun h => hne h.2.1, fun h => hne h.2.1.symm⟩

end DbPath

end IshaVectorDb.Engine
