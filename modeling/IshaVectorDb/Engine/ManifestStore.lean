import IshaVectorDb.Engine.Segment

/-!
# `Engine.ManifestStore` — reading and committing the database root

A commit writes the slot that is not authoritative, and only a completed, synced write changes what the store
holds in memory.
-/

namespace IshaVectorDb.Engine

open Format Interaction

variable {S : Type}

/-- The authoritative manifest, and the slot it came from. -/
structure ManifestStore where
  current : Manifest
  slot : Slot
deriving DecidableEq

namespace ManifestStore

/-- Read a slot; a zero-length slot is absent, not corrupt. -/
def readSlot (slot : Slot) : Action S (Option Bytes) := do
  let found ← call (.metadata (.manifest slot))
  match found with
  | none => return none
  | some len =>
      if len = 0 then return none
      else do
        let file ← call (.openFile (.manifest slot) .read)
        let bytes ← call (.readAt file len 0)
        return some bytes

/-- Both slots are described when neither is readable. -/
def noValidManifest (path : DbPath) (scan : SlotScan) : DbError :=
  .corruption (.noValidManifest path scan.a scan.b)

/-- Read both slots and adopt the authoritative one; `none` when neither exists. -/
def load : Action S (Option ManifestStore) := do
  let a ← readSlot .a
  let b ← readSlot .b
  if a.isNone && b.isNone then return none
  else do
    let scan := Manifest.scanSlots a b
    match scan.chosen with
    | some (slot, current) => return some ⟨current, slot⟩
    | none => Proc.throw (noValidManifest .root scan)

/-- Examine both slots without adopting one. -/
def scan : Action S SlotScan := do
  let a ← readSlot .a
  let b ← readSlot .b
  return Manifest.scanSlots a b

/-- Write `next` to the other slot and adopt it. -/
def write (next : Manifest) : Action ManifestStore Unit := do
  let store ← Proc.get
  let target := store.slot.other
  let bytes ← Proc.lift (formatAt (.manifest target) next.encode)
  writeFile (.manifest target) bytes
  Proc.modify (fun _ => ⟨next, target⟩)

/-- Create the first manifest for a new database: it goes to slot A. -/
def create (dbUuid : Uuid) (nowMs : UInt64) : Action S ManifestStore := fun x =>
  (write (Manifest.new dbUuid nowMs) ⟨Manifest.new dbUuid nowMs, .b⟩).bind (fun r =>
    .pure (r.1.map (fun _ => r.2), x))

/-- The manifest a commit of `next` writes. -/
def successor (store : ManifestStore) (next : Manifest) (nowMs : UInt64) : Manifest :=
  ⟨saturatingSucc store.current.sequence, store.current.dbUuid, store.current.createdAtMs, nowMs,
    next.collections⟩

/-- Commit a new manifest, bumping the sequence and writing to the other slot. -/
def commit (next : Manifest) (nowMs : UInt64) : Action ManifestStore Unit := do
  let store ← Proc.get
  write (store.successor next nowMs)

end ManifestStore

/-- Replace the first entry under the collection's name. -/
def Manifest.withEntry.replaceFirst (entry : CollectionEntry) : List CollectionEntry → List CollectionEntry
  | [] => []
  | c :: rest => if c.name = entry.name then entry :: rest else c :: replaceFirst entry rest

/-- Replace a collection's entry, or add it. -/
def Manifest.withEntry (m : Manifest) (entry : CollectionEntry) : Manifest :=
  if m.collections.any (fun c => c.name = entry.name) then
    { m with collections := Manifest.withEntry.replaceFirst entry m.collections }
  else { m with collections := m.collections ++ [entry] }

/-- Drop a collection's entries. -/
def Manifest.without (m : Manifest) (name : Str) : Manifest :=
  { m with collections := m.collections.filter (fun c => c.name ≠ name) }

end IshaVectorDb.Engine
