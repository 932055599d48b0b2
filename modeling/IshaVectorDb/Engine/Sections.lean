import IshaVectorDb.Engine.Database

/-!
# `Engine.Sections` — creating and dropping, **one critical section after the other**

Calls on one open database run side by side. They share the manifest store, the registry and the collections, each behind
a lock of its own, and a lock is held for one **section** of a call. Creating a collection and dropping one take several:
what a call found in an earlier section may no longer be so in a later one. A call on a collection is one section, under
the collection's lock. What stands between two sections talks to the storage only.
-/

namespace IshaVectorDb.Engine

open Format Interaction

/-- What the calls share: the manifest, which collection goes by which name, and every collection that was opened, by
    its number. Whoever has asked for a collection keeps it, under that name or not. -/
structure Shared where
  store : ManifestStore
  registry : AList (fun _ : Str => Nat)
  opened : List CollInner

namespace Shared

def withStore (store : ManifestStore) (x : Shared) : Shared := { x with store := store }

/-- Register a collection that was opened. -/
def register (name : Str) (coll : CollInner) (x : Shared) : Shared :=
  { x with registry := x.registry.insert name x.opened.length, opened := x.opened ++ [coll] }

def unregister (name : Str) (x : Shared) : Shared := { x with registry := x.registry.erase name }

/-- `Database::collection_exists`. -/
def collectionExists (name : Str) (x : Shared) : Bool := (x.registry.lookup name).isSome

/-- The collection of a number, as its operations see it. -/
def session (handle : Nat) (x : Shared) : Option Session := x.opened[handle]?.map (fun coll => ⟨x.store, coll⟩)

/-- Take it back after an operation on it. -/
def take (handle : Nat) (s : Session) (x : Shared) : Shared :=
  { x with store := s.store, opened := x.opened.set handle s.coll }

end Shared

/-- Commit a manifest, under its lock. -/
def commitShared (env : Env) (next : Manifest) : Action Shared Unit :=
  Proc.zoom Shared.store Shared.withStore (ManifestStore.commit next env.nowMs)

/-- `commit_collection`, one section: the manifest is read and written under one lock. -/
def commitEntry (env : Env) (entry : CollectionEntry) : Action Shared Unit := do
  let x ← Proc.get
  commitShared env (Manifest.withEntry x.store.current entry)

/-- A call in several sections. -/
inductive SectionCall
  | create (spec : Database.CollectionSpec)
  | drop (name : Str)

/-- The collection that it is about. -/
def SectionCall.name : SectionCall → Str
  | .create spec => spec.name
  | .drop name => name

/-- How far a call is, with what it holds. -/
inductive Stage
  /-- The name was free. -/
  | free
  /-- Its directories and its specification are on disk. -/
  | prepared (catalog : Catalog)
  /-- The manifest names it. -/
  | entered (catalog : Catalog)
  | opened (coll : CollInner)
  /-- The name was found. -/
  | found
  /-- The manifest that is to be committed. -/
  | holds (manifest : Manifest)
  /-- The manifest no longer names it. -/
  | unnamed
  | unregistered
  | ended (result : Except DbError Unit)

namespace SectionCall

/-- The first section: the name is looked up. -/
def begin (env : Env) : SectionCall → Action Shared Stage
  | create spec => do
      checkWritable env "create a collection"
      Proc.lift spec.validate
      let x ← Proc.get
      if x.collectionExists spec.name then Proc.throw (.collectionExists spec.name) else return .free
  | drop name => do
      checkWritable env "drop a collection"
      let x ← Proc.get
      if x.collectionExists name then return .found else Proc.throw (.collectionNotFound name)

/-- What follows. -/
def next (env : Env) : SectionCall → Stage → Action Shared Stage
  | create spec, .free => do
      let catalog : Catalog :=
        ⟨spec.name, spec.dimension, spec.metric, spec.dtype, spec.idKind, spec.index, env.nowMs⟩
      writeCatalog catalog
      let walDir ← Proc.lift (Layout.walDir spec.name)
      call (.createDirAll walDir)
      return .prepared catalog
  | create spec, .prepared catalog => do
      commitEntry env (Database.emptyEntry spec.name)
      return .entered catalog
  | create spec, .entered catalog => do
      let coll ← CollInner.open env catalog (Database.emptyEntry spec.name)
      return .opened coll
  | create spec, .opened coll => do
      Proc.modify (Shared.register spec.name coll)
      return .ended (.ok ())
  | drop name, .found => do
      let x ← Proc.get
      return .holds (Manifest.without x.store.current name)
  | drop _, .holds manifest => do
      commitShared env manifest
      return .unnamed
  | drop name, .unnamed => do
      Proc.modify (Shared.unregister name)
      return .unregistered
  | drop name, .unregistered => do
      let dir ← Proc.lift (Layout.collectionDir name)
      let found ← call (.metadata dir)
      match found with
      | none => return .ended (.ok ())
      | some _ => do
          call (.removeDirAll dir)
          return .ended (.ok ())
  | _, stage => return stage

end SectionCall

end IshaVectorDb.Engine
