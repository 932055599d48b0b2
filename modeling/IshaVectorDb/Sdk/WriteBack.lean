import IshaVectorDb.Sdk.IndexedDb

/-!
# `Sdk.WriteBack` — memory **written back** to IndexedDB, one transaction at a time

What has changed since it was last written back stands in four sets, which `flush` empties into a transaction. Whoever
calls `flush` while a transaction runs waits for its end, and then looks at the sets again. A transaction stores all
that it carries or nothing. A timer that fires and a page that is hidden call `flush` as anyone may.
-/

namespace IshaVectorDb.Sdk.IndexedDb

open Format Engine

/-! ## Directories -/

/-- The entries, first come first. -/
def TextMap.inOrder {V : Type} (m : TextMap V) : List (Bytes × V) := (m.entries.map (fun e => (e.1, e.2))).reverse

/-- `split('/')` without its empty parts; `part` is what was read of the part that it stands in. -/
def splitParts (part : Bytes) : Bytes → List Bytes
  | [] => if part = [] then [] else [part]
  | b :: rest =>
      if b = 0x2F then (if part = [] then splitParts [] rest else part :: splitParts [] rest)
      else splitParts (part ++ [b]) rest

/-- The paths that one part after the other is added to `acc` for. -/
def grow (acc : Bytes) : List Bytes → List Bytes
  | [] => []
  | part :: rest => (acc ++ 0x2F :: part) :: grow (acc ++ 0x2F :: part) rest

namespace Adapter

/-- Make one directory, if nothing is there. -/
def createDir (path : Bytes) (a : Adapter) : Adapter := if path ∈ a.files then a else setFile path ⟨0, true⟩ a

def createDirAll (path : Bytes) (a : Adapter) : Adapter :=
  (grow [] (splitParts [] path)).foldl (fun a acc => createDir acc a) a

def removeDirAll (path : Bytes) (a : Adapter) : Adapter :=
  (a.files.inOrder.map Prod.fst).foldl
    (fun a key => if key = path ∨ (path ++ [0x2F]).isPrefixOf key then removeFile key a else a) a

end Adapter

/-- What a caller asks of the adapter; listing, asking for a path's kind and flushing a file change nothing. -/
inductive AdapterOp
  | file (c : FileCall)
  | createDirAll (path : Bytes)
  | removeDirAll (path : Bytes)

/-- What an operation makes of the adapter. -/
def AdapterOp.effect : AdapterOp → Adapter → Adapter
  | .file c, a => (a.call c).2
  | .createDirAll path, a => a.createDirAll path
  | .removeDirAll path, a => a.removeDirAll path

/-! ## Transactions -/

/-- What a transaction carries: values to put, and keys to delete. -/
structure Drain where
  putBlocks : List (Bytes × Bytes)
  putFiles : List (Bytes × FileEntry)
  deleteBlocks : List Bytes
  deleteFiles : List Bytes

namespace Drain

/-- The keys that have a value, with it. -/
def values {V : Type} (m : TextMap V) (keys : List Bytes) : List (Bytes × V) :=
  keys.filterMap (fun key => (m.lookup key).map (fun value => (key, value)))

/-- Of a store: the puts, then the deletions. -/
def applyTo {V : Type} (puts : List (Bytes × V)) (gone : List Bytes) (m : TextMap V) : TextMap V :=
  gone.foldl (fun m key => m.erase key) (puts.foldl (fun m p => m.set p.1 p.2) m)

/-- What a transaction that completes makes of the store. -/
def apply (d : Drain) (stored : Image) : Image :=
  ⟨applyTo d.putFiles d.deleteFiles stored.files, applyTo d.putBlocks d.deleteBlocks stored.blocks⟩

end Drain

namespace Adapter

/-- Whether there is nothing to write back. -/
def idle (a : Adapter) : Bool :=
  a.dirtyBlocks.isEmpty && a.dirtyFiles.isEmpty && a.deletedBlocks.isEmpty && a.deletedFiles.isEmpty

/-- What is to be written back; a store copies a value as it is put. -/
def drain (a : Adapter) : Drain where
  putBlocks := Drain.values a.blocks a.dirtyBlocks
  putFiles := Drain.values a.files a.dirtyFiles
  deleteBlocks := a.deletedBlocks
  deleteFiles := a.deletedFiles

/-- The four sets emptied. -/
def drained (a : Adapter) : Adapter :=
  { a with dirtyBlocks := [], dirtyFiles := [], deletedBlocks := [], deletedFiles := [] }

end Adapter

/-! ## Pages -/

/-- How far a call of `flush` is: it waits for a transaction, it was woken by the end of one, it runs one itself, or
    it has come to its end. -/
inductive FlushCall
  | waiting
  | woken
  | draining
  | resolved
  | rejected
deriving DecidableEq

/-- A call when the transaction that runs completes. -/
def FlushCall.completed : FlushCall → FlushCall
  | waiting => woken
  | draining => resolved
  | c => c

/-- A call when it aborts: `await` throws, to the caller that runs it and to those that wait. -/
def FlushCall.aborted : FlushCall → FlushCall
  | waiting => rejected
  | draining => rejected
  | c => c

/-- The page: the adapter, what IndexedDB has stored, the transaction that runs, and the calls of `flush` so far. -/
structure Page where
  adapter : Adapter
  stored : Image
  inFlight : Option Drain
  calls : List FlushCall

namespace Page

/-- A page that has just loaded what is stored. -/
def opened (stored : Image) : Page := ⟨.load stored, stored, none, []⟩

/-- Call number `i` of `flush`, from the test of its loop on. -/
def flush (i : Nat) (w : Page) : Page :=
  match w.inFlight with
  | some _ => { w with calls := w.calls.set i .waiting }
  | none =>
      if w.adapter.idle then { w with calls := w.calls.set i .resolved }
      else { w with adapter := w.adapter.drained, inFlight := some w.adapter.drain, calls := w.calls.set i .draining }

end Page

/-- What can happen next on a page. A call that was woken goes on some time later. -/
inductive PageStep
  | operate (op : AdapterOp)
  | flush
  | resume (i : Nat)
  | commit
  | abort

namespace Page

/-- **One step** of a page. -/
def step (w : Page) : PageStep → Page
  | .operate op => { w with adapter := op.effect w.adapter }
  | .flush => flush w.calls.length { w with calls := w.calls ++ [.woken] }
  | .resume i => if w.calls[i]? = some .woken then flush i w else w
  | .commit => match w.inFlight with
      | some d => { w with stored := d.apply w.stored, inFlight := none, calls := w.calls.map .completed }
      | none => w
  | .abort => match w.inFlight with
      | some _ => { w with inFlight := none, calls := w.calls.map .aborted }
      | none => w

end Page

end IshaVectorDb.Sdk.IndexedDb
