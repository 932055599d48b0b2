import IshaVectorDb.Engine.Storage
import IshaVectorDb.Interaction.Faults

/-!
# `Sdk.OpfsPool` — files in a **pool of slots**, over the browser's private file system

The browser opens a file asynchronously and the engine wants one at once, so the web package opens a pool of files
beforehand and gives them to paths as the engine asks. A slot's first bytes are a header that names the path it holds,
so that the mapping survives a reload of the page; in memory the mapping is kept a second time. The two are changed in
separate steps, call by call on a slot's handle.
-/

namespace IshaVectorDb.Sdk

open Format Engine Interaction Parsing

/-! ## Handles -/

/-- A call on a slot's access handle. -/
inductive HandleCall
  | getSize (slot : Nat)
  | read (slot len at_ : Nat)
  | write (slot : Nat) (bytes : Bytes) (at_ : Nat)
  | truncate (slot size : Nat)
  | flush (slot : Nat)

namespace HandleCall

abbrev Reply : HandleCall → Type
  | .getSize _ => Nat
  | .read _ _ _ => Bytes
  | .write _ _ _ => Nat
  | .truncate _ _ => Unit
  | .flush _ => Unit

/-- What a call answers, of the slots' files. -/
def reply : (c : HandleCall) → List Bytes → c.Reply
  | .getSize i, disk => (disk.getD i []).length
  | .read i len at_, disk => ((disk.getD i []).drop at_).take len
  | .write _ bytes _, _ => bytes.length
  | .truncate _ _, _ => ()
  | .flush _, _ => ()

/-- What it makes of them. -/
def effect : HandleCall → List Bytes → List Bytes
  | .write i bytes at_, disk => disk.modify i (fun file => overwrite file bytes at_)
  | .truncate i size, disk => disk.modify i (fun file => resize file size)
  | _, disk => disk

end HandleCall

/-- Why an operation throws; `handle` is an exception of a handle's own. -/
inductive AdapterError
  | notFound
  | quotaExceeded (slots : Nat)
  | pathTooLong (path : Str)
  | handle
deriving DecidableEq

/-- The handles: a call that does not get to its end, because it throws or because the page dies, has happened or
    not. -/
def handles : Device HandleCall HandleCall.Reply AdapterError (List Bytes) where
  step c disk := (.ok (c.reply disk), c.effect disk)
  cut c n disk := if n = 0 then disk else c.effect disk
  fail c n disk := if n = 0 then disk else c.effect disk

/-! ## Slot headers -/

def headerBytes : Nat := 512

/-- `MAGIC`, as `setUint32(0, MAGIC, false)` writes it. -/
def magic : Bytes := [0x56, 0x44, 0x42, 0x50]

def maxPath : Nat := headerBytes - 8

/-- The header of a slot that holds the path. -/
def header (path : Str) : Bytes :=
  magic ++ (leBytes 2 path.bytes.length ++ ([0, 0] ++
    (path.bytes ++ List.replicate (headerBytes - 8 - path.bytes.length) 0)))

/-- A text decoder takes a byte order mark away. -/
def withoutMark : Bytes → Bytes
  | 0xEF :: 0xBB :: 0xBF :: rest => rest
  | bytes => bytes

/-- What the pool is in memory: the path of each slot, if it holds one. -/
abbrev Pool := List (Option Str)

/-- Processes of the page: calls on the handles, over the pool. -/
abbrev PageAction (α : Type) := Proc HandleCall HandleCall.Reply AdapterError Pool α

/-- One call on a handle. -/
def onHandle (c : HandleCall) : PageAction c.Reply := Proc.call c

section

-- what the text decoder makes of bytes that are not UTF-8
variable (lossy : Bytes → Str)

/-- `TextDecoder.decode`. -/
def decodeText (bytes : Bytes) : Str := (fromUtf8 (withoutMark bytes)).getD (lossy bytes)

/-- The path that a header names. -/
def headerPath (head : Bytes) : Option Str :=
  if head.take 4 ≠ magic then none
  else
    let len := leNat ((head.drop 4).take 2)
    if len = 0 ∨ maxPath < len then none else some (decodeText lossy ((head.drop 8).take len))

/-- Read a slot's header. -/
def readHeader (slot : Nat) : PageAction (Option Str) := do
  let size ← onHandle (.getSize slot)
  if size < headerBytes then return none
  else do
    let head ← onHandle (.read slot headerBytes 0)
    return headerPath lossy head

/-- Read the pool off its slots. -/
def loadPool (slots : Nat) : PageAction (List (Option Str)) := Proc.mapList (readHeader lossy) (List.range slots)

end

/-- Write a slot's header. -/
def writeHeader (slot : Nat) (path : Str) : PageAction Unit :=
  if maxPath < path.bytes.length then Proc.throw (.pathTooLong path)
  else do
    let _ ← onHandle (.write slot (header path) 0)
    return ()

/-- Overwrite a slot's header with zeroes. -/
def clearHeader (slot : Nat) : PageAction Unit := do
  let _ ← onHandle (.write slot (List.replicate headerBytes 0) 0)
  return ()

/-! ## Files -/

/-- A file object: the slot it reads and writes. -/
structure FileObject where
  slot : Nat

namespace FileObject

/-- Up to `len` bytes from `offset` on. -/
def read (o : FileObject) (len offset : Nat) : PageAction Bytes := onHandle (.read o.slot len (headerBytes + offset))

/-- Write, until every byte is written; in each of `rounds` calls the handle takes some. -/
def writeLoop (o : FileObject) : Nat → Bytes → Nat → PageAction Unit
  | 0, _, _ => return ()
  | rounds + 1, src, offset =>
      if src = [] then return ()
      else do
        let written ← onHandle (.write o.slot src (headerBytes + offset))
        writeLoop o rounds (src.drop written) (offset + written)

def write (o : FileObject) (src : Bytes) (offset : Nat) : PageAction Unit := o.writeLoop src.length src offset

def truncate (o : FileObject) (len : Nat) : PageAction Unit := onHandle (.truncate o.slot (headerBytes + len))

end FileObject

/-! ## The adapter -/

/-- The slot that holds a path. -/
def find (pool : Pool) (path : Str) : Option Nat := pool.findIdx? (fun p => p = some path)

/-- A slot that holds none. -/
def free (pool : Pool) : Option Nat := pool.findIdx? (fun p => p = none)

/-- Open a path: the slot that holds it, or a free one that is given to it. -/
def openPath (path : Str) (writable : Bool) : PageAction FileObject := do
  let pool ← Proc.get
  match find pool path with
  | some i => return ⟨i⟩
  | none =>
      if !writable then Proc.throw .notFound
      else match free pool with
        | none => Proc.throw (.quotaExceeded pool.length)
        | some i => do
            Proc.modify (fun pool => pool.set i (some path))
            writeHeader i path
            onHandle (.truncate i headerBytes)
            return ⟨i⟩

def removeFile (path : Str) : PageAction Unit := do
  let pool ← Proc.get
  match find pool path with
  | none => Proc.throw .notFound
  | some i => do
      Proc.modify (fun pool => pool.set i none)
      clearHeader i
      onHandle (.truncate i headerBytes)
      onHandle (.flush i)

/-- Whether a path is the directory or lies under it. -/
def under (dir path : Str) : Bool :=
  path.bytes ≠ [] && (path = dir ||
    (if dir.bytes.getLast? = some 0x2F then dir.bytes else dir.bytes ++ [0x2F]).isPrefixOf path.bytes)

/-- Empty the slot, if it holds a path under the directory. -/
def clearUnder (dir : Str) (i : Nat) : PageAction Unit := do
  let pool ← Proc.get
  match pool[i]? with
  | some (some path) =>
      if under dir path then do
        Proc.modify (fun pool => pool.set i none)
        clearHeader i
        onHandle (.truncate i headerBytes)
      else return ()
  | _ => return ()

def removeDirAll (dir : Str) : PageAction Unit := do
  let pool ← Proc.get
  Proc.forList (clearUnder dir) (List.range pool.length)

/-! ## Pages -/

/-- What a caller asks for; a file object is its number among those that the page has opened. -/
inductive PoolOp
  | open (path : Str) (writable : Bool)
  | read (file len offset : Nat)
  | write (file : Nat) (src : Bytes) (offset : Nat)
  | truncate (file len : Nat)
  | removeFile (path : Str)
  | removeDirAll (dir : Str)

/-- What an operation answers. -/
inductive PoolAnswer
  | file (o : FileObject)
  | bytes (bytes : Bytes)
  | done

/-- The page and the slots behind it. Of each file object it is said which path it was opened by. -/
structure Page where
  pool : Pool
  disk : List Bytes
  files : List (FileObject × Str)

namespace Page

/-- A pool of slots that were never used. -/
def fresh (slots : Nat) : Page := ⟨List.replicate slots none, List.replicate slots [], []⟩

/-- The operation as the page runs it. -/
def action (w : Page) : PoolOp → PageAction PoolAnswer
  | .open path writable => do return .file (← openPath path writable)
  | .read file len offset => match w.files[file]? with
      | some (o, _) => do return .bytes (← o.read len offset)
      | none => return .done
  | .write file src offset => match w.files[file]? with
      | some (o, _) => do
          o.write src offset
          return .done
      | none => return .done
  | .truncate file len => match w.files[file]? with
      | some (o, _) => do
          o.truncate len
          return .done
      | none => return .done
  | .removeFile path => do
      removeFile path
      return .done
  | .removeDirAll dir => do
      removeDirAll dir
      return .done

/-- The operation under a fault: its answer or what it throws and the pool it leaves, none of these when the page
    died, and the slots. -/
def run (w : Page) (op : PoolOp) (fault : Fault AdapterError) : Option (Except AdapterError PoolAnswer × Pool) × List Bytes :=
  (w.action op w.pool).runWith handles w.disk fault

section

variable (lossy : Bytes → Str)

/-- A page loaded anew over the slots. -/
def load (disk : List Bytes) : Page :=
  match ((loadPool lossy disk.length []).run handles disk).1.1 with
  | .ok pool => ⟨pool, disk, []⟩
  | .error _ => ⟨[], disk, []⟩

/-- **One step**: an operation, and when the page dies in it the page loaded anew. -/
def perform (w : Page) (op : PoolOp) (fault : Fault AdapterError) : Page :=
  match w.run op fault with
  | (none, disk) => load lossy disk
  | (some (r, pool), disk) => ⟨pool, disk, match op, r with
      | .open path _, .ok (.file o) => w.files ++ [(o, path)]
      | _, _ => w.files⟩

end

end Page

end IshaVectorDb.Sdk
