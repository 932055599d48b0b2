import IshaVectorDb.Engine.Filter
import IshaVectorDb.Engine.Storage
import Mathlib.Data.Nat.Digits.Defs

/-!
# `Sdk.IndexedDb` — files in **blocks in memory**, which IndexedDB keeps

The engine reads and writes storage at once and IndexedDB answers later, so the adapter keeps every file in memory and
IndexedDB is where they are kept. A file is an entry with its size, and blocks under keys of its path and their number.
A block is as long as what was last written needed it to be, and a block that nothing was written to is not there.
What is to be written back stands in four sets.

Paths and keys are text, as the bytes of its UTF-8. Numbers are doubles: a sum is rounded, from 2^53 on.
-/

namespace IshaVectorDb.Sdk.IndexedDb

open Format Engine

/-! ## Maps and sets -/

/-- A map by text, which keeps the order in which its keys came. -/
abbrev TextMap (V : Type) := AList (fun _ : Bytes => V)

/-- `Map.set`: a key that is there keeps its place. -/
def TextMap.set {V : Type} (m : TextMap V) (key : Bytes) (value : V) : TextMap V :=
  if key ∈ m then m.replace key value else m.insert key value

/-- `Set.add`. -/
def addTo (s : List Bytes) (key : Bytes) : List Bytes := if key ∈ s then s else s ++ [key]

/-- `Set.delete`. -/
def deleteFrom (s : List Bytes) (key : Bytes) : List Bytes := s.filter (fun k => k ≠ key)

/-! ## Keys -/

def blockBytes : Nat := 64 * 1024

/-- A number as a template writes it, below 10^21. -/
def decimal (n : Nat) : Bytes :=
  if n = 0 then [0x30] else ((Nat.digits 10 n).map (fun d => UInt8.ofNat (48 + d))).reverse

def blockKey (path : Bytes) (n : Nat) : Bytes := path ++ (0x20 :: decimal n)

/-- The text behind the white space and line terminators that it starts with. -/
def skipBlanks : Bytes → Bytes
  | 0xC2 :: 0xA0 :: rest => skipBlanks rest
  | 0xE1 :: 0x9A :: 0x80 :: rest => skipBlanks rest
  | 0xE2 :: 0x81 :: 0x9F :: rest => skipBlanks rest
  | 0xE2 :: 0x80 :: b :: rest =>
      if (0x80 ≤ b && b ≤ 0x8A) || b == 0xA8 || b == 0xA9 || b == 0xAF then skipBlanks rest
      else 0xE2 :: 0x80 :: b :: rest
  | 0xE3 :: 0x80 :: 0x80 :: rest => skipBlanks rest
  | 0xEF :: 0xBB :: 0xBF :: rest => skipBlanks rest
  | b :: rest => if (0x09 ≤ b && b ≤ 0x0D) || b == 0x20 then skipBlanks rest else b :: rest
  | [] => []

def isDigit (b : UInt8) : Bool := 0x30 ≤ b && b ≤ 0x39

/-- `Number(text)`, of a text that ends as a key does, in a decimal number: blanks may stand before it, and anything
    else there makes it `NaN`. -/
def number (text : Bytes) : Option Nat :=
  let digits := skipBlanks text
  if digits.all isDigit then some (digits.foldl (fun n b => 10 * n + (b.toNat - 48)) 0) else none

/-! ## The adapter's memory -/

/-- What is kept of a path. -/
structure FileEntry where
  size : Nat
  directory : Bool
deriving DecidableEq

/-- Files and blocks. -/
structure Image where
  files : TextMap FileEntry
  blocks : TextMap Bytes

/-- What a database of that name holds when it is made. -/
def Image.empty : Image := ⟨∅, ∅⟩

/-- The adapter: its image, and what of it is to be written back. -/
structure Adapter extends Image where
  dirtyBlocks : List Bytes
  dirtyFiles : List Bytes
  deletedBlocks : List Bytes
  deletedFiles : List Bytes

/-- What an object is opened for is not there. -/
inductive OpenError
  | notFound
deriving DecidableEq

/-- A file object: the path it was opened by. -/
structure FileObject where
  path : Bytes
deriving DecidableEq

namespace Image

/-- The block of a path and a number; one that is not there reads as an empty one does. -/
def block (img : Image) (path : Bytes) (n : Nat) : Bytes := (img.blocks.lookup (blockKey path n)).getD []

/-- Read what is left behind the first `written` bytes, in each of `rounds` steps from one block. -/
def readLoop (img : Image) (path : Bytes) (len offset size : Nat) : Nat → Nat → Bytes
  | 0, _ => []
  | rounds + 1, written =>
      let at_ := round53 (offset + written)
      if len ≤ written ∨ size ≤ at_ then []
      else
        let within := at_ % blockBytes
        let available := min (min (blockBytes - within) (size - at_)) (len - written)
        -- a block may be shorter than what is read of it
        let slice := ((img.block path (at_ / blockBytes)).drop within).take available
        slice ++ List.replicate (available - slice.length) 0 ++
          readLoop img path len offset size rounds (written + available)

/-- Up to `len` bytes of a file from `offset` on. -/
def readInto (img : Image) (path : Bytes) (len offset size : Nat) : Bytes := img.readLoop path len offset size len 0

end Image

namespace Adapter

/-- The adapter over what is stored. -/
def load (stored : Image) : Adapter := ⟨stored, [], [], [], []⟩

def touchFile (path : Bytes) (a : Adapter) : Adapter :=
  { a with dirtyFiles := addTo a.dirtyFiles path, deletedFiles := deleteFrom a.deletedFiles path }

def touchBlock (key : Bytes) (a : Adapter) : Adapter :=
  { a with dirtyBlocks := addTo a.dirtyBlocks key, deletedBlocks := deleteFrom a.deletedBlocks key }

/-- `blocks.set`, and the key noted. -/
def setBlock (key block : Bytes) (a : Adapter) : Adapter := touchBlock key { a with blocks := a.blocks.set key block }

/-- Write what is left behind the first `done` bytes, in each of `rounds` steps into one block. -/
def writeLoop (path src : Bytes) (offset : Nat) : Nat → Nat → Adapter → Adapter
  | 0, _, a => a
  | rounds + 1, done, a =>
      if src.length ≤ done then a
      else
        let at_ := round53 (offset + done)
        let within := at_ % blockBytes
        let take := min (blockBytes - within) (src.length - done)
        let block := overwrite (a.block path (at_ / blockBytes)) ((src.drop done).take take) within
        writeLoop path src offset rounds (done + take) (setBlock (blockKey path (at_ / blockBytes)) block a)

def writeFrom (path src : Bytes) (offset : Nat) (a : Adapter) : Adapter := writeLoop path src offset src.length 0 a

/-- Drop one block. -/
def dropBlock (key : Bytes) (a : Adapter) : Adapter :=
  { a with
    blocks := a.blocks.erase key
    dirtyBlocks := deleteFrom a.dirtyBlocks key
    deletedBlocks := addTo a.deletedBlocks key }

/-- Whether a key is taken for one of the path's, of a block that starts at `size` or behind it. -/
def reaches (path : Bytes) (size : Nat) (key : Bytes) : Bool :=
  (path ++ [0x20]).isPrefixOf key && match number (key.drop (path.length + 1)) with
    | some n => decide ((size + blockBytes - 1) / blockBytes ≤ n)
    | none => false

def dropBlocksFrom (path : Bytes) (size : Nat) (a : Adapter) : Adapter :=
  a.blocks.keys.foldl (fun a key => if reaches path size key then dropBlock key a else a) a

/-! ## Its operations -/

/-- `files.set`, and the path noted. -/
def setFile (path : Bytes) (entry : FileEntry) (a : Adapter) : Adapter :=
  touchFile path { a with files := a.files.set path entry }

/-- Open a path, which makes an empty file of it where there was nothing. -/
def openPath (path : Bytes) (writable : Bool) (a : Adapter) : Except OpenError FileObject × Adapter :=
  match a.files.lookup path with
  | some _ => (.ok ⟨path⟩, a)
  | none => if !writable then (.error .notFound, a) else (.ok ⟨path⟩, setFile path ⟨0, false⟩ a)

/-- A file's size; a path that there is no file of has none. -/
def size (o : FileObject) (a : Adapter) : Nat :=
  match a.files.lookup o.path with
  | some entry => entry.size
  | none => 0

def read (o : FileObject) (len offset : Nat) (a : Adapter) : Bytes := a.readInto o.path len offset (a.size o)

def write (o : FileObject) (src : Bytes) (offset : Nat) (a : Adapter) : Adapter :=
  let a := writeFrom o.path src offset a
  match a.files.lookup o.path with
  | some current =>
      let stop := round53 (offset + src.length)
      if current.size < stop then setFile o.path { current with size := stop } a else a
  | none => a

def truncate (o : FileObject) (len : Nat) (a : Adapter) : Adapter :=
  match a.files.lookup o.path with
  | some current =>
      touchFile o.path (dropBlocksFrom o.path len { a with files := a.files.set o.path { current with size := len } })
  | none => a

/-- Take a path's entry away. -/
def forgetFile (path : Bytes) (a : Adapter) : Adapter :=
  { a with
    files := a.files.erase path
    dirtyFiles := deleteFrom a.dirtyFiles path
    deletedFiles := addTo a.deletedFiles path }

def removeFile (path : Bytes) (a : Adapter) : Adapter := dropBlocksFrom path 0 (forgetFile path a)

end Adapter

/-! ## Calls -/

inductive FileCall
  | open (path : Bytes) (writable : Bool)
  | read (file : FileObject) (len offset : Nat)
  | write (file : FileObject) (src : Bytes) (offset : Nat)
  | truncate (file : FileObject) (len : Nat)
  | size (file : FileObject)
  | removeFile (path : Bytes)

inductive FileAnswer
  | opened (result : Except OpenError FileObject)
  | bytes (bs : Bytes)
  | size (n : Nat)
  | done
deriving DecidableEq

/-- What a call answers, and what it makes of the adapter. -/
def Adapter.call : FileCall → Adapter → FileAnswer × Adapter
  | .open path writable, a => let (result, a) := a.openPath path writable; (.opened result, a)
  | .read file len offset, a => (.bytes (a.read file len offset), a)
  | .write file src offset, a => (.done, a.write file src offset)
  | .truncate file len, a => (.done, a.truncate file len)
  | .size file, a => (.size (a.size file), a)
  | .removeFile path, a => (.done, a.removeFile path)

/-- What a run of calls answers, one after the other. -/
def answers {S : Type} (call : FileCall → S → FileAnswer × S) : List FileCall → S → List FileAnswer
  | [], _ => []
  | c :: calls, s => (call c s).1 :: answers call calls (call c s).2

end IshaVectorDb.Sdk.IndexedDb
