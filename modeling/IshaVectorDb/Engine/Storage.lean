import IshaVectorDb.Engine.Error
import IshaVectorDb.Interaction.Triple
import Mathlib.Data.List.AList

/-!
# `Engine.Storage` — the storage interface and the in-memory storage behind it

The engine reaches storage through the calls below and through nothing else. `MemoryStorage` is the reference
storage: each file holds its **live** bytes, which a process sees, and its **durable** bytes, which a power
loss reverts it to. A death cuts a write or an append off after any number of bytes and the removal of a directory after
any of its entries; any other call has then happened or not. A call that fails has written some prefix or removed
some entries, or has done nothing.
-/

namespace IshaVectorDb.Engine

open Format Interaction

/-- How to open a file. -/
inductive OpenMode
  | read
  | readWrite
  | create
deriving DecidableEq, Repr

def OpenMode.isWritable : OpenMode → Bool
  | .read => false
  | _ => true

/-- An open file. -/
structure File where
  path : DbPath
  writable : Bool
deriving DecidableEq

/-- A call to the storage. -/
inductive Call
  | openFile (path : DbPath) (mode : OpenMode)
  | metadata (path : DbPath)
  | readAt (file : File) (len offset : Nat)
  | writeAt (file : File) (bytes : Bytes) (offset : Nat)
  | append (file : File) (bytes : Bytes)
  | truncate (file : File) (len : Nat)
  | len (file : File)
  | syncData (file : File)
  | removeFile (path : DbPath)
  | createDirAll (path : DbPath)
  | listDir (path : DbPath)
  | removeDirAll (path : DbPath)
deriving DecidableEq

/-- What each call answers; `metadata` gives the length, zero for a directory. -/
abbrev Call.Reply : Call → Type
  | .openFile _ _ => File
  | .metadata _ => Option Nat
  | .readAt _ _ _ => Bytes
  | .writeAt _ _ _ => Unit
  | .append _ _ => Nat
  | .truncate _ _ => Unit
  | .len _ => Nat
  | .syncData _ => Unit
  | .removeFile _ => Unit
  | .createDirAll _ => Unit
  | .listDir _ => List DbPath
  | .removeDirAll _ => Unit

/-! ## Files and directories -/

/-- A file's bytes as a process sees them, and as a power loss would leave them. -/
structure FileData where
  live : Bytes
  durable : Bytes
deriving DecidableEq

inductive Entry
  | dir
  | file (data : FileData)
deriving DecidableEq

/-- `Vec::resize(len, 0)`. -/
def resize (bs : Bytes) (len : Nat) : Bytes := bs.take len ++ List.replicate (len - bs.length) 0

/-- Overwrite from `offset` on, filling a gap with zeroes. -/
def overwrite (bs new : Bytes) (offset : Nat) : Bytes :=
  (resize bs (max bs.length (offset + new.length))).take offset ++ new ++ bs.drop (offset + new.length)

/-- The reference storage. -/
structure MemoryStorage where
  entries : AList (fun _ : DbPath => Entry)
deriving DecidableEq

namespace MemoryStorage

/-- Empty storage: the root directory. -/
def new : MemoryStorage := ⟨(∅ : AList (fun _ : DbPath => Entry)).insert .root .dir⟩

def get (s : MemoryStorage) (path : DbPath) : Option Entry := s.entries.lookup path

def put (s : MemoryStorage) (path : DbPath) (e : Entry) : MemoryStorage := ⟨s.entries.insert path e⟩

def erase (s : MemoryStorage) (path : DbPath) : MemoryStorage := ⟨s.entries.erase path⟩

/-- What a power loss leaves of an entry. -/
def revert : Entry → Entry
  | .dir => .dir
  | .file d => .file ⟨d.durable, d.durable⟩

/-- Lose power: every file reverts to what was last synced; names stay as they are. -/
def simulatePowerLoss (s : MemoryStorage) : MemoryStorage :=
  ⟨⟨s.entries.entries.map (Sigma.map id (fun _ => revert)), List.NodupKeys.map₂ _ _ s.entries.nodupKeys⟩⟩

/-! ## The calls -/

def openFile (s : MemoryStorage) (path : DbPath) (mode : OpenMode) : Except DbError File × MemoryStorage :=
  let handle : File := ⟨path, mode.isWritable⟩
  match s.get path with
  | some .dir => (.error (.storage (.io path .open "path is a directory")), s)
  | some (.file _) => (.ok handle, s)
  | none => match mode with
    | .create =>
        if s.get path.parent = some .dir then (.ok handle, s.put path (.file ⟨[], []⟩))
        else (.error (.storage (.notFound path.parent)), s)
    | _ => (.error (.storage (.notFound path)), s)

def metadata (s : MemoryStorage) (path : DbPath) : Option Nat :=
  match s.get path with
  | some .dir => some 0
  | some (.file d) => some d.live.length
  | none => none

def readAt (s : MemoryStorage) (f : File) (len offset : Nat) : Except DbError Bytes :=
  match s.get f.path with
  | some (.file d) => .ok ((d.live.drop offset).take len)
  | _ => .error (.storage (.notFound f.path))

/-- Change a file's data through a handle that must be writable. -/
def change {α : Type} (s : MemoryStorage) (f : File) (operation : StorageOp) (reply : FileData → α)
    (edit : FileData → FileData) : Except DbError α × MemoryStorage :=
  if f.writable = false then (.error (.storage (.permissionDenied f.path operation)), s)
  else match s.get f.path with
    | some (.file d) => (.ok (reply d), s.put f.path (.file (edit d)))
    | _ => (.error (.storage (.notFound f.path)), s)

def writeAt (s : MemoryStorage) (f : File) (bytes : Bytes) (offset : Nat) :
    Except DbError Unit × MemoryStorage :=
  s.change f .write (fun _ => ()) (fun d => ⟨overwrite d.live bytes offset, d.durable⟩)

def append (s : MemoryStorage) (f : File) (bytes : Bytes) : Except DbError Nat × MemoryStorage :=
  s.change f .append (fun d => d.live.length) (fun d => ⟨d.live ++ bytes, d.durable⟩)

def truncate (s : MemoryStorage) (f : File) (len : Nat) : Except DbError Unit × MemoryStorage :=
  s.change f .truncate (fun _ => ()) (fun d => ⟨resize d.live len, d.durable⟩)

def len (s : MemoryStorage) (f : File) : Except DbError Nat :=
  match s.get f.path with
  | some (.file d) => .ok d.live.length
  | _ => .error (.storage (.notFound f.path))

def syncData (s : MemoryStorage) (f : File) : Except DbError Unit × MemoryStorage :=
  s.change f .sync (fun _ => ()) (fun d => ⟨d.live, d.live⟩)

def removeFile (s : MemoryStorage) (path : DbPath) : Except DbError Unit × MemoryStorage :=
  match s.get path with
  | some (.file _) => (.ok (), s.erase path)
  | some .dir => (.error (.storage (.io path .remove "path is a directory")), s)
  | none => (.error (.storage (.notFound path)), s)

/-- Make each missing directory on the way down. -/
def createDirs (s : MemoryStorage) : List DbPath → Except DbError Unit × MemoryStorage
  | [] => (.ok (), s)
  | path :: rest => match s.get path with
    | some .dir => s.createDirs rest
    | some (.file _) => (.error (.storage (.io path .createDir "path is a file")), s)
    | none => (s.put path .dir).createDirs rest

def createDirAll (s : MemoryStorage) (path : DbPath) : Except DbError Unit × MemoryStorage :=
  s.createDirs path.ancestry

def listDir (s : MemoryStorage) (path : DbPath) : Except DbError (List DbPath) :=
  match s.get path with
  | some .dir => .ok (s.entries.keys.filter (fun p => p ≠ .root ∧ p.parent = path))
  | _ => .error (.storage (.notFound path))

/-- The directory and everything in it; the root itself stays. -/
def below (s : MemoryStorage) (dir : DbPath) : List DbPath :=
  s.entries.keys.filter (fun p => p ≠ .root ∧ (dir = .root ∨ dir ∈ p.ancestry))

def eraseAll (s : MemoryStorage) (paths : List DbPath) : MemoryStorage := paths.foldl erase s

def removeDirAll (s : MemoryStorage) (path : DbPath) : Except DbError Unit × MemoryStorage :=
  match s.get path with
  | some .dir => (.ok (), s.eraseAll (s.below path))
  | _ => (.error (.storage (.notFound path)), s)

/-- A removal that stopped on the way has removed any of the entries, a directory only with all that was in it.
    The bits of `n` say which. -/
def removeSome (s : MemoryStorage) (path : DbPath) (n : Nat) : MemoryStorage :=
  let gone := (((s.below path).zipIdx).filter (fun p => n.testBit p.2)).map Prod.fst
  if s.get path = some .dir then
    s.eraseAll (gone.filter (fun p => (s.below p).all (fun q => gone.contains q)))
  else s

/-- A call carried out. -/
def step : (c : Call) → MemoryStorage → Except DbError c.Reply × MemoryStorage
  | .openFile path mode, s => s.openFile path mode
  | .metadata path, s => (.ok (s.metadata path), s)
  | .readAt f len offset, s => (s.readAt f len offset, s)
  | .writeAt f bytes offset, s => s.writeAt f bytes offset
  | .append f bytes, s => s.append f bytes
  | .truncate f len, s => s.truncate f len
  | .len f, s => (s.len f, s)
  | .syncData f, s => s.syncData f
  | .removeFile path, s => s.removeFile path
  | .createDirAll path, s => s.createDirAll path
  | .listDir path, s => (s.listDir path, s)
  | .removeDirAll path, s => s.removeDirAll path

/-- What a call that did not get to its end leaves: the first `n` bytes of a write or an append, some of a
    directory, and of any other call what `done` says when `n` is not zero. -/
def cutWith (done : Call → MemoryStorage → MemoryStorage) : Call → Nat → MemoryStorage → MemoryStorage
  | .writeAt f bytes offset, n, s => (s.writeAt f (bytes.take n) offset).2
  | .append f bytes, n, s => (s.append f (bytes.take n)).2
  | .removeDirAll path, n, s => s.removeSome path n
  | c, n, s => if n = 0 then s else done c s

end MemoryStorage

/-- The in-memory storage as a device. -/
def device : Device Call Call.Reply DbError MemoryStorage where
  step := MemoryStorage.step
  cut := MemoryStorage.cutWith (fun c s => (MemoryStorage.step c s).2)
  fail := MemoryStorage.cutWith (fun _ s => s)

/-! ## What each call does to the entries -/

namespace MemoryStorage

variable {s : MemoryStorage} {path q : DbPath} {e : Entry} {d : FileData}

@[simp] theorem get_put_self (s : MemoryStorage) (path : DbPath) (e : Entry) : (s.put path e).get path = some e :=
  AList.lookup_insert s.entries

theorem get_put_ne (s : MemoryStorage) (e : Entry) (h : q ≠ path) : (s.put path e).get q = s.get q :=
  AList.lookup_insert_ne h

@[simp] theorem get_erase_self (s : MemoryStorage) (path : DbPath) : (s.erase path).get path = none :=
  AList.lookup_erase path s.entries

theorem get_erase_ne (s : MemoryStorage) (h : q ≠ path) : (s.erase path).get q = s.get q :=
  AList.lookup_erase_ne h

/-- **A power loss reverts every file by itself.** -/
theorem get_simulatePowerLoss (s : MemoryStorage) (path : DbPath) :
    s.simulatePowerLoss.get path = (s.get path).map revert := List.dlookup_map₂ path

theorem mem_listDir {dir : DbPath} {paths : List DbPath} (h : s.listDir dir = .ok paths) :
    path ∈ paths ↔ (s.get path).isSome = true ∧ path ≠ .root ∧ path.parent = dir := by
  unfold listDir at h
  split at h
  · obtain rfl := Except.ok.inj h
    rw [List.mem_filter, ← AList.mem_keys, ← AList.lookup_isSome]
    simp [get]
  · cases h

theorem listDir_ok {dir : DbPath} (h : s.get dir = some .dir) : ∃ paths, s.listDir dir = .ok paths := by
  unfold listDir; rw [h]; exact ⟨_, rfl⟩

/-- The two storages agree on every path but one. -/
def SameOff (path : DbPath) (s t : MemoryStorage) : Prop := ∀ q, q ≠ path → t.get q = s.get q

namespace SameOff

theorem refl (path : DbPath) (s : MemoryStorage) : SameOff path s s := fun _ _ => rfl

theorem trans {t u : MemoryStorage} (h : SameOff path s t) (h' : SameOff path t u) : SameOff path s u :=
  fun q hq => (h' q hq).trans (h q hq)

theorem put (s : MemoryStorage) (path : DbPath) (e : Entry) : SameOff path s (s.put path e) :=
  fun _ hq => get_put_ne s e hq

theorem erase (s : MemoryStorage) (path : DbPath) : SameOff path s (s.erase path) :=
  fun _ hq => get_erase_ne s hq

end SameOff

theorem openFile_file (mode : OpenMode) (h : s.get path = some (.file d)) :
    s.openFile path mode = (.ok ⟨path, mode.isWritable⟩, s) := by
  unfold openFile; rw [h]

/-- Opening with `Create` finds the file or makes it. -/
theorem openFile_create (h : (∃ d, s.get path = some (.file d)) ∨
      (s.get path = none ∧ s.get path.parent = some .dir)) :
    ∃ t d, s.openFile path .create = (.ok ⟨path, true⟩, t) ∧ t.get path = some (.file d) ∧ SameOff path s t ∧
      (s.get path = some (.file d) ∧ t = s ∨ s.get path = none ∧ d = ⟨[], []⟩) := by
  rcases h with ⟨d, hd⟩ | ⟨hnone, hparent⟩
  · exact ⟨s, d, openFile_file .create hd, hd, SameOff.refl path s, .inl ⟨hd, rfl⟩⟩
  · refine ⟨s.put path (.file ⟨[], []⟩), ⟨[], []⟩, ?_, get_put_self _ _ _, SameOff.put _ _ _, .inr ⟨hnone, rfl⟩⟩
    unfold openFile
    rw [hnone]
    simp [hparent, OpenMode.isWritable]

theorem change_file {α : Type} {f : File} (operation : StorageOp) {reply : FileData → α}
    {edit : FileData → FileData} (hw : f.writable = true) (h : s.get f.path = some (.file d)) :
    s.change f operation reply edit = (.ok (reply d), s.put f.path (.file (edit d))) := by
  unfold change; rw [hw, h]; rfl

@[simp] theorem overwrite_nil (bs : Bytes) : overwrite [] bs 0 = bs := by simp [overwrite, resize]

@[simp] theorem resize_zero (bs : Bytes) : resize bs 0 = [] := by simp [resize]

end MemoryStorage

end IshaVectorDb.Engine
