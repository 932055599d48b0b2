import IshaVectorDb.Correctness.PathArrays
import IshaVectorDb.Sdk.WriteBack

/-!
# `Correctness.WriteBack` — what changes is **noted**, and a transaction carries what is noted

A `Key` is what memory and store can differ in: a path's entry, or a block. Every operation of the adapter notes the keys
that it changes (`AdapterOp.notes`), and the transaction that a flush begins makes the store what memory is in every key
that was noted (`contents_drain`).
-/

namespace IshaVectorDb.Sdk.IndexedDb

open Format Engine

/-! ## What an image holds -/

/-- What is stored under a key of its own: a path's entry, or a block. -/
inductive Key
  | file (path : Bytes)
  | block (key : Bytes)
deriving DecidableEq

inductive Cell
  | file (entry : FileEntry)
  | block (bytes : Bytes)
deriving DecidableEq

/-- What an image holds under each key. -/
def Image.contents (img : Image) : Key → Option Cell
  | .file path => (img.files.lookup path).map .file
  | .block key => (img.blocks.lookup key).map .block

/-- **Two images are the same**: the same files, with the same sizes, and the same blocks. -/
def Image.Same (img other : Image) : Prop :=
  (∀ path, img.files.lookup path = other.files.lookup path) ∧ ∀ key, img.blocks.lookup key = other.blocks.lookup key

theorem Image.same_iff {img other : Image} : img.Same other ↔ img.contents = other.contents := by
  constructor
  · rintro ⟨hf, hb⟩
    funext k
    cases k with
    | file path => exact congrArg (Option.map Cell.file) (hf path)
    | block key => exact congrArg (Option.map Cell.block) (hb key)
  · intro h
    constructor
    · intro path
      exact Option.map_injective (fun _ _ h => Cell.file.inj h) (congrFun h (.file path))
    · intro key
      exact Option.map_injective (fun _ _ h => Cell.block.inj h) (congrFun h (.block key))

/-! ## What is noted -/

section

variable {s : List Bytes} {key other : Bytes}

@[simp] theorem mem_addTo : other ∈ addTo s key ↔ other = key ∨ other ∈ s := by
  unfold addTo
  split
  · next hkey => exact ⟨Or.inr, fun h => h.elim (fun h => h ▸ hkey) id⟩
  · rw [List.mem_append, List.mem_singleton, or_comm]

@[simp] theorem mem_deleteFrom : other ∈ deleteFrom s key ↔ other ∈ s ∧ other ≠ key := by
  simp [deleteFrom]

end

namespace Adapter

/-- To be put. -/
def Dirty (a : Adapter) : Key → Prop
  | .file path => path ∈ a.dirtyFiles
  | .block key => key ∈ a.dirtyBlocks

/-- To be deleted. -/
def Deleted (a : Adapter) : Key → Prop
  | .file path => path ∈ a.deletedFiles
  | .block key => key ∈ a.deletedBlocks

def Noted (a : Adapter) (k : Key) : Prop := a.Dirty k ∨ a.Deleted k

/-- **The sets tell the truth**: what is to be put is there, and what is to be deleted is not. -/
structure Tracked (a : Adapter) : Prop where
  dirty : ∀ k, a.Dirty k → (a.contents k).isSome
  deleted : ∀ k, a.Deleted k → a.contents k = none

/-- **A step that notes what it changes.** -/
structure Notes (a b : Adapter) : Prop where
  tracked : a.Tracked → b.Tracked
  keeps : ∀ k, a.Noted k → b.Noted k
  notes : ∀ k, b.contents k ≠ a.contents k → b.Noted k

namespace Notes

variable {a b c : Adapter}

theorem refl (a : Adapter) : Notes a a := ⟨id, fun _ => id, fun _ h => absurd rfl h⟩

theorem trans (h : Notes a b) (h' : Notes b c) : Notes a c := by
  refine ⟨fun ha => h'.tracked (h.tracked ha), fun k hk => h'.keeps k (h.keeps k hk), fun k hk => ?_⟩
  by_cases hlater : c.contents k = b.contents k
  · exact h'.keeps k (h.notes k (by rwa [← hlater]))
  · exact h'.notes k hlater

theorem foldl {C : Type} {f : Adapter → C → Adapter} (hstep : ∀ a c, Notes a (f a c)) (items : List C) (a : Adapter) :
    Notes a (items.foldl f a) := by
  induction items generalizing a with
  | nil => exact refl a
  | cons c items ih => exact (hstep a c).trans (ih (f a c))

end Notes

/-- **One key changed and noted**: it has the value `v`, and is to be put or to be deleted as that is. -/
structure Change (a b : Adapter) (k : Key) (v : Option Cell) : Prop where
  contents : ∀ other, b.contents other = if other = k then v else a.contents other
  dirty : ∀ other, b.Dirty other ↔ if other = k then v.isSome = true else a.Dirty other
  deleted : ∀ other, b.Deleted other ↔ if other = k then v = none else a.Deleted other

theorem Change.noted {a b : Adapter} {k : Key} {v : Option Cell} (h : Change a b k v) : Notes a b where
  tracked ha := by
    constructor
    · intro other hd
      rw [h.dirty] at hd
      rw [h.contents]
      split
      · next he => rwa [if_pos he] at hd
      · next he => rw [if_neg he] at hd; exact ha.dirty other hd
    · intro other hd
      rw [h.deleted] at hd
      rw [h.contents]
      split
      · next he => rwa [if_pos he] at hd
      · next he => rw [if_neg he] at hd; exact ha.deleted other hd
  keeps other hn := by
    unfold Noted at hn ⊢
    rw [h.dirty, h.deleted]
    split
    · cases v with
      | none => exact .inr rfl
      | some cell => exact .inl rfl
    · exact hn
  notes other hchanged := by
    unfold Noted
    rw [h.contents] at hchanged
    rw [h.dirty, h.deleted]
    split
    · cases v with
      | none => exact .inr rfl
      | some cell => exact .inl rfl
    · next he => exact absurd (if_neg he) hchanged

section

variable (a : Adapter) (path key : Bytes)

theorem setFile_change (entry : FileEntry) : Change a (a.setFile path entry) (.file path) (some (.file entry)) where
  contents other := by
    cases other with
    | file p =>
      show ((a.files.set path entry).lookup p).map Cell.file = _
      rw [lookup_set]
      by_cases hp : p = path <;> simp [hp, Image.contents]
    | block k => rfl
  dirty other := by
    cases other with
    | file p => by_cases hp : p = path <;> simp [hp, Dirty, setFile, touchFile]
    | block k => exact Iff.rfl
  deleted other := by
    cases other with
    | file p => by_cases hp : p = path <;> simp [hp, Deleted, setFile, touchFile]
    | block k => exact Iff.rfl

theorem setBlock_change (block : Bytes) : Change a (a.setBlock key block) (.block key) (some (.block block)) where
  contents other := by
    cases other with
    | file p => rfl
    | block k =>
      show ((a.blocks.set key block).lookup k).map Cell.block = _
      rw [lookup_set]
      by_cases hk : k = key <;> simp [hk, Image.contents]
  dirty other := by
    cases other with
    | file p => exact Iff.rfl
    | block k => by_cases hk : k = key <;> simp [hk, Dirty, setBlock, touchBlock]
  deleted other := by
    cases other with
    | file p => exact Iff.rfl
    | block k => by_cases hk : k = key <;> simp [hk, Deleted, setBlock, touchBlock]

theorem forgetFile_change : Change a (a.forgetFile path) (.file path) none where
  contents other := by
    cases other with
    | file p =>
      show ((a.files.erase path).lookup p).map Cell.file = _
      rw [lookup_erase]
      by_cases hp : p = path <;> simp [hp, Image.contents]
    | block k => rfl
  dirty other := by
    cases other with
    | file p => by_cases hp : p = path <;> simp [hp, Dirty, forgetFile]
    | block k => exact Iff.rfl
  deleted other := by
    cases other with
    | file p => by_cases hp : p = path <;> simp [hp, Deleted, forgetFile]
    | block k => exact Iff.rfl

theorem dropBlock_change : Change a (a.dropBlock key) (.block key) none where
  contents other := by
    cases other with
    | file p => rfl
    | block k =>
      show ((a.blocks.erase key).lookup k).map Cell.block = _
      rw [lookup_erase]
      by_cases hk : k = key <;> simp [hk, Image.contents]
  dirty other := by
    cases other with
    | file p => exact Iff.rfl
    | block k => by_cases hk : k = key <;> simp [hk, Dirty, dropBlock]
  deleted other := by
    cases other with
    | file p => exact Iff.rfl
    | block k => by_cases hk : k = key <;> simp [hk, Deleted, dropBlock]

end

/-! ## Operations -/

theorem dropBlocksFrom_notes (path : Bytes) (size : Nat) (a : Adapter) : Notes a (a.dropBlocksFrom path size) := by
  refine Notes.foldl (fun a key => ?_) _ a
  split
  · exact (dropBlock_change a key).noted
  · exact Notes.refl a

/-- Whether a path is noted before or after its blocks are dropped does not matter. -/
theorem touchFile_dropBlocksFrom (path other : Bytes) (size : Nat) (a : Adapter) :
    touchFile other (dropBlocksFrom path size a) = dropBlocksFrom path size (touchFile other a) := by
  unfold dropBlocksFrom
  refine (List.foldl_hom (touchFile other) (fun a key => ?_)).symm
  split <;> rfl

theorem removeFile_notes (path : Bytes) (a : Adapter) : Notes a (a.removeFile path) :=
  (forgetFile_change a path).noted.trans (dropBlocksFrom_notes path 0 _)

theorem writeLoop_notes (path src : Bytes) (offset rounds done : Nat) (a : Adapter) :
    Notes a (writeLoop path src offset rounds done a) := by
  induction rounds generalizing done a with
  | zero => exact Notes.refl a
  | succ rounds ih =>
    unfold writeLoop
    dsimp only
    split
    · exact Notes.refl a
    · exact (setBlock_change a _ _).noted.trans (ih _ _)

theorem write_notes (o : FileObject) (src : Bytes) (offset : Nat) (a : Adapter) : Notes a (a.write o src offset) := by
  have hblocks : Notes a (writeFrom o.path src offset a) := writeLoop_notes ..
  unfold write
  dsimp only
  split
  · split
    · exact hblocks.trans (setFile_change _ _ _).noted
    · exact hblocks
  · exact hblocks

theorem truncate_notes (o : FileObject) (len : Nat) (a : Adapter) : Notes a (a.truncate o len) := by
  unfold truncate
  split
  · rw [touchFile_dropBlocksFrom]
    exact (setFile_change a o.path _).noted.trans (dropBlocksFrom_notes _ _ _)
  · exact Notes.refl a

theorem openPath_notes (path : Bytes) (writable : Bool) (a : Adapter) : Notes a (a.openPath path writable).2 := by
  unfold openPath
  split
  · exact Notes.refl a
  · split
    · exact Notes.refl a
    · exact (setFile_change a path _).noted

end Adapter

/-- **Every operation notes what it changes.** -/
theorem AdapterOp.notes (op : AdapterOp) (a : Adapter) : a.Notes (op.effect a) := by
  cases op with
  | file c =>
    cases c with
    | «open» path writable => exact a.openPath_notes path writable
    | read file len offset => exact .refl a
    | write file src offset => exact a.write_notes file src offset
    | truncate file len => exact a.truncate_notes file len
    | size file => exact .refl a
    | removeFile path => exact a.removeFile_notes path
  | createDirAll path =>
    refine Adapter.Notes.foldl (fun a acc => ?_) _ a
    unfold Adapter.createDir
    split
    · exact .refl a
    · exact (Adapter.setFile_change a acc _).noted
  | removeDirAll path =>
    refine Adapter.Notes.foldl (fun a key => ?_) _ a
    split
    · exact a.removeFile_notes key
    · exact .refl a

/-! ## What a transaction carries -/

section

variable {V : Type}

theorem lookup_puts (m : TextMap V) (keys : List Bytes) (stored : TextMap V) (key : Bytes) :
    ((Drain.values m keys).foldl (fun s p => s.set p.1 p.2) stored).lookup key =
      if key ∈ keys ∧ (m.lookup key).isSome then m.lookup key else stored.lookup key := by
  induction keys generalizing stored with
  | nil => simp [Drain.values]
  | cons k keys ih =>
    unfold Drain.values at ih ⊢
    cases hk : m.lookup k with
    | none =>
      rw [List.filterMap_cons_none (by rw [hk]; rfl), ih]
      by_cases he : key = k
      · subst he; simp [hk]
      · simp [he]
    | some v =>
      rw [List.filterMap_cons_some (b := (k, v)) (by rw [hk]; rfl), List.foldl_cons, ih, lookup_set]
      by_cases he : key = k
      · subst he; simp [hk]
      · simp [he]

theorem lookup_gone (gone : List Bytes) (m : TextMap V) (key : Bytes) :
    (gone.foldl (fun m key => m.erase key) m).lookup key = if key ∈ gone then none else m.lookup key := by
  induction gone generalizing m with
  | nil => simp
  | cons k gone ih =>
    rw [List.foldl_cons, ih, lookup_erase]
    by_cases he : key = k
    · subst he; simp
    · simp [he]

end

/-- Under a key that has a set of puts and one of deletions, of which the first has what is there and the second what is
    not. -/
theorem lookup_applyTo {V : Type} (m stored : TextMap V) (keys gone : List Bytes) (key : Bytes)
    (hkeys : key ∈ keys → (m.lookup key).isSome) (hgone : key ∈ gone → m.lookup key = none) :
    (Drain.applyTo (Drain.values m keys) gone stored).lookup key =
      if key ∈ keys ∨ key ∈ gone then m.lookup key else stored.lookup key := by
  unfold Drain.applyTo
  rw [lookup_gone, lookup_puts]
  by_cases hg : key ∈ gone
  · rw [if_pos hg, if_pos (.inr hg), hgone hg]
  · rw [if_neg hg]
    by_cases hk : key ∈ keys
    · rw [if_pos ⟨hk, hkeys hk⟩, if_pos (.inl hk)]
    · rw [if_neg (fun h => hk h.1), if_neg (fun h => h.elim hk hg)]

instance (a : Adapter) : (k : Key) → Decidable (a.Noted k)
  | .file path => inferInstanceAs (Decidable (path ∈ a.dirtyFiles ∨ path ∈ a.deletedFiles))
  | .block key => inferInstanceAs (Decidable (key ∈ a.dirtyBlocks ∨ key ∈ a.deletedBlocks))

/-- **A transaction makes the store what memory is**, in every key that was noted, and leaves it as it is elsewhere. -/
theorem contents_drain {a : Adapter} (ha : a.Tracked) (stored : Image) (k : Key) :
    (a.drain.apply stored).contents k = if a.Noted k then a.contents k else stored.contents k := by
  cases k with
  | file path =>
    show ((Drain.applyTo (Drain.values a.files a.dirtyFiles) a.deletedFiles stored.files).lookup path).map Cell.file = _
    rw [lookup_applyTo]
    · exact apply_ite (Option.map Cell.file) ..
    · intro h
      exact Option.isSome_map.symm.trans (ha.dirty (.file path) h)
    · intro h
      exact Option.map_eq_none_iff.mp (ha.deleted (.file path) h)
  | block key =>
    show ((Drain.applyTo (Drain.values a.blocks a.dirtyBlocks) a.deletedBlocks stored.blocks).lookup key).map
      Cell.block = _
    rw [lookup_applyTo]
    · exact apply_ite (Option.map Cell.block) ..
    · intro h
      exact Option.isSome_map.symm.trans (ha.dirty (.block key) h)
    · intro h
      exact Option.map_eq_none_iff.mp (ha.deleted (.block key) h)

end IshaVectorDb.Sdk.IndexedDb
