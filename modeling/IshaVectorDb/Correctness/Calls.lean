import IshaVectorDb.Interaction.Calls
import IshaVectorDb.Correctness.Files
import IshaVectorDb.Engine.Database

/-!
# `Correctness.Calls` — which calls an **open** makes

Reading files, segments, catalogs, manifests and the log only ever makes calls that change nothing
(`Call.IsRead`), and clearing away what aborted flushes left removes segment files and nothing else.
-/

namespace IshaVectorDb.Engine

open Format Interaction

variable {S : Type}

/-- **A call that changes nothing**, carried out. -/
theorem step_read {c : Call} (h : c.IsRead) (s : MemoryStorage) : (device.step c s).2 = s := by
  cases c with
  | openFile path mode =>
    cases mode with
    | read =>
      show (s.openFile path .read).2 = s
      unfold MemoryStorage.openFile
      split
      · rfl
      · rfl
      · rfl
    | readWrite => cases h
    | create => cases h
  | metadata path => rfl
  | readAt f len offset => rfl
  | len f => rfl
  | listDir path => rfl
  | _ => cases h

/-- A read that is cut off changes nothing. -/
theorem cut_read {c : Call} (h : c.IsRead) (n : Nat) (s : MemoryStorage) : device.cut c n s = s := by
  have hstep := step_read h s
  cases c <;> first | exact h.elim | exact (congrArg (fun t => if n = 0 then s else t) hstep).trans (ite_self s)

/-- The call removes a segment's file. -/
def Call.RemovesSegment (name : Str) (c : Call) : Prop := ∃ id which, c = .removeFile (.segmentFile name id which)

/-- Removing a file changes that file's entry at most. -/
theorem step_removeFile {path q : DbPath} (h : q ≠ path) (s : MemoryStorage) :
    (device.step (.removeFile path) s).2.get q = s.get q := by
  show (s.removeFile path).2.get q = s.get q
  unfold MemoryStorage.removeFile
  split
  · exact MemoryStorage.get_erase_ne s h
  · rfl
  · rfl

/-! ## Reading -/

theorem readFile_calls (path : DbPath) : (readFile path : Action S _).Calls Call.IsRead := by
  apply Proc.Calls.bind (Proc.Calls.call trivial)
  intro found
  cases found with
  | none => exact Proc.Calls.pure none
  | some len =>
    apply Proc.Calls.bind (Proc.Calls.call trivial)
    intro file
    apply Proc.Calls.bind (Proc.Calls.call trivial)
    intro bytes
    exact Proc.Calls.pure (some bytes)

theorem require_calls (name : Str) (id : UInt64) (which : SegmentFile) :
    (require name id which : Action S _).Calls Call.IsRead := by
  apply Proc.Calls.bind (Proc.Calls.lift _)
  intro path
  apply Proc.Calls.bind (readFile_calls path)
  intro found
  cases found with
  | none => exact Proc.Calls.throw _
  | some bytes => exact Proc.Calls.pure bytes

/-- Opening a segment changes nothing. -/
theorem segmentOpen_calls (catalog : Catalog) (seg : SegmentRef) :
    (SegmentData.open catalog seg : Action S _).Calls Call.IsRead := by
  apply Proc.Calls.bind (require_calls _ _ _)
  intro vecBytes
  apply Proc.Calls.bind (require_calls _ _ _)
  intro dirBytes
  apply Proc.Calls.bind (require_calls _ _ _)
  intro metaBytes
  apply Proc.Calls.bind (Proc.Calls.lift _)
  intro metaBlock
  apply Proc.Calls.bind (require_calls _ _ _)
  intro delBytes
  apply Proc.Calls.bind (Proc.Calls.lift _)
  intro directory
  apply Proc.Calls.bind (Proc.Calls.lift _)
  intro tombstones
  exact Proc.Calls.lift _

theorem readCatalog_calls (name : Str) : (readCatalog name : Action S _).Calls Call.IsRead := by
  apply Proc.Calls.bind (Proc.Calls.lift _)
  intro path
  apply Proc.Calls.bind (readFile_calls path)
  intro found
  cases found with
  | none => exact Proc.Calls.throw _
  | some bytes => exact Proc.Calls.lift _

/-- Replaying the log changes nothing. -/
theorem replayInto_calls (invNorm : InvNorm) (path : DbPath) (idKind : IdKind) (memtable : Memtable) :
    (replayInto invNorm path idKind memtable : Action S _).Calls Call.IsRead := by
  apply Proc.Calls.bind (readFile_calls path)
  intro found
  cases found with
  | none => exact Proc.Calls.pure _
  | some bytes => exact Proc.Calls.lift _

theorem readSlot_calls (slot : Slot) : (ManifestStore.readSlot slot : Action S _).Calls Call.IsRead := by
  apply Proc.Calls.bind (Proc.Calls.call trivial)
  intro found
  cases found with
  | none => exact Proc.Calls.pure none
  | some len =>
    by_cases h0 : len = 0
    · simp only [if_pos h0]
      exact Proc.Calls.pure none
    · simp only [if_neg h0]
      apply Proc.Calls.bind (Proc.Calls.call trivial)
      intro file
      apply Proc.Calls.bind (Proc.Calls.call trivial)
      intro bytes
      exact Proc.Calls.pure (some bytes)

/-- Adopting a manifest changes nothing. -/
theorem load_calls : (ManifestStore.load : Action S _).Calls Call.IsRead := by
  apply Proc.Calls.bind (readSlot_calls .a)
  intro a
  apply Proc.Calls.bind (readSlot_calls .b)
  intro b
  split
  · exact Proc.Calls.pure none
  · dsimp only
    split
    · exact Proc.Calls.pure _
    · exact Proc.Calls.throw _

theorem listCollectionDirs_calls : (listCollectionDirs : Action S _).Calls Call.IsRead := by
  apply Proc.Calls.bind (Proc.Calls.call trivial)
  intro found
  cases found with
  | none => exact Proc.Calls.pure []
  | some len => exact Proc.Calls.call trivial

/-! ## Clearing away -/

theorem listSegmentIds_calls (name : Str) : (listSegmentIds name : Action S _).Calls Call.IsRead := by
  apply Proc.Calls.bind (Proc.Calls.lift _)
  intro dir
  apply Proc.Calls.bind (Proc.Calls.call trivial)
  intro found
  cases found with
  | none => exact Proc.Calls.pure []
  | some len =>
    apply Proc.Calls.bind (Proc.Calls.call trivial)
    intro paths
    exact Proc.Calls.pure _

theorem removeSegmentFile_calls (name : Str) (id : UInt64) (which : SegmentFile) :
    (removeSegmentFile name id which : Action S Unit).Calls (fun c => c.IsRead ∨ c.RemovesSegment name) := by
  unfold removeSegmentFile Layout.segmentFile Layout.under
  by_cases hname : checkCollectionName name = .ok ()
  · rw [hname]
    apply Proc.Calls.bind (Proc.Calls.call (.inl trivial))
    intro found
    cases found with
    | none => exact Proc.Calls.pure ()
    | some len => exact Proc.Calls.call (.inr ⟨id, which, rfl⟩)
  · cases hc : checkCollectionName name with
    | ok u => exact absurd hc hname
    | error e => exact fun x => trivial

/-- **Clearing away removes segment files and nothing else**, and nothing at all on a read-only database. -/
theorem cleanUp_calls (env : Env) (name : Str) (entry : CollectionEntry) :
    (cleanUp env name entry : Action S Unit).Calls
      (fun c => c.IsRead ∨ env.config.readOnly = false ∧ c.RemovesSegment name) := by
  unfold cleanUp
  split
  · exact Proc.Calls.pure ()
  · rename_i hro
    apply Proc.Calls.bind ((listSegmentIds_calls name).mono (fun c hc => .inl hc))
    intro ids
    apply Proc.Calls.forList
    intro id _
    split
    · exact Proc.Calls.pure ()
    · apply Proc.Calls.forList
      intro which _
      apply (removeSegmentFile_calls name id which).mono
      intro c hc
      exact hc.imp_right (fun h => ⟨by simpa using hro, h⟩)

end IshaVectorDb.Engine
