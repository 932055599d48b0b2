import IshaVectorDb.Interaction.Faults
import IshaVectorDb.Correctness.Reopening
import IshaVectorDb.Correctness.Manifests

/-!
# `Correctness.SlotRuns` — any run of **commits, loads and accidents** on the two manifest slots

A commit rewrites the slot that is not authoritative, and any accident may befall it; a power loss reverts both
slots to what was synced. `SlotRun.twoSlots` says what holds in every state of such a run as long as no load adopts
a slot that is not synced; `adopted_unsynced` is what happens otherwise.
-/

namespace IshaVectorDb.Engine

open Format Interaction

/-! ## Rewriting a file, whatever befalls it -/

/-- The bytes that a power loss would leave of a file. -/
def durableBytes (s : MemoryStorage) (path : DbPath) : Bytes := match s.get path with
  | some (.file d) => d.durable
  | _ => []

/-- **What rewriting a file leaves**: all of the new content, synced; or what was there, or a beginning of the new
    content over what was durable. -/
theorem writeFile_outcome {S : Type} {path : DbPath} {s : MemoryStorage} (hparent : s.get path.parent = some .dir)
    (hfile : s.get path ≠ some .dir) (bytes : Bytes) (x : S) (fault : Fault DbError) :
    ∃ r s', (writeFile path bytes x).runWith device s fault = (r, s') ∧ MemoryStorage.SameOff path s s' ∧
      ((r = some (.ok (), x) ∨ r = none) ∧ s'.get path = some (.file ⟨bytes, bytes⟩) ∨
        ((∃ e, r = some (.error e, x)) ∨ r = none) ∧ (s'.get path = s.get path ∨
          ∃ n, s'.get path = some (.file ⟨bytes.take n, durableBytes s path⟩))) := by
  -- the file that the open finds or makes
  have hthere : (∃ d, s.get path = some (.file d)) ∨ (s.get path = none ∧ s.get path.parent = some .dir) := by
    cases hg : s.get path with
    | none => exact .inr ⟨rfl, hparent⟩
    | some e =>
      cases e with
      | dir => exact absurd hg hfile
      | file d => exact .inl ⟨d, rfl⟩
  obtain ⟨t, d, hopen, hd, hoff, hold⟩ := MemoryStorage.openFile_create hthere
  have hdur : d.durable = durableBytes s path := by
    unfold durableBytes
    rcases hold with ⟨hg, -⟩ | ⟨hg, rfl⟩
    · rw [hg]
    · rw [hg]
  have hopened : t.get path = s.get path ∨ ∃ n, t.get path = some (.file ⟨bytes.take n, durableBytes s path⟩) := by
    rcases hold with ⟨hg, -⟩ | ⟨-, rfl⟩
    · exact .inl (hd.trans hg.symm)
    · exact .inr ⟨0, by rw [hd, ← hdur, List.take_zero]⟩
  have htrunc := step_truncate hd 0
  rw [MemoryStorage.resize_zero, hdur] at htrunc
  have hempty := MemoryStorage.get_put_self t path (.file ⟨[], durableBytes s path⟩)
  have hwrite : ∀ bs, device.step (.writeAt ⟨path, true⟩ bs 0) (t.put path (.file ⟨[], durableBytes s path⟩)) =
      (.ok (), t.put path (.file ⟨bs, durableBytes s path⟩)) := by
    intro bs
    rw [step_writeAt hempty bs, MemoryStorage.overwrite_nil, MemoryStorage.put_put]
  have hwritten := MemoryStorage.get_put_self t path (.file ⟨bytes, durableBytes s path⟩)
  have hsync := step_syncData hwritten
  rw [MemoryStorage.put_put] at hsync
  have hput : ∀ e, MemoryStorage.SameOff path s (t.put path e) := fun e => hoff.trans (MemoryStorage.SameOff.put t path e)
  have hpart : ∀ n, (t.put path (.file ⟨bytes.take n, durableBytes s path⟩)).get path = s.get path ∨
      ∃ k, (t.put path (.file ⟨bytes.take n, durableBytes s path⟩)).get path =
        some (.file ⟨bytes.take k, durableBytes s path⟩) := fun n => .inr ⟨n, MemoryStorage.get_put_self _ _ _⟩
  have hstep : device.step (.openFile path .create) s = (.ok ⟨path, true⟩, t) := hopen
  unfold writeFile call
  rcases Proc.runWith_step hstep fault with ⟨e, n, h⟩ | ⟨n, h⟩ | ⟨fault, -, h⟩
  · refine ⟨_, _, h, ?_⟩
    rw [show device.fail (.openFile path .create) n s = s from ite_self s]
    exact ⟨MemoryStorage.SameOff.refl path s, .inr ⟨.inl ⟨e, rfl⟩, .inl rfl⟩⟩
  · refine ⟨_, _, h, ?_⟩
    have hcut : device.cut (.openFile path .create) n s = if n = 0 then s else t :=
      if_congr Iff.rfl rfl (congrArg Prod.snd hopen)
    rw [hcut]
    split
    · exact ⟨MemoryStorage.SameOff.refl path s, .inr ⟨.inr rfl, .inl rfl⟩⟩
    · exact ⟨hoff, .inr ⟨.inr rfl, hopened⟩⟩
  rw [h]
  rcases Proc.runWith_step htrunc fault with ⟨e, n, h⟩ | ⟨n, h⟩ | ⟨fault, -, h⟩
  · refine ⟨_, _, h, ?_⟩
    rw [show device.fail (.truncate ⟨path, true⟩ 0) n t = t from ite_self t]
    exact ⟨hoff, .inr ⟨.inl ⟨e, rfl⟩, hopened⟩⟩
  · refine ⟨_, _, h, ?_⟩
    have hcut : device.cut (.truncate ⟨path, true⟩ 0) n t =
        if n = 0 then t else t.put path (.file ⟨[], durableBytes s path⟩) :=
      if_congr Iff.rfl rfl (congrArg Prod.snd htrunc)
    rw [hcut]
    split
    · exact ⟨hoff, .inr ⟨.inr rfl, hopened⟩⟩
    · exact ⟨hput _, .inr ⟨.inr rfl, hpart 0⟩⟩
  rw [h]
  rcases Proc.runWith_step (hwrite bytes) fault with ⟨e, n, h⟩ | ⟨n, h⟩ | ⟨fault, -, h⟩
  · refine ⟨_, _, h, ?_⟩
    rw [show device.fail (.writeAt ⟨path, true⟩ bytes 0) n _ = _ from congrArg Prod.snd (hwrite (bytes.take n))]
    exact ⟨hput _, .inr ⟨.inl ⟨e, rfl⟩, hpart n⟩⟩
  · refine ⟨_, _, h, ?_⟩
    rw [show device.cut (.writeAt ⟨path, true⟩ bytes 0) n _ = _ from congrArg Prod.snd (hwrite (bytes.take n))]
    exact ⟨hput _, .inr ⟨.inr rfl, hpart n⟩⟩
  rw [h]
  rcases Proc.runWith_call hsync fault with ⟨e, n, h⟩ | ⟨n, h⟩ | h
  · refine ⟨_, _, h, ?_⟩
    rw [show device.fail (.syncData ⟨path, true⟩) n _ = _ from ite_self _]
    refine ⟨hput _, .inr ⟨.inl ⟨e, rfl⟩, .inr ⟨bytes.length, ?_⟩⟩⟩
    rw [List.take_length]
    exact hwritten
  · refine ⟨_, _, h, ?_⟩
    have hcut : device.cut (.syncData ⟨path, true⟩) n (t.put path (.file ⟨bytes, durableBytes s path⟩)) =
        if n = 0 then t.put path (.file ⟨bytes, durableBytes s path⟩) else t.put path (.file ⟨bytes, bytes⟩) :=
      if_congr Iff.rfl rfl (congrArg Prod.snd hsync)
    rw [hcut]
    split
    · refine ⟨hput _, .inr ⟨.inr rfl, .inr ⟨bytes.length, ?_⟩⟩⟩
      rw [List.take_length]
      exact hwritten
    · exact ⟨hput _, .inl ⟨.inr rfl, MemoryStorage.get_put_self _ _ _⟩⟩
  · exact ⟨_, _, h, hput _, .inl ⟨.inl rfl, MemoryStorage.get_put_self _ _ _⟩⟩

/-! ## Runs -/

/-- A manifest's slot, written out. -/
def slotOf (m : Manifest) : Bytes := encodeBlock .manifest m.payload

/-- **Where a run stands**: the storage, the store that the process holds if there is one, the last manifest whose
    commit took place, the ones that were tried after it, those that were adopted so far, oldest first, and the
    number of commits. -/
structure SlotState where
  storage : MemoryStorage
  store : Option ManifestStore
  last : Option Manifest
  tried : List Manifest
  adopted : List Manifest
  commits : Nat

/-- How a commit ended: the process holds the new store; it holds what it held; or it is gone. -/
inductive Ending
  | done (store : ManifestStore)
  | refused (store : Option ManifestStore)
  | died

namespace Ending

/-- The ending of a commit. -/
def ofCommit : Option (Except DbError Unit × ManifestStore) → Ending
  | some (.ok _, store) => .done store
  | some (.error _, store) => .refused (some store)
  | none => .died

/-- The ending of the creation of the first manifest, which is no store's. -/
def ofCreate : Option (Except DbError ManifestStore × Unit) → Ending
  | some (.ok store, _) => .done store
  | some (.error _, _) => .refused none
  | none => .died

end Ending

namespace SlotState

/-- The state after a commit of `attempt` to the slot `target`. The commit took place when it was acknowledged, and
    when the process died behind its sync. -/
def after (x : SlotState) (attempt : Manifest) (target : Slot) (ending : Ending) (s : MemoryStorage) : SlotState :=
  match ending with
  | .done store => ⟨s, some store, some attempt, [], x.adopted ++ [attempt], x.commits + 1⟩
  | .refused store => ⟨s, store, x.last, x.tried ++ [attempt], x.adopted, x.commits + 1⟩
  | .died =>
    if s.image .durable (.manifest target) = some (slotOf attempt) then
      ⟨s, none, some attempt, [], x.adopted, x.commits + 1⟩
    else ⟨s, none, x.last, x.tried ++ [attempt], x.adopted, x.commits + 1⟩

end SlotState

/-- **A run of the manifest store**, from a directory without slots: first manifests where a load finds none,
    commits of any manifest that fits in memory, each under any fault, loads and exits at any time, power losses,
    and changes to whatever is not a slot. `mayAdopt` and `mayWrite` restrict the loads and the manifests. -/
inductive SlotRun (mayAdopt : MemoryStorage → Prop) (mayWrite : Manifest → Prop) : SlotState → Prop
  | start {s : MemoryStorage} (hroot : s.get .root = some .dir) (hnone : ∀ slot, s.get (.manifest slot) = none) :
      SlotRun mayAdopt mayWrite ⟨s, none, none, [], [], 0⟩
  | create {x : SlotState} {r : Option (Except DbError ManifestStore × Unit)} {s : MemoryStorage}
      (h : SlotRun mayAdopt mayWrite x) (dbUuid : Uuid) (nowMs : UInt64) (fault : Fault DbError) (hstore : x.store = none)
      (hload : (ManifestStore.load ()).run device x.storage = ((.ok none, ()), x.storage))
      (hrun : (ManifestStore.create dbUuid nowMs ()).runWith device x.storage fault = (r, s)) :
      SlotRun mayAdopt mayWrite (x.after (Manifest.new dbUuid nowMs) .a (.ofCreate r) s)
  | commit {x : SlotState} {store : ManifestStore} {r : Option (Except DbError Unit × ManifestStore)} {s : MemoryStorage}
      (h : SlotRun mayAdopt mayWrite x) (next : Manifest) (nowMs : UInt64) (fault : Fault DbError)
      (hstore : x.store = some store) (hfits : (store.successor next nowMs).payload.length + 36 < 2 ^ 64)
      (hmay : mayWrite next) (hrun : (ManifestStore.commit next nowMs store).runWith device x.storage fault = (r, s)) :
      SlotRun mayAdopt mayWrite (x.after (store.successor next nowMs) store.slot.other (.ofCommit r) s)
  | load {x : SlotState} {store : ManifestStore} {s : MemoryStorage} (h : SlotRun mayAdopt mayWrite x)
      (hmay : mayAdopt x.storage)
      (hrun : (ManifestStore.load ()).run device x.storage = ((.ok (some store), ()), s)) :
      SlotRun mayAdopt mayWrite { x with storage := s, store := some store, adopted := x.adopted ++ [store.current] }
  | exit {x : SlotState} (h : SlotRun mayAdopt mayWrite x) : SlotRun mayAdopt mayWrite { x with store := none }
  | powerLoss {x : SlotState} (h : SlotRun mayAdopt mayWrite x) :
      SlotRun mayAdopt mayWrite { x with storage := x.storage.simulatePowerLoss, store := none }
  | elsewhere {x : SlotState} {s : MemoryStorage} (h : SlotRun mayAdopt mayWrite x) (hroot : s.get .root = some .dir)
      (hslots : ∀ slot, s.get (.manifest slot) = x.storage.get (.manifest slot)) :
      SlotRun mayAdopt mayWrite { x with storage := s }

/-- **What the two slots are for.** A load finds a manifest, the last one whose commit took place or one tried after
    it; the manifests adopted never get older; and the slot that the next commit rewrites does not hold the only
    durable copy of the last one. -/
structure TwoSlots (x : SlotState) : Prop where
  found : ∀ m, x.last = some m → ∃ store,
    (ManifestStore.load ()).run device x.storage = ((.ok (some store), ()), x.storage) ∧ store.current ∈ m :: x.tried
  ordered : x.adopted.Pairwise (fun m m' => m.sequence ≤ m'.sequence)
  spared : ∀ m store, x.last = some m → x.store = some store →
    x.storage.image .durable (.manifest store.slot.other) = some (slotOf m) →
    x.storage.image .durable (.manifest store.slot) = some (slotOf m)

/-- Every slot that holds a manifest is synced. -/
def SlotsSynced (s : MemoryStorage) : Prop := ∀ slot m,
  SlotStatus.examine (slotBytes (s.image .live) slot) = .valid m →
    s.image .durable (.manifest slot) = s.image .live (.manifest slot)

/-- The manifest's snapshot numbers are written as what they are: the highest one is not. -/
def SnapshotsKept (m : Manifest) : Prop := ∀ c ∈ m.collections, c.indexSnapshot ≠ some 0xFFFFFFFFFFFFFFFF

/-! ## What a write of a slot leaves -/

/-- How a write of `attempt` to the slot ended, and what it left there. -/
inductive Wrote (s s' : MemoryStorage) (attempt : Manifest) (target : Slot) (kept : Option ManifestStore) :
    Ending → Prop
  | done (h : s'.get (.manifest target) = some (.file ⟨slotOf attempt, slotOf attempt⟩)) :
      Wrote s s' attempt target kept (.done ⟨attempt, target⟩)
  | diedDone (h : s'.get (.manifest target) = some (.file ⟨slotOf attempt, slotOf attempt⟩)) :
      Wrote s s' attempt target kept .died
  | cut (ending : Ending) (hending : ending = .refused kept ∨ ending = .died)
      (h : s'.get (.manifest target) = s.get (.manifest target) ∨ ∃ n, s'.get (.manifest target) =
        some (.file ⟨(slotOf attempt).take n, durableBytes s (.manifest target)⟩)) :
      Wrote s s' attempt target kept ending

theorem write_outcome {s s' : MemoryStorage} (hroot : s.get .root = some .dir) {attempt : Manifest}
    (hattempt : attempt.Writable) {store : ManifestStore} (hfile : s.get (.manifest store.slot.other) ≠ some .dir)
    {fault : Fault DbError} {r : Option (Except DbError Unit × ManifestStore)}
    (hrun : (ManifestStore.write attempt store).runWith device s fault = (r, s')) :
    MemoryStorage.SameOff (.manifest store.slot.other) s s' ∧
      (r = some (.ok (), ⟨attempt, store.slot.other⟩) ∨ (∃ e, r = some (.error e, store)) ∨ r = none) ∧
      Wrote s s' attempt store.slot.other (some store) (.ofCommit r) := by
  have hbytes : formatAt (.manifest store.slot.other) attempt.encode = .ok (slotOf attempt) := by
    rw [Manifest.encode_eq hattempt]
    rfl
  -- once the file is written, there is nothing left but to remember it
  have hwrite : ManifestStore.write attempt store = (writeFile (.manifest store.slot.other) (slotOf attempt) store).bind
      (fun q => .pure (match q with
        | (.ok _, _) => (.ok (), ⟨attempt, store.slot.other⟩)
        | (.error e, kept) => (.error e, kept))) := by
    show Proc.bind (Proc.lift (formatAt (.manifest store.slot.other) attempt.encode)) _ store = _
    rw [hbytes]
    show Proc.bind (writeFile (.manifest store.slot.other) (slotOf attempt)) _ store = _
    unfold Proc.bind
    congr 1
    funext q
    obtain ⟨q, kept⟩ := q
    cases q with
    | ok u => rfl
    | error e => rfl
  obtain ⟨q, t, hq, hoff, hcase⟩ := writeFile_outcome (x := store) hroot hfile (slotOf attempt) fault
  rw [hwrite, Prog.runWith_map, hq] at hrun
  obtain ⟨rfl, rfl⟩ := Prod.mk.inj hrun
  refine ⟨hoff, ?_⟩
  rcases hcase with ⟨rfl | rfl, hget⟩ | ⟨⟨e, rfl⟩ | rfl, hget⟩
  · exact ⟨.inl rfl, .done hget⟩
  · exact ⟨.inr (.inr rfl), .diedDone hget⟩
  · exact ⟨.inr (.inl ⟨e, rfl⟩), .cut _ (.inl rfl) hget⟩
  · exact ⟨.inr (.inr rfl), .cut _ (.inr rfl) hget⟩

/-- A newer manifest is not what a stale slot holds. -/
theorem Stale.ne_newer {m m' : Manifest} {v : Option Bytes} (h : Stale m v) (hw : m'.Writable)
    (hnewer : m.sequence < m'.sequence) : v ≠ some (slotOf m') := by
  have hd := Manifest.decode_encode hw []
  rw [List.append_nil] at hd
  rintro rfl
  rcases h with h | h | ⟨bs, e, h, he⟩ | ⟨bs, m'', h, hm, hlt⟩
  · cases h
  · exact encodeBlock_ne_nil _ _ (Option.some.inj h)
  · obtain rfl := Option.some.inj h
    unfold slotOf at he
    rw [hd] at he
    cases he
  · obtain rfl := Option.some.inj h
    unfold slotOf at hm
    rw [hd] at hm
    obtain rfl := Except.ok.inj hm
    rw [UInt64.lt_iff_toNat_lt] at hnewer hlt
    omega

/-- The beginning of a newer manifest is stale, or it is all of it. -/
theorem stale_take {m attempt : Manifest} (hw : attempt.Writable) (n : Nat) :
    Stale m (some ((slotOf attempt).take n)) ∨ (slotOf attempt).take n = slotOf attempt := by
  by_cases hn : n < (slotOf attempt).length
  · obtain ⟨e, he⟩ := Manifest.decode_torn hw hn
    exact .inl (.inr (.inr (.inl ⟨_, e, rfl, he⟩)))
  · exact .inr (List.take_of_length_le (Nat.not_lt.mp hn))

/-! ## The invariant -/

/-- **Before a commit took place**: there is no slot but the first, and nothing of it is durable. -/
structure SlotBlank (s : MemoryStorage) : Prop where
  root : s.get .root = some .dir
  first : s.get (.manifest .a) = none ∨ ∃ live, s.get (.manifest .a) = some (.file ⟨live, []⟩)
  second : s.get (.manifest .b) = none

/-- **After a commit took place**: one slot holds the last manifest, synced; the other holds something stale, or a
    manifest that was tried since, and what is durable of it is stale. -/
structure SlotSettled (s : MemoryStorage) (last : Manifest) (slot : Slot) (tried : List Manifest) : Prop where
  root : s.get .root = some .dir
  file : s.get (.manifest slot.other) ≠ some .dir
  writable : last.Writable
  synced : s.get (.manifest slot) = some (.file ⟨slotOf last, slotOf last⟩)
  other : Stale last (s.image .live (.manifest slot.other)) ∨
    ∃ m ∈ tried, Outranks m last (s.image .live (.manifest slot.other))
  durable : Stale last (s.image .durable (.manifest slot.other))

section Steps

variable {s s' : MemoryStorage} {last attempt : Manifest} {slot : Slot} {tried : List Manifest}

theorem slot_ne (slot : Slot) : (.manifest slot : DbPath) ≠ .manifest slot.other := by
  intro he
  exact Slot.other_ne slot (DbPath.manifest.inj he).symm

theorem image_congr {p : DbPath} (h : s'.get p = s.get p) (sel : Sel) : s'.image sel p = s.image sel p := by
  unfold MemoryStorage.image
  rw [h]

theorem SlotSettled.slotsInv (h : SlotSettled s last slot tried) : SlotsInv (s.image .live) ⟨last, slot⟩ := by
  refine ⟨MemoryStorage.image_file h.synced .live, h.writable, ?_⟩
  rcases h.other with hstale | ⟨m, -, hout⟩
  · exact .inl hstale
  · exact .inr ⟨m, hout⟩

theorem SlotSettled.mono (h : SlotSettled s last slot tried) (more : List Manifest) : SlotSettled s last slot (tried ++ more) := by
  refine ⟨h.root, h.file, h.writable, h.synced, ?_, h.durable⟩
  rcases h.other with hstale | ⟨m, hm, hout⟩
  · exact .inl hstale
  · exact .inr ⟨m, List.mem_append.mpr (.inl hm), hout⟩

/-- **The write got to its end**: now the other slot holds the last manifest. -/
theorem SlotSettled.landed (h : SlotSettled s last slot tried) (hw : attempt.Writable) (hnewer : last.sequence < attempt.sequence)
    (hoff : MemoryStorage.SameOff (.manifest slot.other) s s')
    (hget : s'.get (.manifest slot.other) = some (.file ⟨slotOf attempt, slotOf attempt⟩)) :
    SlotSettled s' attempt slot.other [] := by
  have hkeep : s'.get (.manifest slot) = some (.file ⟨slotOf last, slotOf last⟩) :=
    (hoff _ (slot_ne slot)).trans h.synced
  have hstale : ∀ sel, Stale attempt (s'.image sel (.manifest slot)) := by
    intro sel
    have hd := Manifest.decode_encode h.writable []
    rw [List.append_nil] at hd
    refine .inr (.inr (.inr ⟨slotOf last, last, ?_, hd, hnewer⟩))
    rw [MemoryStorage.image_file hkeep sel]
    cases sel <;> rfl
  refine ⟨?_, ?_, hw, hget, .inl ?_, ?_⟩
  · rw [hoff .root nofun]; exact h.root
  · rw [Slot.other_other, hkeep]; exact nofun
  · rw [Slot.other_other]; exact hstale .live
  · rw [Slot.other_other]; exact hstale .durable

/-- **The write did not get to its end**: the last manifest stays what it is. -/
theorem SlotSettled.missed (h : SlotSettled s last slot tried) (hw : attempt.Writable) (hnewer : last.sequence < attempt.sequence)
    (hoff : MemoryStorage.SameOff (.manifest slot.other) s s')
    (hget : s'.get (.manifest slot.other) = s.get (.manifest slot.other) ∨ ∃ n, s'.get (.manifest slot.other) =
      some (.file ⟨(slotOf attempt).take n, durableBytes s (.manifest slot.other)⟩)) :
    SlotSettled s' last slot (tried ++ [attempt]) := by
  have hroot : s'.get .root = some .dir := (hoff .root nofun).trans h.root
  have hkeep : s'.get (.manifest slot) = some (.file ⟨slotOf last, slotOf last⟩) :=
    (hoff _ (slot_ne slot)).trans h.synced
  rcases hget with hget | ⟨n, hget⟩
  · refine ⟨hroot, by rw [hget]; exact h.file, h.writable, hkeep, ?_, ?_⟩
    · rw [image_congr hget]; exact (h.mono [attempt]).other
    · rw [image_congr hget]; exact h.durable
  · refine ⟨hroot, by rw [hget]; exact nofun, h.writable, hkeep, ?_, ?_⟩
    · rw [MemoryStorage.image_file hget .live]
      show Stale last (some ((slotOf attempt).take n)) ∨ _
      rcases stale_take hw n with hstale | hall
      · exact .inl hstale
      · refine .inr ⟨attempt, List.mem_append.mpr (.inr (List.mem_singleton.mpr rfl)), ?_, hw, hnewer⟩
        show some ((slotOf attempt).take n) = _
        rw [hall]
        rfl
    · rw [MemoryStorage.image_file hget .durable]
      show Stale last (some (durableBytes s (.manifest slot.other)))
      have hold := h.durable
      unfold MemoryStorage.image at hold
      unfold durableBytes
      cases hg : s.get (.manifest slot.other) with
      | none => exact .inr (.inl rfl)
      | some e =>
        cases e with
        | dir => exact absurd hg h.file
        | file d =>
          rw [hg] at hold
          exact hold

/-- The first manifest is written to the end. -/
theorem SlotBlank.landed (h : SlotBlank s) (hw : attempt.Writable) (hoff : MemoryStorage.SameOff (.manifest .a) s s')
    (hget : s'.get (.manifest .a) = some (.file ⟨slotOf attempt, slotOf attempt⟩)) : SlotSettled s' attempt .a [] := by
  have hb : s'.get (.manifest .b) = none := (hoff (.manifest .b) (by decide)).trans h.second
  refine ⟨(hoff .root nofun).trans h.root, ?_, hw, hget, .inl (.inl ?_), .inl ?_⟩
  · show s'.get (.manifest .b) ≠ _
    rw [hb]
    exact nofun
  · exact MemoryStorage.image_none hb .live
  · exact MemoryStorage.image_none hb .durable

/-- The first manifest is not written to the end. -/
theorem SlotBlank.missed (h : SlotBlank s) {n : Nat} {bytes : Bytes} (hoff : MemoryStorage.SameOff (.manifest .a) s s')
    (hget : s'.get (.manifest .a) = s.get (.manifest .a) ∨
      s'.get (.manifest .a) = some (.file ⟨bytes.take n, durableBytes s (.manifest .a)⟩)) : SlotBlank s' := by
  refine ⟨(hoff .root nofun).trans h.root, ?_, (hoff (.manifest .b) (by decide)).trans h.second⟩
  rcases hget with hget | hget
  · rw [hget]
    exact h.first
  · have hnone : durableBytes s (.manifest .a) = [] := by
      unfold durableBytes
      rcases h.first with hg | ⟨live, hg⟩
      · rw [hg]
      · rw [hg]
    rw [hnone] at hget
    exact .inr ⟨_, hget⟩

theorem SlotSettled.powerLoss (h : SlotSettled s last slot tried) : SlotSettled s.simulatePowerLoss last slot tried := by
  refine ⟨?_, ?_, h.writable, ?_, ?_, ?_⟩
  · rw [MemoryStorage.get_simulatePowerLoss, h.root]; rfl
  · rw [MemoryStorage.get_simulatePowerLoss]
    intro hdir
    cases hg : s.get (.manifest slot.other) with
    | none => rw [hg] at hdir; cases hdir
    | some e =>
      cases e with
      | dir => exact h.file hg
      | file d => rw [hg] at hdir; cases hdir
  · rw [MemoryStorage.get_simulatePowerLoss, h.synced]; rfl
  · rw [MemoryStorage.image_simulatePowerLoss]; exact .inl h.durable
  · rw [MemoryStorage.image_simulatePowerLoss]; exact h.durable

theorem SlotBlank.powerLoss (h : SlotBlank s) : SlotBlank s.simulatePowerLoss := by
  refine ⟨?_, ?_, ?_⟩
  · rw [MemoryStorage.get_simulatePowerLoss, h.root]; rfl
  · rw [MemoryStorage.get_simulatePowerLoss]
    rcases h.first with hg | ⟨live, hg⟩
    · rw [hg]; exact .inl rfl
    · rw [hg]; exact .inr ⟨[], rfl⟩
  · rw [MemoryStorage.get_simulatePowerLoss, h.second]; rfl

theorem SlotSettled.congr (h : SlotSettled s last slot tried) (hroot : s'.get .root = some .dir)
    (hslots : ∀ slot, s'.get (.manifest slot) = s.get (.manifest slot)) : SlotSettled s' last slot tried := by
  refine ⟨hroot, by rw [hslots]; exact h.file, h.writable, (hslots slot).trans h.synced, ?_, ?_⟩
  · rw [image_congr (hslots slot.other)]; exact h.other
  · rw [image_congr (hslots slot.other)]; exact h.durable

theorem SlotBlank.congr (h : SlotBlank s) (hroot : s'.get .root = some .dir)
    (hslots : ∀ slot, s'.get (.manifest slot) = s.get (.manifest slot)) : SlotBlank s' :=
  ⟨hroot, by rw [hslots]; exact h.first, (hslots .b).trans h.second⟩

/-! ### Loading -/

theorem readSlot_run {S : Type} (x : S) (slot : Slot) :
    (ManifestStore.readSlot slot x).run device s = ((.ok (slotBytes (s.image .live) slot), x), s) := by
  unfold ManifestStore.readSlot
  cases hg : s.get (.manifest slot) with
  | none =>
    have hmeta : device.step (.metadata (.manifest slot)) s = (.ok none, s) := by rw [step_metadata, metadata_none hg]
    rw [Proc.run_bind (run_call hmeta)]
    unfold slotBytes
    rw [MemoryStorage.image_none hg]
    rfl
  | some e =>
    cases e with
    | dir =>
      have hmeta : device.step (.metadata (.manifest slot)) s = (.ok (some 0), s) := by
        rw [step_metadata]
        unfold MemoryStorage.metadata
        rw [hg]
      rw [Proc.run_bind (run_call hmeta)]
      unfold slotBytes MemoryStorage.image
      rw [hg]
      rfl
    | file d =>
      have hmeta : device.step (.metadata (.manifest slot)) s = (.ok (some d.live.length), s) := by
        rw [step_metadata, metadata_file hg]
      rw [Proc.run_bind (run_call hmeta)]
      unfold slotBytes
      rw [MemoryStorage.image_file hg, Option.filter_some]
      show _ = ((Except.ok (if decide (d.live ≠ []) = true then some d.live else none), x), s)
      by_cases h0 : d.live.length = 0
      · rw [List.length_eq_zero_iff.mp h0]
        rfl
      · have hne : d.live ≠ [] := fun hnil => h0 (by rw [hnil]; rfl)
        have hopen : device.step (.openFile (.manifest slot) .read) s = (.ok ⟨.manifest slot, false⟩, s) :=
          MemoryStorage.openFile_file .read hg
        have hread : device.step (.readAt ⟨.manifest slot, false⟩ d.live.length 0) s = (.ok d.live, s) := by
          show (MemoryStorage.readAt s ⟨.manifest slot, false⟩ d.live.length 0, s) = _
          unfold MemoryStorage.readAt
          rw [hg]
          simp
        simp only [if_neg h0]
        rw [Proc.run_bind (run_call hopen), Proc.run_bind (run_call hread), if_pos (by simpa using hne)]
        rfl

/-- A load adopts what the scan of the slots chooses. -/
theorem load_run {S : Type} (x : S) :
    (ManifestStore.load x).run device s =
      ((if (slotBytes (s.image .live) .a).isNone && (slotBytes (s.image .live) .b).isNone then .ok none
        else match (Manifest.scanSlots (slotBytes (s.image .live) .a) (slotBytes (s.image .live) .b)).chosen with
          | some (slot, current) => .ok (some ⟨current, slot⟩)
          | none => .error (ManifestStore.noValidManifest .root
              (Manifest.scanSlots (slotBytes (s.image .live) .a) (slotBytes (s.image .live) .b))), x), s) := by
  unfold ManifestStore.load
  rw [Proc.run_bind (readSlot_run x .a), Proc.run_bind (readSlot_run x .b)]
  split
  · rfl
  · dsimp only
    generalize (Manifest.scanSlots (slotBytes (s.image .live) .a) (slotBytes (s.image .live) .b)).chosen = chosen
    cases chosen with
    | none => rfl
    | some p => rfl

theorem load_none {S : Type} (x : S) (h : ∀ slot, s.get (.manifest slot) = none) :
    (ManifestStore.load x).run device s = ((.ok none, x), s) := by
  have hbytes : ∀ slot, slotBytes (s.image .live) slot = none := by
    intro slot
    unfold slotBytes
    rw [MemoryStorage.image_none (h slot)]
    rfl
  rw [load_run x, hbytes, hbytes]
  rfl

theorem load_chosen {S : Type} (x : S) {m : Manifest}
    (hchosen : (Manifest.scanSlots (slotBytes (s.image .live) .a) (slotBytes (s.image .live) .b)).chosen = some (slot, m)) :
    (ManifestStore.load x).run device s = ((.ok (some ⟨m, slot⟩), x), s) := by
  have hsome : ((slotBytes (s.image .live) .a).isNone && (slotBytes (s.image .live) .b).isNone) = false := by
    cases ha : slotBytes (s.image .live) .a with
    | some bs => rfl
    | none =>
      cases hb : slotBytes (s.image .live) .b with
      | some bs => rfl
      | none => rw [ha, hb] at hchosen; cases hchosen
  rw [load_run x, hchosen, hsome]
  rfl

/-- The chosen slot holds the chosen manifest. -/
theorem chosen_valid {a b : Option Bytes} {m : Manifest} (h : (Manifest.scanSlots a b).chosen = some (slot, m)) :
    (slot = .a ∧ SlotStatus.examine a = .valid m) ∨ (slot = .b ∧ SlotStatus.examine b = .valid m) := by
  unfold Manifest.scanSlots at h
  dsimp only at h
  split at h
  · rename_i ma mb ha hb
    split at h
    · obtain ⟨rfl, rfl⟩ := Prod.mk.inj (Option.some.inj h)
      exact .inr ⟨rfl, hb⟩
    · obtain ⟨rfl, rfl⟩ := Prod.mk.inj (Option.some.inj h)
      exact .inl ⟨rfl, ha⟩
  · rename_i ma ha _
    obtain ⟨rfl, rfl⟩ := Prod.mk.inj (Option.some.inj h)
    exact .inl ⟨rfl, ha⟩
  · rename_i mb hb _
    obtain ⟨rfl, rfl⟩ := Prod.mk.inj (Option.some.inj h)
    exact .inr ⟨rfl, hb⟩
  · cases h

theorem SlotBlank.files (h : SlotBlank s) (which : Slot) : s.get (.manifest which) ≠ some .dir := by
  cases which with
  | a =>
    rcases h.first with hg | ⟨live, hg⟩
    · rw [hg]; exact nofun
    · rw [hg]; exact nofun
  | b => rw [h.second]; exact nofun

/-- **A load finds a manifest**: the last one, or one that was tried since. -/
theorem SlotSettled.found (h : SlotSettled s last slot tried) : ∃ store : ManifestStore,
    (ManifestStore.load ()).run device s = ((.ok (some store), ()), s) ∧ store.current ∈ last :: tried := by
  obtain ⟨store, hchosen, hcand, -, -⟩ := h.slotsInv.adopt
  refine ⟨store, load_chosen () hchosen, ?_⟩
  · rcases hcand with heq | hout
    · rw [heq]
      exact List.mem_cons_self
    · -- what outranks the last manifest is one that was tried
      rcases h.other with hstale | ⟨m, hm, hm'⟩
      · exact absurd hout.bytes (hstale.ne_newer hout.writable hout.newer)
      · have hbytes := hout.bytes.symm.trans hm'.bytes
        have hd := Manifest.decode_encode hout.writable []
        have hd' := Manifest.decode_encode hm'.writable []
        rw [List.append_nil] at hd hd'
        rw [Option.some.inj hbytes, hd'] at hd
        rw [← Except.ok.inj hd]
        exact List.mem_cons_of_mem _ hm

/-- **A load of synced slots adopts the last manifest.** -/
theorem SlotSettled.adopts (h : SlotSettled s last slot tried) (hsync : SlotsSynced s) {store : ManifestStore} {t : MemoryStorage}
    (hrun : (ManifestStore.load ()).run device s = ((.ok (some store), ()), t)) : store = ⟨last, slot⟩ ∧ t = s := by
  have hstale : Stale last (s.image .live (.manifest slot.other)) := by
    rcases h.other with hstale | ⟨m, -, hout⟩
    · exact hstale
    · -- an unsynced newer manifest would not be durable
      exfalso
      have hdur := hsync slot.other m (examine_current hout.writable hout.bytes)
      rw [hout.bytes] at hdur
      exact h.durable.ne_newer hout.writable hout.newer hdur
  have hchosen := chosen_of (examine_current h.writable (MemoryStorage.image_file h.synced .live)) (examine_stale hstale)
  rw [load_chosen () hchosen] at hrun
  obtain ⟨hpair, rfl⟩ := Prod.mk.inj hrun
  exact ⟨(Option.some.inj (Except.ok.inj (Prod.mk.inj hpair).1)).symm, rfl⟩

/-- Before a commit took place, a load of synced slots adopts nothing. -/
theorem SlotBlank.adopts (h : SlotBlank s) (hsync : SlotsSynced s) {store : ManifestStore} {t : MemoryStorage}
    (hrun : (ManifestStore.load ()).run device s = ((.ok (some store), ()), t)) : False := by
  rw [load_run ()] at hrun
  obtain ⟨hpair, -⟩ := Prod.mk.inj hrun
  have hres := (Prod.mk.inj hpair).1
  split at hres
  · cases hres
  cases hchosen : (Manifest.scanSlots (slotBytes (s.image .live) .a) (slotBytes (s.image .live) .b)).chosen with
  | none => rw [hchosen] at hres; cases hres
  | some p =>
    obtain ⟨slot, m⟩ := p
    rcases chosen_valid hchosen with ⟨-, hv⟩ | ⟨-, hv⟩
    · have hdur := hsync .a m hv
      rcases h.first with hg | ⟨live, hg⟩
      · unfold slotBytes at hv
        rw [MemoryStorage.image_none hg] at hv
        cases hv
      · rw [MemoryStorage.image_file hg, MemoryStorage.image_file hg] at hdur
        have hnil : live = [] := (Option.some.inj hdur).symm
        unfold slotBytes at hv
        rw [MemoryStorage.image_file hg] at hv
        subst hnil
        cases hv
    · unfold slotBytes at hv
      rw [MemoryStorage.image_none h.second] at hv
      cases hv

end Steps

/-! ## Runs keep the invariant -/

/-- **What every state of a run satisfies**: no commit took place yet, and nothing was adopted; or one did, and the
    process, if it holds a store, holds that one. -/
def SlotInv (x : SlotState) : Prop :=
  (x.last = none ∧ x.store = none ∧ x.adopted = [] ∧ SlotBlank x.storage) ∨
    ∃ m slot, x.last = some m ∧ SlotSettled x.storage m slot x.tried ∧ (∀ store, x.store = some store → store = ⟨m, slot⟩) ∧
      m.sequence.toNat ≤ x.commits ∧ x.adopted.Pairwise (fun m m' => m.sequence ≤ m'.sequence) ∧
      ∀ m' ∈ x.adopted, m'.sequence ≤ m.sequence

theorem SlotInv.found_newest {x : SlotState} (h : SlotInv x) : TwoSlots x := by
  rcases h with ⟨hlast, -, hadopted, -⟩ | ⟨m, slot, hlast, hs, hstore, -, hordered, -⟩
  · refine ⟨fun m hm => ?_, ?_, fun m _ hm => ?_⟩
    · rw [hlast] at hm; cases hm
    · rw [hadopted]; exact List.Pairwise.nil
    · rw [hlast] at hm; cases hm
  · refine ⟨fun m' hm' => ?_, hordered, fun m' store hm' hx _ => ?_⟩
    · obtain rfl := Option.some.inj (hlast.symm.trans hm')
      exact hs.found
    · obtain rfl := Option.some.inj (hlast.symm.trans hm')
      rw [hstore store hx]
      exact MemoryStorage.image_file hs.synced .durable

theorem saturatingSucc_toNat_le (n : UInt64) : (saturatingSucc n).toNat ≤ n.toNat + 1 := by
  unfold saturatingSucc
  split
  · exact Nat.le_succ _
  · rw [UInt64.toNat_add]
    exact Nat.mod_le _ _

theorem commits_after (x : SlotState) (attempt : Manifest) (target : Slot) (ending : Ending) (s : MemoryStorage) :
    (x.after attempt target ending s).commits = x.commits + 1 := by
  unfold SlotState.after
  cases ending with
  | done store => rfl
  | refused store => rfl
  | died => dsimp only; split <;> rfl

/-- The list of adopted manifests with a newer one behind it. -/
theorem ordered_append {adopted : List Manifest} {m attempt : Manifest}
    (hordered : adopted.Pairwise (fun m m' => m.sequence ≤ m'.sequence)) (hle : ∀ m' ∈ adopted, m'.sequence ≤ m.sequence)
    (hnewer : m.sequence ≤ attempt.sequence) :
    (adopted ++ [attempt]).Pairwise (fun m m' => m.sequence ≤ m'.sequence) ∧
      ∀ m' ∈ adopted ++ [attempt], m'.sequence ≤ attempt.sequence := by
  have hbelow : ∀ m' ∈ adopted, m'.sequence ≤ attempt.sequence := fun m' hm' => UInt64.le_trans (hle m' hm') hnewer
  refine ⟨?_, ?_⟩
  · rw [List.pairwise_append]
    refine ⟨hordered, List.pairwise_singleton _ _, ?_⟩
    intro m' hm' m'' hm''
    rw [List.mem_singleton.mp hm'']
    exact hbelow m' hm'
  · intro m' hm'
    rcases List.mem_append.mp hm' with hm' | hm'
    · exact hbelow m' hm'
    · rw [List.mem_singleton.mp hm']
      exact UInt64.le_refl _

/-- **One commit of a manifest that can be written.** -/
theorem SlotInv.commit {x : SlotState} {m attempt : Manifest} {slot : Slot} {s : MemoryStorage} (hlast : x.last = some m)
    (hs : SlotSettled x.storage m slot x.tried) (hstore : x.store = some ⟨m, slot⟩) (hseq : m.sequence.toNat ≤ x.commits)
    (hordered : x.adopted.Pairwise (fun m m' => m.sequence ≤ m'.sequence))
    (hle : ∀ m' ∈ x.adopted, m'.sequence ≤ m.sequence) (hw : attempt.Writable) (hnewer : m.sequence < attempt.sequence)
    (hnext : attempt.sequence.toNat ≤ x.commits + 1) (hoff : MemoryStorage.SameOff (.manifest slot.other) x.storage s)
    {ending : Ending} (hwrote : Wrote x.storage s attempt slot.other x.store ending) :
    SlotInv (x.after attempt slot.other ending s) := by
  have hle' : m.sequence ≤ attempt.sequence := UInt64.le_of_lt hnewer
  obtain ⟨hord, hbelow⟩ := ordered_append hordered hle hle'
  have hbelow' : ∀ m' ∈ x.adopted, m'.sequence ≤ attempt.sequence := fun m' hm' => UInt64.le_trans (hle m' hm') hle'
  cases hwrote with
  | done hget =>
    exact .inr ⟨attempt, slot.other, rfl, hs.landed hw hnewer hoff hget,
      fun store he => (Option.some.inj he).symm, hnext, hord, hbelow⟩
  | diedDone hget =>
    -- the process died behind the sync
    have hdur : s.image .durable (.manifest slot.other) = some (slotOf attempt) := MemoryStorage.image_file hget .durable
    unfold SlotState.after
    simp only [if_pos hdur]
    exact .inr ⟨attempt, slot.other, rfl, hs.landed hw hnewer hoff hget, nofun, hnext,
      hordered, hbelow'⟩
  | cut _ hending hget =>
    have hmissed := hs.missed hw hnewer hoff hget
    rcases hending with rfl | rfl
    · refine .inr ⟨m, slot, hlast, hmissed, fun store he => ?_, Nat.le_succ_of_le hseq, hordered, hle⟩
      exact (Option.some.inj (hstore.symm.trans he)).symm
    · -- what is durable of the slot is what was durable
      have hdur : s.image .durable (.manifest slot.other) ≠ some (slotOf attempt) := hmissed.durable.ne_newer hw hnewer
      unfold SlotState.after
      simp only [if_neg hdur]
      exact .inr ⟨m, slot, hlast, hmissed, nofun, Nat.le_succ_of_le hseq, hordered, hle⟩

/-- **The first manifest.** -/
theorem SlotInv.create {x : SlotState} {attempt : Manifest} {s : MemoryStorage} (hlast : x.last = none)
    (hadopted : x.adopted = []) (hb : SlotBlank x.storage) (hw : attempt.Writable)
    (hnext : attempt.sequence.toNat ≤ x.commits + 1) (hoff : MemoryStorage.SameOff (.manifest .a) x.storage s)
    {ending : Ending} (hwrote : Wrote x.storage s attempt .a none ending) : SlotInv (x.after attempt .a ending s) := by
  cases hwrote with
  | done hget =>
    refine .inr ⟨attempt, .a, rfl, hb.landed hw hoff hget, fun store he => (Option.some.inj he).symm, hnext, ?_, ?_⟩
    · show (x.adopted ++ [attempt]).Pairwise _
      rw [hadopted]
      exact List.pairwise_singleton _ _
    · intro m' hm'
      have hm' : m' ∈ x.adopted ++ [attempt] := hm'
      rw [hadopted] at hm'
      rw [List.mem_singleton.mp hm']
      exact UInt64.le_refl _
  | diedDone hget =>
    have hdur : s.image .durable (.manifest .a) = some (slotOf attempt) := MemoryStorage.image_file hget .durable
    unfold SlotState.after
    simp only [if_pos hdur]
    refine .inr ⟨attempt, .a, rfl, hb.landed hw hoff hget, nofun, hnext, ?_, ?_⟩
    · rw [hadopted]; exact List.Pairwise.nil
    · rw [hadopted]; exact nofun
  | cut _ hending hget =>
    have hmissed : SlotBlank s := by
      rcases hget with hget | ⟨n, hget⟩
      · exact @SlotBlank.missed _ _ hb 0 [] hoff (.inl hget)
      · exact hb.missed hoff (.inr hget)
    rcases hending with rfl | rfl
    · exact .inl ⟨hlast, rfl, hadopted, hmissed⟩
    · have hdur : s.image .durable (.manifest .a) ≠ some (slotOf attempt) := by
        rcases hmissed.first with hg | ⟨live, hg⟩
        · rw [MemoryStorage.image_none hg]; exact nofun
        · rw [MemoryStorage.image_file hg]
          intro he
          exact encodeBlock_ne_nil _ _ (Option.some.inj he).symm
      unfold SlotState.after
      simp only [if_neg hdur]
      exact .inl ⟨hlast, rfl, hadopted, hmissed⟩

/-- The creation of the first manifest is a write of it to the slot A. -/
theorem create_outcome {s s' : MemoryStorage} (hroot : s.get .root = some .dir) (hfile : s.get (.manifest .a) ≠ some .dir)
    {dbUuid : Uuid} {nowMs : UInt64} {fault : Fault DbError} {r : Option (Except DbError ManifestStore × Unit)}
    (hrun : (ManifestStore.create dbUuid nowMs ()).runWith device s fault = (r, s')) :
    MemoryStorage.SameOff (.manifest .a) s s' ∧ Wrote s s' (Manifest.new dbUuid nowMs) .a none (.ofCreate r) := by
  cases hq : (ManifestStore.write (Manifest.new dbUuid nowMs) ⟨Manifest.new dbUuid nowMs, .b⟩).runWith device s fault with
  | mk q t =>
    have hcreate : ManifestStore.create dbUuid nowMs () =
        (ManifestStore.write (Manifest.new dbUuid nowMs) ⟨Manifest.new dbUuid nowMs, .b⟩).bind
          (fun r => .pure (r.1.map (fun _ => r.2), ())) := rfl
    rw [hcreate, Prog.runWith_map, hq] at hrun
    obtain ⟨rfl, rfl⟩ := Prod.mk.inj hrun
    obtain ⟨hoff, hr, hwrote⟩ := @write_outcome s t hroot _ (writable_new dbUuid nowMs)
      ⟨Manifest.new dbUuid nowMs, .b⟩ hfile fault q hq
    refine ⟨hoff, ?_⟩
    rcases hr with rfl | ⟨e, rfl⟩ | rfl
    · cases hwrote with
      | done hget => exact .done hget
      | cut _ hending _ => rcases hending with h | h <;> cases h
    · cases hwrote with
      | cut _ _ hget => exact .cut _ (.inl rfl) hget
    · cases hwrote with
      | diedDone hget => exact .diedDone hget
      | cut _ _ hget => exact .cut _ (.inr rfl) hget

/-- **Every state of a run** in which loads adopt synced slots. -/
theorem SlotRun.inv {x : SlotState} (h : SlotRun SlotsSynced SnapshotsKept x) (hcommits : x.commits < 2 ^ 64) :
    SlotInv x := by
  induction h with
  | start hroot hnone => exact .inl ⟨rfl, rfl, rfl, hroot, .inl (hnone .a), hnone .b⟩
  | @create x r s _ dbUuid nowMs fault hstore hload hrun ih =>
    rw [commits_after] at hcommits
    rcases ih (by omega) with ⟨hlast, -, hadopted, hb⟩ | ⟨m, slot, -, hs, -⟩
    · obtain ⟨hoff, hwrote⟩ := create_outcome hb.root (hb.files .a) hrun
      exact SlotInv.create hlast hadopted hb (writable_new dbUuid nowMs) (Nat.le_add_left 1 _) hoff hwrote
    · -- a load would have found the last manifest
      obtain ⟨store, hfound, -⟩ := hs.found
      rw [hload] at hfound
      cases hfound
  | @commit x store r s _ next nowMs fault hstore hfits hmay hrun ih =>
    rw [commits_after] at hcommits
    rcases ih (by omega) with ⟨-, hnone, -⟩ | ⟨m, slot, hlast, hs, hheld, hseq, hordered, hle⟩
    · rw [hstore] at hnone
      cases hnone
    obtain rfl := hheld store hstore
    have hwrite : (ManifestStore.commit next nowMs ⟨m, slot⟩) =
        ManifestStore.write (ManifestStore.successor ⟨m, slot⟩ next nowMs) ⟨m, slot⟩ := rfl
    rw [hwrite] at hrun
    by_cases hvalid : (ManifestStore.successor ⟨m, slot⟩ next nowMs).validate = .ok ()
    · have hw : (ManifestStore.successor ⟨m, slot⟩ next nowMs).Writable := ⟨hvalid, hfits, hmay⟩
      have hnewer := @successor_newer ⟨m, slot⟩ (show m.sequence.toNat + 1 < 2 ^ 64 by omega) next nowMs
      have hnext : (ManifestStore.successor ⟨m, slot⟩ next nowMs).sequence.toNat ≤ x.commits + 1 :=
        le_trans (saturatingSucc_toNat_le m.sequence) (Nat.succ_le_succ hseq)
      obtain ⟨hoff, -, hwrote⟩ := @write_outcome _ _ hs.root _ hw ⟨m, slot⟩ hs.file _ _ hrun
      rw [← hstore] at hwrote
      exact SlotInv.commit hlast hs hstore hseq hordered hle hw hnewer hnext hoff hwrote
    · -- refused before its first call
      cases hv : (ManifestStore.successor ⟨m, slot⟩ next nowMs).validate with
      | ok u => exact absurd hv hvalid
      | error e =>
        have hencode : formatAt (.manifest slot.other) (ManifestStore.successor ⟨m, slot⟩ next nowMs).encode =
            .error (fromFormatAt (.manifest slot.other) e) := by
          unfold Manifest.encode
          rw [hv]
          rfl
        have hpure : ManifestStore.write (ManifestStore.successor ⟨m, slot⟩ next nowMs) ⟨m, slot⟩ =
            .pure (.error (fromFormatAt (.manifest slot.other) e), ⟨m, slot⟩) := by
          show Proc.bind (Proc.lift (formatAt (.manifest slot.other) _)) _ _ = _
          rw [hencode]
          rfl
        rw [hpure, Prog.runWith_pure] at hrun
        obtain ⟨rfl, rfl⟩ := Prod.mk.inj hrun
        refine .inr ⟨m, slot, hlast, hs.mono _, fun store he => ?_, Nat.le_succ_of_le hseq, hordered, hle⟩
        exact (Option.some.inj he).symm
  | @load x store s _ hsync hrun ih =>
    rcases ih hcommits with ⟨-, -, -, hb⟩ | ⟨m, slot, hlast, hs, -, hseq, hordered, hle⟩
    · exact (hb.adopts hsync hrun).elim
    · obtain ⟨rfl, rfl⟩ := hs.adopts hsync hrun
      obtain ⟨hord, hbelow⟩ := ordered_append hordered hle (UInt64.le_refl m.sequence)
      exact .inr ⟨m, slot, hlast, hs, fun store he => (Option.some.inj he).symm, hseq, hord, hbelow⟩
  | exit _ ih =>
    rcases ih hcommits with ⟨hlast, -, hadopted, hb⟩ | ⟨m, slot, hlast, hs, -, hrest⟩
    · exact .inl ⟨hlast, rfl, hadopted, hb⟩
    · exact .inr ⟨m, slot, hlast, hs, nofun, hrest⟩
  | powerLoss _ ih =>
    rcases ih hcommits with ⟨hlast, -, hadopted, hb⟩ | ⟨m, slot, hlast, hs, -, hrest⟩
    · exact .inl ⟨hlast, rfl, hadopted, hb.powerLoss⟩
    · exact .inr ⟨m, slot, hlast, hs.powerLoss, nofun, hrest⟩
  | elsewhere _ hroot hslots ih =>
    rcases ih hcommits with ⟨hlast, hstore, hadopted, hb⟩ | ⟨m, slot, hlast, hs, hheld, hrest⟩
    · exact .inl ⟨hlast, hstore, hadopted, hb.congr hroot hslots⟩
    · exact .inr ⟨m, slot, hlast, hs.congr hroot hslots, hheld, hrest⟩

/-- **The two-slot protocol**, in every state of a run of fewer than 2^64 commits whose loads adopt synced slots. -/
theorem SlotRun.twoSlots {x : SlotState} (h : SlotRun SlotsSynced SnapshotsKept x) (hcommits : x.commits < 2 ^ 64) :
    TwoSlots x := (h.inv hcommits).found_newest

section Example

def someUuid : Uuid := ⟨List.replicate 16 7, rfl⟩

def firstManifest : Manifest := Manifest.new someUuid 5

def nextManifest : Manifest := ManifestStore.successor ⟨firstManifest, .a⟩ firstManifest 6

def firstStorage : MemoryStorage := ((ManifestStore.create someUuid 5 ()).run device MemoryStorage.new).2

/-- The storage after a commit under a fault. -/
def nextStorage (fault : Fault DbError) : MemoryStorage :=
  ((ManifestStore.commit firstManifest 6 ⟨firstManifest, .a⟩).runWith device firstStorage fault).2

theorem first_run (mayAdopt : MemoryStorage → Prop) (mayWrite : Manifest → Prop) : SlotRun mayAdopt mayWrite
    ⟨firstStorage, some ⟨firstManifest, .a⟩, some firstManifest, [], [firstManifest], 1⟩ := by
  have hnone : ∀ slot, MemoryStorage.new.get (.manifest slot) = none := by intro slot; cases slot <;> decide
  have h := @SlotRun.create mayAdopt mayWrite _ (some (.ok ⟨firstManifest, .a⟩, ())) firstStorage
    (.start (by decide) hnone) someUuid 5 .none rfl (load_none () hnone) rfl
  exact h

/-- The first manifest, a commit, and a load of the two slots. -/
theorem twoSlots_loaded : SlotRun SlotsSynced SnapshotsKept
      ⟨nextStorage .none, some ⟨nextManifest, .b⟩, some nextManifest, [], [firstManifest, nextManifest, nextManifest], 2⟩ ∧
    TwoSlots
      ⟨nextStorage .none, some ⟨nextManifest, .b⟩, some nextManifest, [], [firstManifest, nextManifest, nextManifest], 2⟩ := by
  have h₁ := @SlotRun.commit SlotsSynced SnapshotsKept _ ⟨firstManifest, .a⟩ (some (.ok (), ⟨nextManifest, .b⟩))
    (nextStorage .none) (first_run _ _) firstManifest 6 .none rfl (by decide +kernel) nofun rfl
  have hsynced : SlotsSynced (nextStorage .none) := by intro slot m _; cases slot <;> decide +kernel
  have h₂ := SlotRun.load h₁ hsynced
    (load_chosen () (show _ = some (Slot.b, nextManifest) by decide +kernel))
  exact ⟨h₂, h₂.twoSlots (by decide)⟩

/-- **A load adopts what is not durable**: a commit is cut off before its sync, and after the load the next commit
    would rewrite the slot with the only durable copy of the manifest before. -/
theorem adopted_unsynced : ∃ x, SlotRun (fun _ => True) (fun _ => True) x ∧ x.commits < 2 ^ 64 ∧ ¬ TwoSlots x := by
  have h₁ := @SlotRun.commit (fun _ => True) (fun _ => True) _ ⟨firstManifest, .a⟩ none
    (nextStorage (.die 3 0)) (first_run _ _) firstManifest 6 (.die 3 0) rfl (by decide +kernel) trivial rfl
  have hlost : (nextStorage (.die 3 0)).image .durable (.manifest .b) ≠ some (slotOf nextManifest) := by decide +kernel
  have hstate : SlotState.after ⟨firstStorage, some ⟨firstManifest, .a⟩, some firstManifest, [], [firstManifest], 1⟩
      nextManifest .b .died (nextStorage (.die 3 0)) =
        ⟨nextStorage (.die 3 0), none, some firstManifest, [nextManifest], [firstManifest], 2⟩ := by
    unfold SlotState.after
    simp only [if_neg hlost]
    rfl
  change SlotRun _ _ (SlotState.after _ nextManifest Slot.b .died _) at h₁
  rw [hstate] at h₁
  have h₂ := SlotRun.load h₁ trivial
    (load_chosen () (show _ = some (Slot.b, nextManifest) by decide +kernel))
  refine ⟨_, h₂, by decide, fun htwo => ?_⟩
  have hspared := htwo.spared firstManifest ⟨nextManifest, .b⟩ rfl rfl (by decide +kernel)
  exact absurd hspared (by decide +kernel)

end Example

end IshaVectorDb.Engine
