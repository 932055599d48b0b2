import IshaVectorDb.Correctness.Dropping
import IshaVectorDb.Correctness.SlotRuns

/-!
# `Correctness.Beginnings` — **making a database** where there is none

Before the first manifest is written the storage holds nothing, or the directory of the collections, or an empty slot beside it
(`Unbegun`). An open then finds no manifest and no collection, and makes the first manifest (`Unbegun.creates`).
-/

namespace IshaVectorDb.Engine

open Format Interaction KeyLog

/-! ## The first manifest -/

/-- **The first manifest** stands for a database without collections. -/
theorem DiskInv.new {img : Image} {uuid : Uuid} {now : UInt64}
    (ha : img (.manifest .a) = some (encodeBlock .manifest (Manifest.new uuid now).payload)) (hb : img (.manifest .b) = none) :
    DiskInv img ⟨Manifest.new uuid now, .a⟩ (fun _ => none) := by
  have hstale : Stale (Manifest.new uuid now) (img (.manifest .b)) := .inl hb
  refine ⟨⟨ha, writable_new uuid now, .inl hstale⟩, fun name g hg => (by cases hg), fun m hm => ?_⟩
  obtain rfl : m = Manifest.new uuid now := candidate_of_stale hstale hm
  exact ⟨fun e he => absurd he List.not_mem_nil, fun name hsome => by cases hsome⟩

/-- **Making the first manifest.** -/
theorem create_ends {S : Type} {x : S} {s : MemoryStorage} (hs : Shape s) (hb : s.get (.manifest .b) = none) (uuid : Uuid)
    (now : UInt64) (sel : Sel) : Ends device (ManifestStore.create uuid now) x s (fun r x' t =>
      r = .ok ⟨Manifest.new uuid now, .a⟩ ∧ x' = x ∧ AtRest sel t ⟨Manifest.new uuid now, .a⟩ (fun _ => none) (fun _ => none) ∧
        ∀ name, t.image .live (.walFile name 1) = s.image .live (.walFile name 1)) := by
  have hwrite : Spec sel (ManifestStore.write (Manifest.new uuid now)) ⟨Manifest.new uuid now, .b⟩ s
      (fun _ store t => store = ⟨Manifest.new uuid now, .a⟩ ∧ Shape t ∧ ∀ view, t.image view =
        Function.update (s.image view) (.manifest .a) (some (encodeBlock .manifest (Manifest.new uuid now).payload)))
      (fun _ _ _ => True) (fun _ _ _ => True) :=
    write_spec hs (writable_new uuid now) (fun t ht himg _ => ⟨rfl, ht, himg⟩) (fun _ _ => trivial) (fun _ _ _ _ => trivial)
      (fun _ _ => trivial) (fun _ _ _ _ => trivial)
  obtain ⟨u, store, t, hrun, hstore, ht, himg⟩ := hwrite.runs
  have hnew : ∀ view, DiskInv (t.image view) ⟨Manifest.new uuid now, .a⟩ (fun _ => none) := fun view => by
    refine DiskInv.new (by rw [himg]; exact Function.update_self _ _ _) ?_
    rw [himg, Function.update_of_ne (fun heq => by cases heq)]
    exact MemoryStorage.image_none hb view
  unfold Ends ManifestStore.create
  rw [Prog.run_bind, hrun]
  refine ⟨by rw [hstore]; rfl, rfl, ⟨ht, fun name hsome => (by cases hsome), hnew .live, hnew sel, fun view _ => .inl ?_,
    fun name g hg => by cases hg⟩, fun name => ?_⟩
  · show t.image view (.manifest .b) = none
    rw [himg, Function.update_of_ne (fun heq => by cases heq)]
    exact MemoryStorage.image_none hb view
  · show t.image .live _ = _
    rw [himg, Function.update_of_ne (fun heq => by cases heq)]

/-- A database that may be created is not read-only. -/
theorem Config.writable_of_validate {config : Config} (hvalid : config.validate = .ok ()) (hcreate : config.createIfMissing = true) :
    config.readOnly = false := by
  by_contra hro
  rw [Bool.not_eq_false] at hro
  unfold Config.validate at hvalid
  split at hvalid
  · cases hvalid
  · rw [if_pos ⟨hro, hcreate⟩] at hvalid
    cases hvalid

/-! ## Storage without a manifest -/

/-- **Storage that was not begun**: there is nothing but the directory of the collections and an empty slot. -/
structure Unbegun (s : MemoryStorage) : Prop where
  shape : Shape s
  blank : ∀ p, (s.get p).isSome = true → p = .root ∨ p = .collectionsDir ∨ p = .manifest .a
  empty : ∀ bs, s.image .live (.manifest .a) = some bs → bs = []

theorem Unbegun.new : Unbegun MemoryStorage.new := by
  have hget : ∀ p, (MemoryStorage.new.get p).isSome = true → p = .root := fun p hp => by
    by_contra hne
    rw [show MemoryStorage.new = MemoryStorage.put ⟨∅⟩ .root .dir from rfl, MemoryStorage.get_put_ne _ _ hne] at hp
    cases hp
  refine ⟨Shape.new, fun p hp => .inl (hget p hp), fun bs hbs => ?_⟩
  obtain ⟨d, hd, -⟩ := MemoryStorage.file_of_image hbs
  cases hget (.manifest .a) (by rw [hd]; rfl)

section Begin

variable {S : Type} {x : S} {s : MemoryStorage} {env : Env} {counter : UInt64}

theorem Unbegun.gone (h : Unbegun s) {p : DbPath} (hroot : p ≠ .root) (hdir : p ≠ .collectionsDir) (hslot : p ≠ .manifest .a) :
    s.get p = none := by
  refine Option.not_isSome_iff_eq_none.mp (fun hp => ?_)
  rcases h.blank p hp with hp | hp | hp
  · exact hroot hp
  · exact hdir hp
  · exact hslot hp

theorem Unbegun.no_second (h : Unbegun s) : s.get (.manifest .b) = none :=
  h.gone (fun heq => by cases heq) (fun heq => by cases heq) (fun heq => by cases heq)

/-- Neither slot has a byte. -/
theorem Unbegun.slotBytes (h : Unbegun s) (slot : Slot) : slotBytes (s.image .live) slot = none := by
  unfold Engine.slotBytes
  cases slot with
  | a =>
    cases hbs : s.image .live (.manifest .a) with
    | none => rfl
    | some bs =>
      rw [h.empty bs hbs]
      rfl
  | b =>
    rw [MemoryStorage.image_none h.no_second]
    rfl

/-- **Listing the collections on disk** gives what lies in their directory. -/
theorem listCollectionDirs_says (hs : Shape s) : ∃ dirs, Proc.Says device listCollectionDirs x s dirs ∧
    ∀ p ∈ dirs, (s.get p).isSome = true ∧ p ≠ .root ∧ p.parent = .collectionsDir := by
  cases hd : s.get .collectionsDir with
  | none =>
    have hmeta : Proc.Says device (call (.metadata .collectionsDir)) x s none := run_call (by rw [step_metadata, metadata_none hd])
    exact ⟨[], Proc.Says.bind hmeta (Proc.Says.pure []), nofun⟩
  | some e =>
    cases e with
    | file d => exact absurd (hs.dirs _ d hd) (fun h => Bool.noConfusion h)
    | dir =>
      have hlen : s.metadata .collectionsDir = some 0 := by
        unfold MemoryStorage.metadata
        rw [hd]
      have hmeta : Proc.Says device (call (.metadata .collectionsDir)) x s (some 0) := run_call (by rw [step_metadata, hlen])
      obtain ⟨dirs, hdirs⟩ := MemoryStorage.listDir_ok hd
      have hlist : Proc.Says device (call (.listDir .collectionsDir)) x s dirs := run_call (by
        show (MemoryStorage.listDir s _, s) = _
        rw [hdirs])
      exact ⟨dirs, Proc.Says.bind hmeta hlist, fun p hp => (MemoryStorage.mem_listDir hdirs).mp hp⟩

/-- **No manifest is found.** -/
theorem Unbegun.load (h : Unbegun s) : Proc.Says device ManifestStore.load x s none := by
  unfold Proc.Says
  rw [load_run, h.slotBytes, h.slotBytes]
  rfl

/-- **No collection is found.** -/
theorem Unbegun.lists (h : Unbegun s) : Proc.Says device listCollectionDirs x s [] := by
  obtain ⟨dirs, hsays, hdirs⟩ := listCollectionDirs_says (x := x) h.shape
  obtain rfl : dirs = [] := List.eq_nil_iff_forall_not_mem.mpr (fun p hp => by
    obtain ⟨hthere, hroot, hparent⟩ := hdirs p hp
    rcases h.blank p hthere with rfl | rfl | rfl
    · exact hroot rfl
    · cases hparent
    · cases hparent)
  exact hsays

/-- **The directory of the collections is made.** -/
theorem Unbegun.directory (h : Unbegun s) : ∃ t, device.step (.createDirAll .collectionsDir) s = (.ok (), t) ∧ Unbegun t := by
  obtain ⟨t, hstep, ht⟩ := createDirs_made (l := DbPath.collectionsDir.ancestry) h.shape h.shape.root ⟨rfl, rfl, trivial⟩
  refine ⟨t, hstep, ht.shape, fun p hp => ?_, fun bs hbs => h.empty bs (by rw [← ht.image]; exact hbs)⟩
  by_cases hdir : p ∈ DbPath.collectionsDir.ancestry
  · exact .inr (.inl (List.mem_singleton.mp hdir))
  · rw [ht.other p hdir] at hp
    exact h.blank p hp

/-- **The first manifest is made.** -/
theorem Unbegun.creates (h : Unbegun s) (env : Env) (counter : UInt64) (sel : Sel) (hcreate : env.config.createIfMissing = true) :
    ∃ u, (loadOrCreate env counter ()).run device s = ((.ok ⟨Manifest.new (newUuid env.nowMs counter) env.nowMs, .a⟩, ()), u) ∧
      AtRest sel u ⟨Manifest.new (newUuid env.nowMs counter) env.nowMs, .a⟩ (fun _ => none) (fun _ => none) ∧
      ∀ name, u.image .live (.walFile name 1) = none := by
  obtain ⟨t, hstep, ht⟩ := h.directory
  have hcreated := create_ends (x := ()) ht.shape ht.no_second (newUuid env.nowMs counter) env.nowMs sel
  rcases hrun : (ManifestStore.create (newUuid env.nowMs counter) env.nowMs ()).run device t with ⟨⟨r, x'⟩, u⟩
  obtain ⟨rfl, rfl, hrest, hlogs⟩ := hcreated.of_run hrun
  refine ⟨u, ?_, hrest, fun name => (hlogs name).trans (MemoryStorage.image_none (ht.gone (fun heq => by cases heq)
    (fun heq => by cases heq) (fun heq => by cases heq)) .live)⟩
  unfold loadOrCreate
  rw [Proc.run_bind h.load]
  show (createStore env counter ()).run device s = _
  unfold createStore
  rw [hcreate]
  show ((listCollectionDirs >>= _) ()).run device s = _
  rw [Proc.run_bind h.lists]
  show ((call (.createDirAll .collectionsDir) >>= _) ()).run device s = _
  rw [Proc.run_bind (run_call hstep)]
  exact hrun

/-- An open that may not create the database does not. -/
theorem Unbegun.refuses (h : Unbegun s) (hcreate : env.config.createIfMissing = false) :
    (loadOrCreate env counter ()).run device s = ((.error .databaseNotFound, ()), s) := by
  unfold loadOrCreate
  rw [Proc.run_bind h.load]
  show (createStore env counter ()).run device s = _
  unfold createStore
  rw [hcreate]
  rfl

end Begin

end IshaVectorDb.Engine
