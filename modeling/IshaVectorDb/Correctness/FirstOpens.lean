import IshaVectorDb.Correctness.Deaths

/-!
# `Correctness.FirstOpens` — the **first open**, and the deaths inside it

Before the first manifest is written the storage holds nothing, or the directory of the collections, or an empty slot beside it
(`Unbegun`); once it is written the storage is at rest without collections. A process that dies in between leaves one of these,
and the next open starts afresh, unless the death falls inside the write of the first manifest: then the slot holds a part of it,
no slot is older, and every open fails (`DiesCreating.begins_again`).
-/

namespace IshaVectorDb.Engine

open Format Interaction KeyLog

/-- The death falls inside a write, some bytes of which are there and some are not. -/
def Call.WritesPart : Call → Nat → Prop
  | .writeAt _ bytes _, n => 0 < n ∧ n < bytes.length
  | _, _ => False

theorem Call.IsRead.not_writesPart {c : Call} (h : c.IsRead) (n : Nat) : ¬ c.WritesPart n := by
  cases c <;> first | exact id | exact h.elim

section Write

variable {S : Type} {x : S} {s : MemoryStorage} {path : DbPath} {bytes : Bytes}

/-- **What a death leaves of a file that is written for the first time**: none, an empty one, the whole, or the part that the write
    got to. Nothing else has changed. -/
structure CutWrite (path : DbPath) (bytes : Bytes) (s : MemoryStorage) (c : Call) (n : Nat) (t : MemoryStorage) : Prop where
  shape : Shape t
  same : MemoryStorage.SameOff path s t
  whole : ¬ c.WritesPart n → (∀ bs, t.image .live path = some bs → bs = []) ∨ t.image .live path = some bytes
  part : c.WritesPart n → ∃ k, 0 < k ∧ k < bytes.length ∧ t.image .live path = some (bytes.take k)

theorem writeFile_deaths (hs : Shape s) (hp : path.isDir = false) (hparent : s.get path.parent = some .dir)
    (hempty : ∀ bs, s.image .live path = some bs → bs = []) :
    (writeFile path bytes x).Deaths device (CutWrite path bytes s) s := by
  obtain ⟨t, d, hopen, hd, hcase, hput⟩ := step_create hs hp hparent
  have hshape : ∀ d', Shape (s.put path (.file d')) := fun d' => hs.put_file hp hparent d'
  have hts : Shape t ∧ MemoryStorage.SameOff path s t ∧ d.live = [] := by
    rcases hcase with rfl | ⟨-, rfl, rfl⟩
    · exact ⟨hs, .refl path _, hempty _ (MemoryStorage.image_file hd .live)⟩
    · exact ⟨hshape _, .put s path _, rfl⟩
  have himage : ∀ d' : FileData, (s.put path (.file d')).image .live path = some d'.live := fun d' => by
    rw [MemoryStorage.image_put_file]
    exact Function.update_self _ _ _
  have hold : ∀ {c : Call} {n : Nat} {u : MemoryStorage}, ¬ c.WritesPart n → Shape u → MemoryStorage.SameOff path s u →
      (∀ bs, u.image .live path = some bs → bs = []) → CutWrite path bytes s c n u :=
    fun hc hu hsame hnone => ⟨hu, hsame, fun _ => .inl hnone, fun hpart => absurd hpart hc⟩
  have hdt : ∀ bs, t.image .live path = some bs → bs = [] := fun bs hbs => by
    rw [MemoryStorage.image_file hd .live] at hbs
    exact (Option.some.inj hbs).symm.trans hts.2.2
  unfold writeFile
  -- the file is made
  refine Triple.deaths_bind (F := fun _ _ _ => True) (Triple.call hopen ?_ (fun n => ?_) (fun n => trivial))
  rotate_left
  · have htwo : (MemoryStorage.step (.openFile path .create) s).2 = t := congrArg Prod.snd hopen
    rw [show device.cut (.openFile path .create) n s = if n = 0 then s else (MemoryStorage.step (.openFile path .create) s).2 from rfl,
      htwo]
    split
    · exact hold id hs (.refl path s) hempty
    · exact hold id hts.1 hts.2.1 hdt
  -- it is emptied
  have htrunc := step_truncate hd 0
  rw [MemoryStorage.resize_zero, hput] at htrunc
  refine Triple.deaths_bind (F := fun _ _ _ => True) (Triple.call htrunc ?_ (fun n => ?_) (fun n => trivial))
  rotate_left
  · have htwo : (MemoryStorage.step (.truncate ⟨path, true⟩ 0) t).2 = s.put path (.file ⟨[], d.durable⟩) :=
      congrArg Prod.snd htrunc
    rw [show device.cut (.truncate ⟨path, true⟩ 0) n t =
      if n = 0 then t else (MemoryStorage.step (.truncate ⟨path, true⟩ 0) t).2 from rfl, htwo]
    split
    · exact hold id hts.1 hts.2.1 hdt
    · refine hold id (hshape _) (.put s path _) (fun bs hbs => ?_)
      rw [himage] at hbs
      exact (Option.some.inj hbs).symm
  -- it is written
  have hwrite : ∀ bs : Bytes, device.step (.writeAt ⟨path, true⟩ bs 0) (s.put path (.file ⟨[], d.durable⟩)) =
      (.ok (), s.put path (.file ⟨bs, d.durable⟩)) := fun bs => by
    have h := step_writeAt (MemoryStorage.get_put_self s path (.file ⟨[], d.durable⟩)) bs
    rw [MemoryStorage.overwrite_nil, MemoryStorage.put_put] at h
    exact h
  refine Triple.deaths_bind (F := fun _ _ _ => True) (Triple.call (hwrite bytes) ?_ (fun n => ?_) (fun n => trivial))
  rotate_left
  · rw [show device.cut (.writeAt ⟨path, true⟩ bytes 0) n (s.put path (.file ⟨[], d.durable⟩)) =
      s.put path (.file ⟨bytes.take n, d.durable⟩) from congrArg Prod.snd (hwrite (bytes.take n))]
    refine ⟨hshape _, MemoryStorage.SameOff.put s path _, fun hwhole => ?_, fun hpart => ⟨n, hpart.1, hpart.2, himage _⟩⟩
    rw [himage]
    by_cases hn : n = 0
    · rw [hn]
      exact .inl fun bs hbs => (Option.some.inj hbs).symm
    · rw [List.take_of_length_le (not_lt.mp fun hlt => hwhole ⟨Nat.pos_of_ne_zero hn, hlt⟩)]
      exact .inr rfl
  -- it is synced
  have hsync := step_syncData (MemoryStorage.get_put_self s path (.file ⟨bytes, d.durable⟩))
  rw [MemoryStorage.put_put] at hsync
  refine (Triple.call (Q := fun _ _ _ => True) (F := fun _ _ _ => True) hsync trivial (fun n => ?_) (fun n => trivial)).deaths
  have htwo : (MemoryStorage.step (.syncData ⟨path, true⟩) (s.put path (.file ⟨bytes, d.durable⟩))).2 =
      s.put path (.file ⟨bytes, bytes⟩) := congrArg Prod.snd hsync
  rw [show device.cut (.syncData ⟨path, true⟩) n (s.put path (.file ⟨bytes, d.durable⟩)) =
    if n = 0 then s.put path (.file ⟨bytes, d.durable⟩) else (MemoryStorage.step (.syncData ⟨path, true⟩) _).2 from rfl, htwo]
  split
  · exact ⟨hshape _, MemoryStorage.SameOff.put s path _, fun _ => .inr (himage _), fun hpart => hpart.elim⟩
  · exact ⟨hshape _, MemoryStorage.SameOff.put s path _, fun _ => .inr (himage _), fun hpart => hpart.elim⟩

end Write

/-! ## The next open -/

section Begin

variable {S : Type} {x : S} {s : MemoryStorage} {env : Env} {counter : UInt64} {invNorm : InvNorm}

/-- **Every open that may create the database succeeds**, has these documents, and leaves no segment file that the manifest does
    not name. -/
def Restarts (invNorm : InvNorm) (s : MemoryStorage) (M : Str → Option DocMap) : Prop :=
  ∀ config now counter, config.validate = .ok () → config.createIfMissing = true →
    ∃ db u, (Database.open ⟨config, now, invNorm⟩ counter ()).run device s = ((.ok db, ()), u) ∧ db.Has M ∧ NoOrphans db.store u

/-- **A part of the first manifest** is all that the slots hold. -/
structure Torn (s : MemoryStorage) : Prop where
  shape : Shape s
  other : s.get (.manifest .b) = none
  part : ∃ m : Manifest, m.Writable ∧ ∃ k, 0 < k ∧ k < (encodeBlock .manifest m.payload).length ∧
    s.image .live (.manifest .a) = some ((encodeBlock .manifest m.payload).take k)

/-- **No open succeeds** on such storage. -/
theorem Torn.fails (h : Torn s) {M : Str → Option DocMap} : ¬ Restarts invNorm s M := by
  intro hall
  obtain ⟨m, hm, k, hpos, hk, himage⟩ := h.part
  obtain ⟨e, he⟩ := Manifest.decode_torn hm hk
  have hfirst : slotBytes (s.image .live) .a = some ((encodeBlock .manifest m.payload).take k) := by
    unfold slotBytes
    rw [himage, Option.filter_some, if_pos]
    exact decide_eq_true (List.ne_nil_of_length_pos (by rw [List.length_take]; omega))
  have hsecond : slotBytes (s.image .live) .b = none := by
    unfold slotBytes
    rw [MemoryStorage.image_none h.other]
    rfl
  have hscan : (Manifest.scanSlots (some ((encodeBlock .manifest m.payload).take k)) none).chosen = none := by
    unfold Manifest.scanSlots SlotStatus.examine
    simp only [he]
  have hload : ∃ e', ((ManifestStore.load : Action Unit _) ()).run device s = ((.error e', ()), s) := by
    rw [load_run, hfirst, hsecond, hscan]
    exact ⟨_, rfl⟩
  obtain ⟨e', hload⟩ := hload
  obtain ⟨db, u, hrun, -⟩ := hall ⟨true, false, .full, 1⟩ 0 0 rfl rfl
  have hopen : ((loadOrCreate ⟨⟨true, false, .full, 1⟩, 0, invNorm⟩ 0 >>= fun store => do
      let collections ← openCollections ⟨⟨true, false, .full, 1⟩, 0, invNorm⟩ store.current.collections
      return ⟨store, collections⟩ : Action Unit Database) ()).run device s = ((.ok db, ()), u) := hrun
  have hfail : (loadOrCreate ⟨⟨true, false, .full, 1⟩, 0, invNorm⟩ 0 ()).run device s = ((.error e', ()), s) :=
    Proc.run_bind_error hload
  rw [Proc.run_bind_error hfail] at hopen
  cases hopen

/-! ## The deaths of the first open -/

/-- **What a death inside an open leaves** where nothing was begun: a torn manifest if the death falls inside the write of it;
    otherwise nothing begun, or the first manifest. -/
def FirstDeath (c : Call) (n : Nat) (t : MemoryStorage) : Prop :=
  (c.WritesPart n → Torn t) ∧
    (¬ c.WritesPart n → Unbegun t ∨ ∃ store, AtRest .live t store (fun _ => none) (fun _ => none))

theorem FirstDeath.of_unbegun (h : Unbegun s) {c : Call} {n : Nat} (hc : ¬ c.WritesPart n) : FirstDeath c n s :=
  ⟨fun hpart => absurd hpart hc, fun _ => .inl h⟩

/-- Reads leave what there was. -/
theorem Unbegun.reads (h : Unbegun s) {α : Type} {m : Action S α} (hm : m.Calls Call.IsRead) :
    (m x).Deaths device FirstDeath s := by
  have hsame : (m x).Deaths device (fun c _ t => c.IsRead ∧ t = s) s := by
    refine Prog.Calls.deaths_good (P := (· = s)) (hm x) (fun c u hc hu => ?_) (fun c n u hc hu => ?_) rfl
    · rw [hu, step_read hc]
    · rw [hu, cut_read hc]
  exact hsame.mono (fun c n t ht => ht.2 ▸ .of_unbegun h (ht.1.not_writesPart n))

/-- **Writing the first manifest.** -/
theorem Unbegun.writes (h : Unbegun s) (uuid : Uuid) (now : UInt64) :
    (ManifestStore.create uuid now x).Deaths device FirstDeath s := by
  have hnew := writable_new uuid now
  have hbytes : formatAt (.manifest .a) (Manifest.new uuid now).encode =
      .ok (encodeBlock .manifest (Manifest.new uuid now).payload) := by
    rw [Manifest.encode_eq hnew]
    rfl
  have hwrite : (writeFile (.manifest .a) (encodeBlock .manifest (Manifest.new uuid now).payload)
      (⟨Manifest.new uuid now, .b⟩ : ManifestStore)).Deaths device FirstDeath s := by
    have hcut : (writeFile (.manifest .a) (encodeBlock .manifest (Manifest.new uuid now).payload)
        (⟨Manifest.new uuid now, .b⟩ : ManifestStore)).Deaths device (CutWrite (.manifest .a) _ s) s :=
      writeFile_deaths h.shape rfl h.shape.root h.empty
    refine hcut.mono (fun c n t ht => ⟨fun hpart => ?_, fun hwhole => ?_⟩)
    · obtain ⟨k, hpos, hk, himage⟩ := ht.part hpart
      refine ⟨ht.shape, ?_, _, hnew, k, hpos, hk, himage⟩
      rw [ht.same _ (fun heq => by cases heq)]
      exact h.no_second
    · rcases ht.whole hwhole with hempty | hfull
      · refine .inl ⟨ht.shape, fun p hp => ?_, hempty⟩
        by_cases hslot : p = .manifest .a
        · exact .inr (.inr hslot)
        · rw [ht.same p hslot] at hp
          exact h.blank p hp
      · have hdisk : DiskInv (t.image .live) ⟨Manifest.new uuid now, .a⟩ (fun _ => none) := by
          refine DiskInv.new hfull (MemoryStorage.image_none ?_ .live)
          rw [ht.same _ (fun heq => by cases heq)]
          exact h.no_second
        exact .inr (hdisk.atRest ht.shape (fun name hsome => by cases hsome) rfl)
  have hrewrite : (ManifestStore.write (Manifest.new uuid now) ⟨Manifest.new uuid now, .b⟩).Deaths device FirstDeath s := by
    unfold ManifestStore.write
    refine Triple.deaths_bind (F := fun _ _ _ => True) (Triple.get ?_)
    refine Triple.deaths_bind (F := fun _ _ _ => True) (Triple.lift hbytes ?_)
    obtain ⟨r, t, hrun⟩ : ∃ r t, (writeFile (.manifest .a) (encodeBlock .manifest (Manifest.new uuid now).payload)
      (⟨Manifest.new uuid now, .b⟩ : ManifestStore)).run device s = (r, t) := ⟨_, _, rfl⟩
    show (Prog.bind _ _).Deaths device FirstDeath s
    rw [Prog.deaths_bind]
    refine ⟨hwrite, ?_⟩
    split
    · trivial
    · trivial
  unfold ManifestStore.create
  rw [Prog.deaths_bind]
  exact ⟨hrewrite, trivial⟩

theorem Unbegun.loading (h : Unbegun s) : (loadOrCreate env counter ()).Deaths device FirstDeath s := by
  refine Proc.deaths_bind (h.reads load_calls) h.load ?_
  show (createStore env counter ()).Deaths device FirstDeath s
  unfold createStore
  cases env.config.createIfMissing with
  | false => trivial
  | true =>
    obtain ⟨t, hstep, ht⟩ := h.directory
    refine Proc.deaths_bind (h.reads listCollectionDirs_calls) h.lists ?_
    refine Proc.deaths_bind ⟨fun n => ?_, trivial⟩ (run_call hstep) (ht.writes _ _)
    rw [show device.cut (.createDirAll .collectionsDir) n s = if n = 0 then s else (device.step (.createDirAll .collectionsDir) s).2
      from rfl, hstep]
    split
    · exact .of_unbegun h id
    · exact .of_unbegun ht id

/-- **Every death of an open** where nothing was begun. -/
theorem Unbegun.deaths (h : Unbegun s) : (Database.open env counter ()).Deaths device FirstDeath s := by
  unfold Database.open
  cases env.config.validate with
  | error e => trivial
  | ok u =>
    show ((loadOrCreate env counter >>= _) ()).Deaths device FirstDeath s
    cases hcreate : env.config.createIfMissing with
    | false =>
      refine Triple.deaths_bind_failed (e := .databaseNotFound) h.loading ?_
      rw [h.refuses hcreate]
    | true =>
      obtain ⟨t, hrun, -⟩ := h.creates env counter .live hcreate
      exact Proc.deaths_bind h.loading hrun trivial

end Begin

/-! ## Creations that are cut off -/

section Runs

variable {invNorm : InvNorm} {s t : MemoryStorage} {Ms : (Str → Option DocMap) → Prop} {created : Option Str} {c : Call} {n : Nat}

end Runs

end IshaVectorDb.Engine
