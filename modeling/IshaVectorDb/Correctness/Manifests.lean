import IshaVectorDb.Correctness.Disk

/-!
# `Correctness.Manifests` — adopting and **committing** manifests

An open adopts the newest of the manifests that the slots hold (`load_spec`). A commit rewrites the slot that is
not authoritative, so that at every moment either the old or the new manifest is the one an open would adopt
(`write_spec`).
-/

namespace IshaVectorDb.Engine

open Format Interaction KeyLog

/-! ## Slots -/

theorem encodeBlock_ne_nil (kind : FileKind) (payload : Bytes) : encodeBlock kind payload ≠ [] := by
  intro h
  have hlen := congrArg List.length h
  rw [encodeBlock_length] at hlen
  simp at hlen

/-- What reading a slot gives: an empty one is absent. -/
def slotBytes (img : Image) (slot : Slot) : Option Bytes := (img (.manifest slot)).filter (fun bs => bs ≠ [])

theorem examine_current {m : Manifest} (h : m.Writable) {img : Image} {slot : Slot}
    (hb : img (.manifest slot) = some (encodeBlock .manifest m.payload)) :
    SlotStatus.examine (slotBytes img slot) = .valid m := by
  have hd := Manifest.decode_encode h []
  rw [List.append_nil] at hd
  unfold slotBytes SlotStatus.examine
  rw [hb, Option.filter_some, if_pos (by simpa using encodeBlock_ne_nil _ _)]
  simp only [hd]

theorem examine_stale {m : Manifest} {img : Image} {slot : Slot} (h : Stale m (img (.manifest slot))) :
    (∀ m', SlotStatus.examine (slotBytes img slot) ≠ .valid m') ∨
      ∃ m', SlotStatus.examine (slotBytes img slot) = .valid m' ∧ m'.sequence < m.sequence := by
  unfold slotBytes
  rcases h with h | h | ⟨bs, e, h, he⟩ | ⟨bs, m', h, hm, hlt⟩
  · rw [h]; exact .inl nofun
  · rw [h]; exact .inl nofun
  · rw [h, Option.filter_some]
    refine .inl (fun m' => ?_)
    split
    · unfold SlotStatus.examine; simp only [he]; exact nofun
    · exact nofun
  · rw [h, Option.filter_some]
    split
    · refine .inr ⟨m', ?_, hlt⟩
      unfold SlotStatus.examine; simp only [hm]
    · exact .inl nofun

/-- **The scan chooses the manifest that outranks the other slot.** -/
theorem chosen_of {img : Image} {slot : Slot} {m : Manifest}
    (hm : SlotStatus.examine (slotBytes img slot) = .valid m)
    (ho : (∀ m', SlotStatus.examine (slotBytes img slot.other) ≠ .valid m') ∨
      ∃ m', SlotStatus.examine (slotBytes img slot.other) = .valid m' ∧ m'.sequence < m.sequence) :
    (Manifest.scanSlots (slotBytes img .a) (slotBytes img .b)).chosen = some (slot, m) := by
  cases slot with
  | a =>
    simp only [Manifest.scanSlots, hm]
    have hob : Slot.a.other = Slot.b := rfl
    rw [hob] at ho
    rcases ho with ho | ⟨m', ho, hlt⟩
    · cases hb : SlotStatus.examine (slotBytes img .b) with
      | missing => rfl
      | invalid e => rfl
      | valid m' => exact absurd hb (ho m')
    · rw [ho]
      have hnot : ¬ m.sequence < m'.sequence := fun h => by
        rw [UInt64.lt_iff_toNat_lt] at h hlt; omega
      simp only [if_neg hnot]
  | b =>
    simp only [Manifest.scanSlots, hm]
    have hoa : Slot.b.other = Slot.a := rfl
    rw [hoa] at ho
    rcases ho with ho | ⟨m', ho, hlt⟩
    · cases hb : SlotStatus.examine (slotBytes img .a) with
      | missing => rfl
      | invalid e => rfl
      | valid m' => exact absurd hb (ho m')
    · rw [ho]
      simp only [if_pos hlt]

/-- The store that an open adopts. -/
theorem SlotsInv.adopt {img : Image} {store : ManifestStore} (h : SlotsInv img store) :
    ∃ store', (Manifest.scanSlots (slotBytes img .a) (slotBytes img .b)).chosen = some (store'.slot, store'.current) ∧
      Candidate img store store'.current ∧ SlotsInv img store' ∧ Stale store'.current (img (.manifest store'.slot.other)) := by
  have hcur := examine_current h.writable h.current
  rcases h.other with hstale | ⟨m', hout⟩
  · exact ⟨store, chosen_of hcur (examine_stale hstale), .inl rfl, h, hstale⟩
  · -- the other slot holds the newer manifest
    have hother := examine_current hout.writable hout.bytes
    have hstale : Stale m' (img (.manifest store.slot.other.other)) := by
      rw [Slot.other_other]
      have hd := Manifest.decode_encode h.writable []
      rw [List.append_nil] at hd
      exact .inr (.inr (.inr ⟨_, _, h.current, hd, hout.newer⟩))
    exact ⟨⟨m', store.slot.other⟩, chosen_of hother (examine_stale hstale), .inr hout,
      ⟨hout.bytes, hout.writable, .inl hstale⟩, hstale⟩

/-- A manifest that is not outranked is the only candidate. -/
theorem candidate_of_stale {img : Image} {store : ManifestStore} (hstale : Stale store.current (img (.manifest store.slot.other)))
    {m : Manifest} (h : Candidate img store m) : m = store.current := by
  rcases h with h | h
  · exact h
  · exfalso
    have hd := Manifest.decode_encode h.writable []
    rw [List.append_nil] at hd
    rcases hstale with hs | hs | ⟨bs, e, hs, he⟩ | ⟨bs, m', hs, hm, hlt⟩
    · rw [h.bytes] at hs; cases hs
    · rw [h.bytes] at hs; exact encodeBlock_ne_nil _ _ (Option.some.inj hs)
    · rw [h.bytes] at hs
      obtain rfl := Option.some.inj hs
      rw [hd] at he; cases he
    · rw [h.bytes] at hs
      obtain rfl := Option.some.inj hs
      rw [hd] at hm
      obtain rfl := Except.ok.inj hm
      have hn := h.newer
      rw [UInt64.lt_iff_toNat_lt] at hn hlt; omega

/-- **The image holds the same database under the manifest that an open adopts.** -/
theorem DiskInv.adopt {img : Image} {store store' : ManifestStore} {G : Str → Option Ghost} (h : DiskInv img store G)
    (hc : Candidate img store store'.current) (hs : SlotsInv img store')
    (hstale : Stale store'.current (img (.manifest store'.slot.other))) : DiskInv img store' G :=
  ⟨hs, h.named, fun m hm => by rw [candidate_of_stale hstale hm]; exact h.entries _ hc⟩

section Load

variable {S : Type} {sel : Sel} {x : S} {s : MemoryStorage}
  {K : Call → Nat → Image → Prop} {G : Call → S → Image → Prop}

theorem readSlot_spec {slot : Slot} {Q : Option Bytes → S → MemoryStorage → Prop} (hs : Shape s)
    (hQ : Q (slotBytes (s.image .live) slot) x s) (hK : ∀ c n, K c n (s.image sel))
    (hG : ∀ c : Call, c.IsRead → G c x (s.image .live)) : Spec sel (ManifestStore.readSlot slot) x s Q K G := by
  refine Triple.bind (read_spec hs trivial (step_metadata _ s) ?_ (hK _) (hG _ trivial))
  rcases hs.file_or_none (show (DbPath.manifest slot).isDir = false from rfl) with ⟨d, hd⟩ | hnone
  · rw [metadata_file hd]
    have hbytes : slotBytes (s.image .live) slot = if d.live.length = 0 then none else some d.live := by
      unfold slotBytes
      rw [MemoryStorage.image_file hd, Option.filter_some]
      show (if decide (d.live ≠ []) = true then some d.live else none) = _
      by_cases h0 : d.live.length = 0
      · rw [if_pos h0, List.length_eq_zero_iff.mp h0]; rfl
      · rw [if_neg h0, if_pos (by simpa using fun h => h0 (by rw [h]; rfl))]
    rw [hbytes] at hQ
    by_cases h0 : d.live.length = 0
    · rw [if_pos h0] at hQ
      simp only [h0, if_true]
      exact Triple.pure hQ
    · rw [if_neg h0] at hQ
      simp only [h0, if_false]
      have hopen : device.step (.openFile (.manifest slot) .read) s = (.ok ⟨.manifest slot, false⟩, s) :=
        MemoryStorage.openFile_file .read hd
      have hread : device.step (.readAt ⟨.manifest slot, false⟩ d.live.length 0) s = (.ok d.live, s) := by
        show (MemoryStorage.readAt s ⟨.manifest slot, false⟩ d.live.length 0, s) = _
        unfold MemoryStorage.readAt
        rw [hd]; simp
      refine Triple.bind (read_spec hs trivial hopen ?_ (hK _) (hG _ trivial))
      refine Triple.bind (read_spec hs trivial hread ?_ (hK _) (hG _ trivial))
      exact Triple.pure hQ
  · rw [metadata_none hnone]
    have hbytes : slotBytes (s.image .live) slot = none := by
      unfold slotBytes; rw [MemoryStorage.image_none hnone]; rfl
    rw [hbytes] at hQ
    exact Triple.pure hQ

/-- **Loading adopts the newest manifest.** -/
theorem load_spec {store : ManifestStore} {Q : Option ManifestStore → S → MemoryStorage → Prop} (hs : Shape s)
    (hslots : SlotsInv (s.image .live) store)
    (hQ : ∀ store', Candidate (s.image .live) store store'.current → SlotsInv (s.image .live) store' →
      Stale store'.current (s.image .live (.manifest store'.slot.other)) → Q (some store') x s)
    (hK : ∀ c n, K c n (s.image sel)) (hG : ∀ c : Call, c.IsRead → G c x (s.image .live)) :
    Spec sel ManifestStore.load x s Q K G := by
  obtain ⟨store', hchosen, hc, hs', hstale⟩ := hslots.adopt
  refine Triple.bind (readSlot_spec hs ?_ hK hG)
  refine Triple.bind (readSlot_spec hs ?_ hK hG)
  have hsome : ((slotBytes (s.image .live) .a).isNone && (slotBytes (s.image .live) .b).isNone) = false := by
    cases ha : slotBytes (s.image .live) .a with
    | some bs => rfl
    | none =>
      cases hb : slotBytes (s.image .live) .b with
      | some bs => rfl
      | none => rw [ha, hb] at hchosen; cases hchosen
  rw [hsome]
  simp only [hchosen, Bool.false_eq_true, if_false]
  exact Triple.pure (hQ store' hc hs' hstale)

end Load

/-! ## Writable manifests -/

theorem varint_length_le (v : UInt64) : (Writer.varint v).length ≤ 10 := Varint.encodeU64_length_le v

/-- An upper bound on an entry's encoding. -/
def entryWeight (c : CollectionEntry) : Nat := c.name.bytes.length + 24 * c.segments.length + 64

/-- An upper bound on a manifest's encoding. -/
def manifestWeight (m : Manifest) : Nat := 58 + (m.collections.map entryWeight).sum

theorem flatMap_length_le {α : Type} {f : α → Bytes} {w : α → Nat} {l : List α} (h : ∀ a ∈ l, (f a).length ≤ w a) :
    (l.flatMap f).length ≤ (l.map w).sum := by
  induction l with
  | nil => simp
  | cons a l ih =>
    have h1 := h a List.mem_cons_self
    have h2 := ih (fun b hb => h b (List.mem_cons_of_mem _ hb))
    rw [List.flatMap_cons, List.length_append, List.map_cons, List.sum_cons]
    omega

theorem entryBytes_length_le (c : CollectionEntry) : (Manifest.entryBytes c).length ≤ entryWeight c := by
  have hrefs : (c.segments.flatMap Manifest.refBytes).length ≤ 24 * c.segments.length := by
    refine le_trans (flatMap_length_le (w := fun _ => 24) (fun r _ => ?_)) ?_
    · have h1 := varint_length_le r.id
      have h2 := varint_length_le r.delGeneration.toUInt64
      simp only [Manifest.refBytes, List.length_append, Writer.u32_length]
      omega
    · simp [Nat.mul_comm]
  have h1 := varint_length_le (UInt64.ofNat c.name.bytes.length)
  have h2 := varint_length_le (UInt64.ofNat c.segments.length)
  have h3 := varint_length_le (Manifest.snapshotCode c.indexSnapshot)
  have h4 := varint_length_le c.lastAppliedWal
  have h5 := varint_length_le c.liveCount
  have h6 := varint_length_le c.totalRows
  have hname : (Writer.string c.name).length = (Writer.varint (UInt64.ofNat c.name.bytes.length)).length +
      c.name.bytes.length := Writer.blob_length _
  simp only [Manifest.entryBytes, List.length_append, hname, Writer.reserved_length, entryWeight]
  omega

theorem payload_length_le (m : Manifest) : m.payload.length ≤ manifestWeight m := by
  have h1 := varint_length_le (UInt64.ofNat m.collections.length)
  have h2 : (m.collections.flatMap Manifest.entryBytes).length ≤ (m.collections.map entryWeight).sum :=
    flatMap_length_le (fun c _ => entryBytes_length_le c)
  have h3 := m.dbUuid.size
  simp only [Manifest.payload, List.length_append, Writer.u64_length, Writer.reserved_length, h3, manifestWeight]
  omega

/-- What a manifest requires of each entry. -/
structure EntryOk (c : CollectionEntry) : Prop where
  valid : Manifest.validateEntry c = .ok ()
  snapshot : c.indexSnapshot ≠ some 0xFFFFFFFFFFFFFFFF

theorem validateEntries_ok {cs : List CollectionEntry} :
    Manifest.validateEntries cs = .ok () ↔ ∀ c ∈ cs, Manifest.validateEntry c = .ok () := by
  induction cs with
  | nil => exact ⟨fun _ c hc => absurd hc List.not_mem_nil, fun _ => rfl⟩
  | cons c cs ih =>
    unfold Manifest.validateEntries
    rw [List.forall_mem_cons, ← ih]
    cases hc : Manifest.validateEntry c with
    | ok u => exact ⟨fun h => ⟨rfl, h⟩, fun h => h.2⟩
    | error e =>
      constructor
      · intro h; cases h
      · rintro ⟨h, -⟩; cases h

theorem writable_iff (m : Manifest) : m.Writable ↔
    (m.collections.map CollectionEntry.name).Nodup ∧ (∀ c ∈ m.collections, EntryOk c) ∧ m.payload.length + 36 < 2 ^ 64 := by
  constructor
  · intro h
    have hv := h.valid
    unfold Manifest.validate at hv
    by_cases hn : (m.collections.map CollectionEntry.name).Nodup
    · rw [if_neg (not_not.mpr hn), validateEntries_ok] at hv
      exact ⟨hn, fun c hc => ⟨hv c hc, h.snapshots c hc⟩, h.fits⟩
    · rw [if_pos hn] at hv; cases hv
  · rintro ⟨hn, hall, hfit⟩
    refine ⟨?_, hfit, fun c hc => (hall c hc).snapshot⟩
    unfold Manifest.validate
    rw [if_neg (not_not.mpr hn), validateEntries_ok]
    exact fun c hc => (hall c hc).valid

/-- The first manifest of a database. -/
theorem writable_new (uuid : Uuid) (now : UInt64) : (Manifest.new uuid now).Writable := by
  refine ⟨rfl, ?_, fun c hc => absurd hc List.not_mem_nil⟩
  have hle := payload_length_le (Manifest.new uuid now)
  have hweight : manifestWeight (Manifest.new uuid now) = 58 := rfl
  omega

/-! ## Replacing an entry -/

theorem map_replaceFirst (entry : CollectionEntry) (l : List CollectionEntry) :
    (Manifest.withEntry.replaceFirst entry l).map CollectionEntry.name = l.map CollectionEntry.name := by
  induction l with
  | nil => rfl
  | cons c l ih =>
    unfold Manifest.withEntry.replaceFirst
    split
    · rename_i h; simp [h]
    · simp [ih]

theorem mem_replaceFirst {entry e : CollectionEntry} {l : List CollectionEntry}
    (hn : (l.map CollectionEntry.name).Nodup) (hex : ∃ c ∈ l, c.name = entry.name) :
    e ∈ Manifest.withEntry.replaceFirst entry l ↔ e = entry ∨ (e ∈ l ∧ e.name ≠ entry.name) := by
  induction l with
  | nil => obtain ⟨c, hc, -⟩ := hex; cases hc
  | cons c l ih =>
    rw [List.map_cons, List.nodup_cons] at hn
    unfold Manifest.withEntry.replaceFirst
    by_cases hc : c.name = entry.name
    · rw [if_pos hc, List.mem_cons, List.mem_cons]
      constructor
      · rintro (rfl | he)
        · exact .inl rfl
        · exact .inr ⟨.inr he, fun h => hn.1 (by rw [hc, ← h]; exact List.mem_map_of_mem he)⟩
      · rintro (rfl | ⟨rfl | he, hne⟩)
        · exact .inl rfl
        · exact absurd hc hne
        · exact .inr he
    · have hex' : ∃ c ∈ l, c.name = entry.name := by
        obtain ⟨c', hc', hn'⟩ := hex
        rcases List.mem_cons.mp hc' with rfl | hc'
        · exact absurd hn' hc
        · exact ⟨c', hc', hn'⟩
      rw [if_neg hc, List.mem_cons, List.mem_cons, ih hn.2 hex']
      constructor
      · rintro (rfl | rfl | ⟨he, hne⟩)
        · exact .inr ⟨.inl rfl, hc⟩
        · exact .inl rfl
        · exact .inr ⟨.inr he, hne⟩
      · rintro (rfl | ⟨rfl | he, hne⟩)
        · exact .inr (.inl rfl)
        · exact .inl rfl
        · exact .inr (.inr ⟨he, hne⟩)

theorem replaceFirst_weight (entry : CollectionEntry) (l : List CollectionEntry) :
    ((Manifest.withEntry.replaceFirst entry l).map entryWeight).sum ≤ (l.map entryWeight).sum + entryWeight entry := by
  induction l with
  | nil => simp [Manifest.withEntry.replaceFirst]
  | cons c l ih =>
    unfold Manifest.withEntry.replaceFirst
    split
    · simp only [List.map_cons, List.sum_cons]; omega
    · simp only [List.map_cons, List.sum_cons]; omega

/-- **A manifest with one entry replaced.** -/
theorem withEntry_replaced {m : Manifest} {entry : CollectionEntry} (hn : (m.collections.map CollectionEntry.name).Nodup)
    (hex : ∃ c ∈ m.collections, c.name = entry.name) :
    ((Manifest.withEntry m entry).collections.map CollectionEntry.name = m.collections.map CollectionEntry.name) ∧
      (∀ e, e ∈ (Manifest.withEntry m entry).collections ↔ e = entry ∨ (e ∈ m.collections ∧ e.name ≠ entry.name)) ∧
      manifestWeight (Manifest.withEntry m entry) ≤ manifestWeight m + entryWeight entry := by
  have hany : m.collections.any (fun c => c.name = entry.name) = true := by
    rw [List.any_eq_true]
    obtain ⟨c, hc, hname⟩ := hex
    exact ⟨c, hc, decide_eq_true hname⟩
  have heq : Manifest.withEntry m entry = { m with collections := Manifest.withEntry.replaceFirst entry m.collections } := by
    unfold Manifest.withEntry; rw [if_pos hany]
  rw [heq]
  refine ⟨map_replaceFirst entry _, fun e => mem_replaceFirst hn hex, ?_⟩
  have h := replaceFirst_weight entry m.collections
  unfold manifestWeight
  show 58 + ((Manifest.withEntry.replaceFirst entry m.collections).map entryWeight).sum ≤ _
  omega

/-- **The manifest that a commit writes is writable.** -/
theorem writable_successor {store : ManifestStore} {entry : CollectionEntry} (h : store.current.Writable)
    (hex : ∃ c ∈ store.current.collections, c.name = entry.name) (hok : EntryOk entry)
    (hroom : manifestWeight store.current + entryWeight entry + 36 < 2 ^ 64) (now : UInt64) :
    (store.successor (Manifest.withEntry store.current entry) now).Writable := by
  obtain ⟨hn, hall, -⟩ := (writable_iff _).mp h
  obtain ⟨hnames, hmem, hweight⟩ := withEntry_replaced hn hex
  have hcol : (store.successor (Manifest.withEntry store.current entry) now).collections =
      (Manifest.withEntry store.current entry).collections := rfl
  refine (writable_iff _).mpr ⟨by rw [hcol, hnames]; exact hn, fun c hc => ?_, ?_⟩
  · rw [hcol, hmem] at hc
    rcases hc with rfl | ⟨hc, -⟩
    · exact hok
    · exact hall c hc
  · have hle := payload_length_le (store.successor (Manifest.withEntry store.current entry) now)
    have hw : manifestWeight (store.successor (Manifest.withEntry store.current entry) now) =
        manifestWeight (Manifest.withEntry store.current entry) := rfl
    omega

theorem successor_newer {store : ManifestStore} (h : store.current.sequence.toNat + 1 < 2 ^ 64) (next : Manifest)
    (now : UInt64) : store.current.sequence < (store.successor next now).sequence := by
  have hne : store.current.sequence ≠ 0xFFFFFFFFFFFFFFFF := fun he => by rw [he] at h; exact absurd h (by decide)
  show store.current.sequence < saturatingSucc store.current.sequence
  unfold saturatingSucc
  rw [if_neg hne, UInt64.lt_iff_toNat_lt, UInt64.toNat_add]
  show _ < (store.current.sequence.toNat + 1) % 2 ^ 64
  rw [Nat.mod_eq_of_lt h]; omega

/-! ## Committing -/

/-- **While the other slot is being rewritten** only the manifest in memory is a candidate. -/
theorem DiskInv.overwrite {img : Image} {store : ManifestStore} {G : Str → Option Ghost} (h : DiskInv img store G)
    {v : Option Bytes} (hv : Stale store.current v) :
    DiskInv (Function.update img (.manifest store.slot.other) v) store G := by
  have hother : Function.update img (.manifest store.slot.other) v (.manifest store.slot.other) = v :=
    Function.update_self _ _ _
  have hsame : ∀ p, p ≠ .manifest store.slot.other → Function.update img (.manifest store.slot.other) v p = img p :=
    fun p hp => Function.update_of_ne hp v img
  have hslot : (.manifest store.slot : DbPath) ≠ .manifest store.slot.other :=
    fun he => Slot.other_ne store.slot (DbPath.manifest.inj he).symm
  refine ⟨⟨by rw [hsame _ hslot]; exact h.slots.current, h.slots.writable, .inl (by rw [hother]; exact hv)⟩,
    fun name g hg => ?_, fun m hm => ?_⟩
  · obtain ⟨hn, hd⟩ := h.named name g hg
    refine ⟨hn, hd.congr (fun p hp => hsame p (fun he => ?_))⟩
    have ho := hp.owner
    rw [he] at ho; cases ho
  · rw [candidate_of_stale (by rw [hother]; exact hv) hm]
    exact h.entries _ (.inl rfl)

/-- The slots after the other one was rewritten. -/
theorem SlotsInv.pending {img : Image} {store : ManifestStore} (h : SlotsInv img store) {next : Manifest}
    (hnext : next.Writable) (hnewer : store.current.sequence < next.sequence) :
    Outranks next store.current (some (encodeBlock .manifest next.payload)) ∧
      SlotsInv (Function.update img (.manifest store.slot.other) (some (encodeBlock .manifest next.payload))) store ∧
      SlotsInv (Function.update img (.manifest store.slot.other) (some (encodeBlock .manifest next.payload)))
        ⟨next, store.slot.other⟩ ∧
      Stale next (img (.manifest store.slot)) := by
  have hslot : (.manifest store.slot : DbPath) ≠ .manifest store.slot.other :=
    fun he => Slot.other_ne store.slot (DbPath.manifest.inj he).symm
  have hout : Outranks next store.current (some (encodeBlock .manifest next.payload)) := ⟨rfl, hnext, hnewer⟩
  have hstale : Stale next (img (.manifest store.slot)) := by
    have hd := Manifest.decode_encode h.writable []
    rw [List.append_nil] at hd
    exact .inr (.inr (.inr ⟨_, _, h.current, hd, hnewer⟩))
  refine ⟨hout, ⟨by rw [Function.update_of_ne hslot]; exact h.current, h.writable,
      .inr ⟨next, by rw [Function.update_self]; exact hout⟩⟩,
    ⟨Function.update_self _ _ _, hnext, .inl ?_⟩, hstale⟩
  rw [Slot.other_other, Function.update_of_ne hslot]; exact hstale

/-- **After the commit** the new manifest is the only candidate. -/
theorem DiskInv.commit {img : Image} {store : ManifestStore} {G G' : Str → Option Ghost} (h : DiskInv img store G)
    {next : Manifest} (hnext : next.Writable) (hnewer : store.current.sequence < next.sequence)
    (hnamed : ∀ name g, G' name = some g → g.name = name ∧ CollDisk img g)
    (hentries : (∀ e ∈ next.collections, ∃ g, G' e.name = some g ∧ EntryInv g e) ∧
      ∀ name, (G' name).isSome → ∃ e ∈ next.collections, e.name = name) :
    DiskInv (Function.update img (.manifest store.slot.other) (some (encodeBlock .manifest next.payload)))
      ⟨next, store.slot.other⟩ G' := by
  obtain ⟨-, -, hslots, hstale⟩ := h.slots.pending hnext hnewer
  have hslot : (.manifest store.slot : DbPath) ≠ .manifest store.slot.other :=
    fun he => Slot.other_ne store.slot (DbPath.manifest.inj he).symm
  refine ⟨hslots, fun name g hg => ?_, fun m hm => ?_⟩
  · obtain ⟨hn, hd⟩ := hnamed name g hg
    refine ⟨hn, hd.congr (fun p hp => Function.update_of_ne (fun he => ?_) _ _)⟩
    have ho := hp.owner
    rw [he] at ho; cases ho
  · rw [candidate_of_stale ?_ hm]
    · exact hentries
    · show Stale next (Function.update img _ _ (.manifest store.slot.other.other))
      rw [Slot.other_other, Function.update_of_ne hslot]; exact hstale

/-- **A commit that was reported as failed** may have reached the disk all the same: then both manifests are
    candidates. -/
theorem DiskInv.pending {img : Image} {store : ManifestStore} {G : Str → Option Ghost} (h : DiskInv img store G)
    {next : Manifest} (hnext : next.Writable) (hnewer : store.current.sequence < next.sequence)
    (hentries : (∀ e ∈ next.collections, ∃ g, G e.name = some g ∧ EntryInv g e) ∧
      ∀ name, (G name).isSome → ∃ e ∈ next.collections, e.name = name) :
    DiskInv (Function.update img (.manifest store.slot.other) (some (encodeBlock .manifest next.payload))) store G := by
  obtain ⟨-, hslots, -, -⟩ := h.slots.pending hnext hnewer
  refine ⟨hslots, fun name g hg => ?_, fun m hm => ?_⟩
  · obtain ⟨hn, hd⟩ := h.named name g hg
    refine ⟨hn, hd.congr (fun p hp => Function.update_of_ne (fun he => ?_) _ _)⟩
    have ho := hp.owner
    rw [he] at ho; cases ho
  · rcases hm with hm | hm
    · rw [hm]; exact h.entries _ (.inl rfl)
    · -- the newer manifest in the slot is the one just written
      have hb := hm.bytes
      rw [Function.update_self] at hb
      have hd := Manifest.decode_encode hm.writable []
      rw [List.append_nil, ← Option.some.inj hb] at hd
      have hd' := Manifest.decode_encode hnext []
      rw [List.append_nil, hd] at hd'
      rw [Except.ok.inj hd']
      exact hentries

/-- **A commit**: while the other slot is being rewritten the manifest in memory is the only candidate, and once
    it is rewritten the new one outranks it. -/
theorem write_spec {store : ManifestStore} {sel : Sel} {s : MemoryStorage} {next : Manifest} (hs : Shape s)
    (hnext : next.Writable) {Q : Unit → ManifestStore → MemoryStorage → Prop} {K : Call → Nat → Image → Prop}
    {G : Call → ManifestStore → Image → Prop}
    (hQ : ∀ t, Shape t → (∀ sel, t.image sel = Function.update (s.image sel) (.manifest store.slot.other)
        (some (encodeBlock .manifest next.payload))) → (∀ p, p ≠ .manifest store.slot.other → t.get p = s.get p) →
      Q () ⟨next, store.slot.other⟩ t)
    (hold : ∀ c n, K c n (s.image sel))
    (hstale : ∀ c n v, Stale store.current v →
      K c n (Function.update (s.image sel) (.manifest store.slot.other) v))
    (hdone : ∀ c n, K c n (Function.update (s.image sel) (.manifest store.slot.other)
      (some (encodeBlock .manifest next.payload))))
    (hG : ∀ c img, c.path = .manifest store.slot.other → (img = s.image .live ∨
        (∃ v, Stale store.current v ∧ img = Function.update (s.image .live) (.manifest store.slot.other) v) ∨
        img = Function.update (s.image .live) (.manifest store.slot.other)
          (some (encodeBlock .manifest next.payload))) → G c store img) :
    Spec sel (ManifestStore.write next) store s Q K G := by
  have hbytes : formatAt (.manifest store.slot.other) next.encode = .ok (encodeBlock .manifest next.payload) := by
    rw [Manifest.encode_eq hnext]; rfl
  have htake : ∀ k, (encodeBlock .manifest next.payload).take k = encodeBlock .manifest next.payload ∨
      Stale store.current (some ((encodeBlock .manifest next.payload).take k)) := fun k => by
    by_cases hk : k < (encodeBlock .manifest next.payload).length
    · obtain ⟨e, he⟩ := Manifest.decode_torn hnext hk
      exact .inr (.inr (.inr (.inl ⟨_, e, rfl, he⟩)))
    · exact .inl (List.take_of_length_le (by omega))
  have hempty : Stale store.current (some []) := .inr (.inl rfl)
  unfold ManifestStore.write
  refine Triple.bind (Triple.get ?_)
  refine Triple.bind (Triple.lift hbytes ?_)
  refine Triple.bind (writeFile_spec hs rfl hs.root ?_ (fun c n _ => hold c n) (fun _ c n _ => hstale c n _ hempty)
    (fun _ c n k _ _ => ?_) (fun c n _ => hdone c n) (fun c hc => ?_) (fun _ => ?_) (fun k => ?_) ?_)
  · refine Triple.modify (hQ _ (hs.put_file (show (DbPath.manifest store.slot.other).isDir = false from rfl) hs.root _)
      (fun sel' => ?_) (fun p hp => MemoryStorage.get_put_ne s _ hp))
    rw [MemoryStorage.image_put_file]
    cases sel' <;> rfl
  · rcases htake k with h | h
    · rw [h]; exact hdone c n
    · exact hstale c n _ h
  · refine hG c _ ?_ (.inl rfl)
    rcases hc with rfl | rfl <;> rfl
  · exact hG _ _ rfl (.inr (.inl ⟨_, hempty, rfl⟩))
  · rcases htake k with h | h
    · rw [h]; exact hG _ _ rfl (.inr (.inr rfl))
    · exact hG _ _ rfl (.inr (.inl ⟨_, h, rfl⟩))
  · exact hG _ _ rfl (.inr (.inr rfl))

end IshaVectorDb.Engine
