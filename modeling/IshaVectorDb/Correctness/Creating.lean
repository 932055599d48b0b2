import IshaVectorDb.Correctness.Databases

/-!
# `Correctness.Creating` — **creating** a collection

A collection begins with a specification on disk, an entry in the manifest and no log. Wherever the process dies in
between, the database has the collections that it had, or the new one beside them without documents
(`createCollection_spec`).
-/

namespace IshaVectorDb.Engine

open Format Interaction KeyLog

/-! ## A collection without documents -/

/-- The documents of a collection that has none. -/
def noDocs : DocMap := fun _ => none

/-- What a collection is when it has just been made. -/
def Ghost.fresh (cat : Catalog) (good : GoodCatalog cat) : Ghost := ⟨cat, good, fun _ => none, [], noDocs, 1, by decide⟩

section Fresh

variable {cat : Catalog} {good : GoodCatalog cat} {img : Image}

/-- Its entry names no segment. -/
theorem entryInv_fresh : EntryInv (.fresh cat good) (Database.emptyEntry cat.name) := by
  refine ⟨⟨?_, .nil, rfl⟩, ?_⟩
  · intro r hr; cases hr
  · intro r hr; cases hr

/-- **A specification without a log** is a collection without documents. -/
theorem collDisk_fresh (hcatalog : img (.catalog cat.name) = some (encodeBlock .catalog cat.payload))
    (hlog : img (.walFile cat.name 1) = none) : CollDisk img (.fresh cat good) := by
  refine ⟨hcatalog, ?_, Nat.zero_le _, ?_⟩
  · unfold Image.log
    rw [show img (.walFile (Ghost.fresh cat good).name 1) = none from hlog]
    exact LogHolds.nil cat
  · intro id seg _ hseg
    cases hseg

end Fresh

/-! ## A new entry -/

theorem name_not_empty {name : Str} (h : checkCollectionName name = .ok ()) : name.bytes.isEmpty = false := by
  by_contra hne
  rw [Bool.not_eq_false] at hne
  unfold checkCollectionName at h
  simp only [hne, if_true] at h
  cases h

theorem name_length_le {name : Str} (h : checkCollectionName name = .ok ()) : name.bytes.length ≤ 64 := by
  by_contra hlong
  unfold checkCollectionName at h
  simp only [name_not_empty h, if_pos (show Limits.maxCollectionNameLen < name.bytes.length by
    rw [show Limits.maxCollectionNameLen = 64 from rfl]; omega)] at h
  cases h

theorem entryOk_empty {name : Str} (h : checkCollectionName name = .ok ()) : EntryOk (Database.emptyEntry name) := by
  refine ⟨?_, fun hsome => by cases hsome⟩
  unfold Manifest.validateEntry
  have hne : (Database.emptyEntry name).name.bytes.isEmpty = false := name_not_empty h
  rw [hne]
  rfl

/-- **A manifest with one entry more.** -/
theorem withEntry_added {m : Manifest} {entry : CollectionEntry} (hnew : ∀ c ∈ m.collections, c.name ≠ entry.name) :
    Manifest.withEntry m entry = { m with collections := m.collections ++ [entry] } := by
  unfold Manifest.withEntry
  rw [if_neg]
  rw [List.any_eq_true]
  rintro ⟨c, hc, hname⟩
  exact hnew c hc (of_decide_eq_true hname)

/-- The manifest that names one collection more is writable. -/
theorem writable_added {store : ManifestStore} {entry : CollectionEntry} (h : store.current.Writable)
    (hnew : ∀ c ∈ store.current.collections, c.name ≠ entry.name) (hok : EntryOk entry)
    (hroom : manifestWeight store.current + entryWeight entry + 36 < 2 ^ 64) (now : UInt64) :
    (store.successor (Manifest.withEntry store.current entry) now).Writable := by
  obtain ⟨hn, hall, -⟩ := (writable_iff _).mp h
  rw [withEntry_added hnew]
  refine (writable_iff _).mpr ⟨?_, fun c hc => ?_, ?_⟩
  · show ((store.current.collections ++ [entry]).map CollectionEntry.name).Nodup
    rw [List.map_append, List.nodup_append]
    refine ⟨hn, List.nodup_singleton _, fun a ha b hb => ?_⟩
    obtain ⟨c, hc, rfl⟩ := List.mem_map.mp ha
    obtain rfl := List.mem_singleton.mp hb
    exact hnew c hc
  · rcases List.mem_append.mp hc with hc | hc
    · exact hall c hc
    · exact List.mem_singleton.mp hc ▸ hok
  · have hweight : manifestWeight (store.successor { store.current with collections := store.current.collections ++ [entry] } now) =
        manifestWeight store.current + entryWeight entry := by
      unfold manifestWeight
      show 58 + ((store.current.collections ++ [entry]).map entryWeight).sum = _
      rw [List.map_append, List.sum_append, List.map_singleton, List.sum_singleton, Nat.add_assoc]
    have hle := payload_length_le
      (store.successor { store.current with collections := store.current.collections ++ [entry] } now)
    rw [hweight] at hle
    exact lt_of_le_of_lt (Nat.add_le_add_right hle 36) hroom

/-- **A collection without documents is committed.** -/
theorem DiskInv.added {img : Image} {store : ManifestStore} {D : Str → Option Ghost} (h : DiskInv img store D) {cat : Catalog}
    (good : GoodCatalog cat) (hnone : D cat.name = none)
    (hcatalog : img (.catalog cat.name) = some (encodeBlock .catalog cat.payload)) (hlog : img (.walFile cat.name 1) = none)
    {now : UInt64} (hw : (store.successor (Manifest.withEntry store.current (Database.emptyEntry cat.name)) now).Writable)
    (hnewer : store.current.sequence <
      (store.successor (Manifest.withEntry store.current (Database.emptyEntry cat.name)) now).sequence) :
    DiskInv (Function.update img (.manifest store.slot.other) (some (encodeBlock .manifest
        (store.successor (Manifest.withEntry store.current (Database.emptyEntry cat.name)) now).payload)))
      ⟨store.successor (Manifest.withEntry store.current (Database.emptyEntry cat.name)) now, store.slot.other⟩
      (Function.update D cat.name (some (.fresh cat good))) := by
  have hentries := h.entries _ (.inl rfl)
  have hnew : ∀ c ∈ store.current.collections, c.name ≠ (Database.emptyEntry cat.name).name := fun c hc hname => by
    obtain ⟨g, hg, -⟩ := hentries.1 c hc
    rw [hname, show (Database.emptyEntry cat.name).name = cat.name from rfl, hnone] at hg
    cases hg
  have hcol : ∀ e, e ∈ (store.successor (Manifest.withEntry store.current (Database.emptyEntry cat.name)) now).collections ↔
      e ∈ store.current.collections ∨ e = Database.emptyEntry cat.name := fun e => by
    rw [withEntry_added hnew]
    show e ∈ store.current.collections ++ [_] ↔ _
    rw [List.mem_append, List.mem_singleton]
  refine h.commit hw hnewer (fun name g hg => ?_) ⟨fun e he => ?_, fun name hsome => ?_⟩
  · by_cases hn : name = cat.name
    · rw [hn, Function.update_self] at hg
      obtain rfl := Option.some.inj hg
      exact ⟨hn.symm, collDisk_fresh hcatalog hlog⟩
    · rw [Function.update_of_ne hn] at hg
      exact h.named name g hg
  · rcases (hcol e).mp he with he | rfl
    · obtain ⟨g, hg, hi⟩ := hentries.1 e he
      exact ⟨g, (Function.update_of_ne (show e.name ≠ cat.name from hnew e he) _ _).trans hg, hi⟩
    · exact ⟨.fresh cat good, Function.update_self _ _ _, entryInv_fresh⟩
  · by_cases hn : name = cat.name
    · exact ⟨_, (hcol _).mpr (.inr rfl), hn.symm⟩
    · rw [Function.update_of_ne hn] at hsome
      obtain ⟨e, he, hname⟩ := hentries.2 name hsome
      exact ⟨e, (hcol e).mpr (.inl he), hname⟩

/-! ## The creation -/

section Create

variable {env : Env} {sel : Sel} {db : Database} {s : MemoryStorage} {G D : Str → Option Ghost}

/-- A view has the collections that the process has. -/
theorem DbState.unseen (h : DbState env sel db s G D) {name : Str} (hnone : G name = none) : D name = none := by
  cases hd : D name with
  | none => rfl
  | some g =>
    obtain ⟨e, he, rfl⟩ := (h.seen.entries _ (.inl rfl)).2 name (by rw [hd]; rfl)
    obtain ⟨g', hg', -⟩ := (h.live.entries _ (.inl rfl)).1 e he
    rw [hnone] at hg'
    cases hg'

/-- What an open collection is. -/
theorem DbState.collection (h : DbState env sel db s G D) {name : Str} {g : Ghost} (hg : G name = some g) :
    ∃ coll ops docs, db.collections.lookup name = some coll ∧ g.name = name ∧ State env sel ⟨db.store, coll⟩ s G D g ops docs := by
  have hsome := h.all name
  rw [hg] at hsome
  obtain ⟨coll, hlook⟩ := Option.isSome_iff_exists.mp hsome.symm
  obtain ⟨g', ops, docs, rfl, hst⟩ := h.opened name coll hlook
  have hhere := hst.live.here
  rw [hg] at hhere
  obtain rfl := Option.some.inj hhere
  exact ⟨coll, ops, docs, hlook, rfl, hst⟩

/-- **A database between two operations is at rest**, if no newer manifest than its own is on disk. -/
theorem DbState.rests (h : DbState env sel db s G D) (hsteady : Steady sel db.store s) : AtRest sel s db.store G D := by
  refine ⟨h.shape, fun name => h.dirs, h.live, h.seen, hsteady, fun name g hg => ?_⟩
  obtain ⟨coll, ops, docs, -, rfl, hst⟩ := h.collection hg
  exact ⟨ops, docs, hst.seen.there, hst.seen.lag⟩

/-- **A database at rest whose collections are open** is an open database. -/
theorem AtRest.opened {store : ManifestStore} (h : AtRest sel s store G D) {colls : AList (fun _ : Str => CollInner)}
    (hcolls : ∀ name coll, colls.lookup name = some coll → ∃ g ops docs, g.name = name ∧ G name = some g ∧
      D name = some (g.withLog ops docs) ∧ MemInv env.invNorm env.config.durability coll g (s.image .live) ∧
      Names g.pool ops docs (coll.state.segments.map SegmentData.ref))
    (hall : ∀ name, (G name).isSome = (colls.lookup name).isSome) : DbState env sel ⟨store, colls⟩ s G D := by
  refine ⟨h.shape, h.live, h.seen, fun name coll hlook => ?_, hall⟩
  obtain ⟨g, ops, docs, rfl, hG, hD, hmem, hnames⟩ := hcolls name coll hlook
  obtain ⟨ops', docs', hD', hlag⟩ := h.lags _ g hG
  rw [hD] at hD'
  have hops : ops = ops' := congrArg Ghost.ops (Option.some.inj hD')
  exact ⟨g, ops, docs, rfl, h.shape, ⟨h.live, hG, hmem⟩, ⟨h.seen, hD, by rw [hops]; exact hlag, hnames⟩⟩

/-- **Writing a collection's specification** changes its file and makes the directories above it. -/
theorem writeCatalog_spec {S : Type} {x : S} {cat : Catalog} (good : GoodCatalog cat) (hs : Shape s)
    {Q : Unit → S → MemoryStorage → Prop} {K : Call → Nat → Image → Prop}
    (hQ : ∀ t, Shape t → (∀ view, t.image view =
        Function.update (s.image view) (.catalog cat.name) (some (encodeBlock .catalog cat.payload))) →
      (∀ p, p ≠ .catalog cat.name → ∀ e, s.get p = some e → t.get p = some e) → Q () x t)
    (hK : ∀ c n img, Off (· = .catalog cat.name) (s.image sel) img → K c n img) :
    Spec sel (writeCatalog cat) x s Q K (fun _ _ _ => True) := by
  have hbytes : formatAt (.catalog cat.name) cat.encode = .ok (encodeBlock .catalog cat.payload) := by
    rw [Catalog.encode_eq good.writable]; rfl
  refine Triple.bind (Triple.lift (Layout.under_ok good.name _) (Triple.bind (Triple.lift (Layout.under_ok good.name _) ?_)))
  refine Triple.bind (createDirAll_spec (G := fun _ _ _ => True) hs ⟨rfl, rfl, rfl, rfl, trivial⟩ (fun t ht => ?_)
    (fun n => hK _ n _ (Off.refl _ _)) trivial)
  refine Triple.bind (Triple.lift hbytes ?_)
  have hdir : t.get (DbPath.catalog cat.name).parent = some .dir := ht.made _ (List.mem_cons_of_mem _ List.mem_cons_self)
  refine writeFile_off (G := fun _ _ _ => True) ht.shape rfl hdir
    (hQ _ (ht.shape.put_file rfl hdir _) (fun view => ?_) (fun p hp e he => ?_))
    (fun c n img _ hoff => hK c n img (by rw [← ht.image]; exact hoff)) (fun _ _ _ _ => trivial)
  · rw [MemoryStorage.image_put_file, ht.image]
    cases view <;> rfl
  · rw [MemoryStorage.get_put_ne _ _ hp]
    exact ht.kept p e he

/-- **There is room for one collection more**: no counter of the manifest runs out. -/
structure CreateRoom (db : Database) (name : Str) : Prop where
  sequence : db.store.current.sequence.toNat + 1 < 2 ^ 64
  manifest : manifestWeight db.store.current + entryWeight (Database.emptyEntry name) + 36 < 2 ^ 64

/-- What a collection is created as. -/
def Database.CollectionSpec.catalog (spec : Database.CollectionSpec) (now : UInt64) : Catalog :=
  ⟨spec.name, spec.dimension, spec.metric, spec.dtype, spec.idKind, spec.index, now⟩

/-- A specification that passes its checks is one that the engine can rely on. -/
theorem Database.CollectionSpec.good {spec : Database.CollectionSpec} (hvalid : spec.validate = .ok ())
    (hkind : spec.idKind ≠ .str 0) (now : UInt64) : GoodCatalog (spec.catalog now) := by
  obtain ⟨u, hname, hdim⟩ := Parsing.except_bind_eq_ok.mp hvalid
  by_cases hbad : spec.dimension = 0 ∨ maxDimension < spec.dimension
  · rw [if_pos hbad] at hdim; cases hdim
  rw [not_or] at hbad
  refine ⟨hname, ⟨?_, ?_⟩, hbad.1⟩
  · have hne : (spec.catalog now).name.bytes.isEmpty = false := name_not_empty hname
    unfold Catalog.validate
    rw [if_neg (show ¬ (spec.catalog now).dimension = 0 from hbad.1),
      if_neg (show ¬ maxDimension < (spec.catalog now).dimension from hbad.2), hne,
      if_neg (show ¬ (spec.catalog now).idKind = .str 0 from hkind)]
    rfl
  · exact name_length_le hname

/-- A log that the process does not see is not on disk. -/
theorem Shape.no_log (hs : Shape s) {name : Str} (h : s.image .live (.walFile name 1) = none) (view : Sel) :
    s.image view (.walFile name 1) = none := by
  have hsome := (hs.image_isSome (show (DbPath.walFile name 1).isDir = false from rfl) view).trans
    (hs.image_isSome rfl .live).symm
  rw [h] at hsome
  exact Option.not_isSome_iff_eq_none.mp (by rw [hsome]; exact Bool.false_ne_true)

/-- A collection that is not open is not there. -/
theorem DbState.absent (h : DbState env sel db s G D) {name : Str} (hnone : db.collections.lookup name = none) : G name = none := by
  have hsome := h.all name
  rw [hnone] at hsome
  exact Option.not_isSome_iff_eq_none.mp (by rw [hsome]; exact Bool.false_ne_true)

/-- **The specification of a collection that is not there** may change. -/
theorem DiskInv.off_catalog {img img' : Image} {store : ManifestStore} (h : DiskInv img store D) {name : Str}
    (hnone : D name = none) (hoff : Off (· = .catalog name) img img') : DiskInv img' store D := by
  refine h.off hoff (fun other g hg p hp heq => ?_) (fun slot heq => by cases heq)
  have howner := hp.owner
  rw [heq] at howner
  rw [← (h.named other g hg).1, ← Option.some.inj howner, hnone] at hg
  cases hg

section Added

variable {store : ManifestStore} {cat : Catalog} {t : MemoryStorage}

/-- **A specification is written** for a collection that is not there. -/
theorem AtRest.specified (h : AtRest sel s store G D) (hG : G cat.name = none) (hD : D cat.name = none) (hs : Shape t)
    (himg : ∀ view, Off (· = .catalog cat.name) (s.image view) (t.image view))
    (hkept : ∀ p, p ≠ .catalog cat.name → ∀ e, s.get p = some e → t.get p = some e) : AtRest sel t store G D := by
  refine ⟨hs, fun name hsome => hkept _ (fun heq => by cases heq) _ (h.dirs name hsome), h.live.off_catalog hG (himg .live),
    h.seen.off_catalog hD (himg sel), fun view hv => ?_, h.lags⟩
  rw [himg view _ (fun heq => by cases heq)]
  exact h.stale view hv

/-- **The commit of a collection without documents.** -/
theorem AtRest.added (h : AtRest sel s store G D) (good : GoodCatalog cat) (hG : G cat.name = none) (hD : D cat.name = none)
    (hcatalog : ∀ view, s.image view (.catalog cat.name) = some (encodeBlock .catalog cat.payload))
    (hlog : ∀ view, s.image view (.walFile cat.name 1) = none) (hdir : s.get (.walDir cat.name) = some .dir) {now : UInt64}
    {next : Manifest} (hnext : next = store.successor (Manifest.withEntry store.current (Database.emptyEntry cat.name)) now)
    (hw : next.Writable) (hnewer : store.current.sequence < next.sequence) (hs : Shape t)
    (himg : ∀ view, t.image view =
      Function.update (s.image view) (.manifest store.slot.other) (some (encodeBlock .manifest next.payload)))
    (hget : ∀ p, p ≠ .manifest store.slot.other → t.get p = s.get p) :
    AtRest sel t ⟨next, store.slot.other⟩ (Function.update G cat.name (some (.fresh cat good)))
      (Function.update D cat.name (some (.fresh cat good))) := by
  subst hnext
  refine ⟨hs, fun name hsome => ?_, ?_, ?_, ?_, fun name g hg => ?_⟩
  · rw [hget _ (fun heq => by cases heq)]
    by_cases hn : name = cat.name
    · rw [hn]; exact hdir
    · rw [Function.update_of_ne hn] at hsome
      exact h.dirs name hsome
  · rw [himg]; exact h.live.added good hG (hcatalog .live) (hlog .live) hw hnewer
  · rw [himg]; exact h.seen.added good hD (hcatalog sel) (hlog sel) hw hnewer
  · refine Steady.committed h.live.slots h.seen.slots hw hnewer (fun view => ?_)
    rw [himg, Function.update_of_ne]
    exact fun heq => Slot.other_ne store.slot (DbPath.manifest.inj heq).symm
  · by_cases hn : name = cat.name
    · rw [hn, Function.update_self] at hg
      obtain rfl := Option.some.inj hg
      exact ⟨[], noDocs, by rw [hn, Function.update_self]; rfl, List.prefix_rfl⟩
    · rw [Function.update_of_ne hn] at hg ⊢
      exact h.lags name g hg

/-- **One collection more is open.** -/
theorem DbState.joined (h : DbState env sel db s G D) {g : Ghost} {coll : CollInner} {ops : List LogOp} {docs : DocMap}
    (hrest : AtRest sel t store (Function.update G g.name (some g)) (Function.update D g.name (some (g.withLog ops docs))))
    {e : CollectionEntry} (hopened : OpenedColl env coll e g ops docs t)
    (hothers : ∀ name, name ≠ g.name → t.image .live (.walFile name 1) = s.image .live (.walFile name 1)) :
    DbState env sel ⟨store, db.collections.insert g.name coll⟩ t (Function.update G g.name (some g))
      (Function.update D g.name (some (g.withLog ops docs))) := by
  refine hrest.opened (fun name coll' hlook => ?_) (fun name => ?_)
  · by_cases hn : name = g.name
    · rw [hn, AList.lookup_insert] at hlook
      obtain rfl := Option.some.inj hlook
      exact ⟨g, ops, docs, hn.symm, by rw [hn, Function.update_self], by rw [hn, Function.update_self], hopened.mem,
        hopened.names⟩
    · rw [AList.lookup_insert_ne hn] at hlook
      obtain ⟨g', ops', docs', rfl, hst⟩ := h.opened name coll' hlook
      exact ⟨g', ops', docs', rfl, (Function.update_of_ne hn _ _).trans hst.live.here,
        (Function.update_of_ne hn _ _).trans hst.seen.there, hst.live.mem.congr (hothers _ hn), hst.seen.names⟩
  · by_cases hn : name = g.name
    · rw [hn, AList.lookup_insert, Function.update_self]
      rfl
    · rw [AList.lookup_insert_ne hn, Function.update_of_ne hn]
      exact h.all name

end Added

/-- **What a death inside a creation leaves**: the collections before it and no log of the new one, or the new one beside
    them. -/
def CreationDies (img : Image) (old : Str → Option DocMap) (name : Str) : Prop :=
  Recovers img old ∧ img (.walFile name 1) = none ∨ Recovers img (Function.update old name (some noDocs))

/-- **A creation.** Where the process dies inside, the database has the collections that it had, or the new one beside
    them. -/
theorem createCollection_spec (h : DbState env sel db s G D) (hsteady : Steady sel db.store s)
    (hro : env.config.readOnly = false) {spec : Database.CollectionSpec} (hvalid : spec.validate = .ok ())
    (hkind : spec.idKind ≠ .str 0) (hnew : db.collections.lookup spec.name = none)
    (hlog : s.image .live (.walFile spec.name 1) = none) (hroom : CreateRoom db spec.name) :
    Spec sel (Database.createCollection env spec) db s
      (fun _ db' t => ∃ g : Ghost, g.cat = spec.catalog env.nowMs ∧ g.ops = [] ∧ g.docs = noDocs ∧
        DbState env sel db' t (Function.update G spec.name (some g)) (Function.update D spec.name (some g)) ∧
        Steady sel db'.store t ∧
        ∀ name, name ≠ spec.name → t.image .live (.walFile name 1) = s.image .live (.walFile name 1))
      (fun _ _ img => CreationDies img (docsOf D) spec.name) (fun _ _ _ => True) := by
  have good := Database.CollectionSpec.good hvalid hkind env.nowMs
  set cat := spec.catalog env.nowMs with hcat
  set next := db.store.successor (Manifest.withEntry db.store.current (Database.emptyEntry cat.name)) env.nowMs with hnext
  have hG : G cat.name = none := h.absent hnew
  have hD : D cat.name = none := h.unseen hG
  have hentries : ∀ c ∈ db.store.current.collections, c.name ≠ (Database.emptyEntry cat.name).name := fun c hc hname => by
    obtain ⟨g, hg, -⟩ := (h.live.entries _ (.inl rfl)).1 c hc
    rw [hname, show (Database.emptyEntry cat.name).name = cat.name from rfl, hG] at hg
    cases hg
  have hw : next.Writable := writable_added h.live.slots.writable hentries (entryOk_empty good.name) hroom.manifest env.nowMs
  have hnewer : db.store.current.sequence < next.sequence := successor_newer hroom.sequence _ _
  unfold Database.createCollection checkWritable
  rw [hro]
  refine Triple.bind (Triple.pure (Triple.bind (Triple.lift hvalid (Triple.bind (Triple.get ?_)))))
  rw [hnew]
  -- the specification
  refine Triple.bind (writeCatalog_spec (K := fun _ _ img => CreationDies img (docsOf D) cat.name) good h.shape
    (fun t1 hs1 himg1 hkept1 => ?_) (fun c n img ho => .inl ⟨(h.seen.off_catalog hD ho).recovers, ?_⟩))
  rotate_left
  · rw [ho _ (fun heq => by cases heq)]
    exact h.shape.no_log hlog sel
  have hup : ∀ view, Off (· = .catalog cat.name) (s.image view) (t1.image view) := fun view => by
    rw [himg1]
    exact Off.update (P := (· = .catalog cat.name)) _ rfl _
  -- the directory of the log
  refine Triple.bind (Triple.lift (Layout.under_ok good.name _) ?_)
  refine Triple.bind (createDirAll_spec (K := fun _ _ img => CreationDies img (docsOf D) cat.name)
    (G := fun _ _ _ => True) hs1
    (show Descends .root (DbPath.walDir cat.name).ancestry from ⟨rfl, rfl, rfl, rfl, rfl, rfl, trivial⟩)
    (fun t2 ht2 => ?_) (fun n => .inl ⟨(h.seen.off_catalog hD (hup sel)).recovers, ?_⟩) trivial)
  rotate_left
  · rw [hup sel _ (fun heq => by cases heq)]
    exact h.shape.no_log hlog sel
  have hrest2 : AtRest sel t2 db.store G D := (h.rests hsteady).specified hG hD ht2.shape
    (fun view => by rw [ht2.image]; exact hup view) (fun p hp e he => ht2.kept p e (hkept1 p hp e he))
  have hcatalog : ∀ view, t2.image view (.catalog cat.name) = some (encodeBlock .catalog cat.payload) := fun view => by
    rw [ht2.image, himg1]; exact Function.update_self _ _ _
  have hwal : ∀ name view, t2.image view (.walFile name 1) = s.image view (.walFile name 1) := fun name view => by
    rw [ht2.image, hup view _ (fun heq => by cases heq)]
  have hnolog : ∀ view, t2.image view (.walFile cat.name 1) = none := fun view => by
    rw [hwal]; exact h.shape.no_log hlog view
  have hdir : t2.get (.walDir cat.name) = some .dir :=
    ht2.made _ (List.mem_cons_of_mem _ (List.mem_cons_of_mem _ List.mem_cons_self))
  -- the commit
  refine Triple.bind (Triple.zoom (Triple.bind (Triple.get (write_spec
    (K := fun _ _ img => CreationDies img (docsOf D) cat.name) (G := fun _ _ _ => True) ht2.shape hw
    (fun t3 hs3 himg3 hget3 => ?_) (fun c n => .inl ⟨hrest2.seen.recovers, hnolog sel⟩)
    (fun c n v hv => .inl ⟨(hrest2.seen.overwrite hv).recovers, ?_⟩) (fun c n => .inr ?_) (fun _ _ _ _ => trivial)))))
  rotate_left
  · rw [Function.update_of_ne (fun heq => by cases heq)]
    exact hnolog sel
  · have hnewseen := hrest2.seen.added good hD (hcatalog sel) (hnolog sel) hw hnewer
    rw [← show docsOf (Function.update D cat.name (some (.fresh cat good))) = Function.update (docsOf D) cat.name (some noDocs)
      from docsOf_update _ _ _]
    exact hnewseen.recovers
  have hrest3 := hrest2.added good hG hD hcatalog hnolog hdir hnext hw hnewer hs3 himg3 hget3
  -- the opening
  have hself : ∀ A : Str → Option Ghost, Function.update A cat.name (some (.fresh cat good)) (Ghost.fresh cat good).name =
      some (.fresh cat good) := fun A => Function.update_self _ _ _
  have hentry : Database.emptyEntry cat.name ∈ next.collections := by
    rw [hnext, withEntry_added hentries]
    exact List.mem_append_right _ (List.mem_singleton_self _)
  have hthere : Function.update D cat.name (some (.fresh cat good)) (Ghost.fresh cat good).name =
      some ((Ghost.fresh cat good).withLog [] noDocs) := hself D
  refine Triple.bind ((openColl_spec hrest3 hro (hself G) hthere hentry rfl).mono
    ?_ (fun c n t4 hk => ⟨hk.1, .inr ?_⟩) (fun _ _ _ hf => hf))
  rotate_left
  · have hkeep : Recovers (t4.image sel) (docsOf (Function.update D cat.name (some (.fresh cat good)))) := hk.2
    rwa [docsOf_update] at hkeep
  rintro coll x' u ⟨rfl, hrest, hopened, hget⟩
  have hothers : ∀ name, name ≠ cat.name → u.image .live (.walFile name 1) = s.image .live (.walFile name 1) := fun name hn => by
    have himg : u.image .live (.walFile name 1) = t3.image .live (.walFile name 1) := by
      unfold MemoryStorage.image
      rw [hget (.walFile name 1) (fun heq => hn (Option.some.inj heq))]
    rw [himg, himg3, Function.update_of_ne (fun heq => by cases heq), hwal]
  rw [show (Ghost.fresh cat good).name = cat.name from rfl, Function.update_idem, Function.update_idem] at hrest
  exact Triple.modify ⟨(Ghost.fresh cat good).referenced [], rfl, rfl, rfl, h.joined hrest hopened hothers, hrest.stale, hothers⟩

end Create

end IshaVectorDb.Engine
