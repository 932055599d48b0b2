import IshaVectorDb.Correctness.Refinement
import IshaVectorDb.Correctness.Sections

/-!
# `Correctness.Listing` — the manifest **lists the segments** in memory

The manifest's entry of an open collection names the segments that the collection holds, in their order and with their numbers
of rows (`Session.Listed`). An operation that succeeds restores this, whatever its calls answered; one that is refused before its
first call leaves it; and so it holds after every run (`Run.lists`). A flush that fails half way breaks it, until another
flush commits.
-/

namespace IshaVectorDb.Engine

open Format Interaction

/-- What a manifest tells of a segment. -/
def SegmentData.key (seg : SegmentData) : UInt64 × UInt32 := (seg.id, seg.rows)

def refKey (r : SegmentRef) : UInt64 × UInt32 := (r.id, r.rows)

/-- **The manifest lists the collection's segments.** -/
def Session.Listed (name : Str) (sess : Session) : Prop :=
  sess.name = name ∧ ∃ e, sess.store.current.collection name = some e ∧ e.segments.map refKey = sess.segments.map SegmentData.key

/-- The collection is listed by this manifest, under these segments. -/
def Session.Keyed (name : Str) (store : ManifestStore) (keys : List (UInt64 × UInt32)) (sess : Session) : Prop :=
  sess.name = name ∧ sess.store = store ∧ sess.segments.map SegmentData.key = keys

section Sessions

variable {name : Str} {store : ManifestStore} {keys : List (UInt64 × UInt32)} {sess sess' : Session} (env : Env)

theorem Session.Listed.of_keyed (h : sess.Listed name) (hsame : sess'.Keyed name sess.store (sess.segments.map SegmentData.key)) :
    sess'.Listed name := by
  obtain ⟨-, e, he, hkeys⟩ := h
  obtain ⟨hname, hstore, hsegs⟩ := hsame
  exact ⟨hname, e, by rw [hstore]; exact he, by rw [hsegs]; exact hkeys⟩

theorem Session.Listed.keyed (h : sess.Listed name) : sess.Keyed name sess.store (sess.segments.map SegmentData.key) :=
  ⟨h.1, rfl, rfl⟩

/-! ## Segments -/

/-- An opened segment has the id and the rows that it was looked for under. -/
theorem assemble_key {catalog : Catalog} {ref : SegmentRef} {vec metaPayload : Bytes} {directory : Directory}
    {tombstones : Tombstones} {seg : SegmentData}
    (h : SegmentData.assemble catalog ref vec metaPayload directory tombstones = .ok seg) : seg.key = refKey ref := by
  unfold SegmentData.assemble at h
  split at h
  · cases h
  · rename_i hcounts
    rw [not_or, not_not, not_not] at hcounts
    obtain ⟨table, htable, hseg⟩ := Parsing.except_bind_eq_ok.mp h
    obtain rfl := Except.ok.inj hseg
    obtain ⟨hentries, -⟩ := SegmentData.readRows_lengths _ htable
    rw [List.length_range] at hentries
    have hrows : table.entries.length = ref.rows.toNat := by
      rw [hentries, ← hcounts.1]
      exact Nat.zero_add _
    show (ref.id, UInt32.ofNat table.entries.length) = (ref.id, ref.rows)
    rw [hrows, UInt32.ofNat_toNat]

theorem open_key {S : Type} {P : S → Prop} (catalog : Catalog) (ref : SegmentRef) :
    Keeps P (SegmentData.open catalog ref) (fun seg => seg.key = refKey ref) :=
  .next (require_keeps _ _ _) fun _ => .next (require_keeps _ _ _) fun _ => .next (require_keeps _ _ _) fun _ =>
    .next (lift_keeps _) fun _ => .next (require_keeps _ _ _) fun _ => .next (lift_keeps _) fun _ =>
    .next (lift_keeps _) fun _ => .lift fun _ h => assemble_key h

theorem killIds_key (seg : SegmentData) (ids : List DocId) : (seg.killIds ids).2.key = seg.key := by
  induction ids generalizing seg with
  | nil => rfl
  | cons id ids ih =>
    unfold SegmentData.killIds
    cases seg.rowOf id with
    | none => exact ih seg
    | some row => exact ih (seg.kill row).2

/-- Superseding tells its segment by the key that it had. -/
theorem supersede_key (collection : Str) (ids : List DocId) (k : UInt64 × UInt32) :
    Keeps (fun seg : SegmentData => seg.key = k) (SegmentData.supersede collection ids) (fun ref => refKey ref = k) := by
  have href : Keeps (fun seg : SegmentData => seg.key = k) (do let seg ← Proc.get; return seg.ref : Action SegmentData SegmentRef)
      (fun ref => refKey ref = k) := .bind .get fun seg hseg => .pure hseg
  refine .next Keeps.get.any fun seg => .next (.modify fun seg h => (killIds_key seg ids).trans h) fun _ => ?_
  refine .ite (fun _ => .next ?_ fun _ => href) fun _ => href
  refine .next (.modify fun seg h => h) fun _ => .next Keeps.get.any fun _ => ?_
  exact .next (writeSegmentFile_keeps _ _ _ _) fun _ => .pure trivial

/-! ## Flushing -/

/-- The entry that was put into a manifest is found in it. -/
theorem entry_withEntry_self {m : Manifest} {e : CollectionEntry} (hname : e.name = name) :
    (Manifest.withEntry m e).collection name = some e := by
  have hfound : ∀ l : List CollectionEntry, l.any (fun c => c.name = e.name) = true →
      (Manifest.withEntry.replaceFirst e l).find? (fun c => c.name = name) = some e := fun l => by
    induction l with
    | nil => exact fun h => by cases h
    | cons c l ih =>
      intro hany
      unfold Manifest.withEntry.replaceFirst
      by_cases hc : c.name = e.name
      · rw [if_pos hc, List.find?_cons_of_pos (by simpa using hname)]
      · rw [if_neg hc, List.find?_cons_of_neg (by simpa [← hname] using hc)]
        refine ih ?_
        simpa [hc] using hany
  unfold Manifest.withEntry Manifest.collection
  split
  · rename_i hany
    exact hfound _ hany
  · rename_i hnone
    show (m.collections ++ [e]).find? _ = _
    rw [List.find?_append, List.find?_eq_none.mpr, Option.none_or, List.find?_cons_of_pos (by simpa using hname)]
    intro c hc hcname
    refine hnone (List.any_eq_true.mpr ⟨c, hc, ?_⟩)
    rw [hname]
    exact hcname

/-- A commit leaves the collections that it is given. -/
theorem commit_lands (next : Manifest) (nowMs : UInt64) :
    Lands (ManifestStore.commit next nowMs) store (fun _ store' => store'.current.collections = next.collections) :=
  Lands.get_bind (Lands.get_bind (Lands.lift_bind fun _ _ => Lands.past (writeFile_keeps _ _) fun _ _ => Lands.modify rfl))

/-- **A commit** lists what it is given. -/
theorem commitCollection_lands {refs : List SegmentRef} (hname : sess.name = name)
    (hrefs : refs.map refKey = sess.segments.map SegmentData.key) :
    Lands (commitCollection env (entryFor sess refs)) sess (fun _ sess' => sess'.Listed name) := by
  refine Lands.get_bind (Lands.zoom ((commit_lands _ _).mono fun _ store' hstore => ⟨hname, entryFor sess refs, ?_, hrefs⟩))
  have hentry : (Manifest.withEntry sess.store.current (entryFor sess refs)).collection name = some (entryFor sess refs) :=
    entry_withEntry_self hname
  unfold Manifest.collection at hentry ⊢
  rw [← hentry, ← hstore]
  rfl

/-- The segment that was written is taken into the list, or its files are removed. -/
theorem adoptSegment_lands {segment : SegmentRef} {refs : List SegmentRef} (hname : sess.name = name)
    (hrefs : refs.map refKey = sess.segments.map SegmentData.key) :
    Lands (adoptSegment segment refs) sess (fun refs' sess' => sess'.name = name ∧
      refs'.map refKey = sess'.segments.map SegmentData.key) := by
  refine Lands.get_bind (Lands.ite (fun _ => Lands.past (open_key _ _) fun opened hkey => ?_) fun _ =>
    Lands.past (removeSegment_keeps _ _) fun _ _ => Lands.pure ⟨hname, hrefs⟩)
  refine Lands.bind (Lands.modify (Lands.pure ⟨hname, ?_⟩))
  show (refs ++ [segment]).map refKey = (sess.segments ++ [opened]).map SegmentData.key
  rw [List.map_append, List.map_append, hrefs, List.map_singleton, List.map_singleton, hkey]

theorem checkpoint_listed (segmentId : UInt64) : Keeps (Session.Listed name) (checkpoint env segmentId) (fun _ => True) :=
  .next Keeps.get.any fun _ => .next (lift_keeps _) fun _ => .next (.call _) fun _ => .next (.call _) fun _ =>
    .next (.call _) fun _ => .next (.modify fun _ h => h) fun _ => .next (walOpen_keeps _ _ _) fun _ => .modify fun _ h => h

/-- **A flush that succeeds** leaves the segments listed. -/
theorem doFlush_lands (h : sess.Listed name) : Lands (doFlush env) sess (fun _ sess' => sess'.Listed name) := by
  refine Lands.get_bind (Lands.ite (fun _ => Lands.pure h) fun _ => Lands.past (flushMemtable_keeps _ _ _) fun result _ => ?_)
  -- the older segments keep their keys
  refine Lands.bind (Lands.zoom ((Lands.of_keeps (Keeps.iterMut_map (supersede_key sess.name _) _) rfl).mono
    fun refs segments hrefs => Lands.bind ?_))
  have hlisted : refs.map refKey = (sess.withSegments segments).segments.map SegmentData.key := hrefs.2.trans hrefs.1.symm
  refine (@adoptSegment_lands name (sess.withSegments segments) _ _ h.1 hlisted).mono fun refs' sess2 hadopted => ?_
  refine Lands.get_bind (Lands.bind ?_)
  refine (commitCollection_lands env hadopted.1 hadopted.2).mono fun _ sess3 hcommitted => ?_
  exact (Lands.of_keeps (checkpoint_listed env _) hcommitted).mono fun _ _ hdone => hdone.1

theorem maybeFlush_lands (h : sess.Listed name) : Lands (maybeFlush env) sess (fun _ sess' => sess'.Listed name) :=
  Lands.get_bind (Lands.ite (fun _ => doFlush_lands env h) fun _ => Lands.pure h)

theorem flush_lands (h : sess.Listed name) : Lands (flush env) sess (fun _ sess' => sess'.Listed name) :=
  Lands.ite (fun _ => Lands.pure h) fun _ => doFlush_lands env h

/-! ## Compacting -/

theorem openRewritten_key {S : Type} {P : S → Prop} (catalog : Catalog) (segment : SegmentRef) :
    Keeps P (openRewritten catalog segment) (fun segs => segs.map SegmentData.key =
      (if 0 < segment.rows then [segment] else []).map refKey) := by
  unfold openRewritten
  by_cases hrows : 0 < segment.rows
  · rw [if_pos hrows, if_pos hrows]
    exact .bind (open_key _ _) fun opened hkey => .pure (congrArg (fun k => [k]) hkey)
  · rw [if_neg hrows, if_neg hrows]
    exact .next (removeSegment_keeps _ _) fun _ => .pure rfl

/-- Sorted by their ids, segments and references keep to each other. -/
theorem sorted_keys (segs : List SegmentData) (refs : List SegmentRef) (h : refs.map refKey = segs.map SegmentData.key) :
    (refs.insertionSort (fun a b => a.id.toNat ≤ b.id.toNat)).map refKey =
      (segs.insertionSort (fun a b => a.id.toNat ≤ b.id.toNat)).map SegmentData.key := by
  have hrefs := List.map_insertionSort (fun a b : SegmentRef => a.id.toNat ≤ b.id.toNat)
    (fun k l : UInt64 × UInt32 => k.1.toNat ≤ l.1.toNat) refKey refs (fun _ _ _ _ => Iff.rfl)
  have hsegs := List.map_insertionSort (fun a b : SegmentData => a.id.toNat ≤ b.id.toNat)
    (fun k l : UInt64 × UInt32 => k.1.toNat ≤ l.1.toNat) SegmentData.key segs (fun _ _ _ _ => Iff.rfl)
  rw [hrefs, hsegs, h]

/-- **A compaction that succeeds** leaves the segments listed. -/
theorem compact_lands (options : CompactOptions) (h : sess.Listed name) :
    Lands (compact env options) sess (fun _ sess' => sess'.Listed name) := by
  refine Lands.past (checkWritable_keeps env _) fun _ _ => Lands.get_bind (Lands.ite (fun _ => Lands.pure h) fun _ => ?_)
  refine Lands.past (compactSegments_keeps _ _ _) fun result _ => Lands.bind (Lands.modify ?_)
  refine Lands.past (openRewritten_key _ _) fun rewritten hkeys => Lands.bind (Lands.modify ?_)
  have hlisted := sorted_keys (sess.segments.filter (fun seg => ¬ options.chooses seg) ++ rewritten)
    ((sess.segments.filter (fun seg => ¬ options.chooses seg)).map SegmentData.ref ++
      (if 0 < result.segment.rows then [result.segment] else [])) (by
    rw [List.map_append, List.map_append, hkeys, List.map_map]
    rfl)
  -- the session whose list of segments is the new one
  generalize hnow : Session.withState (sess.withSegments []) _ = now
  have hname : now.name = name := by rw [← hnow]; exact h.1
  have hsegs : now.segments = (sess.segments.filter (fun seg => ¬ options.chooses seg) ++ rewritten).insertionSort
      (fun a b => a.id.toNat ≤ b.id.toNat) := by rw [← hnow]; rfl
  rw [← hsegs] at hlisted
  refine Lands.get_bind (Lands.bind ((commitCollection_lands env hname hlisted).mono fun _ sess' hcommitted => Lands.bind ?_))
  exact (Lands.of_keeps (.forList _ fun _ _ => removeSegment_keeps _ _) hcommitted).mono fun _ _ hdone => Lands.pure hdone.1

/-! ## Edits -/

theorem onWal_keyed {α : Type} (m : Action WalWriter α) : Keeps (Session.Keyed name store keys) (onWal m) (fun _ => True) :=
  .zoom_apart fun _ _ h => h

theorem applyPut_keyed (doc : DocumentInput) : Keeps (Session.Keyed name store keys) (applyPut env doc) (fun _ => True) :=
  .next (lift_keeps _) fun _ => .next (onWal_keyed _) fun _ => .next Keeps.get.any fun _ => .next (lift_keeps _) fun _ =>
    .modify fun _ h => h

/-- A write, and the flush that it may cause. -/
theorem write_lands {α β : Type} {m : Action Session α} {f : α → Action Session β}
    (hm : ∀ name store keys, Keeps (Session.Keyed name store keys) m (fun _ => True)) (h : sess.Listed name)
    (hf : ∀ a sess', sess'.Listed name → Lands (f a) sess' (fun _ sess'' => sess''.Listed name)) :
    Lands (m >>= f) sess (fun _ sess' => sess'.Listed name) :=
  Lands.bind ((Lands.of_keeps (hm _ _ _) h.keyed).mono fun a sess' hkept => hf a sess' (h.of_keyed hkept.1))

/-- What a caller is told. -/
theorem answer_lands {α : Type} {m : Action Session α} (answer : α → EditAnswer)
    (h : Lands m sess (fun _ sess' => sess'.Listed name)) :
    Lands (do return answer (← m)) sess (fun _ sess' => sess'.Listed name) :=
  Lands.bind (h.mono fun _ _ hlisted => Lands.pure hlisted)

/-- **An edit that succeeds** leaves the segments listed. -/
theorem Edit.act_lands (e : Edit) (h : sess.Listed name) : Lands (e.act env) sess (fun _ sess' => sess'.Listed name) := by
  cases e with
  | insert doc =>
    refine answer_lands (fun _ => .done) (Lands.past (checkWritable_keeps env _) fun _ _ => Lands.get_bind (Lands.lift_bind fun _ _ => ?_))
    exact Lands.ite (fun _ => Lands.throw) fun _ => write_lands (fun _ _ _ => applyPut_keyed env doc) h fun _ _ hl => maybeFlush_lands env hl
  | upsert doc =>
    refine answer_lands .upserted (Lands.past (checkWritable_keeps env _) fun _ _ => Lands.get_bind (Lands.lift_bind fun _ _ => ?_))
    refine write_lands (fun _ _ _ => applyPut_keyed env doc) h fun _ _ hl => Lands.bind ((maybeFlush_lands env hl).mono ?_)
    exact fun _ _ hlisted => Lands.pure hlisted
  | delete id =>
    refine answer_lands .deleted (Lands.past (checkWritable_keeps env _) fun _ _ => Lands.get_bind ?_)
    refine write_lands (fun _ _ _ => onWal_keyed _) h fun _ sess1 hl => Lands.bind (Lands.modify (Lands.bind ?_))
    have hnow : (sess1.withMemtable (sess1.memtable.delete id)).Listed name := hl
    exact (maybeFlush_lands env hnow).mono fun _ _ hlisted => Lands.pure hlisted
  | writeBatch batch =>
    refine answer_lands .written (Lands.past (checkWritable_keeps env _) fun _ _ => Lands.lift_bind fun _ _ => ?_)
    refine Lands.ite (fun _ => Lands.pure h) fun _ => Lands.get_bind (Lands.lift_bind fun _ _ => Lands.lift_bind fun walOps _ => ?_)
    refine write_lands (fun _ _ _ => onWal_keyed _) h fun txn sess1 hl => Lands.bind (Lands.modify (Lands.lift_bind fun memtable _ => ?_))
    refine Lands.bind (Lands.modify (Lands.bind ?_))
    have hnow : ((sess1.withState (fun c => { c with nextTxnHint := saturatingSucc txn })).withMemtable memtable).Listed name := hl
    exact (maybeFlush_lands env hnow).mono fun _ _ hlisted => Lands.pure hlisted
  | flush => exact answer_lands (fun _ => .done) (flush_lands env h)
  | compact options => exact answer_lands .compacted (compact_lands env options h)

/-! ## Refusals -/

theorem append_speaks (op : WalOp) : Speaks (WalWriter.append op) :=
  Speaks.second fun _ => Speaks.second fun _ => Speaks.first (Speaks.second fun _ => Speaks.first (Speaks.call _))

theorem appendGroup_speaks (ops : List WalOp) : Speaks (WalWriter.appendGroup ops) :=
  Speaks.second fun _ => Speaks.second fun _ => Speaks.second fun _ =>
    Speaks.first (Speaks.second fun _ => Speaks.first (Speaks.call _))

theorem applyPut_speaks (doc : DocumentInput) : Speaks (applyPut env doc) :=
  Speaks.second fun _ => Speaks.first (Speaks.zoom (append_speaks _))

/-- **A write that is refused before its first call** leaves the segments and the manifest alone. -/
theorem Edit.act_calm (e : Edit) (hwrite : e ≠ .flush) (hcompact : ∀ options, e ≠ .compact options) :
    Calm (Session.Keyed name store keys) (e.act env) := by
  have hcheck : ∀ operation, Calm (Session.Keyed name store keys) (checkWritable env operation : Action Session Unit) :=
    fun operation => .of_keeps (checkWritable_keeps env operation)
  have hlift : ∀ {α : Type} (v : Except DbError α), Calm (Session.Keyed name store keys) (Proc.lift v : Action Session α) :=
    fun v => .of_keeps (lift_keeps v)
  have hget : Calm (Session.Keyed name store keys) (Proc.get : Action Session Session) := .of_keeps Keeps.get
  have hpure : ∀ {α : Type} (a : α), Calm (Session.Keyed name store keys) (return a : Action Session α) :=
    fun a => .of_keeps (Keeps.pure (G := fun _ => True) trivial)
  cases e with
  | insert doc =>
    refine .bind (.bind (hcheck _) fun _ => .bind hget fun _ => .bind (hlift _) fun _ => .ite ?_ ?_) fun _ => hpure _
    · exact .of_keeps (Keeps.throw (G := fun _ => True) _)
    · exact .before (.of_keeps (applyPut_keyed env doc)) (applyPut_speaks env doc)
  | upsert doc =>
    refine .bind (.bind (hcheck _) fun _ => .bind hget fun _ => .bind (hlift _) fun _ => ?_) fun _ => hpure _
    exact .before (.of_keeps (applyPut_keyed env doc)) (applyPut_speaks env doc)
  | delete id =>
    refine .bind (.bind (hcheck _) fun _ => .bind hget fun _ => ?_) fun _ => hpure _
    exact .before (.of_keeps (onWal_keyed _)) (Speaks.zoom (append_speaks _))
  | writeBatch batch =>
    refine .bind (.bind (hcheck _) fun _ => .bind (hlift _) fun _ => .ite (hpure _) ?_) fun _ => hpure _
    refine .bind hget fun _ => .bind (hlift _) fun _ => .bind (hlift _) fun walOps => ?_
    exact .before (.of_keeps (onWal_keyed _)) (Speaks.zoom (appendGroup_speaks walOps))
  | flush => exact absurd rfl hwrite
  | compact options => exact absurd rfl (hcompact options)

end Sessions

/-! ## Opening -/

/-- An opened collection has the segments that its entry names. -/
theorem collOpen_key {S : Type} {P : S → Prop} (env : Env) (catalog : Catalog) (entry : CollectionEntry) :
    Keeps P (CollInner.open env catalog entry) (fun coll => coll.catalog = catalog ∧
      coll.state.segments.map SegmentData.key = entry.segments.map refKey) := by
  refine .next (cleanUp_keeps_memory env _ _) fun _ => .bind (.mapList_map entry.segments (open_key catalog)) fun segments hkeys => ?_
  refine .next (lift_keeps _) fun path => .next (replayInto_keeps _ _ _ (Memtable.solid_new _)).any fun replayed => ?_
  exact .next (repairTail_keeps env path _) fun _ => .next (walOpen_keeps _ _ _) fun _ => .pure ⟨rfl, hkeys⟩

/-- Each of the collections has the segments that the first entry under its name lists. -/
def Opens (entries : List CollectionEntry) (colls : AList (fun _ : Str => CollInner)) : Prop :=
  ∀ name coll, colls.lookup name = some coll → ∃ e, entries.find? (fun c => c.name = name) = some e ∧
    e.segments.map refKey = coll.state.segments.map SegmentData.key

theorem openCollections_opens {S : Type} (env : Env) (entries : List CollectionEntry) :
    Keeps (fun _ : S => True) (openCollections env entries) (Opens entries) := by
  induction entries with
  | nil => exact .pure fun name coll hlook => by cases hlook
  | cons entry rest ih =>
    refine .next Database.unasked fun catalog => .bind (collOpen_key env catalog entry) fun coll hcoll => ?_
    refine .bind ih fun others hothers => .pure fun name found hlook => ?_
    by_cases hname : name = entry.name
    · subst hname
      rw [AList.lookup_insert] at hlook
      obtain rfl := Option.some.inj hlook
      exact ⟨entry, List.find?_cons_of_pos (by simp), hcoll.2.symm⟩
    · rw [AList.lookup_insert_ne hname] at hlook
      obtain ⟨e, he, hkeys⟩ := hothers name found hlook
      exact ⟨e, by rw [List.find?_cons_of_neg (by simpa using Ne.symm hname)]; exact he, hkeys⟩

/-! ## Databases -/

/-- **The manifest lists** the segments of every open collection. -/
def Database.Lists (db : Database) : Prop := ∀ name sess, db.session name = some sess → sess.Listed name

section Databases

variable {sel : Sel} {invNorm : InvNorm} {p : Site} {G : Str → Option Ghost} {now : UInt64}

/-- **One collection changes**, and is listed again. -/
theorem Database.Lists.take {db : Database} {name : Str} {sess' : Session} (h : db.Lists) (hlisted : sess'.Listed name)
    (hothers : Elsewhere name db.store.current sess'.store) : (db.take name sess').Lists := by
  intro other sess hsess
  obtain ⟨coll, hlook, rfl⟩ := Option.map_eq_some_iff.mp hsess
  have hlook : (db.collections.insert name sess'.coll).lookup other = some coll := hlook
  by_cases hname : other = name
  · subst hname
    rw [AList.lookup_insert] at hlook
    obtain rfl := Option.some.inj hlook
    exact hlisted
  · rw [AList.lookup_insert_ne hname] at hlook
    have hold : db.session other = some ⟨db.store, coll⟩ := by
      unfold Database.session
      rw [hlook]
      rfl
    obtain ⟨hcoll, e, he, hkeys⟩ := h other _ hold
    exact ⟨hcoll, e, (hothers other hname).trans he, hkeys⟩

/-- **An operation on one collection** that leaves it listed, and the other entries alone. -/
theorem Database.Lists.onCollection {α : Type} {m : Action Session α} {db : Database} {name : Str} {sess : Session}
    {s : MemoryStorage} (h : db.Lists) (hsess : db.session name = some sess)
    (hlisted : Ends device m sess s (fun _ sess' _ => sess'.Listed name))
    (hothers : Keeps (Session.Elsewhere name db.store.current) m (fun _ => True)) :
    Ends device (Database.onCollection name m) db s (fun _ db' _ => db'.Lists) := by
  refine onCollection_ends hsess (hlisted.with_run.mono fun r sess' t hr => h.take hr.1 ?_)
  have hname := (h name sess hsess).1
  obtain ⟨coll, -, rfl⟩ := Option.map_eq_some_iff.mp hsess
  have hkept := hothers.run device (x := ⟨db.store, coll⟩) ⟨hname, fun _ _ => rfl⟩ s
  rw [hr.2] at hkept
  exact hkept.1.2

/-- **An edit** leaves the collection listed, also where it is refused. -/
theorem Site.Stands.edit_listed (h : p.Stands sel invNorm G) {name : Str} {e : Edit} {sess : Session}
    (hsess : p.db.session name = some sess) (hfits : e.Fits ⟨p.config, now, invNorm⟩ sess) (hlisted : sess.Listed name) :
    Ends device (e.act ⟨p.config, now, invNorm⟩) sess p.storage (fun _ sess' _ => sess'.Listed name) := by
  obtain ⟨g, -, hst⟩ := h.session hsess now
  unfold Ends
  cases Edit.goes hst h.writable h.synced hfits with
  | refused err sess' hpure hafter hanswers =>
    -- a flush and a compaction are not refused
    have hwrite : e ≠ .flush := by
      rintro rfl
      cases hanswers.1
    have hcompact : ∀ options, e ≠ .compact options := by
      rintro options rfl
      obtain ⟨report, hreport⟩ := hanswers.1
      cases hreport
    rw [hpure]
    exact hlisted.of_keyed (Edit.act_calm _ e hwrite hcompact sess hlisted.keyed _ _ hpure)
  | done hspec =>
    obtain ⟨a, sess', t, hrun, -⟩ := hspec.runs
    rw [hrun]
    exact (Edit.act_lands _ e hlisted).of_run hrun

/-- **A creation** lists the new collection, without segments. -/
theorem createCollection_lists {env : Env} {db : Database} (h : db.Lists) (spec : Database.CollectionSpec) :
    Lands (Database.createCollection env spec) db (fun _ db' => db'.Lists) := by
  refine Lands.past (checkWritable_keeps env _) fun _ _ => Lands.lift_bind fun _ _ => Lands.get_bind ?_
  refine Lands.ite (fun _ => Lands.throw) fun _ => Lands.past (writeCatalog_keeps _) fun _ _ => Lands.lift_bind fun _ _ => ?_
  refine Lands.past (.call _) fun _ _ => Lands.bind (Lands.zoom ((commit_lands _ _).mono fun _ store hstore => ?_))
  refine Lands.past (collOpen_key env _ _) fun coll hcoll => Lands.modify ?_
  have hentry : ∀ other, store.current.collection other =
      (Manifest.withEntry db.store.current (Database.emptyEntry spec.name)).collection other := fun other => by
    unfold Manifest.collection
    rw [hstore]
  intro other sess hsess
  obtain ⟨found, hlook, rfl⟩ := Option.map_eq_some_iff.mp hsess
  have hlook : (db.collections.insert spec.name coll).lookup other = some found := hlook
  by_cases hname : other = spec.name
  · subst hname
    rw [AList.lookup_insert] at hlook
    obtain rfl := Option.some.inj hlook
    exact ⟨congrArg Catalog.name hcoll.1, _, (hentry _).trans (entry_withEntry_self rfl), hcoll.2.symm⟩
  · rw [AList.lookup_insert_ne hname] at hlook
    have hold : db.session other = some ⟨db.store, found⟩ := by
      unfold Database.session
      rw [hlook]
      rfl
    obtain ⟨hcoll, e, he, hkeys⟩ := h other _ hold
    exact ⟨hcoll, e, (hentry other).trans ((entry_withEntry_ne hname).trans he), hkeys⟩

/-- **A drop** leaves the others listed. -/
theorem dropCollection_lists {env : Env} {db : Database} (h : db.Lists) (name : Str) :
    Lands (Database.dropCollection env name) db (fun _ db' => db'.Lists) := by
  refine Lands.past (checkWritable_keeps env _) fun _ _ => Lands.get_bind (Lands.ite (fun _ => Lands.throw) fun _ => ?_)
  refine Lands.bind (Lands.zoom ((commit_lands _ _).mono fun _ store hstore => Lands.bind (Lands.modify ?_)))
  refine Lands.lift_bind fun _ _ => Lands.past (.call _) fun found _ => ?_
  have hlists : Database.Lists ⟨store, db.collections.erase name⟩ := by
    intro other sess hsess
    obtain ⟨coll, hlook, rfl⟩ := Option.map_eq_some_iff.mp hsess
    have hlook : (db.collections.erase name).lookup other = some coll := hlook
    by_cases hname : other = name
    · subst hname
      rw [AList.lookup_erase] at hlook
      cases hlook
    · rw [AList.lookup_erase_ne hname] at hlook
      have hold : db.session other = some ⟨db.store, coll⟩ := by
        unfold Database.session
        rw [hlook]
        rfl
      obtain ⟨hcoll, e, he, hkeys⟩ := h other _ hold
      refine ⟨hcoll, e, Eq.trans ?_ ((entry_without_ne (m := db.store.current) hname).trans he), hkeys⟩
      unfold Manifest.collection
      rw [hstore]
  cases found with
  | none => exact Lands.pure hlists
  | some len => exact (Lands.of_keeps (P := Database.Lists) (.call _) hlists).mono fun _ _ hkept => hkept.1

/-- **The flushes of a close** leave everything listed. -/
theorem Site.Stands.flushes_lists (h : p.Stands sel invNorm G) (hlists : p.db.Lists) {names : List Str}
    (hmay : MayFlush Edit.Fits ⟨p.config, now, invNorm⟩ names p.db p.storage) :
    Ends device (Proc.forList (fun name => Database.onCollection name (Engine.flush ⟨p.config, now, invNorm⟩)) names) p.db
      p.storage (fun _ db' _ => db'.Lists) := by
  obtain ⟨config, db, s⟩ := p
  induction names generalizing db s G with
  | nil => exact Ends.pure hlists
  | cons name names ih =>
    obtain ⟨hfits, hrest⟩ := hmay
    cases hsess : db.session name with
    | none =>
      have hthrow : Ends device (Database.onCollection name (Engine.flush ⟨config, now, invNorm⟩)) db s (fun r db' t =>
          r = .error (.collectionNotFound name) ∧ db' = db ∧ t = s) := by
        refine Ends.get_bind ?_
        rw [Option.map_eq_none_iff.mp hsess]
        exact Ends.throw ⟨rfl, rfl, rfl⟩
      refine hthrow.seq (fun _ _ _ hr => by cases hr.1) (fun e db' t hr => ?_)
      obtain ⟨-, rfl, rfl⟩ := hr
      exact hlists
    | some sess =>
      have hflush : Ends device (Engine.flush ⟨config, now, invNorm⟩) sess s (fun _ sess' _ => sess'.Listed name) :=
        Ends.of_answer (h.edit_listed hsess (hfits sess hsess) (hlists name sess hsess))
      have hlisted := hlists.onCollection hsess hflush (.ite (fun _ => .pure trivial) fun _ => doFlush_elsewhere _)
      refine (h.flush hsess (hfits sess hsess)).with_run.seq (fun u db' t hr => ?_) (fun e db' t hr => ?_)
      · obtain ⟨⟨G', hst, -⟩, hrun⟩ := hr
        rw [hrun] at hrest
        exact ih db' t hst (hlisted.of_run hrun) hrest
      · exact hlisted.of_run hr.2

/-- **An open** lists every collection. -/
theorem Site.Stands.open_lists {config : Config} {counter : UInt64} {db : Database} {s t : MemoryStorage}
    (h : (Site.mk config db t).Stands sel invNorm G)
    (hrun : (Database.open ⟨config, now, invNorm⟩ counter ()).run device s = ((.ok db, ()), t)) : db.Lists := by
  have hopen : Keeps (fun _ : Unit => True) (Database.open ⟨config, now, invNorm⟩ counter)
      (fun db => Opens db.store.current.collections db.collections) :=
    .next Database.unasked fun _ => .next Database.unasked fun store => .bind (openCollections_opens _ _) fun _ hopens =>
      .pure hopens
  have hopens := (hopen.run device (x := ()) trivial s).2 db (by rw [hrun])
  intro name sess hsess
  obtain ⟨coll, hlook, rfl⟩ := Option.map_eq_some_iff.mp hsess
  obtain ⟨e, he, hkeys⟩ := hopens name coll hlook
  obtain ⟨g, rfl, hst⟩ := h.session hsess now
  exact ⟨hst.live.mem.session_name, e, he, hkeys⟩

/-! ## Runs -/

/-- **A step keeps everything listed.** -/
theorem Step.lists {opens : Config → Prop} {p p' : Site} {M M' : Str → Option DocMap}
    (hstep : Step opens Edit.Fits invNorm p M p' M') (h : p.Stands sel invNorm G) (h' : ∃ G', p'.Stands sel invNorm G')
    (hlists : p.db.Lists) : p'.db.Lists := by
  cases hstep with
  | create now spec hroom hrun => exact (createCollection_lists hlists spec).of_run hrun
  | drop now name hroom hrun => exact (dropCollection_lists hlists name).of_run hrun
  | edit now name e hsess hmay hrun =>
    have hlisted := h.edit_listed hsess hmay (hlists name _ hsess)
    exact (hlists.onCollection hsess hlisted (Edit.act_elsewhere _ e)).of_run hrun
  | close now hmay hrun =>
    have hflushes := h.flushes_lists hlists hmay
    have hclose : Ends device (Database.close ⟨p.config, now, invNorm⟩) p.db p.storage (fun _ db' _ => db'.Lists) := by
      unfold Database.close Database.flushAll
      rw [h.writable]
      exact Ends.get_bind hflushes
    exact hclose.of_run hrun
  | reopen config now counter hc hro hrun =>
    obtain ⟨G', hst⟩ := h'
    exact hst.open_lists hrun

/-- **After every run** the manifest lists the segments of every collection. -/
theorem Run.lists {opens : Config → Prop} {p : Site} {M : Str → Option DocMap} (h : Run opens Edit.Fits invNorm p M)
    (hopens : ∀ c, opens c → sel = .live ∨ c.durability = .full) : p.db.Lists := by
  induction h with
  | start config now counter hc hrun => exact (Site.Stands.new (hopens _ hc) hrun).open_lists hrun
  | step hbefore hstep ih =>
    obtain ⟨G, hst, -⟩ := hbefore.stands hopens fun _ _ _ hfits => hfits
    obtain ⟨G', hst', -⟩ := (hbefore.step hstep).stands hopens fun _ _ _ hfits => hfits
    exact hstep.lists hst ⟨G', hst'⟩ ih

end Databases

end IshaVectorDb.Engine
