import IshaVectorDb.Correctness.CutCreations

/-!
# `Correctness.CutDrops` — a drop that is **cut off**

`drop_collection` commits a manifest without the collection first and removes its files second. A process that dies inside, having
removed any of them, leaves the collection whole or leaves it out: the next open finds all the others with their documents, and
the dropped one as it was or not at all (`Run.survives_drop`).
-/

namespace IshaVectorDb.Engine

open Format Interaction KeyLog

/-! ## A removal that stopped on the way -/

section Removal

variable {s : MemoryStorage} {name : Str} {n : Nat}

theorem parent_mem_ancestry {p : DbPath} (h : p.parent ≠ .root) : p.parent ∈ p.ancestry := by
  cases p <;> simp [DbPath.parent, DbPath.ancestry] at h ⊢

theorem ancestry_trans {p q r : DbPath} (h : p ∈ q.ancestry) (h' : q ∈ r.ancestry) : p ∈ r.ancestry := by
  cases r <;> simp only [DbPath.ancestry, List.mem_cons, List.not_mem_nil, or_false] at h' ⊢ <;>
    rcases h' with rfl | rfl | rfl | rfl <;> simp only [DbPath.ancestry, List.mem_cons, List.not_mem_nil, or_false] at h <;> tauto

/-- What a removal that stopped has removed lies below the directory, and with each directory all that was in it. -/
theorem removeSome_eq (s : MemoryStorage) (dir : DbPath) (n : Nat) : ∃ l, s.removeSome dir n = s.eraseAll l ∧
    (∀ p ∈ l, p ∈ s.below dir) ∧ ∀ p ∈ l, ∀ q ∈ s.below p, q ∈ l := by
  unfold MemoryStorage.removeSome
  dsimp only
  set gone := (((s.below dir).zipIdx).filter (fun p => n.testBit p.2)).map Prod.fst
  split
  · have hbelow : ∀ p ∈ gone, p ∈ s.below dir := fun p hp => by
      obtain ⟨pair, hpair, rfl⟩ := List.mem_map.mp hp
      exact (List.mem_zipIdx' (List.mem_filter.mp hpair).1).2 ▸ List.getElem_mem _
    refine ⟨_, rfl, fun p hp => hbelow p (List.mem_filter.mp hp).1, fun p hp q hq => ?_⟩
    obtain ⟨hgone, hall⟩ := List.mem_filter.mp hp
    have hin : ∀ r ∈ s.below p, r ∈ gone := fun r hr => List.contains_iff_mem.mp (List.all_eq_true.mp hall r hr)
    obtain ⟨-, hproot, -⟩ := mem_below.mp (hbelow p hgone)
    obtain ⟨-, hqroot, hpq⟩ := mem_below.mp hq
    refine List.mem_filter.mpr ⟨hin q hq, List.all_eq_true.mpr fun r hr => List.contains_iff_mem.mpr (hin r ?_)⟩
    obtain ⟨hthere, hrroot, hqr⟩ := mem_below.mp hr
    exact mem_below.mpr ⟨hthere, hrroot, .inr (ancestry_trans (hpq.resolve_left hproot) (hqr.resolve_left hqroot))⟩
  · exact ⟨[], rfl, fun _ h => absurd h List.not_mem_nil, fun _ h => absurd h List.not_mem_nil⟩

/-- It leaves the storage in shape. -/
theorem Shape.removeSome (hs : Shape s) (dir : DbPath) (n : Nat) : Shape (s.removeSome dir n) := by
  obtain ⟨l, heq, hbelow, hwhole⟩ := removeSome_eq s dir n
  have hroot : DbPath.root ∉ l := fun h => (mem_below.mp (hbelow _ h)).2.1 rfl
  rw [heq]
  refine hs.eraseAll hroot fun p e he hpar => hwhole _ hpar p (mem_below.mpr ⟨by rw [he]; rfl, fun h => ?_, .inr ?_⟩)
  · rw [h] at hpar
    exact hroot hpar
  · exact parent_mem_ancestry fun h => hroot (h ▸ hpar)

/-- It touches nothing that is not below the directory. -/
theorem removeSome_off (s : MemoryStorage) (n : Nat) (view : Sel) :
    Off (BelowDir name) (s.image view) ((s.removeSome (.collectionDir name) n).image view) := by
  obtain ⟨l, heq, hbelow, -⟩ := removeSome_eq s (.collectionDir name) n
  intro p hp
  unfold MemoryStorage.image
  rw [heq, get_eraseAll, if_neg]
  intro hmem
  exact hp ((mem_below.mp (hbelow p hmem)).2.2.resolve_left (fun h => by cases h))

end Removal

/-! ## What a death leaves -/

theorem docsOf_update_none (G : Str → Option Ghost) (name : Str) :
    docsOf (Function.update G name none) = Function.update (docsOf G) name none := by
  funext other
  unfold docsOf
  by_cases hn : other = name
  · rw [hn, Function.update_self, Function.update_self]
    rfl
  · rw [Function.update_of_ne hn, Function.update_of_ne hn]

section Drop

variable {env : Env} {sel : Sel} {db : Database} {s : MemoryStorage} {G D : Str → Option Ghost} {name : Str}

/-- **The deaths of a drop**: the collection is there, and its log's directory too, or it is not. -/
theorem dropCollection_deaths (h : DbState env sel db s G D) (hsteady : Steady sel db.store s)
    (hro : env.config.readOnly = false) (hthere : (G name).isSome = true) (hroom : DropRoom db) :
    (Database.dropCollection env name db).Deaths device (fun _ _ t => Shape t ∧
      (t.get (.walDir name) = some .dir ∧ Recovers (t.image sel) (docsOf D) ∨
        Recovers (t.image sel) (Function.update (docsOf D) name none))) s := by
  set next := db.store.successor (Manifest.without db.store.current name) env.nowMs with hnext
  obtain ⟨g, hg⟩ := Option.isSome_iff_exists.mp hthere
  obtain ⟨coll, ops, docs, hlook, rfl, hst⟩ := h.collection hg
  have hw : next.Writable := writable_without h.live.slots.writable hroom.manifest g.name env.nowMs
  have hnewer : db.store.current.sequence < next.sequence := successor_newer hroom.sequence _ _
  have hcollDir : s.get (.collectionDir g.name) = some .dir := h.shape.nested _ _ (h.dirs hthere)
  unfold Database.dropCollection checkWritable
  rw [hro]
  refine Triple.deaths_bind (F := fun _ _ _ => True) (Triple.pure (Triple.deaths_bind (F := fun _ _ _ => True) (Triple.get ?_)))
  rw [hlook]
  -- the commit
  have hspares : Spares g.name (Proc.zoom Database.store (fun store db => { db with store := store })
      (ManifestStore.commit (Manifest.without db.store.current g.name) env.nowMs) : Action Database Unit) :=
    .zoom (commit_spares _ _)
  have hcommit : Spec sel (Proc.zoom Database.store (fun store db => { db with store := store })
      (ManifestStore.commit (Manifest.without db.store.current g.name) env.nowMs) : Action Database Unit) db s
      (fun _ _ t => Shape t ∧ (∀ view, t.image view = Function.update (s.image view) (.manifest db.store.slot.other)
        (some (encodeBlock .manifest next.payload))) ∧ ∀ p, p ≠ .manifest db.store.slot.other → t.get p = s.get p)
      (fun _ _ img => Recovers img (docsOf D) ∨ Recovers img (Function.update (docsOf D) g.name none)) (fun _ _ _ => True) := by
    refine Triple.zoom (Triple.bind (Triple.get (show Spec sel (ManifestStore.write next) db.store s _
      (fun _ _ img => Recovers img (docsOf D) ∨ Recovers img (Function.update (docsOf D) g.name none)) (fun _ _ _ => True) from
      write_spec h.shape hw (fun t hs himg hget => ⟨hs, himg, hget⟩) (fun c n => .inl h.seen.recovers)
      (fun c n v hv => .inl (h.seen.overwrite hv).recovers) (fun c n => .inr ?_) (fun _ _ _ _ => trivial))))
    rw [← docsOf_update_none]
    exact (h.seen.removed g.name hw hnewer).recovers
  refine Triple.deaths_bind (F := fun _ _ _ => True) ((hcommit.with_deaths (hspares.keeps_dir (h.dirs hthere))).mono ?_
    (fun c n t hk => ⟨hk.1.1, hk.1.2.imp_left fun hold => ⟨hk.2, hold⟩⟩) (fun _ _ _ _ => trivial))
  rintro u db' t ⟨hs, himg, hget⟩
  have hrest := (h.rests hsteady).removed g.name hnext hw hnewer hs himg hget
  have hnew : ∀ img, Off (BelowDir g.name) (t.image sel) img → Recovers img (Function.update (docsOf D) g.name none) :=
    fun img hoff => by
      rw [← docsOf_update_none]
      exact (hrest.seen.off_dir (Function.update_self _ _ _) hoff).recovers
  refine Triple.deaths_bind (F := fun _ _ _ => True) (Triple.modify ?_)
  refine Triple.deaths_bind (F := fun _ _ _ => True) (Triple.lift (Layout.under_ok g.good.name _) ?_)
  -- the removal: whatever part of the directory is gone, the manifest no longer names it
  have hdir : t.get (.collectionDir g.name) = some .dir := by rw [hget _ (fun heq => by cases heq)]; exact hcollDir
  have hmeta : device.step (.metadata (.collectionDir g.name)) t = (.ok (some 0), t) := by
    rw [step_metadata]
    unfold MemoryStorage.metadata
    rw [hdir]
  refine Triple.deaths_bind ((read_spec (K := fun _ _ img => img = t.image sel) (G := fun _ _ _ => True) hs
    (show (Call.metadata (.collectionDir g.name)).IsRead from trivial) hmeta ?_
    (fun n => rfl) trivial).mono (fun _ _ _ hq => hq) (fun c n u hk => ⟨hk.1, .inr (hnew _ (by rw [hk.2]; exact Off.refl _ _))⟩)
    (fun _ _ _ hf => hf))
  exact ⟨fun n => ⟨hs.removeSome _ n, .inr (hnew _ (removeSome_off t n sel))⟩, trivial⟩

end Drop

/-! ## Over a run -/

section Runs

variable {opens : Config → Prop} {sel : Sel} {invNorm : InvNorm} {p : Site} {M : Str → Option DocMap} {name : Str} {now : UInt64}

/-- **A death inside a drop** leaves all collections, or all but the dropped one. -/
theorem Site.Stands.diedDropping {G : Str → Option Ghost} (h : p.Stands sel invNorm G) (htidy : Tidy p.storage (docsOf G))
    (hroom : DropRoom p.db) {i n : Nat} {c : Call} {t : MemoryStorage}
    (hdies : (Database.dropCollection ⟨p.config, now, invNorm⟩ name p.db).dieAt device p.storage i n = some (c, t)) :
    ∃ M', (M' = docsOf G ∨ M' = Function.update (docsOf G) name none) ∧ Recovers (t.image sel) M' ∧ Shape t ∧
      ∀ other, (M' other).isSome = true → t.get (.walDir other) = some .dir := by
  have hothers : ∀ other, other ≠ name → (docsOf G other).isSome = true → t.get (.walDir other) = some .dir :=
    fun other hne hsome => (((dropCollection_spares _ hne).dieAt hdies).trans (htidy other)).mpr hsome
  cases hthere : (G name).isSome with
  | false =>
    -- a collection that is not there is not dropped
    have hlook : p.db.collections.lookup name = none := by
      have hall := (h.state now).all name
      rw [hthere] at hall
      exact Option.isNone_iff_eq_none.mp (Option.isSome_eq_false_iff.mp hall.symm)
    unfold Database.dropCollection checkWritable at hdies
    have hro : (Env.mk p.config now invNorm).config.readOnly = false := h.writable
    rw [hro] at hdies
    change ((if (p.db.collections.lookup name).isNone then _ else _ : Action Database Unit) p.db).dieAt
      device p.storage i n = _ at hdies
    rw [hlook] at hdies
    cases hdies
  | true =>
    obtain ⟨hshape, hdead⟩ := (Prog.deaths_iff _ _).mp
      (dropCollection_deaths (h.state now) h.steady h.writable hthere hroom) i n c t hdies
    -- before the commit shows, the log's directory of the collection is still there
    rcases hdead with ⟨hdir, hrec⟩ | hrec
    · refine ⟨_, .inl rfl, hrec, hshape, fun other hsome => ?_⟩
      by_cases hne : other = name
      · rw [hne]
        exact hdir
      · exact hothers other hne hsome
    · refine ⟨_, .inr rfl, hrec, hshape, fun other hsome => ?_⟩
      have hne : other ≠ name := fun heq => by rw [heq, Function.update_self] at hsome; cases hsome
      rw [Function.update_of_ne hne] at hsome
      exact hothers other hne hsome

/-- **A drop that is cut off is made or not.** The next open succeeds and finds every other collection with its documents, the
    dropped one with all of its own or not at all. None of them has a segment file that the manifest does not name. -/
theorem Run.survives_drop (h : Run opens Edit.Fits invNorm p M) (hopens : ∀ c, opens c → sel = .live ∨ c.durability = .full)
    (hroom : DropRoom p.db) {i n : Nat} {c : Call} {t : MemoryStorage}
    (hdies : (Database.dropCollection ⟨p.config, now, invNorm⟩ name p.db).dieAt device p.storage i n = some (c, t))
    {config : Config} (hvalid : config.validate = .ok ()) (hro : config.readOnly = false) (now' counter : UInt64) :
    ∃ M' db u, (M' = M ∨ M' = Function.update M name none) ∧
      (Database.open ⟨config, now', invNorm⟩ counter ()).run device (sel.left t) = ((.ok db, ()), u) ∧ db.Has M' ∧
      NoOrphans db.store u := by
  obtain ⟨⟨G, hst, rfl⟩, htidy⟩ := h.tidy hopens
  obtain ⟨M', hM', hrec, hshape, hdirs⟩ := hst.diedDropping htidy hroom hdies
  obtain ⟨db, u, G', hrun, hstate, -, rfl, hclean, -⟩ :=
    @Recovers.opens sel invNorm t _ hrec hshape hdirs config hvalid hro now' counter
  exact ⟨_, db, u, hM', hrun, hstate.has, hclean⟩

end Runs

/-- The process dies while it removes the files of the dropped collection, some of which are gone. -/
theorem survives_drop_halfway : ∃ c t db u,
    (Database.dropCollection fullEnv theSpec.name putSite.db).dieAt device putSite.storage 5 3 = some (c, t) ∧
    c.path = .collectionDir theSpec.name ∧
    (Database.open fullEnv 0 ()).run device t = ((.ok db, ()), u) ∧ NoOrphans db.store u := by
  have hpath : ((Database.dropCollection fullEnv theSpec.name putSite.db).dieAt device putSite.storage 5 3).map (fun x => x.1.path) =
      some (.collectionDir theSpec.name) := by decide +kernel
  obtain ⟨⟨c, t⟩, hdies, hpath⟩ := Option.map_eq_some_iff.mp hpath
  obtain ⟨M, docs, hrun, -⟩ := putSite_run
  have hroom : DropRoom putSite.db := ⟨by decide +kernel, by decide +kernel⟩
  obtain ⟨M', db, u, -, hopen, -, hclean⟩ := Run.survives_drop hrun (fun _ _ => .inl (show Sel.live = .live from rfl)) hroom hdies
    (show fullConfig.validate = .ok () from rfl) rfl 0 0
  exact ⟨c, t, db, u, hdies, hpath, hopen, hclean⟩

end IshaVectorDb.Engine
