import IshaVectorDb.Correctness.Crashes

/-!
# `Correctness.CutCreations` — a creation that is **cut off**

A process may end at any call of `create_collection`, with the power or without it, having written the collection's
specification, made its log's directory, and committed the manifest or not. The next open finds the collections that there were,
and perhaps the new one beside them, without documents. Nothing of what the creation has left behind shows in a collection
that is created later, of the same name or of another (`Run.survives_creation`).
-/

namespace IshaVectorDb.Engine

open Format Interaction KeyLog

/-! ## What a death leaves -/

section Deaths

variable {S α : Type}

/-- Where the directory of a log is, it stays through the deaths of a process that spares it. -/
theorem Spares.keeps_dir {name : Str} {m : Action S α} (h : Spares name m) {x : S} {s : MemoryStorage}
    (hs : s.get (.walDir name) = some .dir) : (m x).Deaths device (fun _ _ t => t.get (.walDir name) = some .dir) s :=
  (h x).deaths (fun _ u hc hu => (hc.step u).mpr hu) (fun _ n u hc hu => (hc.cut n u).mpr hu) hs

end Deaths

section Create

variable {env : Env} {sel : Sel} {db : Database} {s : MemoryStorage} {G D : Str → Option Ghost} {spec : Database.CollectionSpec}

/-- **The log's directory is made before the commit**: where it is not there yet, nothing shows of the new collection. -/
theorem createCollection_dirs (h : DbState env sel db s G D) (hro : env.config.readOnly = false) (hvalid : spec.validate = .ok ())
    (hkind : spec.idKind ≠ .str 0) (hnew : db.collections.lookup spec.name = none)
    (hlog : s.image .live (.walFile spec.name 1) = none) :
    (Database.createCollection env spec db).Deaths device (fun _ _ t => t.get (.walDir spec.name) = some .dir ∨
      Recovers (t.image sel) (docsOf D) ∧ t.image sel (.walFile spec.name 1) = none) s := by
  have good := Database.CollectionSpec.good hvalid hkind env.nowMs
  have hD : D spec.name = none := h.unseen (h.absent hnew)
  have hbefore : ∀ img, Off (· = .catalog spec.name) (s.image sel) img →
      Recovers img (docsOf D) ∧ img (.walFile spec.name 1) = none := fun img hoff =>
    ⟨(h.seen.off_catalog hD hoff).recovers, by rw [hoff _ (fun heq => by cases heq)]; exact h.shape.no_log hlog sel⟩
  unfold Database.createCollection checkWritable
  rw [hro]
  refine Triple.deaths_bind (F := fun _ _ _ => True) (Triple.pure (Triple.deaths_bind (F := fun _ _ _ => True) (Triple.lift hvalid
    (Triple.deaths_bind (F := fun _ _ _ => True) (Triple.get ?_)))))
  rw [hnew]
  -- the specification
  refine Triple.deaths_bind ((writeCatalog_spec
    (K := fun _ _ img => Recovers img (docsOf D) ∧ img (.walFile spec.name 1) = none) good h.shape
    (fun t1 hs1 himg1 hkept1 => ?_) (fun c n img hoff => hbefore img hoff)).mono (fun _ _ _ hq => hq)
    (fun _ _ _ hk => .inr hk.2) (fun _ _ _ hf => hf))
  have hup : Off (· = .catalog spec.name) (s.image sel) (t1.image sel) := by
    rw [himg1]
    exact Off.update (P := (· = .catalog spec.name)) _ rfl _
  -- the directory of the log
  refine Triple.deaths_bind (F := fun _ _ _ => True) (Triple.lift (Layout.under_ok good.name _) ?_)
  refine Triple.deaths_bind ((createDirAll_spec (K := fun _ _ img => Recovers img (docsOf D) ∧ img (.walFile spec.name 1) = none)
    (G := fun _ _ _ => True) hs1
    (show Descends .root (DbPath.walDir spec.name).ancestry from ⟨rfl, rfl, rfl, rfl, rfl, rfl, trivial⟩)
    (fun t2 ht2 => ?_) (fun n => hbefore _ hup) trivial).mono (fun _ _ _ hq => hq) (fun _ _ _ hk => .inr hk.2)
    (fun _ _ _ hf => hf))
  have hdir : t2.get (.walDir spec.name) = some .dir :=
    ht2.made _ (List.mem_cons_of_mem _ (List.mem_cons_of_mem _ List.mem_cons_self))
  -- the commit and the opening spare it
  have hrest : Spares spec.name (do
      Proc.zoom Database.store (fun store db => { db with store := store })
        (ManifestStore.commit (Manifest.withEntry db.store.current (Database.emptyEntry spec.name)) env.nowMs)
      let coll ← CollInner.open env (spec.catalog env.nowMs) (Database.emptyEntry spec.name)
      Proc.modify (fun db => { db with collections := db.collections.insert spec.name coll }) : Action Database Unit) :=
    .bind (.zoom (commit_spares _ _)) fun _ => .bind (collOpen_spares env _ _) fun _ => .modify _
  exact (hrest.keeps_dir hdir).mono (fun _ _ _ hk => .inl hk)

/-- A specification whose ids have no room is refused before anything is written. -/
theorem createCollection_unwritten (hs : Shape s) (hro : env.config.readOnly = false) (hvalid : spec.validate = .ok ())
    (hkind : spec.idKind = .str 0) (hnew : db.collections.lookup spec.name = none) :
    (Database.createCollection env spec db).Deaths device (fun _ _ t => Shape t ∧ t.image sel = s.image sel) s := by
  obtain ⟨u, hname, hdim⟩ := Parsing.except_bind_eq_ok.mp hvalid
  by_cases hbad : spec.dimension = 0 ∨ maxDimension < spec.dimension
  · rw [if_pos hbad] at hdim; cases hdim
  rw [not_or] at hbad
  have hencode : ∃ e, (spec.catalog env.nowMs).encode = .error e := by
    unfold Catalog.encode Catalog.validate
    rw [if_neg (show ¬ (spec.catalog env.nowMs).dimension = 0 from hbad.1),
      if_neg (show ¬ maxDimension < (spec.catalog env.nowMs).dimension from hbad.2)]
    split
    · exact ⟨_, rfl⟩
    · rw [if_pos (show (spec.catalog env.nowMs).idKind = .str 0 from hkind)]
      exact ⟨_, rfl⟩
  obtain ⟨e, he⟩ := hencode
  unfold Database.createCollection checkWritable
  rw [hro]
  refine Triple.deaths_bind (F := fun _ _ _ => True) (Triple.pure (Triple.deaths_bind (F := fun _ _ _ => True) (Triple.lift hvalid
    (Triple.deaths_bind (F := fun _ _ _ => True) (Triple.get ?_)))))
  rw [hnew]
  -- the directory of the collection is all that is made
  have hwrite : (writeCatalog (spec.catalog env.nowMs) db).Deaths device (fun _ _ t => Shape t ∧ t.image sel = s.image sel) s := by
    refine Triple.deaths_bind (F := fun _ _ _ => True) (Triple.lift (Layout.under_ok hname _) ?_)
    refine Triple.deaths_bind (F := fun _ _ _ => True) (Triple.lift (Layout.under_ok hname _) ?_)
    refine Triple.deaths_bind (createDirAll_spec (K := fun _ _ img => img = s.image sel) (G := fun _ _ _ => True) hs
      ⟨rfl, rfl, rfl, rfl, trivial⟩ (fun t ht => ?_) (fun n => rfl) trivial)
    rw [he]
    trivial
  have hends : Ends device (writeCatalog (spec.catalog env.nowMs)) db s (fun r _ _ => ∃ e, r = .error e) := by
    refine Ends.lift_bind (fun path _ => Ends.lift_bind (fun dir _ => ?_) (fun e _ => ⟨e, rfl⟩)) (fun e _ => ⟨e, rfl⟩)
    have hany : Ends device (call (.createDirAll dir) : Action Database Unit) db s (fun _ _ _ => True) := trivial
    refine hany.seq (fun _ x' s' _ => ?_) (fun e _ _ _ => ⟨e, rfl⟩)
    rw [he]
    exact Ends.lift_bind (fun a ha => by cases ha) (fun e _ => ⟨e, rfl⟩)
  obtain ⟨e', hr⟩ := hends
  exact Triple.deaths_bind_failed hwrite hr

end Create

/-! ## The next open -/

section Opening

variable {sel : Sel} {invNorm : InvNorm} {s : MemoryStorage} {M : Str → Option DocMap}

/-- **What a process left can be opened**, if its image recovers documents and the logs of these collections have their
    directories. The logs of others stay as they are. -/
theorem Recovers.opens (h : Recovers (s.image sel) M) (hs : Shape s)
    (hdirs : ∀ name, (M name).isSome = true → s.get (.walDir name) = some .dir) {config : Config}
    (hvalid : config.validate = .ok ()) (hro : config.readOnly = false) (now counter : UInt64) :
    ∃ db t G, (Database.open ⟨config, now, invNorm⟩ counter ()).run device (sel.left s) = ((.ok db, ()), t) ∧
      DbState ⟨config, now, invNorm⟩ sel db t G G ∧ Steady sel db.store t ∧ docsOf G = M ∧ NoOrphans db.store t ∧
      ∀ name, M name = none → t.get (.walFile name 1) = (sel.left s).get (.walFile name 1) := by
  obtain ⟨store, G, hdisk, hdocs⟩ := h
  have hM : docsOf G = M := funext hdocs
  rw [← Sel.left_image] at hdisk
  obtain ⟨store', hrest⟩ := hdisk.atRest (sel.left_shape hs) (fun name hsome =>
    (sel.left_dir s _).mpr (hdirs name (by rw [← hM, docsOf_isSome]; exact hsome))) (sel.left_twice s)
  have hspec : Spec sel (Database.open ⟨config, now, invNorm⟩ counter) () (sel.left s) _ _ _ :=
    Database.open_spec hrest hvalid hro
  obtain ⟨db, u, t, hrun, -, hstore, ⟨G', D', hstate, hG, hD⟩, hclean, hsteady, hkept⟩ := hspec.runs
  obtain rfl := hstate.same hG hD
  refine ⟨db, t, D', hrun, hstate, by rw [hstore]; exact hsteady, hG.docsOf.trans hM, by rw [hstore]; exact hclean,
    fun name hnone => ?_⟩
  -- a log is replaced only where a collection was found
  refine hkept name (Option.not_isSome_iff_eq_none.mp ?_)
  rw [← docsOf_isSome, hM, hnone]
  exact Bool.false_ne_true

/-- Where there is no log of another collection, the opened database stands. -/
theorem Recovers.stands (h : Recovers (s.image sel) M) (hs : Shape s)
    (hdirs : ∀ name, (M name).isSome = true → s.get (.walDir name) = some .dir)
    (hlogs : ∀ name, M name = none → s.image sel (.walFile name 1) = none) {config : Config}
    (hvalid : config.validate = .ok ()) (hro : config.readOnly = false) (hsync : sel = .live ∨ config.durability = .full)
    (now counter : UInt64) :
    ∃ db t G, (Database.open ⟨config, now, invNorm⟩ counter ()).run device (sel.left s) = ((.ok db, ()), t) ∧
      (Site.mk config db t).Stands sel invNorm G ∧ docsOf G = M ∧ NoOrphans db.store t := by
  obtain ⟨db, t, G, hrun, hstate, hsteady, rfl, hclean, hkept⟩ :=
    @Recovers.opens sel invNorm s M h hs hdirs config hvalid hro now counter
  refine ⟨db, t, G, hrun, ⟨fun now' => hstate.anytime now', hsteady, hro, hsync, fun name hnone => ?_⟩, rfl, hclean⟩
  have hnone' : docsOf G name = none := by
    unfold docsOf
    rw [hnone]
    rfl
  have hlog : (sel.left s).image .live (.walFile name 1) = none := by
    rw [Sel.left_image]
    exact hlogs name hnone'
  show t.image .live _ = none
  unfold MemoryStorage.image at hlog ⊢
  rw [hkept name hnone']
  exact hlog

end Opening

/-! ## Over a run -/

section Runs

variable {opens : Config → Prop} {sel : Sel} {invNorm : InvNorm} {p : Site} {M : Str → Option DocMap}
  {spec : Database.CollectionSpec} {now : UInt64}

/-- A run keeps the logs' directories to the collections. -/
theorem Run.tidy (h : Run opens Edit.Fits invNorm p M) (hopens : ∀ c, opens c → sel = .live ∨ c.durability = .full) :
    (∃ G, p.Stands sel invNorm G ∧ docsOf G = M) ∧ Tidy p.storage M := by
  induction h with
  | start config now counter hc hrun =>
    refine ⟨⟨_, .new (hopens _ hc) hrun, rfl⟩, fun name => ((open_spares _ counter).run hrun).trans ?_⟩
    exact ⟨fun h => (by cases h), fun h => (by cases h)⟩
  | step _ hstep ih =>
    obtain ⟨hst, htidy⟩ := ih
    have hafter := hstep.stands hopens (fun _ _ _ hf => hf) hst
    exact ⟨hafter, hstep.tidy htidy hafter⟩

/-- A specification that passes its checks, of a name that is free: only then does a creation make a call. -/
theorem createCollection_calls {env : Env} {db : Database} {s t : MemoryStorage} {i n : Nat} {c : Call}
    (hdies : (Database.createCollection env spec db).dieAt device s i n = some (c, t)) (hro : env.config.readOnly = false) :
    spec.validate = .ok () ∧ db.collections.lookup spec.name = none := by
  unfold Database.createCollection checkWritable at hdies
  rw [hro] at hdies
  cases hvalid : spec.validate with
  | error e =>
    rw [hvalid] at hdies
    cases hdies
  | ok u =>
    rw [hvalid] at hdies
    cases hlook : db.collections.lookup spec.name with
    | none => exact ⟨rfl, rfl⟩
    | some coll =>
      change ((if (db.collections.lookup spec.name).isSome then _ else _ : Action Database Unit) db).dieAt
        device s i n = _ at hdies
      rw [hlook] at hdies
      cases hdies

/-- **A death inside a creation** leaves the collections that there were, or the new one beside them. -/
theorem Site.Stands.diedCreating {G : Str → Option Ghost} (h : p.Stands sel invNorm G) (htidy : Tidy p.storage (docsOf G))
    (hroom : CreateRoom p.db spec.name) {i n : Nat} {c : Call} {t : MemoryStorage}
    (hdies : (Database.createCollection ⟨p.config, now, invNorm⟩ spec p.db).dieAt device p.storage i n = some (c, t)) :
    ∃ M', (M' = docsOf G ∨ M' = Function.update (docsOf G) spec.name (some noDocs)) ∧ Recovers (t.image sel) M' ∧
      Shape t ∧ (∀ name, (M' name).isSome = true → t.get (.walDir name) = some .dir) ∧
      ∀ name, M' name = none → t.image sel (.walFile name 1) = none := by
  obtain ⟨hvalid, hnew⟩ := createCollection_calls hdies h.writable
  have hG : G spec.name = none := (h.state now).absent hnew
  have hM : docsOf G spec.name = none := by unfold docsOf; rw [hG]; rfl
  have hothers : ∀ other, other ≠ spec.name → (t.get (.walDir other) = some .dir ↔ (docsOf G other).isSome = true) :=
    fun other hne => ((createCollection_spares _ hne).dieAt hdies).trans (htidy other)
  -- a log that there is lies in its directory
  have hgone : ∀ {M' : Str → Option DocMap}, Shape t →
      M' = docsOf G ∨ M' = Function.update (docsOf G) spec.name (some noDocs) →
      ∀ name, name ≠ spec.name → M' name = none → t.image sel (.walFile name 1) = none := by
    intro M' hshape hM' name hname hnone
    have hold : docsOf G name = none := by
      rcases hM' with rfl | rfl
      · exact hnone
      · rwa [Function.update_of_ne hname] at hnone
    refine MemoryStorage.image_none (Option.not_isSome_iff_eq_none.mp (fun hthere => ?_)) sel
    obtain ⟨entry, hentry⟩ := Option.isSome_iff_exists.mp hthere
    have hdir := (hothers name hname).mp (hshape.nested _ _ hentry)
    rw [hold] at hdir
    cases hdir
  -- the old collections, and no log of the new one
  have hold : Recovers (t.image sel) (docsOf G) → Shape t → t.image sel (.walFile spec.name 1) = none →
      ∃ M', (M' = docsOf G ∨ M' = Function.update (docsOf G) spec.name (some noDocs)) ∧ Recovers (t.image sel) M' ∧ Shape t ∧
      (∀ name, (M' name).isSome = true → t.get (.walDir name) = some .dir) ∧
      ∀ name, M' name = none → t.image sel (.walFile name 1) = none := by
    intro hrec hshape hlog
    refine ⟨_, .inl rfl, hrec, hshape, fun name hsome => (hothers name ?_).mpr hsome, fun name hnone => ?_⟩
    · rintro rfl
      rw [hM] at hsome
      cases hsome
    · by_cases hname : name = spec.name
      · rw [hname]
        exact hlog
      · exact hgone hshape (.inl rfl) name hname hnone
  -- ids without room pass the specification's checks and fail the catalog's
  by_cases hkind : spec.idKind = .str 0
  · have hunwritten : (Database.createCollection ⟨p.config, now, invNorm⟩ spec p.db).Deaths device
        (fun _ _ u => Shape u ∧ u.image sel = p.storage.image sel) p.storage :=
      createCollection_unwritten (h.state now).shape h.writable hvalid hkind hnew
    obtain ⟨hshape, himage⟩ := (Prog.deaths_iff _ _).mp hunwritten i n c t hdies
    refine hold ?_ hshape ?_
    · rw [himage]
      exact (h.state now).seen.recovers
    · rw [himage]
      exact (h.state now).shape.no_log (h.noLogs _ hG) sel
  · have hspec := createCollection_spec (h.state now) h.steady h.writable hvalid hkind hnew (h.noLogs _ hG) hroom
    obtain ⟨hshape, hdead⟩ := (Prog.deaths_iff _ _).mp hspec.deaths i n c t hdies
    rcases (Prog.deaths_iff _ _).mp
      (createCollection_dirs (h.state now) h.writable hvalid hkind hnew (h.noLogs _ hG)) i n c t hdies with hdir | ⟨hrec, hlog⟩
    · rcases hdead with ⟨hrec, hlog⟩ | hrec
      · exact hold hrec hshape hlog
      · refine ⟨_, .inr rfl, hrec, hshape, fun name hsome => ?_, fun name hnone => ?_⟩
        · by_cases hname : name = spec.name
          · rw [hname]
            exact hdir
          · rw [Function.update_of_ne hname] at hsome
            exact (hothers name hname).mpr hsome
        · have hname : name ≠ spec.name := fun heq => by rw [heq, Function.update_self] at hnone; cases hnone
          exact hgone hshape (.inr rfl) name hname hnone
    · exact hold hrec hshape hlog

/-- **A creation that is cut off is made or not.** The next open succeeds, finds every collection with its documents, the new one
    perhaps among them without any, and leaves no segment file that the manifest does not name. Each collection that is created
    then has no documents, whatever the creation has left behind. -/
theorem Run.survives_creation (h : Run opens Edit.Fits invNorm p M) (hopens : ∀ c, opens c → sel = .live ∨ c.durability = .full)
    (hroom : CreateRoom p.db spec.name) {i n : Nat} {c : Call} {t : MemoryStorage}
    (hdies : (Database.createCollection ⟨p.config, now, invNorm⟩ spec p.db).dieAt device p.storage i n = some (c, t))
    {config : Config} (hc : opens config) (hvalid : config.validate = .ok ()) (hro : config.readOnly = false)
    (now' counter : UInt64) :
    ∃ M' db u, (M' = M ∨ M' = Function.update M spec.name (some noDocs)) ∧
      (Database.open ⟨config, now', invNorm⟩ counter ()).run device (sel.left t) = ((.ok db, ()), u) ∧ db.Has M' ∧
      NoOrphans db.store u ∧ ∀ later spec' db' v, CreateRoom db spec'.name →
        (Database.createCollection ⟨config, later, invNorm⟩ spec' db).run device u = ((.ok (), db'), v) →
        db'.Has (Function.update M' spec'.name (some noDocs)) := by
  obtain ⟨⟨G, hst, rfl⟩, htidy⟩ := h.tidy hopens
  obtain ⟨M', hM', hrec, hshape, hdirs, hlogs⟩ := hst.diedCreating htidy hroom hdies
  obtain ⟨db, u, G', hrun, hst', hG', hclean⟩ :=
    @Recovers.stands sel invNorm t _ hrec hshape hdirs hlogs config hvalid hro (hopens _ hc)
    now' counter
  subst hG'
  refine ⟨_, db, u, hM', hrun, (hst'.state 0).has, hclean, fun later spec' db' v hroom' hcreate => ?_⟩
  obtain ⟨g, -, -, hdocs, hcreated⟩ := hst'.create hroom' hcreate
  have hafter := (hcreated.state 0).has
  rwa [docsOf_update, hdocs] at hafter

/-- The power goes while the manifest that names the first collection is written, three bytes of it being there. -/
theorem survives_creation_torn : ∃ c t db u,
    (Database.createCollection fullEnv theSpec (openedDb newRun.1.1)).dieAt device newRun.2 8 3 = some (c, t) ∧
    (∃ slot, c.path = .manifest slot) ∧
    (Database.open fullEnv 0 ()).run device (Sel.durable.left t) = ((.ok db, ()), u) ∧ NoOrphans db.store u := by
  have hpath : ((Database.createCollection fullEnv theSpec (openedDb newRun.1.1)).dieAt device newRun.2 8 3).map (fun x => x.1.path) =
      some (.manifest .b) := by decide +kernel
  obtain ⟨⟨c, t⟩, hdies, hpath⟩ := Option.map_eq_some_iff.mp hpath
  have hnew : Run (fun config => config.durability = .full) Edit.Fits zeroNorm ⟨fullConfig, openedDb newRun.1.1, newRun.2⟩
      (fun _ => none) := .start fullConfig 0 0 rfl newRun_eq
  obtain ⟨M', db, u, -, hrun, -, hclean, -⟩ := Run.survives_creation hnew (fun _ hfull => .inr hfull) newRun_room hdies
    (show fullConfig.durability = .full from rfl) rfl rfl 0 0
  exact ⟨c, t, db, u, hdies, ⟨_, hpath⟩, hrun, hclean⟩

end Runs

end IshaVectorDb.Engine
