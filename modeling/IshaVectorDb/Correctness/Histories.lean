import IshaVectorDb.Correctness.Beginnings

/-!
# `Correctness.Histories` — **runs of a database** in which no call fails

A database is opened on empty storage. From then on collections are created, changed and dropped, and the database is
closed and opened again, by the same process or the next one (`Step`, `Run`). After every such run the documents are those
that the acknowledged calls leave (`Run.stands`): memory, files and logs say so together.
-/

namespace IshaVectorDb.Engine

open Format Interaction KeyLog

/-! ## A new database -/

/-- **Opening empty storage** makes a database without collections, or fails. -/
theorem Database.open_new {env : Env} {counter : UInt64} {db : Database} {t : MemoryStorage} (sel : Sel)
    (hrun : (Database.open env counter ()).run device MemoryStorage.new = ((.ok db, ()), t)) :
    env.config.readOnly = false ∧ DbState env sel db t (fun _ => none) (fun _ => none) ∧ Steady sel db.store t ∧
      ∀ name, t.image .live (.walFile name 1) = none := by
  unfold Database.open at hrun
  cases hvalid : env.config.validate with
  | error e =>
    rw [hvalid] at hrun
    cases hrun
  | ok u =>
    rw [hvalid, Proc.run_bind (Proc.Says.lift rfl)] at hrun
    cases hcreate : env.config.createIfMissing with
    | false =>
      rw [Proc.run_bind_error (Unbegun.new.refuses hcreate)] at hrun
      cases hrun
    | true =>
      obtain ⟨v, hload, hrest, hlogs⟩ := Unbegun.new.creates env counter sel hcreate
      rw [Proc.run_bind hload] at hrun
      have hdone : (((Except.ok ⟨⟨Manifest.new (newUuid env.nowMs counter) env.nowMs, .a⟩, ∅⟩ : Except DbError Database), ()), v) =
        ((Except.ok db, ()), t) := hrun
      obtain ⟨hdb, rfl⟩ := Prod.mk.inj hdone
      obtain rfl := Except.ok.inj (Prod.mk.inj hdb).1
      exact ⟨Config.writable_of_validate hvalid hcreate, hrest.opened (fun name coll hlook => by cases hlook) (fun name => rfl),
        hrest.stale, hlogs⟩

/-! ## Runs -/

/-- What a run is at: the process's configuration, its database and the storage. -/
structure Site where
  config : Config
  db : Database
  storage : MemoryStorage

/-- The documents that an edit leaves, which are the old ones if it was refused. -/
def Edit.leaves (e : Edit) (r : Except DbError EditAnswer) (docs : DocMap) : DocMap :=
  match r with
  | .ok _ => replay docs e.writes
  | .error _ => docs

/-- Each of the flushes that a close makes, one collection after the other, is one that may be made. -/
def MayFlush (may : Env → Session → Edit → Prop) (env : Env) : List Str → Database → MemoryStorage → Prop
  | [], _, _ => True
  | name :: names, db, s => (∀ sess, db.session name = some sess → may env sess .flush) ∧
      MayFlush may env names ((Database.onCollection name (Engine.flush env) db).run device s).1.2
        ((Database.onCollection name (Engine.flush env) db).run device s).2

/-- **One operation** in which no call fails, and what becomes of the documents. `opens` says how a database may be opened and
    `may` which edits are made. -/
inductive Step (opens : Config → Prop) (may : Env → Session → Edit → Prop) (invNorm : InvNorm) :
    Site → (Str → Option DocMap) → Site → (Str → Option DocMap) → Prop
  | create {p : Site} {M : Str → Option DocMap} (now : UInt64) (spec : Database.CollectionSpec) {db' : Database}
      {t : MemoryStorage} (hroom : CreateRoom p.db spec.name)
      (hrun : (Database.createCollection ⟨p.config, now, invNorm⟩ spec p.db).run device p.storage = ((.ok (), db'), t)) :
      Step opens may invNorm p M ⟨p.config, db', t⟩ (Function.update M spec.name (some noDocs))
  | drop {p : Site} {M : Str → Option DocMap} (now : UInt64) (name : Str) {db' : Database} {t : MemoryStorage}
      (hroom : DropRoom p.db)
      (hrun : (Database.dropCollection ⟨p.config, now, invNorm⟩ name p.db).run device p.storage = ((.ok (), db'), t)) :
      Step opens may invNorm p M ⟨p.config, db', t⟩ (Function.update M name none)
  | edit {p : Site} {M : Str → Option DocMap} (now : UInt64) (name : Str) (e : Edit) {sess : Session}
      {r : Except DbError EditAnswer} {db' : Database} {t : MemoryStorage} (hsess : p.db.session name = some sess)
      (hmay : may ⟨p.config, now, invNorm⟩ sess e)
      (hrun : (Database.onCollection name (e.act ⟨p.config, now, invNorm⟩) p.db).run device p.storage = ((r, db'), t)) :
      Step opens may invNorm p M ⟨p.config, db', t⟩ (Function.update M name ((M name).map (e.leaves r)))
  | close {p : Site} {M : Str → Option DocMap} (now : UInt64) {r : Except DbError Unit} {db' : Database} {t : MemoryStorage}
      (hmay : MayFlush may ⟨p.config, now, invNorm⟩ p.db.collections.keys p.db p.storage)
      (hrun : (Database.close ⟨p.config, now, invNorm⟩ p.db).run device p.storage = ((r, db'), t)) :
      Step opens may invNorm p M ⟨p.config, db', t⟩ M
  | reopen {p : Site} {M : Str → Option DocMap} (config : Config) (now counter : UInt64) {db' : Database} {t : MemoryStorage}
      (hopens : opens config) (hro : config.readOnly = false)
      (hrun : (Database.open ⟨config, now, invNorm⟩ counter ()).run device p.storage = ((.ok db', ()), t)) :
      Step opens may invNorm p M ⟨config, db', t⟩ M

/-- **A run** of a database, which is made on empty storage. -/
inductive Run (opens : Config → Prop) (may : Env → Session → Edit → Prop) (invNorm : InvNorm) :
    Site → (Str → Option DocMap) → Prop
  | start (config : Config) (now counter : UInt64) {db : Database} {t : MemoryStorage} (hopens : opens config)
      (hrun : (Database.open ⟨config, now, invNorm⟩ counter ()).run device MemoryStorage.new = ((.ok db, ()), t)) :
      Run opens may invNorm ⟨config, db, t⟩ (fun _ => none)
  | step {p p' : Site} {M M' : Str → Option DocMap} (h : Run opens may invNorm p M) (hstep : Step opens may invNorm p M p' M') :
      Run opens may invNorm p' M'

/-! ## The invariant -/

/-- **A site stands for documents**: the process's database and both images of the storage are of the same collections, of
    which no writes are pending that a view misses, and there is no log of any other. -/
structure Site.Stands (p : Site) (sel : Sel) (invNorm : InvNorm) (G : Str → Option Ghost) : Prop where
  state : ∀ now, DbState ⟨p.config, now, invNorm⟩ sel p.db p.storage G G
  steady : Steady sel p.db.store p.storage
  writable : p.config.readOnly = false
  synced : sel = .live ∨ p.config.durability = .full
  noLogs : ∀ name, G name = none → p.storage.image .live (.walFile name 1) = none

section Keep

variable {sel : Sel} {invNorm : InvNorm} {config : Config} {db : Database} {s : MemoryStorage} {G D : Str → Option Ghost}

/-- The clock is not part of a database. -/
theorem DbState.anytime {now : UInt64} (h : DbState ⟨config, now, invNorm⟩ sel db s G D) (now' : UInt64) :
    DbState ⟨config, now', invNorm⟩ sel db s G D := by
  refine ⟨h.shape, h.live, h.seen, fun name coll hlook => ?_, h.all⟩
  obtain ⟨g, ops, docs, hname, hst⟩ := h.opened name coll hlook
  exact ⟨g, ops, docs, hname, hst.shape, hst.live, hst.seen⟩

/-- Two databases that differ from the same one alike are the same. -/
theorem DbState.same {env : Env} {G' D' : Str → Option Ghost} (h : DbState env sel db s G' D') (hG : Alike G G')
    (hD : Alike G D') : D' = G' := by
  funext name
  have hface := (hD name).trans (hG name).symm
  cases hg : G' name with
  | none =>
    rw [hg] at hface
    exact Option.map_eq_none_iff.mp hface
  | some g =>
    obtain ⟨coll, ops, docs, -, rfl, hst⟩ := h.collection hg
    have hd := hst.seen.there
    rw [hg, hd] at hface
    have hops : ops = g.ops := congrArg (fun f : Catalog × List LogOp × DocMap => f.2.1) (Option.some.inj hface)
    have hdocs : docs = g.docs := congrArg (fun f : Catalog × List LogOp × DocMap => f.2.2) (Option.some.inj hface)
    rw [hd, hops, hdocs]
    rfl

/-- **An operation on one collection** as a process of the database. -/
theorem onCollection_ends {α : Type} {name : Str} {m : Action Session α} {sess : Session} (hs : db.session name = some sess)
    {Q : Except DbError α → Database → MemoryStorage → Prop}
    (h : Ends device m sess s (fun r sess' t => Q r (db.take name sess') t)) :
    Ends device (Database.onCollection name m) db s Q := by
  obtain ⟨coll, hlook, rfl⟩ := Option.map_eq_some_iff.mp hs
  refine Ends.get_bind ?_
  rw [hlook]
  exact Ends.zoom h

theorem PutAnswers.leaves {cat : Catalog} {docs docs' : DocMap} {doc : DocumentInput} {answer r : Except DbError EditAnswer}
    (h : PutAnswers cat docs doc answer r docs') : docs' = (Edit.upsert doc).leaves r docs := by
  unfold PutAnswers at h
  cases hcheck : checkDoc cat doc with
  | error err =>
    rw [hcheck] at h
    rw [h.1, h.2]; rfl
  | ok u =>
    rw [hcheck] at h
    rw [h.1, h.2]
    cases answer <;> rfl

/-- The documents that an answer goes with. -/
theorem Edit.Answers.leaves {e : Edit} {cat : Catalog} {w : WalWriter} {docs docs' : DocMap} {r : Except DbError EditAnswer}
    (h : e.Answers cat w docs r docs') : docs' = e.leaves r docs := by
  cases e with
  | insert doc => exact PutAnswers.leaves h
  | upsert doc => exact PutAnswers.leaves h
  | delete id => rw [h.1, h.2]; rfl
  | writeBatch batch =>
    dsimp only [Edit.Answers] at h
    split at h
    · rw [h.1, h.2]; rfl
    · rw [h.1, h.2]; rfl
  | flush => rw [h.1, h.2]; rfl
  | compact options =>
    obtain ⟨⟨report, hr⟩, hd⟩ := h
    rw [hr, hd]; rfl

end Keep

section Steps

variable {sel : Sel} {invNorm : InvNorm} {p : Site} {G : Str → Option Ghost} {now : UInt64}

/-- A collection of a site, of which no writes are pending that a view misses. -/
theorem Site.Stands.session (h : p.Stands sel invNorm G) {name : Str} {sess : Session} (hsess : p.db.session name = some sess)
    (now : UInt64) : ∃ g : Ghost, g.name = name ∧ State ⟨p.config, now, invNorm⟩ sel sess p.storage G G g g.ops g.docs := by
  obtain ⟨-, -, g, ops, docs, rfl, hst⟩ := (h.state now).session hsess
  have hsame := hst.seen.there
  rw [hst.live.here] at hsame
  have hops : ops = g.ops := (congrArg Ghost.ops (Option.some.inj hsame)).symm
  have hdocs : docs = g.docs := (congrArg Ghost.docs (Option.some.inj hsame)).symm
  subst hops hdocs
  exact ⟨g, rfl, hst⟩

/-- **An operation on one collection keeps the invariant.** -/
theorem Site.Stands.after (h : p.Stands sel invNorm G) {sess sess' : Session} {t : MemoryStorage} {g g' : Ghost}
    (hafter : After ⟨p.config, now, invNorm⟩ sel sess sess' p.storage t G G g g' g'.ops g'.docs)
    (hsess : p.db.session g.name = some sess) :
    (Site.mk p.config (p.db.take g.name sess') t).Stands sel invNorm (Function.update G g.name (some g')) := by
  obtain ⟨coll, -, rfl⟩ := Option.map_eq_some_iff.mp hsess
  refine ⟨fun now' => ((h.state now).take hafter).anytime now', hafter.steady h.steady, h.writable, h.synced,
    fun name hnone => ?_⟩
  have hne : name ≠ g.name := fun heq => by rw [heq, Function.update_self] at hnone; cases hnone
  rw [Function.update_of_ne hne] at hnone
  show t.image .live _ = none
  rw [hafter.others name hne]
  exact h.noLogs name hnone

/-- **An edit keeps the invariant**, and answers what the map answers. -/
theorem Site.Stands.edit (h : p.Stands sel invNorm G) {name : Str} {e : Edit} {sess : Session}
    (hsess : p.db.session name = some sess) (hfits : e.Fits ⟨p.config, now, invNorm⟩ sess) :
    Ends device (Database.onCollection name (e.act ⟨p.config, now, invNorm⟩)) p.db p.storage (fun r db' t =>
      ∃ g g', G name = some g ∧ g'.cat = g.cat ∧
        (Site.mk p.config db' t).Stands sel invNorm (Function.update G name (some g')) ∧ e.Answers g.cat sess.wal g.docs r g'.docs) := by
  obtain ⟨g, rfl, hst⟩ := h.session hsess now
  refine onCollection_ends hsess ((Edit.ends hst h.writable h.synced hfits).mono (fun r sess' t hr => ?_))
  obtain ⟨g', hafter, hanswers⟩ := hr
  exact ⟨g, g', hst.live.here, hafter.cat, h.after hafter hsess, hanswers⟩

/-- **A flush keeps the invariant** and the documents. -/
theorem Site.Stands.flush (h : p.Stands sel invNorm G) {name : Str} {sess : Session} (hsess : p.db.session name = some sess)
    (hfits : Edit.Fits ⟨p.config, now, invNorm⟩ sess .flush) :
    Ends device (Database.onCollection name (Engine.flush ⟨p.config, now, invNorm⟩)) p.db p.storage (fun _ db' t =>
      ∃ G', (Site.mk p.config db' t).Stands sel invNorm G' ∧ docsOf G' = docsOf G) := by
  obtain ⟨g, rfl, hst⟩ := h.session hsess now
  have hflush : Ends device (Engine.flush ⟨p.config, now, invNorm⟩) sess p.storage _ :=
    Ends.of_answer (Edit.ends hst h.writable h.synced hfits)
  refine onCollection_ends hsess (hflush.mono (fun r sess' t hr => ?_))
  obtain ⟨g', hafter, -, hdocs⟩ := hr
  exact ⟨_, h.after hafter hsess, docsOf_update_same hst.live.here hdocs⟩

/-- **The flushes of a close.** -/
theorem Site.Stands.flushes (h : p.Stands sel invNorm G) {names : List Str}
    (hmay : MayFlush Edit.Fits ⟨p.config, now, invNorm⟩ names p.db p.storage) :
    Ends device (Proc.forList (fun name => Database.onCollection name (Engine.flush ⟨p.config, now, invNorm⟩)) names) p.db
      p.storage (fun _ db' t => ∃ G', (Site.mk p.config db' t).Stands sel invNorm G' ∧ docsOf G' = docsOf G) := by
  obtain ⟨config, db, s⟩ := p
  induction names generalizing db s G with
  | nil => exact Ends.pure ⟨G, h, rfl⟩
  | cons name names ih =>
    obtain ⟨hfits, hrest⟩ := hmay
    cases hsess : db.session name with
    | none =>
      have hthrow : Ends device (Database.onCollection name (Engine.flush ⟨config, now, invNorm⟩)) db s (fun r db' t =>
          r = .error (.collectionNotFound name) ∧ db' = db ∧ t = s) := by
        refine Ends.get_bind ?_
        rw [Option.map_eq_none_iff.mp hsess]
        exact Ends.throw ⟨rfl, rfl, rfl⟩
      refine hthrow.seq (fun _ _ _ hr => by cases hr.1) (fun e db' t hr => ?_)
      obtain ⟨-, rfl, rfl⟩ := hr
      exact ⟨G, h, rfl⟩
    | some sess =>
      refine (h.flush hsess (hfits sess hsess)).with_run.seq (fun u db' t hr => ?_) (fun e db' t hr => hr.1)
      obtain ⟨⟨G', hst, hdocs⟩, hrun⟩ := hr
      rw [hrun] at hrest
      refine (ih db' t hst hrest).mono (fun _ db'' t' hr => ?_)
      obtain ⟨G'', hst', hdocs'⟩ := hr
      exact ⟨G'', hst', hdocs'.trans hdocs⟩

/-- **A close keeps the invariant** and the documents. -/
theorem Site.Stands.close (h : p.Stands sel invNorm G)
    (hmay : MayFlush Edit.Fits ⟨p.config, now, invNorm⟩ p.db.collections.keys p.db p.storage) :
    Ends device (Database.close ⟨p.config, now, invNorm⟩) p.db p.storage (fun _ db' t =>
      ∃ G', (Site.mk p.config db' t).Stands sel invNorm G' ∧ docsOf G' = docsOf G) := by
  unfold Database.close Database.flushAll
  rw [h.writable]
  exact Ends.get_bind (h.flushes hmay)

/-- **Only a specification that the engine can rely on** makes a collection. -/
theorem createCollection_checks {env : Env} {db : Database} {s : MemoryStorage} (hro : env.config.readOnly = false)
    (spec : Database.CollectionSpec) : Ends device (Database.createCollection env spec) db s (fun r _ _ => r = .ok () →
      spec.validate = .ok () ∧ spec.idKind ≠ .str 0 ∧ db.collections.lookup spec.name = none) := by
  refine Ends.done_bind (checkWritable_done hro _ db) (Ends.lift_bind (fun u hvalid => Ends.get_bind ?_)
    (fun e _ h => by cases h))
  cases hlook : db.collections.lookup spec.name with
  | some coll => exact Ends.throw (fun h => by cases h)
  | none =>
    by_cases hkind : spec.idKind = .str 0
    · -- the specification cannot be written
      have hdim : ¬ (spec.dimension = 0 ∨ maxDimension < spec.dimension) := fun hbad => by
        obtain ⟨u', -, hdim⟩ := Parsing.except_bind_eq_ok.mp hvalid
        rw [if_pos hbad] at hdim; cases hdim
      rw [not_or] at hdim
      have hencode : ∃ e, (spec.catalog env.nowMs).encode = .error e := by
        unfold Catalog.encode Catalog.validate
        rw [if_neg (show ¬ (spec.catalog env.nowMs).dimension = 0 from hdim.1),
          if_neg (show ¬ maxDimension < (spec.catalog env.nowMs).dimension from hdim.2)]
        split
        · exact ⟨_, rfl⟩
        · rw [if_pos (show (spec.catalog env.nowMs).idKind = .str 0 from hkind)]
          exact ⟨_, rfl⟩
      obtain ⟨e, he⟩ := hencode
      have hwrite : Ends device (writeCatalog (spec.catalog env.nowMs) : Action Database Unit) db s (fun r _ _ => ∃ e, r = .error e) := by
        refine Ends.lift_bind (fun path _ => Ends.lift_bind (fun dir _ => ?_) (fun e _ => ⟨e, rfl⟩)) (fun e _ => ⟨e, rfl⟩)
        have hany : Ends device (call (.createDirAll dir) : Action Database Unit) db s (fun _ _ _ => True) := trivial
        refine hany.seq (fun _ x' s' _ => ?_) (fun e _ _ _ => ⟨e, rfl⟩)
        rw [he]
        exact Ends.lift_bind (fun a ha => by cases ha) (fun e _ => ⟨e, rfl⟩)
      refine hwrite.seq (fun _ _ _ hr => by obtain ⟨e, hr⟩ := hr; cases hr) (fun e _ _ _ h => by cases h)
    · exact fun _ => ⟨hvalid, hkind, rfl⟩

/-- **A creation keeps the invariant.** -/
theorem Site.Stands.create (h : p.Stands sel invNorm G) {spec : Database.CollectionSpec} (hroom : CreateRoom p.db spec.name)
    {db' : Database} {t : MemoryStorage}
    (hrun : (Database.createCollection ⟨p.config, now, invNorm⟩ spec p.db).run device p.storage = ((.ok (), db'), t)) :
    ∃ g : Ghost, g.cat = spec.catalog now ∧ g.ops = [] ∧ g.docs = noDocs ∧
      (Site.mk p.config db' t).Stands sel invNorm (Function.update G spec.name (some g)) := by
  have hchecks : Ends device (Database.createCollection ⟨p.config, now, invNorm⟩ spec) p.db p.storage _ :=
    createCollection_checks h.writable spec
  obtain ⟨hvalid, hkind, hnew⟩ := hchecks.of_run hrun rfl
  have hspec := createCollection_spec (h.state now) h.steady h.writable hvalid hkind hnew
    (h.noLogs _ ((h.state now).absent hnew)) hroom
  obtain ⟨u, db1, t1, hrun1, g, hcat, hops, hdocs, hstate, hsteady, hothers⟩ := hspec.runs
  rw [hrun] at hrun1
  obtain ⟨⟨-, rfl⟩, rfl⟩ := hrun1
  refine ⟨g, hcat, hops, hdocs, fun now' => hstate.anytime now', hsteady, h.writable, h.synced, fun name hnone => ?_⟩
  have hne : name ≠ spec.name := fun heq => by rw [heq, Function.update_self] at hnone; cases hnone
  rw [Function.update_of_ne hne] at hnone
  show t.image .live _ = none
  rw [hothers name hne]
  exact h.noLogs name hnone

/-- **A drop keeps the invariant.** -/
theorem Site.Stands.drop (h : p.Stands sel invNorm G) {name : Str} (hroom : DropRoom p.db) {db' : Database} {t : MemoryStorage}
    (hrun : (Database.dropCollection ⟨p.config, now, invNorm⟩ name p.db).run device p.storage = ((.ok (), db'), t)) :
    ∃ G', (Site.mk p.config db' t).Stands sel invNorm G' ∧ docsOf G' = Function.update (docsOf G) name none := by
  cases hlook : p.db.collections.lookup name with
  | none =>
    have hthrow : Ends device (Database.dropCollection ⟨p.config, now, invNorm⟩ name) p.db p.storage (fun r _ _ =>
        r = .error (.collectionNotFound name)) := by
      refine Ends.done_bind (checkWritable_done h.writable _ p.db) (Ends.get_bind ?_)
      rw [hlook]
      exact Ends.throw rfl
    cases hthrow.of_run hrun
  | some coll =>
    have hthere : (G name).isSome = true := by rw [(h.state now).all, hlook]; rfl
    obtain ⟨-, hstate, hsteady, hlogs⟩ := (dropCollection_ends (h.state now) h.steady h.writable hthere hroom).of_run hrun
    refine ⟨_, ⟨fun now' => hstate.anytime now', hsteady, h.writable, h.synced, fun other hnone => ?_⟩, ?_⟩
    · show t.image .live _ = none
      rw [hlogs]
      split
      · rfl
      · rename_i hn
        rw [Function.update_of_ne hn] at hnone
        exact h.noLogs other hnone
    · funext other
      unfold docsOf
      by_cases hn : other = name
      · rw [hn, Function.update_self, Function.update_self]; rfl
      · rw [Function.update_of_ne hn, Function.update_of_ne hn]

/-- **The next open succeeds**, by any configuration that may write. -/
theorem Site.Stands.opens (h : p.Stands sel invNorm G) {config : Config} (hvalid : config.validate = .ok ())
    (hro : config.readOnly = false) (now counter : UInt64) :
    ∃ db' t, (Database.open ⟨config, now, invNorm⟩ counter ()).run device p.storage = ((.ok db', ()), t) := by
  have hspec : Spec sel (Database.open ⟨config, now, invNorm⟩ counter) () p.storage _ _ _ :=
    Database.open_spec ((h.state now).rests h.steady) hvalid hro
  obtain ⟨db', u, t, hrun, -⟩ := hspec.runs
  exact ⟨db', t, hrun⟩

/-- **Opening again** finds the documents of the process before. -/
theorem Site.Stands.reopen (h : p.Stands sel invNorm G) {config : Config} {counter : UInt64} (hro : config.readOnly = false)
    (hsync : sel = .live ∨ config.durability = .full) {db' : Database} {t : MemoryStorage}
    (hrun : (Database.open ⟨config, now, invNorm⟩ counter ()).run device p.storage = ((.ok db', ()), t)) :
    ∃ G', (Site.mk config db' t).Stands sel invNorm G' ∧ docsOf G' = docsOf G := by
  have hvalid : config.validate = .ok () := by
    cases hv : config.validate with
    | ok u => rfl
    | error e =>
      have hthrow : Ends device (Database.open ⟨config, now, invNorm⟩ counter) () p.storage (fun r _ _ => r = .error e) := by
        unfold Database.open
        rw [hv]
        exact Ends.lift_bind (fun a ha => by cases ha) (fun e' he => by cases he; rfl)
      cases hthrow.of_run hrun
  have hrest := (h.state now).rests h.steady
  have hspec : Spec sel (Database.open ⟨config, now, invNorm⟩ counter) () p.storage _ _ _ :=
    Database.open_spec hrest hvalid hro
  obtain ⟨db1, u, t1, hrun1, -, hstore, ⟨G', D', hstate, hG, hD⟩, -, hsteady, hlogs⟩ := hspec.runs
  rw [hrun] at hrun1
  obtain ⟨⟨rfl, -⟩, rfl⟩ := hrun1
  obtain rfl := hstate.same hG hD
  refine ⟨_, ⟨fun now' => hstate.anytime now', by rw [hstore]; exact hsteady, hro, hsync, fun name hnone => ?_⟩, hG.docsOf⟩
  have hnone' : G name = none := Option.not_isSome_iff_eq_none.mp (by rw [← hG.isSome, hnone]; exact Bool.false_ne_true)
  have hlog := h.noLogs name hnone'
  show t.image .live _ = none
  unfold MemoryStorage.image at hlog ⊢
  rw [hlogs name hnone']
  exact hlog

/-- **The first open** makes a database without collections. -/
theorem Site.Stands.new {config : Config} {counter : UInt64} (hsync : sel = .live ∨ config.durability = .full) {db : Database}
    {t : MemoryStorage}
    (hrun : (Database.open ⟨config, now, invNorm⟩ counter ()).run device MemoryStorage.new = ((.ok db, ()), t)) :
    (Site.mk config db t).Stands sel invNorm (fun _ => none) := by
  obtain ⟨hro, hstate, hsteady, hlogs⟩ := Database.open_new sel hrun
  exact ⟨fun now' => hstate.anytime now', hsteady, hro, hsync, fun name _ => hlogs name⟩

end Steps

section Runs

variable {opens : Config → Prop} {may : Env → Session → Edit → Prop} {sel : Sel} {invNorm : InvNorm}

theorem MayFlush.mono {may' : Env → Session → Edit → Prop} (hmay : ∀ env sess, may env sess .flush → may' env sess .flush)
    {env : Env} {names : List Str} {db : Database} {s : MemoryStorage} (h : MayFlush may env names db s) :
    MayFlush may' env names db s := by
  induction names generalizing db s with
  | nil => trivial
  | cons name names ih => exact ⟨fun sess hs => hmay env sess (h.1 sess hs), ih h.2⟩

/-- **A step keeps the invariant.** -/
theorem Step.stands {p p' : Site} {M M' : Str → Option DocMap} (hstep : Step opens may invNorm p M p' M')
    (hopens : ∀ c, opens c → sel = .live ∨ c.durability = .full) (hfits : ∀ env sess e, may env sess e → e.Fits env sess)
    (h : ∃ G, p.Stands sel invNorm G ∧ docsOf G = M) : ∃ G, p'.Stands sel invNorm G ∧ docsOf G = M' := by
  obtain ⟨G, hst, rfl⟩ := h
  cases hstep with
  | create now spec hroom hrun =>
    obtain ⟨g, -, -, hdocs, hst'⟩ := hst.create hroom hrun
    exact ⟨_, hst', by rw [docsOf_update, hdocs]⟩
  | drop now name hroom hrun => exact hst.drop hroom hrun
  | edit now name e hsess hmay hrun =>
    obtain ⟨g, g', hg, -, hst', hanswers⟩ := (hst.edit hsess (hfits _ _ _ hmay)).of_run hrun
    refine ⟨_, hst', ?_⟩
    rw [docsOf_update, hanswers.leaves]
    unfold docsOf
    rw [hg]
    rfl
  | close now hmay hrun => exact (hst.close (hmay.mono (fun _ _ h => hfits _ _ _ h))).of_run hrun
  | reopen config now counter hc hro hrun => exact hst.reopen hro (hopens _ hc) hrun

/-- **After every run** the documents are those that its operations leave. -/
theorem Run.stands {p : Site} {M : Str → Option DocMap} (h : Run opens may invNorm p M)
    (hopens : ∀ c, opens c → sel = .live ∨ c.durability = .full) (hfits : ∀ env sess e, may env sess e → e.Fits env sess) :
    ∃ G, p.Stands sel invNorm G ∧ docsOf G = M := by
  induction h with
  | start config now counter hc hrun => exact ⟨_, .new (hopens _ hc) hrun, rfl⟩
  | step _ hstep ih => exact hstep.stands hopens hfits ih

end Runs

/-! ## A run -/

section Example

def fullConfig : Config := ⟨true, false, .full, 2 ^ 63⟩

def zeroNorm : InvNorm := fun _ => ⟨0, Reader.finite32_zero⟩

def fullEnv : Env := ⟨fullConfig, 0, zeroNorm⟩

def theSpec : Database.CollectionSpec := ⟨⟨[100], utf8_d⟩, 1, .l2, .f32, .str 8, .flat⟩

/-- A document with one letter of content. -/
def docOf (content : UInt8) : DocumentInput := ⟨.str ⟨[0x61], utf8_a⟩, .raw .f32 [0, 0, 0, 0] 1, none, some [content]⟩

/-- A database that there is, or else one without a manifest. -/
def openedDb (r : Except DbError Database) : Database := match r with
  | .ok db => db
  | .error _ => ⟨⟨Manifest.new (newUuid 0 0) 0, .a⟩, ∅⟩

def newRun : (Except DbError Database × Unit) × MemoryStorage := (Database.open fullEnv 0 ()).run device MemoryStorage.new

def madeRun : (Except DbError Unit × Database) × MemoryStorage :=
  (Database.createCollection fullEnv theSpec (openedDb newRun.1.1)).run device newRun.2

/-- **A database with one collection**, made on empty storage. -/
def madeSite : Site := ⟨fullConfig, madeRun.1.2, madeRun.2⟩

theorem newRun_eq : newRun = ((.ok (openedDb newRun.1.1), ()), newRun.2) := by
  have hok : newRun.1.1.isOk = true := by decide +kernel
  rcases hrun : newRun with ⟨⟨r, u⟩, t⟩
  rw [hrun] at hok
  cases r with
  | error e => cases hok
  | ok db => rfl

theorem madeRun_eq : madeRun = ((.ok (), madeRun.1.2), madeRun.2) := by
  have hok : madeRun.1.1.isOk = true := by decide +kernel
  rcases hrun : madeRun with ⟨⟨r, db⟩, t⟩
  rw [hrun] at hok
  cases r with
  | error e => cases hok
  | ok u => rfl

theorem newRun_room : CreateRoom (openedDb newRun.1.1) theSpec.name := ⟨by decide +kernel, by decide +kernel⟩

theorem madeSite_run (opens : Config → Prop) (may : Env → Session → Edit → Prop) (hopens : opens fullConfig) :
    Run opens may zeroNorm madeSite (Function.update (fun _ => none) theSpec.name (some noDocs)) :=
  .step (.start fullConfig 0 0 hopens newRun_eq) (.create 0 theSpec newRun_room madeRun_eq)

theorem madeSite_stands (sel : Sel) : ∃ g, madeSite.Stands sel zeroNorm (Function.update (fun _ => none) theSpec.name (some g)) ∧
    g.cat = theSpec.catalog 0 ∧ g.ops = [] ∧ g.docs = noDocs := by
  have hnew : (Site.mk fullConfig (openedDb newRun.1.1) newRun.2).Stands sel zeroNorm (fun _ => none) :=
    .new (.inr rfl) newRun_eq
  obtain ⟨g, hcat, hops, hdocs, hst⟩ := hnew.create newRun_room madeRun_eq
  exact ⟨g, hst, hcat, hops, hdocs⟩

end Example

end IshaVectorDb.Engine
