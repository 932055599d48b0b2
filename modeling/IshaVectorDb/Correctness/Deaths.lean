import IshaVectorDb.Correctness.BatchCounts
import IshaVectorDb.Correctness.CutCreations

/-!
# `Correctness.Deaths` — where a process dies **and nothing shows**

A flush and a compaction change no document, and a process that dies inside one leaves what there was
(`Life.survives_flush`, `Run.survives_compaction`): all but the death that tears the bitmap of an older segment, which a flush
rewrites in place. Under full durability the power may go inside any operation (`Run.survives_power_loss`). All this is about
ids that the log can give back: a single deletion logs any id, and no process opens the log again
(`deletion_stops_opening`).
-/

namespace IshaVectorDb.Engine

open Format Interaction KeyLog

/-- **Every open of the storage succeeds**, has these documents, and leaves no segment file that the manifest does not name. -/
def Reopens (invNorm : InvNorm) (s : MemoryStorage) (M : Str → Option DocMap) : Prop :=
  ∀ config now counter, config.validate = .ok () → config.readOnly = false →
    ∃ db u, (Database.open ⟨config, now, invNorm⟩ counter ()).run device s = ((.ok db, ()), u) ∧ db.Has M ∧ NoOrphans db.store u

section Keep

variable {sel : Sel} {invNorm : InvNorm} {p : Site} {M : Str → Option DocMap} {now : UInt64}

theorem AtRest.reopens {s : MemoryStorage} {store : ManifestStore} {G : Str → Option Ghost} (h : AtRest sel s store G G) :
    Reopens invNorm s (docsOf G) := by
  intro config now counter hvalid hro
  have hspec : Spec sel (Database.open ⟨config, now, invNorm⟩ counter) () s _ _ _ := Database.open_spec h hvalid hro
  obtain ⟨db, u, t, hrun, -, hstore, ⟨G', D', hstate, hG, hD⟩, hclean, -⟩ := hspec.runs
  obtain rfl := hstate.same hG hD
  exact ⟨db, t, hrun, hG.docsOf ▸ hstate.has, hstore ▸ hclean⟩

theorem Leaves.reopens {s : MemoryStorage} (h : Leaves sel s M) : Reopens invNorm s M := by
  obtain ⟨store, G, hrest, rfl, -⟩ := h
  exact hrest.reopens

/-- **A death inside an operation that writes no document** leaves the documents. -/
theorem Site.Stands.diedQuietly {G : Str → Option Ghost} (h : p.Stands sel invNorm G) (htidy : Tidy p.storage (docsOf G))
    {name : Str} {e : Edit} (hquiet : e.writes = []) {sess : Session} (hsess : p.db.session name = some sess)
    (hfits : e.Fits ⟨p.config, now, invNorm⟩ sess) {i n : Nat} {c : Call} {t : MemoryStorage}
    (hdies : (Database.onCollection name (e.act ⟨p.config, now, invNorm⟩) p.db).dieAt device p.storage i n = some (c, t))
    (hwhole : sel = .live → ¬ e.Tears sess c n) : Leaves sel (sel.left t) (docsOf G) := by
  obtain ⟨M', hM', hleaves⟩ := h.died htidy hsess hfits hdies hwhole
  have hsame : M' = docsOf G := by
    rcases hM' with rfl | rfl
    · rfl
    · rw [hquiet, show (fun docs : DocMap => replay docs []) = id from rfl, Option.map_id, id_eq, Function.update_eq_self]
  exact hsame ▸ hleaves

/-- **A process that dies inside a flush** has lost nothing, if it was not rewriting the bitmap of an older segment: the next open
    succeeds, and finds the documents that the process had. -/
theorem Life.survives_flush {Ms : (Str → Option DocMap) → Prop} (h : Life (fun _ => True) Edit.Fits .live invNorm (.running p) Ms)
    {name : Str} {sess : Session} (hsess : p.db.session name = some sess)
    (hroom : Edit.flush.Fits ⟨p.config, now, invNorm⟩ sess) {i n : Nat} {c : Call} {t : MemoryStorage}
    (hdies : (Database.onCollection name (Edit.flush.act ⟨p.config, now, invNorm⟩) p.db).dieAt device p.storage i n = some (c, t))
    (hwhole : ¬ TearsBitmap sess c n) : ∃ M, Ms M ∧ p.db.Has M ∧ Reopens invNorm t M := by
  obtain ⟨_, hM, ⟨G, hst, rfl⟩, htidy⟩ := h.holds (fun _ _ => .inl rfl)
  exact ⟨_, hM, (hst.state 0).has, (hst.diedQuietly htidy rfl hsess hroom hdies (fun _ => hwhole)).reopens⟩

/-- **A process that dies inside a compaction** has lost nothing, and leaves no segment file behind for good. -/
theorem Run.survives_compaction (h : Run (fun _ => True) Edit.Fits invNorm p M) {name : Str} {sess : Session}
    (hsess : p.db.session name = some sess) (options : CompactOptions)
    (hroom : (Edit.compact options).Fits ⟨p.config, now, invNorm⟩ sess) {i n : Nat} {c : Call} {t : MemoryStorage}
    (hdies : (Database.onCollection name ((Edit.compact options).act ⟨p.config, now, invNorm⟩) p.db).dieAt device p.storage i n =
      some (c, t)) : p.db.Has M ∧ Reopens invNorm t M := by
  obtain ⟨⟨G, hst, rfl⟩, htidy⟩ := h.tidy (show ∀ c, True → Sel.live = .live ∨ _ from fun _ _ => .inl rfl)
  exact ⟨(hst.state 0).has, (hst.diedQuietly htidy rfl hsess hroom hdies (fun _ => id)).reopens⟩

/-! ## Power losses -/

/-- An operation on a collection dies where the collection's own does. -/
theorem onCollection_deaths {α : Type} {db : Database} {name : Str} {sess : Session} (hsess : db.session name = some sess)
    {m : Action Session α} {I : Call → Nat → MemoryStorage → Prop} {s : MemoryStorage} :
    (Database.onCollection name m db).Deaths device I s ↔ (m sess).Deaths device I s := by
  obtain ⟨coll, hlook, rfl⟩ := Option.map_eq_some_iff.mp hsess
  have hzoom : Database.onCollection name m db =
      (m ⟨db.store, coll⟩).bind (fun r => .pure (r.1, db.take name r.2)) := by
    unfold Database.onCollection
    rw [Proc.get_bind, hlook]
    rfl
  rw [hzoom, Prog.deaths_bind]
  exact and_iff_left trivial

/-- **The deaths inside the flushes of a close** leave the documents. -/
theorem Site.Stands.diedFlushing {G : Str → Option Ghost} (h : p.Stands .durable invNorm G) (htidy : Tidy p.storage (docsOf G))
    {names : List Str} (hmay : MayFlush Edit.Fits ⟨p.config, now, invNorm⟩ names p.db p.storage) :
    (Proc.forList (fun name => Database.onCollection name (Engine.flush ⟨p.config, now, invNorm⟩)) names p.db).Deaths device
      (fun _ _ t => Leaves .durable t.simulatePowerLoss (docsOf G)) p.storage := by
  obtain ⟨config, db, s⟩ := p
  induction names generalizing db s G with
  | nil => trivial
  | cons name names ih =>
    obtain ⟨hfits, hrest⟩ := hmay
    cases hsess : db.session name with
    | none =>
      have hnone : Database.onCollection name (Engine.flush ⟨config, now, invNorm⟩) db = .pure (.error (.collectionNotFound name), db) := by
        unfold Database.onCollection
        rw [Proc.get_bind, Option.map_eq_none_iff.mp hsess]
        rfl
      refine Triple.deaths_bind_failed ?_ (congrArg (fun m => (Prog.run device m s).1.1) hnone)
      show (Database.onCollection name (Engine.flush ⟨config, now, invNorm⟩) db).Deaths device _ s
      rw [hnone]
      trivial
    | some sess =>
      have hdead : (Database.onCollection name (Edit.flush.act ⟨config, now, invNorm⟩) db).Deaths device
          (fun _ _ t => Leaves .durable t.simulatePowerLoss (docsOf G)) s :=
        (Prog.deaths_iff _ _).mpr (fun i n c t hdies =>
          h.diedQuietly htidy rfl hsess (hfits sess hsess) hdies (fun hlive => by cases hlive))
      have hdead' : (Database.onCollection name (Engine.flush ⟨config, now, invNorm⟩) db).Deaths device
          (fun _ _ t => Leaves .durable t.simulatePowerLoss (docsOf G)) s := by
        rw [onCollection_deaths hsess] at hdead ⊢
        exact ((Prog.deaths_bind _ _ _).mp hdead).1
      refine (Prog.deaths_bind _ _ _).mpr ⟨hdead', ?_⟩
      rcases hrun : (Database.onCollection name (Engine.flush ⟨config, now, invNorm⟩) db).run device s with ⟨⟨r, db'⟩, t⟩
      rw [hrun] at hrest
      obtain ⟨G', hst, hdocs⟩ := (h.flush hsess (hfits sess hsess)).of_run hrun
      have htidy' : Tidy t (docsOf G') := fun other => by
        rw [hdocs]
        exact ((onCollection_spares name (flush_spares _)).run hrun).trans (htidy other)
      cases r with
      | error e => trivial
      | ok u =>
        rw [← hdocs]
        exact ih db' t hst htidy' hrest

/-- **The power goes**: between two operations, inside an edit of a collection, or inside a close or an open. -/
inductive PowerGoes (invNorm : InvNorm) (p : Site) : Option (Str × Edit) → MemoryStorage → Prop
  | between : PowerGoes invNorm p none p.storage
  | editing (now : UInt64) {name : Str} {e : Edit} {sess : Session} {i n : Nat} {c : Call} {t : MemoryStorage}
      (hsess : p.db.session name = some sess) (hfits : e.Fits ⟨p.config, now, invNorm⟩ sess)
      (hdies : (Database.onCollection name (e.act ⟨p.config, now, invNorm⟩) p.db).dieAt device p.storage i n = some (c, t)) :
      PowerGoes invNorm p (some (name, e)) t
  | closing (now : UInt64) {i n : Nat} {c : Call} {t : MemoryStorage}
      (hmay : MayFlush Edit.Fits ⟨p.config, now, invNorm⟩ p.db.collections.keys p.db p.storage)
      (hdies : (Database.close ⟨p.config, now, invNorm⟩ p.db).dieAt device p.storage i n = some (c, t)) :
      PowerGoes invNorm p none t
  | opening (config : Config) (now counter : UInt64) {i n : Nat} {c : Call} {t : MemoryStorage} (hfull : config.durability = .full)
      (hro : config.readOnly = false)
      (hdies : (Database.open ⟨config, now, invNorm⟩ counter ()).dieAt device p.storage i n = some (c, t)) :
      PowerGoes invNorm p none t

/-- The documents once the operation in progress, if it writes any, has taken effect. -/
def doneDocs (M : Str → Option DocMap) : Option (Str × Edit) → Str → Option DocMap
  | none => M
  | some (name, e) => Function.update M name ((M name).map (fun docs => replay docs e.writes))

/-- **Under full durability a power loss costs nothing that was acknowledged**: the next open succeeds and finds the documents of
    all acknowledged operations, and the one in progress as a whole or not at all. -/
theorem Run.survives_power_loss (h : Run (fun config => config.durability = .full) Edit.Fits invNorm p M)
    {op : Option (Str × Edit)} {t : MemoryStorage} (hgoes : PowerGoes invNorm p op t) :
    ∃ M', (M' = M ∨ M' = doneDocs M op) ∧ Reopens invNorm t.simulatePowerLoss M' := by
  obtain ⟨⟨G, hst, rfl⟩, htidy⟩ := h.tidy (show ∀ c : Config, c.durability = .full → Sel.durable = .live ∨ c.durability = .full from
    fun _ hf => .inr hf)
  have hidle : Leaves .durable p.storage.simulatePowerLoss (docsOf G) :=
    (hst.state 0).seen.recovers.leaves (hst.state 0).shape htidy
  cases hgoes with
  | between => exact ⟨_, .inl rfl, hidle.reopens⟩
  | editing now hsess hfits hdies =>
    obtain ⟨M', hM', hleaves⟩ := hst.died htidy hsess hfits hdies (fun hlive => by cases hlive)
    exact ⟨M', hM', hleaves.reopens⟩
  | closing now hmay hdies =>
    have hdead : (Database.close ⟨p.config, now, invNorm⟩ p.db).Deaths device
        (fun _ _ t => Leaves .durable t.simulatePowerLoss (docsOf G)) p.storage := by
      unfold Database.close Database.flushAll
      rw [hst.writable]
      exact hst.diedFlushing htidy hmay
    exact ⟨_, .inl rfl, ((Prog.deaths_iff _ _).mp hdead _ _ _ _ hdies).reopens⟩
  | opening config now counter hfull hro hdies =>
    have hrests : Leaves .durable p.storage (docsOf G) := ⟨_, G, (hst.state 0).rests hst.steady, rfl, htidy⟩
    exact ⟨_, .inl rfl, (Leaves.diedOpening hrests hro hdies).reopens⟩

end Keep

/-! ## Where something shows -/

section Example

/-- The edit is one that a caller can hand over: the vectors are as long as they say. -/
def Edit.Handed (_ : Env) (_ : Session) : Edit → Prop
  | .insert doc => doc.vector.WellFormed
  | .upsert doc => doc.vector.WellFormed
  | _ => True

theorem Edit.Fits.handed {env : Env} {sess : Session} {e : Edit} (h : e.Fits env sess) : e.Handed env sess := by
  cases e with
  | insert doc => exact h.1
  | upsert doc => exact h.1
  | _ => trivial

theorem Run.mono {opens : Config → Prop} {may may' : Env → Session → Edit → Prop} {invNorm : InvNorm} {p : Site}
    {M : Str → Option DocMap} (h : Run opens may invNorm p M) (hmay : ∀ env sess e, may env sess e → may' env sess e) :
    Run opens may' invNorm p M := by
  induction h with
  | start config now counter hopens hrun => exact .start config now counter hopens hrun
  | step _ hstep ih =>
    refine .step ih ?_
    cases hstep with
    | create now spec hroom hrun => exact .create now spec hroom hrun
    | drop now name hroom hrun => exact .drop now name hroom hrun
    | edit now name e hsess hm hrun => exact .edit now name e hsess (hmay _ _ _ hm) hrun
    | close now hm hrun => exact .close now (hm.mono fun _ _ => hmay _ _ _) hrun
    | reopen config now counter hopens hro hrun => exact .reopen config now counter hopens hro hrun

/-- Whether there is room for one more segment and one more commit. -/
def Session.commits (s : Session) : Bool :=
  decide (s.nextSegmentId.toNat + 1 < 2 ^ 64) && decide (s.store.current.sequence.toNat + 1 < 2 ^ 64) &&
    decide (s.segments.length + 1 < 2 ^ 32) &&
    decide (manifestWeight s.store.current + (s.name.bytes.length + 24 * (s.segments.length + 1) + 64) + 36 < 2 ^ 64)

/-- Whether there is room for a segment of these ids. -/
def DocId.fitSegment (ids : List DocId) : Bool :=
  decide (dirPrefixLen + ids.length * dirEntryLen < 2 ^ 32) && decide ((ids.flatMap DocId.toBytes).length < 2 ^ 32)

/-- Whether an edit has room: one that writes, without a flush. -/
def Edit.roomy (sess : Session) : Edit → Bool
  | .flush => sess.commits && DocId.fitSegment (sess.memtable.liveRows.map MemRow.id)
  | .compact options => sess.commits && decide (dirPrefixLen + ((sess.segments.filter options.chooses).map SegmentData.liveCount).sum *
      dirEntryLen < 2 ^ 32) && decide ((((sess.segments.filter options.chooses).flatMap SegmentData.liveIds).flatMap
        DocId.toBytes).length < 2 ^ 32)
  | e => e.held sess

theorem Session.commits_room {sess : Session} (h : sess.commits = true) : CommitRoom sess := by
  unfold Session.commits at h
  simp only [Bool.and_eq_true, decide_eq_true_eq] at h
  exact ⟨h.1.1.1, h.1.1.2, h.1.2, h.2⟩

theorem Edit.roomy_fits {sess : Session} {e : Edit} (h : e.roomy sess = true) : e.Fits fullEnv sess := by
  cases e with
  | flush =>
    obtain ⟨hcommit, hids⟩ := (Bool.and_eq_true _ _).mp h
    obtain ⟨hdir, hheap⟩ := (Bool.and_eq_true _ _).mp hids
    refine fun _ => ⟨Session.commits_room hcommit, ?_, ?_⟩
    · rw [← List.length_map]
      exact of_decide_eq_true hdir
    · rw [← List.flatMap_map]
      exact of_decide_eq_true hheap
  | compact options =>
    obtain ⟨hrest, hheap⟩ := (Bool.and_eq_true _ _).mp h
    obtain ⟨hcommit, hdir⟩ := (Bool.and_eq_true _ _).mp hrest
    exact fun _ => ⟨Session.commits_room hcommit, of_decide_eq_true hdir, of_decide_eq_true hheap⟩
  | _ => exact Edit.held_fits h

/-- Whether an edit of the collection has room. -/
def roomyAt (p : Site) (e : Edit) : Bool := (p.db.session theSpec.name).any (fun sess => e.roomy sess)

theorem roomyAt_session {p : Site} {e : Edit} (h : roomyAt p e = true) :
    ∃ sess, p.db.session theSpec.name = some sess ∧ e.Fits fullEnv sess := by
  unfold roomyAt at h
  cases hsess : p.db.session theSpec.name with
  | none => rw [hsess] at h; cases h
  | some sess =>
    rw [hsess] at h
    exact ⟨sess, rfl, Edit.roomy_fits h⟩

/-- One edit more. -/
theorem Run.afterWrite {opens : Config → Prop} {may : Env → Session → Edit → Prop} {p : Site} {M : Str → Option DocMap}
    (h : Run opens may zeroNorm p M) (hconfig : p.config = fullConfig) {e : Edit} {sess : Session}
    (hsess : p.db.session theSpec.name = some sess) (hmay : may fullEnv sess e) : Run opens may zeroNorm (afterWrite p e)
      (Function.update M theSpec.name ((M theSpec.name).map (e.leaves (writeRun p e).1.1))) := by
  obtain ⟨config, db, storage⟩ := p
  cases hconfig
  exact h.step (.edit 0 theSpec.name e hsess hmay rfl)

/-- An id that is not of the collection's kind: its bytes are no text. -/
def foreignId : DocId := .u64 0xFFFFFFFFFFFFFFFF

/-- All segments are rewritten. -/
def rewriteAll : CompactOptions := ⟨fun _ _ => true⟩

/-- How a process ends up after an edit of the collection is cut off. -/
def cutOff (p : Site) (e : Edit) (i n : Nat) : Option (Call × MemoryStorage) :=
  (Database.onCollection theSpec.name (e.act fullEnv) p.db).dieAt device p.storage i n

/-- Whether a database opens. -/
def opensAgain (s : MemoryStorage) : Bool := ((Database.open fullEnv 0 ()).run device s).1.1.isOk

theorem opensAgain_of {s t : MemoryStorage} {db : Database} (h : (Database.open fullEnv 0 ()).run device s = ((.ok db, ()), t)) :
    opensAgain s = true := by
  unfold opensAgain
  rw [h]
  rfl

/-- Two databases that have the same documents say the same of each. -/
theorem Database.Has.contains_again {db db' : Database} {M : Str → Option DocMap} (h : db.Has M) (h' : db'.Has M) {name : Str}
    {sess : Session} (hsess : db.session name = some sess) (id : DocId) :
    ∃ sess', db'.session name = some sess' ∧ sess'.contains id = sess.contains id := by
  cases hdocs : M name with
  | none =>
    rw [h.none_else _ hdocs] at hsess
    cases hsess
  | some docs =>
    obtain ⟨sess₁, hsess₁, href₁⟩ := h.all _ _ hdocs
    obtain rfl := Option.some.inj (hsess.symm.trans hsess₁)
    obtain ⟨sess', hsess', href'⟩ := h'.all _ _ hdocs
    exact ⟨sess', hsess', (href'.contains id).trans (href₁.contains id).symm⟩

/-- Whether a database has a document in the collection. -/
def Database.shows (db : Database) (id : DocId) : Option Bool := (db.session theSpec.name).map (fun sess => sess.contains id)

/-- The collection with one document in a segment, which is deleted, but only in the log. -/
def deletedSite : Site := afterWrite flushSite (.delete (fill 0).id)

/-- It is not its own id that is deleted, but one that is not of the collection's kind. -/
def foreignSite : Site := afterWrite flushSite (.delete foreignId)

/-- **What the runs of the examples show**: where there is room, which documents there are, and where a call cuts off what. -/
@[mk_iff]
structure DeathsSeen : Prop where
  roomy_put : roomyAt madeSite (.upsert (fill 0)) = true
  roomy_delete : roomyAt flushSite (.delete (fill 0).id) = true
  roomy_compact : roomyAt flushSite (.compact rewriteAll) = true
  roomy_flush : roomyAt deletedSite .flush = true
  roomy_foreign : roomyAt foreignSite (.compact rewriteAll) = true
  there : flushSite.db.shows (fill 0).id = some true
  gone : deletedSite.db.shows (fill 0).id = some false
  append : (cutOff madeSite (.upsert (fill 0)) 0 3).isSome = true
  manifest : (cutOff deletedSite .flush 31 3).map (fun x => x.1.path) = some (.manifest .b)
  bitmap : (cutOff deletedSite .flush 18 1).map (fun x => opensAgain x.2) = some false
  removal : (cutOff flushSite (.compact rewriteAll) 36 0).map Prod.fst = some (.removeFile (.segmentFile theSpec.name 1 .directory))
  foreign : (cutOff foreignSite (.compact rewriteAll) 0 0).map (fun x => opensAgain x.2) = some false
  foreign_synced : opensAgain (afterWrite madeSite (.delete foreignId)).storage.simulatePowerLoss = false

theorem deathsSeen : DeathsSeen := deathsSeen_iff.mpr (by decide +kernel)

theorem deletedSite_run : ∃ M, Run (fun _ => True) Edit.Fits zeroNorm deletedSite M := by
  obtain ⟨M, docs, hrun, -⟩ := flushSite_run
  obtain ⟨sess, hsess, hfits⟩ := roomyAt_session (DeathsSeen.roomy_delete deathsSeen)
  exact ⟨_, hrun.afterWrite rfl hsess hfits⟩

theorem foreignSite_run : ∃ M, Run (fun _ => True) Edit.Handed zeroNorm foreignSite M := by
  obtain ⟨M, docs, hrun, -⟩ := flushSite_run
  obtain ⟨sess, hsess, -⟩ := roomyAt_session (DeathsSeen.roomy_delete deathsSeen)
  exact ⟨_, (hrun.mono fun _ _ _ => Edit.Fits.handed).afterWrite rfl hsess trivial⟩

/-- The manifest is half written when the process dies inside the flush: the document is still deleted behind the next open. -/
theorem survives_flush_torn : ∃ c t db u sess, cutOff deletedSite .flush 31 3 = some (c, t) ∧ (∃ slot, c.path = .manifest slot) ∧
    (Database.open fullEnv 0 ()).run device t = ((.ok db, ()), u) ∧ db.session theSpec.name = some sess ∧
    sess.contains (fill 0).id = false := by
  obtain ⟨M, hrun⟩ := deletedSite_run
  obtain ⟨Ms, hlife⟩ := hrun.life .live
  obtain ⟨sess, hsess, hfits⟩ := roomyAt_session (DeathsSeen.roomy_flush deathsSeen)
  obtain ⟨⟨c, t⟩, hdies, hpath⟩ := Option.map_eq_some_iff.mp (DeathsSeen.manifest deathsSeen)
  unfold cutOff at hdies
  have hwhole : ¬ TearsBitmap sess c 3 := by
    rintro ⟨-, seg, -, hseg⟩
    exact absurd (hpath.symm.trans hseg) (fun heq => by cases heq)
  obtain ⟨N, -, hhas, hreopens⟩ := Life.survives_flush hlife hsess hfits hdies hwhole
  obtain ⟨db, u, hopen, hhas', -⟩ := hreopens fullConfig 0 0 rfl rfl
  have hgone := DeathsSeen.gone deathsSeen
  unfold Database.shows at hgone
  rw [hsess] at hgone
  obtain ⟨sess', hsess', hsame⟩ := hhas.contains_again hhas' hsess (fill 0).id
  exact ⟨c, t, db, u, sess', hdies, ⟨_, hpath⟩, hopen, hsess', hsame.trans (Option.some.inj hgone)⟩

/-- The files of the old segment are half removed when the process dies inside the compaction: the document is still there behind
    the next open. -/
theorem survives_compaction_halfway : ∃ c t db u sess, cutOff flushSite (.compact rewriteAll) 36 0 = some (c, t) ∧
    c = .removeFile (.segmentFile theSpec.name 1 .directory) ∧
    (Database.open fullEnv 0 ()).run device t = ((.ok db, ()), u) ∧ db.session theSpec.name = some sess ∧
    sess.contains (fill 0).id = true ∧ NoOrphans db.store u := by
  obtain ⟨M, docs, hrun, hdocs⟩ := flushSite_run
  obtain ⟨sess, hsess, hfits⟩ := roomyAt_session (DeathsSeen.roomy_compact deathsSeen)
  obtain ⟨⟨c, t⟩, hdies, hcall⟩ := Option.map_eq_some_iff.mp (DeathsSeen.removal deathsSeen)
  unfold cutOff at hdies
  obtain ⟨hhas, hreopens⟩ := Run.survives_compaction hrun hsess rewriteAll hfits hdies
  obtain ⟨db, u, hopen, hhas', hclean⟩ := hreopens fullConfig 0 0 rfl rfl
  have hthere := DeathsSeen.there deathsSeen
  unfold Database.shows at hthere
  rw [hsess] at hthere
  obtain ⟨sess', hsess', hsame⟩ := hhas.contains_again hhas' hsess (fill 0).id
  exact ⟨c, t, db, u, sess', hdies, hcall, hopen, hsess', hsame.trans (Option.some.inj hthere), hclean⟩

/-- The power goes while the frame of a document is appended to the log, three bytes of it being written: the next open succeeds,
    and finds the document or not. -/
theorem survives_power_loss_append : ∃ c t db u M', cutOff madeSite (.upsert (fill 0)) 0 3 = some (c, t) ∧
    (Database.open fullEnv 0 ()).run device t.simulatePowerLoss = ((.ok db, ()), u) ∧ db.Has M' ∧
    (M' theSpec.name = some noDocs ∨ M' theSpec.name = some (replay noDocs (Edit.upsert (fill 0)).writes)) := by
  have hrun := madeSite_run (fun config => config.durability = .full) Edit.Fits rfl
  obtain ⟨sess, hsess, hfits⟩ := roomyAt_session (DeathsSeen.roomy_put deathsSeen)
  obtain ⟨⟨c, t⟩, hdies⟩ := Option.isSome_iff_exists.mp (DeathsSeen.append deathsSeen)
  unfold cutOff at hdies
  obtain ⟨M', hM', hreopens⟩ := Run.survives_power_loss hrun (.editing 0 hsess hfits hdies)
  obtain ⟨db, u, hopen, hhas, -⟩ := hreopens fullConfig 0 0 rfl rfl
  refine ⟨c, t, db, u, M', hdies, hopen, hhas, hM'.imp (fun heq => ?_) (fun heq => ?_)⟩
  · rw [heq, Function.update_self]
  · rw [heq]
    dsimp only [doneDocs]
    rw [Function.update_self, Function.update_self, Option.map_some]

/-- **A flush that is cut off behind the truncation of a bitmap's file** leaves a database that no process opens: the manifest names
    the segment. -/
theorem flush_tears_bitmap : ¬ ∀ p M, Run (fun _ => True) Edit.Fits zeroNorm p M → ∀ name sess, p.db.session name = some sess →
    Edit.flush.Fits ⟨p.config, 0, zeroNorm⟩ sess → ∀ i n c t,
      (Database.onCollection name (Edit.flush.act ⟨p.config, 0, zeroNorm⟩) p.db).dieAt device p.storage i n = some (c, t) →
        ∃ db u, (Database.open fullEnv 0 ()).run device t = ((.ok db, ()), u) := by
  intro hall
  obtain ⟨M, hrun⟩ := deletedSite_run
  obtain ⟨sess, hsess, hfits⟩ := roomyAt_session (DeathsSeen.roomy_flush deathsSeen)
  obtain ⟨⟨c, t⟩, hdies, hopens⟩ := Option.map_eq_some_iff.mp (DeathsSeen.bitmap deathsSeen)
  obtain ⟨db, u, hopen⟩ := hall _ M hrun theSpec.name sess hsess hfits 18 1 c t hdies
  exact absurd ((opensAgain_of hopen).symm.trans hopens) (by decide)

/-- **The deletion of an id that is not of the collection's kind** is acknowledged and logged, and no process opens the log again:
    so it is behind a compaction that is cut off at its first call. -/
theorem deletion_stops_compaction : ¬ ∀ p M, Run (fun _ => True) Edit.Handed zeroNorm p M → ∀ name sess,
    p.db.session name = some sess → ∀ options : CompactOptions, (Edit.compact options).Fits ⟨p.config, 0, zeroNorm⟩ sess → ∀ i n c t,
      (Database.onCollection name ((Edit.compact options).act ⟨p.config, 0, zeroNorm⟩) p.db).dieAt device p.storage i n =
        some (c, t) → ∃ db u, (Database.open fullEnv 0 ()).run device t = ((.ok db, ()), u) := by
  intro hall
  obtain ⟨M, hrun⟩ := foreignSite_run
  obtain ⟨sess, hsess, hfits⟩ := roomyAt_session (DeathsSeen.roomy_foreign deathsSeen)
  obtain ⟨⟨c, t⟩, hdies, hopens⟩ := Option.map_eq_some_iff.mp (DeathsSeen.foreign deathsSeen)
  obtain ⟨db, u, hopen⟩ := hall _ M hrun theSpec.name sess hsess rewriteAll hfits 0 0 c t hdies
  exact absurd ((opensAgain_of hopen).symm.trans hopens) (by decide)

/-- So it is where the power goes when the deletion has been synced. -/
theorem deletion_stops_opening : ¬ ∀ p M, Run (fun config => config.durability = .full) Edit.Handed zeroNorm p M →
    ∃ db u, (Database.open fullEnv 0 ()).run device p.storage.simulatePowerLoss = ((.ok db, ()), u) := by
  intro hall
  obtain ⟨sess, hsess, -⟩ := roomyAt_session (DeathsSeen.roomy_put deathsSeen)
  have hrun := (madeSite_run (fun config => config.durability = .full) Edit.Handed rfl).afterWrite rfl hsess
    (show Edit.Handed fullEnv sess (.delete foreignId) from trivial)
  obtain ⟨db, u, hopen⟩ := hall _ _ hrun
  exact absurd ((opensAgain_of hopen).symm.trans (DeathsSeen.foreign_synced deathsSeen)) (by decide)

end Example

end IshaVectorDb.Engine
