import IshaVectorDb.Correctness.Deaths
import IshaVectorDb.Correctness.FailedUpkeep

/-!
# `Correctness.Retrying` — a flush or a compaction that failed **can be made again**

Upkeep that fails at a call it can do without changes nothing that a reader sees, and leaves the process able to go on: the same
operation succeeds later, and the documents are the acknowledged ones behind that, and behind a death inside it
(`Weathered.flush_retried`, `Weathered.compaction_fails`). The calls that it cannot do without are those of `flush_forgets`, where a bitmap is
not written and not tried again, and of `compaction_empties`, where the list of segments is empty until the new one is read.
-/

namespace IshaVectorDb.Engine

open Format Interaction KeyLog

/-- The edit rewrites files and no document. -/
def Edit.IsUpkeep : Edit → Prop
  | .flush => True
  | .compact _ => True
  | _ => False

theorem Edit.IsUpkeep.writes {e : Edit} (h : e.IsUpkeep) : e.writes = [] := by
  cases e with
  | flush => rfl
  | compact options => rfl
  | _ => cases h

/-- On the map it always succeeds. -/
theorem Edit.IsUpkeep.answers {e : Edit} (h : e.IsUpkeep) {cat : Catalog} {w : WalWriter} {docs docs' : DocMap}
    {r : Except DbError EditAnswer} (ha : e.Answers cat w docs r docs') : ∃ a, r = .ok a := by
  cases e with
  | flush => exact ⟨_, ha.1⟩
  | compact options =>
    obtain ⟨⟨report, hr⟩, -⟩ := ha
    exact ⟨_, hr⟩
  | _ => cases h

section Keep

variable {invNorm : InvNorm} {calm : Bool} {p : Site} {G : Str → Option Ghost} {M : Str → Option DocMap} {now : UInt64}

theorem Site.GoesOn.reopens (h : p.GoesOn invNorm G) : Reopens invNorm p.storage (docsOf G) := by
  obtain ⟨store, hrest⟩ := (h.state 0).atRest
  exact hrest.reopens

/-- **A death inside an operation that writes no document**, of a process in which calls have failed. -/
theorem Site.GoesOn.diedQuietly (h : p.GoesOn invNorm G) {name : Str} {e : Edit} (hquiet : e.writes = []) {sess : Session}
    (hsess : p.db.session name = some sess) (hfits : e.Fits ⟨p.config, now, invNorm⟩ sess) {i n : Nat} {c : Call} {t : MemoryStorage}
    (hdies : (Database.onCollection name (e.act ⟨p.config, now, invNorm⟩) p.db).dieAt device p.storage i n = some (c, t))
    (hwhole : ¬ e.Tears sess c n) : Reopens invNorm t (docsOf G) := by
  obtain ⟨g, rfl, hst⟩ := h.session hsess now
  have hsame : Function.update (docsOf G) g.name (some (replay g.docs e.writes)) = docsOf G := by
    rw [hquiet]
    exact Function.update_eq_self_iff.mpr (by unfold docsOf; rw [hst.live.here]; rfl)
  have hdead : (Database.onCollection g.name (e.act ⟨p.config, now, invNorm⟩) p.db).Deaths device
      (fun c n t => ¬ e.Tears sess c n → Shape t ∧ Recovers (t.image .live) (docsOf G)) p.storage := by
    rw [onCollection_deaths hsess]
    cases Edit.goes hst h.writable (.inl (show Sel.live = .live from rfl)) hfits with
    | refused err sess' hrun => rw [hrun]; trivial
    | done hspec =>
      refine hspec.deaths.mono (fun c n t hd hno => ⟨hd.1, ?_⟩)
      rcases hd.2 (fun _ => hno) with hold | hnew
      · exact hold
      · rwa [hsame] at hnew
  obtain ⟨hshape, hrec⟩ := (Prog.deaths_iff _ _).mp hdead i n c t hdies hwhole
  have hdirs : ∀ other, (docsOf G other).isSome = true → t.get (.walDir other) = some .dir := fun other hsome =>
    ((onCollection_spares g.name (Edit.spares _ e)).dieAt hdies).mpr ((h.state now).dirs (by rwa [← docsOf_isSome]))
  intro config now' counter hvalid hro
  obtain ⟨db, u, G', hrun, hstate, -, hG', hclean, -⟩ :=
    Recovers.opens (show Recovers (t.image .live) (docsOf G) from hrec) hshape hdirs hvalid hro now' counter
  exact ⟨db, u, hrun, hG' ▸ hstate.has, hclean⟩

theorem Weathered.has (h : Weathered invNorm calm p M) : p.db.Has M := by
  obtain ⟨G, hgoes, -, rfl⟩ := h.goesOn
  exact (hgoes.state 0).has

theorem Weathered.reopens (h : Weathered invNorm calm p M) : Reopens invNorm p.storage M := by
  obtain ⟨G, hgoes, -, rfl⟩ := h.goesOn
  exact hgoes.reopens

/-- **Upkeep succeeds** in a process in which upkeep has failed, and leaves the documents. -/
theorem Weathered.upkeep (h : Weathered invNorm calm p M) {name : Str} {e : Edit} (he : e.IsUpkeep) {sess : Session}
    (hsess : p.db.session name = some sess) (hfits : e.Fits ⟨p.config, now, invNorm⟩ sess) {r : Except DbError EditAnswer}
    {db' : Database} {t : MemoryStorage}
    (hrun : (Database.onCollection name (e.act ⟨p.config, now, invNorm⟩) p.db).run device p.storage = ((r, db'), t)) :
    (∃ a, r = .ok a) ∧ Weathered invNorm calm ⟨p.config, db', t⟩ M := by
  constructor
  · obtain ⟨G, hgoes, -, -⟩ := h.goesOn
    obtain ⟨g, g', -, -, -, hanswers⟩ := (hgoes.edit hsess hfits).of_run hrun
    exact he.answers hanswers
  · have hleaves : e.leaves r = id := funext fun docs => by
      unfold Edit.leaves
      rw [he.writes]
      cases r <;> rfl
    have hedit := Weathered.edit h now name e hsess hfits hrun
    rwa [hleaves, Option.map_id, id_eq, Function.update_eq_self] at hedit

/-- **A failed flush is harmless and can be made again.** In every process in which upkeep may have failed: a flush in which no call
    fails succeeds; one in which a call fails that it can do without reports an error, and the process goes on; and before, behind
    and inside each, where a process may die, the documents are the acknowledged ones, now and after the next open. -/
theorem Weathered.flush_retried (h : Weathered invNorm calm p M) {name : Str} {sess : Session} (hsess : p.db.session name = some sess)
    (hfits : Edit.flush.Fits ⟨p.config, now, invNorm⟩ sess) :
    (p.db.Has M ∧ Reopens invNorm p.storage M) ∧
    (∃ a db' t, (Database.onCollection name (Edit.flush.act ⟨p.config, now, invNorm⟩) p.db).run device p.storage = ((.ok a, db'), t) ∧
      db'.Has M ∧ Reopens invNorm t M) ∧
    (∀ i n c t, (Database.onCollection name (Edit.flush.act ⟨p.config, now, invNorm⟩) p.db).dieAt device p.storage i n = some (c, t) →
      ¬ TearsBitmap sess c n → Reopens invNorm t M) ∧
    ∀ i err n c r db' t, (Database.onCollection name (Edit.flush.act ⟨p.config, now, invNorm⟩) p.db).failAt device p.storage i err n =
      some (c, (r, db'), t) → FlushHarmless sess c →
        (∃ err', r = .error err') ∧ db'.Has M ∧ Reopens invNorm t M ∧ Weathered invNorm false ⟨p.config, db', t⟩ M := by
  obtain ⟨G, hgoes, -, hM⟩ := h.goesOn
  refine ⟨⟨h.has, h.reopens⟩, ?_, fun i n c t hdies hwhole => ?_, fun i err n c r db' t hfail hharm => ?_⟩
  · rcases hrun : (Database.onCollection name (Edit.flush.act ⟨p.config, now, invNorm⟩) p.db).run device p.storage with ⟨⟨r, db'⟩, t⟩
    obtain ⟨⟨a, rfl⟩, hafter⟩ := h.upkeep (show Edit.flush.IsUpkeep from trivial) hsess hfits hrun
    exact ⟨a, db', t, rfl, hafter.has, hafter.reopens⟩
  · exact hM ▸ hgoes.diedQuietly rfl hsess hfits hdies hwhole
  · have hafter := Weathered.failed h now name .flush hsess hfits hfail hharm
    exact ⟨(hgoes.failed hsess hfits hfail hharm).1, hafter.has, hafter.reopens, hafter⟩

/-- **A failed compaction loses nothing.** In every process in which upkeep may have failed, a compaction in which a call fails that
    it can do without leaves every collection reading as before. The process goes on: a later flush or compaction of any collection
    succeeds and keeps the documents, and so does an open. -/
theorem Weathered.compaction_fails (h : Weathered invNorm calm p M) {name : Str} {sess : Session}
    (hsess : p.db.session name = some sess) (options : CompactOptions)
    (hfits : (Edit.compact options).Fits ⟨p.config, now, invNorm⟩ sess) {i n : Nat} {err : DbError} {c : Call}
    {r : Except DbError EditAnswer} {db' : Database} {t : MemoryStorage}
    (hfail : (Database.onCollection name ((Edit.compact options).act ⟨p.config, now, invNorm⟩) p.db).failAt device p.storage i err n =
      some (c, (r, db'), t)) (hharm : CompactHarmless sess c) :
    (∃ err', r = .error err') ∧ p.db.Has M ∧ db'.Has M ∧ Reopens invNorm t M ∧ Weathered invNorm false ⟨p.config, db', t⟩ M ∧
      ∀ later other (e : Edit) sess', e.IsUpkeep → db'.session other = some sess' → e.Fits ⟨p.config, later, invNorm⟩ sess' →
        ∃ a db'' u, (Database.onCollection other (e.act ⟨p.config, later, invNorm⟩) db').run device t = ((.ok a, db''), u) ∧
          db''.Has M ∧ Reopens invNorm u M := by
  obtain ⟨G, hgoes, -, -⟩ := h.goesOn
  have hafter := Weathered.failed h now name (.compact options) hsess hfits hfail hharm
  refine ⟨(hgoes.failed hsess hfits hfail hharm).1, h.has, hafter.has, hafter.reopens, hafter,
    fun later other e sess' he hsess' hfits' => ?_⟩
  rcases hrun : (Database.onCollection other (e.act ⟨p.config, later, invNorm⟩) db').run device t with ⟨⟨r', db''⟩, u⟩
  obtain ⟨⟨a, rfl⟩, hlater⟩ := hafter.upkeep he hsess' hfits' hrun
  exact ⟨a, db'', u, rfl, hlater.has, hlater.reopens⟩

end Keep

section Example

/-- How a process goes on behind a call of an edit that failed, having done so much of its work. -/
def failed (p : Site) (e : Edit) (i n : Nat) : Option (Call × (Except DbError EditAnswer × Database) × MemoryStorage) :=
  (Database.onCollection theSpec.name (e.act fullEnv) p.db).failAt device p.storage i .cancelled n

theorem Database.Has.shows {db db' : Database} {M : Str → Option DocMap} (h : db.Has M) (h' : db'.Has M) (id : DocId) :
    db'.shows id = db.shows id := by
  unfold Database.shows
  cases hsess : db.session theSpec.name with
  | none =>
    cases hsess' : db'.session theSpec.name with
    | none => rfl
    | some sess' =>
      obtain ⟨sess, hback, -⟩ := h'.contains_again h hsess' id
      rw [hsess] at hback
      cases hback
  | some sess =>
    obtain ⟨sess', hsess', hsame⟩ := h.contains_again h' hsess id
    rw [hsess', Option.map_some, Option.map_some, hsame]

/-- A flush of the collection. -/
def retried (db : Database) (s : MemoryStorage) : (Except DbError EditAnswer × Database) × MemoryStorage :=
  (Database.onCollection theSpec.name (Edit.flush.act fullEnv) db).run device s

/-- Whether the database that is opened has the document. -/
def openedShows (s : MemoryStorage) (id : DocId) : Bool :=
  (openedDb ((Database.open fullEnv 0 ()).run device s).1.1).shows id = some true

theorem openedShows_of {s t : MemoryStorage} {db : Database} {id : DocId}
    (h : (Database.open fullEnv 0 ()).run device s = ((.ok db, ()), t)) (hshows : openedShows s id = true) : db.shows id = some true := by
  unfold openedShows at hshows
  rw [h] at hshows
  exact of_decide_eq_true hshows

/-- **What the runs of the examples show**: which call fails, whether there is room to try again, and what is there then. -/
@[mk_iff]
structure FailuresSeen : Prop where
  empty : (deletedSite.db.session theSpec.name).map (fun s => s.memtable.liveRows.isEmpty) = some true
  flush_manifest : (failed deletedSite .flush 31 3).map (fun x => (x.1.path, roomyAt ⟨fullConfig, x.2.1.2, x.2.2⟩ .flush)) =
    some (.manifest .b, true)
  flush_bitmap : (failed deletedSite .flush 17 0).map (fun x =>
    (retried x.2.1.2 x.2.2).1.1.isOk && openedShows (retried x.2.1.2 x.2.2).2 (fill 0).id) = some true
  compact_manifest : (failed flushSite (.compact rewriteAll) 31 3).map (fun x =>
    (x.1.path, roomyAt ⟨fullConfig, x.2.1.2, x.2.2⟩ .flush)) = some (.manifest .b, true)
  compact_read : (failed flushSite (.compact rewriteAll) 17 0).map (fun x => x.2.1.2.shows (fill 0).id) = some (some false)

theorem failuresSeen : FailuresSeen := failuresSeen_iff.mpr (by decide +kernel)

/-- A flush of a deletion, in which writing the manifest fails after three bytes, and one that is made then: the document is gone,
    before and behind it, and behind the next open. -/
theorem flush_retried_unnamed : ∃ c r db' t a db'' u db v, failed deletedSite .flush 31 3 = some (c, (r, db'), t) ∧
    db'.shows (fill 0).id = some false ∧ retried db' t = ((.ok a, db''), u) ∧ db''.shows (fill 0).id = some false ∧
    (Database.open fullEnv 0 ()).run device u = ((.ok db, ()), v) ∧ db.shows (fill 0).id = some false := by
  obtain ⟨M, hrun⟩ := deletedSite_run
  obtain ⟨sess, hsess, hfits⟩ := roomyAt_session (DeathsSeen.roomy_flush deathsSeen)
  obtain ⟨⟨c, ⟨r, db'⟩, t⟩, hfail, hseen⟩ := Option.map_eq_some_iff.mp (FailuresSeen.flush_manifest failuresSeen)
  obtain ⟨hpath, hroomy'⟩ := Prod.mk.inj hseen
  have hempty := FailuresSeen.empty failuresSeen
  rw [hsess] at hempty
  have hharm : FlushHarmless sess c := by
    unfold FlushHarmless
    rw [show c.path = .manifest .b from hpath]
    exact List.isEmpty_iff.mp (Option.some.inj hempty)
  unfold failed at hfail
  obtain ⟨⟨hhas, -⟩, -, -, hfailure⟩ := Weathered.flush_retried hrun.weathered hsess hfits
  obtain ⟨-, hhas', -, hon⟩ := hfailure 31 .cancelled 3 c r db' t hfail hharm
  obtain ⟨sess', hsess', hfits'⟩ := roomyAt_session hroomy'
  obtain ⟨-, ⟨a, db'', u, hretry, hhas'', hreopens⟩, -⟩ := Weathered.flush_retried hon hsess' hfits'
  obtain ⟨db, v, hopen, hhas3, -⟩ := hreopens fullConfig 0 0 rfl rfl
  have hshows : ∀ {db : Database}, db.Has M → db.shows (fill 0).id = some false := fun h => (hhas.shows h _).trans (DeathsSeen.gone deathsSeen)
  exact ⟨c, r, db', t, a, db'', u, db, v, hfail, hshows hhas', hretry, hshows hhas'', hopen, hshows hhas3⟩

/-- **A flush fails where it opens the bitmap of an older segment**; the next flush finds the row dead in memory and does not try
    again. Behind the next open the deleted document is there. -/
theorem flush_forgets : ¬ ∀ p M, Run (fun _ => True) Edit.Fits zeroNorm p M → ∀ name sess, p.db.session name = some sess →
    Edit.flush.Fits ⟨p.config, 0, zeroNorm⟩ sess → ∀ i err n c r db' t,
      (Database.onCollection name (Edit.flush.act ⟨p.config, 0, zeroNorm⟩) p.db).failAt device p.storage i err n = some (c, (r, db'), t) →
        ∀ a db'' u, (Database.onCollection name (Edit.flush.act ⟨p.config, 0, zeroNorm⟩) db').run device t = ((.ok a, db''), u) →
          Reopens zeroNorm u M := by
  intro hall
  obtain ⟨M, hrun⟩ := deletedSite_run
  obtain ⟨sess, hsess, hfits⟩ := roomyAt_session (DeathsSeen.roomy_flush deathsSeen)
  obtain ⟨⟨c, ⟨r, db'⟩, t⟩, hfail, hback⟩ := Option.map_eq_some_iff.mp (FailuresSeen.flush_bitmap failuresSeen)
  obtain ⟨hok, hshows⟩ := (Bool.and_eq_true _ _).mp hback
  unfold failed at hfail
  rcases hretry : retried db' t with ⟨⟨r', db''⟩, u⟩
  rw [hretry] at hok hshows
  unfold retried at hretry
  cases r' with
  | error e => cases hok
  | ok a =>
    obtain ⟨db, v, hopen, hhas, -⟩ := hall _ M hrun theSpec.name sess hsess hfits 17 .cancelled 0 c r db' t hfail a db'' u hretry
      fullConfig 0 0 rfl rfl
    have hsame := (openedShows_of hopen hshows).symm.trans ((hrun.weathered.has.shows hhas _).trans (DeathsSeen.gone deathsSeen))
    cases hsame

/-- A compaction in which writing the manifest fails after three bytes: the document is there, behind a flush and an open too. -/
theorem compaction_fails_unnamed : ∃ c r db' t a db'' u db v, failed flushSite (.compact rewriteAll) 31 3 = some (c, (r, db'), t) ∧
    (∃ slot, c.path = .manifest slot) ∧ db'.shows (fill 0).id = some true ∧ retried db' t = ((.ok a, db''), u) ∧
    db''.shows (fill 0).id = some true ∧ (Database.open fullEnv 0 ()).run device u = ((.ok db, ()), v) ∧
    db.shows (fill 0).id = some true := by
  obtain ⟨M, docs, hrun, -⟩ := flushSite_run
  obtain ⟨sess, hsess, hfits⟩ := roomyAt_session (DeathsSeen.roomy_compact deathsSeen)
  obtain ⟨⟨c, ⟨r, db'⟩, t⟩, hfail, hseen⟩ := Option.map_eq_some_iff.mp (FailuresSeen.compact_manifest failuresSeen)
  obtain ⟨hpath, hroomy'⟩ := Prod.mk.inj hseen
  have hharm : CompactHarmless sess c := by
    unfold CompactHarmless
    rw [show c.path = .manifest .b from hpath]
    trivial
  unfold failed at hfail
  obtain ⟨-, hhas, hhas', -, -, hlater⟩ := Weathered.compaction_fails hrun.weathered hsess rewriteAll hfits hfail hharm
  obtain ⟨sess', hsess', hfits'⟩ := roomyAt_session hroomy'
  obtain ⟨a, db'', u, hretry, hhas'', hreopens⟩ := hlater 0 theSpec.name .flush sess' trivial hsess' hfits'
  obtain ⟨db, v, hopen, hhas3, -⟩ := hreopens fullConfig 0 0 rfl rfl
  have hshows : ∀ {db : Database}, db.Has M → db.shows (fill 0).id = some true := fun h => (hhas.shows h _).trans (DeathsSeen.there deathsSeen)
  exact ⟨c, r, db', t, a, db'', u, db, v, hfail, ⟨_, hpath⟩, hshows hhas', hretry, hshows hhas'', hopen, hshows hhas3⟩

/-- **A compaction fails where it reads the new segment**: the list of segments is empty by then, and stays so. -/
theorem compaction_empties : ¬ ∀ p M, Run (fun _ => True) Edit.Fits zeroNorm p M → ∀ name sess, p.db.session name = some sess →
    ∀ options : CompactOptions, (Edit.compact options).Fits ⟨p.config, 0, zeroNorm⟩ sess → ∀ i err n c r db' t,
      (Database.onCollection name ((Edit.compact options).act ⟨p.config, 0, zeroNorm⟩) p.db).failAt device p.storage i err n =
        some (c, (r, db'), t) → db'.Has M := by
  intro hall
  obtain ⟨M, docs, hrun, -⟩ := flushSite_run
  obtain ⟨sess, hsess, hfits⟩ := roomyAt_session (DeathsSeen.roomy_compact deathsSeen)
  obtain ⟨⟨c, ⟨r, db'⟩, t⟩, hfail, hlost⟩ := Option.map_eq_some_iff.mp (FailuresSeen.compact_read failuresSeen)
  unfold failed at hfail
  have hhas := hall _ M hrun theSpec.name sess hsess rewriteAll hfits 17 .cancelled 0 c r db' t hfail
  cases hlost.symm.trans ((hrun.weathered.has.shows hhas _).trans (DeathsSeen.there deathsSeen))

end Example

end IshaVectorDb.Engine
