import IshaVectorDb.Correctness.Crashes

/-!
# `Correctness.FailedUpkeep` — a flush or a compaction that **fails** loses nothing

A call inside a flush or a compaction may return an error, having done any part of its work, while the process carries on. If
the call is one that the operation can do without (`Edit.Harmless`), memory and disk still agree: every read and every later
edit answers from the acknowledged documents, also behind further failures, and the next open finds them
(`Weathered.loses_nothing`).
-/

namespace IshaVectorDb.Engine

open Format Interaction KeyLog

/-- **The operation can do without this call.** Nothing is promised of an edit that writes. -/
def Edit.Harmless (sess : Session) (c : Call) : Edit → Prop
  | .flush => FlushHarmless sess c
  | .compact _ => CompactHarmless sess c
  | _ => False

/-! ## The invariant -/

/-- **A site whose memory and disk agree**, whichever manifest the disk may have come to in addition. -/
structure Site.GoesOn (p : Site) (invNorm : InvNorm) (G : Str → Option Ghost) : Prop where
  state : ∀ now, DbState ⟨p.config, now, invNorm⟩ .live p.db p.storage G G
  writable : p.config.readOnly = false
  noLogs : ∀ name, G name = none → p.storage.image .live (.walFile name 1) = none

section Keep

variable {invNorm : InvNorm} {p : Site} {G : Str → Option Ghost} {now : UInt64}

theorem Site.Stands.goesOn (h : p.Stands .live invNorm G) : p.GoesOn invNorm G := ⟨h.state, h.writable, h.noLogs⟩

/-- Where no newer manifest is on disk, the site stands. -/
theorem Site.GoesOn.stands (h : p.GoesOn invNorm G) (hsteady : Steady .live p.db.store p.storage) : p.Stands .live invNorm G :=
  ⟨h.state, hsteady, h.writable, .inl rfl, h.noLogs⟩

theorem Site.GoesOn.session (h : p.GoesOn invNorm G) {name : Str} {sess : Session} (hsess : p.db.session name = some sess)
    (now : UInt64) : ∃ g : Ghost, g.name = name ∧ State ⟨p.config, now, invNorm⟩ .live sess p.storage G G g g.ops g.docs := by
  obtain ⟨-, -, g, ops, docs, rfl, hst⟩ := (h.state now).session hsess
  have hsame := hst.seen.there
  rw [hst.live.here] at hsame
  have hops : ops = g.ops := (congrArg Ghost.ops (Option.some.inj hsame)).symm
  have hdocs : docs = g.docs := (congrArg Ghost.docs (Option.some.inj hsame)).symm
  subst hops hdocs
  exact ⟨g, rfl, hst⟩

/-- **One collection's memory is replaced**, by one that agrees with the disk. -/
theorem DbState.replace {env : Env} {db : Database} {s t : MemoryStorage} {sess' : Session} {g g' : Ghost}
    (h : DbState env .live db s G G) (hs : Shape t) (hcat : g'.cat = g.cat)
    (hlive : LiveInv env.invNorm env.config.durability sess' (t.image .live) (Function.update G g.name (some g')) g')
    (hothers : ∀ name, name ≠ g.name → t.image .live (.walFile name 1) = s.image .live (.walFile name 1)) :
    DbState env .live (db.take g.name sess') t (Function.update G g.name (some g')) (Function.update G g.name (some g')) := by
  have hname : g'.name = g.name := congrArg Catalog.name hcat
  refine ⟨hs, hlive.disk, hlive.disk, fun name coll hlook => ?_, fun name => ?_⟩
  · have hlook : (db.collections.insert g.name sess'.coll).lookup name = some coll := hlook
    by_cases hn : name = g.name
    · rw [hn, AList.lookup_insert] at hlook
      obtain rfl := Option.some.inj hlook
      exact ⟨g', _, _, by rw [hname, hn], hs, hlive, hlive.seen⟩
    · rw [AList.lookup_insert_ne hn] at hlook
      obtain ⟨g1, ops1, docs1, hn1, hst⟩ := h.opened name coll hlook
      have hne : g1.name ≠ g.name := by rw [hn1]; exact hn
      have hlive1 : LiveInv env.invNorm env.config.durability ⟨sess'.store, coll⟩ (t.image .live)
          (Function.update G g.name (some g')) g1 :=
        ⟨hlive.disk, by rw [Function.update_of_ne hne]; exact hst.live.here, hst.live.mem.congr (hothers _ hne)⟩
      exact ⟨g1, _, _, hn1, hs, hlive1, hlive1.seen⟩
  · show (Function.update G g.name (some g') name).isSome = ((db.collections.insert g.name sess'.coll).lookup name).isSome
    by_cases hn : name = g.name
    · rw [hn, Function.update_self, AList.lookup_insert]; rfl
    · rw [Function.update_of_ne hn, AList.lookup_insert_ne hn]; exact h.all name

/-- What one collection's operation keeps. -/
theorem Site.GoesOn.replace (h : p.GoesOn invNorm G) {sess' : Session} {t : MemoryStorage} {g g' : Ghost} (hs : Shape t)
    (hcat : g'.cat = g.cat)
    (hlive : LiveInv invNorm p.config.durability sess' (t.image .live) (Function.update G g.name (some g')) g')
    (hothers : ∀ name, name ≠ g.name → t.image .live (.walFile name 1) = p.storage.image .live (.walFile name 1)) :
    (Site.mk p.config (p.db.take g.name sess') t).GoesOn invNorm (Function.update G g.name (some g')) := by
  refine ⟨fun now => (h.state now).replace hs hcat hlive hothers, h.writable, fun name hnone => ?_⟩
  have hne : name ≠ g.name := fun heq => by rw [heq, Function.update_self] at hnone; cases hnone
  rw [Function.update_of_ne hne] at hnone
  show t.image .live _ = none
  rw [hothers name hne]
  exact h.noLogs name hnone

/-- **An edit in which no call fails** answers what the map answers. -/
theorem Site.GoesOn.edit (h : p.GoesOn invNorm G) {name : Str} {e : Edit} {sess : Session}
    (hsess : p.db.session name = some sess) (hfits : e.Fits ⟨p.config, now, invNorm⟩ sess) :
    Ends device (Database.onCollection name (e.act ⟨p.config, now, invNorm⟩)) p.db p.storage (fun r db' t =>
      ∃ g g', G name = some g ∧ (Site.mk p.config db' t).GoesOn invNorm (Function.update G name (some g')) ∧
        (Steady .live p.db.store p.storage → Steady .live db'.store t) ∧ e.Answers g.cat sess.wal g.docs r g'.docs) := by
  obtain ⟨g, rfl, hst⟩ := h.session hsess now
  obtain ⟨coll, -, rfl⟩ := Option.map_eq_some_iff.mp hsess
  refine onCollection_ends hsess ((Edit.ends hst h.writable (.inl rfl) hfits).mono (fun r sess' t hr => ?_))
  obtain ⟨g', hafter, hanswers⟩ := hr
  exact ⟨g, g', hst.live.here, h.replace hafter.state.shape hafter.cat hafter.state.live hafter.others, hafter.steady, hanswers⟩

/-- What a failing call inside a flush or a compaction leaves. -/
theorem Edit.fails {env : Env} {sess : Session} {s : MemoryStorage} {g : Ghost} {e : Edit}
    (h : State env .live sess s G G g g.ops g.docs) (hro : env.config.readOnly = false) (hfits : e.Fits env sess)
    {c₀ : Call} (hupkeep : e.Harmless sess c₀) :
    Spec .live (e.act env) sess s (fun _ _ _ => True) (fun _ _ _ => True)
      (fun c sess' img => e.Harmless sess c → Survives env sess' s img G g) := by
  cases e with
  | flush =>
    refine Triple.bind ?_
    unfold Engine.flush
    rw [hro]
    exact (doFlush_spec h h.live.settled hfits).mono (fun _ _ _ _ => Triple.pure trivial) (fun _ _ _ hd => ⟨hd.1, trivial⟩)
      (fun _ _ _ hf => hf)
  | compact options =>
    exact Triple.bind ((compact_spec h hro hfits).mono (fun _ _ _ _ => Triple.pure trivial) (fun _ _ _ hd => ⟨hd.1, trivial⟩)
      (fun _ _ _ hf => hf))
  | _ => cases hupkeep

/-- **A flush or a compaction that failed** changed no document. -/
theorem Site.GoesOn.failed (h : p.GoesOn invNorm G) {name : Str} {e : Edit} {sess : Session}
    (hsess : p.db.session name = some sess) (hfits : e.Fits ⟨p.config, now, invNorm⟩ sess) {i n : Nat} {err : DbError} {c : Call}
    {r : Except DbError EditAnswer} {db' : Database} {t : MemoryStorage}
    (hfail : (Database.onCollection name (e.act ⟨p.config, now, invNorm⟩) p.db).failAt device p.storage i err n =
      some (c, (r, db'), t)) (hharm : e.Harmless sess c) :
    (∃ err', r = .error err') ∧
      ∃ G', (Site.mk p.config db' t).GoesOn invNorm G' ∧ docsOf G' = docsOf G := by
  obtain ⟨g, rfl, hst⟩ := h.session hsess now
  have hlifted : Spec .live (Database.onCollection g.name (e.act ⟨p.config, now, invNorm⟩)) p.db p.storage (fun _ _ _ => True)
      (fun _ _ _ => True) (fun c db' img => e.Harmless sess c →
        ∃ sess', db' = p.db.take g.name sess' ∧ Survives ⟨p.config, now, invNorm⟩ sess' p.storage img G g) :=
    onCollection_spec hsess ((Edit.fails hst h.writable hfits hharm).mono (fun _ _ _ hq => hq) (fun _ _ _ hd => hd)
      (fun _ sess' _ hf => ⟨hf.1, fun hc => ⟨sess', rfl, hf.2 hc⟩⟩))
  obtain ⟨herr, hshape, hafter⟩ := (Prog.failures_iff _ _).mp hlifted.failures i err n c (r, db') t hfail
  obtain ⟨sess', rfl, ⟨g', hcat, -, hdocs, hlive⟩, hothers⟩ := hafter hharm
  exact ⟨herr, _, h.replace hshape hcat hlive hothers, docsOf_update_same hst.live.here hdocs⟩

/-- **Opening again**, whatever manifest the disk has come to. -/
theorem Site.GoesOn.opens (h : p.GoesOn invNorm G) {config : Config} (hvalid : config.validate = .ok ())
    (hro : config.readOnly = false) (now counter : UInt64) :
    ∃ db t G', (Database.open ⟨config, now, invNorm⟩ counter ()).run device p.storage = ((.ok db, ()), t) ∧
      (Site.mk config db t).Stands .live invNorm G' ∧ docsOf G' = docsOf G := by
  obtain ⟨store, hrest⟩ := (h.state now).atRest
  have hspec : Spec .live (Database.open ⟨config, now, invNorm⟩ counter) () p.storage _ _ _ := Database.open_spec hrest hvalid hro
  obtain ⟨db, u, t, hrun, -, hstore, ⟨G', D', hstate, hG, hD⟩, -, hsteady, hlogs⟩ := hspec.runs
  obtain rfl := hstate.same hG hD
  refine ⟨db, t, D', hrun, ⟨fun now' => hstate.anytime now', by rw [hstore]; exact hsteady, hro, .inl rfl, fun name hnone => ?_⟩,
    hG.docsOf⟩
  have hnone' : G name = none := Option.not_isSome_iff_eq_none.mp (by rw [← hG.isSome, hnone]; exact Bool.false_ne_true)
  have hlog := h.noLogs name hnone'
  show t.image .live _ = none
  unfold MemoryStorage.image at hlog ⊢
  rw [hlogs name hnone']
  exact hlog

/-- The collections' sessions refine the documents. -/
theorem Site.GoesOn.refines (h : p.GoesOn invNorm G) {name : Str} {g : Ghost} (hg : G name = some g) :
    ∃ sess, p.db.session name = some sess ∧ sess.catalog = g.cat ∧ sess.Refines g.docs := by
  obtain ⟨coll, ops, docs, hlook, rfl, hstate⟩ := (h.state 0).collection hg
  have hsess : p.db.session g.name = some ⟨p.db.store, coll⟩ := by
    unfold Database.session
    rw [hlook]; rfl
  exact ⟨_, hsess, hstate.live.mem.catalog, hstate.live.mem.refines⟩

end Keep

/-! ## Processes -/

/-- **A process in which upkeep may fail**, and the documents that its acknowledged operations leave. `calm` says that no call
    has failed since the database was opened; only then are collections made and dropped. -/
inductive Weathered (invNorm : InvNorm) : Bool → Site → (Str → Option DocMap) → Prop
  | start (config : Config) (now counter : UInt64) {db : Database} {t : MemoryStorage}
      (hrun : (Database.open ⟨config, now, invNorm⟩ counter ()).run device MemoryStorage.new = ((.ok db, ()), t)) :
      Weathered invNorm true ⟨config, db, t⟩ (fun _ => none)
  | step {p p' : Site} {M M' : Str → Option DocMap} (h : Weathered invNorm true p M)
      (hstep : Step (fun _ => True) Edit.Fits invNorm p M p' M') : Weathered invNorm true p' M'
  | edit {calm : Bool} {p : Site} {M : Str → Option DocMap} (h : Weathered invNorm calm p M) (now : UInt64) (name : Str) (e : Edit)
      {sess : Session} {r : Except DbError EditAnswer} {db' : Database} {t : MemoryStorage} (hsess : p.db.session name = some sess)
      (hfits : e.Fits ⟨p.config, now, invNorm⟩ sess)
      (hrun : (Database.onCollection name (e.act ⟨p.config, now, invNorm⟩) p.db).run device p.storage = ((r, db'), t)) :
      Weathered invNorm calm ⟨p.config, db', t⟩ (Function.update M name ((M name).map (e.leaves r)))
  | failed {calm : Bool} {p : Site} {M : Str → Option DocMap} (h : Weathered invNorm calm p M) (now : UInt64) (name : Str) (e : Edit)
      {sess : Session} {i n : Nat} {err : DbError} {c : Call} {r : Except DbError EditAnswer} {db' : Database} {t : MemoryStorage}
      (hsess : p.db.session name = some sess) (hfits : e.Fits ⟨p.config, now, invNorm⟩ sess)
      (hfail : (Database.onCollection name (e.act ⟨p.config, now, invNorm⟩) p.db).failAt device p.storage i err n =
        some (c, (r, db'), t)) (hharm : e.Harmless sess c) : Weathered invNorm false ⟨p.config, db', t⟩ M
  | reopen {calm : Bool} {p : Site} {M : Str → Option DocMap} (h : Weathered invNorm calm p M) (config : Config)
      (now counter : UInt64) {db' : Database} {t : MemoryStorage} (hro : config.readOnly = false)
      (hrun : (Database.open ⟨config, now, invNorm⟩ counter ()).run device p.storage = ((.ok db', ()), t)) :
      Weathered invNorm true ⟨config, db', t⟩ M

section Run

variable {invNorm : InvNorm} {calm : Bool} {p : Site} {M : Str → Option DocMap}

/-- **In every such process** memory and disk agree on the documents of the acknowledged operations. -/
theorem Weathered.goesOn (h : Weathered invNorm calm p M) :
    ∃ G, p.GoesOn invNorm G ∧ (calm = true → Steady .live p.db.store p.storage) ∧ docsOf G = M := by
  induction h with
  | start config now counter hrun =>
    have hst := Site.Stands.new (.inl (show Sel.live = .live from rfl)) hrun
    exact ⟨_, hst.goesOn, fun _ => hst.steady, rfl⟩
  | step _ hstep ih =>
    obtain ⟨G, hgoes, hsteady, hM⟩ := ih
    obtain ⟨G', hst', hM'⟩ := hstep.stands (fun _ _ => .inl rfl) (fun _ _ _ hf => hf) ⟨G, hgoes.stands (hsteady rfl), hM⟩
    exact ⟨G', hst'.goesOn, fun _ => hst'.steady, hM'⟩
  | edit _ now name e hsess hfits hrun ih =>
    obtain ⟨G, hgoes, hsteady, rfl⟩ := ih
    obtain ⟨g, g', hg, hgoes', hsteady', hanswers⟩ := (hgoes.edit hsess hfits).of_run hrun
    refine ⟨_, hgoes', fun hcalm => hsteady' (hsteady hcalm), ?_⟩
    rw [docsOf_update, hanswers.leaves]
    unfold docsOf
    rw [hg]
    rfl
  | failed _ now name e hsess hfits hfail hharm ih =>
    obtain ⟨G, hgoes, -, rfl⟩ := ih
    obtain ⟨-, G', hgoes', hdocs⟩ := hgoes.failed hsess hfits hfail hharm
    exact ⟨G', hgoes', fun hcalm => absurd hcalm Bool.false_ne_true, hdocs⟩
  | reopen _ config now counter hro hrun ih =>
    obtain ⟨G, hgoes, -, rfl⟩ := ih
    obtain ⟨db, t, G', hrun', hst', hdocs⟩ := hgoes.opens (open_validates hrun) hro now counter
    rw [hrun] at hrun'
    obtain ⟨⟨rfl, -⟩, rfl⟩ := hrun'
    exact ⟨G', hst'.goesOn, fun _ => hst'.steady, hdocs⟩

/-- A run in which no call fails is such a process. -/
theorem Run.weathered (h : Run (fun _ => True) Edit.Fits invNorm p M) : Weathered invNorm true p M := by
  induction h with
  | start config now counter _ hrun => exact .start config now counter hrun
  | step _ hstep ih => exact .step ih hstep

/-- **A failed flush or compaction loses nothing.** In every process in which upkeep may fail, each collection answers reads from
    the documents of the acknowledged operations, an edit answers what these documents say, upkeep that fails reports an error,
    and the next open finds these documents. -/
theorem Weathered.loses_nothing (h : Weathered invNorm calm p M) :
    (∀ name docs, M name = some docs → ∃ sess, p.db.session name = some sess ∧ sess.Refines docs ∧
      ∀ now (e : Edit), e.Fits ⟨p.config, now, invNorm⟩ sess →
        (∀ r db' t, (Database.onCollection name (e.act ⟨p.config, now, invNorm⟩) p.db).run device p.storage = ((r, db'), t) →
          e.Answers sess.catalog sess.wal docs r (e.leaves r docs)) ∧
        ∀ i err n c r db' t, (Database.onCollection name (e.act ⟨p.config, now, invNorm⟩) p.db).failAt device p.storage i err n =
          some (c, (r, db'), t) → e.Harmless sess c → ∃ err', r = .error err') ∧
    ∀ config now counter, config.validate = .ok () → config.readOnly = false →
      ∃ db t, (Database.open ⟨config, now, invNorm⟩ counter ()).run device p.storage = ((.ok db, ()), t) ∧
        (∀ name, M name = none → db.session name = none) ∧
        ∀ name docs, M name = some docs → ∃ sess, db.session name = some sess ∧ sess.Refines docs := by
  obtain ⟨G, hgoes, -, rfl⟩ := h.goesOn
  refine ⟨fun name docs hdocs => ?_, fun config now counter hvalid hro => ?_⟩
  · obtain ⟨g, hg, rfl⟩ := Option.map_eq_some_iff.mp hdocs
    obtain ⟨sess, hsess, hcat, href⟩ := hgoes.refines hg
    refine ⟨sess, hsess, href, fun now e hfits => ⟨fun r db' t hrun => ?_, fun i err n c r db' t hfail hharm => ?_⟩⟩
    · obtain ⟨g1, g', hg1, -, -, hanswers⟩ := (hgoes.edit hsess hfits).of_run hrun
      rw [hg] at hg1
      obtain rfl := Option.some.inj hg1
      rw [hcat, ← hanswers.leaves]
      exact hanswers
    · exact (hgoes.failed hsess hfits hfail hharm).1
  · obtain ⟨db, t, G', hrun, hst, hsame⟩ := hgoes.opens hvalid hro now counter
    rw [← hsame]
    exact ⟨db, t, hrun, hst.answers⟩

end Run

/-- The flush of a collection with one document, in which writing the new segment's vectors fails after five bytes: the document
    is still there, now and behind the next open. -/
theorem loses_nothing_unwritten : ∃ c r db t sess db' t' sess', (Database.onCollection theSpec.name (Edit.flush.act fullEnv) putSite.db).failAt
      device putSite.storage 3 .cancelled 5 = some (c, (r, db), t) ∧
    db.session theSpec.name = some sess ∧ sess.contains (fill 0).id = true ∧
    (Database.open fullEnv 0 ()).run device t = ((.ok db', ()), t') ∧
    db'.session theSpec.name = some sess' ∧ sess'.contains (fill 0).id = true := by
  obtain ⟨M, docs, hrun, hdocs⟩ := putSite_run
  have hpath : ((Database.onCollection theSpec.name (Edit.flush.act fullEnv) putSite.db).failAt device putSite.storage 3
      .cancelled 5).map (fun x => x.1.path) = some (.segmentFile theSpec.name 1 .vectors) := by decide +kernel
  obtain ⟨⟨c, ⟨r, db⟩, t⟩, hfail, hpath⟩ := Option.map_eq_some_iff.mp hpath
  obtain ⟨sess₀, hsess₀, hthere, hfits⟩ := putSite_flush_fits
  obtain ⟨sess₁, hsess₁, href₁⟩ := hrun.reads_docs hdocs
  obtain rfl := Option.some.inj (hsess₀.symm.trans hsess₁)
  have hin : (docs (fill 0).id).isSome = true := (href₁.contains _).symm.trans hthere
  have hharm : Edit.flush.Harmless sess₀ c := by
    show FlushHarmless sess₀ c
    unfold FlushHarmless
    rw [show c.path = .segmentFile theSpec.name 1 .vectors from hpath]
    trivial
  have hweathered := Weathered.failed hrun.weathered 0 theSpec.name .flush hsess₀ hfits hfail hharm
  obtain ⟨hreads, hopens⟩ := Weathered.loses_nothing hweathered
  obtain ⟨sess, hsess, href, -⟩ := hreads _ _ hdocs
  obtain ⟨db', t', hrun', -, hfound⟩ := hopens fullConfig 0 0 rfl rfl
  obtain ⟨sess', hsess', href'⟩ := hfound _ _ hdocs
  exact ⟨c, r, db, t, sess, db', t', sess', hfail, hsess, (href.contains _).trans hin, hrun', hsess', (href'.contains _).trans hin⟩

end IshaVectorDb.Engine
