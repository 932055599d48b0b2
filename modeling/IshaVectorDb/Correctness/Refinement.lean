import IshaVectorDb.Correctness.Histories
import IshaVectorDb.Correctness.LogWrites

/-!
# `Correctness.Refinement` — a collection **refines a map** from ids to documents

Whatever has been written, flushed, compacted, closed and opened again, a collection answers every read from one map of
documents, every write answers what that map says, and no document is live in two segments (`Run.refines_map`). The row numbers
of the memtable have 32 bits, and are the one bound that a caller can pass: `refines_no_further`.
-/

namespace IshaVectorDb.Engine

open Format Interaction KeyLog

/-! ## Reading -/

/-- **A collection answers reads from a map**, under every choice of what to bring along, and holds each document live in
    one segment at most. -/
structure Session.Refines (sess : Session) (docs : DocMap) : Prop where
  get : ∀ id inc, sess.getWith id inc = .ok ((docs id).map (fun d => d.view id inc))
  contains : ∀ id, sess.contains id = (docs id).isSome
  ids : ∀ id, id ∈ sess.ids ↔ (docs id).isSome = true
  sorted : sess.ids.Pairwise (· < ·)
  count : sess.count = sess.ids.length
  apart : ∀ id, sess.segments.countP (fun seg => (seg.liveRowOf id).isSome) ≤ 1

section Reading

variable {invNorm : InvNorm} {durability : Durability} {sess : Session} {g : Ghost} {img : Image}

/-- Layers that are apart hold a key once at most. -/
theorem countP_separate {cat : Catalog} {segs : List (Seg cat)} (h : Separate (segs.map Seg.contents)) (id : DocId) :
    segs.countP (fun seg => (seg.contents id).isSome) ≤ 1 := by
  induction segs with
  | nil => exact Nat.zero_le _
  | cons seg segs ih =>
    obtain ⟨hfirst, hrest⟩ := List.pairwise_cons.mp h
    by_cases hseg : (seg.contents id).isSome = true
    · have hzero : segs.countP (fun seg => (seg.contents id).isSome) = 0 := by
        rw [List.countP_eq_zero]
        intro other hother
        rcases hfirst _ (List.mem_map_of_mem hother) id with hnone | hnone
        · rw [hnone] at hseg; cases hseg
        · rw [hnone]; exact Bool.false_ne_true
      rw [List.countP_cons, hzero, if_pos hseg]
    · rw [List.countP_cons, if_neg hseg]
      exact ih hrest

/-- **An open collection refines its documents.** -/
theorem MemInv.refines (h : MemInv invNorm durability sess.coll g img) : sess.Refines g.docs := by
  refine ⟨getWith_eq h, contains_eq h, fun id => mem_ids h, ids_sorted h, count_eq h, fun id => ?_⟩
  obtain ⟨segs, hsegs, hlist⟩ := h.segments
  have hs : sess.segments = segs.map Seg.data := hsegs
  have hsame : segs.countP ((fun seg : SegmentData => (seg.liveRowOf id).isSome) ∘ Seg.data) =
      segs.countP (fun seg => (seg.contents id).isSome) :=
    List.countP_congr (fun seg _ => by rw [Function.comp_apply, seg.data_liveRowOf, ← Seg.contents_isSome])
  rw [hs, List.countP_map, hsame]
  exact countP_separate hlist.separate id

end Reading

/-! ## Runs -/

/-- **A collection of a site** refines its documents. -/
theorem Site.Stands.refines {invNorm : InvNorm} {sel : Sel} {p : Site} {G : Str → Option Ghost} (h : p.Stands sel invNorm G)
    {name : Str} {g : Ghost} (hg : G name = some g) :
    ∃ sess, p.db.session name = some sess ∧ sess.catalog = g.cat ∧ sess.Refines g.docs := by
  obtain ⟨coll, ops, docs, hlook, rfl, hstate⟩ := (h.state 0).collection hg
  have hsess : p.db.session g.name = some ⟨p.db.store, coll⟩ := by
    unfold Database.session
    rw [hlook]; rfl
  exact ⟨_, hsess, hstate.live.mem.catalog, hstate.live.mem.refines⟩

/-- Each collection of a run's site reads its documents. -/
theorem Run.reads_docs {invNorm : InvNorm} {p : Site} {M : Str → Option DocMap} (h : Run (fun _ => True) Edit.Fits invNorm p M)
    {name : Str} {docs : DocMap} (hdocs : M name = some docs) : ∃ sess, p.db.session name = some sess ∧ sess.Refines docs := by
  obtain ⟨G, hst, rfl⟩ := h.stands (fun _ _ => .inl (show Sel.live = .live from rfl)) (fun _ _ _ hfits => hfits)
  obtain ⟨g, hg, rfl⟩ := Option.map_eq_some_iff.mp hdocs
  obtain ⟨sess, hsess, -, href⟩ := hst.refines hg
  exact ⟨sess, hsess, href⟩

/-- **A collection refines a map.** After every run, each collection answers reads from the documents that the run leaves,
    an edit answers what these documents say, and the next open succeeds and finds them again. -/
theorem Run.refines_map {invNorm : InvNorm} {p : Site} {M : Str → Option DocMap} (h : Run (fun _ => True) Edit.Fits invNorm p M)
    {name : Str} {docs : DocMap} (hdocs : M name = some docs) : (∃ sess, p.db.session name = some sess ∧ sess.Refines docs ∧
      ∀ now (e : Edit), e.Fits ⟨p.config, now, invNorm⟩ sess → ∀ r db' t,
        (Database.onCollection name (e.act ⟨p.config, now, invNorm⟩) p.db).run device p.storage = ((r, db'), t) →
          e.Answers sess.catalog sess.wal docs r (e.leaves r docs)) ∧
      ∀ config now counter, config.validate = .ok () → config.readOnly = false → ∃ db' t sess',
        (Database.open ⟨config, now, invNorm⟩ counter ()).run device p.storage = ((.ok db', ()), t) ∧
          db'.session name = some sess' ∧ sess'.Refines docs := by
  obtain ⟨G, hst, rfl⟩ := h.stands (fun _ _ => .inl (show Sel.live = .live from rfl)) (fun _ _ _ hfits => hfits)
  obtain ⟨g, hg, rfl⟩ := Option.map_eq_some_iff.mp hdocs
  obtain ⟨sess, hsess, hcat, href⟩ := hst.refines hg
  refine ⟨⟨sess, hsess, href, fun now e hfits r db' t hrun => ?_⟩, fun config now counter hvalid hro => ?_⟩
  · obtain ⟨g1, g', hg1, -, -, hanswers⟩ := (hst.edit hsess hfits).of_run hrun
    rw [hg] at hg1
    obtain rfl := Option.some.inj hg1
    rw [hcat, ← hanswers.leaves]
    exact hanswers
  · obtain ⟨db', t, hrun⟩ := hst.opens hvalid hro now counter
    obtain ⟨G', hst', hsame⟩ := hst.reopen hro (.inl rfl) hrun
    obtain ⟨g', hg', hdocs'⟩ := Option.map_eq_some_iff.mp ((congrFun hsame name).trans hdocs)
    obtain ⟨sess', hsess', -, href'⟩ := hst'.refines hg'
    exact ⟨db', t, sess', hrun, hsess', hdocs' ▸ href'⟩

/-! ## A memtable that is full -/

section Full

variable {invNorm : InvNorm} {sel : Sel}

/-- **The row number of a put runs over** when the memtable has all the rows that it can number: the id then names the first
    row. -/
theorem Memtable.get_full {m : Memtable} (hfull : m.rows.length = 2 ^ 32) (id : DocId) (d : Doc) :
    (m.applyOp invNorm (.put id d)).get id = (m.rows[0]?).map .present := by
  have hlook : (m.applyOp invNorm (.put id d)).index.lookup id = some (.row (UInt32.ofNat m.rows.length)) :=
    Memtable.lookup_applyOp_self (.put id d)
  unfold Memtable.get
  rw [hlook, hfull]
  show ((m.rows ++ [_])[0]?).map Lookup.present = _
  rw [List.getElem?_append_left (by omega)]

/-- What a put adds to the size of a memtable. -/
theorem Memtable.byteSize_put (m : Memtable) (id : DocId) (d : Doc) : (m.applyOp invNorm (.put id d)).byteSize =
    m.byteSize + (d.vector.length + (d.metadata.elim 0 (fun md => md.len * 32) + d.content.elim 0 List.length) + 64) := by
  have harena : (m.applyOp invNorm (.put id d)).arena.length = m.arena.length + d.vector.length := List.length_append
  have hrows : (m.applyOp invNorm (.put id d)).rows.length = m.rows.length + 1 := List.length_append
  have hbytes : (m.applyOp invNorm (.put id d)).metadataBytes =
      m.metadataBytes + (d.metadata.elim 0 (fun md => md.len * 32)) + d.content.elim 0 List.length := rfl
  unfold byteSize
  rw [harena, hrows, hbytes]
  omega

/-- An upsert that is not followed by a flush. -/
def Unflushed (env : Env) (sess : Session) (e : Edit) : Prop :=
  ∃ doc, e = .upsert doc ∧ doc.vector.WellFormed ∧ ¬ Overflows env sess [.put doc.id doc.stored]

/-- **An upsert that is not followed by a flush** leaves its write in the log. -/
theorem Site.Stands.upserted {p : Site} {G : Str → Option Ghost} (h : p.Stands sel invNorm G) {now : UInt64} {name : Str}
    {sess : Session} (hsess : p.db.session name = some sess) {doc : DocumentInput} (hview : doc.vector.WellFormed)
    (hvalid : validate sess doc = .ok ()) (hrows : sess.memtable.rows.length < 2 ^ 32)
    (hsmall : ¬ Overflows ⟨p.config, now, invNorm⟩ sess [.put doc.id doc.stored]) :
    Ends device (Database.onCollection name ((Edit.upsert doc).act ⟨p.config, now, invNorm⟩)) p.db p.storage (fun r db' t =>
      ∃ g g', (∃ a, r = .ok a) ∧ G name = some g ∧ g'.cat = g.cat ∧ g'.ops = g.ops ++ [.put doc.id doc.stored] ∧
        (Site.mk p.config db' t).Stands sel invNorm (Function.update G name (some g'))) := by
  obtain ⟨g, rfl, hst⟩ := h.session hsess now
  have hgrown : (sess.grown invNorm [.put doc.id doc.stored]).rows.length = sess.memtable.rows.length + 1 := by
    show (sess.memtable.rows ++ [_]).length = _
    rw [List.length_append, List.length_singleton]
  have hroom : WriteRoom ⟨p.config, now, invNorm⟩ sess [.put doc.id doc.stored] :=
    ⟨by rw [hgrown]; omega, fun hover => absurd hover hsmall⟩
  have hends : Ends device ((Edit.upsert doc).act ⟨p.config, now, invNorm⟩) sess p.storage (fun r sess' t =>
      ∃ g', (∃ a, r = .ok a) ∧ g'.cat = g.cat ∧ g'.ops = g.ops ++ [.put doc.id doc.stored] ∧
        After ⟨p.config, now, invNorm⟩ sel sess sess' p.storage t G G g g' g'.ops g'.docs) := by
    refine Ends.after ((upsert_spec hst h.writable hview hvalid hroom (settles_of_sync h.synced rfl _)).mono
      (fun outcome sess' t hpost => ?_) (fun _ _ _ hd => hd) (fun _ _ _ hf => hf))
    obtain ⟨-, g', ops', docs', hafter⟩ := hpost
    exact Ends.pure ⟨g', ⟨_, rfl⟩, hafter.after.cat, (hafter.pending hsmall).1,
      hafter.caughtUp (h.synced.imp_right (fun hf => by rw [show (Env.mk p.config now invNorm).config = p.config from rfl, hf]; rfl))⟩
  refine onCollection_ends hsess (hends.mono (fun r sess' t hr => ?_))
  obtain ⟨g', hok, hcat, hops, hafter⟩ := hr
  exact ⟨g, g', hok, hst.live.here, hcat, hops, h.after hafter hsess⟩

/-- **A document whose frame fits is logged and put**, whether or not the memtable can number its row. -/
theorem State.puts {env : Env} {sess : Session} {s : MemoryStorage} {G : Str → Option Ghost} {g : Ghost}
    (h : State env sel sess s G G g g.ops g.docs) {doc : DocumentInput} {md : Bytes} (hdoc : Accepted g.cat doc md) :
    Ends device (applyPut env doc) sess s (fun r sess' _ => r = .ok () ∧
      sess'.memtable = sess.memtable.applyOp env.invNorm (.put doc.id doc.stored)) := by
  obtain ⟨d, hd, hfile, hpath, -, hlen, -⟩ := h.walFile
  have hopen : LogOpen sess.wal s := ⟨by rw [hfile, hpath], d, by rw [hpath]; exact hd⟩
  set op : WalOp := .put doc.id.toBytes doc.vector.toBytes md doc.content with hop
  have hlog : Ends device (onWal (WalWriter.append op)) sess s (fun r sess' _ =>
      (∃ x, r = .ok x) ∧ sess'.memtable = sess.memtable) := by
    obtain ⟨res, w', s', hrun, -, -, -, -, hok⟩ := (LogWrite.single op).outcome hopen (show (Fault.none : Fault DbError).Survived from trivial)
    rw [Prog.runWith_none] at hrun
    obtain ⟨hres, rfl⟩ := Prod.mk.inj hrun
    refine Ends.zoom ?_
    unfold Ends
    rw [show (WalWriter.append op sess.wal).run device s = ((res, w'), ((LogWrite.single op).action sess.wal |>.run device s).2) from
      Prod.ext (Option.some.inj hres) rfl]
    refine ⟨hok rfl ?_ (fun f hf => ?_), rfl⟩
    · rw [hpath, logBytes_file hd, hlen]
    · obtain rfl := List.mem_singleton.mp hf
      exact hdoc.fits _ _
  have hput : sess.memtable.putView env.invNorm doc.id doc.vector doc.metadata doc.content =
      .ok (sess.memtable.applyOp env.invNorm (.put doc.id ⟨doc.vector.toBytes, doc.metadata, doc.content⟩)) :=
    Memtable.putView_eq h.live.mem.shaped hdoc.dimension doc.id doc.metadata doc.content
  refine Ends.lift_bind (fun md' hmd => ?_) (fun e he => by rw [hdoc.encodes] at he; cases he)
  obtain rfl := Except.ok.inj (hdoc.encodes.symm.trans hmd)
  refine hlog.seq (fun x sess' t hr => Ends.get_bind ?_) (fun e sess' t hr => by obtain ⟨⟨x, hx⟩, -⟩ := hr; cases hx)
  rw [hr.2, hput]
  exact Ends.lift_bind (fun m hm => Ends.modify ⟨rfl, (Except.ok.inj hm).symm⟩) (fun e he => by cases he)

/-- **An upsert into any memtable**, full or not, is acknowledged, and put. -/
theorem Site.Stands.upserts {p : Site} {G : Str → Option Ghost} (h : p.Stands sel invNorm G) {now : UInt64} {name : Str}
    {sess : Session} (hsess : p.db.session name = some sess) {doc : DocumentInput} (hview : doc.vector.WellFormed)
    (hvalid : validate sess doc = .ok ()) (hsmall : ¬ Overflows ⟨p.config, now, invNorm⟩ sess [.put doc.id doc.stored]) :
    Ends device (Database.onCollection name ((Edit.upsert doc).act ⟨p.config, now, invNorm⟩)) p.db p.storage (fun r db' _ =>
      (∃ a, r = .ok a) ∧ ∃ sess', db'.session name = some sess' ∧
        sess'.memtable = sess.memtable.applyOp invNorm (.put doc.id doc.stored)) := by
  obtain ⟨g, rfl, hst⟩ := h.session hsess now
  have hvalid' := hvalid
  rw [hst.check_eq doc] at hvalid'
  obtain ⟨md, hdoc⟩ := accepted_of_validate g.good hview hvalid'
  have hupsert : Ends device (Engine.upsert ⟨p.config, now, invNorm⟩ doc) sess p.storage (fun r sess' _ => (∃ a, r = .ok a) ∧
      sess'.memtable = sess.memtable.applyOp invNorm (.put doc.id doc.stored)) := by
    refine Ends.done_bind (checkWritable_done h.writable "upsert" sess) (Ends.get_bind (Ends.lift_bind (fun u _ => ?_)
      (fun e he => by rw [hvalid] at he; cases he)))
    refine (hst.puts hdoc).seq (fun u sess' t hr => ?_) (fun e sess' t hr => by cases hr.1)
    have hsmall' : ¬ p.config.flushThresholdBytes ≤ sess'.memtable.byteSize := by rw [hr.2]; exact hsmall
    have hquiet : maybeFlush ⟨p.config, now, invNorm⟩ sess' = .pure (.ok (), sess') := by
      show (if p.config.flushThresholdBytes ≤ sess'.memtable.byteSize then doFlush _ else (Pure.pure () : Action Session Unit)) sess' = _
      rw [if_neg hsmall']
      rfl
    exact Ends.done_bind hquiet (Ends.pure ⟨⟨_, rfl⟩, hr.2⟩)
  refine onCollection_ends hsess (hupsert.seq (fun outcome sess' t hr => Ends.pure ⟨⟨_, rfl⟩, sess', ?_, hr.2⟩)
    (fun e sess' t hr => by obtain ⟨⟨x, hx⟩, -⟩ := hr; cases hx))
  unfold Database.session Database.take
  rw [AList.lookup_insert]
  rfl

end Full

section Example

/-- The document of the upsert with this number: one first, and then always the same other one. -/
def fill (n : Nat) : DocumentInput := docOf (if n = 0 then 65 else 66)

/-- The writes of so many upserts. -/
def fills : Nat → List LogOp
  | 0 => []
  | n + 1 => fills n ++ [.put (fill n).id (fill n).stored]

theorem fill_valid (n : Nat) : checkDoc (theSpec.catalog 0) (fill n) = .ok () := by
  unfold fill
  split <;> rfl

theorem countP_fills (n : Nat) : (fills n).countP Op.isPut = n := by
  induction n with
  | zero => rfl
  | succ n ih =>
    unfold fills
    rw [List.countP_append, ih]
    rfl

theorem byteSize_fills (n : Nat) : (Memtable.ofOps zeroNorm 1 (fills n)).byteSize = 69 * n := by
  induction n with
  | zero => rfl
  | succ n ih =>
    unfold fills
    rw [Memtable.ofOps_concat, Memtable.byteSize_put, ih]
    show 69 * n + (4 + (0 + 1) + 64) = _
    omega

/-- The first row stays the first. -/
theorem rows_fills {n : Nat} (hn : 0 < n) :
    ((Memtable.ofOps zeroNorm 1 (fills n)).rows[0]?).map MemRow.content = some (some [65]) := by
  obtain ⟨n, rfl⟩ := Nat.exists_eq_add_of_lt hn
  rw [Nat.zero_add]
  induction n with
  | zero => rfl
  | succ n ih =>
    obtain ⟨row, hrow, hcontent⟩ := Option.map_eq_some_iff.mp (ih (by omega))
    unfold fills
    rw [Memtable.ofOps_concat, Memtable.rows_applyOp hrow, Option.map_some, hcontent]

theorem fill_wellFormed (n : Nat) : (fill n).vector.WellFormed := by
  unfold fill
  split <;> decide

/-- **A collection whose memtable has been filled** by so many upserts. -/
structure Filled (p : Site) (g : Ghost) (n : Nat) : Prop where
  stands : p.Stands .live zeroNorm (Function.update (fun _ => none) theSpec.name (some g))
  cat : g.cat = theSpec.catalog 0
  ops : g.ops = fills n
  config : p.config = fullConfig

section Filled

variable {p : Site} {g : Ghost} {n : Nat}

theorem Filled.session (h : Filled p g n) : ∃ sess, p.db.session theSpec.name = some sess ∧
      State ⟨p.config, 0, zeroNorm⟩ .live sess p.storage (Function.update (fun _ => none) theSpec.name (some g))
        (Function.update (fun _ => none) theSpec.name (some g)) g g.ops g.docs := by
  obtain ⟨sess, hsess, -⟩ := h.stands.refines (Function.update_self _ _ _)
  obtain ⟨g1, hname, hstate⟩ := h.stands.session hsess 0
  have hg := hstate.live.here
  rw [hname, Function.update_self] at hg
  obtain rfl := Option.some.inj hg
  exact ⟨sess, hsess, hstate⟩

/-- **One upsert more** is small enough to be followed by no flush, passes its checks, and has room while the memtable can number
    its rows. -/
theorem Filled.next (h : Filled p g n) (hn : n ≤ 2 ^ 32) : ∃ sess, p.db.session theSpec.name = some sess ∧
    sess.memtable = Memtable.ofOps zeroNorm 1 (fills n) ∧ validate sess (fill n) = .ok () ∧
    ¬ Overflows ⟨p.config, 0, zeroNorm⟩ sess [.put (fill n).id (fill n).stored] := by
  obtain ⟨sess, hsess, hstate⟩ := h.session
  have hmem : sess.memtable = Memtable.ofOps zeroNorm g.cat.dimension g.ops := hstate.live.mem.memtable
  rw [h.cat, h.ops] at hmem
  refine ⟨sess, hsess, hmem, (hstate.check_eq _).trans (by rw [h.cat]; exact fill_valid n), ?_⟩
  have hgrown : sess.grown zeroNorm [.put (fill n).id (fill n).stored] = Memtable.ofOps zeroNorm 1 (fills (n + 1)) := by
    rw [hstate.grown_eq, h.cat, h.ops]
    rfl
  unfold Overflows
  rw [h.config, hgrown, byteSize_fills]
  show ¬ 2 ^ 63 ≤ _
  omega

/-- **The upsert is made** while the memtable can number its row. -/
theorem Filled.step (h : Filled p g n) (hn : n < 2 ^ 32) : ∃ sess a db' t g', p.db.session theSpec.name = some sess ∧
    ¬ Overflows ⟨p.config, 0, zeroNorm⟩ sess [.put (fill n).id (fill n).stored] ∧
    (sess.grown zeroNorm [.put (fill n).id (fill n).stored]).rows.length ≤ 2 ^ 32 ∧
    (Database.onCollection theSpec.name ((Edit.upsert (fill n)).act ⟨p.config, 0, zeroNorm⟩) p.db).run device p.storage =
      ((.ok a, db'), t) ∧ Filled ⟨p.config, db', t⟩ g' (n + 1) := by
  obtain ⟨sess, hsess, hmem, hvalid, hsmall⟩ := h.next (by omega)
  have hrows : sess.memtable.rows.length < 2 ^ 32 := by
    rw [hmem, Memtable.rows_length_ofOps, countP_fills]
    exact hn
  have hgrown : (sess.grown zeroNorm [.put (fill n).id (fill n).stored]).rows.length = sess.memtable.rows.length + 1 :=
    List.length_append
  rcases hr : (Database.onCollection theSpec.name ((Edit.upsert (fill n)).act ⟨p.config, 0, zeroNorm⟩) p.db).run device
    p.storage with ⟨⟨r, db'⟩, t⟩
  obtain ⟨g1, g', ⟨a, rfl⟩, hg1, hcat, hops, hst⟩ :=
    (h.stands.upserted hsess (fill_wellFormed n) hvalid hrows hsmall).of_run hr
  rw [Function.update_self] at hg1
  obtain rfl := Option.some.inj hg1
  rw [Function.update_idem] at hst
  exact ⟨sess, a, db', t, g', hsess, hsmall, by rw [hgrown]; exact hrows, rfl, hst, hcat.trans h.cat,
    by rw [hops, h.ops]; rfl, h.config⟩

end Filled

theorem madeSite_filled : ∃ g, Filled madeSite g 0 ∧ g.docs = noDocs := by
  obtain ⟨g, hst, hcat, hops, hdocs⟩ := madeSite_stands .live
  exact ⟨g, ⟨hst, hcat, hops, rfl⟩, hdocs⟩

/-- A document is put into the collection of `madeSite`. -/
def putRun : (Except DbError EditAnswer × Database) × MemoryStorage :=
  (Database.onCollection theSpec.name ((Edit.upsert (fill 0)).act fullEnv) madeSite.db).run device madeSite.storage

/-- **A collection with one document**, which is not flushed yet. -/
def putSite : Site := ⟨fullConfig, putRun.1.2, putRun.2⟩

theorem putSite_run : ∃ M docs, Run (fun _ => True) Edit.Fits zeroNorm putSite M ∧ M theSpec.name = some docs := by
  obtain ⟨g, hfilled, -⟩ := madeSite_filled
  obtain ⟨sess, a, db', t', g', hsess, hsmall, hrows, -⟩ := hfilled.step (by decide)
  have hrun := Run.step (madeSite_run (fun _ => True) Edit.Fits trivial) (.edit 0 theSpec.name (.upsert (fill 0)) hsess
    ⟨fill_wellFormed 0, hrows, fun hover => absurd hover hsmall⟩ (show putRun = ((putRun.1.1, putRun.1.2), putRun.2) from rfl))
  exact ⟨_, _, hrun, by rw [Function.update_self, Function.update_self]; rfl⟩

/-- There is room to flush that document. -/
theorem putSite_flush_fits : ∃ sess, putSite.db.session theSpec.name = some sess ∧ sess.contains (fill 0).id = true ∧
    Edit.Fits ⟨putSite.config, 0, zeroNorm⟩ sess .flush := by
  have hmade : (putSite.db.session theSpec.name).map (fun s => (s.contains (fill 0).id, decide
      ((s.nextSegmentId.toNat + 1 < 2 ^ 64 ∧ s.store.current.sequence.toNat + 1 < 2 ^ 64) ∧ s.segments.length + 1 < 2 ^ 32 ∧
        manifestWeight s.store.current + (s.name.bytes.length + 24 * (s.segments.length + 1) + 64) + 36 < 2 ^ 64 ∧
        dirPrefixLen + s.memtable.liveRows.length * dirEntryLen < 2 ^ 32 ∧
        (s.memtable.liveRows.flatMap (fun row => row.id.toBytes)).length < 2 ^ 32))) = some (true, true) := by decide +kernel
  obtain ⟨sess, hsess, hmade⟩ := Option.map_eq_some_iff.mp hmade
  obtain ⟨hthere, hroom⟩ := Prod.mk.inj hmade
  obtain ⟨⟨hid, hseq⟩, hsegs, hmanifest, hdir, hheap⟩ := of_decide_eq_true hroom
  exact ⟨sess, hsess, hthere, fun _ => ⟨⟨hid, hseq, hsegs, hmanifest⟩, hdir, hheap⟩⟩

/-- It is flushed. -/
def flushRun : (Except DbError EditAnswer × Database) × MemoryStorage :=
  (Database.onCollection theSpec.name (Edit.flush.act fullEnv) putSite.db).run device putSite.storage

/-- **A collection with one document**, in a segment. -/
def flushSite : Site := ⟨fullConfig, flushRun.1.2, flushRun.2⟩

theorem flushSite_run : ∃ M docs, Run (fun _ => True) Edit.Fits zeroNorm flushSite M ∧ M theSpec.name = some docs := by
  obtain ⟨M, docs, hrun, hdocs⟩ := putSite_run
  obtain ⟨sess, hsess, -, hfits⟩ := putSite_flush_fits
  have heta : ∀ x : (Except DbError EditAnswer × Database) × MemoryStorage, x = ((x.1.1, x.1.2), x.2) := fun _ => rfl
  refine ⟨_, Edit.flush.leaves flushRun.1.1 docs, hrun.step (.edit 0 theSpec.name .flush hsess hfits (heta flushRun)), ?_⟩
  rw [Function.update_self, hdocs]
  rfl

/-- **As many upserts as the memtable can number.** -/
theorem exists_filled (may : Env → Session → Edit → Prop) (hmay : ∀ env sess doc, doc.vector.WellFormed →
      ¬ Overflows env sess [.put doc.id doc.stored] → (sess.grown env.invNorm [.put doc.id doc.stored]).rows.length ≤ 2 ^ 32 →
      may env sess (.upsert doc)) {n : Nat} (hn : n ≤ 2 ^ 32) : ∃ p g M, Run (fun _ => True) may zeroNorm p M ∧
    (M theSpec.name).isSome = true ∧ Filled p g n := by
  induction n with
  | zero =>
    obtain ⟨g, hfilled, -⟩ := madeSite_filled
    exact ⟨madeSite, g, _, madeSite_run (fun _ => True) may trivial, by rw [Function.update_self]; rfl, hfilled⟩
  | succ n ih =>
    obtain ⟨p, g, M, hrun, hM, hfilled⟩ := ih (by omega)
    obtain ⟨sess, a, db', t, g', hsess, hsmall, hrows, hr, hnext⟩ := hfilled.step (by omega)
    refine ⟨_, g', _, .step hrun (.edit 0 theSpec.name (.upsert (fill n)) hsess
      (hmay _ _ _ (fill_wellFormed n) hsmall hrows) hr), ?_, hnext⟩
    rw [Function.update_self, Option.isSome_map]
    exact hM

/-- One document, replaced twice, in a memtable. -/
theorem refines_replaced : ∃ p M docs sess, Run (fun _ => True) Edit.Fits zeroNorm p M ∧ M theSpec.name = some docs ∧
    p.db.session theSpec.name = some sess ∧ sess.Refines docs := by
  obtain ⟨p, g, M, hrun, hM, -⟩ := exists_filled Edit.Fits
    (fun _ _ _ hview hsmall hrows => ⟨hview, hrows, fun hover => absurd hover hsmall⟩) (show 3 ≤ 2 ^ 32 by decide)
  obtain ⟨docs, hdocs⟩ := Option.isSome_iff_exists.mp hM
  obtain ⟨⟨sess, hsess, href, -⟩, -⟩ := hrun.refines_map hdocs
  exact ⟨p, M, docs, sess, hrun, hdocs, hsess, href⟩

/-- What is brought along when only the content is asked for. -/
def contentOnly : Include := ⟨false, false, true⟩

/-- A read of the content finds that of the memtable's row. -/
theorem getWith_content {sess : Session} {id : DocId} {row : MemRow} (h : sess.memtable.get id = some (.present row)) :
    sess.getWith id contentOnly = .ok (some ⟨row.id, none, Metadata.new, row.content⟩) := by
  have hloc : sess.locate id = some .memtable := by
    unfold Session.locate
    rw [h]
  unfold Session.getWith
  rw [hloc]
  dsimp only
  rw [h]
  rfl

/-- **The memtable's row numbers run over**: a document is put, and another one under its id as often as the memtable has row
    numbers. A read then returns the first one, which has long been replaced. -/
theorem refines_no_further : ¬ ∀ p M, Run (fun _ => True) Unflushed zeroNorm p M → ∀ name docs, M name = some docs →
    ∃ sess, p.db.session name = some sess ∧ sess.Refines docs := by
  intro hall
  obtain ⟨p, g, M, hrun, hM, hfilled⟩ := exists_filled Unflushed (fun _ _ _ hview hsmall _ => ⟨_, rfl, hview, hsmall⟩)
    (le_refl (2 ^ 32))
  obtain ⟨sess, hsess, hmem, hvalid, hsmall⟩ := hfilled.next (le_refl _)
  have hview := fill_wellFormed (2 ^ 32)
  rcases hr : (Database.onCollection theSpec.name ((Edit.upsert (fill (2 ^ 32))).act ⟨p.config, 0, zeroNorm⟩) p.db).run device
    p.storage with ⟨⟨r, db'⟩, t⟩
  obtain ⟨⟨a, rfl⟩, sess', hsess', hput⟩ := (hfilled.stands.upserts hsess hview hvalid hsmall).of_run hr
  obtain ⟨docs, hdocs⟩ := Option.isSome_iff_exists.mp hM
  obtain ⟨sess1, hsess1, href⟩ := hall _ _ (.step hrun (.edit 0 theSpec.name (.upsert (fill (2 ^ 32))) hsess
    ⟨_, rfl, hview, hsmall⟩ hr)) theSpec.name (Function.update docs (fill (2 ^ 32)).id (some (fill (2 ^ 32)).stored))
    (by rw [Function.update_self, hdocs]; rfl)
  obtain rfl := Option.some.inj (hsess'.symm.trans hsess1)
  have hget := href.get (fill (2 ^ 32)).id contentOnly
  -- the id names the first row
  have hfull : sess.memtable.rows.length = 2 ^ 32 := by rw [hmem, Memtable.rows_length_ofOps, countP_fills]
  obtain ⟨row, hrow, hcontent⟩ := Option.map_eq_some_iff.mp (rows_fills (n := 2 ^ 32) (by decide))
  rw [← hmem] at hrow
  have hfirst : sess'.memtable.get (fill (2 ^ 32)).id = some (.present row) := by
    rw [hput, Memtable.get_full hfull, hrow]
    rfl
  rw [getWith_content hfirst, Function.update_self, hcontent] at hget
  have hsame := congrArg Document.content (Option.some.inj (Except.ok.inj hget))
  have hfill : (fill (2 ^ 32)).stored.content = some [66] := by
    unfold fill
    rw [if_neg (by decide)]
    rfl
  have hview' : ((fill (2 ^ 32)).stored.view (fill (2 ^ 32)).id contentOnly).content = some [66] := hfill
  have hletters : (some [65] : Option Bytes) = some [66] := hsame.trans hview'
  exact absurd hletters (by decide)

end Example

end IshaVectorDb.Engine
