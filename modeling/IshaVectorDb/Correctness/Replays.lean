import IshaVectorDb.Correctness.Deaths

/-!
# `Correctness.Replays` — the log **gives the memtable back**

What a collection has logged since its last flush is what its memtable holds: replayed into an empty memtable it makes the same
one, row for row (`Run.log_replays`), so that a process that ends without closing loses nothing. The one write that is logged without
a check is a single deletion, and the log then gives nothing back (`replay_refuses`).
-/

namespace IshaVectorDb.Engine

open Format Interaction KeyLog

section Runs

variable {invNorm : InvNorm} {p : Site} {M : Str → Option DocMap}

/-- **A collection's log is its memtable.** -/
theorem State.replays {env : Env} {sel : Sel} {sess : Session} {s : MemoryStorage} {G D : Str → Option Ghost} {g : Ghost}
    {ops : List LogOp} {docs : DocMap} (h : State env sel sess s G D g ops docs) :
    ∃ report t, (replayInto env.invNorm (.walFile sess.name 1) sess.catalog.idKind (Memtable.new sess.catalog.dimension .f32) ()).run
      device s = ((.ok (report, sess.memtable), ()), t) := by
  have hlog : LogHolds g.cat ((s.image .live).log g.cat.name) g.ops := (h.live.disk.named g.name g h.live.here).2.log
  have hmem : sess.memtable = Memtable.ofOps env.invNorm g.cat.dimension g.ops := h.live.mem.memtable
  have hspec : Spec .live (replayInto env.invNorm (.walFile g.cat.name 1) g.cat.idKind (Memtable.new g.cat.dimension .f32)) () s
      (fun r _ _ => r.2 = sess.memtable) (fun _ _ _ => True) (fun _ _ _ => True) :=
    replayInto_spec h.shape hlog (fun report _ => hmem.symm) (fun _ _ => trivial)
  have hcat : sess.catalog = g.cat := h.live.mem.catalog
  obtain ⟨⟨report, m⟩, u, t, hrun, hm⟩ := hspec.runs
  obtain rfl : m = sess.memtable := hm
  rw [show sess.name = g.cat.name from congrArg Catalog.name hcat, hcat]
  exact ⟨report, t, hrun⟩

/-- **The log gives the memtable back.** After every run, replaying a collection's log into an empty memtable makes the one that
    the process has, and the next open, without a close, finds the same documents. -/
theorem Run.log_replays (h : Run (fun _ => True) Edit.Fits invNorm p M) {name : Str} {sess : Session}
    (hsess : p.db.session name = some sess) :
    (∃ report t, (replayInto invNorm (.walFile name 1) sess.catalog.idKind (Memtable.new sess.catalog.dimension .f32) ()).run device
      p.storage = ((.ok (report, sess.memtable), ()), t)) ∧
    p.db.Has M ∧ Reopens invNorm p.storage M := by
  obtain ⟨G, hst, rfl⟩ := h.stands (fun _ _ => .inl (show Sel.live = .live from rfl)) (fun _ _ _ hfits => hfits)
  obtain ⟨g, rfl, hstate⟩ := hst.session hsess 0
  have hname : sess.name = g.name := congrArg Catalog.name hstate.live.mem.catalog
  exact ⟨hname ▸ hstate.replays, (hst.state 0).has, ((hst.state 0).rests hst.steady).reopens⟩

end Runs

section Example

/-- A document that is put, replaced by another, and deleted: the log gives all three writes back. -/
theorem log_replays_deleted : ∃ sess report t, deletedSite.db.session theSpec.name = some sess ∧ sess.memtable.isEmpty = false ∧
    (replayInto zeroNorm (.walFile theSpec.name 1) sess.catalog.idKind (Memtable.new sess.catalog.dimension .f32) ()).run device
      deletedSite.storage = ((.ok (report, sess.memtable), ()), t) := by
  obtain ⟨M, hrun⟩ := deletedSite_run
  have hmade : (deletedSite.db.session theSpec.name).map (fun s => s.memtable.isEmpty) = some false := by decide +kernel
  obtain ⟨sess, hsess, hpending⟩ := Option.map_eq_some_iff.mp hmade
  obtain ⟨⟨report, t, hreplay⟩, -⟩ := Run.log_replays hrun hsess
  exact ⟨sess, report, t, hsess, hpending, hreplay⟩

/-- **The deletion of an id that is not of the collection's kind** is logged, and the replay refuses it. -/
theorem replay_refuses : ¬ ∀ p M, Run (fun _ => True) Edit.Handed zeroNorm p M → ∀ name sess, p.db.session name = some sess →
    ∃ report m t, (replayInto zeroNorm (.walFile name 1) sess.catalog.idKind (Memtable.new sess.catalog.dimension .f32) ()).run device
      p.storage = ((.ok (report, m), ()), t) := by
  intro hall
  obtain ⟨M, hrun⟩ := foreignSite_run
  have hmade : (foreignSite.db.session theSpec.name).map (fun s => ((replayInto zeroNorm (.walFile theSpec.name 1) s.catalog.idKind
      (Memtable.new s.catalog.dimension .f32) ()).run device foreignSite.storage).1.1.isOk) = some false := by decide +kernel
  obtain ⟨sess, hsess, hrefused⟩ := Option.map_eq_some_iff.mp hmade
  obtain ⟨report, m, t, hreplay⟩ := hall _ M hrun theSpec.name sess hsess
  rw [hreplay] at hrefused
  cases hrefused

end Example

end IshaVectorDb.Engine
