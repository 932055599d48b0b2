import IshaVectorDb.Correctness.Opening

/-!
# `Correctness.Databases` — an **open database**

A database is open when each of its collections is in the state between two operations (`DbState`). Opening a
database at rest gives one (`Database.open_spec`), an operation on one collection leaves one
(`DbState.take`), and what a process leaves behind when it ends is at rest again (`DbState.atRest`).
-/

namespace IshaVectorDb.Engine

open Format Interaction KeyLog

/-- **An open database**, as the process and the view see it. -/
structure DbState (env : Env) (sel : Sel) (db : Database) (s : MemoryStorage) (G D : Str → Option Ghost) : Prop where
  shape : Shape s
  live : DiskInv (s.image .live) db.store G
  seen : DiskInv (s.image sel) db.store D
  opened : ∀ name coll, db.collections.lookup name = some coll →
    ∃ g ops docs, g.name = name ∧ State env sel ⟨db.store, coll⟩ s G D g ops docs
  all : ∀ name, (G name).isSome = (db.collections.lookup name).isSome

/-- Every segment file on disk belongs to a segment that the manifest names. -/
def NoOrphans (store : ManifestStore) (s : MemoryStorage) : Prop :=
  ∀ e ∈ store.current.collections, ∀ id which, (s.get (.segmentFile e.name id which)).isSome = true →
    id ∈ e.segments.map SegmentRef.id

section Adopt

variable {sel : Sel} {s : MemoryStorage} {store store' : ManifestStore} {G D : Str → Option Ghost}

/-- A database at rest has one manifest to adopt. -/
theorem AtRest.adopts (h : AtRest sel s store G D) (hc : Candidate (s.image .live) store store'.current)
    (hs : SlotsInv (s.image .live) store') (hstale : Stale store'.current (s.image .live (.manifest store'.slot.other))) :
    store' = store := by
  have hcur := candidate_of_stale (h.stale _ (.inl rfl)) hc
  obtain ⟨current', slot'⟩ := store'
  obtain rfl : current' = store.current := hcur
  by_cases hslot : slot' = store.slot
  · subst hslot; rfl
  · -- the other slot would hold the very manifest that it is stale against
    exfalso
    have hother : slot'.other = store.slot := by
      cases slot' <;> cases hs : store.slot <;> first | rfl | exact absurd hs.symm hslot
    rw [hother] at hstale
    have hout := h.live.slots.current
    have hd := Manifest.decode_encode h.live.slots.writable []
    rw [List.append_nil] at hd
    rcases hstale with hn | hn | ⟨bs, e, hn, he⟩ | ⟨bs, m', hn, hm, hlt⟩
    · rw [hout] at hn; cases hn
    · rw [hout] at hn; exact encodeBlock_ne_nil _ _ (Option.some.inj hn)
    · rw [hout] at hn
      obtain rfl := Option.some.inj hn
      rw [hd] at he; cases he
    · rw [hout] at hn
      obtain rfl := Option.some.inj hn
      rw [hd] at hm
      obtain rfl := Except.ok.inj hm
      exact UInt64.lt_irrefl _ hlt

/-- **What one image holds is at rest**, under the manifest that an open adopts. -/
theorem DiskInv.atRest (h : DiskInv (s.image .live) store G) (hs : Shape s)
    (hdirs : ∀ name, (G name).isSome = true → s.get (.walDir name) = some .dir) (hsame : s.image sel = s.image .live) :
    ∃ store', AtRest sel s store' G G := by
  obtain ⟨store', -, hc, hslots, hstale⟩ := h.slots.adopt
  have hd := h.adopt hc hslots hstale
  refine ⟨store', hs, hdirs, hd, by rw [hsame]; exact hd, fun view hv => ?_, fun name g hg => ⟨g.ops, g.docs, hg, List.prefix_refl _⟩⟩
  rcases hv with rfl | rfl
  · exact hstale
  · rw [hsame]; exact hstale

/-- **Opening a database at rest.** -/
theorem Database.open_spec {S : Type} {env : Env} {counter : UInt64} {x : S} (h : AtRest sel s store G D)
    (hvalid : env.config.validate = .ok ()) (hro : env.config.readOnly = false) :
    Spec sel (Database.open env counter) x s
      (fun db x' t => x' = x ∧ db.store = store ∧ (∃ G' D', DbState env sel db t G' D' ∧ Alike G G' ∧ Alike D D') ∧
        NoOrphans store t ∧ Steady sel store t ∧ ∀ name, G name = none → t.get (.walFile name 1) = s.get (.walFile name 1))
      (KeepsDocs D) (fun _ _ _ => True) := by
  obtain ⟨hn, -, -⟩ := (writable_iff _).mp h.live.slots.writable
  refine Triple.bind (Triple.lift hvalid (Triple.bind (Triple.bind ?_)))
  refine load_spec (G := fun _ _ _ => True) h.shape h.live.slots (fun store' hc hslots hstale => ?_) (fun c n => h.seen.recovers)
    (fun _ _ => trivial)
  obtain rfl := h.adopts hc hslots hstale
  refine Triple.pure (Triple.bind ((openCollections_spec h hro (fun e he => he) hn).conseq ?_))
  rintro colls x' t ⟨rfl, G', D', hall⟩
  have hnamed : ∀ name, (G' name).isSome = true → ∃ e ∈ store'.current.collections, e.name = name := fun name hsome =>
    (hall.rest.live.entries _ (.inl rfl)).2 name hsome
  refine Triple.pure ⟨rfl, rfl, ⟨G', D', ⟨hall.rest.shape, hall.rest.live, hall.rest.seen, fun name coll hlook => ?_,
    fun name => ?_⟩, hall.live, hall.seen⟩, fun e he id which hsome => ?_, hall.rest.stale, fun name hnone => ?_⟩
  · -- a collection that is there was opened from its entry
    by_cases hin : name ∈ store'.current.collections.map CollectionEntry.name
    · obtain ⟨e, he, rfl⟩ := List.mem_map.mp hin
      obtain ⟨coll', g, ops, docs, hlook', hname, hG', hD', hopened⟩ := hall.opened e he
      have hlook : colls.lookup e.name = some coll := hlook
      rw [hlook'] at hlook
      obtain rfl := Option.some.inj hlook
      rw [← hname] at hG' hD'
      obtain ⟨ops1, docs1, hD1, hlag⟩ := hall.rest.lags g.name g hG'
      rw [hD'] at hD1
      have hops : ops = ops1 := congrArg Ghost.ops (Option.some.inj hD1)
      exact ⟨g, ops, docs, hname, hall.rest.shape, ⟨hall.rest.live, hG', hopened.mem⟩,
        ⟨hall.rest.seen, hD', by rw [hops]; exact hlag, hopened.names⟩⟩
    · rw [(hall.unnamed name hin).1] at hlook; cases hlook
  · by_cases hin : name ∈ store'.current.collections.map CollectionEntry.name
    · obtain ⟨e, he, rfl⟩ := List.mem_map.mp hin
      obtain ⟨coll', g, ops, docs, hlook', hname, hG', -⟩ := hall.opened e he
      rw [hG', hlook']; rfl
    · rw [(hall.unnamed name hin).1, Option.isSome_none]
      by_contra hne
      obtain ⟨e, he, hename⟩ := hnamed name (Option.isSome_iff_ne_none.mpr (fun h0 => hne (by rw [h0]; rfl)))
      exact hin (by rw [← hename]; exact List.mem_map_of_mem he)
  · obtain ⟨coll', g, ops, docs, -, hname, -, -, hopened⟩ := hall.opened e he
    exact hopened.only id which (by rw [hname]; exact hsome)
  · refine hall.others _ (fun e he howner => ?_)
    obtain ⟨g, hg, -⟩ := (h.live.entries _ (.inl rfl)).1 e he
    rw [← Option.some.inj howner, hnone] at hg
    cases hg

end Adopt

section Lift

variable {env : Env} {sel : Sel} {db : Database} {s t : MemoryStorage} {G D : Str → Option Ghost}

/-- The collection of an open database, as its operations see it. -/
theorem DbState.session {name : Str} {sess : Session} (h : DbState env sel db s G D) (hs : db.session name = some sess) :
    db.collections.lookup name = some sess.coll ∧ sess.store = db.store ∧
      ∃ g ops docs, g.name = name ∧ State env sel sess s G D g ops docs := by
  obtain ⟨coll, hlook, rfl⟩ := Option.map_eq_some_iff.mp hs
  exact ⟨hlook, rfl, h.opened name coll hlook⟩

/-- **An operation on one collection** leaves the database open. -/
theorem DbState.take {sess' : Session} {g g' : Ghost} {ops docs} (h : DbState env sel db s G D)
    (ha : After env sel sess sess' s t G D g g' ops docs) :
    DbState env sel (db.take g.name sess') t (Function.update G g.name (some g'))
      (Function.update D g.name (some (g'.withLog ops docs))) := by
  have hname : g'.name = g.name := congrArg Catalog.name ha.cat
  refine ⟨ha.state.shape, ha.state.live.disk, ha.state.seen.disk, fun name coll hlook => ?_, fun name => ?_⟩
  · have hlook : (db.collections.insert g.name sess'.coll).lookup name = some coll := hlook
    by_cases hn : name = g.name
    · rw [hn, AList.lookup_insert] at hlook
      obtain rfl := Option.some.inj hlook
      exact ⟨g', ops, docs, by rw [hname, hn], ha.state⟩
    · rw [AList.lookup_insert_ne hn] at hlook
      obtain ⟨g1, ops1, docs1, hn1, hst⟩ := h.opened name coll hlook
      have hne : g1.name ≠ g.name := by rw [hn1]; exact hn
      have hwal := ha.others g1.name hne
      exact ⟨g1, ops1, docs1, hn1, ha.state.shape,
        ⟨ha.state.live.disk, by rw [Function.update_of_ne hne]; exact hst.live.here, hst.live.mem.congr hwal⟩,
        ⟨ha.state.seen.disk, by rw [Function.update_of_ne hne]; exact hst.seen.there, hst.seen.lag, hst.seen.names⟩⟩
  · show (Function.update G g.name (some g') name).isSome = ((db.collections.insert g.name sess'.coll).lookup name).isSome
    by_cases hn : name = g.name
    · rw [hn, Function.update_self, AList.lookup_insert]; rfl
    · rw [Function.update_of_ne hn, AList.lookup_insert_ne hn]; exact h.all name

/-- Every collection has a directory for its log. -/
theorem DbState.dirs (h : DbState env sel db s G D) {name : Str} (hsome : (G name).isSome = true) :
    s.get (.walDir name) = some .dir := by
  rw [h.all] at hsome
  obtain ⟨coll, hlook⟩ := Option.isSome_iff_exists.mp hsome
  obtain ⟨g, ops, docs, rfl, hst⟩ := h.opened name coll hlook
  obtain ⟨-, -, -, bytes, hbytes, -⟩ := hst.live.mem.wal
  exact hst.shape.dir_of_image hbytes

/-- **What a process leaves when it ends**, as a later process will see it. -/
theorem DbState.atRest (h : DbState env sel db s G D) : ∃ store, AtRest .live s store G G :=
  h.live.atRest h.shape (fun _ => h.dirs) rfl

/-- An operation on one collection as a process of the database. -/
theorem onCollection_spec {α : Type} {name : Str} {m : Action Session α} {sess : Session} (hs : db.session name = some sess)
    {Q : α → Database → MemoryStorage → Prop} {K : Call → Nat → Image → Prop} {F : Call → Database → Image → Prop}
    (hm : Spec sel m sess s (fun a sess' t => Q a (db.take name sess') t) K (fun c sess' img => F c (db.take name sess') img)) :
    Spec sel (Database.onCollection name m) db s Q K F := by
  obtain ⟨coll, hlook, rfl⟩ := Option.map_eq_some_iff.mp hs
  refine Triple.bind (Triple.get ?_)
  rw [hlook]
  exact Triple.zoom hm

end Lift

end IshaVectorDb.Engine
