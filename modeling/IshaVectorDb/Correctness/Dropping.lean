import IshaVectorDb.Correctness.Creating
import IshaVectorDb.Correctness.Edits

/-!
# `Correctness.Dropping` — **dropping** a collection

The manifest goes first and the files second: the commit leaves a database of the other collections, and what is then
removed lies below a directory that none of them needs (`dropCollection_ends`).
-/

namespace IshaVectorDb.Engine

open Format Interaction KeyLog

/-! ## Removing entries -/

section Erase

variable {s : MemoryStorage} {l : List DbPath} {p q dir : DbPath}

theorem get_eraseAll (s : MemoryStorage) (l : List DbPath) (p : DbPath) :
    (s.eraseAll l).get p = if p ∈ l then none else s.get p := by
  induction l generalizing s with
  | nil => rfl
  | cons q l ih =>
    show ((s.erase q).eraseAll l).get p = _
    rw [ih]
    by_cases hl : p ∈ l
    · rw [if_pos hl, if_pos (List.mem_cons_of_mem _ hl)]
    · rw [if_neg hl]
      by_cases hq : p = q
      · rw [if_pos (by rw [hq]; exact List.mem_cons_self), hq, MemoryStorage.get_erase_self]
      · rw [if_neg (fun h => (List.mem_cons.mp h).elim hq hl), MemoryStorage.get_erase_ne s hq]

theorem mem_below : p ∈ s.below dir ↔ (s.get p).isSome = true ∧ p ≠ .root ∧ (dir = .root ∨ dir ∈ p.ancestry) := by
  unfold MemoryStorage.below MemoryStorage.get
  rw [List.mem_filter, ← AList.mem_keys, ← AList.lookup_isSome, decide_eq_true_iff]

/-- What holds the directory of an entry holds the entry. -/
theorem mem_ancestry_of_parent (h : q ∈ p.parent.ancestry) : q ∈ p.ancestry := by
  cases p <;> simp only [DbPath.parent, DbPath.ancestry, List.mem_cons, List.not_mem_nil, or_false] at h ⊢ <;> tauto

/-- Entries leave the storage in shape when a directory goes with all that is in it. -/
theorem Shape.eraseAll (h : Shape s) (hroot : .root ∉ l) (hl : ∀ p e, s.get p = some e → p.parent ∈ l → p ∈ l) :
    Shape (s.eraseAll l) := by
  have hkept : ∀ p e, (s.eraseAll l).get p = some e → p ∉ l ∧ s.get p = some e := fun p e he => by
    rw [get_eraseAll] at he
    split at he
    · cases he
    · rename_i hp; exact ⟨hp, he⟩
  refine ⟨?_, fun p e he => ?_, fun p d hd => h.dirs p d (hkept p _ hd).2, fun p hd => h.files p (hkept p _ hd).2⟩
  · rw [get_eraseAll, if_neg hroot]; exact h.root
  · obtain ⟨hp, he⟩ := hkept p e he
    rw [get_eraseAll, if_neg (fun hpar => hp (hl p e he hpar))]
    exact h.nested p e he

theorem mem_below_of_parent {e : Entry} (he : s.get q = some e) (hpar : q.parent ∈ s.below dir) : q ∈ s.below dir := by
  obtain ⟨-, hne, hanc⟩ := mem_below.mp hpar
  refine mem_below.mpr ⟨by rw [he]; rfl, fun hq => hne (by rw [hq]; rfl), hanc.imp_right mem_ancestry_of_parent⟩

end Erase

/-! ## An entry less -/

theorem sum_weight_le {l l' : List CollectionEntry} (h : l'.Sublist l) : (l'.map entryWeight).sum ≤ (l.map entryWeight).sum := by
  induction h with
  | slnil => exact le_refl _
  | cons e _ ih => rw [List.map_cons, List.sum_cons]; omega
  | cons_cons e _ ih => rw [List.map_cons, List.map_cons, List.sum_cons, List.sum_cons]; omega

/-- The manifest that names one collection less is writable. -/
theorem writable_without {store : ManifestStore} (h : store.current.Writable)
    (hroom : manifestWeight store.current + 36 < 2 ^ 64) (name : Str) (now : UInt64) :
    (store.successor (Manifest.without store.current name) now).Writable := by
  obtain ⟨hn, hall, -⟩ := (writable_iff _).mp h
  have hsub : (store.successor (Manifest.without store.current name) now).collections.Sublist store.current.collections :=
    List.filter_sublist
  refine (writable_iff _).mpr ⟨hn.sublist (hsub.map _), fun c hc => hall c (hsub.subset hc), ?_⟩
  have hle := payload_length_le (store.successor (Manifest.without store.current name) now)
  have hweight : manifestWeight (store.successor (Manifest.without store.current name) now) ≤ manifestWeight store.current :=
    Nat.add_le_add_left (sum_weight_le hsub) _
  omega

/-- **A collection is taken out of the manifest.** -/
theorem DiskInv.removed {img : Image} {store : ManifestStore} {D : Str → Option Ghost} (h : DiskInv img store D) (name : Str)
    {now : UInt64} (hw : (store.successor (Manifest.without store.current name) now).Writable)
    (hnewer : store.current.sequence < (store.successor (Manifest.without store.current name) now).sequence) :
    DiskInv (Function.update img (.manifest store.slot.other) (some (encodeBlock .manifest
        (store.successor (Manifest.without store.current name) now).payload)))
      ⟨store.successor (Manifest.without store.current name) now, store.slot.other⟩ (Function.update D name none) := by
  have hcol : ∀ e, e ∈ (store.successor (Manifest.without store.current name) now).collections ↔
      e ∈ store.current.collections ∧ e.name ≠ name := fun e => by
    show e ∈ store.current.collections.filter _ ↔ _
    rw [List.mem_filter, decide_eq_true_iff]
  have hentries := h.entries _ (.inl rfl)
  refine h.commit hw hnewer (fun other g hg => ?_) ⟨fun e he => ?_, fun other hsome => ?_⟩
  · by_cases hn : other = name
    · rw [hn, Function.update_self] at hg; cases hg
    · rw [Function.update_of_ne hn] at hg
      exact h.named other g hg
  · obtain ⟨he, hne⟩ := (hcol e).mp he
    obtain ⟨g, hg, hi⟩ := hentries.1 e he
    exact ⟨g, (Function.update_of_ne hne _ _).trans hg, hi⟩
  · by_cases hn : other = name
    · rw [hn, Function.update_self] at hsome; cases hsome
    · rw [Function.update_of_ne hn] at hsome
      obtain ⟨e, he, rfl⟩ := hentries.2 other hsome
      exact ⟨e, (hcol e).mpr ⟨he, hn⟩, rfl⟩

/-! ## The files -/

section Files

variable {sel : Sel} {s : MemoryStorage} {store : ManifestStore} {G D : Str → Option Ghost} {name : Str}

/-- What is below a collection's directory. -/
def BelowDir (name : Str) (p : DbPath) : Prop := DbPath.collectionDir name ∈ p.ancestry

theorem BelowDir.owner {p : DbPath} {other : Str} (h : BelowDir name p) (ho : p.owner = some other) : other = name := by
  unfold BelowDir at h
  cases p <;> simp_all [DbPath.owner, DbPath.ancestry]

theorem not_below_slot (slot : Slot) : ¬ BelowDir name (.manifest slot) := by simp [BelowDir, DbPath.ancestry]

/-- **What lies below a dropped collection's directory** nobody needs. -/
theorem DiskInv.off_dir {img img' : Image} (h : DiskInv img store D) (hnone : D name = none)
    (hoff : Off (BelowDir name) img img') : DiskInv img' store D := by
  refine h.off hoff (fun other g hg p hp hbelow => ?_) (fun slot => not_below_slot slot)
  rw [(h.named other g hg).1.symm.trans (hbelow.owner hp.owner), hnone] at hg
  cases hg

theorem get_below {p : DbPath} (h : ¬ BelowDir name p) : (s.eraseAll (s.below (.collectionDir name))).get p = s.get p := by
  rw [get_eraseAll, if_neg]
  intro hmem
  exact h ((mem_below.mp hmem).2.2.resolve_left (fun heq => by cases heq))

/-- What lies below a collection's directory is gone with it. -/
theorem get_gone {p : DbPath} (h : BelowDir name p) (hne : p ≠ .root) :
    (s.eraseAll (s.below (.collectionDir name))).get p = none := by
  rw [get_eraseAll]
  split
  · rfl
  · rename_i hmem
    by_contra hsome
    exact hmem (mem_below.mpr ⟨Option.isSome_iff_ne_none.mpr hsome, hne, .inr h⟩)

theorem shape_below (hs : Shape s) : Shape (s.eraseAll (s.below (.collectionDir name))) :=
  hs.eraseAll (fun hroot => (mem_below.mp hroot).2.1 rfl) (fun _ _ he hpar => mem_below_of_parent he hpar)

/-- **A dropped collection's files are removed.** -/
theorem AtRest.cleared (h : AtRest sel s store G D) (hG : G name = none) (hD : D name = none) :
    AtRest sel (s.eraseAll (s.below (.collectionDir name))) store G D := by
  have himg : ∀ view, Off (BelowDir name) (s.image view) ((s.eraseAll (s.below (.collectionDir name))).image view) :=
    fun view p hp => by
      unfold MemoryStorage.image
      rw [get_below hp]
  refine ⟨shape_below h.shape, fun other hsome => ?_, h.live.off_dir hG (himg .live), h.seen.off_dir hD (himg sel),
    fun view hv => ?_, h.lags⟩
  · rw [get_below]
    · exact h.dirs other hsome
    · intro hbelow
      have hother : other = name := by simpa [BelowDir, DbPath.ancestry, eq_comm] using hbelow
      rw [hother, hG] at hsome
      cases hsome
  · rw [himg view _ (not_below_slot _)]
    exact h.stale view hv

/-- **The commit without a collection.** -/
theorem AtRest.removed (h : AtRest sel s store G D) (name : Str) {now : UInt64} {next : Manifest} {t : MemoryStorage}
    (hnext : next = store.successor (Manifest.without store.current name) now) (hw : next.Writable)
    (hnewer : store.current.sequence < next.sequence) (hs : Shape t)
    (himg : ∀ view, t.image view =
      Function.update (s.image view) (.manifest store.slot.other) (some (encodeBlock .manifest next.payload)))
    (hget : ∀ p, p ≠ .manifest store.slot.other → t.get p = s.get p) :
    AtRest sel t ⟨next, store.slot.other⟩ (Function.update G name none) (Function.update D name none) := by
  subst hnext
  refine ⟨hs, fun other hsome => ?_, ?_, ?_, ?_, fun other g hg => ?_⟩
  · rw [hget _ (fun heq => by cases heq)]
    by_cases hn : other = name
    · rw [hn, Function.update_self] at hsome; cases hsome
    · rw [Function.update_of_ne hn] at hsome
      exact h.dirs other hsome
  · rw [himg]; exact h.live.removed name hw hnewer
  · rw [himg]; exact h.seen.removed name hw hnewer
  · refine Steady.committed h.live.slots h.seen.slots hw hnewer (fun view => ?_)
    rw [himg, Function.update_of_ne]
    exact fun heq => Slot.other_ne store.slot (DbPath.manifest.inj heq).symm
  · by_cases hn : other = name
    · rw [hn, Function.update_self] at hg; cases hg
    · rw [Function.update_of_ne hn] at hg ⊢
      exact h.lags other g hg

end Files

/-! ## The drop -/

section Drop

variable {env : Env} {sel : Sel} {db : Database} {s t : MemoryStorage} {G D : Str → Option Ghost}

/-- **One collection less is open.** -/
theorem DbState.left {store : ManifestStore} (h : DbState env sel db s G D) {name : Str}
    (hrest : AtRest sel t store (Function.update G name none) (Function.update D name none))
    (hothers : ∀ other, other ≠ name → t.image .live (.walFile other 1) = s.image .live (.walFile other 1)) :
    DbState env sel ⟨store, db.collections.erase name⟩ t (Function.update G name none) (Function.update D name none) := by
  refine hrest.opened (fun other coll hlook => ?_) (fun other => ?_)
  · have hn : other ≠ name := fun heq => by rw [heq, AList.lookup_erase] at hlook; cases hlook
    rw [AList.lookup_erase_ne hn] at hlook
    obtain ⟨g, ops, docs, rfl, hst⟩ := h.opened other coll hlook
    exact ⟨g, ops, docs, rfl, (Function.update_of_ne hn _ _).trans hst.live.here,
      (Function.update_of_ne hn _ _).trans hst.seen.there, hst.live.mem.congr (hothers _ hn), hst.seen.names⟩
  · by_cases hn : other = name
    · rw [hn, AList.lookup_erase, Function.update_self]
      rfl
    · rw [AList.lookup_erase_ne hn, Function.update_of_ne hn]
      exact h.all other

/-- **There is room for a commit** of the manifest as it is: no counter of it runs out. -/
structure DropRoom (db : Database) : Prop where
  sequence : db.store.current.sequence.toNat + 1 < 2 ^ 64
  manifest : manifestWeight db.store.current + 36 < 2 ^ 64

/-- **A drop**, of which no call fails. -/
theorem dropCollection_ends (h : DbState env sel db s G D) (hsteady : Steady sel db.store s)
    (hro : env.config.readOnly = false) {name : Str} (hthere : (G name).isSome = true) (hroom : DropRoom db) :
    Ends device (Database.dropCollection env name) db s (fun r db' t => r = .ok () ∧
      DbState env sel db' t (Function.update G name none) (Function.update D name none) ∧ Steady sel db'.store t ∧
      ∀ other, t.image .live (.walFile other 1) = if other = name then none else s.image .live (.walFile other 1)) := by
  set next := db.store.successor (Manifest.without db.store.current name) env.nowMs with hnext
  obtain ⟨g, hg⟩ := Option.isSome_iff_exists.mp hthere
  obtain ⟨coll, ops, docs, hlook, rfl, hst⟩ := h.collection hg
  have hw : next.Writable := writable_without h.live.slots.writable hroom.manifest g.name env.nowMs
  have hnewer : db.store.current.sequence < next.sequence := successor_newer hroom.sequence _ _
  have hdir : s.get (.collectionDir g.name) = some .dir := h.shape.nested _ _ (h.dirs hthere)
  refine Ends.done_bind (checkWritable_done hro _ db) (Ends.get_bind ?_)
  rw [hlook]
  refine Ends.after (I := fun _ _ s' => Shape s' ∧ True) (F := fun _ _ s' => Shape s' ∧ True)
    (Triple.zoom (Triple.bind (Triple.get (show Spec sel (ManifestStore.write next) db.store s _ (fun _ _ _ => True)
      (fun _ _ _ => True) from write_spec h.shape hw (fun t hs himg hget => ?_) (fun _ _ => trivial) (fun _ _ _ _ => trivial)
    (fun _ _ => trivial) (fun _ _ _ _ => trivial)))))
  have hrest := (h.rests hsteady).removed g.name hnext hw hnewer hs himg hget
  have hothers : ∀ other, t.image .live (.walFile other 1) = s.image .live (.walFile other 1) := fun other => by
    rw [himg, Function.update_of_ne (fun heq => by cases heq)]
  refine Ends.modify_bind (Ends.lift_bind (fun dir hd => ?_) (fun e he => ?_))
  rotate_left
  · rw [show Layout.collectionDir g.name = .ok (.collectionDir g.name) from Layout.under_ok g.good.name _] at he
    cases he
  obtain rfl := Except.ok.inj (hd.symm.trans (Layout.under_ok g.good.name (.collectionDir g.name)))
  have hdir' : t.get (.collectionDir g.name) = some .dir := by rw [hget _ (fun heq => by cases heq)]; exact hdir
  have hmeta : device.step (.metadata (.collectionDir g.name)) t = (.ok (some 0), t) := by
    rw [step_metadata]
    unfold MemoryStorage.metadata
    rw [hdir']
  have hremove : device.step (.removeDirAll (.collectionDir g.name)) t =
      (.ok (), t.eraseAll (t.below (.collectionDir g.name))) := by
    show t.removeDirAll _ = _
    unfold MemoryStorage.removeDirAll
    rw [hdir']
  have hcleared := hrest.cleared (Function.update_self _ _ _) (Function.update_self _ _ _)
  refine Ends.seq (Ends.call (Q := fun r x' s' => r = .ok (some 0) ∧ x' = _ ∧ s' = t) hmeta ⟨rfl, rfl, rfl⟩) ?_ ?_
  · rintro found x' s' ⟨hfound, rfl, rfl⟩
    obtain rfl := Except.ok.inj hfound
    have hlogs : ∀ other, (s'.eraseAll (s'.below (.collectionDir g.name))).image .live (.walFile other 1) =
        if other = g.name then none else s.image .live (.walFile other 1) := fun other => by
      split
      · rename_i hn
        rw [hn]
        exact MemoryStorage.image_none (get_gone (by simp [BelowDir, DbPath.ancestry]) (fun heq => by cases heq)) .live
      · rename_i hn
        rw [← hothers other]
        unfold MemoryStorage.image
        rw [get_below (fun hbelow => hn (BelowDir.owner hbelow rfl))]
    refine Ends.call hremove ⟨rfl, h.left hcleared (fun other hn => ?_), hcleared.stale, hlogs⟩
    rw [hlogs, if_neg hn]
  · rintro e x' s' ⟨he, -, -⟩
    cases he

end Drop

end IshaVectorDb.Engine
