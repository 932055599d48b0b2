import IshaVectorDb.Correctness.Log
import IshaVectorDb.Correctness.SegmentFiles
import IshaVectorDb.Engine.Database

/-!
# `Correctness.Disk` — what a **disk image** stands for

A manifest entry names segments; over the log's writes they stand for a map of documents (`Names`). An image
holds a database (`DiskInv`) when one slot holds the manifest that the engine has in memory, the other is
stale or holds a newer one, and under *every* manifest that a later open might choose each collection's
segments and log stand for the same documents. `Recovers` forgets which manifest: it is what an open needs.
-/

namespace IshaVectorDb.Engine

open Format Interaction KeyLog

/-! ## Segments behind ids -/

section Pool

variable {cat : Catalog}

/-- The segments of a collection, by id. -/
abbrev Pool (cat : Catalog) := UInt64 → Option (Seg cat)

/-- What the segment that a manifest entry names holds. -/
def layer (pool : Pool cat) (r : SegmentRef) : DocMap := ((pool r.id).map Seg.contents).getD (fun _ => none)

/-- What the segments a list names hold together. -/
def layers (pool : Pool cat) (refs : List SegmentRef) : List DocMap := refs.map (layer pool)

/-- **The segments named, under the log's writes, are these documents**, no document being live in two. -/
structure Names (pool : Pool cat) (ops : List LogOp) (docs : DocMap) (refs : List SegmentRef) : Prop where
  present : ∀ r ∈ refs, ∃ g, pool r.id = some g ∧ r.rows = UInt32.ofNat g.rows.length
  separate : Separate (layers pool refs)
  docs : replay (stack (layers pool refs)) ops = docs

theorem layer_of {pool : Pool cat} {r : SegmentRef} {g : Seg cat} (h : pool r.id = some g) :
    layer pool r = g.contents := by unfold layer; rw [h]; rfl

/-- Each segment may have lost some of the documents that satisfy `P`, and nothing else. -/
def PoolTrims (P : DocId → Prop) (pool' pool : Pool cat) : Prop :=
  ∀ id g, pool id = some g → ∃ g', pool' id = some g' ∧ g'.rows = g.rows ∧ Trims P g'.contents g.contents

theorem PoolTrims.refl (P : DocId → Prop) (pool : Pool cat) : PoolTrims P pool pool :=
  fun _ g h => ⟨g, h, rfl, Trims.refl P _⟩

theorem forall₂_map {α β γ δ : Type} {R : γ → δ → Prop} {f : α → γ} {f' : β → δ} {S : α → β → Prop}
    {xs : List α} {ys : List β} (h : List.Forall₂ S xs ys) (hR : ∀ a ∈ xs, ∀ b, S a b → R (f a) (f' b)) :
    List.Forall₂ R (xs.map f) (ys.map f') := by
  induction h with
  | nil => exact .nil
  | cons hab _ ih =>
    exact .cons (hR _ List.mem_cons_self _ hab) (ih (fun a ha => hR a (List.mem_cons_of_mem _ ha)))

theorem forall₂_same {α : Type} (xs : List α) : List.Forall₂ (fun a b : α => a = b) xs xs := by
  induction xs with
  | nil => exact .nil
  | cons a xs ih => exact .cons rfl ih

/-- The layers of a list after its segments were trimmed. -/
theorem layers_trims {P : DocId → Prop} {pool pool' : Pool cat} (htrim : PoolTrims P pool' pool)
    {refs : List SegmentRef} (hp : ∀ r ∈ refs, ∃ g, pool r.id = some g ∧ r.rows = UInt32.ofNat g.rows.length) :
    List.Forall₂ (Trims P) (layers pool' refs) (layers pool refs) := by
  refine forall₂_map (forall₂_same refs) (fun r hr r' hrr => ?_)
  subst hrr
  obtain ⟨g, hg, -⟩ := hp r hr
  obtain ⟨g', hg', -, ht⟩ := htrim r.id g hg
  rw [layer_of hg, layer_of hg']; exact ht

/-- **Losing documents that the log writes changes nothing.** -/
theorem Names.trims {P : DocId → Prop} {pool pool' : Pool cat} {ops : List LogOp} {docs : DocMap}
    {refs : List SegmentRef} (h : Names pool ops docs refs) (htrim : PoolTrims P pool' pool)
    (hP : ∀ k, P k → Named ops k ∨ stack (layers pool refs) k = none) : Names pool' ops docs refs := by
  obtain ⟨hsep, hstack⟩ := trims_stack (layers_trims htrim h.present) h.separate
  refine ⟨fun r hr => ?_, hsep, ?_⟩
  · obtain ⟨g, hg, hrows⟩ := h.present r hr
    obtain ⟨g', hg', hrows', -⟩ := htrim r.id g hg
    exact ⟨g', hg', by rw [hrows', hrows]⟩
  · rw [← h.docs]
    refine replay_congr (fun k hk => ?_)
    rcases hstack k with he | ⟨hnone, hpk⟩
    · exact he
    · rw [hnone]
      rcases hP k hpk with hn | hn
      · exact absurd hn hk
      · exact hn.symm

/-- The list depends on the segments it names only. -/
theorem Names.congr {pool pool' : Pool cat} {ops : List LogOp} {docs : DocMap} {refs : List SegmentRef}
    (h : Names pool ops docs refs) (hp : ∀ r ∈ refs, pool' r.id = pool r.id) : Names pool' ops docs refs := by
  have hl : layers pool' refs = layers pool refs :=
    List.map_congr_left (fun r hr => by unfold layer; rw [hp r hr])
  exact ⟨fun r hr => by rw [hp r hr]; exact h.present r hr, by rw [hl]; exact h.separate, by rw [hl]; exact h.docs⟩

/-- A list that names the same segments under other bitmap generations. -/
theorem Names.regenerate {pool : Pool cat} {ops : List LogOp} {docs : DocMap} {refs refs' : List SegmentRef}
    (h : Names pool ops docs refs) (hr : List.Forall₂ (fun a b : SegmentRef => a.id = b.id ∧ a.rows = b.rows) refs' refs) :
    Names pool ops docs refs' := by
  have hl : layers pool refs' = layers pool refs := by
    unfold layers
    clear h
    induction hr with
    | nil => rfl
    | cons hab _ ih => rw [List.map_cons, List.map_cons, ih]; unfold layer; rw [hab.1]
  refine ⟨fun r hmem => ?_, by rw [hl]; exact h.separate, by rw [hl]; exact h.docs⟩
  obtain ⟨r', hr', hid, hrows⟩ := exists_of_forall₂ hr hmem
  rw [hid, hrows]; exact h.present r' hr'

theorem Names.perm {pool : Pool cat} {ops : List LogOp} {docs : DocMap} {refs refs' : List SegmentRef}
    (h : Names pool ops docs refs) (hp : refs'.Perm refs) : Names pool ops docs refs' := by
  have hl : (layers pool refs').Perm (layers pool refs) := hp.map _
  have hsep : Separate (layers pool refs') := h.separate.perm hl.symm (fun h => h.symm)
  exact ⟨fun r hr => h.present r (hp.mem_iff.mp hr), hsep, by rw [stack_perm hsep hl]; exact h.docs⟩

/-- **Writes may be added to the log.** -/
theorem Names.append {pool : Pool cat} {ops : List LogOp} {docs : DocMap} {refs : List SegmentRef}
    (h : Names pool ops docs refs) (more : List LogOp) : Names pool (ops ++ more) (replay docs more) refs :=
  ⟨h.present, h.separate, by rw [replay_append, h.docs]⟩

/-- **The segments alone are the documents when they already say what the log says.** -/
theorem Names.absorbed {pool : Pool cat} {docs : DocMap} {refs : List SegmentRef} (h : Names pool [] docs refs)
    {ops : List LogOp} (hops : ∀ k v, verdict ops k = some v → docs k = v) : Names pool ops docs refs := by
  refine ⟨h.present, h.separate, ?_⟩
  have hdocs : stack (layers pool refs) = docs := h.docs
  rw [hdocs]
  funext k
  rw [replay_apply]
  cases hv : verdict ops k with
  | none => rfl
  | some v => exact (hops k v hv).symm

end Pool

/-! ## Manifest slots -/

/-- The slot's content does not outrank the manifest. -/
def Stale (m : Manifest) (v : Option Bytes) : Prop :=
  v = none ∨ v = some [] ∨ (∃ bs e, v = some bs ∧ Manifest.decode bs = .error e) ∨
    ∃ bs m', v = some bs ∧ Manifest.decode bs = .ok m' ∧ m'.sequence < m.sequence

/-- The slot holds a manifest that outranks the given one. -/
structure Outranks (m' m : Manifest) (v : Option Bytes) : Prop where
  bytes : v = some (encodeBlock .manifest m'.payload)
  writable : m'.Writable
  newer : m.sequence < m'.sequence

/-- The slots of an image hold the manifest in memory, and beside it a stale or a newer one. -/
structure SlotsInv (img : Image) (store : ManifestStore) : Prop where
  current : img (.manifest store.slot) = some (encodeBlock .manifest store.current.payload)
  writable : store.current.Writable
  other : Stale store.current (img (.manifest store.slot.other)) ∨
    ∃ m', Outranks m' store.current (img (.manifest store.slot.other))

/-- A manifest that an open might choose. -/
def Candidate (img : Image) (store : ManifestStore) (m : Manifest) : Prop :=
  m = store.current ∨ Outranks m store.current (img (.manifest store.slot.other))

/-! ## Collections -/

/-- What a collection is on disk: its specification, its segments, the writes in its log and the documents they
    stand for; `next` bounds the ids of the segments in use. -/
structure Ghost where
  cat : Catalog
  good : GoodCatalog cat
  pool : Pool cat
  ops : List LogOp
  docs : DocMap
  next : Nat
  bound : next < 2 ^ 64

namespace Ghost

/-- The same collection with another log. -/
def withLog (g : Ghost) (ops : List LogOp) (docs : DocMap) : Ghost := { g with ops := ops, docs := docs }

@[simp] theorem withLog_cat (g : Ghost) (ops : List LogOp) (docs : DocMap) : (g.withLog ops docs).cat = g.cat := rfl

@[simp] theorem withLog_ops (g : Ghost) (ops : List LogOp) (docs : DocMap) : (g.withLog ops docs).ops = ops := rfl

@[simp] theorem withLog_docs (g : Ghost) (ops : List LogOp) (docs : DocMap) : (g.withLog ops docs).docs = docs := rfl

@[simp] theorem withLog_next (g : Ghost) (ops : List LogOp) (docs : DocMap) : (g.withLog ops docs).next = g.next := rfl

def name (g : Ghost) : Str := g.cat.name

/-- The files that the collection needs. -/
def Needs (g : Ghost) (p : DbPath) : Prop :=
  p = .catalog g.name ∨ p = .walFile g.name 1 ∨
    ∃ id which, id.toNat < g.next ∧ (g.pool id).isSome ∧ p = .segmentFile g.name id which

end Ghost

/-- What the log of a collection holds; a log that was never made is empty. -/
def Image.log (img : Image) (name : Str) : Bytes := (img (.walFile name 1)).getD []

theorem Image.log_congr {img img' : Image} {name : Str} (h : img' (.walFile name 1) = img (.walFile name 1)) :
    img'.log name = img.log name := by
  unfold Image.log; rw [h]

/-- A collection's files are in the image. -/
structure CollDisk (img : Image) (g : Ghost) : Prop where
  catalog : img (.catalog g.name) = some (encodeBlock .catalog g.cat.payload)
  log : LogHolds g.cat (img.log g.name) g.ops
  few : g.ops.countP Op.isPut ≤ 2 ^ 32
  segments : ∀ id seg, id.toNat < g.next → g.pool id = some seg → seg.id = id ∧ OnDisk img seg

/-- The segments of a manifest entry stand for the collection's documents. -/
structure EntryInv (g : Ghost) (e : CollectionEntry) : Prop where
  names : Names g.pool g.ops g.docs e.segments
  below : ∀ r ∈ e.segments, r.id.toNat < g.next

theorem CollDisk.congr {img img' : Image} {g : Ghost} (h : CollDisk img g) (hsame : ∀ p, g.Needs p → img' p = img p) :
    CollDisk img' g := by
  obtain ⟨hc, hl, hfew, hs⟩ := h
  refine ⟨by rw [hsame _ (.inl rfl)]; exact hc, ?_, hfew, ?_⟩
  · rw [Image.log_congr (hsame _ (.inr (.inl rfl)))]; exact hl
  intro id seg hid hseg
  obtain ⟨hsid, hdisk⟩ := hs id seg hid hseg
  refine ⟨hsid, fun which => ?_⟩
  have hneed : g.Needs (.segmentFile g.cat.name seg.id which) :=
    .inr (.inr ⟨seg.id, which, by rw [hsid]; exact hid, by rw [hsid, hseg]; rfl, rfl⟩)
  rw [hsame _ hneed]; exact hdisk which

/-- The collection whose directory a path lies in. -/
def DbPath.owner : DbPath → Option Str
  | .catalog name => some name
  | .walFile name _ => some name
  | .segmentFile name _ _ => some name
  | .indexFile name _ _ => some name
  | _ => none

theorem Ghost.Needs.owner {g : Ghost} {p : DbPath} (h : g.Needs p) : p.owner = some g.name := by
  rcases h with rfl | rfl | ⟨id, which, -, -, rfl⟩ <;> rfl

/-- **What an image of a database holds.** -/
structure DiskInv (img : Image) (store : ManifestStore) (G : Str → Option Ghost) : Prop where
  slots : SlotsInv img store
  named : ∀ name g, G name = some g → g.name = name ∧ CollDisk img g
  entries : ∀ m, Candidate img store m → (∀ e ∈ m.collections, ∃ g, G e.name = some g ∧ EntryInv g e) ∧
    ∀ name, (G name).isSome → ∃ e ∈ m.collections, e.name = name

/-- **An open of the image finds these documents.** -/
def Recovers (img : Image) (docs : Str → Option DocMap) : Prop :=
  ∃ store G, DiskInv img store G ∧ ∀ name, (G name).map Ghost.docs = docs name

theorem DiskInv.recovers {img : Image} {store : ManifestStore} {G : Str → Option Ghost} (h : DiskInv img store G) :
    Recovers img (fun name => (G name).map Ghost.docs) := ⟨store, G, h, fun _ => rfl⟩

/-- **Only the files a collection needs matter.** -/
theorem DiskInv.congr {img img' : Image} {store : ManifestStore} {G : Str → Option Ghost} (h : DiskInv img store G)
    (hslots : ∀ slot, img' (.manifest slot) = img (.manifest slot))
    (hsame : ∀ name g, G name = some g → ∀ p, g.Needs p → img' p = img p) : DiskInv img' store G := by
  have hcand : ∀ m, Candidate img' store m → Candidate img store m := fun m hm => by
    unfold Candidate at hm ⊢; rwa [hslots] at hm
  refine ⟨⟨by rw [hslots]; exact h.slots.current, h.slots.writable, by rw [hslots]; exact h.slots.other⟩,
    fun name g hg => ?_, fun m hm => h.entries m (hcand m hm)⟩
  obtain ⟨hn, hd⟩ := h.named name g hg
  exact ⟨hn, hd.congr (hsame name g hg)⟩

/-- **One collection changes**, the others and the slots stay. -/
theorem DiskInv.step {img img' : Image} {store : ManifestStore} {G : Str → Option Ghost} (h : DiskInv img store G)
    {t : Ghost} (hslots : ∀ slot, img' (.manifest slot) = img (.manifest slot))
    (hoff : Off (fun p => p.owner = some t.name) img img') (hdisk : CollDisk img' t)
    (hsome : (G t.name).isSome)
    (hentry : ∀ m, Candidate img store m → ∀ e ∈ m.collections, e.name = t.name → EntryInv t e) :
    DiskInv img' store (Function.update G t.name (some t)) := by
  have hcand : ∀ m, Candidate img' store m → Candidate img store m := fun m hm => by
    unfold Candidate at hm ⊢; rwa [hslots] at hm
  refine ⟨⟨by rw [hslots]; exact h.slots.current, h.slots.writable, by rw [hslots]; exact h.slots.other⟩,
    fun name g hg => ?_, fun m hm => ⟨fun e he => ?_, fun name hn => ?_⟩⟩
  · by_cases hname : name = t.name
    · rw [hname, Function.update_self] at hg
      obtain rfl := Option.some.inj hg
      exact ⟨hname.symm, hdisk⟩
    · rw [Function.update_of_ne hname] at hg
      obtain ⟨hn, hd⟩ := h.named name g hg
      refine ⟨hn, hd.congr (fun p hp => hoff p (fun ho => ?_))⟩
      have ho : p.owner = some t.name := ho
      rw [hp.owner] at ho
      exact hname (hn.symm.trans (Option.some.inj ho))
  · by_cases hname : e.name = t.name
    · exact ⟨t, by rw [hname, Function.update_self], hentry m (hcand m hm) e he hname⟩
    · obtain ⟨g, hg, he'⟩ := (h.entries m (hcand m hm)).1 e he
      exact ⟨g, by rw [Function.update_of_ne hname]; exact hg, he'⟩
  · refine (h.entries m (hcand m hm)).2 name ?_
    by_cases hname : name = t.name
    · rw [hname]; exact hsome
    · rwa [Function.update_of_ne hname] at hn

end IshaVectorDb.Engine
