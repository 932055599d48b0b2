import IshaVectorDb.Correctness.WriteBack

/-!
# `Correctness.Pages` — what is stored is memory **as it was at one moment**

A page does operations and flushes in any order, and its transactions complete or abort as they may. A `History` is a
page with what its past was: memory before each operation, so that a **moment** is a number of operations done.

A transaction that aborts loses what it carried: its keys were taken out of the sets before it began, and nothing puts
them back. As long as what was lost is noted again before the next look at the sets, the store is memory at the moment
that the latest transaction to complete began at, and a flush that resolves has stored all that was done before it was
called (`stored_is_a_moment`).
-/

namespace IshaVectorDb.Sdk.IndexedDb

open Format Engine

/-! ## Histories -/

/-- The keys that a transaction carries. -/
def Drain.keys (d : Drain) : List Key :=
  d.putFiles.map (fun p => .file p.1) ++ d.deleteFiles.map .file ++
    (d.putBlocks.map (fun p => .block p.1) ++ d.deleteBlocks.map .block)

/-- A page and its past. -/
structure History where
  page : Page
  /-- Memory before each operation. -/
  past : List Image
  /-- The moment at which the transaction that runs began. -/
  began : Nat
  /-- The moment at which the latest one that completed began; the first is that of loading. -/
  kept : Nat
  /-- The moment at which each call of `flush` was made. -/
  made : List Nat
  /-- The keys that transactions carried which aborted since the latest one that completed. -/
  lost : List Key

namespace History

def opened (stored : Image) : History := ⟨.opened stored, [], 0, 0, [], []⟩

/-- The moment that it is. -/
def now (h : History) : Nat := h.past.length

/-- Memory at every moment so far. -/
def moments (h : History) : List Image := h.past ++ [h.page.adapter.toImage]

/-- The moment at which a transaction began that runs once a call has looked at the sets. -/
def begins (h : History) : Nat := match h.page.inFlight with
  | some _ => h.began
  | none => h.now

/-- **One step** of a page, and what becomes past by it. -/
def step (h : History) (s : PageStep) : History :=
  let next := { h with page := h.page.step s }
  match s with
  | .operate _ => { next with past := h.moments }
  | .flush => { next with began := h.begins, made := h.made ++ [h.now] }
  | .resume i => if h.page.calls[i]? = some .woken then { next with began := h.begins } else next
  | .commit => match h.page.inFlight with
      | some _ => { next with kept := h.began, lost := [] }
      | none => next
  | .abort => match h.page.inFlight with
      | some d => { next with lost := h.lost ++ d.keys }
      | none => next

def run (h : History) (steps : List PageStep) : History := steps.foldl step h

/-- What is stored is memory at that moment. -/
def Shows (h : History) (moment : Nat) : Prop := ∃ img, h.moments[moment]? = some img ∧ h.page.stored.Same img

/-- **A point in time**: the store is memory at the moment that the latest transaction to complete began at, and for
    every call that has resolved, it is memory at a moment no earlier than the call. -/
structure PointInTime (h : History) : Prop where
  stored : h.Shows h.kept
  answered : ∀ i made : Nat, h.made[i]? = some made → h.page.calls[i]? = some FlushCall.resolved → ∃ moment, made ≤ moment ∧
    h.Shows moment

/-- Whether a step looks at the sets: a call does that begins or goes on, when no transaction runs. -/
def looks (h : History) : PageStep → Bool
  | .flush => h.page.inFlight.isNone
  | .resume i => h.page.inFlight.isNone && h.page.calls[i]? = some .woken
  | _ => false

/-- **Nothing is missed**: every key that an aborted transaction carried has been noted again since, or is stored as
    memory has it. -/
def Mended (h : History) : Prop :=
  ∀ k ∈ h.lost, h.page.adapter.Noted k ∨ h.page.adapter.contents k = h.page.stored.contents k

/-- A run that is mended whenever the sets are looked at. -/
def Mends (h : History) : List PageStep → Prop
  | [] => True
  | s :: rest => (h.looks s → h.Mended) ∧ Mends (h.step s) rest

end History

/-! ## What a transaction carries -/

theorem mem_values {V : Type} {m : TextMap V} {keys : List Bytes} {key : Bytes} (hkey : key ∈ keys)
    (hvalue : (m.lookup key).isSome) : key ∈ (Drain.values m keys).map Prod.fst := by
  obtain ⟨value, hv⟩ := Option.isSome_iff_exists.mp hvalue
  refine List.mem_map.mpr ⟨(key, value), List.mem_filterMap.mpr ⟨key, hkey, ?_⟩, rfl⟩
  rw [hv]
  rfl

/-- Every key that was noted is carried. -/
theorem mem_keys {a : Adapter} (ha : a.Tracked) {k : Key} (hk : a.Noted k) : k ∈ a.drain.keys := by
  unfold Drain.keys
  cases k with
  | file path =>
    refine List.mem_append_left _ ?_
    rcases hk with hd | hd
    · have hvalue : (a.files.lookup path).isSome := Option.isSome_map.symm.trans (ha.dirty (.file path) hd)
      obtain ⟨p, hp, rfl⟩ := List.mem_map.mp (mem_values hd hvalue)
      exact List.mem_append_left _ (List.mem_map_of_mem hp)
    · exact List.mem_append_right _ (List.mem_map_of_mem hd)
  | block key =>
    refine List.mem_append_right _ ?_
    rcases hk with hd | hd
    · have hvalue : (a.blocks.lookup key).isSome := Option.isSome_map.symm.trans (ha.dirty (.block key) hd)
      obtain ⟨p, hp, rfl⟩ := List.mem_map.mp (mem_values hd hvalue)
      exact List.mem_append_left _ (List.mem_map_of_mem hp)
    · exact List.mem_append_right _ (List.mem_map_of_mem hd)

/-- Elsewhere a transaction changes nothing. -/
theorem contents_other {a : Adapter} (ha : a.Tracked) (stored : Image) {k : Key} (hk : k ∉ a.drain.keys) :
    (a.drain.apply stored).contents k = stored.contents k := by
  rw [contents_drain ha, if_neg (fun hn => hk (mem_keys ha hn))]

/-! ## What holds of a page at any time -/

namespace History

variable {h : History}

/-- **What holds of a page** at any time: what memory and store differ in is noted, or was lost; and with a transaction
    that runs, it is noted since that began, or carried. -/
structure Sound (h : History) : Prop where
  tracked : h.page.adapter.Tracked
  kept : h.Shows h.kept
  rest : h.page.inFlight = none → ∀ k, ¬ h.page.adapter.Noted k → k ∉ h.lost →
    h.page.adapter.contents k = h.page.stored.contents k
  flight : ∀ d, h.page.inFlight = some d →
    (∃ img, h.moments[h.began]? = some img ∧ (d.apply h.page.stored).Same img) ∧
    (∀ k, ¬ h.page.adapter.Noted k → h.page.adapter.contents k = (d.apply h.page.stored).contents k) ∧
    ∀ k, k ∉ d.keys → (d.apply h.page.stored).contents k = h.page.stored.contents k
  counted : h.made.length = h.page.calls.length
  due : ∀ made ∈ h.made, made ≤ h.now
  answered : ∀ i made : Nat, h.made[i]? = some made → h.page.calls[i]? = some FlushCall.resolved →
    ∃ moment, made ≤ moment ∧ h.Shows moment
  running : h.page.inFlight.isSome → ∀ i made : Nat, h.made[i]? = some made →
    h.page.calls[i]? = some FlushCall.resolved ∨ h.page.calls[i]? = some FlushCall.draining → made ≤ h.began

/-- Memory is what it is now. -/
theorem moments_now (h : History) : h.moments[h.now]? = some h.page.adapter.toImage := by
  unfold moments now
  rw [List.getElem?_append_right (Nat.le_refl _), Nat.sub_self]
  rfl

theorem not_noted_of_idle {a : Adapter} (hidle : a.idle = true) (k : Key) : ¬ a.Noted k := by
  simp only [Adapter.idle, Bool.and_eq_true, List.isEmpty_iff] at hidle
  obtain ⟨⟨⟨hdb, hdf⟩, hgb⟩, hgf⟩ := hidle
  cases k with
  | file path => simp [Adapter.Noted, Adapter.Dirty, Adapter.Deleted, hdf, hgf]
  | block key => simp [Adapter.Noted, Adapter.Dirty, Adapter.Deleted, hdb, hgb]

/-- An adapter that has noted nothing. -/
theorem tracked_of_idle {a : Adapter} (hidle : a.idle = true) : a.Tracked :=
  ⟨fun k hk => (not_noted_of_idle hidle k (.inl hk)).elim, fun k hk => (not_noted_of_idle hidle k (.inr hk)).elim⟩

theorem opened_sound (stored : Image) : (opened stored).Sound where
  tracked := tracked_of_idle rfl
  kept := ⟨stored, rfl, fun _ => rfl, fun _ => rfl⟩
  rest _ _ _ _ := rfl
  flight _ hd := nomatch hd
  counted := rfl
  due _ hm := nomatch hm
  answered _ _ hm := nomatch hm
  running hr := nomatch hr

/-! ## Its steps -/

/-- A moment that was stays what it was. -/
theorem moments_operate (h : History) (op : AdapterOp) {moment : Nat} {img : Image}
    (hm : h.moments[moment]? = some img) : (h.step (.operate op)).moments[moment]? = some img := by
  show (h.moments ++ [_])[moment]? = some img
  rw [List.getElem?_append_left (List.getElem?_eq_some_iff.mp hm).1, hm]

theorem Sound.operate (hs : h.Sound) (op : AdapterOp) : (h.step (.operate op)).Sound := by
  have hnotes := op.notes h.page.adapter
  have hshows : ∀ moment, h.Shows moment → (h.step (.operate op)).Shows moment :=
    fun moment ⟨img, hm, hsame⟩ => ⟨img, moments_operate h op hm, hsame⟩
  -- where nothing is noted, nothing has changed
  have hsame : ∀ k, ¬ (op.effect h.page.adapter).Noted k →
      (op.effect h.page.adapter).contents k = h.page.adapter.contents k := by
    intro k hk
    by_contra hne
    exact hk (hnotes.notes k hne)
  constructor
  · exact hnotes.tracked hs.tracked
  · exact hshows _ hs.kept
  · intro hnone k hk hlost
    exact (hsame k hk).trans (hs.rest hnone k (fun hn => hk (hnotes.keeps k hn)) hlost)
  · intro d hd
    obtain ⟨⟨img, hm, himg⟩, hmem, hkeys⟩ := hs.flight d hd
    refine ⟨⟨img, moments_operate h op hm, himg⟩, fun k hk => ?_, hkeys⟩
    exact (hsame k hk).trans (hmem k (fun hn => hk (hnotes.keeps k hn)))
  · exact hs.counted
  · intro made hm
    have := hs.due made hm
    show made ≤ h.moments.length
    unfold moments
    rw [List.length_append]
    exact Nat.le_add_right_of_le this
  · intro i made hm hc
    obtain ⟨moment, hle, hshow⟩ := hs.answered i made hm hc
    exact ⟨moment, hle, hshows moment hshow⟩
  · exact hs.running

/-- Where nothing is missed and no transaction runs, memory and store differ in what is noted alone. -/
theorem Sound.contents_mended (hs : h.Sound) (hnone : h.page.inFlight = none) (hmended : h.Mended) (k : Key)
    (hk : ¬ h.page.adapter.Noted k) : h.page.adapter.contents k = h.page.stored.contents k := by
  by_cases hlost : k ∈ h.lost
  · exact (hmended k hlost).resolve_left hk
  · exact hs.rest hnone k hk hlost

theorem getElem?_set_some {calls : List FlushCall} {i j : Nat} {c c' : FlushCall}
    (h : (calls.set i c)[j]? = some c') : c' = c ∨ calls[j]? = some c' := by
  rw [List.getElem?_set] at h
  split at h
  · split at h
    · exact .inl (Option.some.inj h).symm
    · exact nomatch h
  · exact .inr h

/-- A call that waits for the transaction that runs. -/
theorem Sound.wait (hs : h.Sound) (i : Nat) :
    ({ h with page := { h.page with calls := h.page.calls.set i .waiting } } : History).Sound where
  tracked := hs.tracked
  kept := hs.kept
  rest := hs.rest
  flight := hs.flight
  counted := hs.counted.trans (List.length_set ..).symm
  due := hs.due
  answered j made hm hc := by
    rcases getElem?_set_some hc with hc | hc
    · exact nomatch hc
    · exact hs.answered j made hm hc
  running hr j made hm hc := by
    refine hs.running hr j made hm (hc.imp (fun hc => ?_) (fun hc => ?_))
    · exact (getElem?_set_some hc).resolve_left nofun
    · exact (getElem?_set_some hc).resolve_left nofun

/-- A call that finds nothing to write back. -/
theorem Sound.idle (hs : h.Sound) (hnone : h.page.inFlight = none) (hmended : h.Mended)
    (hidle : ∀ k, ¬ h.page.adapter.Noted k) (i : Nat) :
    ({ h with page := { h.page with calls := h.page.calls.set i .resolved }, began := h.now } : History).Sound where
  tracked := hs.tracked
  kept := hs.kept
  rest := hs.rest
  flight d hd := nomatch hnone.symm.trans hd
  counted := hs.counted.trans (List.length_set ..).symm
  due := hs.due
  answered j made hm hc := by
    rcases getElem?_set_some hc with _ | hc
    · refine ⟨h.now, hs.due made (List.mem_of_getElem? hm), h.page.adapter.toImage, h.moments_now, ?_⟩
      exact Image.same_iff.mpr (funext fun k => (hs.contents_mended hnone hmended k (hidle k)).symm)
    · exact hs.answered j made hm hc
  running hr := by
    rw [show ({ h with page := { h.page with calls := h.page.calls.set i .resolved }, began := h.now } :
      History).page.inFlight = none from hnone] at hr
    exact nomatch hr

/-- A call that begins a transaction. -/
theorem Sound.drain (hs : h.Sound) (hnone : h.page.inFlight = none) (hmended : h.Mended) (i : Nat) :
    ({ h with
      page := { h.page with
        adapter := h.page.adapter.drained
        inFlight := some h.page.adapter.drain
        calls := h.page.calls.set i .draining }
      began := h.now } : History).Sound := by
  -- what is carried makes the store what memory is now, in every key
  have hall : ∀ k, (h.page.adapter.drain.apply h.page.stored).contents k = h.page.adapter.contents k := by
    intro k
    rw [contents_drain hs.tracked]
    split
    · rfl
    · next hk => exact (hs.contents_mended hnone hmended k hk).symm
  refine ⟨tracked_of_idle rfl, hs.kept, nofun, ?_, hs.counted.trans (List.length_set ..).symm, hs.due, ?_, ?_⟩
  · intro d hd
    cases hd
    refine ⟨⟨h.page.adapter.toImage, h.moments_now, ?_⟩, ?_, ?_⟩
    · exact Image.same_iff.mpr (funext hall)
    · exact fun k _ => (hall k).symm
    · exact fun k hk => contents_other hs.tracked h.page.stored hk
  · intro j made hm hc
    rcases getElem?_set_some hc with hc | hc
    · exact nomatch hc
    · exact hs.answered j made hm hc
  · intro _ j made hm _
    exact hs.due made (List.mem_of_getElem? hm)

/-- A call that looks at the sets, as it begins or goes on. -/
theorem Sound.flush (hs : h.Sound) (i : Nat) (hmended : h.page.inFlight = none → h.Mended) :
    ({ h with page := Page.flush i h.page, began := h.begins } : History).Sound := by
  cases hf : h.page.inFlight with
  | some d =>
    rw [show Page.flush i h.page = { h.page with calls := h.page.calls.set i .waiting } by simp only [Page.flush, hf],
      show h.begins = h.began by simp only [begins, hf]]
    exact hs.wait i
  | none =>
    rw [show h.begins = h.now by simp only [begins, hf]]
    by_cases hidle : h.page.adapter.idle = true
    · rw [show Page.flush i h.page = { h.page with calls := h.page.calls.set i .resolved } by
        simp only [Page.flush, hf, if_pos hidle]]
      exact hs.idle hf (hmended hf) (not_noted_of_idle hidle) i
    · rw [show Page.flush i h.page = { h.page with
          adapter := h.page.adapter.drained
          inFlight := some h.page.adapter.drain
          calls := h.page.calls.set i .draining } by
        simp only [Page.flush, hf, if_neg hidle]]
      exact hs.drain hf (hmended hf) i

/-- A call that has just been made. -/
theorem Sound.call (hs : h.Sound) : ({ h with
    page := { h.page with calls := h.page.calls ++ [.woken] }, made := h.made ++ [h.now] } : History).Sound := by
  have hcall : ∀ {i made : Nat} {c : FlushCall}, (h.made ++ [h.now])[i]? = some made → (h.page.calls ++ [FlushCall.woken])[i]? = some c →
      c = .woken ∨ h.made[i]? = some made ∧ h.page.calls[i]? = some c := by
    intro i made c hm hc
    rcases Nat.lt_or_ge i h.page.calls.length with hi | hi
    · rw [List.getElem?_append_left hi] at hc
      rw [List.getElem?_append_left (hs.counted ▸ hi)] at hm
      exact .inr ⟨hm, hc⟩
    · rw [List.getElem?_append_right hi] at hc
      exact .inl (List.mem_singleton.mp (List.mem_of_getElem? hc))
  refine ⟨hs.tracked, hs.kept, hs.rest, hs.flight, ?_, ?_, ?_, ?_⟩
  · rw [List.length_append, List.length_append, hs.counted]
    rfl
  · intro made hm
    rcases List.mem_append.mp hm with hm | hm
    · exact hs.due made hm
    · exact Nat.le_of_eq (List.mem_singleton.mp hm)
  · intro i made hm hc
    obtain ⟨hm, hc⟩ := (hcall hm hc).resolve_left nofun
    exact hs.answered i made hm hc
  · intro hr i made hm hc
    rcases hc with hc | hc
    · obtain ⟨hm, hc⟩ := (hcall hm hc).resolve_left nofun
      exact hs.running hr i made hm (.inl hc)
    · obtain ⟨hm, hc⟩ := (hcall hm hc).resolve_left nofun
      exact hs.running hr i made hm (.inr hc)

theorem Sound.commit (hs : h.Sound) : (h.step .commit).Sound := by
  cases hf : h.page.inFlight with
  | none =>
    have : h.step .commit = h := by
      simp only [step, Page.step, hf]
    rwa [this]
  | some d =>
    obtain ⟨himg, hmem, -⟩ := hs.flight d hf
    have : h.step .commit = { h with
        page := { h.page with
          stored := d.apply h.page.stored, inFlight := none, calls := h.page.calls.map .completed }
        kept := h.began
        lost := [] } := by
      simp only [step, Page.step, hf]
    rw [this]
    refine ⟨hs.tracked, himg, fun _ k hk _ => hmem k hk, fun d hd => (by cases hd), ?_, hs.due, ?_, fun hr => by cases hr⟩
    · rw [List.length_map]
      exact hs.counted
    · intro i made hm hc
      refine ⟨h.began, hs.running (hf ▸ rfl) i made hm ?_, himg⟩
      rw [List.getElem?_map] at hc
      obtain ⟨c, hci, hc⟩ := Option.map_eq_some_iff.mp hc
      rw [hci]
      cases c with
      | resolved => exact .inl rfl
      | draining => exact .inr rfl
      | _ => cases hc

theorem Sound.abort (hs : h.Sound) : (h.step .abort).Sound := by
  cases hf : h.page.inFlight with
  | none =>
    have : h.step .abort = h := by
      simp only [step, Page.step, hf]
    rwa [this]
  | some d =>
    obtain ⟨-, hmem, hkeys⟩ := hs.flight d hf
    have : h.step .abort = { h with
        page := { h.page with inFlight := none, calls := h.page.calls.map .aborted }
        lost := h.lost ++ d.keys } := by
      simp only [step, Page.step, hf]
    rw [this]
    refine ⟨hs.tracked, hs.kept, ?_, fun d hd => (by cases hd), ?_, hs.due, ?_, fun hr => by cases hr⟩
    · intro _ k hk hlost
      rw [List.mem_append, not_or] at hlost
      exact (hmem k hk).trans (hkeys k hlost.2)
    · rw [List.length_map]
      exact hs.counted
    · intro i made hm hc
      refine hs.answered i made hm ?_
      rw [List.getElem?_map] at hc
      obtain ⟨c, hci, hc⟩ := Option.map_eq_some_iff.mp hc
      rw [hci]
      cases c with
      | resolved => rfl
      | _ => cases hc

/-- **One step**: a page on which nothing is missed stays sound. -/
theorem Sound.after_step (hs : h.Sound) (s : PageStep) (hmends : h.looks s → h.Mended) : (h.step s).Sound := by
  cases s with
  | operate op => exact hs.operate op
  | flush => exact hs.call.flush h.page.calls.length (fun hnone => hmends (Option.isNone_iff_eq_none.mpr hnone))
  | resume i =>
    by_cases hc : h.page.calls[i]? = some .woken
    · have : h.step (.resume i) = { h with page := Page.flush i h.page, began := h.begins } := by
        simp only [step, Page.step, if_pos hc]
      rw [this]
      refine hs.flush i (fun hnone => hmends ?_)
      simp only [looks, hnone, hc]
      rfl
    · have : h.step (.resume i) = h := by
        simp only [step, Page.step, if_neg hc]
      rwa [this]
  | commit => exact hs.commit
  | abort => exact hs.abort

/-- **A whole run**. -/
theorem Sound.after_run (hs : h.Sound) (steps : List PageStep) (hmends : h.Mends steps) : (h.run steps).Sound := by
  induction steps generalizing h with
  | nil => exact hs
  | cons s rest ih => exact ih (hs.after_step s hmends.1) hmends.2

/-! ## Runs of a page -/

/-- Its page goes the way that the page alone goes. -/
theorem run_page (h : History) (steps : List PageStep) : (h.run steps).page = steps.foldl Page.step h.page := by
  induction steps generalizing h with
  | nil => rfl
  | cons s rest ih =>
    have hstep : (h.step s).page = h.page.step s := by
      cases s with
      | operate op => rfl
      | flush => rfl
      | resume i =>
        unfold step
        dsimp only
        split <;> rfl
      | commit =>
        unfold step
        dsimp only
        split <;> rfl
      | abort =>
        unfold step
        dsimp only
        split <;> rfl
    exact (ih (h.step s)).trans (congrArg (rest.foldl Page.step) hstep)

instance (h : History) : Decidable h.Mended :=
  inferInstanceAs (Decidable (∀ k ∈ h.lost, h.page.adapter.Noted k ∨
    h.page.adapter.contents k = h.page.stored.contents k))

instance decideMends (h : History) : (steps : List PageStep) → Decidable (h.Mends steps)
  | [] => isTrue trivial
  | s :: rest =>
      have := decideMends (h.step s) rest
      inferInstanceAs (Decidable ((h.looks s → h.Mended) ∧ Mends (h.step s) rest))

/-- **What is stored is a point in time.** Over what was stored when the page was opened, whatever operations are done
    and whichever transactions complete or abort: as long as nothing that an aborted one carried is missed when the sets
    are looked at next, the store is memory as it was when the latest transaction to complete began, and every call that
    has resolved has stored what was done before it. -/
theorem stored_is_a_moment (stored : Image) (steps : List PageStep) (hmends : (opened stored).Mends steps) :
    ((opened stored).run steps).PointInTime :=
  have hs := (opened_sound stored).after_run steps hmends
  ⟨hs.kept, hs.answered⟩

/-- A file is made, and the transaction that carries it aborts; it is noted again by a truncation, and stored. -/
theorem aborted_then_stored : ((opened .empty).run
    [.operate (.file (.open [0x2F, 0x66] true)), .flush, .abort,
      .operate (.file (.truncate ⟨[0x2F, 0x66]⟩ 0)), .flush, .commit]).PointInTime :=
  stored_is_a_moment _ _ (by decide)

/-- **The keys of a transaction that aborts are missed**: the next flush finds nothing to write back and resolves, and
    the file that was made before it is not stored. -/
theorem aborted_is_missed : ¬ ∀ (stored : Image) (steps : List PageStep), ((opened stored).run steps).PointInTime := by
  intro h
  obtain ⟨moment, hle, img, hm, hsame⟩ := (h .empty
    [.operate (.file (.open [0x2F, 0x66] true)), .flush, .abort, .flush]).answered 1 1 (by decide) (by decide)
  match moment, hle with
  | 1, _ =>
    cases hm
    exact absurd (hsame.1 [0x2F, 0x66]) (by decide)
  | moment + 2, _ => exact nomatch hm

end History

end IshaVectorDb.Sdk.IndexedDb
