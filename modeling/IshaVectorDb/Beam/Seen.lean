import IshaVectorDb.Beam.Search

/-!
# `Beam.Seen` — **how many nodes** a search scores

A search scores a node when it first sees it, and never again. `searchSeen` is a search that also gives the nodes it has
seen; it keeps at most as many as it has scored, and often far fewer.
-/

namespace Beam

variable {N S : Type}

section

variable [DecidableEq N] (h : Heaps N S) (g : Space N S) (ef : Nat)

/-- A search's result, and the nodes it has seen, each scored once. -/
def searchSeen (fuel : Nat) (entries : List N) : Option (List (Scored N S) × List N) := do
  let p ← entries.foldlM (enter h g) ⟨[], [], []⟩
  let p ← loop h g ef fuel p
  return (h.sort p.results, p.seen)

theorem searchSeen_fst (fuel : Nat) (entries : List N) :
    (searchSeen h g ef fuel entries).map Prod.fst = search h g ef fuel entries := by
  rw [search_eq]
  unfold searchSeen
  cases entries.foldlM (enter h g) ⟨[], [], []⟩ with
  | none => rfl
  | some p =>
    show ((loop h g ef fuel p).bind _).map Prod.fst = (loop h g ef fuel p).bind _
    cases loop h g ef fuel p <;> rfl

end

/-! ## Every node kept is a node seen -/

section

variable [DecidableEq N] {h : Heaps N S} {g : Space N S} {ef : Nat} {p p' : Progress N S}

omit [DecidableEq N] in
theorem keepBest_length_le (results : List (Scored N S)) : (keepBest h ef results).length ≤ results.length := by
  unfold keepBest
  split
  · split
    · next worst rest hpop =>
      have := h.results.length_pop hpop
      omega
    · exact Nat.le_refl _
  · exact Nat.le_refl _

theorem enter_few {n : N} (hrun : enter h g p n = some p') (hp : p.results.length ≤ p.seen.length) :
    p'.results.length ≤ p'.seen.length := by
  unfold enter at hrun
  split at hrun
  · exact Option.some.inj hrun ▸ hp
  · obtain ⟨score, _, hrun⟩ := Option.bind_eq_some_iff.mp hrun
    obtain rfl := Option.some.inj hrun
    rw [Queue.length_push, List.length_cons]
    omega

theorem visit_few {n : N} (hrun : visit h g ef p n = some p') (hp : p.results.length ≤ p.seen.length) :
    p'.results.length ≤ p'.seen.length := by
  unfold visit at hrun
  split at hrun
  · exact Option.some.inj hrun ▸ hp
  · obtain ⟨score, _, hrun⟩ := Option.bind_eq_some_iff.mp hrun
    split at hrun
    · obtain rfl := Option.some.inj hrun
      have hkept : (keepBest h ef (h.results.push p.results ⟨score, n⟩)).length ≤ _ := keepBest_length_le _
      rw [Queue.length_push] at hkept
      show (keepBest h ef (h.results.push p.results ⟨score, n⟩)).length ≤ (n :: p.seen).length
      rw [List.length_cons]
      omega
    · obtain rfl := Option.some.inj hrun
      show p.results.length ≤ (n :: p.seen).length
      rw [List.length_cons]
      omega

omit [DecidableEq N] in
/-- What each step of a fold keeps, the fold keeps. -/
theorem foldlM_few {f : Progress N S → N → Option (Progress N S)}
    (hstep : ∀ p p' n, f p n = some p' → p.results.length ≤ p.seen.length → p'.results.length ≤ p'.seen.length)
    (nodes : List N) {p p' : Progress N S} (hrun : nodes.foldlM f p = some p')
    (hp : p.results.length ≤ p.seen.length) : p'.results.length ≤ p'.seen.length := by
  induction nodes generalizing p with
  | nil => exact Option.some.inj hrun ▸ hp
  | cons n nodes ih =>
    rw [List.foldlM_cons] at hrun
    obtain ⟨p1, h1, hrun⟩ := Option.bind_eq_some_iff.mp hrun
    exact ih hrun (hstep p p1 n h1 hp)

theorem loop_few (fuel : Nat) {p p' : Progress N S} (hrun : loop h g ef fuel p = some p')
    (hp : p.results.length ≤ p.seen.length) : p'.results.length ≤ p'.seen.length := by
  induction fuel generalizing p with
  | zero => cases hrun
  | succ fuel ih =>
    unfold loop at hrun
    split at hrun
    · exact Option.some.inj hrun ▸ hp
    · split at hrun
      · exact Option.some.inj hrun ▸ hp
      · obtain ⟨p1, h1, hrun⟩ := Option.bind_eq_some_iff.mp hrun
        exact ih hrun (foldlM_few (fun _ _ _ hv => visit_few hv) _ h1 hp)

/-- **A search keeps at most as many nodes as it scores.** -/
theorem searchSeen_length {fuel : Nat} {entries : List N} {found : List (Scored N S)} {seen : List N}
    (hrun : searchSeen h g ef fuel entries = some (found, seen)) : found.length ≤ seen.length := by
  unfold searchSeen at hrun
  obtain ⟨p1, h1, hrun⟩ := Option.bind_eq_some_iff.mp hrun
  obtain ⟨p2, h2, hrun⟩ := Option.bind_eq_some_iff.mp hrun
  obtain ⟨rfl, rfl⟩ := Prod.mk.inj (Option.some.inj hrun)
  rw [(h.sort_perm p2.results).length_eq]
  exact loop_few fuel h2 (foldlM_few (fun _ _ _ he => enter_few he) _ h1 (Nat.le_refl _))

end

end Beam
