import IshaVectorDb.Beam.Search

/-!
# `Beam.Scored` — what a search finds carries **its own score**

Whatever the queues do, whatever the graph is and wherever the search is cut off, a search that has a result found distinct
nodes of the graph, each paired with its own score (`search_scored`).
-/

namespace Beam

variable {N S : Type} {h : Heaps N S} {g : Space N S} {ef : Nat} {p p' : Progress N S} {n : N}

/-- **What is kept is true**: each node was seen, is one of the graph and has its score, and no node is kept twice. -/
structure Truthful (g : Space N S) (p : Progress N S) : Prop where
  kept : ∀ c ∈ p.results, c.node ∈ p.seen ∧ g.has c.node = true ∧ g.score c.node = some c.score
  distinct : (p.results.map Scored.node).Nodup

/-- What each step keeps, a fold of steps keeps. -/
theorem foldlM_keeps {α β : Type} {P : α → Prop} {f : α → β → Option α} (hf : ∀ a b a', P a → f a b = some a' → P a')
    {l : List β} {a a' : α} (ha : P a) (hrun : l.foldlM f a = some a') : P a' := by
  induction l generalizing a with
  | nil =>
    obtain rfl := Option.some.inj hrun
    exact ha
  | cons b l ih =>
    rw [List.foldlM_cons] at hrun
    obtain ⟨a₁, hstep, hrest⟩ := Option.bind_eq_some_iff.mp hrun
    exact ih (hf a b a₁ ha hstep) hrest

/-- A node that was not seen goes to the results, which may then drop some. -/
theorem Truthful.push (hp : Truthful g p) (hnew : n ∉ p.seen) (hhas : g.has n = true) {s : S} (hs : g.score n = some s)
    {frontier results : List (Scored N S)} (hsub : ∀ c ∈ results, c ∈ h.results.push p.results ⟨s, n⟩)
    (hdistinct : ((h.results.push p.results ⟨s, n⟩).map Scored.node).Nodup → (results.map Scored.node).Nodup) :
    Truthful g ⟨n :: p.seen, frontier, results⟩ := by
  refine ⟨fun c hc => ?_, hdistinct ?_⟩
  · rcases h.results.mem_push.mp (hsub c hc) with rfl | hin
    · exact ⟨List.mem_cons_self, hhas, hs⟩
    · obtain ⟨hseen, hrest⟩ := hp.kept c hin
      exact ⟨List.mem_cons_of_mem _ hseen, hrest⟩
  · rw [((h.results.push_perm p.results ⟨s, n⟩).map Scored.node).nodup_iff, List.map_cons, List.nodup_cons]
    refine ⟨fun hmem => ?_, hp.distinct⟩
    obtain ⟨c, hc, heq⟩ := List.mem_map.mp hmem
    exact hnew ((show c.node = n from heq) ▸ (hp.kept c hc).1)

section Search

variable [DecidableEq N]

theorem Truthful.enter (hp : Truthful g p) (hrun : Beam.enter h g p n = some p') : Truthful g p' := by
  unfold Beam.enter at hrun
  split at hrun
  · obtain rfl := Option.some.inj hrun
    exact hp
  · rename_i hskip
    simp only [Bool.or_eq_true, Bool.not_eq_true', List.contains_iff_mem, not_or, Bool.not_eq_false] at hskip
    obtain ⟨s, hs, hrun⟩ := Option.bind_eq_some_iff.mp hrun
    obtain rfl := Option.some.inj hrun
    exact hp.push hskip.2 hskip.1 hs (fun c hc => hc) (fun hd => hd)

theorem Truthful.visit (hp : Truthful g p) (hrun : Beam.visit h g ef p n = some p') : Truthful g p' := by
  unfold Beam.visit at hrun
  split at hrun
  · obtain rfl := Option.some.inj hrun
    exact hp
  · rename_i hskip
    simp only [Bool.or_eq_true, Bool.not_eq_true', List.contains_iff_mem, not_or, Bool.not_eq_false] at hskip
    obtain ⟨s, hs, hrun⟩ := Option.bind_eq_some_iff.mp hrun
    split at hrun
    · obtain rfl := Option.some.inj hrun
      exact hp.push hskip.2 hskip.1 hs (fun c hc => keepBest_mem hc) keepBest_distinct
    · obtain rfl := Option.some.inj hrun
      refine ⟨fun c hc => ?_, hp.distinct⟩
      obtain ⟨hseen, hrest⟩ := hp.kept c hc
      exact ⟨List.mem_cons_of_mem _ hseen, hrest⟩

/-- However often the best node is expanded. -/
theorem Truthful.loop {fuel : Nat} (hp : Truthful g p) (hrun : Beam.loop h g ef fuel p = some p') : Truthful g p' := by
  induction fuel generalizing p with
  | zero => cases hrun
  | succ fuel ih =>
    unfold Beam.loop at hrun
    split at hrun
    · obtain rfl := Option.some.inj hrun
      exact hp
    · rename_i current rest hpop
      have hp₀ : Truthful g { p with frontier := rest } := ⟨hp.kept, hp.distinct⟩
      split at hrun
      · obtain rfl := Option.some.inj hrun
        exact hp₀
      · obtain ⟨p₁, hexpand, hrest⟩ := Option.bind_eq_some_iff.mp hrun
        exact ih (foldlM_keeps (fun a b a' ha hstep => Truthful.visit ha hstep) hp₀ hexpand) hrest

/-- **What a search finds** are distinct nodes of the graph, each with its own score. -/
theorem search_scored {fuel : Nat} {entries : List N} {found : List (Scored N S)}
    (hrun : search h g ef fuel entries = some found) :
    (∀ c ∈ found, g.has c.node = true ∧ g.score c.node = some c.score) ∧ (found.map Scored.node).Nodup := by
  rw [search_eq] at hrun
  obtain ⟨p₁, hentered, hrun⟩ := Option.bind_eq_some_iff.mp hrun
  obtain ⟨p₂, hloop, hrun⟩ := Option.bind_eq_some_iff.mp hrun
  obtain rfl := Option.some.inj hrun
  have hstart : Truthful g (⟨[], [], []⟩ : Progress N S) := ⟨fun c hc => absurd hc List.not_mem_nil, List.nodup_nil⟩
  have hp₂ := (foldlM_keeps (fun a b a' ha hstep => Truthful.enter ha hstep) hstart hentered).loop hloop
  have hperm := h.sort_perm p₂.results
  exact ⟨fun c hc => (hp₂.kept c (hperm.mem_iff.mp hc)).2, (hperm.map Scored.node).nodup_iff.mpr hp₂.distinct⟩

end Search

end Beam
