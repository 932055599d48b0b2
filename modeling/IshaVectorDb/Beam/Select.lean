import IshaVectorDb.Beam.Search

/-!
# `Beam.Select` — choosing **diverse** neighbours

A candidate is picked if no node picked before is closer to it than it is to the one that chooses; what room is left is
then filled with the best candidates not yet picked. Whatever the scores are, the choice is among the candidates and
within the bound, not empty if there is a candidate and room for one (`select_spec`), and takes no candidate twice
(`select_nodup`).
-/

namespace Beam

variable {N S : Type} [DecidableEq N]

section Select

variable (link : N → N → Option S) (gt : S → S → Bool)

/-- Whether one of these is closer to the candidate than it is to the one that chooses. -/
def dominated (c : Scored N S) : List N → Option Bool
  | [] => some false
  | k :: rest => do
      let score ← link c.node k
      if gt score c.score then return true else dominated c rest

/-- Pick candidates that no earlier one dominates. -/
def pick (max : Nat) : List N → List (Scored N S) → Option (List N)
  | kept, [] => some kept
  | kept, c :: rest =>
      if max ≤ kept.length then some kept
      else do
        let skip ← dominated link gt c kept
        pick max (if skip then kept else kept ++ [c.node]) rest

/-- Fill up with candidates in their order. -/
def fill (max : Nat) : List N → List (Scored N S) → List N
  | kept, [] => kept
  | kept, c :: rest =>
      if max ≤ kept.length then kept
      else fill max (if kept.contains c.node then kept else kept ++ [c.node]) rest

/-- **The choice** among candidates, best first. -/
def select (max : Nat) (candidates : List (Scored N S)) : Option (List N) := do
  let kept ← pick link gt max [] candidates
  return if kept.length < max then fill max kept candidates else kept

end Select

/-- A choice among candidates: some of their nodes, within the bound. -/
structure Choice (max : Nat) (candidates : List (Scored N S)) (kept : List N) : Prop where
  among : ∀ n ∈ kept, n ∈ candidates.map Scored.node
  bound : kept.length ≤ max

section Spec

variable {link : N → N → Option S} {gt : S → S → Bool} {within : N → Prop} {max : Nat}

variable (gt) in
omit [DecidableEq N] in
theorem dominated_spec (hlink : ∀ a b, within a → within b → ∃ s, link a b = some s) {c : Scored N S}
    (hc : within c.node) (kept : List N) (hk : ∀ k ∈ kept, within k) : ∃ b, dominated link gt c kept = some b := by
  induction kept with
  | nil => exact ⟨false, rfl⟩
  | cons k kept ih =>
    obtain ⟨hhead, hrest⟩ := List.forall_mem_cons.mp hk
    obtain ⟨s, hs⟩ := hlink c.node k hc hhead
    unfold dominated
    simp only [hs, Option.bind_eq_bind, Option.bind_some]
    split
    · exact ⟨true, rfl⟩
    · exact ih hrest

omit [DecidableEq N] in
/-- One more candidate, where there is room. -/
theorem Choice.take {candidates : List (Scored N S)} {kept : List N} {n : N} (h : Choice max candidates kept)
    (hn : n ∈ candidates.map Scored.node) (hroom : ¬ max ≤ kept.length) : Choice max candidates (kept ++ [n]) := by
  refine ⟨fun m hm => ?_, ?_⟩
  · rcases List.mem_append.mp hm with hm | hm
    · exact h.among m hm
    · exact List.mem_singleton.mp hm ▸ hn
  · rw [List.length_append, List.length_singleton]
    omega

variable (gt) in
omit [DecidableEq N] in
/-- **Picking** among the candidates that are left. -/
theorem pick_spec (hlink : ∀ a b, within a → within b → ∃ s, link a b = some s) {candidates : List (Scored N S)}
    (hall : ∀ c ∈ candidates, within c.node) (rest : List (Scored N S)) (hsub : ∀ c ∈ rest, c ∈ candidates)
    {kept : List N} (hk : Choice max candidates kept) :
    ∃ kept', pick link gt max kept rest = some kept' ∧ Choice max candidates kept' ∧ kept.length ≤ kept'.length ∧
      (kept = [] → rest ≠ [] → 0 < max → kept' ≠ []) := by
  induction rest generalizing kept with
  | nil => exact ⟨kept, rfl, hk, Nat.le_refl _, fun _ h => absurd rfl h⟩
  | cons c rest ih =>
    obtain ⟨hc, hsub⟩ := List.forall_mem_cons.mp hsub
    unfold pick
    split
    · rename_i hfull
      refine ⟨kept, rfl, hk, Nat.le_refl _, fun hnil _ hmax => ?_⟩
      rw [hnil, List.length_nil] at hfull
      omega
    rename_i hroom
    have hin : ∀ k ∈ kept, within k := by
      intro k hmem
      obtain ⟨d, hd, rfl⟩ := List.mem_map.mp (hk.among k hmem)
      exact hall d hd
    obtain ⟨skip, hskip⟩ := dominated_spec gt hlink (hall c hc) kept hin
    simp only [hskip, Option.bind_eq_bind, Option.bind_some]
    cases hs : skip with
    | true =>
      obtain ⟨kept', hrun, hchoice, hlen, -⟩ := ih hsub hk
      refine ⟨kept', hrun, hchoice, hlen, fun hnil _ _ => ?_⟩
      -- nothing dominates the first candidate
      rw [hnil] at hskip
      rw [hs] at hskip
      cases hskip
    | false =>
      obtain ⟨kept', hrun, hchoice, hlen, -⟩ := ih hsub (hk.take (List.mem_map_of_mem hc) hroom)
      rw [List.length_append, List.length_singleton] at hlen
      exact ⟨kept', hrun, hchoice, by omega, fun _ _ _ => List.ne_nil_of_length_pos (by omega)⟩

/-- **Filling up** keeps what was picked. -/
theorem fill_spec {candidates : List (Scored N S)} (rest : List (Scored N S)) (hsub : ∀ c ∈ rest, c ∈ candidates)
    {kept : List N} (hk : Choice max candidates kept) :
    Choice max candidates (fill max kept rest) ∧ kept.length ≤ (fill max kept rest).length := by
  induction rest generalizing kept with
  | nil => exact ⟨hk, Nat.le_refl _⟩
  | cons c rest ih =>
    obtain ⟨hc, hsub⟩ := List.forall_mem_cons.mp hsub
    unfold fill
    split
    · exact ⟨hk, Nat.le_refl _⟩
    rename_i hroom
    split
    · exact ih hsub hk
    · obtain ⟨hchoice, hlen⟩ := ih hsub (hk.take (List.mem_map_of_mem hc) hroom)
      rw [List.length_append, List.length_singleton] at hlen
      exact ⟨hchoice, by omega⟩

variable (within) in
/-- **A choice is made**, and it is one. -/
theorem select_spec (hlink : ∀ a b, within a → within b → ∃ s, link a b = some s) {candidates : List (Scored N S)}
    (hall : ∀ c ∈ candidates, within c.node) :
    ∃ kept, select link gt max candidates = some kept ∧ Choice max candidates kept ∧
      (candidates ≠ [] → 0 < max → kept ≠ []) := by
  have hstart : Choice max candidates ([] : List N) := ⟨nofun, Nat.zero_le _⟩
  obtain ⟨picked, hpick, hchoice, -, hsome⟩ :=
    pick_spec gt hlink hall candidates (fun _ hc => hc) hstart
  unfold select
  simp only [hpick, Option.bind_eq_bind, Option.bind_some]
  split
  · obtain ⟨hfilled, hlen⟩ := fill_spec candidates (fun _ hc => hc) hchoice
    refine ⟨_, rfl, hfilled, fun hne hmax => ?_⟩
    have := List.length_pos_of_ne_nil (hsome rfl hne hmax)
    exact List.ne_nil_of_length_pos (by omega)
  · exact ⟨picked, rfl, hchoice, hsome rfl⟩

/-! ## No candidate twice -/

omit [DecidableEq N] in
theorem nodup_snoc {kept : List N} {n : N} (hk : kept.Nodup) (hn : n ∉ kept) : (kept ++ [n]).Nodup := by
  rw [← List.concat_eq_append]
  exact hk.concat hn

omit [DecidableEq N] in
/-- Picking among distinct candidates, none of which was taken. -/
theorem pick_nodup (rest : List (Scored N S)) {kept kept' : List N} (hk : kept.Nodup)
    (hnew : ∀ c ∈ rest, c.node ∉ kept) (hnd : (rest.map Scored.node).Nodup)
    (h : pick link gt max kept rest = some kept') : kept'.Nodup := by
  induction rest generalizing kept with
  | nil => exact Option.some.inj h ▸ hk
  | cons c rest ih =>
    obtain ⟨hcnew, hrest⟩ := List.forall_mem_cons.mp hnew
    rw [List.map_cons, List.nodup_cons] at hnd
    unfold pick at h
    split at h
    · exact Option.some.inj h ▸ hk
    obtain ⟨skip, -, h⟩ := Option.bind_eq_some_iff.mp h
    cases skip with
    | true => exact ih hk hrest hnd.2 h
    | false =>
      refine ih (nodup_snoc hk hcnew) (fun d hd hmem => ?_) hnd.2 h
      rcases List.mem_append.mp hmem with hmem | hmem
      · exact hrest d hd hmem
      · exact hnd.1 (List.mem_singleton.mp hmem ▸ List.mem_map_of_mem hd)

theorem fill_nodup (rest : List (Scored N S)) {kept : List N} (hk : kept.Nodup) : (fill max kept rest).Nodup := by
  induction rest generalizing kept with
  | nil => exact hk
  | cons c rest ih =>
    unfold fill
    split
    · exact hk
    split
    · exact ih hk
    · rename_i hnew
      exact ih (nodup_snoc hk (by simpa using hnew))

/-- **A choice among distinct candidates** takes none twice. -/
theorem select_nodup {candidates : List (Scored N S)} {kept : List N} (hnd : (candidates.map Scored.node).Nodup)
    (h : select link gt max candidates = some kept) : kept.Nodup := by
  unfold select at h
  obtain ⟨picked, hpick, h⟩ := Option.bind_eq_some_iff.mp h
  have hpicked := pick_nodup candidates List.nodup_nil (fun _ _ => List.not_mem_nil) hnd hpick
  obtain rfl := Option.some.inj h
  split
  · exact fill_nodup candidates hpicked
  · exact hpicked

end Spec

end Beam
