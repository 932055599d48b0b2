import IshaVectorDb.Correctness.GraphSearch

/-!
# `Correctness.Descents` — the **greedy descents** of insertion and search

An insertion and a search of the graph both go down the upper layers greedily, in loops of their own. On a graph whose
neighbours are nodes, cyclic as they may be, the loop on each layer ends, never lowers the score, and ends at a node that
no neighbour on the layer beats, whatever the scores are (`descents_end`). A search may be cancelled between two rounds.
-/

namespace IshaVectorDb.Index

open Format Beam Engine

/-- One layer of a graph under any scoring of the nodes. -/
def Graph.ranked {S : Type} [LinearOrder S] (g : Graph) (score : Nat → S) (layer : Nat) : Space Nat S :=
  ⟨fun n => n < g.len, g.neighbours layer, fun n => some (score n), fun a b => decide (b < a)⟩

/-- **Layer after layer** down to the one above `low`, each from where the one before it ended. -/
def Stairs (space : Nat → Space Nat UInt32) (low : Nat) : Nat → Scored Nat UInt32 → Scored Nat UInt32 → Prop
  | 0, start, r => r = start
  | layers + 1, start, r => ∃ next, Peak (space (low + layers + 1)) start next ∧ Stairs space low layers next r

section Descents

variable {M : Machine} {g : Graph} {q : Query} {metric : Metric} {query : List UInt32} {current : Scored Nat UInt32}

/-- The descent on one layer ends at a peak. -/
theorem Graph.Shaped.descend_ends (hs : g.Shaped) (layer : Nat) (hc : current.node < g.len)
    (hscore : g.scoreOf M metric query current.node = some current.score) :
    ∃ r, descend (g.space M metric query layer) (g.len + 1) current = some r ∧ Peak (g.space M metric query layer) current r ∧
      r.node < g.len ∧ g.scoreOf M metric query r.node = some r.score := by
  have hsealed : Sealed (g.space M metric query layer) (· < g.len) :=
    (hs.tower (layer + 1)).sealed M metric query hs (Nat.lt_succ_self _)
  obtain ⟨r, hrun, hr⟩ := descend_spec Score.gt_strict hsealed (fun nodes hn h => Graph.nodup_length_le hn h)
    (Nat.le_succ g.len) (⟨hc, hscore⟩ : At (g.space M metric query layer) (· < g.len) current)
  exact ⟨r, hrun, descend_peak Score.gt_strict hrun, hr.inside, hr.score⟩

/-- So it does under any scoring into a linear order. -/
theorem Graph.Shaped.descend_ranked {S : Type} [LinearOrder S] (hs : g.Shaped) (score : Nat → S) (layer : Nat) {start : Nat}
    (hstart : start < g.len) : ∃ r, descend (g.ranked score layer) (g.len + 1) ⟨score start, start⟩ = some r ∧
      Peak (g.ranked score layer) ⟨score start, start⟩ r := by
  have hsealed : Sealed (g.ranked score layer) (· < g.len) :=
    ⟨fun n _ => ⟨score n, rfl⟩, fun a _ b hb => hs.neighbours layer a b hb⟩
  obtain ⟨r, hrun, -⟩ := descend_spec strict_of_linearOrder hsealed (fun nodes hn h => Graph.nodup_length_le hn h)
    (Nat.le_succ g.len) (⟨hstart, rfl⟩ : At (g.ranked score layer) (· < g.len) ⟨score start, start⟩)
  exact ⟨r, hrun, descend_peak strict_of_linearOrder hrun⟩

/-- **An insertion's descent.** -/
theorem descendTo_ends (hs : g.Shaped) (low layers : Nat) (hc : current.node < g.len)
    (hscore : g.scoreOf M metric query current.node = some current.score) :
    ∃ r, g.descendTo M metric query low layers current = some r ∧ Stairs (g.space M metric query) low layers current r := by
  induction layers generalizing current with
  | zero => exact ⟨current, rfl, rfl⟩
  | succ layers ih =>
    obtain ⟨next, hrun, hpeak, hin, hnext⟩ := hs.descend_ends (low + 1 + layers) hc hscore
    obtain ⟨r, hr, hstairs⟩ := ih hin hnext
    refine ⟨r, ?_, next, Nat.add_right_comm low 1 layers ▸ hpeak, hstairs⟩
    unfold Graph.descendTo
    rw [hrun]
    exact hr

namespace HnswIndex

/-- Charging refuses only what is cancelled. -/
theorem settle_error {m : Meter} {e : DbError} (h : settle q m = .error e) : e = .cancelled := by
  unfold settle at h
  split at h
  · unfold Query.charge at h
    split at h
    · exact (Except.error.inj h).symm
    · split at h
      · exact (Except.error.inj h).symm
      · cases h
  · cases h

theorem descendLayer_error {layer fuel : Nat} {m : Meter} {e : DbError}
    (h : descendLayer M g q layer fuel current m = some (.error e)) : e = .cancelled := by
  induction fuel generalizing current m with
  | zero => cases h
  | succ fuel ih =>
    unfold descendLayer at h
    dsimp only at h
    cases hround : improve (g.space M q.metric q.vector layer) current false (g.neighbours layer current.node) with
    | none => rw [hround] at h; cases h
    | some round =>
      obtain ⟨next, improved⟩ := round
      rw [hround, reads_bind rfl] at h
      dsimp only at h
      cases hsettle : settle q ⟨m.charged + (g.neighbours layer current.node).length, m.scanned⟩ with
      | error e' =>
        rw [hsettle, checks_bind_error rfl] at h
        obtain rfl : e' = e := Except.error.inj (Option.some.inj h)
        exact settle_error hsettle
      | ok m' =>
        rw [hsettle, checks_bind rfl] at h
        cases improved with
        | true => exact ih h
        | false => cases h

/-- **A search's descent**, which may be cancelled. -/
theorem descendLayers_ends (hs : g.Shaped) (layers : Nat) (m : Meter) (hc : current.node < g.len)
    (hscore : g.scoreOf M q.metric q.vector current.node = some current.score) :
    ∃ out, descendLayers M g q layers current m = some out ∧
      (∀ r m', out = .ok (r, m') → Stairs (g.space M q.metric q.vector) 0 layers current r) ∧
      (∀ e, out = .error e → e = .cancelled) ∧ (q.Unlimited → ∃ r m', out = .ok (r, m')) := by
  induction layers generalizing current m with
  | zero =>
    exact ⟨.ok (current, m), rfl, fun r m' he => ((Prod.mk.inj (Except.ok.inj he)).1).symm,
      fun e he => (by cases he), fun _ => ⟨current, m, rfl⟩⟩
  | succ layers ih =>
    obtain ⟨next, hrun, hpeak, hin, hnext⟩ := hs.descend_ends (layers + 1) hc hscore
    obtain ⟨out, hout, hsame, hfree⟩ := descendLayer_of_descend hrun m
    unfold descendLayers
    cases out with
    | error e =>
      refine ⟨.error e, ?_, fun r m' he => (by cases he), fun e' he => ?_, fun hq => ?_⟩
      · show ((descendLayer M g q (layers + 1) (g.len + 1) current m) >>= _) = _
        rw [hout]
        rfl
      · obtain rfl : e = e' := Except.error.inj he
        exact descendLayer_error hout
      · obtain ⟨m', hm⟩ := hfree hq
        cases hm
    | ok found =>
      obtain ⟨r', m'⟩ := found
      obtain rfl := hsame r' m' rfl
      obtain ⟨out', hout', hstairs, herror, hfree'⟩ := ih m' hin hnext
      refine ⟨out', ?_, fun r m'' he => ⟨r', ?_, hstairs r m'' he⟩, herror, hfree'⟩
      · show ((descendLayer M g q (layers + 1) (g.len + 1) current m) >>= _) = _
        rw [hout]
        exact hout'
      · rw [Nat.zero_add]
        exact hpeak

end HnswIndex

/-- **The greedy descents end at peaks**, from any node of a graph whose neighbours are nodes: one loop under any scoring
    into a linear order, and the loops of an insertion and of a search under the scores that the machine computes. -/
theorem descents_end (hs : g.Shaped) {start : Nat} (hstart : start < g.len) :
    (∀ {S : Type} [LinearOrder S] (score : Nat → S) (layer : Nat), ∃ r,
      descend (g.ranked score layer) (g.len + 1) ⟨score start, start⟩ = some r ∧
        Peak (g.ranked score layer) ⟨score start, start⟩ r) ∧
    (∀ (M : Machine) (metric : Metric) (query : List UInt32), ∃ score, g.scoreOf M metric query start = some score ∧
      ∀ low layers, ∃ r, g.descendTo M metric query low layers ⟨score, start⟩ = some r ∧
        Stairs (g.space M metric query) low layers ⟨score, start⟩ r) ∧
    ∀ (M : Machine) (q : Query), ∃ score, g.scoreOf M q.metric q.vector start = some score ∧
      ∀ layers m, ∃ out, HnswIndex.descendLayers M g q layers ⟨score, start⟩ m = some out ∧
        (∀ r m', out = .ok (r, m') → Stairs (g.space M q.metric q.vector) 0 layers ⟨score, start⟩ r) ∧
        (∀ e, out = .error e → e = .cancelled) ∧ (q.Unlimited → ∃ r m', out = .ok (r, m')) := by
  refine ⟨fun score layer => hs.descend_ranked score layer hstart, fun M metric query => ?_, fun M q => ?_⟩
  · obtain ⟨score, hscore⟩ := hs.scoreOf_some M metric hstart query
    exact ⟨score, hscore, fun low layers => descendTo_ends hs low layers hstart hscore⟩
  · obtain ⟨score, hscore⟩ := hs.scoreOf_some M q.metric hstart q.vector
    exact ⟨score, hscore, fun layers m => HnswIndex.descendLayers_ends hs layers m hstart hscore⟩

end Descents

/-- Two nodes on two layers, each the other's only neighbour. -/
def ringGraph : Graph :=
  ⟨[⟨0⟩, ⟨1⟩], [0, 0x3F800000], [0, 0], [1, 1], [[[1], [0]], [[1], [0]]], some 0, 1, some .l2⟩

theorem ringGraph_shaped : ringGraph.Shaped := by
  refine ⟨rfl, rfl, rfl, by decide, fun l n x hx => ?_⟩
  rcases l with _ | _ | l
  · rcases n with _ | _ | n
    · exact List.mem_singleton.mp hx ▸ by decide
    · exact List.mem_singleton.mp hx ▸ by decide
    · cases hx
  · rcases n with _ | _ | n
    · exact List.mem_singleton.mp hx ▸ by decide
    · exact List.mem_singleton.mp hx ▸ by decide
    · cases hx
  · cases hx

theorem descents_end_ring : ∃ r, descend (ringGraph.ranked (fun n => n) 1) 3 ⟨0, 0⟩ = some r ∧
    Peak (ringGraph.ranked (fun n => n) 1) ⟨0, 0⟩ r :=
  (descents_end ringGraph_shaped (by decide : 0 < ringGraph.len)).1 (fun n => n) 1

end IshaVectorDb.Index
