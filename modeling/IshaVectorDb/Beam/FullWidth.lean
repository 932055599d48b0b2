import IshaVectorDb.Beam.Search
import Mathlib.Logic.Relation

/-!
# `Beam.FullWidth` — a beam as wide as the graph **finds everything**

A beam that holds as many nodes as can be reached never has to drop one and never ends early while one is missing: its
search is a traversal. `Full` is what such a search keeps true: what it has seen is what it keeps, all of it can be
reached, and a node that is not waiting to be expanded has all its neighbours seen. `collect_full` is the result.
-/

namespace Beam

variable {N S : Type}

/-- An edge that a search follows. -/
def Space.Edge (g : Space N S) (a b : N) : Prop := b ∈ g.neighbours a ∧ g.has b = true

/-- **The nodes a search can get to** from its entries. -/
def Space.Reach (g : Space N S) (entries : List N) (n : N) : Prop :=
  ∃ e ∈ entries, g.has e = true ∧ Relation.ReflTransGen g.Edge e n

/-- **The state of a search that has dropped nothing**: every node seen waits in the frontier, or is one of those being
    expanded, or has all its neighbours seen. -/
structure Full (g : Space N S) (entries : List N) (expanding : N → Prop) (p : Progress N S) : Prop where
  once : p.seen.Nodup
  kept : (p.results.map Scored.node).Perm p.seen
  scored : ∀ c ∈ p.results, g.score c.node = some c.score
  waiting : ∀ c ∈ p.frontier, c.node ∈ p.seen
  reached : ∀ n ∈ p.seen, g.Reach entries n
  expanded : ∀ n ∈ p.seen, n ∈ p.frontier.map Scored.node ∨ expanding n ∨ ∀ b, g.Edge n b → b ∈ p.seen

section Steps

variable {h : Heaps N S} {g : Space N S} {entries : List N} {expanding : N → Prop} {ef : Nat} {p p' : Progress N S} {n : N}

theorem Full.start : Full g entries expanding (⟨[], [], []⟩ : Progress N S) :=
  ⟨List.nodup_nil, .refl _, nofun, nofun, nofun, nofun⟩

theorem Full.length (hp : Full g entries expanding p) : p.results.length = p.seen.length := by
  rw [← hp.kept.length_eq, List.length_map]

/-- A node that can be reached is seen, and kept and put in the frontier. -/
theorem Full.see (hp : Full g entries expanding p) (hn : g.Reach entries n) (hnew : n ∉ p.seen) {s : S}
    (hs : g.score n = some s) :
    Full g entries expanding ⟨n :: p.seen, h.frontier.push p.frontier ⟨s, n⟩, h.results.push p.results ⟨s, n⟩⟩ := by
  have hfront : ((h.frontier.push p.frontier ⟨s, n⟩).map Scored.node).Perm (n :: p.frontier.map Scored.node) :=
    (h.frontier.push_perm p.frontier ⟨s, n⟩).map Scored.node
  refine ⟨List.nodup_cons.mpr ⟨hnew, hp.once⟩, ?_, fun c hc => ?_, fun c hc => ?_,
    List.forall_mem_cons.mpr ⟨hn, hp.reached⟩, ?_⟩
  · exact ((h.results.push_perm p.results ⟨s, n⟩).map Scored.node).trans (hp.kept.cons n)
  · rcases h.results.mem_push.mp hc with rfl | hc
    · exact hs
    · exact hp.scored c hc
  · rcases h.frontier.mem_push.mp hc with rfl | hc
    · exact List.mem_cons_self
    · exact List.mem_cons_of_mem _ (hp.waiting c hc)
  · rw [List.forall_mem_cons]
    refine ⟨.inl (hfront.mem_iff.mpr List.mem_cons_self), fun m hm => ?_⟩
    rcases hp.expanded m hm with hwait | hbusy | hdone
    · exact .inl (hfront.mem_iff.mpr (List.mem_cons_of_mem _ hwait))
    · exact .inr (.inl hbusy)
    · exact .inr (.inr (fun b hb => List.mem_cons_of_mem _ (hdone b hb)))

/-- A set that holds the entries and is closed under edges holds everything that can be reached. -/
theorem reach_sub {seen : List N} (hentries : ∀ e ∈ entries, g.has e = true → e ∈ seen)
    (hclosed : ∀ n ∈ seen, ∀ b, g.Edge n b → b ∈ seen) (hn : g.Reach entries n) : n ∈ seen := by
  obtain ⟨e, he, hhas, hpath⟩ := hn
  induction hpath with
  | refl => exact hentries e he hhas
  | tail _ hedge ih => exact hclosed _ ih _ hedge

variable [DecidableEq N]

theorem enter_full (hp : Full g entries expanding p) (hn : g.has n = true → g.Reach entries n)
    (hrun : enter h g p n = some p') :
    Full g entries expanding p' ∧ p.seen ⊆ p'.seen ∧ (g.has n = true → n ∈ p'.seen) := by
  unfold enter at hrun
  split at hrun
  · rename_i hskip
    obtain rfl := Option.some.inj hrun
    refine ⟨hp, fun _ hm => hm, fun hhas => ?_⟩
    rw [hhas] at hskip
    simpa using hskip
  · rename_i hskip
    simp only [Bool.or_eq_true, Bool.not_eq_true', List.contains_iff_mem, not_or, Bool.not_eq_false] at hskip
    obtain ⟨s, hs, hrun⟩ := Option.bind_eq_some_iff.mp hrun
    obtain rfl := Option.some.inj hrun
    exact ⟨hp.see (hn hskip.1) hskip.2 hs, List.subset_cons_self _ _, fun _ => List.mem_cons_self⟩

theorem enterAll_full (nodes : List N) (hp : Full g entries expanding p)
    (hn : ∀ e ∈ nodes, g.has e = true → g.Reach entries e) (hrun : nodes.foldlM (enter h g) p = some p') :
    Full g entries expanding p' ∧ p.seen ⊆ p'.seen ∧ ∀ e ∈ nodes, g.has e = true → e ∈ p'.seen := by
  induction nodes generalizing p with
  | nil =>
    obtain rfl := Option.some.inj hrun
    exact ⟨hp, fun _ hm => hm, nofun⟩
  | cons e nodes ih =>
    rw [List.foldlM_cons] at hrun
    obtain ⟨p1, h1, hrun⟩ := Option.bind_eq_some_iff.mp hrun
    obtain ⟨he, hrest⟩ := List.forall_mem_cons.mp hn
    obtain ⟨hp1, hsub1, hmem1⟩ := enter_full hp he h1
    obtain ⟨hp2, hsub2, hmem2⟩ := ih hp1 hrest hrun
    exact ⟨hp2, fun _ hm => hsub2 (hsub1 hm), List.forall_mem_cons.mpr ⟨fun hhas => hsub2 (hmem1 hhas), hmem2⟩⟩

/-- **Nothing is dropped** while there is room for every node that can be reached. -/
theorem visit_full (hfew : ∀ l : List N, l.Nodup → (∀ a ∈ l, g.Reach entries a) → l.length ≤ ef)
    (hp : Full g entries expanding p) (hn : g.has n = true → g.Reach entries n) (hrun : visit h g ef p n = some p') :
    Full g entries expanding p' ∧ p.seen ⊆ p'.seen ∧ (g.has n = true → n ∈ p'.seen) := by
  unfold visit at hrun
  split at hrun
  · rename_i hskip
    obtain rfl := Option.some.inj hrun
    refine ⟨hp, fun _ hm => hm, fun hhas => ?_⟩
    rw [hhas] at hskip
    simpa using hskip
  · rename_i hskip
    simp only [Bool.or_eq_true, Bool.not_eq_true', List.contains_iff_mem, not_or, Bool.not_eq_false] at hskip
    obtain ⟨s, hs, hrun⟩ := Option.bind_eq_some_iff.mp hrun
    have hroom := hfew (n :: p.seen) (List.nodup_cons.mpr ⟨hskip.2, hp.once⟩)
      (List.forall_mem_cons.mpr ⟨hn hskip.1, hp.reached⟩)
    rw [List.length_cons, ← hp.length] at hroom
    have hlt : decide (p.results.length < ef) = true := decide_eq_true (by omega)
    rw [hlt, Bool.true_or, if_pos rfl] at hrun
    have hall : keepBest h ef (h.results.push p.results ⟨s, n⟩) = h.results.push p.results ⟨s, n⟩ := by
      unfold keepBest
      rw [Queue.length_push, if_neg (by omega)]
    rw [hall] at hrun
    obtain rfl := Option.some.inj hrun
    exact ⟨hp.see (hn hskip.1) hskip.2 hs, List.subset_cons_self _ _, fun _ => List.mem_cons_self⟩

theorem visitAll_full (hfew : ∀ l : List N, l.Nodup → (∀ a ∈ l, g.Reach entries a) → l.length ≤ ef)
    (nodes : List N) (hp : Full g entries expanding p) (hn : ∀ n ∈ nodes, g.has n = true → g.Reach entries n)
    (hrun : nodes.foldlM (visit h g ef) p = some p') :
    Full g entries expanding p' ∧ p.seen ⊆ p'.seen ∧ ∀ n ∈ nodes, g.has n = true → n ∈ p'.seen := by
  induction nodes generalizing p with
  | nil =>
    obtain rfl := Option.some.inj hrun
    exact ⟨hp, fun _ hm => hm, nofun⟩
  | cons n nodes ih =>
    rw [List.foldlM_cons] at hrun
    obtain ⟨p1, h1, hrun⟩ := Option.bind_eq_some_iff.mp hrun
    obtain ⟨he, hrest⟩ := List.forall_mem_cons.mp hn
    obtain ⟨hp1, hsub1, hmem1⟩ := visit_full hfew hp he h1
    obtain ⟨hp2, hsub2, hmem2⟩ := ih hp1 hrest hrun
    exact ⟨hp2, fun _ hm => hsub2 (hsub1 hm), List.forall_mem_cons.mpr ⟨fun hhas => hsub2 (hmem1 hhas), hmem2⟩⟩

/-- **The loop ends with everything seen.** -/
theorem loop_full (hfew : ∀ l : List N, l.Nodup → (∀ a ∈ l, g.Reach entries a) → l.length ≤ ef) (fuel : Nat)
    (hp : Full g entries (fun _ => False) p) (hentries : ∀ e ∈ entries, g.has e = true → e ∈ p.seen)
    (hrun : loop h g ef fuel p = some p') :
    (p'.results.map Scored.node).Nodup ∧ (∀ n, n ∈ p'.results.map Scored.node ↔ g.Reach entries n) ∧
      ∀ c ∈ p'.results, g.score c.node = some c.score := by
  induction fuel generalizing p with
  | zero => cases hrun
  | succ fuel ih =>
    unfold loop at hrun
    split at hrun
    · rename_i hpop
      obtain rfl := Option.some.inj hrun
      have hempty := h.frontier.pop_none hpop
      have hclosed : ∀ n ∈ p.seen, ∀ b, g.Edge n b → b ∈ p.seen := by
        intro n hn
        rcases hp.expanded n hn with hwait | hbusy | hdone
        · rw [hempty] at hwait; cases hwait
        · exact hbusy.elim
        · exact hdone
      exact ⟨hp.kept.nodup_iff.mpr hp.once,
        fun n => ⟨fun hn => hp.reached n (hp.kept.mem_iff.mp hn), fun hn => hp.kept.mem_iff.mpr (reach_sub hentries hclosed hn)⟩,
        hp.scored⟩
    · rename_i current rest hpop
      have hperm := (h.frontier.pop_perm hpop).map Scored.node
      split at hrun
      -- the beam is full: it holds as many nodes as there are to reach
      · rename_i hsettled
        obtain rfl := Option.some.inj hrun
        have hfull : ef ≤ p.results.length := by
          unfold settled at hsettled
          simp only [Bool.and_eq_true, decide_eq_true_eq] at hsettled
          exact hsettled.1
        refine ⟨hp.kept.nodup_iff.mpr hp.once,
          fun n => ⟨fun hn => hp.reached n (hp.kept.mem_iff.mp hn), fun hn => hp.kept.mem_iff.mpr ?_⟩, hp.scored⟩
        by_contra hnew
        have hroom := hfew (n :: p.seen) (List.nodup_cons.mpr ⟨hnew, hp.once⟩)
          (List.forall_mem_cons.mpr ⟨hn, hp.reached⟩)
        rw [List.length_cons, ← hp.length] at hroom
        omega
      · obtain ⟨p1, h1, hrun⟩ := Option.bind_eq_some_iff.mp hrun
        have hpopped : Full g entries (fun m => m = current.node) { p with frontier := rest } := by
          refine ⟨hp.once, hp.kept, hp.scored,
            fun c hc => hp.waiting c (h.frontier.mem_of_pop hpop (List.mem_cons_of_mem _ hc)), hp.reached, fun m hm => ?_⟩
          rcases hp.expanded m hm with hwait | hbusy | hdone
          · rcases List.mem_cons.mp (hperm.mem_iff.mp hwait) with he | hwait
            · exact .inr (.inl he)
            · exact .inl hwait
          · exact hbusy.elim
          · exact .inr (.inr hdone)
        obtain ⟨e, he, hhas, hpath⟩ :=
          hp.reached _ (hp.waiting current (h.frontier.mem_of_pop hpop List.mem_cons_self))
        obtain ⟨hp1, hsub, hmem⟩ := visitAll_full hfew (g.neighbours current.node) hpopped
          (fun n hn hn' => ⟨e, he, hhas, hpath.tail ⟨hn, hn'⟩⟩) h1
        -- the node is done: its neighbours are seen
        refine ih ⟨hp1.once, hp1.kept, hp1.scored, hp1.waiting, hp1.reached, fun m hm => ?_⟩
          (fun e he hhas => hsub (hentries e he hhas)) hrun
        rcases hp1.expanded m hm with hwait | rfl | hdone
        · exact .inl hwait
        · exact .inr (.inr (fun b hb => hmem b hb.1 hb.2))
        · exact .inr (.inr hdone)

/-- **A full-width search keeps what can be reached**, each node once and with its score. -/
theorem collect_full (hscored : ∀ n, g.Reach entries n → ∃ s, g.score n = some s) {total fuel : Nat}
    (hroom : ∀ l : List N, l.Nodup → (∀ a ∈ l, g.Reach entries a) → l.length ≤ total) (hef : total ≤ ef)
    (hfuel : total < fuel) :
    ∃ kept, collect h g ef fuel entries = some kept ∧ (kept.map Scored.node).Nodup ∧
      (∀ n, n ∈ kept.map Scored.node ↔ g.Reach entries n) ∧ ∀ c ∈ kept, g.score c.node = some c.score := by
  have hclosed : Closed g (g.Reach entries) := by
    refine ⟨hscored, fun a ha b hb hhas => ?_⟩
    obtain ⟨e, he, hehas, hpath⟩ := ha
    exact ⟨e, he, hehas, hpath.tail ⟨hb, hhas⟩⟩
  have hin : ∀ e ∈ entries, g.has e = true → g.Reach entries e := fun e he hhas => ⟨e, he, hhas, .refl⟩
  obtain ⟨found, hrun, -⟩ := search_spec (h := h) ef hclosed hroom hfuel hin
  obtain ⟨kept, hkept, -⟩ := search_collected h g ef hrun
  obtain ⟨p1, h1, hrest⟩ := Option.bind_eq_some_iff.mp hkept
  obtain ⟨p2, h2, hresults⟩ := Option.bind_eq_some_iff.mp hrest
  obtain rfl := Option.some.inj hresults
  obtain ⟨hp1, -, hmem⟩ := enterAll_full entries .start hin h1
  exact ⟨_, hkept, loop_full (fun l hl ha => Nat.le_trans (hroom l hl ha) hef) fuel hp1 hmem h2⟩

end Steps

end Beam
