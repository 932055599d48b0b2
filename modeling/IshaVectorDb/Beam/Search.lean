import Mathlib.Data.List.Nodup
import Mathlib.Data.List.Perm.Basic

/-!
# `Beam.Search` — **best-first search** with a bounded result, over any graph

A search expands the best node found and not yet expanded, and keeps the best `ef` nodes it has scored; it ends when
nothing is left to expand, or what is left is worse than all it keeps. Scoring a node may fail, and then the search
does. The graph, the scores and the queues are parameters: a queue may hold its items in any order, and which of several
items of equal rank it gives is its own affair.

`search_spec` is what a search promises whatever the scores are: it ends, and what it finds are distinct nodes of any set
that holds the entries and is closed under neighbours; and it finds something if it entered anything.
-/

namespace Beam

variable {N S α : Type}

/-- A node and its score. -/
structure Scored (N S : Type) where
  score : S
  node : N
deriving DecidableEq

/-- A priority queue, as the list of what it holds. -/
structure Queue (α : Type) where
  push : List α → α → List α
  pop : List α → Option (α × List α)
  push_perm : ∀ l a, (push l a).Perm (a :: l)
  pop_perm : ∀ {l a rest}, pop l = some (a, rest) → l.Perm (a :: rest)
  pop_none : ∀ {l}, pop l = none → l = []

namespace Queue

variable (q : Queue α) {l rest : List α} {a b : α}

/-- What the next pop gives. -/
def peek (l : List α) : Option α := (q.pop l).map Prod.fst

theorem mem_push : b ∈ q.push l a ↔ b = a ∨ b ∈ l := by
  rw [(q.push_perm l a).mem_iff, List.mem_cons]

theorem length_push (l : List α) (a : α) : (q.push l a).length = l.length + 1 := (q.push_perm l a).length_eq

/-- The item that none is before, or the first such: `ahead a b` says that `a` comes before `b`. -/
def foremost (ahead : α → α → Bool) : List α → Option α
  | [] => none
  | a :: rest => match foremost ahead rest with
    | none => some a
    | some b => some (if ahead b a then b else a)

theorem foremost_mem {ahead : α → α → Bool} {l : List α} (h : foremost ahead l = some a) : a ∈ l := by
  induction l generalizing a with
  | nil => cases h
  | cons c l ih =>
    unfold foremost at h
    split at h
    · exact List.mem_cons.mpr (.inl (Option.some.inj h).symm)
    · rename_i d hd
      obtain rfl := Option.some.inj h
      split
      · exact List.mem_cons_of_mem _ (ih hd)
      · exact List.mem_cons_self

/-- A queue that looks for the foremost of what it holds at each pop. -/
def scan [DecidableEq α] (ahead : α → α → Bool) : Queue α where
  push l a := a :: l
  pop l := (foremost ahead l).map (fun a => (a, l.erase a))
  push_perm _ _ := .refl _
  pop_perm {l a rest} h := by
    obtain ⟨b, hb, he⟩ := Option.map_eq_some_iff.mp h
    obtain ⟨rfl, rfl⟩ := Prod.mk.inj he
    exact List.perm_cons_erase (foremost_mem hb)
  pop_none {l} h := by
    cases l with
    | nil => rfl
    | cons a l =>
      have hnone := Option.map_eq_none_iff.mp h
      unfold foremost at hnone
      split at hnone <;> cases hnone

variable {q}

theorem length_pop (h : q.pop l = some (a, rest)) : l.length = rest.length + 1 := (q.pop_perm h).length_eq

theorem mem_of_pop (h : q.pop l = some (a, rest)) (hb : b ∈ a :: rest) : b ∈ l := (q.pop_perm h).mem_iff.mpr hb

end Queue

/-- A graph whose nodes can be scored: `has` says which nodes there are, `gt` which of two scores is better. -/
structure Space (N S : Type) where
  has : N → Bool
  neighbours : N → List N
  score : N → Option S
  gt : S → S → Bool

/-- The queues of a search, best first and worst first, and the order of its result: what the sort returns, where it does. -/
structure Heaps (N S : Type) where
  frontier : Queue (Scored N S)
  results : Queue (Scored N S)
  sort : List (Scored N S) → List (Scored N S)
  sort_perm : ∀ l, (sort l).Perm l

/-- How far a search has come. -/
structure Progress (N S : Type) where
  seen : List N
  frontier : List (Scored N S)
  results : List (Scored N S)

/-! ## The search -/

/-- A result list after one more: over the bound, its worst is dropped. -/
def keepBest (h : Heaps N S) (ef : Nat) (results : List (Scored N S)) : List (Scored N S) :=
  if ef < results.length then match h.results.pop results with
    | some (_, rest) => rest
    | none => results
  else results

section Search

variable [DecidableEq N] (h : Heaps N S) (g : Space N S) (ef : Nat)

/-- Take up an entry, unless it was seen. -/
def enter (p : Progress N S) (entry : N) : Option (Progress N S) :=
  if !g.has entry || p.seen.contains entry then some p
  else do
    let score ← g.score entry
    return ⟨entry :: p.seen, h.frontier.push p.frontier ⟨score, entry⟩, h.results.push p.results ⟨score, entry⟩⟩

/-- Score a neighbour not seen before, and keep it if it is among the best. -/
def visit (p : Progress N S) (n : N) : Option (Progress N S) :=
  if !g.has n || p.seen.contains n then some p
  else do
    let score ← g.score n
    if p.results.length < ef || (h.results.peek p.results).any (fun worst => g.gt score worst.score) then
      return ⟨n :: p.seen, h.frontier.push p.frontier ⟨score, n⟩, keepBest h ef (h.results.push p.results ⟨score, n⟩)⟩
    else return { p with seen := n :: p.seen }

/-- Everything left is worse than everything kept. -/
def settled (p : Progress N S) (current : Scored N S) : Bool :=
  ef ≤ p.results.length && (h.results.peek p.results).any (fun worst => g.gt worst.score current.score)

/-- Expand the best node left, until there is none or none can improve the result. -/
def loop : Nat → Progress N S → Option (Progress N S)
  | 0, _ => none
  | fuel + 1, p => match h.frontier.pop p.frontier with
    | none => some p
    | some (current, rest) =>
        if settled h g ef p current then some { p with frontier := rest }
        else do
          let p ← (g.neighbours current.node).foldlM (visit h g ef) { p with frontier := rest }
          loop fuel p

/-- What the beam search from the entries keeps, before it is sorted. -/
def collect (fuel : Nat) (entries : List N) : Option (List (Scored N S)) := do
  let p ← entries.foldlM (enter h g) ⟨[], [], []⟩
  let p ← loop h g ef fuel p
  return p.results

/-- **The beam search** from the entries, best first. -/
def search (fuel : Nat) (entries : List N) : Option (List (Scored N S)) := do
  let kept ← collect h g ef fuel entries
  return h.sort kept

theorem search_eq (fuel : Nat) (entries : List N) : search h g ef fuel entries =
    (entries.foldlM (enter h g) ⟨[], [], []⟩ >>= fun p => loop h g ef fuel p >>= fun p => some (h.sort p.results)) := by
  unfold search collect
  rcases entries.foldlM (enter h g) ⟨[], [], []⟩ with _ | p
  · rfl
  · show (loop h g ef fuel p >>= fun p => some p.results) >>= _ = loop h g ef fuel p >>= _
    rcases loop h g ef fuel p with _ | p <;> rfl

/-- A search that ends has collected what it then sorts. -/
theorem search_collected {fuel : Nat} {entries : List N} {found : List (Scored N S)}
    (hrun : search h g ef fuel entries = some found) :
    ∃ kept, collect h g ef fuel entries = some kept ∧ found = h.sort kept := by
  obtain ⟨kept, hkept, hrun⟩ := Option.bind_eq_some_iff.mp hrun
  exact ⟨kept, hkept, (Option.some.inj hrun).symm⟩

end Search

/-! ## What a search keeps true -/

/-- A set of nodes the search cannot leave: closed under neighbours, each with a score. -/
structure Closed (g : Space N S) (within : N → Prop) : Prop where
  scored : ∀ n, within n → ∃ s, g.score n = some s
  step : ∀ a, within a → ∀ b ∈ g.neighbours a, g.has b = true → within b

/-- **The state of a search** in such a set: what it holds was seen, once. -/
structure Held (within : N → Prop) (p : Progress N S) : Prop where
  once : p.seen.Nodup
  inside : ∀ n ∈ p.seen, within n
  frontier : ∀ c ∈ p.frontier, c.node ∈ p.seen
  results : ∀ c ∈ p.results, c.node ∈ p.seen
  distinct : (p.results.map Scored.node).Nodup

section Held

variable {h : Heaps N S} {within : N → Prop} {ef : Nat} {p : Progress N S} {n : N}

theorem Held.start : Held within (⟨[], [], []⟩ : Progress N S) :=
  ⟨List.nodup_nil, nofun, nofun, nofun, List.nodup_nil⟩

/-- A node is seen for the first time, and may go to either queue. -/
theorem Held.see (hp : Held within p) (hn : within n) (hnew : n ∉ p.seen) {frontier results : List (Scored N S)}
    (hf : ∀ c ∈ frontier, c.node = n ∨ c ∈ p.frontier) (hr : ∀ c ∈ results, c.node = n ∨ c ∈ p.results)
    (hd : (results.map Scored.node).Nodup) : Held within ⟨n :: p.seen, frontier, results⟩ := by
  refine ⟨List.nodup_cons.mpr ⟨hnew, hp.once⟩, List.forall_mem_cons.mpr ⟨hn, hp.inside⟩, fun c hc => ?_, fun c hc => ?_, hd⟩
  · rcases hf c hc with he | hc
    · exact List.mem_cons.mpr (.inl he)
    · exact List.mem_cons_of_mem _ (hp.frontier c hc)
  · rcases hr c hc with he | hc
    · exact List.mem_cons.mpr (.inl he)
    · exact List.mem_cons_of_mem _ (hp.results c hc)

/-- The results with a node that was not among them. -/
theorem Held.push_distinct (hp : Held within p) (hnew : n ∉ p.seen) (s : S) :
    ((h.results.push p.results ⟨s, n⟩).map Scored.node).Nodup := by
  have hperm := (h.results.push_perm p.results ⟨s, n⟩).map Scored.node
  rw [hperm.nodup_iff, List.map_cons, List.nodup_cons]
  refine ⟨fun hmem => ?_, hp.distinct⟩
  obtain ⟨c, hc, he⟩ := List.mem_map.mp hmem
  have he : c.node = n := he
  exact hnew (he ▸ hp.results c hc)

theorem keepBest_mem {results : List (Scored N S)} {c : Scored N S} (hc : c ∈ keepBest h ef results) : c ∈ results := by
  unfold keepBest at hc
  split at hc
  · split at hc
    · rename_i worst rest hpop
      exact h.results.mem_of_pop hpop (List.mem_cons_of_mem _ hc)
    · exact hc
  · exact hc

theorem keepBest_distinct {results : List (Scored N S)} (hd : (results.map Scored.node).Nodup) :
    ((keepBest h ef results).map Scored.node).Nodup := by
  unfold keepBest
  split
  · split
    · rename_i worst rest hpop
      have hperm := (h.results.pop_perm hpop).map Scored.node
      rw [hperm.nodup_iff, List.map_cons, List.nodup_cons] at hd
      exact hd.2
    · exact hd
  · exact hd

variable (ef) in
/-- What is kept is not less than the bound allows. -/
theorem keepBest_length (results : List (Scored N S)) : min ef results.length ≤ (keepBest h ef results).length := by
  unfold keepBest
  split
  · split
    · rename_i hlong worst rest hpop
      have := h.results.length_pop hpop
      omega
    · omega
  · omega

end Held

/-- How much is left to do: nodes to expand and nodes not seen. -/
def Progress.left (total : Nat) (p : Progress N S) : Nat := p.frontier.length + (total - p.seen.length)

section Spec

variable [DecidableEq N] {h : Heaps N S} {g : Space N S} {within : N → Prop} {ef : Nat} {p : Progress N S} {n : N}

/-- **Entering keeps the state**, and as many nodes to expand as were seen. -/
theorem enter_spec (hg : Closed g within) (hp : Held within p) (hn : g.has n = true → within n)
    (hlen : p.frontier.length = p.seen.length) (hres : p.results.length = p.seen.length) :
    ∃ p', enter h g p n = some p' ∧ Held within p' ∧ p'.frontier.length = p'.seen.length ∧
      p'.results.length = p'.seen.length ∧ p.seen ⊆ p'.seen ∧ (g.has n = true → n ∈ p'.seen) := by
  unfold enter
  by_cases hskip : (!g.has n || p.seen.contains n) = true
  · rw [if_pos hskip]
    refine ⟨p, rfl, hp, hlen, hres, fun _ hm => hm, fun hhas => ?_⟩
    rw [hhas] at hskip
    simpa using hskip
  · rw [if_neg hskip]
    simp only [Bool.or_eq_true, Bool.not_eq_true', List.contains_iff_mem, not_or, Bool.not_eq_false] at hskip
    obtain ⟨hhas, hnew⟩ := hskip
    obtain ⟨s, hs⟩ := hg.scored n (hn hhas)
    rw [hs]
    refine ⟨_, rfl, hp.see (hn hhas) hnew (fun c hc => ?_) (fun c hc => ?_) (hp.push_distinct hnew s), ?_, ?_,
      List.subset_cons_self _ _, fun _ => List.mem_cons_self⟩
    · rcases h.frontier.mem_push.mp hc with rfl | hc
      · exact .inl rfl
      · exact .inr hc
    · rcases h.results.mem_push.mp hc with rfl | hc
      · exact .inl rfl
      · exact .inr hc
    · rw [Queue.length_push, hlen, List.length_cons]
    · rw [Queue.length_push, hres, List.length_cons]

theorem enterAll_spec (hg : Closed g within) (entries : List N) (hp : Held within p)
    (hn : ∀ e ∈ entries, g.has e = true → within e) (hlen : p.frontier.length = p.seen.length)
    (hres : p.results.length = p.seen.length) :
    ∃ p', entries.foldlM (enter h g) p = some p' ∧ Held within p' ∧ p'.frontier.length = p'.seen.length ∧
      p'.results.length = p'.seen.length ∧ p.seen ⊆ p'.seen ∧ ∀ e ∈ entries, g.has e = true → e ∈ p'.seen := by
  induction entries generalizing p with
  | nil => exact ⟨p, rfl, hp, hlen, hres, fun _ hm => hm, nofun⟩
  | cons e entries ih =>
    obtain ⟨he, hrest⟩ := List.forall_mem_cons.mp hn
    obtain ⟨p1, h1, hp1, hlen1, hres1, hsub1, hmem1⟩ := enter_spec (h := h) hg hp he hlen hres
    obtain ⟨p2, h2, hp2, hlen2, hres2, hsub2, hmem2⟩ := ih hp1 hrest hlen1 hres1
    refine ⟨p2, ?_, hp2, hlen2, hres2, fun _ hm => hsub2 (hsub1 hm), List.forall_mem_cons.mpr ⟨fun hh => hsub2 (hmem1 hh), hmem2⟩⟩
    rw [List.foldlM_cons, h1]
    exact h2

variable (ef) in
/-- **Visiting keeps the state**; there is never more left to do. -/
theorem visit_spec (hg : Closed g within) (hp : Held within p) (hn : g.has n = true → within n) {total : Nat}
    (hroom : ∀ l : List N, l.Nodup → (∀ a ∈ l, within a) → l.length ≤ total) :
    ∃ p', visit h g ef p n = some p' ∧ Held within p' ∧ p'.left total ≤ p.left total ∧
      min ef p.results.length ≤ p'.results.length := by
  unfold visit
  by_cases hskip : (!g.has n || p.seen.contains n) = true
  · rw [if_pos hskip]
    exact ⟨p, rfl, hp, Nat.le_refl _, by omega⟩
  · rw [if_neg hskip]
    simp only [Bool.or_eq_true, Bool.not_eq_true', List.contains_iff_mem, not_or, Bool.not_eq_false] at hskip
    obtain ⟨hhas, hnew⟩ := hskip
    obtain ⟨s, hs⟩ := hg.scored n (hn hhas)
    rw [hs]
    have hwith := List.nodup_cons.mpr ⟨hnew, hp.once⟩
    have hfew := hroom (n :: p.seen) hwith (List.forall_mem_cons.mpr ⟨hn hhas, hp.inside⟩)
    rw [List.length_cons] at hfew
    simp only [Option.bind_eq_bind, Option.bind_some]
    split
    · refine ⟨_, rfl, hp.see (hn hhas) hnew (fun c hc => ?_) (fun c hc => ?_) (keepBest_distinct (hp.push_distinct hnew s)),
        ?_, ?_⟩
      · rcases h.frontier.mem_push.mp hc with rfl | hc
        · exact .inl rfl
        · exact .inr hc
      · rcases h.results.mem_push.mp (keepBest_mem hc) with rfl | hc
        · exact .inl rfl
        · exact .inr hc
      · unfold Progress.left
        rw [Queue.length_push, List.length_cons]
        omega
      · have := keepBest_length (h := h) ef (h.results.push p.results ⟨s, n⟩)
        rw [Queue.length_push] at this
        show _ ≤ (keepBest h ef _).length
        omega
    · refine ⟨_, rfl, hp.see (hn hhas) hnew (fun c hc => .inr hc) (fun c hc => .inr hc) hp.distinct, ?_, ?_⟩
      · unfold Progress.left
        dsimp only
        rw [List.length_cons]
        omega
      · show min ef p.results.length ≤ p.results.length
        omega

variable (ef) in
theorem visitAll_spec (hg : Closed g within) (nodes : List N) (hp : Held within p)
    (hn : ∀ n ∈ nodes, g.has n = true → within n) {total : Nat}
    (hroom : ∀ l : List N, l.Nodup → (∀ a ∈ l, within a) → l.length ≤ total) :
    ∃ p', nodes.foldlM (visit h g ef) p = some p' ∧ Held within p' ∧ p'.left total ≤ p.left total ∧
      min ef p.results.length ≤ p'.results.length := by
  induction nodes generalizing p with
  | nil => exact ⟨p, rfl, hp, Nat.le_refl _, by omega⟩
  | cons n nodes ih =>
    obtain ⟨hhead, hrest⟩ := List.forall_mem_cons.mp hn
    obtain ⟨p1, h1, hp1, hleft1, hres1⟩ := visit_spec (h := h) ef hg hp hhead hroom
    obtain ⟨p2, h2, hp2, hleft2, hres2⟩ := ih hp1 hrest
    refine ⟨p2, ?_, hp2, Nat.le_trans hleft2 hleft1, by omega⟩
    rw [List.foldlM_cons, h1]
    exact h2

variable (ef) in
/-- **The loop ends** when its fuel is more than what is left to do. -/
theorem loop_spec (hg : Closed g within) {total : Nat}
    (hroom : ∀ l : List N, l.Nodup → (∀ a ∈ l, within a) → l.length ≤ total) (fuel : Nat) (hp : Held within p)
    (hfuel : p.left total < fuel) : ∃ p', loop h g ef fuel p = some p' ∧ Held within p' ∧
      min ef p.results.length ≤ p'.results.length := by
  induction fuel generalizing p with
  | zero => omega
  | succ fuel ih =>
    unfold loop
    cases hpop : h.frontier.pop p.frontier with
    | none => exact ⟨p, rfl, hp, by omega⟩
    | some popped =>
      obtain ⟨current, rest⟩ := popped
      have hlen := h.frontier.length_pop hpop
      have hpopped : Held within { p with frontier := rest } :=
        ⟨hp.once, hp.inside, fun c hc => hp.frontier c (h.frontier.mem_of_pop hpop (List.mem_cons_of_mem _ hc)),
          hp.results, hp.distinct⟩
      dsimp only
      split
      · exact ⟨_, rfl, hpopped, by show min ef p.results.length ≤ p.results.length; omega⟩
      · have hcurrent : within current.node :=
          hp.inside _ (hp.frontier current (h.frontier.mem_of_pop hpop List.mem_cons_self))
        obtain ⟨p1, h1, hp1, hleft1, hres1⟩ := visitAll_spec (h := h) ef hg (g.neighbours current.node) hpopped
          (fun n hn => hg.step _ hcurrent n hn) hroom
        have hless : p1.left total < fuel := by
          unfold Progress.left at hleft1 hfuel ⊢
          dsimp only at hleft1
          omega
        obtain ⟨p2, h2, hp2, hres2⟩ := ih hp1 hless
        have hres1 : min ef p.results.length ≤ p1.results.length := hres1
        exact ⟨p2, by rw [h1]; exact h2, hp2, by omega⟩

variable (ef) in
/-- **A search ends**, whatever the scores are: what it finds are distinct nodes of the set, and it finds something
    if an entry is there to be found and the beam has room for one. -/
theorem search_spec (hg : Closed g within) {total fuel : Nat}
    (hroom : ∀ l : List N, l.Nodup → (∀ a ∈ l, within a) → l.length ≤ total) (hfuel : total < fuel) {entries : List N}
    (hin : ∀ e ∈ entries, g.has e = true → within e) :
    ∃ found, search h g ef fuel entries = some found ∧ (∀ c ∈ found, within c.node) ∧
      (found.map Scored.node).Nodup ∧ (1 ≤ ef → (∃ e ∈ entries, g.has e = true) → found ≠ []) := by
  obtain ⟨p1, h1, hp1, hlen1, hres1, -, hmem1⟩ := enterAll_spec (h := h) hg entries Held.start hin rfl rfl
  have hleft : p1.left total < fuel := by
    unfold Progress.left
    have := hroom p1.seen hp1.once hp1.inside
    omega
  obtain ⟨p2, h2, hp2, hres2⟩ := loop_spec (h := h) ef hg hroom fuel hp1 hleft
  have hperm := h.sort_perm p2.results
  refine ⟨h.sort p2.results, ?_, fun c hc => ?_, ?_, fun hef hentry => ?_⟩
  · rw [search_eq, h1]
    show (loop h g ef fuel p1 >>= _) = _
    rw [h2]
    rfl
  · exact hp2.inside _ (hp2.results c (hperm.mem_iff.mp hc))
  · exact (hperm.map Scored.node).nodup_iff.mpr hp2.distinct
  · obtain ⟨e, he, hhas⟩ := hentry
    have hpos : 0 < p1.seen.length := List.length_pos_of_mem (hmem1 e he hhas)
    have hsome : 0 < (h.sort p2.results).length := by
      rw [hperm.length_eq]
      omega
    exact List.ne_nil_of_length_pos hsome

end Spec

end Beam
