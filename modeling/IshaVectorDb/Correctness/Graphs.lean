import IshaVectorDb.Index.Build
import Mathlib.Data.List.Perm.Subperm

/-!
# `Correctness.Graphs` — what an insertion does to the graph, and the **representation invariant**

A node is linked on a layer by single edges and by cutting lists back, and both change one list of one layer
(`Relinked`, `Linked`). What the search on a layer can reach is a set of nodes, one for each layer, that no neighbour
list leaves (`Tower`); the node is linked to members of it only. So `insert_runs` says of every insertion that it ends
without reading outside the graph, and what lists it leaves; the invariant of a graph with at most `2 ^ 32` nodes
(`WellFormed`) follows for every run of builds and extensions, whatever the scores, the layers drawn and the queues are.
-/

namespace IshaVectorDb.Index

open Format Parsing Beam

namespace Graph

variable {M : Machine} {metric : Metric} {p : HnswParams} {g g' g'' : Graph} {layer node l n x : Nat}

/-! ## One list changes -/

theorem neighbours_modifyAt_of_ne {f : List Nat → List Nat} (h : ¬ (l = layer ∧ n = node)) :
    (g.modifyAt layer node f).neighbours l n = g.neighbours l n := by
  unfold neighbours modifyAt
  dsimp only
  rw [List.getElem?_modify]
  by_cases hl : layer = l
  · have hn : node ≠ n := fun he => h ⟨hl.symm, he.symm⟩
    subst hl
    cases g.layers[layer]? with
    | none => rfl
    | some lists => simp [hn]
  · cases g.layers[l]? with
    | none => rfl
    | some lists => simp [hl]

variable (g layer node) in
/-- The changed list, if the node has one on that layer. -/
theorem neighbours_modifyAt_self (f : List Nat → List Nat) :
    (g.modifyAt layer node f).neighbours layer node = f (g.neighbours layer node) ∨
      (g.modifyAt layer node f).neighbours layer node = [] ∧ g.neighbours layer node = [] := by
  unfold neighbours modifyAt
  dsimp only
  rw [List.getElem?_modify]
  cases g.layers[layer]? with
  | none => exact .inr ⟨rfl, rfl⟩
  | some lists =>
    simp only [if_true, Option.map_eq_map, Option.map_some, Option.bind_some, List.getElem?_modify]
    cases lists[node]? with
    | none => exact .inr ⟨rfl, rfl⟩
    | some list => exact .inl rfl

/-- **Only neighbour lists differ**: the nodes are the same, and every layer has as many lists as before. -/
structure Relinked (g g' : Graph) : Prop where
  nodes : g' = { g with layers := g'.layers }
  shape : g'.layers.map List.length = g.layers.map List.length

namespace Relinked

theorem refl (g : Graph) : Relinked g g := ⟨rfl, rfl⟩

theorem trans (h : Relinked g g') (h' : Relinked g' g'') : Relinked g g'' := by
  refine ⟨?_, h'.shape.trans h.shape⟩
  rw [h'.nodes, h.nodes]

theorem modifyAt (g : Graph) (layer node : Nat) (f : List Nat → List Nat) : Relinked g (g.modifyAt layer node f) := by
  refine ⟨rfl, ?_⟩
  apply List.ext_getElem?
  intro i
  show ((g.layers.modify layer _).map List.length)[i]? = _
  rw [List.getElem?_map, List.getElem?_map, List.getElem?_modify]
  cases g.layers[i]? with
  | none => rfl
  | some lists =>
    by_cases hi : layer = i
    · simp [hi]
    · simp [hi]

variable (h : Relinked g g')
include h

theorem len : g'.len = g.len := by rw [h.nodes]; rfl

theorem levels : g'.levels = g.levels := by rw [h.nodes]

theorem entry : g'.entry = g.entry := by rw [h.nodes]

theorem scoreOf : g'.scoreOf M metric = g.scoreOf M metric := by rw [h.nodes]; rfl

theorem layers_length : g'.layers.length = g.layers.length := by
  have := congrArg List.length h.shape
  rwa [List.length_map, List.length_map] at this

end Relinked

/-! ## Graphs that are safe to read -/

/-- **Every array has an entry for each node** and every neighbour is a node. -/
structure Shaped (g : Graph) : Prop where
  vectors : g.vectors.length = g.len * g.dimension
  invNorms : g.invNorms.length = g.len
  levels : g.levels.length = g.len
  layers : ∀ layer ∈ g.layers, layer.length ≤ g.len ∧ (g.len ≤ 2 ^ 32 → layer.length = g.len)
  neighbours : ∀ l n, ∀ x ∈ g.neighbours l n, x < g.len

namespace Shaped

variable (hs : g.Shaped)
include hs

theorem vector_some (hn : n < g.len) : ∃ v, g.vector n = some v := by
  refine ⟨_, if_pos ?_⟩
  rw [hs.vectors]
  calc n * g.dimension + g.dimension = (n + 1) * g.dimension := (Nat.succ_mul _ _).symm
    _ ≤ g.len * g.dimension := Nat.mul_le_mul_right _ hn

variable (M metric) in
theorem scoreOf_some (hn : n < g.len) (query : List UInt32) : ∃ s, g.scoreOf M metric query n = some s := by
  obtain ⟨v, hv⟩ := hs.vector_some hn
  rw [← hs.invNorms] at hn
  unfold scoreOf
  rw [hv, List.getElem?_eq_getElem hn]
  exact ⟨_, rfl⟩

theorem closeness_some {a b : Nat} (ha : a < g.len) (hb : b < g.len) : ∃ s, g.closeness M metric a b = some s := by
  obtain ⟨v, hv⟩ := hs.vector_some ha
  unfold closeness
  rw [hv]
  exact hs.scoreOf_some M metric hb v

theorem level_some (hn : n < g.len) : ∃ v, g.levels[n]? = some v := by
  rw [← hs.levels] at hn
  exact ⟨_, List.getElem?_eq_getElem hn⟩

/-- Relinking within the nodes keeps the shape. -/
theorem relinked (h : Relinked g g') (hb : ∀ l n, ∀ x ∈ g'.neighbours l n, x < g.len) : g'.Shaped := by
  have hnodes := h.nodes
  refine ⟨?_, ?_, ?_, fun layer hlayer => ?_, fun l n x hx => h.len ▸ hb l n x hx⟩
  · rw [hnodes]; exact hs.vectors
  · rw [hnodes]; exact hs.invNorms
  · rw [hnodes]; exact hs.levels
  · have hmem : layer.length ∈ g'.layers.map List.length := List.mem_map_of_mem hlayer
    rw [h.shape] at hmem
    obtain ⟨old, hold, he⟩ := List.mem_map.mp hmem
    rw [← he, h.len]
    exact hs.layers old hold

end Shaped

/-! ## An edge, and a list cut back -/

/-- **What changes on one layer**: every edge that is new is one of `E`, and none is a loop or is there twice. -/
structure Touched (layer : Nat) (E : Nat → Nat → Prop) (g g' : Graph) : Prop where
  same : Relinked g g'
  other : ∀ l ≠ layer, ∀ n, g'.neighbours l n = g.neighbours l n
  edges : ∀ n, ∀ x ∈ g'.neighbours layer n, x ∈ g.neighbours layer n ∨ n ≠ x ∧ E n x
  nodup : ∀ n, (g.neighbours layer n).Nodup → (g'.neighbours layer n).Nodup

namespace Touched

variable {E F : Nat → Nat → Prop}

theorem refl (layer : Nat) (E : Nat → Nat → Prop) (g : Graph) : Touched layer E g g :=
  ⟨.refl g, fun _ _ _ => rfl, fun _ _ hx => .inl hx, fun _ h => h⟩

theorem trans (h : Touched layer E g g') (h' : Touched layer E g' g'') : Touched layer E g g'' := by
  refine ⟨h.same.trans h'.same, fun l hl n => (h'.other l hl n).trans (h.other l hl n), fun n x hx => ?_,
    fun n hnd => h'.nodup n (h.nodup n hnd)⟩
  rcases h'.edges n x hx with hx | hnew
  · exact h.edges n x hx
  · exact .inr hnew

theorem mono (h : Touched layer E g g') (hEF : ∀ a b, E a b → F a b) : Touched layer F g g' := by
  refine ⟨h.same, h.other, fun n x hx => ?_, h.nodup⟩
  rcases h.edges n x hx with hx | ⟨hne, hE⟩
  · exact .inl hx
  · exact .inr ⟨hne, hEF n x hE⟩

/-- New edges between nodes keep a graph safe to read. -/
theorem shaped (h : Touched layer E g g') (hs : g.Shaped) (hE : ∀ a b, E a b → b < g.len) : g'.Shaped := by
  refine hs.relinked h.same (fun l n x hx => ?_)
  by_cases hl : l = layer
  · subst hl
    rcases h.edges n x hx with hx | ⟨-, hnew⟩
    · exact hs.neighbours l n x hx
    · exact hE n x hnew
  · rw [h.other l hl n] at hx
    exact hs.neighbours l n x hx

end Touched

theorem neighbours_connect_of_ne {src dst : Nat} (h : ¬ (l = layer ∧ n = src)) :
    (g.connect layer src dst).neighbours l n = g.neighbours l n := by
  unfold connect
  split
  · rfl
  · exact neighbours_modifyAt_of_ne h

/-- **An edge** is added at the end of the list, or nothing is. -/
theorem neighbours_connect_self (g : Graph) (layer src dst : Nat) :
    (g.connect layer src dst).neighbours layer src = g.neighbours layer src ∨
      src ≠ dst ∧ dst ∉ g.neighbours layer src ∧
        (g.connect layer src dst).neighbours layer src = g.neighbours layer src ++ [dst] := by
  unfold connect
  by_cases hloop : src = dst
  · rw [if_pos hloop]
    exact .inl rfl
  rw [if_neg hloop]
  rcases neighbours_modifyAt_self g layer src
    (fun list => if list.contains dst then list else list ++ [dst]) with h | ⟨h, hnone⟩
  · by_cases hthere : dst ∈ g.neighbours layer src
    · exact .inl (h.trans (if_pos (by simpa using hthere)))
    · exact .inr ⟨hloop, hthere, h.trans (if_neg (by simpa using hthere))⟩
  · exact .inl (h.trans hnone.symm)

theorem connect_touched (g : Graph) (layer src dst : Nat) :
    Touched layer (fun a b => a = src ∧ b = dst) g (g.connect layer src dst) := by
  have hsame : Relinked g (g.connect layer src dst) := by
    unfold connect
    split
    · exact .refl g
    · exact .modifyAt g layer src _
  refine ⟨hsame, fun l hl n => neighbours_connect_of_ne (fun h => hl h.1), fun n x hx => ?_, fun n hnd => ?_⟩
  · by_cases hn : n = src
    · subst hn
      rcases neighbours_connect_self g layer n dst with h | ⟨hne, -, h⟩
      · exact .inl (h ▸ hx)
      · rw [h] at hx
        rcases List.mem_append.mp hx with hx | hx
        · exact .inl hx
        · obtain rfl := List.mem_singleton.mp hx
          exact .inr ⟨hne, rfl, rfl⟩
    · rw [neighbours_connect_of_ne (fun h => hn h.2)] at hx
      exact .inl hx
  · by_cases hn : n = src
    · subst hn
      rcases neighbours_connect_self g layer n dst with h | ⟨-, hnew, h⟩
      · rw [h]; exact hnd
      · rw [h]; exact nodup_snoc hnd hnew
    · rw [neighbours_connect_of_ne (fun h => hn h.2)]
      exact hnd

theorem connect_length (g : Graph) (layer src dst : Nat) :
    ((g.connect layer src dst).neighbours layer src).length ≤ (g.neighbours layer src).length + 1 := by
  rcases neighbours_connect_self g layer src dst with h | ⟨-, -, h⟩
  · rw [h]
    exact Nat.le_succ _
  · rw [h, List.length_append, List.length_singleton]

/-- What a list may be cut back to. -/
structure Cut (max : Nat) (old new : List Nat) : Prop where
  sub : new ⊆ old
  nodup : old.Nodup → new.Nodup
  bound : new.length ≤ max
  room : old.length ≤ max → new = old

variable (M metric) in
theorem selectNeighbours_spec (hs : g.Shaped) {candidates : List (Scored Nat UInt32)} (max : Nat)
    (hall : ∀ c ∈ candidates, c.node < g.len) :
    ∃ kept, g.selectNeighbours M metric candidates max = some kept ∧ Choice max candidates kept ∧
      (candidates ≠ [] → 0 < max → kept ≠ []) :=
  select_spec (· < g.len) (fun _ _ ha hb => hs.closeness_some ha hb) hall

variable (M metric) in
theorem scoreAll_spec (hs : g.Shaped) (query : List UInt32) (nodes : List Nat) (hn : ∀ n ∈ nodes, n < g.len) :
    ∃ scored : List (Scored Nat UInt32),
      nodes.mapM (fun n => (g.scoreOf M metric query n).map (fun s => (⟨s, n⟩ : Scored Nat UInt32))) = some scored ∧
        scored.map Scored.node = nodes := by
  induction nodes with
  | nil => exact ⟨[], rfl, rfl⟩
  | cons n nodes ih =>
    obtain ⟨hhead, hrest⟩ := List.forall_mem_cons.mp hn
    obtain ⟨s, hscore⟩ := hs.scoreOf_some M metric hhead query
    obtain ⟨scored, hrun, hnodes⟩ := ih hrest
    refine ⟨⟨s, n⟩ :: scored, ?_, by rw [List.map_cons, hnodes]⟩
    rw [List.mapM_cons, hscore, hrun]
    rfl

variable (M metric layer) in
/-- **A list is cut back** to a choice among its nodes, if it is too long. -/
theorem prune_spec (hs : g.Shaped) (hn : node < g.len) (max : Nat) :
    ∃ g', g.prune M metric layer node max = some g' ∧ Touched layer (fun _ _ => False) g g' ∧
      (∀ n ≠ node, g'.neighbours layer n = g.neighbours layer n) ∧
      (g'.neighbours layer node).length ≤ max ∧ (g'.neighbours layer node).length ≤ (g.neighbours layer node).length := by
  unfold prune
  split
  · rename_i hfew
    exact ⟨g, rfl, .refl layer _ g, fun _ _ => rfl, hfew, Nat.le_refl _⟩
  · rename_i hmany
    obtain ⟨query, hquery⟩ := hs.vector_some hn
    obtain ⟨scored, hscored, hnodes⟩ :=
      scoreAll_spec M metric hs query (g.neighbours layer node) (hs.neighbours layer node)
    have hperm : ((M.heaps.sort scored).map Scored.node).Perm (g.neighbours layer node) :=
      hnodes ▸ (M.heaps.sort_perm scored).map Scored.node
    have hall : ∀ c ∈ M.heaps.sort scored, c.node < g.len := fun c hc =>
      hs.neighbours layer node c.node (hperm.mem_iff.mp (List.mem_map_of_mem hc))
    obtain ⟨kept, hkept, hchoice, -⟩ := selectNeighbours_spec M metric hs max hall
    rw [hquery]
    simp only [Option.bind_eq_bind, Option.bind_some, hscored, hkept]
    -- a list longer than `max` is not empty, so the node has one
    have hself : (g.modifyAt layer node (fun _ => kept)).neighbours layer node = kept := by
      rcases neighbours_modifyAt_self g layer node (fun _ => kept) with h | ⟨-, hnone⟩
      · exact h
      · rw [hnone, List.length_nil] at hmany
        omega
    refine ⟨_, rfl, ⟨.modifyAt g layer node _, fun l hl n => neighbours_modifyAt_of_ne (fun h => hl h.1),
      fun n x hx => ?_, fun n hnd => ?_⟩, fun n hne => neighbours_modifyAt_of_ne (fun h => hne h.2), ?_, ?_⟩
    · by_cases hne : n = node
      · subst hne
        rw [hself] at hx
        exact .inl (hperm.mem_iff.mp (hchoice.among x hx))
      · rw [neighbours_modifyAt_of_ne (fun h => hne h.2)] at hx
        exact .inl hx
    · by_cases hne : n = node
      · subst hne
        rw [hself]
        exact select_nodup (hperm.nodup_iff.mpr hnd) hkept
      · rw [neighbours_modifyAt_of_ne (fun h => hne h.2)]
        exact hnd
    · rw [hself]
      exact hchoice.bound
    · rw [hself]
      have := hchoice.bound
      omega

/-! ## Linking to several neighbours -/

/-- The edges between a node and its neighbours. -/
def Between (node : Nat) (chosen : List Nat) (a b : Nat) : Prop := a = node ∧ b ∈ chosen ∨ a ∈ chosen ∧ b = node

/-- **What linking a node to neighbours may change**: only edges between the node and them are new, and no list of
    another node gets longer than `max`. -/
structure Linked (layer node max : Nat) (chosen : List Nat) (g g' : Graph) : Prop extends
    Touched layer (Between node chosen) g g' where
  bound : ∀ n ≠ node, (g.neighbours layer n).length ≤ max → (g'.neighbours layer n).length ≤ max
  own : (g'.neighbours layer node).length ≤ (g.neighbours layer node).length + chosen.length

variable (M metric layer) in
/-- **One neighbour** is linked. -/
theorem link_spec (hs : g.Shaped) (hn : node < g.len) (max : Nat) {c : Nat} (hc : c < g.len) :
    ∃ g', g.link M metric layer node max c = some g' ∧ Linked layer node max [c] g g' := by
  have h1 := (connect_touched g layer node c).mono (F := Between node [c]) (fun a b h => .inl ⟨h.1, by simp [h.2]⟩)
  have h2 := (connect_touched (g.connect layer node c) layer c node).mono (F := Between node [c])
    (fun a b h => .inr ⟨by simp [h.1], h.2⟩)
  have h12 := h1.trans h2
  have hin : ∀ a b, Between node [c] a b → b < g.len := by
    rintro a b (⟨-, hb⟩ | ⟨-, rfl⟩)
    · exact List.mem_singleton.mp hb ▸ hc
    · exact hn
  have hs2 := h12.shaped hs hin
  obtain ⟨g', hrun, h3, hother, hmax, hshort⟩ := prune_spec M metric layer hs2
    (h12.same.len ▸ hc) max
  refine ⟨g', hrun, h12.trans (h3.mono (fun _ _ h => h.elim)), fun n hne hb => ?_, ?_⟩
  · by_cases hnc : n = c
    · exact hnc ▸ hmax
    · rw [hother n hnc, neighbours_connect_of_ne (fun h => hnc h.2), neighbours_connect_of_ne (fun h => hne h.2)]
      exact hb
  · rw [List.length_singleton]
    by_cases hnc : node = c
    · -- a node is not linked to itself: both edges are refused
      subst hnc
      have hno : (g.connect layer node node).connect layer node node = g := by
        unfold connect
        rw [if_pos rfl, if_pos rfl]
      rw [hno] at hshort
      omega
    · rw [hother node hnc, neighbours_connect_of_ne (fun h => hnc h.2)]
      exact connect_length g layer node c

variable (M metric layer) in
theorem linkAll_spec (hs : g.Shaped) (hn : node < g.len) (max : Nat) (chosen : List Nat) (hc : ∀ c ∈ chosen, c < g.len) :
    ∃ g', chosen.foldlM (link M metric layer node max) g = some g' ∧ Linked layer node max chosen g g' := by
  induction chosen generalizing g with
  | nil => exact ⟨g, rfl, .refl layer _ g, fun _ _ h => h, Nat.le_refl _⟩
  | cons c chosen ih =>
    obtain ⟨hhead, hrest⟩ := List.forall_mem_cons.mp hc
    obtain ⟨g1, h1, hl1⟩ := link_spec M metric layer hs hn max hhead
    have hin : ∀ a b, Between node [c] a b → b < g.len := by
      rintro a b (⟨-, hb⟩ | ⟨-, rfl⟩)
      · exact List.mem_singleton.mp hb ▸ hhead
      · exact hn
    have hlen := hl1.same.len
    obtain ⟨g2, h2, hl2⟩ := ih (hl1.shaped hs hin) (hlen ▸ hn) (fun d hd => hlen ▸ hrest d hd)
    refine ⟨g2, by rw [List.foldlM_cons, h1]; exact h2, ?_, fun n hne hb => hl2.bound n hne (hl1.bound n hne hb), ?_⟩
    · refine (hl1.toTouched.mono ?_).trans (hl2.toTouched.mono ?_)
      · rintro a b (⟨ha, hb⟩ | ⟨ha, hb⟩)
        · exact .inl ⟨ha, List.mem_cons.mpr (.inl (List.mem_singleton.mp hb))⟩
        · exact .inr ⟨List.mem_cons.mpr (.inl (List.mem_singleton.mp ha)), hb⟩
      · rintro a b (⟨ha, hb⟩ | ⟨ha, hb⟩)
        · exact .inl ⟨ha, List.mem_cons_of_mem _ hb⟩
        · exact .inr ⟨List.mem_cons_of_mem _ ha, hb⟩
    · have ho1 := hl1.own
      have ho2 := hl2.own
      rw [List.length_singleton] at ho1
      rw [List.length_cons]
      omega

/-! ## Where a search on a layer can get -/

theorem nodup_length_le {m : Nat} {nodes : List Nat} (hnd : nodes.Nodup) (h : ∀ a ∈ nodes, a < m) :
    nodes.length ≤ m := by
  have hsub := (List.subperm_of_subset hnd (fun a ha => List.mem_range.mpr (h a ha))).length_le
  rwa [List.length_range] at hsub

/-- **A set of nodes for each layer** that no list below `top` leaves, each in the one of the layer below. -/
structure Tower (top : Nat) (g : Graph) (W : Nat → Nat → Prop) : Prop where
  inside : ∀ l n, W l n → n < g.len
  down : ∀ l n, W (l + 1) n → W l n
  step : ∀ l < top, ∀ a, W l a → ∀ b ∈ g.neighbours l a, W l b

/-- A node's level. -/
def level (g : Graph) (n : Nat) : Nat := ((g.levels[n]?).map UInt8.toNat).getD 0

/-- The entry point once a node is inserted: the node, if there was none or its level is higher. -/
def newEntry (g : Graph) (node : Nat) : Nat := match g.entry with
  | none => node
  | some e => if g.level e < g.level node then node else e

section Insert

variable {W : Nat → Nat → Prop} {top : Nat} {query : List UInt32}

/-- All nodes are a tower. -/
theorem Shaped.tower (hs : g.Shaped) (top : Nat) : Tower top g (fun _ n => n < g.len) :=
  ⟨fun _ _ h => h, fun _ _ h => h, fun l _ a _ b hb => hs.neighbours l a b hb⟩

theorem Tower.below (ht : Tower top g W) {low : Nat} (h : low ≤ top) : Tower low g W :=
  ⟨ht.inside, ht.down, fun l hl => ht.step l (Nat.lt_of_lt_of_le hl h)⟩

variable (M metric query) in
theorem Tower.sealed (hs : g.Shaped) (ht : Tower top g W) (hl : l < top) :
    Sealed (g.space M metric query l) (W l) :=
  ⟨fun n hn => hs.scoreOf_some M metric (ht.inside l n hn) query, fun a ha b hb => ht.step l hl a ha b hb⟩

variable (M metric query) in
/-- **The beam search on a layer** ends, and finds distinct nodes of the set. -/
theorem searchLayer_spec (hs : g.Shaped) (ht : Tower top g W) (hl : l < top) (ef : Nat) {entries : List Nat}
    (he : ∀ e ∈ entries, W l e) :
    ∃ found, g.searchLayer M metric query l ef entries = some found ∧ (∀ c ∈ found, W l c.node) ∧
      (found.map Scored.node).Nodup ∧ (1 ≤ ef → entries ≠ [] → found ≠ []) := by
  obtain ⟨found, hrun, hin, hnd, hsome⟩ := search_spec (h := M.heaps) ef
    (ht.sealed M metric query hs hl).closed
    (fun nodes hn h => nodup_length_le hn (fun a ha => ht.inside l a (h a ha))) (Nat.lt_succ_self g.len)
    (fun e hmem _ => he e hmem)
  refine ⟨found, hrun, hin, hnd, fun hef hne => hsome hef ?_⟩
  obtain ⟨e, rest, rfl⟩ := List.exists_cons_of_ne_nil hne
  exact ⟨e, List.mem_cons_self, by simpa [space] using ht.inside l e (he e List.mem_cons_self)⟩

/-- **A descent** ends at a node of the lower set. -/
theorem descendTo_spec (hs : g.Shaped) (ht : Tower top g W) (low layers : Nat) (htop : low + layers < top)
    {current : Scored Nat UInt32} (hc : W (low + layers) current.node)
    (hscore : g.scoreOf M metric query current.node = some current.score) :
    ∃ r, g.descendTo M metric query low layers current = some r ∧ W low r.node := by
  induction layers generalizing current with
  | zero => exact ⟨current, rfl, hc⟩
  | succ layers ih =>
    have hat : At (g.space M metric query (low + 1 + layers)) (W (low + 1 + layers)) current :=
      ⟨by rw [Nat.add_right_comm]; exact hc, hscore⟩
    obtain ⟨next, hrun, hnext⟩ := descend_spec Score.gt_strict
      (ht.sealed M metric query hs (show low + 1 + layers < top by omega))
      (fun nodes hn h => nodup_length_le hn (fun a ha => ht.inside _ a (h a ha))) (Nat.le_succ g.len) hat
    have hin : W (low + layers) next.node := ht.down _ _ (by rw [Nat.add_right_comm low layers 1]; exact hnext.inside)
    obtain ⟨r, hr, hlow⟩ := ih (by omega) hin hnext.score
    refine ⟨r, ?_, hlow⟩
    unfold descendTo
    rw [hrun]
    exact hr

/-- **What linking a node on its layers may change.** -/
structure Grown (p : HnswParams) (node : Nat) (W : Nat → Nat → Prop) (g g' : Graph) : Prop where
  same : Relinked g g'
  edges : ∀ l n, ∀ x ∈ g'.neighbours l n, x ∈ g.neighbours l n ∨ n ≠ x ∧ (n = node ∧ W l x ∨ W l n ∧ x = node)
  nodup : ∀ l n, (g.neighbours l n).Nodup → (g'.neighbours l n).Nodup
  bound : ∀ l, ∀ n ≠ node, (g.neighbours l n).length ≤ p.maxAt l → (g'.neighbours l n).length ≤ p.maxAt l
  own : ∀ l, g.neighbours l node = [] → (g'.neighbours l node).length ≤ p.maxAt l

/-- One layer linked, and then those below. -/
theorem Linked.grown {chosen : List Nat} (h : Linked l node (p.maxAt l) chosen g g')
    (hc : ∀ c ∈ chosen, W l c) (hfew : chosen.length ≤ p.maxAt l) (h' : Grown p node W g' g'')
    (hkeep : ∀ n, g''.neighbours l n = g'.neighbours l n) : Grown p node W g g'' := by
  refine ⟨h.same.trans h'.same, fun k n x hx => ?_, fun k n hnd => ?_, fun k n hne hb => ?_, fun k hnil => ?_⟩
  · by_cases hk : k = l
    · subst hk
      rw [hkeep] at hx
      rcases h.edges n x hx with hx | ⟨hne, ⟨hn, hmem⟩ | ⟨hmem, hx⟩⟩
      · exact .inl hx
      · exact .inr ⟨hne, .inl ⟨hn, hc x hmem⟩⟩
      · exact .inr ⟨hne, .inr ⟨hc n hmem, hx⟩⟩
    · rw [← h.other k hk n]
      exact h'.edges k n x hx
  · by_cases hk : k = l
    · subst hk
      rw [hkeep]
      exact h.nodup n hnd
    · exact h'.nodup k n (by rw [h.other k hk n]; exact hnd)
  · by_cases hk : k = l
    · subst hk
      rw [hkeep]
      exact h.bound n hne hb
    · exact h'.bound k n hne (by rw [h.other k hk n]; exact hb)
  · by_cases hk : k = l
    · subst hk
      have hown := h.own
      rw [hnil, List.length_nil] at hown
      rw [hkeep]
      omega
    · exact h'.own k (by rw [h.other k hk node]; exact hnil)

variable (M metric p query) in
/-- **A node is linked on its layers**, from entries in the set of the topmost. -/
theorem linkLayers_spec (hs : g.Shaped) (hn : node < g.len) (k : Nat) (ht : Tower k g W) {entries : List Nat}
    (he : ∀ j, k = j + 1 → ∀ e ∈ entries, W j e) :
    ∃ g', linkLayers M metric p node query k g entries = some g' ∧ Grown p node W g g' ∧
      ∀ l, k ≤ l → ∀ n, g'.neighbours l n = g.neighbours l n := by
  induction k generalizing g entries with
  | zero =>
    exact ⟨g, rfl, ⟨.refl g, fun _ _ _ hx => .inl hx, fun _ _ h => h, fun _ _ _ h => h, fun _ h => by simp [h]⟩,
      fun _ _ _ => rfl⟩
  | succ j ih =>
    have hentries : ∀ e ∈ entries, W j e := he j rfl
    obtain ⟨found, hfound, hin, -, -⟩ :=
      searchLayer_spec M metric query hs ht (Nat.lt_succ_self j) p.efConstruction hentries
    obtain ⟨chosen, hchosen, hchoice, -⟩ := selectNeighbours_spec M metric hs (p.maxAt j)
      (fun c hc => ht.inside j c.node (hin c hc))
    have hmem : ∀ c ∈ chosen, W j c := by
      intro c hc
      obtain ⟨s, hsf, rfl⟩ := List.mem_map.mp (hchoice.among c hc)
      exact hin s hsf
    have hrange : ∀ c ∈ chosen, c < g.len := fun c hc => ht.inside j c (hmem c hc)
    obtain ⟨g1, hg1, hl1⟩ := linkAll_spec M metric j hs hn (p.maxAt j) chosen hrange
    have hs1 : g1.Shaped := hl1.shaped hs (by
      rintro a b (⟨-, hb⟩ | ⟨-, rfl⟩)
      · exact hrange b hb
      · exact hn)
    -- the layers below are as they were
    have hbelow : Tower j g1 W := by
      refine ⟨fun l n h => hl1.same.len ▸ ht.inside l n h, ht.down, fun l hl a ha b hb => ?_⟩
      rw [hl1.other l (Nat.ne_of_lt hl) a] at hb
      exact ht.step l (Nat.lt_succ_of_lt hl) a ha b hb
    have hnext : ∀ i, j = i + 1 → ∀ e ∈ (if found.isEmpty then entries else found.map Scored.node), W i e := by
      rintro i rfl e hmem
      apply ht.down
      split at hmem
      · exact hentries e hmem
      · obtain ⟨c, hc, rfl⟩ := List.mem_map.mp hmem
        exact hin c hc
    obtain ⟨g2, hg2, hgrown, hkeep⟩ := ih hs1 (hl1.same.len ▸ hn) hbelow hnext
    refine ⟨g2, ?_, hl1.grown hmem hchoice.bound hgrown (hkeep j (Nat.le_refl j)), fun l hl n => ?_⟩
    · unfold linkLayers
      simp only [hfound, hchosen, hg1, Option.bind_eq_bind, Option.bind_some]
      exact hg2
    · rw [hkeep l (by omega) n, hl1.other l (by omega) n]

/-- What an insertion starts from: the node's vector, and the node that its descent comes to, in the set of the topmost
    layer on which it is linked. -/
structure Start (M : Machine) (metric : Metric) (g : Graph) (W : Nat → Nat → Prop) (node e : Nat) where
  level : UInt8
  entryLevel : UInt8
  query : List UInt32
  score : UInt32
  current : Scored Nat UInt32
  level_eq : g.levels[node]? = some level
  entryLevel_eq : g.levels[e]? = some entryLevel
  query_eq : g.vector node = some query
  score_eq : g.scoreOf M metric query e = some score
  current_eq : g.descendTo M metric query level.toNat (entryLevel.toNat - level.toNat) ⟨score, e⟩ = some current
  inside : W (min level.toNat entryLevel.toNat) current.node

variable (M metric) in
theorem insert_start (hs : g.Shaped) (hn : node < g.len) (ht : ∀ top, Tower top g W) {e : Nat} (he : W (g.level e) e) :
    Nonempty (Start M metric g W node e) := by
  have helt := (ht 0).inside _ e he
  obtain ⟨level, hlevel⟩ := hs.level_some hn
  obtain ⟨entryLevel, hentryLevel⟩ := hs.level_some helt
  obtain ⟨query, hquery⟩ := hs.vector_some hn
  obtain ⟨score, hscore⟩ := hs.scoreOf_some M metric helt query
  have htop : g.level e = entryLevel.toNat := by unfold Graph.level; rw [hentryLevel]; rfl
  rw [htop] at he
  -- down to the layer above the node's own, or nowhere
  have hstart : W (min level.toNat entryLevel.toNat + (entryLevel.toNat - level.toNat)) e := by
    rw [show min level.toNat entryLevel.toNat + (entryLevel.toNat - level.toNat) = entryLevel.toNat by omega]
    exact he
  have hlow : ∃ r, g.descendTo M metric query level.toNat (entryLevel.toNat - level.toNat) ⟨score, e⟩ = some r ∧
      W (min level.toNat entryLevel.toNat) r.node := by
    by_cases hle : level.toNat ≤ entryLevel.toNat
    · rw [Nat.min_eq_left hle] at hstart ⊢
      exact descendTo_spec hs (ht _) _ _ (Nat.lt_succ_self _) hstart hscore
    · rw [show entryLevel.toNat - level.toNat = 0 by omega] at hstart ⊢
      exact ⟨⟨score, e⟩, rfl, hstart⟩
  obtain ⟨r, hdescend, hr⟩ := hlow
  exact ⟨⟨level, entryLevel, query, score, r, hlevel, hentryLevel, hquery, hscore, hdescend, hr⟩⟩

/-- An insertion into a graph with an entry point links the node on its layers, from where its descent came to. -/
theorem Start.insert_eq {e : Nat} (st : Start M metric g W node e) (hentry : g.entry = some e) {linked : Graph}
    (hlinked : linkLayers M metric p node st.query (min st.level.toNat st.entryLevel.toNat + 1) g [st.current.node]
      = some linked) (hsame : linked.entry = g.entry) :
    g.insert M metric p node = some { linked with entry := some (g.newEntry node) } := by
  have hnode : g.level node = st.level.toNat := by unfold Graph.level; rw [st.level_eq]; rfl
  have htop : g.level e = st.entryLevel.toNat := by unfold Graph.level; rw [st.entryLevel_eq]; rfl
  unfold insert newEntry
  rw [hentry]
  simp only [st.level_eq, st.entryLevel_eq, st.query_eq, st.score_eq, st.current_eq, hlinked, Option.bind_eq_bind,
    Option.bind_some, hnode, htop, UInt8.lt_iff_toNat_lt]
  split
  · rfl
  · rw [← hentry, ← hsame]
    rfl

variable (M metric p) in
/-- **An insertion ends** and links the node to members of the sets it searched. -/
theorem insert_runs (hs : g.Shaped) (hn : node < g.len) (ht : ∀ top, Tower top g W)
    (he : ∀ e, g.entry = some e → W (g.level e) e) :
    ∃ linked, g.insert M metric p node = some { linked with entry := some (g.newEntry node) } ∧
      Grown p node W g linked ∧ ∀ l, g.level node < l → ∀ n, linked.neighbours l n = g.neighbours l n := by
  cases hentry : g.entry with
  | none =>
    refine ⟨g, ?_, ⟨.refl g, fun _ _ _ hx => .inl hx, fun _ _ h => h, fun _ _ _ h => h, fun _ h => by simp [h]⟩,
      fun _ _ _ => rfl⟩
    unfold insert newEntry
    rw [hentry]
  | some e =>
    obtain ⟨st⟩ := insert_start M metric hs hn ht (he e hentry)
    have hnode : g.level node = st.level.toNat := by unfold Graph.level; rw [st.level_eq]; rfl
    have hentries : ∀ j, min st.level.toNat st.entryLevel.toNat + 1 = j + 1 → ∀ c ∈ [st.current.node], W j c := by
      intro j hj c hc
      rw [List.mem_singleton.mp hc, ← Nat.succ.inj hj]
      exact st.inside
    obtain ⟨linked, hlinked, hgrown, habove⟩ :=
      linkLayers_spec M metric p st.query hs hn _ (ht _) hentries
    exact ⟨linked, st.insert_eq hentry hlinked hgrown.same.entry, hgrown, fun l hl n => habove l (by omega) n⟩

end Insert

/-! ## A node is pushed -/

section Push

variable {r : DecodedRow} {level : UInt8}

theorem neighbours_pushNode (g : Graph) (row : RowId) (v : List UInt32) (norm : UInt32) (level : UInt8) :
    (g.pushNode row v norm level).neighbours l n = g.neighbours l n := by
  -- a list that is put behind the others is empty, and so are the lists of a new layer
  have hend (lists : List (List Nat)) : ((lists ++ [[]])[n]?).getD [] = (lists[n]?).getD [] := by
    rcases Nat.lt_trichotomy n lists.length with h | h | h
    · rw [List.getElem?_append_left h]
    · subst h
      simp
    · rw [List.getElem?_eq_none (by simp; omega), List.getElem?_eq_none (by omega)]
  have hnew (i : Nat) : (((List.replicate i (List.replicate (nodeOf g.len) []))[l - g.layers.length]?).bind
      (fun lists => lists[n]?)).getD [] = ([] : List Nat) := by
    rw [List.getElem?_replicate]
    split
    · rw [Option.bind_some, List.getElem?_replicate]
      split <;> rfl
    · rfl
  have hlift (o : Option (List (List Nat))) : ((o.map (fun layer => layer ++ [[]])).bind (fun lists => lists[n]?)).getD []
      = (o.bind (fun lists => lists[n]?)).getD [] := by
    cases o with
    | none => rfl
    | some lists => exact hend lists
  show ((((g.raiseLayers level).map (fun layer => layer ++ [[]]))[l]?).bind (fun lists => lists[n]?)).getD [] = _
  rw [List.getElem?_map, hlift]
  unfold neighbours raiseLayers
  by_cases hl : l < g.layers.length
  · rw [List.getElem?_append_left hl]
  · rw [List.getElem?_append_right (by omega), hnew, List.getElem?_eq_none (by omega)]
    rfl

theorem Shaped.pushNode (hs : g.Shaped) {row : RowId} {v : List UInt32} {norm : UInt32}
    (hv : v.length = g.dimension) : (g.pushNode row v norm level).Shaped := by
  have hlen : (g.pushNode row v norm level).len = g.len + 1 := List.length_append
  refine ⟨?_, ?_, ?_, fun layer hlayer => ?_, fun l n x hx => ?_⟩
  · rw [hlen, Nat.succ_mul]
    exact List.length_append.trans (by rw [hs.vectors, hv]; rfl)
  · rw [hlen, ← hs.invNorms]
    exact List.length_append
  · rw [hlen, ← hs.levels]
    exact List.length_append
  · obtain ⟨old, hold, rfl⟩ := List.mem_map.mp hlayer
    rw [hlen, List.length_append, List.length_singleton]
    rcases List.mem_append.mp hold with hold | hold
    · exact (hs.layers old hold).imp Nat.succ_le_succ (fun h hfew => congrArg Nat.succ (h (Nat.le_of_succ_le hfew)))
    · -- a layer that the node is the first on
      rw [(List.mem_replicate.mp hold).2, List.length_replicate]
      exact ⟨Nat.succ_le_succ (Nat.mod_le _ _), fun hfew => congrArg Nat.succ (Nat.mod_eq_of_lt hfew)⟩
  · rw [neighbours_pushNode] at hx
    have := hs.neighbours l n x hx
    omega

/-- A number behind the last node has no neighbours. -/
theorem Shaped.neighbours_out (hs : g.Shaped) (hn : g.len ≤ n) : g.neighbours l n = [] := by
  unfold Graph.neighbours
  cases hl : g.layers[l]? with
  | none => rfl
  | some lists =>
    have := (hs.layers lists (List.mem_of_getElem? hl)).1
    rw [Option.bind_some, List.getElem?_eq_none (by omega)]
    rfl

theorem level_pushNode_old (hs : g.Shaped) (hn : n < g.len) {row : RowId} {v : List UInt32} {norm : UInt32} :
    (g.pushNode row v norm level).level n = g.level n := by
  unfold Graph.level Graph.pushNode
  rw [← hs.levels] at hn
  rw [List.getElem?_append_left hn]

end Push

/-! ## Insertions one after another -/

/-- **A graph that is safe to search and to extend**: it has an entry point if it has a node, and it is one. -/
structure Sound (g : Graph) : Prop extends Shaped g where
  entry : ∀ e, g.entry = some e → e < g.len
  entered : g.entry.isSome = decide (0 < g.len)

section Rows

variable {r : DecodedRow}

theorem nodeOf_lt (g : Graph) : nodeOf g.len < g.len + 1 := Nat.lt_succ_of_le (Nat.mod_le _ _)

theorem newEntry_lt (hn : node < g.len) (he : ∀ e, g.entry = some e → e < g.len) : g.newEntry node < g.len := by
  unfold newEntry
  cases hentry : g.entry with
  | none => exact hn
  | some e =>
    dsimp only
    split
    · exact hn
    · exact he e hentry

/-- **What adding a row makes of a sound graph**: a sound graph with the row's node. -/
structure Added (M : Machine) (p : HnswParams) (metric : Metric) (g : Graph) (r : DecodedRow) (g' : Graph) : Prop where
  run : g.addRow M metric p r = some g'
  sound : g'.Sound
  nodes : g' = { g.pushNode r.1 r.2.1 r.2.2 (levelFor M p r.1) with layers := g'.layers, entry := g'.entry }
  entry : g'.entry = some ((g.pushNode r.1 r.2.1 r.2.2 (levelFor M p r.1)).newEntry (nodeOf g.len))
  height : g'.layers.length = max g.layers.length ((levelFor M p r.1).toNat + 1)

namespace Added

variable (h : Added M p metric g r g')
include h

theorem len : g'.len = g.len + 1 := by
  rw [h.nodes]
  exact List.length_append

theorem dimension : g'.dimension = g.dimension := by rw [h.nodes]; rfl

theorem metric_eq : g'.metric = g.metric := by rw [h.nodes]; rfl

/-- The linking's insertion is the code's. -/
theorem insertRow (hmetric : g.metric = some metric) : g.insertRow (hnswLinking M p) r = g' := by
  have hpushed : (g.pushNode r.1 r.2.1 r.2.2 (levelFor M p r.1)).metric = some metric := hmetric
  have hlinking : (hnswLinking M p).insert (g.pushNode r.1 r.2.1 r.2.2 (levelFor M p r.1)) g.len
      = (g'.layers, g'.entry) := by
    have hrun := h.run
    unfold addRow at hrun
    unfold hnswLinking
    dsimp only
    rw [hpushed, Option.bind_some, hrun]
  refine Eq.trans ?_ h.nodes.symm
  show ({ g.pushNode r.1 r.2.1 r.2.2 (levelFor M p r.1) with
    layers := ((hnswLinking M p).insert (g.pushNode r.1 r.2.1 r.2.2 (levelFor M p r.1)) g.len).1
    entry := ((hnswLinking M p).insert (g.pushNode r.1 r.2.1 r.2.2 (levelFor M p r.1)) g.len).2 } : Graph) = _
  rw [hlinking]

/-- Extending goes on with the graph that the first row makes. -/
theorem extend_cons (hmetric : g.metric = some metric) (rows : List DecodedRow) :
    g.extend (hnswLinking M p) (r :: rows) = g'.extend (hnswLinking M p) rows := by
  unfold Graph.extend
  rw [List.foldl_cons, h.insertRow hmetric]

end Added

theorem raiseLayers_length (g : Graph) (level : UInt8) :
    (g.raiseLayers level).length = max g.layers.length (level.toNat + 1) := by
  unfold raiseLayers
  rw [List.length_append, List.length_replicate]
  omega

variable (M metric p) in
/-- **Adding a row to a sound graph** ends, whatever number the node is given. -/
theorem Sound.addRow (hg : g.Sound) (hr : r.2.1.length = g.dimension) : ∃ g', Added M p metric g r g' := by
  have hs : (g.pushNode r.1 r.2.1 r.2.2 (levelFor M p r.1)).Shaped := hg.toShaped.pushNode hr
  have hlen : (g.pushNode r.1 r.2.1 r.2.2 (levelFor M p r.1)).len = g.len + 1 := List.length_append
  have he : ∀ e, g.entry = some e → e < g.len + 1 := fun e h => Nat.lt_succ_of_lt (hg.entry e h)
  obtain ⟨linked, hrun, hgrown, -⟩ := insert_runs M metric p hs (hlen ▸ nodeOf_lt g)
    (fun top => hs.tower top) (fun e h => hlen ▸ he e h)
  have hslinked : linked.Shaped := by
    refine hs.relinked hgrown.same (fun l n x hx => ?_)
    rcases hgrown.edges l n x hx with hx | ⟨-, ⟨-, hin⟩ | ⟨-, rfl⟩⟩
    · exact hs.neighbours l n x hx
    · exact hin
    · exact hlen ▸ nodeOf_lt g
  have hnewlen : linked.len = g.len + 1 := hgrown.same.len.trans hlen
  have hentry := newEntry_lt (hlen ▸ nodeOf_lt g) (fun e h => hlen ▸ he e h)
  rw [hlen, ← hnewlen] at hentry
  refine ⟨_, hrun, ⟨⟨hslinked.vectors, hslinked.invNorms, hslinked.levels, hslinked.layers, hslinked.neighbours⟩,
    fun e h => ?_, ?_⟩, ?_, rfl, ?_⟩
  · obtain rfl := Option.some.inj h
    exact hentry
  · symm
    exact decide_eq_true (show 0 < linked.len by omega)
  · rw [hgrown.same.nodes]
  · refine hgrown.same.layers_length.trans ?_
    rw [← raiseLayers_length]
    exact List.length_map _

variable (M metric p) in
/-- **Extending a sound graph** ends, in a sound graph, however many nodes it gets. -/
theorem Sound.extend (hg : g.Sound) {rows : List DecodedRow} (hrows : ∀ r ∈ rows, r.2.1.length = g.dimension)
    (hmetric : g.metric = some metric) :
    rows.foldlM (Graph.addRow M metric p) g = some (g.extend (hnswLinking M p) rows) ∧
      (g.extend (hnswLinking M p) rows).Sound := by
  induction rows generalizing g with
  | nil => exact ⟨rfl, hg⟩
  | cons r rows ih =>
    obtain ⟨hr, hrest⟩ := List.forall_mem_cons.mp hrows
    obtain ⟨g', hadded⟩ := hg.addRow M metric p hr
    obtain ⟨hfold, hsound⟩ :=
      ih hadded.sound (fun r h => hadded.dimension ▸ hrest r h) (hadded.metric_eq.trans hmetric)
    rw [hadded.extend_cons hmetric]
    refine ⟨?_, hsound⟩
    rw [List.foldlM_cons, hadded.run]
    exact hfold

/-- **The nodes of an extended graph** are those it had and those of the rows. -/
theorem extend_nodes (linking : Linking) (g : Graph) (rows : List DecodedRow) :
    (g.extend linking rows).rows = g.rows ++ rows.map Prod.fst ∧
      (g.extend linking rows).vectors = g.vectors ++ rows.flatMap (fun r => r.2.1) ∧
      (g.extend linking rows).invNorms = g.invNorms ++ rows.map (fun r => r.2.2) ∧
      (g.extend linking rows).levels = g.levels ++ rows.map (fun r => linking.levelFor r.1) ∧
      (g.extend linking rows).dimension = g.dimension ∧ (g.extend linking rows).metric = g.metric := by
  induction rows generalizing g with
  | nil => exact ⟨by simp [extend], by simp [extend], by simp [extend], by simp [extend], rfl, rfl⟩
  | cons r rows ih =>
    obtain ⟨hrows, hvectors, hnorms, hlevels, hdim, hmetric⟩ := ih (g.insertRow linking r)
    show ((g.insertRow linking r).extend linking rows).rows = _ ∧ ((g.insertRow linking r).extend linking rows).vectors = _
      ∧ ((g.insertRow linking r).extend linking rows).invNorms = _ ∧ ((g.insertRow linking r).extend linking rows).levels = _
      ∧ _ ∧ _
    refine ⟨?_, ?_, ?_, ?_, hdim, hmetric⟩
    · rw [hrows, show (g.insertRow linking r).rows = g.rows ++ [r.1] from rfl, List.map_cons, List.append_assoc]
      rfl
    · rw [hvectors, show (g.insertRow linking r).vectors = g.vectors ++ r.2.1 from rfl, List.flatMap_cons,
        List.append_assoc]
    · rw [hnorms, show (g.insertRow linking r).invNorms = g.invNorms ++ [r.2.2] from rfl, List.map_cons,
        List.append_assoc]
      rfl
    · rw [hlevels, show (g.insertRow linking r).levels = g.levels ++ [linking.levelFor r.1] from rfl, List.map_cons,
        List.append_assoc]
      rfl

theorem len_extend (linking : Linking) (g : Graph) (rows : List DecodedRow) :
    (g.extend linking rows).len = g.len + rows.length := by
  unfold Graph.len
  rw [(extend_nodes linking g rows).1, List.length_append, List.length_map]

end Rows

/-! ## The representation invariant -/

/-- **The representation invariant**: a sound graph without loops and double edges, whose lists are within their bounds
    and lead to nodes that reach their layer, and whose entry point reaches the highest. -/
structure WellFormed (p : HnswParams) (g : Graph) : Prop extends Sound g where
  loopless : ∀ l n, n ∉ g.neighbours l n
  once : ∀ l n, (g.neighbours l n).Nodup
  degree : ∀ l n, (g.neighbours l n).length ≤ p.maxAt l
  reach : ∀ l n, ∀ x ∈ g.neighbours l n, l ≤ g.level x
  top : ∀ e, g.entry = some e → ∀ n < g.len, g.level n ≤ g.level e

theorem wellFormed_new (p : HnswParams) (dimension : Nat) (metric : Metric) :
    WellFormed p { default with dimension := dimension, metric := some metric } := by
  have hnone (l n : Nat) : Graph.neighbours { default with dimension := dimension, metric := some metric } l n = [] := rfl
  refine ⟨⟨⟨?_, rfl, rfl, nofun, fun l n x hx => ?_⟩, nofun, rfl⟩, fun l n h => ?_, fun l n => ?_, fun l n => ?_,
    fun l n x hx => ?_, nofun⟩
  · show 0 = 0 * dimension
    rw [Nat.zero_mul]
  · rw [hnone] at hx; cases hx
  · rw [hnone] at h; cases h
  · rw [hnone]; exact List.nodup_nil
  · rw [hnone]; exact Nat.zero_le _
  · rw [hnone] at hx; cases hx

section Runs

variable {r : DecodedRow} {rows : List DecodedRow}

/-- The nodes before a new one that reach a layer. -/
theorem WellFormed.tower (hg : g.WellFormed p) {row : RowId} {v : List UInt32} {norm : UInt32} {level : UInt8}
    (top : Nat) : Tower top (g.pushNode row v norm level) (fun l n => n < g.len ∧ l ≤ g.level n) := by
  refine ⟨fun l n h => ?_, fun l n h => ⟨h.1, by omega⟩, fun l _ a _ b hb => ?_⟩
  · have hlen : (g.pushNode row v norm level).len = g.len + 1 := List.length_append
    omega
  · rw [neighbours_pushNode] at hb
    exact ⟨hg.neighbours l a b hb, hg.reach l a b hb⟩

/-- **One insertion keeps the invariant**, while node numbers last. -/
theorem WellFormed.insertRow (hg : g.WellFormed p) (hfew : g.len < 2 ^ 32) (hr : r.2.1.length = g.dimension)
    (hmetric : g.metric = some metric) : (g.insertRow (hnswLinking M p) r).WellFormed p := by
  obtain ⟨g', hadded⟩ := hg.toSound.addRow M metric p hr
  rw [hadded.insertRow hmetric]
  have hrun := hadded.run
  have hsound := hadded.sound
  have hlen' := hadded.len
  have hnode : nodeOf g.len = g.len := Nat.mod_eq_of_lt hfew
  unfold addRow at hrun
  rw [hnode] at hrun
  have hs : (g.pushNode r.1 r.2.1 r.2.2 (levelFor M p r.1)).Shaped := hg.toShaped.pushNode hr
  have hold (n : Nat) (hn : n < g.len) : (g.pushNode r.1 r.2.1 r.2.2 (levelFor M p r.1)).level n = g.level n :=
    level_pushNode_old hg.toShaped hn
  have hlists (l n : Nat) : (g.pushNode r.1 r.2.1 r.2.2 (levelFor M p r.1)).neighbours l n = g.neighbours l n :=
    neighbours_pushNode g _ _ _ _
  have hlen : (g.pushNode r.1 r.2.1 r.2.2 (levelFor M p r.1)).len = g.len + 1 := List.length_append
  have hentry : (g.pushNode r.1 r.2.1 r.2.2 (levelFor M p r.1)).entry = g.entry := rfl
  revert hrun hs hold hlists hlen hentry
  generalize hpushed : g.pushNode r.1 r.2.1 r.2.2 (levelFor M p r.1) = pushed
  intro hrun hs hold hlists hlen hentry
  obtain ⟨linked, hrun', hgrown, habove⟩ := insert_runs M metric p hs
    (show g.len < pushed.len by omega) (fun top => hpushed ▸ hg.tower top)
    (fun e h => ⟨hg.entry e (hentry ▸ h), Nat.le_of_eq (hold e (hg.entry e (hentry ▸ h)))⟩)
  obtain rfl := Option.some.inj (hrun.symm.trans hrun')
  have hlevel (n : Nat) : Graph.level { linked with entry := some (pushed.newEntry g.len) } n = pushed.level n := by
    unfold Graph.level
    rw [show Graph.levels { linked with entry := some (pushed.newEntry g.len) } = pushed.levels from hgrown.same.levels]
  refine ⟨hsound, fun l n h => ?_, fun l n => ?_, fun l n => ?_, fun l n x hx => ?_, fun e he n hn => ?_⟩
  · rcases hgrown.edges l n n h with h | ⟨hne, -⟩
    · rw [hlists] at h
      exact hg.loopless l n h
    · exact hne rfl
  · exact hgrown.nodup l n (by rw [hlists]; exact hg.once l n)
  · by_cases hn : n = g.len
    · subst hn
      exact hgrown.own l (by rw [hlists, hg.toShaped.neighbours_out (Nat.le_refl _)])
    · exact hgrown.bound l n hn (by rw [hlists]; exact hg.degree l n)
  · rw [hlevel]
    have hprevious (h : x ∈ g.neighbours l n) : l ≤ pushed.level x := by
      rw [hold x (hg.neighbours l n x h)]
      exact hg.reach l n x h
    -- above the node's level nothing changed, so it is on no list there
    by_cases hl : pushed.level g.len < l
    · have hx : x ∈ linked.neighbours l n := hx
      rw [habove l hl, hlists] at hx
      exact hprevious hx
    · rcases hgrown.edges l n x hx with hx | ⟨-, ⟨-, hx⟩ | ⟨-, rfl⟩⟩
      · rw [hlists] at hx
        exact hprevious hx
      · rw [hold x hx.1]
        exact hx.2
      · omega
  · rw [hlevel, hlevel]
    have hn : n < g.len + 1 := hlen' ▸ hn
    have he : pushed.newEntry g.len = e := Option.some.inj he
    subst he
    unfold newEntry
    rw [hentry]
    cases hcase : g.entry with
    | none =>
      have hzero := hg.entered
      rw [hcase] at hzero
      have hzero : ¬ 0 < g.len := by simpa using hzero
      rw [show n = g.len by omega]
    | some e =>
      have hmost : n < g.len → pushed.level n ≤ pushed.level e := fun h => by
        rw [hold n h, hold e (hg.entry e hcase)]
        exact hg.top e hcase n h
      dsimp only
      by_cases hlast : n = g.len
      · subst hlast
        split <;> omega
      · have := hmost (by omega)
        split <;> omega

/-- **Extending keeps the invariant**, while node numbers last. -/
theorem WellFormed.extend (hg : g.WellFormed p) (hfew : g.len + rows.length ≤ 2 ^ 32)
    (hrows : ∀ r ∈ rows, r.2.1.length = g.dimension) (hmetric : g.metric = some metric) :
    (g.extend (hnswLinking M p) rows).WellFormed p := by
  induction rows generalizing g with
  | nil => exact hg
  | cons r rows ih =>
    obtain ⟨hr, hrest⟩ := List.forall_mem_cons.mp hrows
    obtain ⟨g', hadded⟩ := hg.toSound.addRow M metric p hr
    have hnext := hg.insertRow (M := M) (by rw [List.length_cons] at hfew; omega) hr hmetric
    rw [hadded.insertRow hmetric] at hnext
    rw [hadded.extend_cons hmetric]
    refine ih hnext ?_ (fun r h => hadded.dimension ▸ hrest r h) (hadded.metric_eq.trans hmetric)
    have hlen := hadded.len
    rw [List.length_cons] at hfew
    omega

/-- A build and its extensions are one build over all the rows. -/
theorem foldl_extend (linking : Linking) (rows : List DecodedRow) (more : List (List DecodedRow)) (dimension : Nat)
    (metric : Metric) : more.foldl (Graph.extend linking) (buildFrom linking rows dimension metric)
      = buildFrom linking (rows ++ more.flatten) dimension metric := by
  unfold buildFrom Graph.extend
  rw [List.foldl_append, List.foldl_flatten]

/-- **The invariant holds after every build and every extension**, while the nodes have numbers of their own. -/
theorem wellFormed_while_numbered (M : Machine) (p : HnswParams) (rows : List DecodedRow)
    (more : List (List DecodedRow)) (dimension : Nat) (metric : Metric)
    (hrows : ∀ r ∈ rows ++ more.flatten, r.2.1.length = dimension)
    (hfew : (rows ++ more.flatten).length ≤ 2 ^ 32) :
    WellFormed p (more.foldl (Graph.extend (hnswLinking M p)) (buildFrom (hnswLinking M p) rows dimension metric)) := by
  rw [foldl_extend]
  refine (wellFormed_new p dimension metric).extend (p := p) ?_ hrows rfl
  rw [show Graph.len { default with dimension := dimension, metric := some metric } = 0 from rfl, Nat.zero_add]
  exact hfew

/-! ## A node whose number comes round -/

/-- **A node whose number comes round to 0** is linked by the level of node 0: its own does not make it the entry
    point. -/
theorem not_wellFormed_wrapped {low high : DecodedRow} {dimension k : Nat} (hl : low.2.1.length = dimension)
    (hh : high.2.1.length = dimension) (hk : 0 < k) (hwrap : nodeOf k = 0) (hlow : levelFor M p low.1 = 0)
    (hhigh : 0 < (levelFor M p high.1).toNat) :
    ¬ WellFormed p (buildFrom (hnswLinking M p) (List.replicate k low ++ [high]) dimension metric) := by
  intro hbad
  have hstart := (wellFormed_new p dimension metric).toSound
  obtain ⟨-, hg⟩ := hstart.extend M metric p
    (fun r (h : r ∈ List.replicate k low) => List.eq_of_mem_replicate h ▸ hl) rfl
  have hlen := len_extend (hnswLinking M p) { default with dimension := dimension, metric := some metric }
    (List.replicate k low)
  obtain ⟨-, -, -, hlevels, hdim, hmet⟩ := extend_nodes (hnswLinking M p)
    { default with dimension := dimension, metric := some metric } (List.replicate k low)
  have hsplit : buildFrom (hnswLinking M p) (List.replicate k low ++ [high]) dimension metric
      = (Graph.extend (hnswLinking M p) { default with dimension := dimension, metric := some metric }
          (List.replicate k low)).insertRow (hnswLinking M p) high := by
    unfold buildFrom Graph.extend
    rw [List.foldl_append, List.foldl_cons, List.foldl_nil]
  rw [hsplit] at hbad
  revert hbad hg hlen hdim hmet hlevels
  generalize Graph.extend (hnswLinking M p) _ _ = g
  intro hbad hg hlen hlevels hdim hmet
  have hlen : g.len = k := by
    rw [hlen, List.length_replicate]
    exact Nat.zero_add k
  -- all nodes before the last are on layer 0 only
  have hzero (n : Nat) (hn : n < g.len) : g.level n = 0 := by
    unfold Graph.level
    rw [hlevels, List.map_replicate, show Graph.levels { default with
      dimension := dimension, metric := some metric } = [] from rfl, List.nil_append, List.getElem?_replicate,
      if_pos (hlen ▸ hn), show (hnswLinking M p).levelFor low.1 = levelFor M p low.1 from rfl, hlow]
    rfl
  obtain ⟨g', hadded⟩ := hg.addRow M metric p (hh.trans hdim.symm)
  rw [hadded.insertRow hmet] at hbad
  have hlen' := hadded.len
  have hlevels' : g'.levels = g.levels ++ [levelFor M p high.1] := by
    rw [hadded.nodes]
    rfl
  have hbefore (n : Nat) (hn : n < g.len) : g'.level n = 0 := by
    rw [← hzero n hn]
    unfold Graph.level
    rw [hlevels', List.getElem?_append_left (by rw [hg.levels]; exact hn)]
  have hnew : (g.pushNode high.1 high.2.1 high.2.2 (levelFor M p high.1)).newEntry (nodeOf g.len) < g.len := by
    rw [hlen, hwrap, ← hlen]
    unfold newEntry
    split
    · omega
    · rename_i e he
      split
      · omega
      · exact hg.entry e he
  have htop := hbad.top _ hadded.entry g.len (by omega)
  rw [hbefore _ hnew] at htop
  unfold Graph.level at htop
  rw [hlevels', ← hg.levels, List.getElem?_concat_length, Option.map_some, Option.getD_some] at htop
  omega

end Runs

end Graph

/-! ## More nodes than numbers -/

/-- A row of layer 0, and one of layer 1. -/
def lowRow : DecodedRow := (⟨0⟩, [0], 0)

def highRow : DecodedRow := (⟨4⟩, [0], 0)

theorem wellFormed_small : Graph.WellFormed .default
    (([[lowRow]] : List (List DecodedRow)).foldl (Graph.extend (hnswLinking .whole .default))
      (Graph.buildFrom (hnswLinking .whole .default) [highRow] 1 .l2)) :=
  Graph.wellFormed_while_numbered .whole .default [highRow] [[lowRow]] 1 .l2
    (by simp [lowRow, highRow]) (by decide)

/-- So many rows of layer 0 that numbers come round, and a row of layer 1. -/
theorem not_wellFormed_behind {k : Nat} (hk : 0 < k) (hwrap : nodeOf k = 0)
    (hall : ∀ (rows : List DecodedRow) (more : List (List DecodedRow)),
      (∀ r ∈ rows ++ more.flatten, r.2.1.length = 1) → Graph.WellFormed .default
        (more.foldl (Graph.extend (hnswLinking .whole .default))
          (Graph.buildFrom (hnswLinking .whole .default) rows 1 .l2))) : False := by
  have hrows : ∀ r ∈ List.replicate k lowRow ++ [highRow] ++ ([] : List (List DecodedRow)).flatten,
      r.2.1.length = 1 := by
    intro r hr
    rw [List.flatten_nil, List.append_nil] at hr
    rcases List.mem_append.mp hr with hr | hr
    · rw [List.eq_of_mem_replicate hr]; rfl
    · rw [List.mem_singleton.mp hr]; rfl
  have hlow : levelFor .whole .default lowRow.1 = 0 := by decide
  have hhigh : 0 < (levelFor .whole .default highRow.1).toNat := by decide
  have hbad := hall _ [] hrows
  rw [List.foldl_nil] at hbad
  exact Graph.not_wellFormed_wrapped (show lowRow.2.1.length = 1 from rfl) rfl hk hwrap hlow hhigh hbad

/-- Behind `2 ^ 32` rows of layer 0, a row of layer 1 does not become the entry point. -/
theorem entry_not_highest : ¬ (∀ (rows : List DecodedRow) (more : List (List DecodedRow)),
    (∀ r ∈ rows ++ more.flatten, r.2.1.length = 1) → Graph.WellFormed .default
      (more.foldl (Graph.extend (hnswLinking .whole .default))
        (Graph.buildFrom (hnswLinking .whole .default) rows 1 .l2))) :=
  not_wellFormed_behind (Nat.two_pow_pos 32) (Nat.mod_self _)

end IshaVectorDb.Index
