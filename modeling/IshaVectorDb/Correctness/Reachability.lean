import IshaVectorDb.Correctness.Graphs
import Mathlib.Logic.Relation

/-!
# `Correctness.Reachability` — **which nodes can be reached** on layer 0

A new node is linked both ways to at least one node, so a graph stays connected as long as no list is cut back. A list
that is over its bound is cut back on its own side only: the last edge into a node can go that way, and then nothing
leads to it (`duplicates_cut_off`). While every node that is linked to has room on layer 0, every node is reachable from
every other (`reachable_while_roomy`).
-/

namespace IshaVectorDb.Index

open Format Parsing Beam

namespace Graph

variable {M : Machine} {metric : Metric} {p : HnswParams} {g g' : Graph} {layer node l n x c : Nat}

/-- An edge on layer 0. -/
def Edge (g : Graph) (a b : Nat) : Prop := b ∈ g.neighbours 0 a

/-- **Every node is reachable** from the entry point by edges of layer 0. -/
def Reachable (g : Graph) : Prop := ∀ n < g.len, ∃ e, g.entry = some e ∧ Relation.ReflTransGen g.Edge e n

/-! ## The neighbours chosen on layer 0 -/

section Choice

variable (M metric p)

/-- The entries with which a search comes to layer 0 from so many layers above it. -/
def funnel (g : Graph) (query : List UInt32) : Nat → List Nat → Option (List Nat)
  | 0, entries => some entries
  | layer + 1, entries => do
      let found ← g.searchLayer M metric query (layer + 1) p.efConstruction entries
      funnel g query layer (if found.isEmpty then entries else found.map Scored.node)

/-- The nodes that an insertion links its node to on layer 0. -/
def baseChoice (g : Graph) (node : Nat) : Option (List Nat) :=
  match g.entry with
  | none => some []
  | some entry => do
      let level ← g.levels[node]?
      let entryLevel ← g.levels[entry]?
      let query ← g.vector node
      let score ← g.scoreOf M metric query entry
      let current ← g.descendTo M metric query level.toNat (entryLevel.toNat - level.toNat) ⟨score, entry⟩
      let entries ← funnel M metric p g query (min level.toNat entryLevel.toNat) [current.node]
      let found ← g.searchLayer M metric query 0 p.efConstruction entries
      g.selectNeighbours M metric found p.m0

/-- **Room for a node**: its number is its own, and each node that it is linked to on layer 0 has fewer neighbours there
    than it may have. -/
def Room (g : Graph) (r : DecodedRow) : Prop :=
  g.len < 2 ^ 32 ∧ ∀ chosen, baseChoice M metric p (g.pushNode r.1 r.2.1 r.2.2 (levelFor M p r.1)) g.len = some chosen →
    ∀ c ∈ chosen, (g.neighbours 0 c).length < p.m0

/-- There is room at every insertion. -/
def Roomy : Graph → List DecodedRow → Prop
  | _, [] => True
  | g, r :: rows => Room M metric p g r ∧ Roomy (g.insertRow (hnswLinking M p) r) rows

end Choice

/-! ## Edges that are added and not cut -/

theorem neighbours_modifyAt_in (hs : g.Shaped) (hfew : g.len ≤ 2 ^ 32) (hl : layer < g.layers.length) (hn : node < g.len)
    (f : List Nat → List Nat) : (g.modifyAt layer node f).neighbours layer node = f (g.neighbours layer node) := by
  have hfull := (hs.layers g.layers[layer] (List.getElem_mem hl)).2 hfew
  unfold neighbours modifyAt
  dsimp only
  rw [List.getElem?_modify, List.getElem?_eq_getElem hl]
  simp only [if_true, Option.map_eq_map, Option.map_some, Option.bind_some, List.getElem?_modify]
  rw [List.getElem?_eq_getElem (by rw [hfull]; exact hn)]
  rfl

theorem mem_connect (hs : g.Shaped) (hfew : g.len ≤ 2 ^ 32) (hl : layer < g.layers.length) {src dst : Nat}
    (hsrc : src < g.len) (hne : src ≠ dst) : x ∈ (g.connect layer src dst).neighbours layer n ↔
      x ∈ g.neighbours layer n ∨ n = src ∧ x = dst := by
  by_cases hn : n = src
  · subst hn
    have hself : (g.connect layer n dst).neighbours layer n
        = if (g.neighbours layer n).contains dst then g.neighbours layer n else g.neighbours layer n ++ [dst] := by
      unfold connect
      rw [if_neg hne, neighbours_modifyAt_in hs hfew hl hsrc]
    rw [hself]
    split
    · rename_i hthere
      have hthere : dst ∈ g.neighbours layer n := by simpa using hthere
      constructor
      · exact .inl
      · rintro (hx | ⟨-, rfl⟩)
        · exact hx
        · exact hthere
    · rw [List.mem_append, List.mem_singleton]
      constructor
      · exact fun h => h.imp_right (fun he => ⟨rfl, he⟩)
      · exact fun h => h.imp_right (fun he => he.2)
  · rw [neighbours_connect_of_ne (fun h => hn h.2)]
    exact ⟨.inl, fun h => h.resolve_right (fun he => hn he.1)⟩

variable (M metric) in
/-- **Linking to a node with room** adds the two edges and cuts nothing. -/
theorem link_room (hs : g.Shaped) (hfew : g.len ≤ 2 ^ 32) (hl : layer < g.layers.length) (hn : node < g.len)
    (hc : c < g.len) (hne : node ≠ c) {max : Nat} (hroom : (g.neighbours layer c).length < max) :
    ∃ g', g.link M metric layer node max c = some g' ∧ Relinked g g' ∧ g'.Shaped ∧
      (∀ n, ∀ x, x ∈ g'.neighbours layer n ↔ x ∈ g.neighbours layer n ∨ Between node [c] n x) ∧
      ∀ d ≠ node, d ≠ c → g'.neighbours layer d = g.neighbours layer d := by
  have h1 := connect_touched g layer node c
  have hs1 := h1.shaped hs (fun a b h => h.2 ▸ hc)
  have h2 := connect_touched (g.connect layer node c) layer c node
  have hs2 := h2.shaped hs1 (fun a b h => by rw [h.2, h1.same.len]; exact hn)
  have hlen : (((g.connect layer node c).connect layer c node).neighbours layer c).length ≤ max := by
    have hlong := connect_length (g.connect layer node c) layer c node
    rw [neighbours_connect_of_ne (g := g) (fun h => hne h.2.symm)] at hlong
    omega
  refine ⟨(g.connect layer node c).connect layer c node, ?_, h1.same.trans h2.same, hs2, fun n x => ?_, fun d hd hdc => ?_⟩
  · unfold link prune
    rw [if_pos hlen]
  · rw [mem_connect hs1 (h1.same.len ▸ hfew) (h1.same.layers_length ▸ hl) (h1.same.len ▸ hc) (Ne.symm hne),
      mem_connect hs hfew hl hn hne]
    unfold Between
    rw [List.mem_singleton, List.mem_singleton, or_assoc]
  · rw [neighbours_connect_of_ne (fun h => hdc h.2), neighbours_connect_of_ne (fun h => hd h.2)]

variable (M metric layer) in
theorem linkAll_room (hs : g.Shaped) (hfew : g.len ≤ 2 ^ 32) (hl : layer < g.layers.length) (hn : node < g.len)
    {max : Nat} (chosen : List Nat) (hnd : chosen.Nodup) (hc : ∀ c ∈ chosen, c < g.len ∧ node ≠ c ∧ (g.neighbours layer c).length < max) :
    ∃ g', chosen.foldlM (link M metric layer node max) g = some g' ∧
      ∀ n, ∀ x, x ∈ g'.neighbours layer n ↔ x ∈ g.neighbours layer n ∨ Between node chosen n x := by
  induction chosen generalizing g with
  | nil =>
    refine ⟨g, rfl, fun n x => ⟨.inl, fun h => h.resolve_right ?_⟩⟩
    rintro (⟨-, hx⟩ | ⟨hx, -⟩) <;> cases hx
  | cons c chosen ih =>
    obtain ⟨⟨hclt, hne, hroom⟩, hrest⟩ := List.forall_mem_cons.mp hc
    rw [List.nodup_cons] at hnd
    obtain ⟨g1, h1, hsame, hs1, hmem1, hkeep⟩ := link_room M metric hs hfew hl hn hclt hne hroom
    have hlen := hsame.len
    obtain ⟨g2, h2, hmem2⟩ := ih hs1 (hlen ▸ hfew) (hsame.layers_length ▸ hl) (hlen ▸ hn) hnd.2 (fun d hd => by
      obtain ⟨hdlt, hdne, hdroom⟩ := hrest d hd
      refine ⟨hlen ▸ hdlt, hdne, ?_⟩
      rw [hkeep d (Ne.symm hdne) (fun he => hnd.1 (he ▸ hd))]
      exact hdroom)
    refine ⟨g2, by rw [List.foldlM_cons, h1]; exact h2, fun n x => ?_⟩
    rw [hmem2, hmem1, or_assoc]
    unfold Between
    rw [List.mem_singleton, List.mem_singleton, List.mem_cons, List.mem_cons]
    constructor
    · rintro (h | (⟨ha, hb⟩ | ⟨ha, hb⟩) | ⟨ha, hb⟩ | ⟨ha, hb⟩)
      · exact .inl h
      · exact .inr (.inl ⟨ha, .inl hb⟩)
      · exact .inr (.inr ⟨.inl ha, hb⟩)
      · exact .inr (.inl ⟨ha, .inr hb⟩)
      · exact .inr (.inr ⟨.inr ha, hb⟩)
    · rintro (h | ⟨ha, hb | hb⟩ | ⟨ha | ha, hb⟩)
      · exact .inl h
      · exact .inr (.inl (.inl ⟨ha, hb⟩))
      · exact .inr (.inr (.inl ⟨ha, hb⟩))
      · exact .inr (.inl (.inr ⟨ha, hb⟩))
      · exact .inr (.inr (.inr ⟨ha, hb⟩))

/-! ## What an insertion does on layer 0 -/

section Base

variable {W : Nat → Nat → Prop} {top : Nat} {query : List UInt32}

theorem searchLayer_congr (hsame : Relinked g g') (hlists : ∀ n, g'.neighbours l n = g.neighbours l n) :
    g'.searchLayer M metric query l = g.searchLayer M metric query l := by
  have hspace : g'.space M metric query l = g.space M metric query l := by
    unfold space
    rw [hsame.len, hsame.scoreOf, show g'.neighbours l = g.neighbours l from funext hlists]
  funext ef entries
  unfold searchLayer
  rw [hspace, hsame.len]

theorem funnel_congr (hsame : Relinked g g') {k : Nat} (hlists : ∀ l ≤ k, ∀ n, g'.neighbours l n = g.neighbours l n)
    (entries : List Nat) : funnel M metric p g' query k entries = funnel M metric p g query k entries := by
  induction k generalizing entries with
  | zero => rfl
  | succ k ih =>
    unfold funnel
    rw [searchLayer_congr hsame (hlists (k + 1) (Nat.le_refl _))]
    simp only [ih (fun l hl n => hlists l (Nat.le_succ_of_le hl) n)]

variable (M metric p query) in
/-- **Linking from the topmost layer down** comes to layer 0 with the entries of the funnel, and finds its lists as they
    were. -/
theorem linkLayers_base (hs : g.Shaped) (hn : node < g.len) (k : Nat) (ht : Tower (k + 1) g W) {entries : List Nat}
    (he : ∀ e ∈ entries, W k e) (hne : entries ≠ []) (hef : 1 ≤ p.efConstruction) :
    ∃ entries' found chosen mid, funnel M metric p g query k entries = some entries' ∧
      g.searchLayer M metric query 0 p.efConstruction entries' = some found ∧ (∀ c ∈ found, W 0 c.node) ∧
      (found.map Scored.node).Nodup ∧ found ≠ [] ∧ g.selectNeighbours M metric found p.m0 = some chosen ∧
      Relinked g mid ∧ mid.Shaped ∧ (∀ n, mid.neighbours 0 n = g.neighbours 0 n) ∧
      linkLayers M metric p node query (k + 1) g entries = chosen.foldlM (link M metric 0 node p.m0) mid := by
  induction k generalizing g entries with
  | zero =>
    obtain ⟨found, hfound, hin, hnd, hsome⟩ := searchLayer_spec M metric query hs ht
      Nat.zero_lt_one p.efConstruction he
    obtain ⟨chosen, hchosen, -, -⟩ := selectNeighbours_spec M metric hs p.m0
      (fun c hc => ht.inside 0 c.node (hin c hc))
    refine ⟨entries, found, chosen, g, rfl, hfound, hin, hnd, hsome hef hne, hchosen, .refl g, hs, fun _ => rfl, ?_⟩
    have hchosen : g.selectNeighbours M metric found (p.maxAt 0) = some chosen := hchosen
    unfold linkLayers
    simp only [hfound, hchosen, Option.bind_eq_bind, Option.bind_some]
    unfold linkLayers
    exact Option.bind_fun_some _
  | succ k ih =>
    obtain ⟨found, hfound, hin, -, hsome⟩ := searchLayer_spec M metric query hs ht
      (Nat.lt_succ_self (k + 1)) p.efConstruction he
    obtain ⟨chosen, hchosen, hchoice, -⟩ := selectNeighbours_spec M metric hs (p.maxAt (k + 1))
      (fun c hc => ht.inside (k + 1) c.node (hin c hc))
    have hrange : ∀ c ∈ chosen, c < g.len := by
      intro c hc
      obtain ⟨s, hsf, rfl⟩ := List.mem_map.mp (hchoice.among c hc)
      exact ht.inside _ _ (hin s hsf)
    obtain ⟨g1, hg1, hl1⟩ := linkAll_spec M metric (k + 1) hs hn (p.maxAt (k + 1)) chosen hrange
    have hs1 : g1.Shaped := hl1.shaped hs (by
      rintro a b (⟨-, hb⟩ | ⟨-, rfl⟩)
      · exact hrange b hb
      · exact hn)
    have hbelow : ∀ l ≤ k, ∀ n, g1.neighbours l n = g.neighbours l n := fun l hl n => hl1.other l (by omega) n
    have ht1 : Tower (k + 1) g1 W := by
      refine ⟨fun l n h => hl1.same.len ▸ ht.inside l n h, ht.down, fun l hl a ha b hb => ?_⟩
      rw [hbelow l (by omega) a] at hb
      exact ht.step l (by omega) a ha b hb
    have hfoundne := hsome hef hne
    have hnext : (if found.isEmpty then entries else found.map Scored.node) = found.map Scored.node := by
      rw [if_neg (by simpa using hfoundne)]
    obtain ⟨entries', found', chosen', mid, hfunnel, hfound', hin', hnd', hne', hchosen', hsame, hmid, hlists, hrun⟩ :=
      ih hs1 (hl1.same.len ▸ hn) ht1 (fun e (hmem : e ∈ found.map Scored.node) => by
        obtain ⟨c, hc, rfl⟩ := List.mem_map.mp hmem
        exact ht.down _ _ (hin c hc)) (by simpa using hfoundne)
    refine ⟨entries', found', chosen', mid, ?_, ?_, hin', hnd', hne', ?_, hl1.same.trans hsame, hmid,
      fun n => (hlists n).trans (hbelow 0 (Nat.zero_le _) n), ?_⟩
    · rw [funnel_congr hl1.same hbelow] at hfunnel
      unfold funnel
      simp only [hfound, Option.bind_eq_bind, Option.bind_some, hnext]
      exact hfunnel
    · rw [← searchLayer_congr hl1.same (hbelow 0 (Nat.zero_le _))]
      exact hfound'
    · rw [hl1.same.nodes] at hchosen'
      exact hchosen'
    · rw [← hrun]
      conv_lhs => unfold linkLayers
      simp only [hfound, hchosen, hg1, Option.bind_eq_bind, Option.bind_some, hnext]

variable (M metric p) in
/-- **An insertion with room** adds on layer 0 the edges between its node and the neighbours chosen, of which there is
    one. -/
theorem insert_room (hs : g.Shaped) (hfew : g.len ≤ 2 ^ 32) (hn : node < g.len)
    (ht : ∀ top, Tower top g W) {e : Nat} (hentry : g.entry = some e) (he : W (g.level e) e) (hlayers : 0 < g.layers.length) (hef : 1 ≤ p.efConstruction) (hm : 0 < p.m0)
    (hout : ∀ c, W 0 c → node ≠ c)
    (hroom : ∀ chosen, baseChoice M metric p g node = some chosen → ∀ c ∈ chosen, (g.neighbours 0 c).length < p.m0) :
    ∃ chosen g', g.insert M metric p node = some g' ∧ chosen ≠ [] ∧ (∀ c ∈ chosen, W 0 c) ∧
      ∀ n, ∀ x, x ∈ g'.neighbours 0 n ↔ x ∈ g.neighbours 0 n ∨ Between node chosen n x := by
  obtain ⟨st⟩ := insert_start M metric hs hn ht he
  obtain ⟨entries, found, chosen, mid, hfunnel, hfound, hin, hnd, hne, hchosen, hsame, hmid, hlists, hrun⟩ :=
    linkLayers_base M metric p st.query hs hn _ (ht _)
      (fun e (hmem : e ∈ [st.current.node]) => List.mem_singleton.mp hmem ▸ st.inside) (List.cons_ne_nil _ _) hef
  obtain ⟨chosen', hchosen', hchoice, hsome⟩ := selectNeighbours_spec M metric hs p.m0
    (fun c hc => (ht 0).inside 0 c.node (hin c hc))
  obtain rfl := Option.some.inj (hchosen.symm.trans hchosen')
  have hbase : baseChoice M metric p g node = some chosen := by
    unfold baseChoice
    rw [hentry]
    simp only [st.level_eq, st.entryLevel_eq, st.query_eq, st.score_eq, st.current_eq, hfunnel, hfound, hchosen,
      Option.bind_eq_bind, Option.bind_some]
  have hmem : ∀ c ∈ chosen, W 0 c := by
    intro c hc
    obtain ⟨s, hsf, rfl⟩ := List.mem_map.mp (hchoice.among c hc)
    exact hin s hsf
  obtain ⟨linked, hlinked, hedges⟩ := linkAll_room M metric 0 hmid
    (hsame.len ▸ hfew) (hsame.layers_length ▸ hlayers) (hsame.len ▸ hn) chosen (select_nodup hnd hchosen) (fun c hc =>
      ⟨hsame.len ▸ (ht 0).inside 0 c (hmem c hc), hout c (hmem c hc), by
        rw [hlists]
        exact hroom chosen hbase c hc⟩)
  obtain ⟨linked', hlinked', hgrown, -⟩ := linkLayers_spec M metric p st.query hs hn
    (min st.level.toNat st.entryLevel.toNat + 1) (ht _) (by
      intro j hj c (hc : c ∈ [st.current.node])
      rw [List.mem_singleton.mp hc, ← Nat.succ.inj hj]
      exact st.inside)
  obtain rfl := Option.some.inj ((hrun.trans hlinked).symm.trans hlinked')
  refine ⟨chosen, _, st.insert_eq hentry hlinked' hgrown.same.entry, hsome hne hm, hmem, fun n x => ?_⟩
  rw [← hlists]
  exact hedges n x

end Base

/-! ## Connected graphs -/

/-- **A graph whose nodes can all reach each other**, each edge going both ways. -/
structure Mesh (g : Graph) : Prop extends Sound g where
  based : 0 < g.len → 0 < g.layers.length
  symm : ∀ a b, g.Edge a b → g.Edge b a
  joined : ∀ a < g.len, ∀ b < g.len, Relation.ReflTransGen g.Edge a b

theorem Mesh.reachable (h : g.Mesh) : g.Reachable := by
  intro n hn
  have hsome := h.entered
  rw [decide_eq_true (Nat.zero_lt_of_lt hn)] at hsome
  obtain ⟨e, he⟩ := Option.isSome_iff_exists.mp hsome
  exact ⟨e, he, h.joined e (h.entry e he) n hn⟩

/-- A node linked both ways to nodes of a mesh is joined to it. -/
theorem joined_of_linked (hg : g.Mesh) (hlen : g'.len = g.len + 1) {chosen : List Nat} (hne : chosen ≠ [])
    (hc : ∀ c ∈ chosen, c < g.len) (hedges : ∀ n, ∀ x, x ∈ g'.neighbours 0 n ↔
      x ∈ g.neighbours 0 n ∨ Between g.len chosen n x) :
    ∀ a < g'.len, ∀ b < g'.len, Relation.ReflTransGen g'.Edge a b := by
  have hmono {a b : Nat} (h : Relation.ReflTransGen g.Edge a b) : Relation.ReflTransGen g'.Edge a b :=
    Relation.ReflTransGen.mono (fun a b hab => (hedges a b).mpr (.inl hab)) _ _ h
  obtain ⟨c, rest, rfl⟩ := List.exists_cons_of_ne_nil hne
  have hclt := hc c List.mem_cons_self
  have hout : g'.Edge g.len c := (hedges _ _).mpr (.inr (.inl ⟨rfl, List.mem_cons_self⟩))
  have hin : g'.Edge c g.len := (hedges _ _).mpr (.inr (.inr ⟨List.mem_cons_self, rfl⟩))
  -- every node reaches `c` and is reached from it
  have hto : ∀ a < g'.len, Relation.ReflTransGen g'.Edge a c := by
    intro a ha
    by_cases hnew : a = g.len
    · exact hnew ▸ .single hout
    · exact hmono (hg.joined a (by omega) c hclt)
  have hfrom : ∀ b < g'.len, Relation.ReflTransGen g'.Edge c b := by
    intro b hb
    by_cases hnew : b = g.len
    · exact hnew ▸ .single hin
    · exact hmono (hg.joined c hclt b (by omega))
  exact fun a ha b hb => (hto a ha).trans (hfrom b hb)

section Runs

variable {r : DecodedRow} {rows : List DecodedRow}

/-- **One insertion with room** keeps the graph connected. -/
theorem Mesh.insertRow (hg : g.Mesh) (hp : p.isValid = true) (hm : 0 < p.m0) (hr : r.2.1.length = g.dimension)
    (hmetric : g.metric = some metric) (hroom : Room M metric p g r) : (g.insertRow (hnswLinking M p) r).Mesh := by
  obtain ⟨hfew, hroom⟩ := hroom
  obtain ⟨g', hadded⟩ := hg.toSound.addRow M metric p hr
  rw [hadded.insertRow hmetric]
  have hrun := hadded.run
  have hheight := hadded.height
  unfold Graph.addRow at hrun
  rw [show nodeOf g.len = g.len from Nat.mod_eq_of_lt hfew] at hrun
  have hs : (g.pushNode r.1 r.2.1 r.2.2 (levelFor M p r.1)).Shaped := hg.toShaped.pushNode hr
  have hlists (l n : Nat) : (g.pushNode r.1 r.2.1 r.2.2 (levelFor M p r.1)).neighbours l n = g.neighbours l n :=
    neighbours_pushNode g _ _ _ _
  have hlen : (g.pushNode r.1 r.2.1 r.2.2 (levelFor M p r.1)).len = g.len + 1 := List.length_append
  have hentry : (g.pushNode r.1 r.2.1 r.2.2 (levelFor M p r.1)).entry = g.entry := rfl
  have hlayers : 0 < (g.pushNode r.1 r.2.1 r.2.2 (levelFor M p r.1)).layers.length := by
    refine Nat.lt_of_lt_of_eq ?_ (List.length_map _).symm
    rw [raiseLayers_length]
    omega
  revert hrun hs hroom hlists hlen hentry hlayers
  generalize g.pushNode r.1 r.2.1 r.2.2 (levelFor M p r.1) = pushed
  intro hroom hrun hs hlists hlen hentry hlayers
  simp only [HnswParams.isValid, Bool.and_eq_true, decide_eq_true_eq] at hp
  cases hcase : g.entry with
  | none =>
    -- the first node is alone
    have hzero := hg.entered
    rw [hcase] at hzero
    have hzero : ¬ 0 < g.len := by simpa using hzero
    have hg' : g' = { pushed with entry := some g.len } := by
      unfold insert at hrun
      rw [hentry, hcase] at hrun
      exact (Option.some.inj hrun).symm
    have hnone (n : Nat) : g'.neighbours 0 n = [] := by
      rw [hg']
      exact (hlists 0 n).trans (hg.toShaped.neighbours_out (by omega))
    refine ⟨hadded.sound, fun _ => by omega, fun a b h => ?_, fun a ha b hb => ?_⟩
    · unfold Edge at h
      rw [hnone] at h
      cases h
    · have hone := hadded.len
      rw [show a = b by omega]
  | some e =>
    have helt := hg.entry e hcase
    have htower : ∀ top, Tower top pushed (fun _ n => n < g.len) := by
      refine fun top => ⟨fun l n h => by omega, fun l n h => h, fun l _ a _ b hb => ?_⟩
      rw [hlists] at hb
      exact hg.neighbours l a b hb
    obtain ⟨chosen, g'', hrun', hne, hmem, hedges⟩ := insert_room M metric p hs (by omega)
      (show g.len < pushed.len by omega) htower (hentry.trans hcase) helt hlayers hp.1.2 hm
      (fun c hc => by omega) (fun chosen hchosen c hc => by rw [hlists]; exact hroom chosen hchosen c hc)
    obtain rfl := Option.some.inj (hrun.symm.trans hrun')
    have hedges : ∀ n, ∀ x, x ∈ g'.neighbours 0 n ↔ x ∈ g.neighbours 0 n ∨ Between g.len chosen n x := by
      intro n x
      rw [← hlists]
      exact hedges n x
    refine ⟨hadded.sound, fun _ => by omega, fun a b h => ?_, joined_of_linked hg hadded.len hne hmem hedges⟩
    rcases (hedges a b).mp h with hold | ⟨rfl, hb⟩ | ⟨ha, rfl⟩
    · exact (hedges b a).mpr (.inl (hg.symm a b hold))
    · exact (hedges b _).mpr (.inr (.inr ⟨hb, rfl⟩))
    · exact (hedges _ a).mpr (.inr (.inl ⟨rfl, ha⟩))

theorem Mesh.extend (hg : g.Mesh) (hp : p.isValid = true) (hm : 0 < p.m0) (hrows : ∀ r ∈ rows, r.2.1.length = g.dimension)
    (hmetric : g.metric = some metric) (hroom : Roomy M metric p g rows) :
    (g.extend (hnswLinking M p) rows).Mesh := by
  induction rows generalizing g with
  | nil => exact hg
  | cons r rows ih =>
    obtain ⟨hr, hrest⟩ := List.forall_mem_cons.mp hrows
    obtain ⟨hfirst, hroom⟩ := hroom
    obtain ⟨g', hadded⟩ := hg.toSound.addRow M metric p hr
    have hnext := hg.insertRow (M := M) hp hm hr hmetric hfirst
    rw [hadded.insertRow hmetric] at hnext hroom
    rw [hadded.extend_cons hmetric]
    exact ih hnext (fun r h => hadded.dimension ▸ hrest r h) (hadded.metric_eq.trans hmetric) hroom

theorem mesh_new (dimension : Nat) (metric : Metric) :
    Mesh { default with dimension := dimension, metric := some metric } :=
  ⟨(wellFormed_new .default dimension metric).toSound, nofun, fun _ _ h => (nomatch h), nofun⟩

/-- **Every inserted node stays reachable** while there is room for each: from the entry point, and from any other
    node. -/
theorem reachable_while_roomy (M : Machine) (p : HnswParams) (hp : p.isValid = true) (hm : 0 < p.m0)
    (rows : List DecodedRow) (dimension : Nat) (metric : Metric) (hrows : ∀ r ∈ rows, r.2.1.length = dimension)
    (hroom : Roomy M metric p { default with dimension := dimension, metric := some metric } rows) :
    (buildFrom (hnswLinking M p) rows dimension metric).Reachable ∧
      ∀ a < (buildFrom (hnswLinking M p) rows dimension metric).len,
        ∀ b < (buildFrom (hnswLinking M p) rows dimension metric).len,
          Relation.ReflTransGen (buildFrom (hnswLinking M p) rows dimension metric).Edge a b := by
  have hmesh := (mesh_new dimension metric).extend (M := M) hp hm hrows rfl hroom
  exact ⟨hmesh.reachable, hmesh.joined⟩

/-- **There is room for few rows**: a node has fewer neighbours than there are nodes. -/
theorem roomy_of_few (hg : g.WellFormed p) (hfew : g.len + rows.length ≤ p.m0) (hnumbers : g.len + rows.length ≤ 2 ^ 32)
    (hrows : ∀ r ∈ rows, r.2.1.length = g.dimension) (hmetric : g.metric = some metric) : Roomy M metric p g rows := by
  induction rows generalizing g with
  | nil => trivial
  | cons r rows ih =>
    obtain ⟨hr, hrest⟩ := List.forall_mem_cons.mp hrows
    rw [List.length_cons] at hfew hnumbers
    obtain ⟨g', hadded⟩ := hg.toSound.addRow M metric p hr
    have hnext := hg.insertRow (M := M) (by omega) hr hmetric
    have hlen := hadded.len
    refine ⟨⟨by omega, fun chosen _ c _ => ?_⟩, ?_⟩
    · have := nodup_length_le (hg.once 0 c) (hg.neighbours 0 c)
      omega
    · rw [hadded.insertRow hmetric] at hnext ⊢
      exact ih hnext (by omega) (by omega) (fun r h => hadded.dimension ▸ hrest r h) (hadded.metric_eq.trans hmetric)

end Runs

end Graph

theorem reachable_few : (Graph.buildFrom (hnswLinking .whole .default) [highRow, lowRow] 1 .l2).Reachable :=
  (Graph.reachable_while_roomy .whole .default (by decide) (by decide) [highRow, lowRow] 1 .l2 (by decide)
    (Graph.roomy_of_few (Graph.wellFormed_new .default 1 .l2) (by decide) (by decide) (by decide) rfl)).1

/-! ## Duplicates cut off a node -/

/-- The default parameters with two neighbours for each node. -/
def narrowParams : HnswParams := { HnswParams.default with m := 2 }

/-- Rows of dimension 1 at the whole numbers -5, -5, -5, 2, -6 and -5, whose nodes are on layer 0 only. -/
def clusteredRows : List DecodedRow :=
  [(⟨1⟩, [0xC0A00000], 0x3E4CCCCD), (⟨2⟩, [0xC0A00000], 0x3E4CCCCD), (⟨6⟩, [0xC0A00000], 0x3E4CCCCD),
    (⟨7⟩, [0x40000000], 0x3F000000), (⟨11⟩, [0xC0C00000], 0x3E2AAAAB), (⟨12⟩, [0xC0A00000], 0x3E4CCCCD)]

def clusteredGraph : Graph := Graph.buildFrom (hnswLinking .whole narrowParams) clusteredRows 1 .l2

theorem clusteredGraph_layers : clusteredGraph.layers
      = [[[1, 2, 5, 4], [0, 2, 5, 4], [0, 1, 5, 4], [0, 1, 2, 4], [0, 1, 2, 5], [0, 1, 2, 4]]] ∧
    clusteredGraph.entry = some 0 ∧ clusteredGraph.len = 6 := by decide +kernel

/-- Nothing leads to the node at 2: the three nodes that it was linked to have dropped it. -/
theorem duplicates_cut_off : ¬ (∀ rows : List DecodedRow, (∀ r ∈ rows, r.2.1.length = 1) →
    (Graph.buildFrom (hnswLinking .whole narrowParams) rows 1 .l2).Reachable) := by
  intro hall
  obtain ⟨hlayers, hentry, hlen⟩ := clusteredGraph_layers
  obtain ⟨e, he, hpath⟩ := hall clusteredRows (by decide) 3 (show 3 < clusteredGraph.len by rw [hlen]; decide)
  have he : clusteredGraph.entry = some e := he
  rw [hentry] at he
  obtain rfl := Option.some.inj he
  -- an edge into node 3 would be in one of the lists
  have hno : ∀ a, ¬ clusteredGraph.Edge a 3 := by
    intro a h
    unfold Graph.Edge Graph.neighbours at h
    rw [hlayers, List.getElem?_cons_zero, Option.bind_some] at h
    generalize hlists : [[1, 2, 5, 4], [0, 2, 5, 4], [0, 1, 5, 4], [0, 1, 2, 4], [0, 1, 2, 5], [0, 1, 2, 4]] = lists at h
    have hnone : ∀ list ∈ lists, 3 ∉ list := by rw [← hlists]; decide
    cases hlist : lists[a]? with
    | none => rw [hlist] at h; cases h
    | some list =>
      rw [hlist] at h
      exact hnone list (List.mem_of_getElem? hlist) h
  rcases Relation.ReflTransGen.cases_tail hpath with h | ⟨a, -, h⟩
  · cases h
  · exact hno a h

end IshaVectorDb.Index
