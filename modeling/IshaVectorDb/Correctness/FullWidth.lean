import IshaVectorDb.Beam.FullWidth
import IshaVectorDb.Index.Scratch

/-!
# `Correctness.FullWidth` — a beam as wide as the graph, on a **graph's layer**

With the beam covering every node, a search of a layer is a traversal: it finds what its entries lead to, each node once,
with its score, whatever the scores are (`Graph.Shaped.searchLayer_full`). That the best score comes first is up to the
sort, and a sort is only promised to sort when the comparison it is given is a total order. The comparison of candidates
is one unless a score is not a number, which large components can make of finite vectors: such a score counts as equal
to every other, and the node numbers then decide. `full_width_iff` says exactly when the promise is kept.
-/

namespace IshaVectorDb.Index

open Format Beam

/-! ## The promise of a sort -/

namespace Machine

/-- **The comparison is a total order on these candidates**: what is between two that are apart is apart from one of
    them, so that being neither ahead nor behind is being equal. -/
def TotalOn (among : Scored Nat UInt32 → Prop) : Prop :=
  ∀ a b c, among a → among b → among c → ahead a c = true → ahead a b = true ∨ ahead b c = true

/-- What `sort_by` promises: candidates on which the comparison is a total order come out in order. -/
def Sorts (heaps : Heaps Nat UInt32) : Prop :=
  ∀ l, TotalOn (fun c => c ∈ l) → (heaps.sort l).Pairwise (fun a b => ahead b a = false)

theorem ahead_of_gt {a b : Scored Nat UInt32} (h : Score.gt a.score b.score = true) : ahead a b = true := by
  unfold ahead
  rw [h, Bool.true_or]

/-- Where no score is better than another, the numbers of the nodes decide. -/
theorem ahead_iff_of_level {a b : Scored Nat UInt32} (h : Score.gt a.score b.score = false)
    (h' : Score.gt b.score a.score = false) : ahead a b = true ↔ a.node < b.node := by
  unfold ahead
  rw [h, h']
  simp

/-- Candidates whose scores are numbers are in a total order. -/
theorem totalOn_of_numbers {among : Scored Nat UInt32 → Prop} (h : ∀ c, among c → Score.key c.score ≠ none) :
    TotalOn among := by
  intro a b c ha hb hc hac
  obtain ⟨x, hx⟩ := Option.ne_none_iff_exists'.mp (h a ha)
  obtain ⟨y, hy⟩ := Option.ne_none_iff_exists'.mp (h b hb)
  obtain ⟨z, hz⟩ := Option.ne_none_iff_exists'.mp (h c hc)
  unfold ahead Score.gt at hac ⊢
  simp only [hx, hy, hz, Bool.or_eq_true, Bool.and_eq_true, Bool.not_eq_true', decide_eq_true_eq, decide_eq_false_iff_not]
    at hac ⊢
  omega

/-! ## A sort that keeps the promise and no more -/

theorem ahead_asymm {a b : Scored Nat UInt32} (h : ahead a b = true) : ahead b a = false := by
  have hgt : Score.gt b.score a.score = true → Score.gt a.score b.score = true → False := by
    intro hba hab
    have hself := Score.gt_strict.trans _ _ _ hba hab
    rw [Score.gt_strict.irrefl] at hself
    cases hself
  unfold ahead at h ⊢
  cases hab : Score.gt a.score b.score with
  | true =>
    cases hba : Score.gt b.score a.score with
    | true => exact (hgt hba hab).elim
    | false => rfl
  | false =>
    rw [hab] at h
    cases hba : Score.gt b.score a.score with
    | true => rw [hba] at h; cases h
    | false =>
      rw [hba] at h
      simp only [Bool.not_false, Bool.true_and, Bool.false_or, decide_eq_true_eq] at h ⊢
      exact decide_eq_false (by omega)

theorem orderedInsert_sorted (a : Scored Nat UInt32) (l : List (Scored Nat UInt32))
    (htotal : TotalOn (fun c => c = a ∨ c ∈ l)) (hl : l.Pairwise (fun b c => ahead c b = false)) :
    (l.orderedInsert (fun b c => ahead c b = false) a).Pairwise (fun b c => ahead c b = false) := by
  induction l with
  | nil => exact List.pairwise_singleton _ _
  | cons b l ih =>
    obtain ⟨hb, hl'⟩ := List.pairwise_cons.mp hl
    rw [List.orderedInsert]
    split
    · rename_i hfirst
      refine List.pairwise_cons.mpr ⟨List.forall_mem_cons.mpr ⟨hfirst, fun c hc => ?_⟩, hl⟩
      cases hca : ahead c a with
      | false => rfl
      | true =>
        rcases htotal c b a (.inr (List.mem_cons_of_mem _ hc)) (.inr List.mem_cons_self) (.inl rfl) hca with h | h
        · rw [hb c hc] at h; cases h
        · rw [hfirst] at h; cases h
    · rename_i hlater
      have hba : ahead b a = true := by simpa using hlater
      refine List.pairwise_cons.mpr ⟨fun c hc => ?_, ih (fun x y z hx hy hz => ?_) hl'⟩
      · rcases (List.mem_orderedInsert _).mp hc with rfl | hc
        · exact ahead_asymm hba
        · exact hb c hc
      · exact htotal x y z (hx.imp_right (List.mem_cons_of_mem _)) (hy.imp_right (List.mem_cons_of_mem _))
          (hz.imp_right (List.mem_cons_of_mem _))

theorem insertionSort_sorted (l : List (Scored Nat UInt32)) (htotal : TotalOn (fun c => c ∈ l)) :
    (l.insertionSort (fun b c => ahead c b = false)).Pairwise (fun b c => ahead c b = false) := by
  induction l with
  | nil => exact List.Pairwise.nil
  | cons a l ih =>
    refine orderedInsert_sorted a _ (fun x y z hx hy hz => ?_) (ih (fun x y z hx hy hz => ?_))
    · have hmem (c : Scored Nat UInt32) (hc : c = a ∨ c ∈ l.insertionSort (fun b c => ahead c b = false)) : c ∈ a :: l :=
        List.mem_cons.mpr (hc.imp_right (List.perm_insertionSort _ l).mem_iff.mp)
      exact htotal x y z (hmem x hx) (hmem y hy) (hmem z hz)
    · exact htotal x y z (List.mem_cons_of_mem _ hx) (List.mem_cons_of_mem _ hy) (List.mem_cons_of_mem _ hz)

/-- The queues that look for the foremost keep it. -/
theorem scanning_sorts : Sorts scanning := insertionSort_sorted

open Classical in
/-- A sort that sorts where the comparison is a total order, and elsewhere puts one candidate before another. -/
noncomputable def leastSort (x y : Scored Nat UInt32) (l : List (Scored Nat UInt32)) : List (Scored Nat UInt32) :=
  if TotalOn (fun c => c ∈ l) then l.insertionSort (fun b c => ahead c b = false)
  else if y ∈ l ∧ x ∈ l.erase y then y :: x :: (l.erase y).erase x
  else l

theorem leastSort_perm (x y : Scored Nat UInt32) (l : List (Scored Nat UInt32)) : (leastSort x y l).Perm l := by
  unfold leastSort
  split
  · exact List.perm_insertionSort _ l
  · split
    · rename_i hmem
      exact ((List.perm_cons_erase hmem.2).symm.cons y).trans (List.perm_cons_erase hmem.1).symm
    · exact .refl l

/-- Queues with that sort. -/
noncomputable def leastHeaps (heaps : Heaps Nat UInt32) (x y : Scored Nat UInt32) : Heaps Nat UInt32 :=
  { heaps with sort := leastSort x y, sort_perm := leastSort_perm x y }

theorem leastHeaps_sorts (heaps : Heaps Nat UInt32) (x y : Scored Nat UInt32) : Sorts (leastHeaps heaps x y) := by
  intro l htotal
  show (leastSort x y l).Pairwise _
  unfold leastSort
  rw [if_pos htotal]
  exact insertionSort_sorted l htotal

end Machine

namespace Graph

/-- **The nodes that entries lead to** along a layer's edges. -/
def Leads (g : Graph) (layer : Nat) (entries : List Nat) (n : Nat) : Prop :=
  ∃ e ∈ entries, e < g.len ∧ Relation.ReflTransGen (fun a b => b ∈ g.neighbours layer a) e n

variable {M : Machine} {metric : Metric} {g : Graph} {query : List UInt32} {layer n : Nat} {entries : List Nat}

theorem Shaped.leads_lt (hs : g.Shaped) (h : g.Leads layer entries n) : n < g.len := by
  obtain ⟨e, -, he, hpath⟩ := h
  cases hpath with
  | refl => exact he
  | tail _ hedge => exact hs.neighbours _ _ _ hedge

/-- The beam search follows the edges there are: they all lead to nodes. -/
theorem Shaped.reach_iff (hs : g.Shaped) :
    (g.space M metric query layer).Reach entries n ↔ g.Leads layer entries n := by
  have hedge (a b : Nat) : (g.space M metric query layer).Edge a b ↔ b ∈ g.neighbours layer a := by
    refine ⟨fun h => h.1, fun h => ⟨h, ?_⟩⟩
    simpa [space] using hs.neighbours _ _ _ h
  have hrel : (g.space M metric query layer).Edge = fun a b => b ∈ g.neighbours layer a :=
    funext (fun a => funext (fun b => propext (hedge a b)))
  unfold Space.Reach Leads
  rw [hrel]
  simp [space]

/-- A candidate that a search from the entries can find: a node they lead to, with its score. -/
def Candidate (M : Machine) (metric : Metric) (g : Graph) (query : List UInt32) (layer : Nat) (entries : List Nat)
    (c : Scored Nat UInt32) : Prop :=
  g.Leads layer entries c.node ∧ g.scoreOf M metric query c.node = some c.score

/-- **Everything found**: exactly the nodes that the entries lead to, each once and with its score. -/
structure Everything (M : Machine) (metric : Metric) (g : Graph) (query : List UInt32) (layer : Nat)
    (entries : List Nat) (found : List (Scored Nat UInt32)) : Prop where
  once : (found.map Scored.node).Nodup
  exact : ∀ n, n ∈ found.map Scored.node ↔ g.Leads layer entries n
  scored : ∀ c ∈ found, g.scoreOf M metric query c.node = some c.score

/-- Best score first: none comes after one that it is better than. -/
def BestFirst (found : List (Scored Nat UInt32)) : Prop := found.Pairwise (fun a b => Score.gt b.score a.score = false)

theorem Everything.mem_iff {found : List (Scored Nat UInt32)} (h : Everything M metric g query layer entries found)
    {c : Scored Nat UInt32} : c ∈ found ↔ g.Candidate M metric query layer entries c := by
  refine ⟨fun hc => ⟨(h.exact _).mp (List.mem_map_of_mem hc), h.scored c hc⟩, fun ⟨hleads, hscore⟩ => ?_⟩
  obtain ⟨d, hd, he⟩ := List.mem_map.mp ((h.exact _).mpr hleads)
  have hsame := h.scored d hd
  rw [he, hscore] at hsame
  have hdc : d = c := by
    obtain ⟨ds, dn⟩ := d
    obtain ⟨cs, cn⟩ := c
    have hnode : dn = cn := he
    have hscores : cs = ds := Option.some.inj hsame
    rw [hnode, hscores]
  exact hdc ▸ hd

variable (M metric query layer entries) in
/-- A beam as wide as the graph keeps everything. -/
theorem Shaped.collect_full (hs : g.Shaped) {ef : Nat} (hef : g.len ≤ ef) :
    ∃ kept, collect M.heaps (g.space M metric query layer) ef (g.len + 1) entries = some kept ∧
      Everything M metric g query layer entries kept := by
  obtain ⟨kept, hrun, honce, hexact, hscored⟩ := Beam.collect_full (h := M.heaps)
    (fun n (hn : (g.space M metric query layer).Reach entries n) => hs.scoreOf_some M metric (hs.leads_lt (hs.reach_iff.mp hn)) query)
    (fun nodes hnd h => nodup_length_le hnd (fun a ha => hs.leads_lt (hs.reach_iff.mp (h a ha)))) hef
    (Nat.lt_succ_self g.len)
  exact ⟨kept, hrun, honce, fun n => (hexact n).trans hs.reach_iff, hscored⟩

variable (M metric query layer entries) in
/-- **A full-width search finds everything**, whatever the scores are and whatever marks it starts with. -/
theorem Shaped.searchLayer_full (hs : g.Shaped) {ef : Nat} (hef : g.len ≤ ef) (visited : Visited) :
    ∃ kept left, Build.searchLayer M metric g query entries layer ef visited = some (M.heaps.sort kept, left) ∧
      Everything M metric g query layer entries kept := by
  obtain ⟨kept, hrun, hkept⟩ := hs.collect_full M metric query layer entries hef
  have hsearch : g.searchLayer M metric query layer ef entries = some (M.heaps.sort kept) := by
    unfold searchLayer search
    rw [hrun]
    rfl
  have heq := Build.searchLayer_eq M metric g query entries layer ef visited
  rw [hsearch] at heq
  obtain ⟨⟨found, left⟩, hmarked, rfl⟩ := Option.map_eq_some_iff.mp heq
  exact ⟨kept, left, hmarked, hkept⟩

theorem Everything.perm {found kept : List (Scored Nat UInt32)} (h : Everything M metric g query layer entries kept)
    (hperm : found.Perm kept) : Everything M metric g query layer entries found :=
  ⟨(hperm.map Scored.node).nodup_iff.mpr h.once, fun n => ((hperm.map Scored.node).mem_iff).trans (h.exact n),
    fun c hc => h.scored c (hperm.mem_iff.mp hc)⟩

/-- A search that finds everything, best score first. -/
def FullWidth (M : Machine) (metric : Metric) (g : Graph) (query : List UInt32) (layer ef : Nat) (entries : List Nat)
    (visited : Visited) : Prop :=
  ∃ found left, Build.searchLayer M metric g query entries layer ef visited = some (found, left) ∧
    Everything M metric g query layer entries found ∧ BestFirst found

variable (M metric query layer entries) in
/-- **When a full-width search is best first.** Whatever sort there is, the search ends and finds everything; and it is
    best first by every sort that keeps the promise of `sort_by` exactly when the comparison is a total order on the
    candidates there are to find. -/
theorem full_width_iff (hs : g.Shaped) {ef : Nat} (hef : g.len ≤ ef) (visited : Visited) :
    (∃ found left, Build.searchLayer M metric g query entries layer ef visited = some (found, left) ∧
      Everything M metric g query layer entries found) ∧
    ((∀ heaps, Machine.Sorts heaps → FullWidth { M with heaps := heaps } metric g query layer ef entries visited) ↔
      Machine.TotalOn (g.Candidate M metric query layer entries)) := by
  refine ⟨?_, fun hall => ?_, fun htotal heaps hsorts => ?_⟩
  · obtain ⟨kept, left, hrun, hkept⟩ := hs.searchLayer_full M metric query layer entries hef visited
    exact ⟨_, left, hrun, hkept.perm (M.heaps.sort_perm kept)⟩
  · by_contra hnot
    simp only [Machine.TotalOn, not_forall, not_or, Bool.not_eq_true] at hnot
    obtain ⟨a, b, c, ha, hb, hc, hac, hab, hbc⟩ := hnot
    -- a comparison by the node numbers alone would be a total order, so some score is better than another
    have hgt : ∃ x y, g.Candidate M metric query layer entries x ∧ g.Candidate M metric query layer entries y ∧
        Score.gt x.score y.score = true := by
      by_contra hlevel
      simp only [not_exists, not_and, Bool.not_eq_true] at hlevel
      have h1 := (Machine.ahead_iff_of_level (hlevel a c ha hc) (hlevel c a hc ha)).mp hac
      have h2 := mt (Machine.ahead_iff_of_level (hlevel a b ha hb) (hlevel b a hb ha)).mpr (by rw [hab]; simp)
      have h3 := mt (Machine.ahead_iff_of_level (hlevel b c hb hc) (hlevel c b hc hb)).mpr (by rw [hbc]; simp)
      omega
    obtain ⟨x, y, hx, hy, hxy⟩ := hgt
    obtain ⟨found, left, hrun, -, hbest⟩ := hall _ (Machine.leastHeaps_sorts M.heaps x y)
    obtain ⟨kept, left', hrun', hkept⟩ := hs.searchLayer_full { M with heaps := Machine.leastHeaps M.heaps x y }
      metric query layer entries hef visited
    rw [hrun'] at hrun
    obtain ⟨rfl, -⟩ := Prod.mk.inj (Option.some.inj hrun)
    have hne : x ≠ y := by
      rintro rfl
      rw [Score.gt_strict.irrefl] at hxy
      cases hxy
    have hmem (d : Scored Nat UInt32) : d ∈ kept ↔ g.Candidate M metric query layer entries d := hkept.mem_iff
    have hout : ¬ Machine.TotalOn (fun d => d ∈ kept) := by
      intro htotal
      rcases htotal a b c ((hmem a).mpr ha) ((hmem b).mpr hb) ((hmem c).mpr hc) hac with h | h
      · rw [hab] at h; cases h
      · rw [hbc] at h; cases h
    have hswap : y ∈ kept ∧ x ∈ kept.erase y :=
      ⟨(hmem y).mpr hy, (List.mem_erase_of_ne hne).mpr ((hmem x).mpr hx)⟩
    have hsort : Machine.leastSort x y kept = y :: x :: (kept.erase y).erase x := by
      unfold Machine.leastSort
      rw [if_neg hout, if_pos hswap]
    have hbest : BestFirst (Machine.leastSort x y kept) := hbest
    rw [hsort] at hbest
    have hno := List.rel_of_pairwise_cons hbest List.mem_cons_self
    rw [hxy] at hno
    cases hno
  · obtain ⟨kept, left, hrun, hkept⟩ :=
      hs.searchLayer_full { M with heaps := heaps } metric query layer entries hef visited
    have hsorted := hsorts kept (fun a b c ha hb hc => htotal a b c (hkept.mem_iff.mp ha) (hkept.mem_iff.mp hb)
      (hkept.mem_iff.mp hc))
    refine ⟨_, left, hrun, hkept.perm (heaps.sort_perm kept), hsorted.imp (fun {a b} hba => ?_)⟩
    cases hgt : Score.gt b.score a.score with
    | false => rfl
    | true => rw [Machine.ahead_of_gt hgt] at hba; cases hba

/-! ## A score that is not a number -/

/-- The components `2 ^ -100` and `2 ^ 100`. -/
def tiny : UInt32 := 0x0D800000
def huge : UInt32 := 0x71800000

/-- The query `(2 ^ 100, -2 ^ 100)`. -/
def hugeQuery : List UInt32 := [huge, 0xF1800000]

/-- The machine that computes the inner product with this query: `(2 ^ -100, 0)` scores 1 and `(2 ^ -99, 0)` scores 2;
    for `(2 ^ 100, 2 ^ 100)` one product overflows to infinity and the other to minus infinity. -/
def overflowing : Machine where
  score _ _ stored _ := if stored = [tiny, 0] then 0x3F800000 else if stored = [0x0E000000, 0] then 0x40000000 else 0x7FC00000
  draw _ _ := 0
  heaps := Machine.scanning

/-- Those three vectors, on one layer and with no edges. -/
def overflowGraph : Graph :=
  ⟨[⟨0⟩, ⟨1⟩, ⟨2⟩], [tiny, 0, huge, huge, 0x0E000000, 0], [0, 0, 0], [0, 0, 0], [[[], [], []]], some 0, 2, some .dot⟩

theorem overflowGraph_neighbours (l n : Nat) : overflowGraph.neighbours l n = [] := by
  unfold neighbours overflowGraph
  rcases l with _ | l
  · rcases n with _ | _ | _ | n <;> rfl
  · rfl

theorem overflowGraph_wellFormed : overflowGraph.WellFormed .default := by
  have hnone := overflowGraph_neighbours
  refine ⟨⟨⟨rfl, rfl, rfl, by decide, fun l n x hx => ?_⟩, fun e h => ?_, rfl⟩, fun l n h => ?_, fun l n => ?_,
    fun l n => ?_, fun l n x hx => ?_, fun e h => ?_⟩
  · rw [hnone] at hx; cases hx
  · obtain rfl := Option.some.inj h
    decide
  · rw [hnone] at h; cases h
  · rw [hnone]; exact List.nodup_nil
  · rw [hnone]; exact Nat.zero_le _
  · rw [hnone] at hx; cases hx
  · obtain rfl := Option.some.inj h
    decide

/-- From the entries 2 and 0 there is no such score to find. -/
theorem full_width_two : FullWidth overflowing .dot overflowGraph hugeQuery 0 3 [2, 0] .default := by
  refine (full_width_iff overflowing .dot hugeQuery 0 [2, 0] overflowGraph_wellFormed.toShaped (Nat.le_refl 3)
    .default).2.mpr (Machine.totalOn_of_numbers ?_) _ Machine.scanning_sorts
  rintro ⟨score, node⟩ ⟨⟨e, he, -, hpath⟩, hscore⟩
  have hnode : e = node := by
    cases hpath with
    | refl => rfl
    | tail _ hedge => rw [overflowGraph_neighbours] at hedge; cases hedge
  subst hnode
  simp only [List.mem_cons, List.not_mem_nil, or_false] at he
  rcases he with rfl | rfl
  · obtain rfl : 0x40000000 = score := Option.some.inj hscore
    decide
  · obtain rfl : 0x3F800000 = score := Option.some.inj hscore
    decide

/-- **Not a number is equal to every score.** From the entries 2, 1 and 0 the scores 1, not a number and 2 of the nodes
    0, 1 and 2 come out in this order: each is level with the next, and then the lower node is first. -/
theorem not_best_first : ¬ ∀ (M : Machine) (metric : Metric) (p : HnswParams) (g : Graph) (query : List UInt32)
    (layer ef : Nat) (entries : List Nat) (visited : Visited), Machine.Sorts M.heaps → g.WellFormed p → g.len ≤ ef →
      FullWidth M metric g query layer ef entries visited := by
  intro hall
  obtain ⟨found, left, hrun, -, hbest⟩ := hall overflowing .dot .default overflowGraph hugeQuery 0 3 [2, 1, 0] .default
    Machine.scanning_sorts overflowGraph_wellFormed (Nat.le_refl 3)
  have heq := Build.searchLayer_eq overflowing .dot overflowGraph hugeQuery [2, 1, 0] 0 3 .default
  rw [hrun] at heq
  have hfound : overflowGraph.searchLayer overflowing .dot hugeQuery 0 3 [2, 1, 0] =
      some [⟨0x3F800000, 0⟩, ⟨0x7FC00000, 1⟩, ⟨0x40000000, 2⟩] := by decide
  rw [hfound] at heq
  obtain rfl := Option.some.inj heq
  exact absurd hbest (by unfold BestFirst; decide)

end Graph

end IshaVectorDb.Index
