import IshaVectorDb.Correctness.FullWidth
import IshaVectorDb.Correctness.NearSearch

/-!
# `Correctness.Returning` — a search of the graph **returns where its sort does**

A beam search ends with a sort of what it kept, and `sort_by` may panic where the comparison it is given is no total
order. So a search that would keep enough rows may return none at all. `search_keeps_enough_iff` says for which rows and
queries this cannot happen, whatever the graph over the rows, the filter and the bounds are: those whose scores the
comparison orders totally. Where it does not, a chain of the rows and a beam as wide as the chain bring them all to the
sort (`chain_panics`).
-/

namespace IshaVectorDb.Index

open Format Beam Engine HnswIndex

/-! ## A sort that may panic -/

namespace Machine

/-- **A sort as `sort_by` is documented**: it panics or returns a permutation, and where the comparison is a total order on
    the list, it returns the list in order. -/
structure SortBy where
  run : List (Scored Nat UInt32) → Option (List (Scored Nat UInt32))
  perm : ∀ {l sorted}, run l = some sorted → sorted.Perm l
  sorts : ∀ {l}, TotalOn (fun c => c ∈ l) →
    ∃ sorted, run l = some sorted ∧ sorted.Pairwise (fun a b => ahead b a = false)

/-- The sort that never panics. -/
def SortBy.lenient : SortBy where
  run l := some (l.insertionSort (fun b c => ahead c b = false))
  perm h := Option.some.inj h ▸ List.perm_insertionSort _ _
  sorts h := ⟨_, rfl, insertionSort_sorted _ h⟩

open Classical in
/-- The sort that panics wherever it may. -/
noncomputable def SortBy.strict : SortBy where
  run l := if TotalOn (fun c => c ∈ l) then some (l.insertionSort (fun b c => ahead c b = false)) else none
  perm {l sorted} h := by
    split at h
    · exact Option.some.inj h ▸ List.perm_insertionSort _ _
    · cases h
  sorts h := ⟨_, if_pos h, insertionSort_sorted _ h⟩

end Machine

/-- `search_layer`, which ends with such a sort. -/
def Graph.searchLayerBy (sort : Machine.SortBy) (M : Machine) (metric : Metric) (g : Graph) (query : List UInt32)
    (layer ef : Nat) (entries : List Nat) : Option (List (Scored Nat UInt32)) := do
  let kept ← collect M.heaps (g.space M metric query layer) ef (g.len + 1) entries
  sort.run kept

/-- **The search of the graph**, which ends with such a sort. -/
def HnswIndex.searchSorting (sort : Machine.SortBy) (M : Machine) (rowScore : RowScore) (p : HnswParams) (g : Graph)
    (q : Query) (out : TopK) : Answering (TopK × Nat) :=
  searchBy M rowScore p g q (g.searchLayerBy sort M q.metric q.vector 0) out

/-! ## What a search needs to return -/

/-- **A valid graph over a source's rows**: they are its nodes, and where it is for this metric and their dimension, with
    their vectors and norms. -/
structure Over (g : Graph) (source : VectorSource) (metric : Metric) : Prop where
  sound : g.Sound
  rows : g.rows = source.decodeRows.map Prod.fst
  mirrors : g.metric = some metric → g.dimension = source.dimension.toNat →
    Engine.HnswIndex.Mirrors g source.decodeRows source.dimension.toNat metric

/-- A query over a source's rows that nothing cancels. -/
structure Asks (q : Query) (source : VectorSource) (metric : Metric) (query : List UInt32) : Prop where
  metric_eq : q.metric = metric
  vector : q.vector = query
  rows : q.rows = source.forEach
  unlimited : q.Unlimited

/-- A row as a candidate: its number among the rows, and its score. -/
def RowCandidate (M : Machine) (source : VectorSource) (metric : Metric) (query : List UInt32) (c : Scored Nat UInt32) :
    Prop :=
  ∃ r, source.decodeRows[c.node]? = some r ∧ M.score metric query r.2.1 r.2.2 = c.score

theorem decodeRows_rows (source : VectorSource) : source.decodeRows.map Prod.fst = source.forEach.map Prod.fst := by
  unfold VectorSource.decodeRows
  rw [List.map_map]
  rfl

section Search

variable {M : Machine} {rowScore : RowScore} {p : HnswParams} {g : Graph} {q : Query} {source : VectorSource}
  {metric : Metric} {query : List UInt32}

/-- What a search scores are the rows' candidates. -/
theorem candidate_iff (hg : Engine.HnswIndex.Mirrors g source.decodeRows source.dimension.toNat metric)
    {c : Scored Nat UInt32} :
    (c.node < g.len ∧ g.scoreOf M metric query c.node = some c.score) ↔ RowCandidate M source metric query c := by
  have hscore {r : DecodedRow} (hr : source.decodeRows[c.node]? = some r) :=
    hg.scoreOf (M := M) (fun r hr => VectorSource.dims hr) query hr
  constructor
  · rintro ⟨hlt, hs⟩
    rw [hg.len] at hlt
    have hrow := List.getElem?_eq_getElem hlt
    rw [hscore hrow] at hs
    exact ⟨_, hrow, Option.some.inj hs⟩
  · rintro ⟨r, hr, hs⟩
    rw [hscore hr, hs, hg.len]
    exact ⟨(List.getElem?_eq_some_iff.mp hr).1, rfl⟩

/-- **Where the comparison orders the rows totally**, the search of the lowest layer returns. -/
theorem lowest_returns (sort : Machine.SortBy) (hg : Engine.HnswIndex.Mirrors g source.decodeRows source.dimension.toNat metric)
    (htotal : Machine.TotalOn (RowCandidate M source metric query)) (ef : Nat) {n : Nat} (hn : n < g.len) :
    ∃ found, g.searchLayerBy sort M metric query 0 ef [n] = some found ∧ Distinct g found := by
  obtain ⟨found, hfound, hin, hnd, -⟩ := Graph.searchLayer_spec M metric query hg.sound.toShaped (hg.sound.tower 1)
    Nat.zero_lt_one ef (fun e (he : e ∈ [n]) => List.mem_singleton.mp he ▸ hn)
  obtain ⟨kept, hkept, rfl⟩ := search_collected _ _ _ hfound
  obtain ⟨hscored, -⟩ := search_scored hfound
  have hperm := M.heaps.sort_perm kept
  have hcandidate : ∀ c ∈ kept, RowCandidate M source metric query c := fun c hc =>
    (candidate_iff hg).mp ⟨hin c (hperm.mem_iff.mpr hc), (hscored c (hperm.mem_iff.mpr hc)).2⟩
  obtain ⟨sorted, hsorted, -⟩ := sort.sorts (l := kept) (fun a b c ha hb hc =>
    htotal a b c (hcandidate a ha) (hcandidate b hb) (hcandidate c hc))
  have hsame := (sort.perm hsorted).trans hperm.symm
  refine ⟨sorted, ?_, fun c hc => hin c (hsame.mem_iff.mp hc), (hsame.map Scored.node).nodup_iff.mpr hnd⟩
  unfold Graph.searchLayerBy
  rw [hkept]
  exact hsorted

/-! ## A chain of the rows -/

/-- **The rows one after another**: each is linked to the next, on one layer. -/
def chain (source : VectorSource) (metric : Metric) : Graph :=
  ⟨source.decodeRows.map Prod.fst, source.decodeRows.flatMap (fun r => r.2.1), source.decodeRows.map (fun r => r.2.2),
    List.replicate source.decodeRows.length 0,
    [(List.range source.decodeRows.length).map (fun n => if n + 1 < source.decodeRows.length then [n + 1] else [])],
    if 0 < source.decodeRows.length then some 0 else none, source.dimension.toNat, some metric⟩

variable (source metric) in
theorem chain_len : (chain source metric).len = source.decodeRows.length := List.length_map _

theorem chain_neighbours {l n : Nat} (hn : n < source.decodeRows.length) : (chain source metric).neighbours l n =
    if l = 0 ∧ n + 1 < source.decodeRows.length then [n + 1] else [] := by
  unfold Graph.neighbours chain
  cases l with
  | zero =>
    rw [List.getElem?_cons_zero, Option.bind_some, List.getElem?_map, List.getElem?_range hn]
    simp
  | succ l => simp

theorem chain_mirrors : Engine.HnswIndex.Mirrors (chain source metric) source.decodeRows source.dimension.toNat metric := by
  have hlen := chain_len source metric
  refine ⟨⟨⟨?_, ?_, ?_, ?_, fun l n x hx => ?_⟩, fun e he => ?_, ?_⟩, rfl, rfl, rfl, rfl, rfl⟩
  · rw [hlen]
    exact Parsing.length_flatMap_stride (fun r hr => VectorSource.dims hr)
  · exact (List.length_map _).trans hlen.symm
  · exact List.length_replicate.trans hlen.symm
  · intro layer hlayer
    rw [List.mem_singleton.mp hlayer, List.length_map, List.length_range, hlen]
    exact ⟨le_rfl, fun _ => rfl⟩
  · by_cases hn : n < source.decodeRows.length
    · rw [chain_neighbours hn] at hx
      split at hx
      · rename_i hnext
        rw [List.mem_singleton.mp hx, hlen]
        exact hnext.2
      · cases hx
    · have hnone : (chain source metric).neighbours l n = [] := by
        unfold Graph.neighbours chain
        cases l with
        | zero =>
          rw [List.getElem?_cons_zero, Option.bind_some, List.getElem?_eq_none (by simpa using hn)]
          rfl
        | succ l => simp
      rw [hnone] at hx
      cases hx
  · have hentry : (if 0 < source.decodeRows.length then some 0 else none) = some e := he
    split at hentry
    · rename_i hpos
      rw [hlen, ← Option.some.inj hentry]
      exact hpos
    · cases hentry
  · show Option.isSome (if 0 < source.decodeRows.length then some 0 else none) = _
    rw [hlen]
    split <;> simp [*]

theorem chain_over : Over (chain source metric) source metric := ⟨chain_mirrors.sound, rfl, fun _ _ => chain_mirrors⟩

/-- The first row leads to every row. -/
theorem chain_leads {n : Nat} (hn : n < source.decodeRows.length) : (chain source metric).Leads 0 [0] n := by
  refine ⟨0, List.mem_singleton.mpr rfl, by rw [chain_len]; omega, ?_⟩
  induction n with
  | zero => exact .refl
  | succ n ih =>
    refine (ih (by omega)).tail ?_
    rw [chain_neighbours (by omega), if_pos ⟨rfl, hn⟩]
    exact List.mem_singleton.mpr rfl

/-- The query for as many rows as there are. -/
def askAll (source : VectorSource) (metric : Metric) (query : List UInt32) : Query :=
  ⟨query, source.decodeRows.length, metric, source.forEach, source.len, fun _ => true, none, ⟨none, none⟩, ⟨false, none⟩⟩

theorem askAll_asks : Asks (askAll source metric query) source metric query := ⟨rfl, rfl, rfl, rfl⟩

/-- **Where the comparison does not order the rows totally**, a search of their chain for all of them panics. -/
theorem chain_panics (hdim : query.length = source.dimension.toNat) (hlen : source.len = source.forEach.length)
    (hnot : ¬ Machine.TotalOn (RowCandidate M source metric query)) (out : TopK) :
    searchSorting .strict M rowScore p (chain source metric) (askAll source metric query) out = none := by
  have hcount : source.decodeRows.length = source.forEach.length := List.length_map _
  have hrows : 0 < source.decodeRows.length := by
    by_contra hnone
    refine hnot (fun a b c ha _ _ _ => ?_)
    obtain ⟨r, hr, -⟩ := ha
    have hlt := (List.getElem?_eq_some_iff.mp hr).1
    omega
  have hfits : fits (chain source metric) (askAll source metric query) = true := by
    unfold fits
    rw [chain_len]
    simp only [Bool.and_eq_true, decide_eq_true_eq]
    exact ⟨⟨⟨by rw [hcount]; exact hlen.symm, hrows⟩, rfl⟩, hdim.symm⟩
  have hentry : (chain source metric).entry = some 0 := if_pos hrows
  obtain ⟨score, hscore⟩ := chain_mirrors.sound.scoreOf_some M metric
    (show 0 < (chain source metric).len by rw [chain_len]; exact hrows) query
  -- the beam is as wide as the chain, so it keeps every row
  have hwide : (chain source metric).len ≤ beamWidth p (chain source metric) (askAll source metric query) := by
    rw [chain_len]
    exact Nat.le_max_right _ _
  obtain ⟨kept, hkept, hall⟩ := chain_mirrors.sound.toShaped.collect_full M metric query 0 [0] hwide
  have hmem (c : Scored Nat UInt32) : c ∈ kept ↔ RowCandidate M source metric query c := by
    rw [hall.mem_iff, ← candidate_iff chain_mirrors]
    refine and_congr_left fun _ => ⟨chain_mirrors.sound.toShaped.leads_lt, fun hc => chain_leads ?_⟩
    rw [← chain_len source metric]
    exact hc
  have hlowest : (chain source metric).searchLayerBy .strict M metric query 0
      (beamWidth p (chain source metric) (askAll source metric query)) [0] = none := by
    unfold Graph.searchLayerBy
    rw [hkept]
    refine if_neg (fun htotal => hnot (fun a b c ha hb hc => ?_))
    exact htotal a b c ((hmem a).mpr ha) ((hmem b).mpr hb) ((hmem c).mpr hc)
  unfold searchSorting searchBy
  rw [if_neg (show (askAll source metric query).topK ≠ 0 from Nat.pos_iff_ne_zero.mp hrows), hfits, if_neg (by decide), hentry]
  dsimp only
  rw [reads_bind (show (chain source metric).scoreOf M (askAll source metric query).metric
    (askAll source metric query).vector 0 = some score from hscore)]
  show (Answering.reads ((chain source metric).searchLayerBy .strict M metric query 0 _ [0]) >>= _) = none
  rw [hlowest]
  rfl

variable (M rowScore p source metric query) in
/-- **When a search never keeps too little**: over every valid graph of the rows, for every number of rows, filter and beam,
    and by every sort as documented, it returns with enough rows, exactly when the comparison is a total order on the
    rows' scores. -/
theorem search_keeps_enough_iff (hnd : (source.forEach.map Prod.fst).Nodup) (hdim : query.length = source.dimension.toNat)
    (hlen : source.len = source.forEach.length) :
    (∀ (sort : Machine.SortBy) (g : Graph) (q : Query), Over g source metric → Asks q source metric query →
      KeepsEnough q (searchSorting sort M rowScore p g q (TopK.new q.topK none))) ↔
    Machine.TotalOn (RowCandidate M source metric query) := by
  refine ⟨fun hall => ?_, fun htotal sort g q hg hq => ?_⟩
  · by_contra hnot
    obtain ⟨r, hr, -⟩ := hall .strict (chain source metric) (askAll source metric query) chain_over askAll_asks
    rw [chain_panics hdim hlen hnot] at hr
    cases hr
  · obtain ⟨rfl, rfl, hrows, hunlimited⟩ := hq
    refine @Ends.keepsEnough rowScore g q _ ?_ (by rw [hrows]; exact hnd) hunlimited
      (searchBy_ends M rowScore p q hg.sound (fun hfits ef n hn => ?_) _)
    · rw [hg.rows, decodeRows_rows, hrows]
    · unfold fits at hfits
      simp only [Bool.and_eq_true, decide_eq_true_eq] at hfits
      exact lowest_returns sort (hg.mirrors hfits.1.2 (hfits.2.trans hdim)) htotal ef hn

end Search

/-- Three rows at the whole numbers 0, 1 and 2, a query for the two nearest to 0 of those that live, and the graph that is
    built of them. -/
def threeSource : VectorSource :=
  ⟨1, 3, [(⟨1⟩, Writer.u32 0, 0), (⟨2⟩, Writer.u32 0x3F800000, 0), (⟨5⟩, Writer.u32 0x40000000, 0)]⟩

def threeQuery : Query :=
  ⟨[0], 2, .l2, threeSource.forEach, 3, fun row => row.value ≠ 1, none, ⟨none, none⟩, ⟨false, none⟩⟩

def threeGraph : Graph := Graph.buildFrom (hnswLinking .whole .default) threeSource.decodeRows 1 .l2

/-- How a machine scores a row's bytes. -/
def byComponents (M : Machine) : RowScore := fun metric query row invNorm => M.score metric query (words32 row) invNorm

theorem search_keeps_two : ∃ out n,
    searchSorting .lenient .whole (byComponents .whole) .default threeGraph threeQuery (TopK.new threeQuery.topK none)
      = some (.ok (out, n)) ∧ Answers threeQuery out := by
  have hmirrors : Engine.HnswIndex.Mirrors threeGraph threeSource.decodeRows 1 .l2 :=
    .built (fun r hr => @VectorSource.dims threeSource r hr)
  have htotal : Machine.TotalOn (RowCandidate .whole threeSource .l2 [0]) := by
    refine Machine.totalOn_of_numbers ?_
    rintro ⟨score, node⟩ ⟨r, hr, rfl⟩
    have hall : ∀ r ∈ threeSource.decodeRows, Score.key (Machine.whole.score .l2 [0] r.2.1 r.2.2) ≠ none := by
      decide +kernel
    exact hall r (List.mem_of_getElem? hr)
  obtain ⟨r, hrun, hok, herror⟩ := (search_keeps_enough_iff .whole (byComponents .whole) .default threeSource .l2 [0]
    (by decide) rfl rfl).mpr htotal .lenient threeGraph threeQuery
    ⟨hmirrors.sound, hmirrors.rows_eq, fun _ _ => hmirrors⟩ ⟨rfl, rfl, rfl, rfl⟩
  cases r with
  | error e =>
    -- without a filter nothing fails
    obtain ⟨row, -, he⟩ := herror e rfl
    unfold Query.admits threeQuery at he
    split at he <;> cases he
  | ok found => exact ⟨found.1, found.2, hrun, hok found.1 found.2 rfl⟩

/-- Rows of three kinds, seven of each: against the query `(2 ^ 100, -2 ^ 100)` the first scores 1, the last 2, and what is
    between them is not a number. -/
def overflowSource : VectorSource :=
  ⟨2, 21, (List.range 21).map (fun n => (⟨UInt64.ofNat n⟩, (if n % 3 = 0 then [Graph.tiny, 0]
    else if n % 3 = 1 then [Graph.huge, Graph.huge] else [0x0E000000, 0]).flatMap Writer.u32, 0))⟩

/-- **Scores that are not numbers**: a valid graph of the rows and a query for all of them, which a sort as documented
    answers with a panic. -/
theorem not_a_number_panics : Over (chain overflowSource .dot) overflowSource .dot ∧
    Asks (askAll overflowSource .dot Graph.hugeQuery) overflowSource .dot Graph.hugeQuery ∧
    (overflowSource.forEach.map Prod.fst).Nodup ∧
    ¬ KeepsEnough (askAll overflowSource .dot Graph.hugeQuery)
      (searchSorting .strict Graph.overflowing (byComponents Graph.overflowing) .default (chain overflowSource .dot)
        (askAll overflowSource .dot Graph.hugeQuery) (TopK.new 21 none)) := by
  refine ⟨chain_over, askAll_asks, by decide +kernel, ?_⟩
  rintro ⟨r, hr, -⟩
  rw [@chain_panics Graph.overflowing _ _ overflowSource .dot Graph.hugeQuery rfl rfl ?_] at hr
  · cases hr
  · intro htotal
    -- node 1 is level with both, so the lower node is first of each pair
    have h := htotal ⟨0x40000000, 2⟩ ⟨0x7FC00000, 1⟩ ⟨0x3F800000, 0⟩ ⟨(⟨2⟩, [0x0E000000, 0], 0), by decide +kernel, by decide⟩
      ⟨(⟨1⟩, [Graph.huge, Graph.huge], 0), by decide +kernel, by decide⟩ ⟨(⟨0⟩, [Graph.tiny, 0], 0), by decide +kernel, by decide⟩
      (by decide)
    exact absurd h (by decide)

end IshaVectorDb.Index
