import IshaVectorDb.Correctness.Found
import IshaVectorDb.Correctness.NearSearch
import IshaVectorDb.Correctness.Returning

/-!
# `Correctness.SharedIndex` — a search through the index that **collections share**

The graph in memory outlives the writes that it was built from, and every collection of a database prepares the same one. A
search through it is right wherever the prepare before it takes over nothing stale (`HnswIndex.Fresh`): then every hit is a
document that its collection has, once, with its own score, after any run in which the collections are changed and searched in
turn (`IndexRun.search_sound`). The graph is not asked for more than that: one that is too large is not searched at all, and one
that is too small is built anew.
-/

namespace IshaVectorDb.Engine

open Format Interaction Index KeyLog Correctness Beam

namespace HnswIndex

section Fresh

variable {M : Machine} {p params : HnswParams} {g : Graph} {source : VectorSource} {metric : Metric} {stored : Option Bytes}

/-- **What a graph in memory was made of**: rows of any collection, as they were then. -/
def Made (g : Graph) : Prop :=
  g = .default ∨ ∃ rows dimension metric, Mirrors g rows dimension metric ∧ ∀ r ∈ rows, r.2.1.length = dimension

/-- **The nodes are the first of the rows**: the row, the vector and the reciprocal norm of each. -/
def Begins (g : Graph) (rows : List DecodedRow) : Prop :=
  ∀ (n : Nat) (r : DecodedRow), n < g.len → rows[n]? = some r →
    g.rows[n]? = some r.1 ∧ g.vector n = some r.2.1 ∧ g.invNorms[n]? = some r.2.2

/-- **Nothing stale is taken over**: a graph for this metric and dimension that is kept for the number of its nodes, or extended
    for want of a snapshot, has the rows' own vectors. -/
def Fresh (params : HnswParams) (source : VectorSource) (metric : Metric) (stored : Option Bytes) (g : Graph) : Prop :=
  g.metric = some metric → g.dimension = source.dimension.toNat →
    g.len = source.len ∨ g.isPrefixOf source.decodeRows source.dimension.toNat metric = true ∧
      restore params metric source.dimension.toNat source.len source.decodeRows stored = none →
    Begins g source.decodeRows

/-- A graph for vectors at all was made of rows. -/
theorem Made.rows (h : Made g) {dimension : Nat} (hmetric : g.metric = some metric) (hdim : g.dimension = dimension) :
    ∃ rows, Mirrors g rows dimension metric ∧ ∀ r ∈ rows, r.2.1.length = dimension := by
  rcases h with rfl | ⟨rows, dimension', metric', hmirrors, hdims⟩
  · cases hmetric
  · obtain rfl := Option.some.inj (hmirrors.metric_eq.symm.trans hmetric)
    obtain rfl := hmirrors.dimension_eq.symm.trans hdim
    exact ⟨rows, hmirrors, hdims⟩

/-- A graph was made of the rows that it begins with. -/
theorem Begins.rows {rows before : List DecodedRow} (h : Begins g rows) {dimension : Nat} (hmade : Mirrors g before dimension metric)
    (hdims : ∀ r ∈ before, r.2.1.length = dimension) (hfew : g.len ≤ rows.length) : before = rows.take g.len := by
  refine List.ext_getElem? (fun n => ?_)
  have hlen := hmade.len
  by_cases hn : n < g.len
  · obtain ⟨r, hr⟩ : ∃ r, rows[n]? = some r := ⟨_, List.getElem?_eq_getElem (by omega)⟩
    obtain ⟨b, hb⟩ : ∃ b, before[n]? = some b := ⟨_, List.getElem?_eq_getElem (by omega)⟩
    obtain ⟨hrow, hvector, hnorm⟩ := h n _ hn hr
    rw [hmade.rows_eq, List.getElem?_map, hb] at hrow
    rw [hmade.vector hdims hb] at hvector
    rw [hmade.invNorms_eq, List.getElem?_map, hb] at hnorm
    rw [List.getElem?_take_of_lt hn, hr, hb]
    exact congrArg some (Prod.ext (Option.some.inj hrow) (Prod.ext (Option.some.inj hvector) (Option.some.inj hnorm)))
  · rw [List.getElem?_eq_none (by omega), List.getElem?_eq_none (by rw [List.length_take]; omega)]

/-- A graph that is extended was made of rows, and so is what it becomes. -/
theorem Made.extended (h : Made g) (hfirst : g.isPrefixOf source.decodeRows source.dimension.toNat metric = true) :
    ∃ rows, Mirrors g rows source.dimension.toNat metric ∧ (∀ r ∈ rows, r.2.1.length = source.dimension.toNat) ∧
      Mirrors (g.extend (hnswLinking M p) (source.decodeRows.drop g.len)) (rows ++ source.decodeRows.drop g.len)
        source.dimension.toNat metric := by
  obtain ⟨hmetric, hdim, -⟩ := isPrefixOf_iff.mp hfirst
  obtain ⟨rows, hmirrors, hdims⟩ := h.rows hmetric hdim
  exact ⟨rows, hmirrors, hdims, hmirrors.extend (fun r hr => VectorSource.dims (List.mem_of_mem_drop hr))⟩

/-- **A prepare leaves a graph of rows**, for this metric and dimension. -/
theorem Made.prepared (h : Made g) (stored : Option Bytes) : ∃ rows,
    Mirrors (prepared (hnswLinking M p) params source metric stored g) rows source.dimension.toNat metric ∧
      ∀ r ∈ rows, r.2.1.length = source.dimension.toNat := by
  generalize hnew : HnswIndex.prepared (hnswLinking M p) params source metric stored g = new
  have htaken : Taken (hnswLinking M p) params source metric stored g new := hnew ▸ prepared_taken
  cases htaken with
  | kept hmetric hdim => exact h.rows hmetric hdim
  | larger hmetric hdim => exact h.rows hmetric hdim
  | extended hfirst =>
    obtain ⟨rows, -, hdims, hmirrors⟩ := @Made.extended M p _ _ _ h hfirst
    refine ⟨_, hmirrors, fun r hr => ?_⟩
    rcases List.mem_append.mp hr with hold | hnew
    · exact hdims r hold
    · exact VectorSource.dims (List.mem_of_mem_drop hnew)
  | made hnew => exact ⟨_, hnew, fun r hr => VectorSource.dims hr⟩

/-- **Where nothing stale is taken over**, a graph with as many nodes as there are rows mirrors them. -/
theorem Fresh.prepared (h : Fresh params source metric stored g) (hmade : Made g) (hcount : source.decodeRows.length = source.len)
    (hlen : (prepared (hnswLinking M p) params source metric stored g).len = source.len) :
    Mirrors (prepared (hnswLinking M p) params source metric stored g) source.decodeRows source.dimension.toNat metric := by
  generalize hnew : HnswIndex.prepared (hnswLinking M p) params source metric stored g = new at hlen ⊢
  have htaken : Taken (hnswLinking M p) params source metric stored g new := hnew ▸ prepared_taken
  cases htaken with
  | kept hmetric hdim =>
    obtain ⟨rows, hmirrors, hdims⟩ := hmade.rows hmetric hdim
    have hrows := (h hmetric hdim (.inl hlen)).rows hmirrors hdims (by omega)
    rw [List.take_of_length_le (by omega)] at hrows
    exact hrows ▸ hmirrors
  | larger hmetric hdim hmore => omega
  | extended hfirst hnone =>
    obtain ⟨hmetric, hdim, hhandles⟩ := isPrefixOf_iff.mp hfirst
    have hfew := congrArg List.length hhandles
    rw [List.length_map, List.length_take] at hfew
    obtain ⟨rows, hmirrors, hdims, hextended⟩ := @Made.extended M p _ _ _ hmade hfirst
    have hrows := (h hmetric hdim (.inr ⟨hfirst, hnone⟩)).rows hmirrors hdims (by unfold Graph.len at hfew ⊢; omega)
    rwa [hrows, List.take_append_drop] at hextended
  | made hnew => exact hnew

end Fresh

end HnswIndex

/-! ## What a search finds -/

section Open

variable {invNorm : InvNorm} {durability : Durability} {sess : Session} {g : Ghost} {img : Image} {dimension : UInt32}
  {c : CollectionSource} (h : MemInv invNorm durability sess.coll g img) (hfew : sess.segments.length < 2 ^ 32)
  (hbuild : CollectionSource.build sess dimension = .ok c) {place : DocId → RowId × UInt32}
  (hplace : ∀ id d, g.docs id = some d → ((place id).1, d.vector, (place id).2) ∈ c.forEach ∧ c.Shows (place id).1 (place id).2 id d)
include h hfew hbuild hplace

/-- **What a scan that ends well has offered** are rows of the collection, whatever the filter and the budget. -/
theorem MemInv.scan_shows {q : Query} (hrows : q.rows = c.forEach) (hk : q.topK ≠ 0) {score : Bytes → UInt32 → UInt32} {n : Nat}
    {out : TopK} {r : TopK × Nat} (hscan : Index.ExactScan.search score q n out = .ok r) :
    ∃ offered, r.1 = out.offerAll offered ∧ Offers g.docs c place (fun _ => true) (fun id d => score d.vector (place id).2) offered := by
  unfold Index.ExactScan.search at hscan
  rw [if_neg hk] at hscan
  obtain ⟨s, hs, hscan⟩ := Parsing.except_bind_eq_ok.mp hscan
  obtain ⟨charged, -, hscan⟩ := Parsing.except_bind_eq_ok.mp hscan
  obtain rfl := Except.ok.inj hscan
  refine ⟨_, scanRows_ok q.rows hs, ?_⟩
  have hall : Offers g.docs c place (fun _ => true) (fun id d => score d.vector (place id).2)
      ((c.forEach.filter (fun _ => true)).map (fun r => ⟨r.1, score r.2.1 r.2.2⟩)) :=
    h.offers hfew hbuild hplace (fun _ _ _ _ _ => rfl) score
  refine hall.sublist ?_
  unfold scanned
  rw [hrows, List.filter_eq_self.mpr (fun _ _ => rfl : ∀ r ∈ c.forEach, (fun _ => true) r = true)]
  exact List.filter_sublist.map _

/-- **What a search through a sound graph has offered** are rows of the collection, if a graph with as many nodes as there are rows
    mirrors them. -/
theorem MemInv.graph_shows (M : Machine) (rowScore : RowScore) (p : HnswParams) (outside : Except DbError (List Index.Candidate))
    {graph : Graph} (hsound : graph.Sound) {request : SearchRequest} (hk : request.topK ≠ 0) (budget : Budget)
    (hmirrors : graph.len = c.len → HnswIndex.Mirrors graph c.asVectorSource.decodeRows c.dimension.toNat
      (request.metric.getD sess.catalog.metric)) {found : List Index.Candidate}
    (hscan : graphScan M rowScore p outside graph (request.ctx sess c budget) = .ok found) :
    ∃ score offered, (score = (fun id d => rowScore (request.metric.getD sess.catalog.metric) request.vector.toF32 d.vector (place id).2) ∨
        score = fun id d => M.score (request.metric.getD sess.catalog.metric) request.vector.toF32
          (CollectionSource.decodeRow d.vector c.dimension.toNat) (place id).2) ∧
      Offers g.docs c place (fun _ => true) score offered ∧ found = TopK.bestOf request.topK request.minScore offered := by
  set ctx := request.ctx sess c budget with hctx
  obtain ⟨r, hrun, -⟩ := Index.HnswIndex.search_ends M rowScore p (asQuery ctx) hsound (TopK.new ctx.topK ctx.minScore)
  unfold graphScan at hscan
  rw [hrun] at hscan
  rcases r with e | ⟨out, n⟩
  · cases hscan
  obtain rfl : out.intoSorted = found := Except.ok.inj hscan
  rcases Index.HnswIndex.search_answer hk hrun with ⟨m, hfallback⟩ | ⟨hfits, found, cs, hfound, hcs⟩
  · obtain ⟨offered, htop, hoffers⟩ := h.scan_shows hfew hbuild hplace (q := asQuery ctx) rfl hk hfallback
    exact ⟨_, offered, .inl rfl, hoffers, (congrArg TopK.intoSorted htop).trans (TopK.intoSorted_offerAll _ _ _)⟩
  · unfold Index.HnswIndex.fits at hfits
    simp only [Bool.and_eq_true, decide_eq_true_eq] at hfits
    have hoffers := h.found_shows hfew hbuild (hmirrors hfits.1.1.1) hplace (q := asQuery ctx) rfl hfound
    exact ⟨_, cs, .inr rfl, hoffers, (congrArg TopK.intoSorted hcs).trans (TopK.intoSorted_offerAll _ _ _)⟩

end Open

/-! ## Runs -/

/-- The index that the collections of a database share. -/
def sharedIndex (M : Machine) (rowScore : RowScore) (params : HnswParams) (outside : Except DbError (List Index.Candidate)) :
    VectorIndex Graph :=
  HnswIndex (hnswLinking M params.orDefault) params (graphScan M rowScore params.orDefault outside)

/-- **A run of a database and of the index that its collections share**: they are changed, and searched in turn; and the database is
    opened again, with the same index or a new one. `usable` says of which graphs a search may prepare which rows, and with which
    snapshot stored. -/
inductive IndexRun (usable : VectorSource → Metric → Option Bytes → Graph → Prop) (invNorm : InvNorm) (index : VectorIndex Graph) :
    Site → Graph → (Str → Option DocMap) → Prop
  | start (config : Config) (now counter : UInt64) {db : Database} {t : MemoryStorage}
      (hrun : (Database.open ⟨config, now, invNorm⟩ counter ()).run device MemoryStorage.new = ((.ok db, ()), t)) :
      IndexRun usable invNorm index ⟨config, db, t⟩ .default (fun _ => none)
  | step {p p' : Site} {graph : Graph} {M M' : Str → Option DocMap} (h : IndexRun usable invNorm index p graph M)
      (hstep : Step (fun _ => True) Edit.Fits invNorm p M p' M') : IndexRun usable invNorm index p' graph M'
  | renew {p : Site} {graph : Graph} {M : Str → Option DocMap} (h : IndexRun usable invNorm index p graph M) :
      IndexRun usable invNorm index p .default M
  | searched {p : Site} {graph : Graph} {M : Str → Option DocMap} (h : IndexRun usable invNorm index p graph M) {name : Str}
      {sess : Session} (hsess : p.db.session name = some sess) (request : SearchRequest) (budget : Budget)
      (husable : ∀ c, CollectionSource.build sess sess.catalog.dimension = .ok c → usable c.asVectorSource
        (request.metric.getD sess.catalog.metric) (storedPayload p.storage name .hnsw) graph)
      {r : Except DbError (List Hit)} {x : Searching Graph} {t : MemoryStorage}
      (hrun : (search index request budget ⟨graph, sess⟩).run device p.storage = ((r, x), t)) :
      IndexRun usable invNorm index ⟨p.config, p.db, t⟩ x.graph M

section Run

variable {invNorm : InvNorm} {M : Machine} {rowScore : RowScore} {params : HnswParams}
  {outside : Except DbError (List Index.Candidate)} {p : Site} {graph : Graph} {docs : Str → Option DocMap}

/-- **What a search does to the index**: nothing if its request fails a check; else the graph is prepared for the collection's rows,
    and hits are made of what the search of it finds. -/
theorem search_prepares {sess : Session} {c : CollectionSource}
    (hbuild : CollectionSource.build sess sess.catalog.dimension = .ok c) (request : SearchRequest) (budget : Budget)
    (graph : Graph) (s : MemoryStorage) :
    Ends device (search (sharedIndex M rowScore params outside) request budget) ⟨graph, sess⟩ s (fun r x t =>
      x.graph = graph ∧ (∀ hits, r ≠ .ok hits) ∨
      request.check sess = .ok () ∧ x.graph = HnswIndex.prepared (hnswLinking M params.orDefault) params.orDefault c.asVectorSource
          (request.metric.getD sess.catalog.metric) (storedPayload s sess.name .hnsw) graph ∧
        ∀ hits, r = .ok hits → ∃ found, graphScan M rowScore params.orDefault outside x.graph (request.ctx sess c budget) = .ok found ∧
          hitsOf c request.inc found = .ok hits) := by
  have hplan := planSearch_eq hbuild request budget
  refine Ends.get_bind (Ends.lift_bind (fun ctx hctx => ?_) (fun e _ => .inl ⟨rfl, fun hits hr => by cases hr⟩))
  rw [hplan] at hctx
  cases hcheck : request.check sess with
  | error e =>
    rw [hcheck] at hctx
    cases hctx
  | ok u =>
    rw [hcheck] at hctx
    obtain rfl := Except.ok.inj hctx
    have hprepared : Ends device (Proc.zoom Searching.graph (fun g x => { x with graph := g })
        ((sharedIndex M rowScore params outside).prepare c (request.metric.getD sess.catalog.metric)
          (StoredSnapshots.new sess.name .hnsw))) ⟨graph, sess⟩ s
        (fun r x _ => r = .ok () ∧ x.graph = HnswIndex.prepared (hnswLinking M params.orDefault) params.orDefault c.asVectorSource
          (request.metric.getD sess.catalog.metric) (storedPayload s sess.name .hnsw) graph) :=
      Ends.zoom ((HnswIndex.prepare_ends (hnswLinking M params.orDefault) params.orDefault c.asVectorSource
        (request.metric.getD sess.catalog.metric) sess.name graph s).mono (fun r g t hr => hr))
    refine hprepared.seq (fun u x t hr => ?_) (fun e x t hr => by cases hr.1)
    refine Ends.get_bind (Ends.lift_bind (fun found hfound => ?_) (fun e _ => .inr ⟨rfl, hr.2, fun hits hh => by cases hh⟩))
    exact Ends.lift (.inr ⟨rfl, hr.2, fun hits hh => ⟨found, hfound, hh⟩⟩)

/-- **The graph in memory was made of rows**, and the site stands for the documents, after every run. -/
theorem IndexRun.holds {usable : VectorSource → Metric → Option Bytes → Graph → Prop}
    (h : IndexRun usable invNorm (sharedIndex M rowScore params outside) p graph docs) :
    HnswIndex.Made graph ∧ ∃ G, p.Stands .live invNorm G ∧ docsOf G = docs := by
  induction h with
  | start config now counter hrun => exact ⟨.inl rfl, _, .new (.inl rfl) hrun, rfl⟩
  | step _ hstep ih =>
    exact ⟨ih.1, hstep.stands (fun _ _ => .inl rfl) (fun _ _ _ hfits => hfits) ih.2⟩
  | renew _ ih => exact ⟨.inl rfl, ih.2⟩
  | @searched p graph docs _ name sess hsess request budget _ r x t hrun ih =>
    obtain ⟨hmade, G, hst, hdocs⟩ := ih
    obtain ⟨g, -, hstate⟩ := hst.session hsess 0
    obtain ⟨c, hbuild⟩ := hstate.live.mem.build_ok sess.catalog.dimension
    refine ⟨?_, G, ?_, hdocs⟩
    · have hends := (@search_prepares M rowScore params outside _ _ hbuild request budget graph p.storage).of_run hrun
      rcases hends with ⟨hsame, -⟩ | ⟨-, hprepared, -⟩
      · exact hsame ▸ hmade
      · obtain ⟨rows, hmirrors, hdims⟩ := @HnswIndex.Made.prepared M params.orDefault params.orDefault graph c.asVectorSource
          (request.metric.getD sess.catalog.metric) hmade (storedPayload p.storage sess.name .hnsw)
        rw [hprepared]
        exact .inr ⟨rows, _, _, hmirrors, hdims⟩
    · have hstays : (search (sharedIndex M rowScore params outside) request budget ⟨graph, sess⟩).Stays device
          (Beside sess.name p.storage) (fun _ => True) := search_stays _ _ _ request budget graph sess
      have hbeside := (hstays.run_whole (Beside.refl sess.name (hst.state 0).shape)).2
      rw [hrun] at hbeside
      exact hst.beside hbeside

/-- **A search through the shared index is right where nothing stale is taken over.** After every run whose searches are such, with
    any filter and budget: the hits are documents that the collection has, each once, as it is, with the score of its vector, best
    first and no more than asked for. -/
theorem IndexRun.search_sound (h : IndexRun (HnswIndex.Fresh params.orDefault) invNorm (sharedIndex M rowScore params outside) p graph docs)
    {name : Str} {sess : Session} (hsess : p.db.session name = some sess) (hfew : sess.segments.length < 2 ^ 32) :
    ∃ (d : DocMap) (c : CollectionSource) (place : DocId → RowId × UInt32), docs name = some d ∧ sess.Refines d ∧
      CollectionSource.build sess sess.catalog.dimension = .ok c ∧
      (∀ id doc, d id = some doc → c.Shows (place id).1 (place id).2 id doc) ∧
      ∀ request budget, HnswIndex.Fresh params.orDefault c.asVectorSource (request.metric.getD sess.catalog.metric)
          (storedPayload p.storage name .hnsw) graph →
        ∀ hits x t, (search (sharedIndex M rowScore params outside) request budget ⟨graph, sess⟩).run device p.storage =
            ((.ok hits, x), t) →
          ∃ score, (score = (fun id doc => rowScore (request.metric.getD sess.catalog.metric) request.vector.toF32 doc.vector (place id).2) ∨
              score = fun id doc => M.score (request.metric.getD sess.catalog.metric) request.vector.toF32
                (CollectionSource.decodeRow doc.vector c.dimension.toNat) (place id).2) ∧
            SoundHits d (fun _ => true) score request.topK request.minScore request.inc hits := by
  obtain ⟨hmade, G, hst, rfl⟩ := h.holds
  obtain ⟨g, rfl, hstate⟩ := hst.session hsess 0
  have hmem := hstate.live.mem
  have hname : sess.name = g.name := congrArg Catalog.name hmem.catalog
  obtain ⟨c, hbuild⟩ := hmem.build_ok sess.catalog.dimension
  obtain ⟨place, hplace⟩ := hmem.exists_place hfew hbuild
  refine ⟨g.docs, c, place, ?_, hmem.refines, hbuild, fun id d hd => (hplace id d hd).2, fun request budget hfresh hits x t hrun => ?_⟩
  · unfold docsOf
    rw [hstate.live.here]
    rfl
  · have hends := (@search_prepares M rowScore params outside _ _ hbuild request budget graph p.storage).of_run hrun
    rcases hends with ⟨-, hno⟩ | ⟨hcheck, hprepared, hok⟩
    · exact absurd rfl (hno hits)
    obtain ⟨found, hscan, hhits⟩ := hok hits rfl
    have hcount : c.asVectorSource.decodeRows.length = c.asVectorSource.len := (List.length_map _).trans (hmem.source_len hfew hbuild)
    obtain ⟨rows, hgraph, -⟩ := @HnswIndex.Made.prepared M params.orDefault params.orDefault graph c.asVectorSource
      (request.metric.getD sess.catalog.metric) hmade (storedPayload p.storage sess.name .hnsw)
    rw [← hname] at hfresh
    obtain ⟨score, offered, hscore, hoffers, rfl⟩ := hmem.graph_shows hfew hbuild hplace M rowScore params.orDefault outside
      (hprepared ▸ hgraph.sound) (request.topK_ne hcheck) budget
      (fun hlen => hprepared ▸ hfresh.prepared hmade hcount (hprepared ▸ hlen)) hscan
    obtain ⟨hits', hhits', hsound, -⟩ := hoffers.hits request.topK request.minScore request.inc
    obtain rfl := Except.ok.inj (hhits'.symm.trans hhits)
    exact ⟨score, hscore, hsound⟩

theorem IndexRun.of_run {usable : VectorSource → Metric → Option Bytes → Graph → Prop} {index : VectorIndex Graph}
    (h : Run (fun _ => True) Edit.Fits invNorm p docs) : IndexRun usable invNorm index p .default docs := by
  induction h with
  | start config now counter _ hrun => exact .start config now counter hrun
  | step _ hstep ih => exact ih.step hstep

end Run

section Example

variable {usable : VectorSource → Metric → Option Bytes → Graph → Prop} {p : Site} {graph : Graph} {M : Str → Option DocMap}

/-- The index, over numbers that are whole. -/
def wholeIndex : VectorIndex Graph := sharedIndex .whole (byComponents .whole) .default (.ok [])

/-- The two documents nearest to the origin. -/
def nearestTwo : SearchRequest := ⟨.f32 [0], 2, none, none, none, ⟨false, false, false⟩, ⟨none, none⟩⟩

/-- A document at a point of the line. -/
def pointAt (id : DocId) (vector : List UInt32) : DocumentInput := ⟨id, .f32 vector, none, none⟩

/-- How a search of the collection ends. -/
def searchRun (graph : Graph) (p : Site) : Option ((Except DbError (List Hit) × Searching Graph) × MemoryStorage) :=
  (p.db.session theSpec.name).map (fun sess => (search wholeIndex nearestTwo ⟨false, none⟩ ⟨graph, sess⟩).run device p.storage)

/-- The identifiers of the hits, and their scores. -/
def hitsSeen (graph : Graph) (p : Site) : Option (Option (List (DocId × UInt32))) :=
  (searchRun graph p).map (fun r => r.1.1.toOption.map (List.map (fun hit => (hit.id, hit.score))))

/-- The storage and the graph after the search. -/
def afterSearch (graph : Graph) (p : Site) : Site × Graph :=
  ((searchRun graph p).map (fun r => (⟨fullConfig, p.db, r.2⟩, r.1.2.graph))).getD (p, graph)

/-- A document at 1. -/
def pointSite : Site := afterWrite madeSite (.upsert (pointAt HnswIndex.docA HnswIndex.oneVector))

/-- It has been searched for. -/
def foundSite : Site × Graph := afterSearch .default pointSite

/-- It has been moved to 2. -/
def movedSite : Site := afterWrite foundSite.1 (.upsert (pointAt HnswIndex.docA HnswIndex.twoVector))

/-- There is another one at 2. -/
def pairSite : Site := afterWrite foundSite.1 (.upsert (pointAt HnswIndex.docB HnswIndex.twoVector))

/-- The first of a collection's rows. -/
def firstRow (sess : Session) : Option (RowId × List UInt32 × UInt32) :=
  ((CollectionSource.build sess sess.catalog.dimension).toOption).bind (fun c => c.asVectorSource.decodeRows.head?)

/-- **What the runs of the examples show.** -/
@[mk_iff]
structure SharedSeen : Prop where
  roomy : roomyAt madeSite (.upsert (pointAt HnswIndex.docA HnswIndex.oneVector)) = true
  roomy_moved : roomyAt foundSite.1 (.upsert (pointAt HnswIndex.docA HnswIndex.twoVector)) = true
  roomy_pair : roomyAt foundSite.1 (.upsert (pointAt HnswIndex.docB HnswIndex.twoVector)) = true
  there : (pointSite.db.session theSpec.name).isSome = true
  own : byComponents .whole .l2 nearestTwo.vector.toF32 (pointAt HnswIndex.docA HnswIndex.twoVector).stored.vector 0 = 0xC0800000
  moved : (writeRun foundSite.1 (.upsert (pointAt HnswIndex.docA HnswIndex.twoVector))).1.1.isOk = true
  stale : hitsSeen foundSite.2 movedSite = some (some [(HnswIndex.docA, 0xBF800000)])
  pair : hitsSeen foundSite.2 pairSite = some (some [(HnswIndex.docA, 0xBF800000), (HnswIndex.docB, 0xC0800000)])
  nodes : foundSite.2.rows = [RowId.new memtableSegment 0] ∧ foundSite.2.vector 0 = some HnswIndex.oneVector ∧
    foundSite.2.invNorms = [0]
  segments : (pairSite.db.session theSpec.name).map (fun sess => sess.segments.length) = some 0
  rows : (pairSite.db.session theSpec.name).map firstRow = some (some (RowId.new memtableSegment 0, HnswIndex.oneVector, 0))

theorem sharedSeen : SharedSeen := sharedSeen_iff.mpr (by decide +kernel)

/-- One edit more. -/
theorem IndexRun.afterWrite {index : VectorIndex Graph} (h : IndexRun usable zeroNorm index p graph M) (hconfig : p.config = fullConfig)
    {e : Edit} (hroomy : roomyAt p e = true) : IndexRun usable zeroNorm index (afterWrite p e) graph
      (Function.update M theSpec.name ((M theSpec.name).map (e.leaves (writeRun p e).1.1))) := by
  obtain ⟨sess, hsess, hfits⟩ := roomyAt_session hroomy
  obtain ⟨config, db, storage⟩ := p
  cases hconfig
  exact h.step (.edit 0 theSpec.name e hsess hfits rfl)

/-- One search more. -/
theorem IndexRun.afterSearch (h : IndexRun usable zeroNorm wholeIndex p graph M) (hconfig : p.config = fullConfig) {sess : Session}
    (hsess : p.db.session theSpec.name = some sess)
    (husable : ∀ c, CollectionSource.build sess sess.catalog.dimension = .ok c → usable c.asVectorSource
      (nearestTwo.metric.getD sess.catalog.metric) (storedPayload p.storage theSpec.name .hnsw) graph) :
    IndexRun usable zeroNorm wholeIndex (afterSearch graph p).1 (afterSearch graph p).2 M := by
  unfold Engine.afterSearch searchRun
  rw [hsess]
  obtain ⟨config, db, storage⟩ := p
  cases hconfig
  exact h.searched hsess nearestTwo ⟨false, none⟩ husable rfl

/-- The point is searched for, with an index that has prepared nothing yet. -/
theorem foundSite_run (husable : ∀ source metric stored, usable source metric stored .default) :
    ∃ M docs, IndexRun usable zeroNorm wholeIndex foundSite.1 foundSite.2 M ∧ M theSpec.name = some docs := by
  have hmade : IndexRun usable zeroNorm wholeIndex madeSite .default _ := .of_run (madeSite_run (fun _ => True) Edit.Fits trivial)
  have hpoint := hmade.afterWrite rfl (SharedSeen.roomy sharedSeen)
  obtain ⟨sess, hsess⟩ := Option.isSome_iff_exists.mp (SharedSeen.there sharedSeen)
  refine ⟨_, (Edit.upsert (pointAt HnswIndex.docA HnswIndex.oneVector)).leaves (writeRun madeSite
      (.upsert (pointAt HnswIndex.docA HnswIndex.oneVector))).1.1 noDocs,
    hpoint.afterSearch rfl hsess (fun c _ => husable _ _ _), ?_⟩
  rw [Function.update_self, Function.update_self, Option.map_some]

theorem foundSite_config : foundSite.1.config = fullConfig := by
  unfold foundSite Engine.afterSearch
  cases searchRun .default pointSite <;> rfl

/-- What a search finds. -/
theorem searchRun_hits {seen : List (DocId × UInt32)} (h : hitsSeen graph p = some (some seen)) :
    ∃ sess hits x t, p.db.session theSpec.name = some sess ∧
      (search wholeIndex nearestTwo ⟨false, none⟩ ⟨graph, sess⟩).run device p.storage = ((.ok hits, x), t) ∧
      hits.map (fun hit => (hit.id, hit.score)) = seen := by
  unfold hitsSeen searchRun at h
  cases hsess : p.db.session theSpec.name with
  | none => rw [hsess] at h; cases h
  | some sess =>
    rw [hsess] at h
    rcases hrun : (search wholeIndex nearestTwo ⟨false, none⟩ ⟨graph, sess⟩).run device p.storage with ⟨⟨r, x⟩, t⟩
    rw [Option.map_some, Option.map_some, hrun] at h
    cases r with
    | error e => cases h
    | ok hits => exact ⟨sess, hits, x, t, rfl, hrun, Option.some.inj (Option.some.inj h)⟩

/-- **A document's vector is replaced** between two searches: the second returns the document with the score of the vector that it
    had, which is still in the graph. -/
theorem search_scores_stale : ¬ ∀ p graph M, IndexRun (fun _ _ _ _ => True) zeroNorm wholeIndex p graph M → ∀ name sess docs,
    p.db.session name = some sess → M name = some docs → ∀ request hits x t,
      (search wholeIndex request ⟨false, none⟩ ⟨graph, sess⟩).run device p.storage = ((.ok hits, x), t) →
        ∀ hit ∈ hits, ∃ doc norm, docs hit.id = some doc ∧
          hit.score = byComponents .whole (request.metric.getD sess.catalog.metric) request.vector.toF32 doc.vector norm := by
  intro hall
  obtain ⟨M, docs, hrun, hdocs⟩ := @foundSite_run (fun _ _ _ _ => True) (fun _ _ _ => trivial)
  have hmoved := hrun.afterWrite foundSite_config (SharedSeen.roomy_moved sharedSeen)
  obtain ⟨sess, hits, x, t, hsess, hsearch, hseen⟩ := searchRun_hits (SharedSeen.stale sharedSeen)
  obtain ⟨hit, hh, hpair⟩ : ∃ hit ∈ hits, (hit.id, hit.score) = (HnswIndex.docA, 0xBF800000) :=
    List.mem_map.mp (hseen ▸ List.mem_singleton_self _)
  obtain ⟨hid, hscore⟩ := Prod.mk.inj hpair
  obtain ⟨doc, norm, hdoc, hown⟩ := hall _ _ _ hmoved theSpec.name sess _ hsess
    (by rw [Function.update_self, hdocs, Option.map_some]) nearestTwo hits x t hsearch hit hh
  rw [hid, Edit.leaves_of_isOk (SharedSeen.moved sharedSeen)] at hdoc
  have hnow : replay docs (Edit.upsert (pointAt HnswIndex.docA HnswIndex.twoVector)).writes HnswIndex.docA =
      some (pointAt HnswIndex.docA HnswIndex.twoVector).stored := Function.update_self HnswIndex.docA _ docs
  obtain rfl := Option.some.inj (hnow.symm.trans hdoc)
  rw [hscore] at hown
  -- the score asks for no norm
  have hsame : (0xBF800000 : UInt32) = 0xC0800000 := hown.trans (SharedSeen.own sharedSeen)
  exact absurd hsame (by decide)

/-- Another document is put between the two searches: the graph is extended, and both documents are found with their scores. -/
theorem search_sound_pair : ∃ sess docs hits x t score, pairSite.db.session theSpec.name = some sess ∧
    (search wholeIndex nearestTwo ⟨false, none⟩ ⟨foundSite.2, sess⟩).run device pairSite.storage = ((.ok hits, x), t) ∧
    hits.map (fun hit => (hit.id, hit.score)) = [(HnswIndex.docA, 0xBF800000), (HnswIndex.docB, 0xC0800000)] ∧
    sess.Refines docs ∧ SoundHits docs (fun _ => true) score 2 none ⟨false, false, false⟩ hits := by
  obtain ⟨M, _, hrun, -⟩ := @foundSite_run (HnswIndex.Fresh HnswParams.default.orDefault) (fun _ _ _ hmetric => by cases hmetric)
  have hpair := hrun.afterWrite foundSite_config (SharedSeen.roomy_pair sharedSeen)
  obtain ⟨sess, hits, x, t, hsess, hsearch, hseen⟩ := searchRun_hits (SharedSeen.pair sharedSeen)
  have hmade := SharedSeen.segments sharedSeen
  have hrow := SharedSeen.rows sharedSeen
  rw [hsess] at hmade hrow
  have hnone : sess.segments.length = 0 := Option.some.inj hmade
  have hfirst : firstRow sess = _ := Option.some.inj hrow
  obtain ⟨docs, c, place, -, href, hbuild, -, hsound⟩ := IndexRun.search_sound hpair hsess (by rw [hnone]; decide)
  unfold firstRow at hfirst
  rw [hbuild] at hfirst
  obtain ⟨hrows, hvector, hnorms⟩ := SharedSeen.nodes sharedSeen
  have hfresh : HnswIndex.Fresh HnswParams.default.orDefault c.asVectorSource (nearestTwo.metric.getD sess.catalog.metric)
      (storedPayload pairSite.storage theSpec.name .hnsw) foundSite.2 := fun _ _ _ n r hn hr => by
    have hzero : n = 0 := by
      unfold Graph.len at hn
      rw [hrows] at hn
      exact Nat.lt_one_iff.mp hn
    subst hzero
    rw [← List.head?_eq_getElem?] at hr
    obtain rfl := Option.some.inj (hr.symm.trans hfirst)
    rw [hrows, hnorms]
    exact ⟨rfl, hvector, rfl⟩
  obtain ⟨score, -, hhits⟩ := hsound nearestTwo ⟨false, none⟩ hfresh hits x t hsearch
  exact ⟨sess, docs, hits, x, t, score, hsess, hsearch, hseen, href, hhits⟩

end Example

end IshaVectorDb.Engine
