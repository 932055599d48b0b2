import IshaVectorDb.Beam.Scored
import IshaVectorDb.Correctness.ExactSearch
import IshaVectorDb.Correctness.Preparing

/-!
# `Correctness.NearSearch` — the **search through the graph** answers from the documents

A search with the navigable graph prepares it for the collection's rows, looks around in it, and scans where it finds too
little. Whatever snapshot is stored, and whatever the index was used for before, its hits are current documents that match,
each once with its own score, and as many of them as there should be (`Run.search_near`). The one thing asked of the graph in
memory is that it was made from the first of the collection's rows, if it is for the same metric and dimension at all.
-/

namespace IshaVectorDb.Index

open Format Beam Engine

/-! ## What a search of the graph offers -/

section Answering

variable {α β : Type}

/-- An answer of a sequence is one of its second part. -/
theorem answering_bind_ok {m : Answering α} {f : α → Answering β} {b : β} (h : (m >>= f) = some (.ok b)) :
    ∃ a, m = some (.ok a) ∧ f a = some (.ok b) := by
  rcases m with _ | (e | a)
  · cases h
  · cases h
  · exact ⟨a, rfl, h⟩

theorem reads_ok {o : Option α} {a : α} (h : Answering.reads o = some (.ok a)) : o = some a := by
  obtain ⟨b, hb, heq⟩ := Option.map_eq_some_iff.mp h
  exact hb.trans (congrArg some (Except.ok.inj heq))

theorem checks_ok {r : Except DbError α} {a : α} (h : Answering.checks r = some (.ok a)) : r = .ok a := Option.some.inj h

end Answering

namespace HnswIndex

variable {M : Machine} {rowScore : RowScore} {p : HnswParams} {g : Graph} {q : Query}

/-- **What the beam found**: distinct nodes with their own scores. Those of their rows that may be returned are enough, or the
    beam has been everywhere. -/
structure Found (M : Machine) (g : Graph) (q : Query) (found : List (Scored Nat UInt32)) (cs : List Candidate) : Prop where
  scored : ∀ c ∈ found, c.node < g.len ∧ g.scoreOf M q.metric q.vector c.node = some c.score
  distinct : (found.map Scored.node).Nodup
  admitted : admitted g q found = .ok cs
  enough : q.topK ≤ cs.length ∨ g.len ≤ found.length

/-- **An answer** is a scan's, or offers what the beam found in a graph that fits the query. -/
theorem search_answer {out : TopK} {r : TopK × Nat} (hk : q.topK ≠ 0) (h : search M rowScore p g q out = some (.ok r)) :
    (∃ n, fallback rowScore q n out = .ok r) ∨
      fits g q = true ∧ ∃ found cs, Found M g q found cs ∧ r.1 = out.offerAll cs := by
  unfold search searchBy at h
  rw [if_neg hk] at h
  split at h
  · exact .inl ⟨0, checks_ok h⟩
  · rename_i hfits
    cases hentry : g.entry with
    | none =>
      rw [hentry] at h
      exact .inl ⟨0, checks_ok h⟩
    | some entry =>
      rw [hentry] at h
      obtain ⟨score, -, h⟩ := answering_bind_ok h
      obtain ⟨⟨current, m⟩, -, h⟩ := answering_bind_ok h
      obtain ⟨found, hfound, h⟩ := answering_bind_ok h
      obtain ⟨scanned, -, h⟩ := answering_bind_ok h
      obtain ⟨cs, hadmitted, h⟩ := answering_bind_ok h
      obtain ⟨hscored, hdistinct⟩ := search_scored (reads_ok hfound)
      split at h
      · exact .inl ⟨scanned, checks_ok h⟩
      · rename_i hmany
        obtain rfl := Except.ok.inj (Option.some.inj h)
        exact .inr ⟨by simpa using hfits, found, cs, ⟨fun c hc => ⟨of_decide_eq_true (hscored c hc).1, (hscored c hc).2⟩,
          hdistinct, checks_ok hadmitted, by omega⟩, rfl⟩

/-- **A search of a sound graph** that nothing cancels, over rows on which the filter does not fail, answers. -/
theorem search_answers (hg : g.Sound) (hq : q.Unlimited) (hk : q.topK ≠ 0) (out : TopK)
    (hgraph : ∀ row ∈ g.rows, ∃ b, q.admits row = .ok b) (hrows : ∀ r ∈ q.rows, ∃ b, q.admits r.1 = .ok b) :
    ∃ r, search M rowScore p g q out = some (.ok r) := by
  obtain ⟨r, hrun, hends⟩ := search_ends M rowScore p q hg out
  have hno : ∀ {row : RowId} {e : DbError}, (∃ b, q.admits row = .ok b) → q.admits row ≠ .error e := by
    rintro row e ⟨b, hb⟩ he
    rw [hb] at he
    cases he
  cases hends with
  | nothing hzero => exact absurd hzero hk
  | scan n =>
    obtain ⟨m, hscan⟩ := @scan_offers (rowScore q.metric q.vector) q hq hk hrows n out
    rw [show fallback rowScore q n out = .ok _ from hscan] at hrun
    exact ⟨_, hrun⟩
  | cancelled e hlimited => exact absurd hq hlimited
  | failed found e hfailed =>
    obtain ⟨row, hrow, he⟩ := admitted_error hfailed
    exact absurd he (hno (hgraph row hrow))
  | found found cs n hin hnodup hadm henough => exact ⟨_, hrun⟩

/-- The candidates of the rows that are admitted. -/
theorem admitted_mem {found : List (Scored Nat UInt32)} {cs : List Candidate} (h : admitted g q found = .ok cs) {cand : Candidate}
    (hc : cand ∈ cs) : ∃ c ∈ found, g.rows[c.node]? = some cand.row ∧ cand.score = c.score := by
  induction found generalizing cs with
  | nil =>
    obtain rfl := Except.ok.inj h
    cases hc
  | cons c found ih =>
    have hlater : ∀ {others : List Candidate}, admitted g q found = .ok others → cand ∈ others →
        ∃ c' ∈ c :: found, g.rows[c'.node]? = some cand.row ∧ cand.score = c'.score := fun hothers hin => by
      obtain ⟨c', hc', hrest⟩ := ih hothers hin
      exact ⟨c', List.mem_cons_of_mem _ hc', hrest⟩
    unfold admitted at h
    cases hrow : g.rows[c.node]? with
    | none =>
      rw [hrow] at h
      exact hlater h hc
    | some row =>
      rw [hrow] at h
      obtain ⟨ok, -, h⟩ := Parsing.except_bind_eq_ok.mp h
      obtain ⟨others, hothers, h⟩ := Parsing.except_bind_eq_ok.mp h
      obtain rfl := Except.ok.inj h
      cases ok with
      | false => exact hlater hothers hc
      | true =>
        rcases List.mem_cons.mp hc with rfl | hin
        · exact ⟨c, List.mem_cons_self, hrow, rfl⟩
        · exact hlater hothers hin

end HnswIndex

end IshaVectorDb.Index

namespace IshaVectorDb.Engine

open Format Interaction Index KeyLog Correctness Beam

/-! ## Graphs that mirror rows -/

namespace HnswIndex

/-- **A graph mirrors rows**: they are its nodes, in their order, with their vectors and norms, for this metric. -/
structure Mirrors (g : Graph) (rows : List DecodedRow) (dimension : Nat) (metric : Metric) : Prop where
  sound : g.Sound
  rows_eq : g.rows = rows.map Prod.fst
  vectors_eq : g.vectors = rows.flatMap (fun r => r.2.1)
  invNorms_eq : g.invNorms = rows.map (fun r => r.2.2)
  dimension_eq : g.dimension = dimension
  metric_eq : g.metric = some metric

section Mirrors

variable {M : Machine} {p : HnswParams} {g : Graph} {rows : List DecodedRow} {dimension : Nat} {metric : Metric}

theorem Mirrors.len (h : Mirrors g rows dimension metric) : g.len = rows.length := by
  unfold Graph.len
  rw [h.rows_eq, List.length_map]

/-- An extension mirrors the rows behind those before. -/
theorem Mirrors.extend (h : Mirrors g rows dimension metric) {more : List DecodedRow} (hmore : ∀ r ∈ more, r.2.1.length = dimension) :
    Mirrors (g.extend (hnswLinking M p) more) (rows ++ more) dimension metric := by
  obtain ⟨hrows, hvectors, hnorms, -, hdim, hmetric⟩ := Graph.extend_nodes (hnswLinking M p) g more
  refine ⟨(h.sound.extend M metric p (fun r hr => (hmore r hr).trans h.dimension_eq.symm) h.metric_eq).2, ?_, ?_, ?_,
    hdim.trans h.dimension_eq, hmetric.trans h.metric_eq⟩
  · rw [hrows, h.rows_eq, List.map_append]
  · rw [hvectors, h.vectors_eq, List.flatMap_append]
  · rw [hnorms, h.invNorms_eq, List.map_append]

/-- A graph that is built mirrors its rows. -/
theorem Mirrors.built (hrows : ∀ r ∈ rows, r.2.1.length = dimension) :
    Mirrors (Graph.buildFrom (hnswLinking M p) rows dimension metric) rows dimension metric := by
  have hnew : Mirrors { Graph.default with dimension := dimension, metric := some metric } [] dimension metric :=
    ⟨(Graph.wellFormed_new p dimension metric).toSound, rfl, rfl, rfl, rfl, rfl⟩
  exact hnew.extend hrows

/-- **Whatever is stored**, a graph that is restored mirrors the rows that it is restored for. -/
theorem Mirrors.restored {params : HnswParams} {source : VectorSource} {stored : Option Bytes}
    (h : restore params metric source.dimension.toNat source.len source.decodeRows stored = some g) :
    Mirrors g source.decodeRows source.dimension.toNat metric := by
  obtain ⟨hmade, -⟩ := restored_spec h
  unfold restore at h
  obtain ⟨bytes, -, h⟩ := Option.bind_eq_some_iff.mp h
  obtain ⟨header, hheader, h⟩ := Option.bind_eq_some_iff.mp h
  split at h
  · have hsound := (Snapshot.decode_sound hheader h).1
    unfold Snapshot.decode at h
    split at h
    · cases h
    · obtain ⟨j, hrun⟩ := Snapshot.runCursor_eq_some.mp h
      have hnorms : Parsing.Yields (Snapshot.readBody header source.decodeRows)
          (fun g => g.invNorms = source.decodeRows.map (fun r => r.2.2)) := by
        unfold Snapshot.readBody
        exact .skip fun _ => .skip fun _ => .skip fun levels => .skip fun layers => .skip fun _ => .skip fun _ => .pure rfl
      exact ⟨hsound, hmade.rows, hmade.vectors, hnorms ⟨bytes, 0⟩ _ _ hrun, hmade.dimension, hmade.metric_eq⟩
  · cases h

/-- The vector of a node is its row's. -/
theorem Mirrors.vector (h : Mirrors g rows dimension metric) (hdims : ∀ r ∈ rows, r.2.1.length = dimension) {n : Nat}
    {r : DecodedRow} (hr : rows[n]? = some r) : g.vector n = some r.2.1 := by
  obtain ⟨hn, rfl⟩ := List.getElem?_eq_some_iff.mp hr
  unfold Graph.vector
  rw [h.vectors_eq, h.dimension_eq]
  exact Parsing.slice_chunk (f := fun r : DecodedRow => r.2.1) hdims hn

/-- **The score of a node** is that of its row. -/
theorem Mirrors.scoreOf (h : Mirrors g rows dimension metric) (hdims : ∀ r ∈ rows, r.2.1.length = dimension)
    (query : List UInt32) {n : Nat} {r : DecodedRow} (hr : rows[n]? = some r) :
    g.scoreOf M metric query n = some (M.score metric query r.2.1 r.2.2) := by
  unfold Graph.scoreOf
  rw [h.vector hdims hr, h.invNorms_eq, List.getElem?_map, hr]
  rfl

/-- A snapshot loads from any storage: there is one, or there is none. -/
theorem load_ends {σ : Type} (D : Device Call Call.Reply DbError σ) (name : Str) (kind : IndexKind) (s : σ) :
    Ends D (StoredSnapshots.load name kind) g s (fun r g' _ => (∃ stored, r = .ok stored) ∧ g' = g) := by
  have hany : ∀ (c : Call) (s : σ), Ends D (Proc.attempt (call c)) g s (fun r g' _ => (∃ v, r = .ok v) ∧ g' = g) :=
    fun c s => Ends.attempt (Ends.call rfl ⟨⟨_, rfl⟩, rfl⟩)
  have hread : ∀ (path : DbPath) (s : σ), Ends D (StoredSnapshots.read path) g s (fun r g' _ => (∃ found, r = .ok found) ∧ g' = g) := by
    intro path s
    refine (hany _ s).seq ?_ (fun e x' t hr => by obtain ⟨⟨v, hv⟩, -⟩ := hr; cases hv)
    rintro opened _ t ⟨-, rfl⟩
    cases opened with
    | error e => exact ⟨⟨_, rfl⟩, rfl⟩
    | ok file =>
      refine (hany _ t).seq ?_ (fun e x' t hr => by obtain ⟨⟨v, hv⟩, -⟩ := hr; cases hv)
      rintro found _ t ⟨-, rfl⟩
      cases found with
      | error e => exact ⟨⟨_, rfl⟩, rfl⟩
      | ok len =>
        dsimp only
        split
        · exact ⟨⟨_, rfl⟩, rfl⟩
        · refine (hany _ t).seq ?_ (fun e x' t hr => by obtain ⟨⟨v, hv⟩, -⟩ := hr; cases hv)
          rintro bytes _ t ⟨-, rfl⟩
          cases bytes with
          | error e => exact ⟨⟨_, rfl⟩, rfl⟩
          | ok bytes => exact ⟨⟨_, rfl⟩, rfl⟩
  unfold StoredSnapshots.load
  cases Layout.indexFile name kind 0 with
  | error e => exact ⟨⟨_, rfl⟩, rfl⟩
  | ok path =>
    refine (hread path s).seq ?_ (fun e x' t hr => by obtain ⟨⟨v, hv⟩, -⟩ := hr; cases hv)
    rintro found _ t ⟨-, rfl⟩
    cases found with
    | none => exact ⟨⟨_, rfl⟩, rfl⟩
    | some bytes =>
      dsimp only
      split <;> exact ⟨⟨_, rfl⟩, rfl⟩

/-- **A prepare succeeds over any storage**, however its calls are answered: it leaves the graph that it leaves where some
    snapshot is stored, or none. -/
theorem prepare_anywhere {σ : Type} (D : Device Call Call.Reply DbError σ) (linking : Linking) (params : HnswParams)
    (source : VectorSource) (metric : Metric) (name : Str) (g : Graph) (s : σ) :
    Ends D (prepare linking params source metric (StoredSnapshots.new name .hnsw)) g s
      (fun r g' _ => r = .ok () ∧ ∃ stored, g' = prepared linking params source metric stored g) := by
  have hstore : ∀ (bytes : Bytes) (g : Graph) (s : σ), Ends D (Proc.attempt ((StoredSnapshots.new name .hnsw).store bytes)) g s
      (fun r g' _ => (∃ v, r = .ok v) ∧ g' = g) := fun bytes g s => by
    have hkeeps : Keeps (· = g) (StoredSnapshots.store name .hnsw bytes) (fun _ => True) := store_keeps name .hnsw bytes
    exact Ends.attempt ⟨⟨_, rfl⟩, (hkeeps.run D rfl s).1⟩
  unfold prepare prepared
  apply Ends.get_bind
  dsimp only
  by_cases hvalid : g.isValidFor source.len source.dimension.toNat metric = true
  · rw [if_pos hvalid]
    exact ⟨rfl, none, (if_pos hvalid).symm⟩
  simp only [if_neg hvalid]
  refine (load_ends D name .hnsw s).seq ?_ (fun e x' t hr => by obtain ⟨⟨v, hv⟩, -⟩ := hr; cases hv)
  rintro stored _ t ⟨-, rfl⟩
  cases hrestored : restore params metric source.dimension.toNat source.len source.decodeRows stored with
  | some restored => exact ⟨rfl, stored, by rw [hrestored]; rfl⟩
  | none =>
    dsimp only
    split
    · -- the graph is extended before its snapshot is stored
      refine Ends.modify_bind ((hstore _ _ t).seq ?_ (fun e x' t hr => by obtain ⟨⟨v, hv⟩, -⟩ := hr; cases hv))
      rintro _ _ _ ⟨-, rfl⟩
      exact ⟨rfl, stored, by rw [hrestored]; rfl⟩
    · refine (hstore _ _ t).seq ?_ (fun e x' t hr => by obtain ⟨⟨v, hv⟩, -⟩ := hr; cases hv)
      rintro _ _ _ ⟨-, rfl⟩
      exact ⟨rfl, stored, by rw [hrestored]; rfl⟩

/-- **What a prepare leaves**: the graph that there was, which has as many nodes as there are rows or more; that graph extended; or
    one of the source's own rows. -/
inductive Taken (linking : Linking) (params : HnswParams) (source : VectorSource) (metric : Metric) (stored : Option Bytes) (g : Graph) :
    Graph → Prop
  | kept (hmetric : g.metric = some metric) (hdim : g.dimension = source.dimension.toNat) (hlen : g.len = source.len) :
      Taken linking params source metric stored g g
  | larger (hmetric : g.metric = some metric) (hdim : g.dimension = source.dimension.toNat)
      (hmore : source.decodeRows.length < g.len) : Taken linking params source metric stored g g
  | extended (hfirst : g.isPrefixOf source.decodeRows source.dimension.toNat metric = true)
      (hnone : restore params metric source.dimension.toNat source.len source.decodeRows stored = none) :
      Taken linking params source metric stored g (g.extend linking (source.decodeRows.drop g.len))
  | made {new : Graph} (hnew : Mirrors new source.decodeRows source.dimension.toNat metric) :
      Taken linking params source metric stored g new

theorem prepared_taken {params : HnswParams} {source : VectorSource} {stored : Option Bytes} :
    Taken (hnswLinking M p) params source metric stored g (prepared (hnswLinking M p) params source metric stored g) := by
  have htake : ∀ {new : Graph}, ¬ g.isValidFor source.len source.dimension.toNat metric = true →
      Mirrors new source.decodeRows source.dimension.toNat metric → Taken (hnswLinking M p) params source metric stored g
        (if keepsExisting g new source.len source.dimension.toNat metric then g else new) := fun {new} hvalid hnew => by
    by_cases hkeep : keepsExisting g new source.len source.dimension.toNat metric = true
    · obtain ⟨hmetric, hdim, hmore⟩ := (keepsExisting_iff hvalid).mp hkeep
      rw [if_pos hkeep]
      exact .larger hmetric hdim (hnew.len ▸ hmore)
    · rw [if_neg hkeep]
      exact .made hnew
  unfold prepared
  dsimp only
  by_cases hvalid : g.isValidFor source.len source.dimension.toNat metric = true
  · obtain ⟨hmetric, hdim, hlen⟩ := isValidFor_iff.mp hvalid
    rw [if_pos hvalid]
    exact .kept hmetric hdim hlen
  · rw [if_neg hvalid]
    cases hrestored : restore params metric source.dimension.toNat source.len source.decodeRows stored with
    | some restored => exact htake hvalid (.restored hrestored)
    | none =>
      dsimp only
      split
      · rename_i hextend
        exact .extended (Bool.and_eq_true _ _ ▸ hextend).2 hrestored
      · exact htake hvalid (.built (fun r hr => VectorSource.dims hr))

/-- **The graph in memory can grow** to the rows of a source: if it is for vectors of this dimension at all, it mirrors the
    first of the rows. -/
def Grows (g : Graph) (source : VectorSource) : Prop :=
  ∀ metric, g.metric = some metric → g.dimension = source.dimension.toNat →
    ∃ rows, Mirrors g rows source.dimension.toNat metric ∧ rows <+: source.decodeRows

/-- A graph that mirrors all the rows need not grow. -/
theorem Mirrors.grows {source : VectorSource} (h : Mirrors g source.decodeRows source.dimension.toNat metric) : Grows g source := by
  intro metric' hmetric _
  obtain rfl := Option.some.inj (h.metric_eq.symm.trans hmetric)
  exact ⟨_, h, List.prefix_refl _⟩

/-- **A prepare leaves a graph that mirrors the source**, whatever snapshot is stored. -/
theorem Grows.prepared {params : HnswParams} {source : VectorSource} (h : Grows g source)
    (hcount : source.decodeRows.length = source.len) (stored : Option Bytes) :
    Mirrors (prepared (hnswLinking M p) params source metric stored g) source.decodeRows source.dimension.toNat metric := by
  generalize hnew : HnswIndex.prepared (hnswLinking M p) params source metric stored g = new
  have htaken : Taken (hnswLinking M p) params source metric stored g new := hnew ▸ prepared_taken
  cases htaken with
  | kept hmetric hdim hlen =>
    -- it has as many nodes as there are rows
    obtain ⟨rows, hmirrors, hprefix⟩ := h _ hmetric hdim
    have hall : rows = source.decodeRows := hprefix.eq_of_length (by rw [← hmirrors.len, hlen, hcount])
    exact hall ▸ hmirrors
  | larger hmetric hdim hmore =>
    obtain ⟨rows, hmirrors, hprefix⟩ := h _ hmetric hdim
    have hfew := hprefix.length_le
    rw [← hmirrors.len] at hfew
    omega
  | extended hfirst =>
    obtain ⟨hmetric, hdim, -⟩ := isPrefixOf_iff.mp hfirst
    obtain ⟨rows, hmirrors, more, hmore⟩ := h _ hmetric hdim
    have hdrop : source.decodeRows.drop g.len = more := by rw [hmirrors.len, ← hmore, List.drop_left]
    rw [hdrop, ← hmore]
    exact hmirrors.extend (fun r hr => VectorSource.dims (hmore ▸ List.mem_append_right _ hr))
  | made hnew => exact hnew

end Mirrors

end HnswIndex

/-! ## Enough hits -/

/-- **Hits near a query**: sound, and `k` of those that are accepted or all, where no score is asked for. -/
structure NearHits (docs : DocMap) (accepts : Doc → Bool) (score : DocId → Doc → UInt32) (k : Nat) (minScore : Option UInt32)
    (inc : Include) (hits : List Hit) : Prop extends SoundHits docs accepts score k minScore inc hits where
  enough : minScore = none → ∀ ids : List DocId, ids.Nodup → (∀ id, id ∈ ids ↔ ∃ d, docs id = some d ∧ accepts d = true) →
    hits.length = min k ids.length

/-- Candidates that are enough, or all there are, make near hits. -/
theorem Offers.near {docs : DocMap} {c : CollectionSource} {place : DocId → RowId × UInt32} {accepts : Doc → Bool}
    {score : DocId → Doc → UInt32} {offered : List Index.Candidate} (h : Offers docs c place accepts score offered) {k : Nat}
    (hmany : k ≤ offered.length ∨ ∀ id d, docs id = some d → accepts d = true → some id ∈ offered.map (fun cand => c.docId cand.row))
    (minScore : Option UInt32) (inc : Include) :
    ∃ hits, hitsOf c inc (TopK.bestOf k minScore offered) = .ok hits ∧ NearHits docs accepts score k minScore inc hits := by
  obtain ⟨hits, hhits, hsound, hperm⟩ := h.hits k minScore inc
  refine ⟨hits, hhits, hsound, fun hnone ids hnodup hids => ?_⟩
  subst hnone
  have hlen : hits.length = min k offered.length := by
    rw [hperm.length_eq, List.length_map]
    unfold TopK.bestOf best
    have hall : offered.filter (TopK.AtLeast none) = offered := List.filter_eq_self.mpr (fun _ _ => rfl)
    rw [List.length_take, List.length_insertionSort, hall]
  have hsub : offered.length ≤ ids.length := by
    have hsubset : offered.map (fun cand => c.docId cand.row) ⊆ ids.map some := by
      intro found hfound
      obtain ⟨cand, hc, rfl⟩ := List.mem_map.mp hfound
      obtain ⟨id, d, hd, hmatches, rfl, hshows⟩ := h.shows cand hc
      exact List.mem_map.mpr ⟨id, (hids id).mpr ⟨d, hd, hmatches⟩, hshows.docId.symm⟩
    have hle := (h.docIds.subperm hsubset).length_le
    rwa [List.length_map, List.length_map] at hle
  rw [hlen]
  rcases hmany with hk | hall
  · omega
  · have hsubset : ids.map some ⊆ offered.map (fun cand => c.docId cand.row) := by
      intro found hfound
      obtain ⟨id, hid, rfl⟩ := List.mem_map.mp hfound
      obtain ⟨d, hd, hmatches⟩ := (hids id).mp hid
      exact hall id d hd hmatches
    have hle := ((hnodup.map (Option.some_injective _)).subperm hsubset).length_le
    rw [List.length_map, List.length_map] at hle
    omega

/-! ## The rows of a collection -/

section Open

variable {invNorm : InvNorm} {durability : Durability} {sess : Session} {g : Ghost} {img : Image} {dimension : UInt32}
  {c : CollectionSource} (h : MemInv invNorm durability sess.coll g img) (hfew : sess.segments.length < 2 ^ 32)
  (hbuild : CollectionSource.build sess dimension = .ok c)
include h hfew hbuild

/-- **A collection counts its rows right.** -/
theorem MemInv.source_len : c.forEach.length = c.len := by
  have hids := congrArg List.length (h.forEach_docIds hfew hbuild)
  rw [List.length_map, List.length_map] at hids
  obtain ⟨segs, hsegs, -⟩ := h.segments
  have hsegs : sess.segments = segs.map Seg.data := hsegs
  obtain ⟨hstate, hrows, -⟩ := CollectionSource.build_spec hbuild
  have hseg : ∀ seg : Seg g.cat, (sess.segmentIds seg.data).length =
      (List.range seg.data.rows.toNat).countP (CollectionSource.current sess seg.data) := fun seg => by
    unfold Session.segmentIds
    rw [List.length_filterMap_eq_countP]
    refine List.countP_congr (fun row hrow => ?_)
    have hlt : row < seg.rows.length := by
      rw [seg.data_rows, seg.rows_toNat] at hrow
      exact List.mem_range.mp hrow
    have hid : seg.data.idAt row = some seg.rows[row].id := by
      show (seg.rows.map StoredRow.id)[row]? = _
      rw [List.getElem?_map, List.getElem?_eq_getElem hlt]
      rfl
    unfold CollectionSource.current CollectionSource.shadowed
    rw [hid]
    cases seg.data.isLive row <;> cases sess.memtable.get seg.rows[row].id <;> simp
  rw [hids]
  unfold foundIds CollectionSource.len
  rw [List.length_append, List.length_map, hrows, hstate, hsegs, List.length_flatMap, List.map_map, List.map_map, Nat.add_comm]
  exact congrArg (fun l => _ + List.sum l) (List.map_congr_left (fun seg _ => hseg seg))

/-- The nodes of a graph that mirrors a collection are its rows, and distinct. -/
theorem MemInv.nodes_eq {graph : Graph} {metric : Metric}
    (hgraph : HnswIndex.Mirrors graph c.asVectorSource.decodeRows c.dimension.toNat metric) :
    graph.rows = c.forEach.map Prod.fst ∧ graph.rows.Nodup := by
  have hnodes : graph.rows = c.forEach.map Prod.fst := by
    rw [hgraph.rows_eq]
    exact List.map_map
  refine ⟨hnodes, ?_⟩
  rw [hnodes]
  exact List.Nodup.of_map c.docId (by rw [List.map_map]; exact h.docIds_nodup hfew hbuild)

/-- **What the beam finds are rows of the collection**, each with the score of its document's vector. -/
theorem MemInv.found_shows {M : Machine} {graph : Graph} {metric : Metric}
    (hgraph : HnswIndex.Mirrors graph c.asVectorSource.decodeRows c.dimension.toNat metric)
    {place : DocId → RowId × UInt32} (hplace : ∀ id d, g.docs id = some d →
      ((place id).1, d.vector, (place id).2) ∈ c.forEach ∧ c.Shows (place id).1 (place id).2 id d)
    {q : Query} (hmetric : q.metric = metric) {found : List (Scored Nat UInt32)} {cs : List Index.Candidate}
    (hfound : Index.HnswIndex.Found M graph q found cs) :
    Offers g.docs c place (fun _ => true)
      (fun id d => M.score metric q.vector (CollectionSource.decodeRow d.vector c.dimension.toNat) (place id).2) cs := by
  obtain ⟨hnodes, hdistinct⟩ := h.nodes_eq hfew hbuild hgraph
  obtain ⟨⟨l, hl, hsublist⟩, -⟩ := Index.HnswIndex.found_rows hdistinct (fun x hx => (hfound.scored x hx).1) hfound.distinct
  refine ⟨?_, fun cand hc => ?_⟩
  · rw [Index.HnswIndex.admitted_ok hfound.admitted]
    exact (hl.nodup_iff.mp (hdistinct.sublist hsublist)).filter _
  · obtain ⟨x, hx, hrow, hscore⟩ := Index.HnswIndex.admitted_mem hfound.admitted hc
    obtain ⟨-, htrue⟩ := hfound.scored x hx
    -- the node is a row of the collection
    rw [hnodes, List.getElem?_map] at hrow
    obtain ⟨⟨row, bytes, norm⟩, hr, rfl⟩ := Option.map_eq_some_iff.mp hrow
    obtain ⟨id, d, hd, rfl, hshows⟩ := h.shows hfew hbuild (List.mem_of_getElem? hr)
    obtain ⟨hvisited, hplaced⟩ := hplace id d hd
    have heq := List.inj_on_of_nodup_map (h.docIds_nodup hfew hbuild) (List.mem_of_getElem? hr) hvisited
      (hshows.docId.trans hplaced.docId.symm)
    obtain ⟨hsame, hrest⟩ := Prod.mk.inj heq
    obtain ⟨-, hnorm⟩ := Prod.mk.inj hrest
    have hdecoded : c.asVectorSource.decodeRows[x.node]? =
        some (cand.row, CollectionSource.decodeRow d.vector c.dimension.toNat, norm) := by
      show (c.forEach.map _)[x.node]? = _
      rw [List.getElem?_map, hr]
      rfl
    have hown := hgraph.scoreOf (M := M) (fun r hr => VectorSource.dims hr) q.vector hdecoded
    rw [hmetric, hown] at htrue
    refine ⟨id, d, hd, rfl, ?_, hplaced⟩
    obtain ⟨candRow, candScore⟩ := cand
    obtain rfl : candScore = x.score := hscore
    have hsame : candRow = (place id).1 := hsame
    rw [← hnorm, ← hsame]
    exact congrArg (Index.Candidate.mk candRow) (Option.some.inj htrue).symm

/-- **What the beam finds are candidates**: current documents, each with its vector's score, and enough of them. -/
theorem MemInv.found_offers {M : Machine} {graph : Graph} {metric : Metric}
    (hgraph : HnswIndex.Mirrors graph c.asVectorSource.decodeRows c.dimension.toNat metric)
    {place : DocId → RowId × UInt32} (hplace : ∀ id d, g.docs id = some d →
      ((place id).1, d.vector, (place id).2) ∈ c.forEach ∧ c.Shows (place id).1 (place id).2 id d)
    {q : Query} (hmetric : q.metric = metric) {matching : Doc → Bool}
    (haccepts : ∀ row norm id d, c.Shows row norm id d → q.admitted row = matching d)
    {found : List (Scored Nat UInt32)} {cs : List Index.Candidate} (hfound : Index.HnswIndex.Found M graph q found cs) :
    Offers g.docs c place matching
        (fun id d => M.score metric q.vector (CollectionSource.decodeRow d.vector c.dimension.toNat) (place id).2) cs ∧
      (q.topK ≤ cs.length ∨ ∀ id d, g.docs id = some d → matching d = true → some id ∈ cs.map (fun cand => c.docId cand.row)) := by
  obtain ⟨hnodes, hdistinct⟩ := h.nodes_eq hfew hbuild hgraph
  have hcs := Index.HnswIndex.admitted_ok hfound.admitted
  obtain ⟨-, hall⟩ := Index.HnswIndex.found_rows hdistinct (fun x hx => (hfound.scored x hx).1) hfound.distinct
  refine ⟨(h.found_shows hfew hbuild hgraph hplace hmetric hfound).accepting (fun cand hc norm id d hshows => ?_),
    hfound.enough.imp_right (fun hmany id d hd hmatches => ?_)⟩
  · have hin := List.mem_map_of_mem (f := Index.Candidate.row) hc
    rw [hcs] at hin
    exact (haccepts _ _ _ _ hshows).symm.trans (List.mem_filter.mp hin).2
  · -- the beam has been everywhere
    obtain ⟨hvisited, hplaced⟩ := hplace id d hd
    have hin : (place id).1 ∈ cs.map Index.Candidate.row := by
      rw [hcs, List.mem_filter, (hall hmany).mem_iff, hnodes]
      exact ⟨List.mem_map_of_mem hvisited, (haccepts _ _ _ _ hplaced).trans hmatches⟩
    obtain ⟨cand, hc, hrow⟩ := List.mem_map.mp hin
    exact List.mem_map.mpr ⟨cand, hc, by rw [hrow]; exact hplaced.docId⟩

/-- **What a scan offers** is enough too. -/
theorem MemInv.scanned_offers {place : DocId → RowId × UInt32} (hplace : ∀ id d, g.docs id = some d →
      ((place id).1, d.vector, (place id).2) ∈ c.forEach ∧ c.Shows (place id).1 (place id).2 id d)
    {q : Query} (hrows : q.rows = c.forEach) {matching : Doc → Bool}
    (haccepts : ∀ row norm id d, c.Shows row norm id d → q.admitted row = matching d) (score : Bytes → UInt32 → UInt32) :
    Offers g.docs c place matching (fun id d => score d.vector (place id).2) (scanned score q q.rows) ∧
      ∀ id d, g.docs id = some d → matching d = true → some id ∈ (scanned score q q.rows).map (fun cand => c.docId cand.row) := by
  refine ⟨?_, fun id d hd hmatches => ?_⟩
  · unfold scanned
    rw [hrows]
    exact h.offers hfew hbuild hplace haccepts score
  · obtain ⟨hvisited, hplaced⟩ := hplace id d hd
    refine List.mem_map.mpr ⟨⟨(place id).1, score d.vector (place id).2⟩, List.mem_map.mpr
      ⟨((place id).1, d.vector, (place id).2), List.mem_filter.mpr ⟨hrows ▸ hvisited, ?_⟩, rfl⟩, hplaced.docId⟩
    exact (haccepts _ _ _ _ hplaced).trans hmatches

end Open

/-! ## Searches -/

section Run

variable {invNorm : InvNorm} {durability : Durability} {sess : Session} {g : Ghost} {img : Image}

/-- **Every search through the graph answers from these documents**, over any storage and whatever calls to it fail. Each has a
    row and a reciprocal norm of its vector. A search has the error of the first check that its request fails, or near hits, all scored as the graph scores or
    all as a scan does; and it leaves a graph that can grow, so that the next search answers too. -/
def Session.SearchesNear (sess : Session) (docs : DocMap) : Prop :=
  ∃ (c : CollectionSource) (place : DocId → RowId × UInt32), CollectionSource.build sess sess.catalog.dimension = .ok c ∧
    (∀ id d, docs id = some d → c.Shows (place id).1 (place id).2 id d) ∧
    ∀ (M : Machine) (rowScore : RowScore) (params : HnswParams) (outside : Except DbError (List Index.Candidate)) (graph : Graph)
      (request : SearchRequest) (valid : Except DbError Unit) (filter : Option Filter) (σ : Type)
      (D : Device Call Call.Reply DbError σ) (s : σ),
      request.filter = filter.map (CompiledFilter valid) → (∀ f ∈ filter, emptyField ∉ f.referencedFields) →
      HnswIndex.Grows graph c.asVectorSource →
      Ends D (search (HnswIndex (hnswLinking M params.orDefault) params (graphScan M rowScore params.orDefault outside))
        request ⟨false, none⟩) ⟨graph, sess⟩ s (fun r x' _ => x'.session = sess ∧ HnswIndex.Grows x'.graph c.asVectorSource ∧
          (∀ e, request.check sess = .error e → r = .error e) ∧
          (request.check sess = .ok () → ∃ hits score, r = .ok hits ∧
            (score = (fun id d => rowScore (request.metric.getD sess.catalog.metric) request.vector.toF32 d.vector (place id).2) ∨
              score = fun id d => M.score (request.metric.getD sess.catalog.metric) request.vector.toF32
                (CollectionSource.decodeRow d.vector c.dimension.toNat) (place id).2) ∧
            NearHits docs (Doc.matches filter) score request.topK request.minScore request.inc hits))

/-- A number of hits that passes its check is not zero. -/
theorem SearchRequest.topK_ne {request : SearchRequest} (hok : request.check sess = .ok ()) : request.topK ≠ 0 := by
  rintro hzero
  have htop : checkTopK request.topK = .error (.validation (.topKOutOfRange request.topK Limits.maxTopK)) := by
    unfold checkTopK
    rw [if_pos (.inl hzero)]
  unfold SearchRequest.check at hok
  rw [htop] at hok
  cases hok

/-- **A search of a graph that mirrors the collection's rows** answers. -/
theorem MemInv.near_answers (h : MemInv invNorm durability sess.coll g img) (hfew : sess.segments.length < 2 ^ 32)
    {c : CollectionSource} (hbuild : CollectionSource.build sess sess.catalog.dimension = .ok c) {place : DocId → RowId × UInt32}
    (hplace : ∀ id d, g.docs id = some d →
      ((place id).1, d.vector, (place id).2) ∈ c.forEach ∧ c.Shows (place id).1 (place id).2 id d)
    {request : SearchRequest} (hk : request.topK ≠ 0) {valid : Except DbError Unit} {filter : Option Filter}
    (hfilter : request.filter = filter.map (CompiledFilter valid)) (hnames : ∀ f ∈ filter, emptyField ∉ f.referencedFields)
    (M : Machine) (rowScore : RowScore) (p : HnswParams) (outside : Except DbError (List Index.Candidate)) {graph : Graph}
    (hgraph : HnswIndex.Mirrors graph c.asVectorSource.decodeRows c.dimension.toNat (request.metric.getD sess.catalog.metric)) :
    ∃ found, graphScan M rowScore p outside graph (request.ctx sess c ⟨false, none⟩) = .ok found ∧
      ∃ hits score, hitsOf c request.inc found = .ok hits ∧
        (score = (fun id d => rowScore (request.metric.getD sess.catalog.metric) request.vector.toF32 d.vector (place id).2) ∨
          score = fun id d => M.score (request.metric.getD sess.catalog.metric) request.vector.toF32
            (CollectionSource.decodeRow d.vector c.dimension.toNat) (place id).2) ∧
        NearHits g.docs (Doc.matches filter) score request.topK request.minScore request.inc hits := by
  set ctx := request.ctx sess c ⟨false, none⟩ with hctx
  have hadmits : ∀ row norm id d, c.Shows row norm id d → (asQuery ctx).admits row = .ok (d.matches filter) :=
    fun row norm id d hshows => hshows.admits hfilter hnames
  have haccepts : ∀ row norm id d, c.Shows row norm id d → (asQuery ctx).admitted row = Doc.matches filter d :=
    fun row norm id d hshows => Query.admitted_of_ok (hadmits row norm id d hshows)
  have hrows : ∀ r ∈ c.forEach, ∃ b, (asQuery ctx).admits r.1 = .ok b := fun r hr => by
    obtain ⟨id, d, -, -, hshows⟩ := h.shows hfew hbuild hr
    exact ⟨_, hadmits _ _ _ _ hshows⟩
  have hnodes : ∀ row ∈ graph.rows, ∃ b, (asQuery ctx).admits row = .ok b := fun row hrow => by
    rw [hgraph.rows_eq] at hrow
    obtain ⟨decoded, hdecoded, rfl⟩ := List.mem_map.mp hrow
    obtain ⟨r, hr, rfl⟩ := List.mem_map.mp hdecoded
    exact hrows r hr
  have hk' : (asQuery ctx).topK ≠ 0 := hk
  obtain ⟨⟨out, n⟩, hrun⟩ := @Index.HnswIndex.search_answers M rowScore p graph (asQuery ctx) hgraph.sound rfl hk'
    (TopK.new ctx.topK ctx.minScore) hnodes hrows
  have hscan : graphScan M rowScore p outside graph ctx = .ok out.intoSorted := by
    unfold graphScan
    rw [hrun]
    rfl
  refine ⟨_, hscan, ?_⟩
  rcases Index.HnswIndex.search_answer hk' hrun with ⟨m, hfallback⟩ | ⟨-, found, cs, hfound, hout⟩
  · -- the collection was scanned
    obtain ⟨hoffers, hall⟩ := h.scanned_offers hfew hbuild hplace (q := asQuery ctx) rfl haccepts (rowScore ctx.metric ctx.query)
    obtain ⟨m', hexact⟩ := @scan_offers (rowScore ctx.metric ctx.query) (asQuery ctx) rfl hk' hrows m (TopK.new ctx.topK ctx.minScore)
    have hout := (Prod.mk.inj (Except.ok.inj (hfallback.symm.trans hexact))).1
    have hbest : out.intoSorted = _ := (congrArg TopK.intoSorted hout).trans (TopK.intoSorted_offerAll _ _ _)
    obtain ⟨hits, hhits, hnear⟩ := hoffers.near (.inr hall) request.minScore request.inc
    rw [hbest]
    exact ⟨hits, _, hhits, .inl rfl, hnear⟩
  · obtain ⟨hoffers, hmany⟩ := h.found_offers hfew hbuild hgraph hplace (q := asQuery ctx) rfl haccepts hfound
    have hbest : out.intoSorted = _ := (congrArg TopK.intoSorted hout).trans (TopK.intoSorted_offerAll _ _ _)
    obtain ⟨hits, hhits, hnear⟩ := hoffers.near hmany request.minScore request.inc
    rw [hbest]
    exact ⟨hits, _, hhits, .inr rfl, hnear⟩

/-- **An open collection** is searched through the graph. -/
theorem MemInv.searchesNear (h : MemInv invNorm durability sess.coll g img) (hfew : sess.segments.length < 2 ^ 32) :
    sess.SearchesNear g.docs := by
  obtain ⟨c, hbuild⟩ := h.build_ok sess.catalog.dimension
  obtain ⟨place, hplace⟩ := h.exists_place hfew hbuild
  refine ⟨c, place, hbuild, fun id d hd => (hplace id d hd).2, fun M rowScore params outside graph request valid filter σ D s
    hfilter hnames hgrows => ?_⟩
  have hplan := planSearch_eq hbuild request ⟨false, none⟩
  cases hcheck : request.check sess with
  | error e =>
    rw [hcheck] at hplan
    have hplan : planSearch sess request ⟨false, none⟩ = .error e := hplan
    refine Ends.get_bind (Ends.lift_bind (fun ctx hctx => ?_) (fun e' he => ?_))
    · rw [hplan] at hctx
      cases hctx
    · rw [hplan] at he
      obtain rfl := Except.error.inj he
      exact ⟨rfl, hgrows, fun e'' he'' => congrArg Except.error (Except.error.inj he''), fun hok => (by cases hok)⟩
  | ok u =>
    rw [hcheck] at hplan
    have hplan : planSearch sess request ⟨false, none⟩ = .ok (request.ctx sess c ⟨false, none⟩) := hplan
    refine Ends.get_bind (Ends.lift_bind (fun ctx hctx => ?_) (fun e' he => by rw [hplan] at he; cases he))
    obtain rfl := Except.ok.inj (hplan.symm.trans hctx)
    have hcount : c.asVectorSource.decodeRows.length = c.asVectorSource.len :=
      (List.length_map _).trans (h.source_len hfew hbuild)
    have hmirrors := @HnswIndex.Grows.prepared M params.orDefault graph (request.metric.getD sess.catalog.metric) params.orDefault
      c.asVectorSource hgrows hcount
    have hprepared : Ends D (Proc.zoom Searching.graph (fun g x => { x with graph := g })
        ((HnswIndex (hnswLinking M params.orDefault) params (graphScan M rowScore params.orDefault outside)).prepare c
          (request.metric.getD sess.catalog.metric) (StoredSnapshots.new sess.name .hnsw))) ⟨graph, sess⟩ s
        (fun r x' _ => r = .ok () ∧ x'.session = sess ∧ HnswIndex.Mirrors x'.graph c.asVectorSource.decodeRows
          c.dimension.toNat (request.metric.getD sess.catalog.metric)) :=
      Ends.zoom ((HnswIndex.prepare_anywhere D (hnswLinking M params.orDefault) params.orDefault c.asVectorSource
        (request.metric.getD sess.catalog.metric) sess.name graph s).mono (fun r g' t hr => by
          obtain ⟨hok, stored, rfl⟩ := hr
          exact ⟨hok, rfl, hmirrors stored⟩))
    refine hprepared.seq (fun u' x' t hr => ?_) (fun e x' t hr => by cases hr.1)
    obtain ⟨-, hsess, hgraph⟩ := hr
    obtain ⟨found, hfound, hits, score, hhits, hscore, hnear⟩ := h.near_answers hfew hbuild hplace (request.topK_ne hcheck) hfilter
      hnames M rowScore params.orDefault outside hgraph
    refine Ends.get_bind (Ends.lift_bind (fun found' hfound' => ?_) (fun e he => ?_))
    · obtain rfl := Except.ok.inj (hfound.symm.trans hfound')
      exact Ends.lift ⟨hsess, hgraph.grows, fun e he => (by cases he), fun _ => ⟨hits, score, hhits, hscore, hnear⟩⟩
    · cases hfound.symm.trans he

/-- **The search through the graph answers from the documents.** After every run, over any storage and with any graph in
    memory that was made from the first of the collection's rows, a search through the graph changes no document, and returns
    documents that match, each once with its own score, and `k` of them if there are as many. -/
theorem Run.search_near {p : Site} {M : Str → Option DocMap} (h : Run (fun _ => True) Edit.Fits invNorm p M) {name : Str}
    {docs : DocMap} (hdocs : M name = some docs) :
    ∃ sess, p.db.session name = some sess ∧ (sess.segments.length < 2 ^ 32 → sess.SearchesNear docs) := by
  obtain ⟨G, hst, rfl⟩ := h.stands (fun _ _ => .inl (show Sel.live = .live from rfl)) (fun _ _ _ hfits => hfits)
  obtain ⟨g, hg, rfl⟩ := Option.map_eq_some_iff.mp hdocs
  obtain ⟨coll, ops, docs, hlook, rfl, hstate⟩ := (hst.state 0).collection hg
  have hsess : p.db.session g.name = some ⟨p.db.store, coll⟩ := by
    unfold Database.session
    rw [hlook]
    rfl
  exact ⟨_, hsess, fun hfew => hstate.live.mem.searchesNear hfew⟩

end Run

/-- The collection with one document is searched with an index that has prepared nothing yet, over an empty storage. -/
theorem search_near_put : ∃ M docs sess c, Run (fun _ => True) Edit.Fits zeroNorm putSite M ∧ M theSpec.name = some docs ∧
    putSite.db.session theSpec.name = some sess ∧ sess.count = 1 ∧ sess.SearchesNear docs ∧
    CollectionSource.build sess sess.catalog.dimension = .ok c ∧ HnswIndex.Grows .default c.asVectorSource := by
  obtain ⟨M, docs, hrun, hdocs⟩ := putSite_run
  have hmade : (putSite.db.session theSpec.name).map (fun s => (s.segments.length, s.count)) = some (0, 1) := by decide +kernel
  obtain ⟨sess, hsess, hsearches⟩ := @Run.search_near _ _ _ hrun theSpec.name docs hdocs
  rw [hsess] at hmade
  obtain ⟨hfew, hcount⟩ := Prod.mk.inj (Option.some.inj hmade)
  have hnear := hsearches (by rw [hfew]; decide)
  obtain ⟨c, -, hbuild, -⟩ := hnear
  exact ⟨M, docs, sess, c, hrun, hdocs, hsess, hcount, hsearches (by rw [hfew]; decide), hbuild, fun metric h => (by cases h)⟩

end IshaVectorDb.Engine
