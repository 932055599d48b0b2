import IshaVectorDb.Interaction.Ends
import IshaVectorDb.Interaction.Keeps
import IshaVectorDb.Correctness.ReadOnly
import IshaVectorDb.Correctness.WritePaths
import IshaVectorDb.Correctness.GraphSnapshots

/-!
# `Correctness.Preparing` — what a **prepared** graph has of its source

A prepare has four ways to go: keep the graph in memory, restore a snapshot, extend the graph, or build a new one. A
restored graph and a built one are made of the source's rows (`MadeOf`). A kept graph is only known to have as many rows,
and an extended one to begin with the right handles, so those are the source's where they were before; and a graph with
more rows than the source is never given up. `prepare_describes_iff` says this exactly, for every graph that an index
can come to hold (`Held`).
-/

namespace IshaVectorDb.Engine

open Format Interaction Index

/-! ## Rows and vectors of a graph -/

theorem decodeRow_length (bytes : Bytes) (dimension : Nat) :
    (CollectionSource.decodeRow bytes dimension).length = dimension := by
  unfold CollectionSource.decodeRow
  rw [List.length_append, List.length_take, List.length_replicate]
  omega

namespace VectorSource

variable {source : VectorSource}

theorem dims {r : DecodedRow} (h : r ∈ source.decodeRows) : r.2.1.length = source.dimension.toNat := by
  obtain ⟨row, -, rfl⟩ := List.mem_map.mp h
  exact decodeRow_length _ _

end VectorSource

namespace HnswIndex

/-- There are as many components as the nodes need. -/
def Filled (g : Graph) : Prop := g.vectors.length = g.len * g.dimension

/-- **A graph made of rows**: those are its nodes, in their order, and their vectors its vectors. -/
structure MadeOf (g : Graph) (source : VectorSource) (metric : Metric) : Prop where
  rows : g.rows = source.decodeRows.map Prod.fst
  vectors : g.vectors = source.decodeRows.flatMap (fun r => r.2.1)
  dimension : g.dimension = source.dimension.toNat
  metric_eq : g.metric = some metric

/-- **A graph describes its source**: the same rows in the same order, each node's vector its row's, for the same metric
    and dimension; and the index takes it to be valid. -/
structure Describes (g : Graph) (source : VectorSource) (metric : Metric) : Prop where
  rows : g.rows = source.decodeRows.map Prod.fst
  vectors : ∀ (n : Nat) (r : DecodedRow), source.decodeRows[n]? = some r → g.vector n = some r.2.1
  metric_eq : g.metric = some metric
  dimension : g.dimension = source.dimension.toNat
  valid : g.isValidFor source.len source.dimension.toNat metric = true

/-- Each node of the graph is the source's row of that number. -/
def FirstRows (g : Graph) (source : VectorSource) : Prop :=
  ∀ (n : Nat) (r : DecodedRow), n < g.len → source.decodeRows[n]? = some r → g.rows[n]? = some r.1 ∧ g.vector n = some r.2.1

variable {g : Graph} {source : VectorSource} {metric : Metric}

theorem isValidFor_iff {rows dimension : Nat} :
    g.isValidFor rows dimension metric = true ↔ g.metric = some metric ∧ g.dimension = dimension ∧ g.len = rows := by
  unfold Graph.isValidFor
  simp [and_assoc]

theorem Describes.len (h : Describes g source metric) : g.len = source.len := (isValidFor_iff.mp h.valid).2.2

theorem Describes.counted (h : Describes g source metric) : source.decodeRows.length = source.len := by
  rw [← h.len]
  unfold Graph.len
  rw [h.rows, List.length_map]

theorem MadeOf.len (h : MadeOf g source metric) : g.len = source.decodeRows.length := by
  unfold Graph.len
  rw [h.rows, List.length_map]

theorem MadeOf.filled (h : MadeOf g source metric) : Filled g := by
  unfold Filled
  rw [h.vectors, h.len, h.dimension]
  exact Parsing.length_flatMap_stride (fun r hr => VectorSource.dims hr)

/-- A graph made of a source's rows describes it, if the source counts them right. -/
theorem MadeOf.describes_iff (h : MadeOf g source metric) :
    Describes g source metric ↔ source.decodeRows.length = source.len := by
  refine ⟨Describes.counted, fun hcount => ⟨h.rows, fun n r hr => ?_, h.metric_eq, h.dimension, ?_⟩⟩
  · obtain ⟨hn, rfl⟩ := List.getElem?_eq_some_iff.mp hr
    unfold Graph.vector
    rw [h.vectors, h.dimension]
    exact Parsing.slice_chunk (f := fun r : DecodedRow => r.2.1) (fun r hr => VectorSource.dims hr) hn
  · exact isValidFor_iff.mpr ⟨h.metric_eq, h.dimension, h.len.trans hcount⟩

/-- A kept graph describes a source that it is valid for where its nodes are the source's rows. -/
theorem kept_describes_iff (hvalid : g.isValidFor source.len source.dimension.toNat metric = true) :
    Describes g source metric ↔ source.decodeRows.length = source.len ∧ FirstRows g source := by
  obtain ⟨hmetric, hdim, hlen⟩ := isValidFor_iff.mp hvalid
  refine ⟨fun h => ⟨h.counted, fun n r _ hr => ⟨?_, h.vectors n r hr⟩⟩, fun ⟨hcount, hfirst⟩ =>
    ⟨List.ext_getElem? (fun n => ?_), fun n r hr => ?_, hmetric, hdim, hvalid⟩⟩
  · rw [h.rows, List.getElem?_map, hr]
    rfl
  · rw [List.getElem?_map]
    cases hr : source.decodeRows[n]? with
    | none =>
      have hn := List.getElem?_eq_none_iff.mp hr
      exact List.getElem?_eq_none (by rw [show g.rows.length = source.len from hlen]; omega)
    | some r =>
      obtain ⟨hn, -⟩ := List.getElem?_eq_some_iff.mp hr
      exact (hfirst n r (by omega) hr).1
  · obtain ⟨hn, -⟩ := List.getElem?_eq_some_iff.mp hr
    exact (hfirst n r (by omega) hr).2

/-! ## Extending -/

theorem isPrefixOf_iff {rows : List DecodedRow} {dimension : Nat} :
    g.isPrefixOf rows dimension metric = true ↔
      g.metric = some metric ∧ g.dimension = dimension ∧ g.rows = (rows.take g.len).map Prod.fst := by
  unfold Graph.isPrefixOf
  simp only [Bool.and_eq_true, decide_eq_true_eq, List.all_eq_true, and_assoc]
  refine and_congr_right fun _ => and_congr_right fun _ => ⟨fun ⟨hlen, hall⟩ => ?_, fun hrows => ⟨?_, ?_⟩⟩
  · refine List.ext_getElem (by rw [List.length_map, List.length_take]; exact (Nat.min_eq_left hlen).symm) ?_
    intro n hn hn'
    have hr : n < rows.length := by unfold Graph.len at hlen; omega
    have hmem : (g.rows[n], rows[n]) ∈ g.rows.zip rows := by
      rw [List.mem_iff_getElem]
      exact ⟨n, by rw [List.length_zip]; omega, List.getElem_zip⟩
    rw [List.getElem_map, List.getElem_take]
    exact hall _ hmem
  · have hlen := congrArg List.length hrows
    rw [List.length_map, List.length_take] at hlen
    unfold Graph.len at hlen ⊢
    omega
  · intro pair hpair
    obtain ⟨n, hn, rfl⟩ := List.mem_iff_getElem.mp hpair
    rw [List.length_zip] at hn
    have hat := List.getElem_of_eq hrows (show n < g.rows.length by omega)
    rw [List.getElem_zip]
    rwa [List.getElem_map, List.getElem_take] at hat

theorem Filled.vector_some (hg : Filled g) {n : Nat} (hn : n < g.len) :
    ∃ v, g.vector n = some v := by
  unfold Graph.vector Parsing.slice
  have hle : n * g.dimension + g.dimension ≤ g.vectors.length := by
    rw [hg, ← Nat.succ_mul]
    exact Nat.mul_le_mul_right _ hn
  rw [if_pos hle]
  exact ⟨_, rfl⟩

/-- What extending leaves of the vectors of a graph. -/
theorem vector_extend_old (hg : Filled g) (linking : Linking) (rows : List DecodedRow) {n : Nat} (hn : n < g.len) :
    (g.extend linking rows).vector n = g.vector n := by
  obtain ⟨-, hvectors, -, -, hdim, -⟩ := Graph.extend_nodes linking g rows
  obtain ⟨v, hv⟩ := hg.vector_some hn
  rw [hv]
  unfold Graph.vector at hv ⊢
  rw [hvectors, hdim]
  exact Parsing.slice_append_left hv _

/-- The vectors that extending adds. -/
theorem vector_extend_new (hg : Filled g) (linking : Linking) {rows : List DecodedRow}
    (hrows : ∀ r ∈ rows, r.2.1.length = g.dimension) {k : Nat} (hk : k < rows.length) :
    (g.extend linking rows).vector (g.len + k) = some rows[k].2.1 := by
  obtain ⟨-, hvectors, -, -, hdim, -⟩ := Graph.extend_nodes linking g rows
  unfold Graph.vector
  rw [hvectors, hdim, Nat.add_mul, ← hg, Parsing.slice_append_skip]
  exact Parsing.slice_chunk (f := fun r : DecodedRow => r.2.1) hrows hk

/-- **An extended graph describes its source** where the nodes it had are the source's first rows. -/
theorem extended_describes_iff (hg : Filled g) (linking : Linking)
    (hfirst : g.isPrefixOf source.decodeRows source.dimension.toNat metric = true) :
    Describes (g.extend linking (source.decodeRows.drop g.len)) source metric ↔
      source.decodeRows.length = source.len ∧ FirstRows g source := by
  obtain ⟨hmetric, hdim, hrows⟩ := isPrefixOf_iff.mp hfirst
  obtain ⟨hnodes, -, -, -, hdim', hmetric'⟩ := Graph.extend_nodes linking g (source.decodeRows.drop g.len)
  have hnodes : (g.extend linking (source.decodeRows.drop g.len)).rows = source.decodeRows.map Prod.fst := by
    rw [hnodes, hrows, ← List.map_append, List.take_append_drop]
  have hlen : (g.extend linking (source.decodeRows.drop g.len)).len = source.decodeRows.length :=
    (congrArg List.length hnodes).trans (List.length_map _)
  refine ⟨fun h => ⟨h.counted, fun n r hn hr => ⟨?_, ?_⟩⟩, fun ⟨hcount, hold⟩ =>
    ⟨hnodes, fun n r hr => ?_, hmetric'.trans hmetric, hdim'.trans hdim, ?_⟩⟩
  · rw [hrows, List.getElem?_map, List.getElem?_take_of_lt hn, hr]
    rfl
  · rw [← vector_extend_old hg linking (source.decodeRows.drop g.len) hn]
    exact h.vectors n r hr
  · by_cases hn : n < g.len
    · rw [vector_extend_old hg linking _ hn]
      exact (hold n r hn hr).2
    · obtain ⟨hlt, rfl⟩ := List.getElem?_eq_some_iff.mp hr
      obtain ⟨k, rfl⟩ := Nat.exists_eq_add_of_le (Nat.not_lt.mp hn)
      have hdims : ∀ r ∈ source.decodeRows.drop g.len, r.2.1.length = g.dimension := fun r hr =>
        (VectorSource.dims (List.mem_of_mem_drop hr)).trans hdim.symm
      have hk : k < (source.decodeRows.drop g.len).length := by rw [List.length_drop]; omega
      rw [vector_extend_new hg linking hdims hk, List.getElem_drop]
  · exact isValidFor_iff.mpr ⟨hmetric'.trans hmetric, hdim'.trans hdim, hlen.trans hcount⟩

theorem Filled.extend (hg : Filled g) (linking : Linking) {rows : List DecodedRow}
    (hrows : ∀ r ∈ rows, r.2.1.length = g.dimension) : Filled (g.extend linking rows) := by
  obtain ⟨-, hvectors, -, -, hdim, -⟩ := Graph.extend_nodes linking g rows
  unfold Filled
  rw [hvectors, hdim, Graph.len_extend, List.length_append, hg, Parsing.length_flatMap_stride hrows, Nat.add_mul]

/-! ## Building and restoring -/

theorem madeOf_built (linking : Linking) (source : VectorSource) (metric : Metric) :
    MadeOf (Graph.buildFrom linking source.decodeRows source.dimension.toNat metric) source metric := by
  obtain ⟨hrows, hvectors, -, -, hdim, hmetric⟩ := Graph.extend_nodes linking
    { Graph.default with dimension := source.dimension.toNat, metric := some metric } source.decodeRows
  exact ⟨hrows, hvectors, hdim, hmetric⟩

/-- The rows and vectors of an accepted body are those it is read for. -/
theorem readBody_nodes (header : Snapshot.Header) (rows : List DecodedRow) :
    Parsing.Yields (Snapshot.readBody header rows) (fun g => g.rows = rows.map Prod.fst ∧
      g.vectors = rows.flatMap (fun r => r.2.1) ∧ g.dimension = header.dimension ∧ g.metric = some header.metric) := by
  unfold Snapshot.readBody
  refine .skip fun _ => .skip fun _ => .skip fun levels => .skip fun layers => .skip fun _ => .skip fun _ => ?_
  exact .pure ⟨rfl, rfl, rfl, rfl⟩

/-- **What a snapshot restores is made of the source's rows**, as many as it counts. -/
theorem restored_spec {params : HnswParams} {stored : Option Bytes} {r : Graph}
    (h : restore params metric source.dimension.toNat source.len source.decodeRows stored = some r) :
    MadeOf r source metric ∧ source.decodeRows.length = source.len := by
  unfold restore at h
  obtain ⟨bytes, -, h⟩ := Option.bind_eq_some_iff.mp h
  obtain ⟨header, -, h⟩ := Option.bind_eq_some_iff.mp h
  split at h
  · rename_i hheader
    obtain ⟨hmetric, hdim, hnodes, -⟩ := hheader
    unfold Snapshot.decode at h
    split at h
    · cases h
    rename_i hcount
    obtain ⟨j, hrun⟩ := Snapshot.runCursor_eq_some.mp h
    obtain ⟨hrows, hvectors, hdimension, hm⟩ := readBody_nodes header source.decodeRows ⟨bytes, 0⟩ _ _ hrun
    exact ⟨⟨hrows, hvectors, hdimension.trans hdim, hm.trans (congrArg some hmetric)⟩,
      (not_not.mp hcount).symm.trans hnodes⟩
  · cases h

/-! ## Preparing -/

section Prepare

variable {linking : Linking} {params : HnswParams} {stored : Option Bytes}

/-- The graph that a prepare leaves, by the payload that is stored. -/
def prepared (linking : Linking) (params : HnswParams) (source : VectorSource) (metric : Metric) (stored : Option Bytes)
    (g : Graph) : Graph :=
  let take (new : Graph) := if keepsExisting g new source.len source.dimension.toNat metric then g else new
  if g.isValidFor source.len source.dimension.toNat metric then g
  else match restore params metric source.dimension.toNat source.len source.decodeRows stored with
    | some restored => take restored
    | none =>
        if 0 < g.len && g.isPrefixOf source.decodeRows source.dimension.toNat metric then
          g.extend linking (source.decodeRows.drop g.len)
        else take (Graph.buildFrom linking source.decodeRows source.dimension.toNat metric)

/-- Storing a snapshot leaves the index alone, whether it succeeds or not. -/
theorem store_keeps {P : Graph → Prop} (name : Str) (kind : IndexKind) (bytes : Bytes) :
    Keeps P (StoredSnapshots.store name kind bytes) (fun _ => True) :=
  .next (.lift fun _ _ => trivial) fun _ => .next (.call _) fun _ => .next (.lift fun _ _ => trivial) fun _ =>
    .next (.call _) fun _ => .next (.call _) fun _ => .next (.call _) fun _ => .call _

/-- So does trying to store one, which does not fail. -/
theorem attemptStore_ends (name : Str) (bytes : Bytes) (s : MemoryStorage) :
    Ends device (Proc.attempt ((StoredSnapshots.new name .hnsw).store bytes)) g s
      (fun r g' _ => (∃ v, r = .ok v) ∧ g' = g) := by
  have hkeeps : Keeps (· = g) (StoredSnapshots.store name .hnsw bytes) (fun _ => True) := store_keeps name .hnsw bytes
  exact Ends.attempt ⟨⟨_, rfl⟩, (hkeeps.run device rfl s).1⟩

/-- **A prepare always succeeds**, and leaves that graph. -/
theorem prepare_ends (linking : Linking) (params : HnswParams) (source : VectorSource) (metric : Metric) (name : Str)
    (g : Graph) (s : MemoryStorage) :
    Ends device (prepare linking params source metric (StoredSnapshots.new name .hnsw)) g s
      (fun r g' _ => r = .ok () ∧ g' = prepared linking params source metric (storedPayload s name .hnsw) g) := by
  unfold prepare prepared
  apply Ends.get_bind
  dsimp only
  split
  · exact ⟨rfl, rfl⟩
  have hload : (StoredSnapshots.load name .hnsw g).run device s = ((.ok (storedPayload s name .hnsw), g), s) :=
    snapshotLoad_run name .hnsw
  apply Ends.seq (show Ends device (StoredSnapshots.load name .hnsw) g s (fun r g' _ =>
    r = .ok (storedPayload s name .hnsw) ∧ g' = g) by unfold Ends; rw [hload]; exact ⟨rfl, rfl⟩)
  · rintro stored g' s' ⟨hstored, rfl⟩
    obtain rfl := Except.ok.inj hstored
    cases restore params metric source.dimension.toNat source.len source.decodeRows (storedPayload s name .hnsw) with
    | some restored => exact ⟨rfl, rfl⟩
    | none =>
      dsimp only
      split
      · -- the graph is extended before its snapshot is stored
        apply Ends.modify_bind
        apply Ends.seq (attemptStore_ends name _ s')
        · rintro _ _ _ ⟨-, hx⟩
          exact ⟨rfl, hx⟩
        · rintro e _ _ ⟨⟨v, hv⟩, -⟩
          cases hv
      · apply Ends.seq (attemptStore_ends name _ s')
        · rintro _ _ _ ⟨-, rfl⟩
          exact ⟨rfl, rfl⟩
        · rintro e _ _ ⟨⟨v, hv⟩, -⟩
          cases hv
  · rintro e g' s' ⟨he, -⟩
    cases he

/-- **What a prepare takes over is the source's**: the source counts its rows right; and a graph in memory for the same
    metric and dimension has no more nodes than there are rows, and its nodes are the source's first rows if it is kept
    for their number or extended for want of a snapshot. -/
def Usable (params : HnswParams) (source : VectorSource) (metric : Metric) (stored : Option Bytes) (g : Graph) : Prop :=
  source.decodeRows.length = source.len ∧
    (g.metric = some metric → g.dimension = source.dimension.toNat → g.len ≤ source.len ∧
      (g.len = source.len ∨ g.isPrefixOf source.decodeRows source.dimension.toNat metric = true ∧
        restore params metric source.dimension.toNat source.len source.decodeRows stored = none → FirstRows g source))

theorem keepsExisting_iff {new : Graph} {rows dimension : Nat} (h : ¬ g.isValidFor rows dimension metric = true) :
    keepsExisting g new rows dimension metric = true ↔
      g.metric = some metric ∧ g.dimension = dimension ∧ new.len < g.len := by
  unfold keepsExisting
  rw [Bool.or_eq_true, or_iff_right h]
  simp [and_assoc]

/-- A graph that is put in the place of one that is not valid describes the source, unless the old one is larger. -/
theorem taken_describes_iff (hvalid : ¬ g.isValidFor source.len source.dimension.toNat metric = true) {new : Graph}
    (hnew : MadeOf new source metric) :
    Describes (if keepsExisting g new source.len source.dimension.toNat metric then g else new) source metric ↔
      source.decodeRows.length = source.len ∧
        (g.metric = some metric → g.dimension = source.dimension.toNat → g.len ≤ source.len) := by
  have hlen := hnew.len
  by_cases hkeep : keepsExisting g new source.len source.dimension.toNat metric = true
  · obtain ⟨hmetric, hdim, hmore⟩ := (keepsExisting_iff hvalid).mp hkeep
    rw [if_pos hkeep]
    refine ⟨fun h => absurd h.valid hvalid, fun ⟨hcount, hfew⟩ => ?_⟩
    have := hfew hmetric hdim
    omega
  · rw [if_neg hkeep, hnew.describes_iff]
    refine ⟨fun hcount => ⟨hcount, fun hmetric hdim => ?_⟩, And.left⟩
    by_contra hmore
    exact hkeep ((keepsExisting_iff hvalid).mpr ⟨hmetric, hdim, by omega⟩)

/-- **The graph that a prepare leaves** describes the source exactly where what it took over was usable. -/
theorem prepared_describes_iff (hg : Filled g) : Describes (prepared linking params source metric stored g) source metric ↔
    Usable params source metric stored g := by
  unfold prepared Usable
  dsimp only
  by_cases hvalid : g.isValidFor source.len source.dimension.toNat metric = true
  · -- kept for the number of its nodes
    obtain ⟨hmetric, hdim, hlen⟩ := isValidFor_iff.mp hvalid
    rw [if_pos hvalid, kept_describes_iff hvalid]
    exact and_congr_right fun _ =>
      ⟨fun hfirst _ _ => ⟨Nat.le_of_eq hlen, fun _ => hfirst⟩, fun h => (h hmetric hdim).2 (.inl hlen)⟩
  rw [if_neg hvalid]
  have hne (hmetric : g.metric = some metric) (hdim : g.dimension = source.dimension.toNat) : g.len ≠ source.len :=
    fun hlen => hvalid (isValidFor_iff.mpr ⟨hmetric, hdim, hlen⟩)
  cases hrestore : restore params metric source.dimension.toNat source.len source.decodeRows stored with
  | some restored =>
    dsimp only
    rw [taken_describes_iff hvalid (restored_spec hrestore).1]
    refine and_congr_right fun _ => forall₂_congr fun hmetric hdim => (and_iff_left ?_).symm
    rintro (hlen | ⟨-, hnone⟩)
    · exact absurd hlen (hne hmetric hdim)
    · cases hnone
  | none =>
    dsimp only
    by_cases hextend : (decide (0 < g.len) && g.isPrefixOf source.decodeRows source.dimension.toNat metric) = true
    · rw [if_pos hextend]
      rw [Bool.and_eq_true, decide_eq_true_eq] at hextend
      obtain ⟨-, hfirst⟩ := hextend
      obtain ⟨hmetric, hdim, hrows⟩ := isPrefixOf_iff.mp hfirst
      rw [extended_describes_iff hg linking hfirst]
      refine and_congr_right fun hcount => ⟨fun hold _ _ => ⟨?_, fun _ => hold⟩, fun h =>
        (h hmetric hdim).2 (.inr ⟨hfirst, rfl⟩)⟩
      have hshort := congrArg List.length hrows
      rw [List.length_map, List.length_take] at hshort
      unfold Graph.len at hshort ⊢
      omega
    · rw [if_neg hextend, taken_describes_iff hvalid (madeOf_built linking source metric)]
      refine and_congr_right fun _ => forall₂_congr fun hmetric hdim => (and_iff_left ?_).symm
      rintro (hlen | ⟨hfirst, -⟩)
      · exact absurd hlen (hne hmetric hdim)
      · -- a graph without nodes is not extended
        intro n r hn _
        exact absurd (by rw [hfirst, Bool.and_true]; exact decide_eq_true (by omega)) hextend

end Prepare

/-! ## Every graph that an index can hold -/

/-- **The graphs an index holds**: at first none, then what a prepare leaves, of whatever source and metric, over
    whatever is stored. -/
inductive Held (linking : Linking) (params : HnswParams) : Graph → Prop
  | new : Held linking params .default
  | prepare {g : Graph} (source : VectorSource) (metric : Metric) (name : Str) (s : MemoryStorage) :
      Held linking params g → Held linking params
        ((HnswIndex.prepare linking params source metric (StoredSnapshots.new name .hnsw) g).run device s).1.2

section Held

variable {linking : Linking} {params : HnswParams}

theorem prepared_filled (hg : Filled g) (stored : Option Bytes) :
    Filled (prepared linking params source metric stored g) := by
  unfold prepared
  dsimp only
  have htake (new : Graph) (hnew : Filled new) :
      Filled (if keepsExisting g new source.len source.dimension.toNat metric then g else new) := by
    split
    · exact hg
    · exact hnew
  split
  · exact hg
  split
  · rename_i hrestore
    exact htake _ (restored_spec hrestore).1.filled
  split
  · rename_i hextend
    obtain ⟨-, hdim, -⟩ := isPrefixOf_iff.mp (Bool.and_eq_true _ _ ▸ hextend).2
    exact hg.extend linking (fun r hr => (VectorSource.dims (List.mem_of_mem_drop hr)).trans hdim.symm)
  · exact htake _ (madeOf_built linking source metric).filled

/-- Every graph held has the components its nodes need. -/
theorem Held.filled (h : Held linking params g) : Filled g := by
  induction h with
  | new => rfl
  | prepare source metric name s _ ih =>
    rw [(prepare_ends linking params source metric name _ s).2]
    exact prepared_filled ih _

/-- **Preparing describes the source** exactly where the graph in memory was usable, whatever the index was built from
    before and whatever is stored. -/
theorem prepare_describes_iff (h : Held linking params g) (source : VectorSource) (metric : Metric) (name : Str)
    (s : MemoryStorage) :
    ((prepare linking params source metric (StoredSnapshots.new name .hnsw) g).run device s).1.1 = .ok () ∧
      (Describes ((prepare linking params source metric (StoredSnapshots.new name .hnsw) g).run device s).1.2 source metric ↔
        Usable params source metric (storedPayload s name .hnsw) g) := by
  obtain ⟨hok, hgraph⟩ := prepare_ends linking params source metric name g s
  rw [hgraph]
  exact ⟨hok, prepared_describes_iff h.filled⟩

end Held

/-! ## A vector replaced in the memtable -/

/-- A graph that describes one source is kept for another with as many rows. -/
theorem prepared_same {linking : Linking} {params : HnswParams} {stored : Option Bytes} {later : VectorSource}
    (h : Describes g source metric) (hlen : later.len = source.len) (hdim : later.dimension = source.dimension) :
    prepared linking params later metric stored g = g := by
  have hvalid := h.valid
  rw [← hlen, ← hdim] at hvalid
  exact if_pos hvalid

section Example

/-- A memtable after documents were put with these vectors in turn. -/
def putInTurn (docs : List (DocId × List UInt32)) : Except DbError Memtable :=
  docs.foldlM (fun m doc => m.putView (fun _ => ⟨0, Reader.finite32_zero⟩) doc.1 (.f32 doc.2) none none) (Memtable.new 1 .f32)

/-- The rows of a new collection with that memtable. -/
def bufferedSource (docs : List (DocId × List UInt32)) : VectorSource :=
  let m := (putInTurn docs).toOption.getD (Memtable.new 1 .f32)
  CollectionSource.asVectorSource
    ⟨{ someSession with coll := { someSession.coll with state := { someSession.coll.state with memtable := m } } }, 1, [],
      m.liveRows⟩

def docA : DocId := .str ⟨[97], utf8_a⟩
def docB : DocId := .str ⟨[98], utf8_b⟩
def docD : DocId := .str ⟨[100], utf8_d⟩

/-- The vectors with the components 1, 2 and 3. -/
def oneVector : List UInt32 := [0x3F800000]

def twoVector : List UInt32 := [0x40000000]

def threeVector : List UInt32 := [0x40400000]

theorem bufferedSource_one : (bufferedSource [(docA, oneVector)]).decodeRows = [(RowId.new memtableSegment 0, oneVector, 0)] ∧
    (bufferedSource [(docA, oneVector)]).len = 1 := by decide +kernel

theorem bufferedSource_two :
    (bufferedSource [(docA, oneVector), (docA, twoVector)]).decodeRows = [(RowId.new memtableSegment 0, twoVector, 0)] ∧
      (bufferedSource [(docA, oneVector), (docA, twoVector)]).len = 1 := by decide +kernel

/-- Two documents, and a third after them. -/
def twoRows : VectorSource := bufferedSource [(docA, oneVector), (docB, twoVector)]

def threeRows : VectorSource := bufferedSource [(docA, oneVector), (docB, twoVector), (docD, threeVector)]

/-- The graph of the two, and the storage with its snapshot. -/
def preparedTwo : (Except DbError Unit × Graph) × MemoryStorage :=
  (prepare (hnswLinking .whole .default) .default twoRows .l2 (StoredSnapshots.new someName .hnsw) .default).run device
    (madeStorage .none)

theorem preparedTwo_firstRows : FirstRows preparedTwo.1.2 threeRows := by
  have hlen : preparedTwo.1.2.len = 2 := by decide +kernel
  have hrows : threeRows.decodeRows = [(RowId.new memtableSegment 0, oneVector, 0),
      (RowId.new memtableSegment 1, twoVector, 0), (RowId.new memtableSegment 2, threeVector, 0)] := by decide +kernel
  have hnodes : preparedTwo.1.2.rows = [RowId.new memtableSegment 0, RowId.new memtableSegment 1] ∧
      preparedTwo.1.2.vector 0 = some oneVector ∧ preparedTwo.1.2.vector 1 = some twoVector := by decide +kernel
  intro n r hn hr
  rw [hrows] at hr
  rw [hnodes.1]
  match n, hlen ▸ hn with
  | 0, _ => cases hr; exact ⟨rfl, hnodes.2.1⟩
  | 1, _ => cases hr; exact ⟨rfl, hnodes.2.2⟩

/-- A graph of two rows is held and its snapshot is stored, and a third row is there: it is extended. -/
theorem describes_extended : (storedPayload preparedTwo.2 someName .hnsw).isSome ∧ preparedTwo.1.2.len = 2 ∧
    Describes ((prepare (hnswLinking .whole .default) .default threeRows .l2 (StoredSnapshots.new someName .hnsw)
      preparedTwo.1.2).run device preparedTwo.2).1.2 threeRows .l2 := by
  have hheld : Held (hnswLinking .whole .default) .default preparedTwo.1.2 := .prepare twoRows .l2 someName _ .new
  refine ⟨by decide +kernel, by decide +kernel, ?_⟩
  exact (prepare_describes_iff hheld threeRows .l2 someName preparedTwo.2).2.mpr
    ⟨by decide +kernel, fun _ _ => ⟨by decide +kernel, fun _ => preparedTwo_firstRows⟩⟩

/-- **A document's vector is replaced** in the memtable: its row keeps its number and there are as many rows as before, so
    the graph keeps the old vector. -/
theorem replaced_vector_kept : ¬ (∀ (linking : Linking) (params : HnswParams) (g : Graph), Held linking params g →
    ∀ (source : VectorSource) (metric : Metric) (name : Str) (s : MemoryStorage),
      ((prepare linking params source metric (StoredSnapshots.new name .hnsw) g).run device s).1.1 = .ok () →
        Describes ((prepare linking params source metric (StoredSnapshots.new name .hnsw) g).run device s).1.2
          source metric) := by
  intro hall
  have hprepare := hall (hnswLinking .whole .default) .default
  have hheld := Held.prepare (bufferedSource [(docA, oneVector)]) .l2 someName MemoryStorage.new
    (.new : Held (hnswLinking .whole .default) .default .default)
  have hfirst := hprepare _ .new (bufferedSource [(docA, oneVector)]) .l2 someName MemoryStorage.new
    (prepare_ends _ _ _ _ _ _ _).1
  have hsecond := hprepare _ hheld (bufferedSource [(docA, oneVector), (docA, twoVector)]) .l2 someName MemoryStorage.new
    (prepare_ends _ _ _ _ _ _ _).1
  rw [(prepare_ends _ _ (bufferedSource [(docA, oneVector), (docA, twoVector)]) _ _ _ _).2,
    prepared_same hfirst (bufferedSource_two.2.trans bufferedSource_one.2.symm) rfl] at hsecond
  have hone := hfirst.vectors 0 _ (by rw [bufferedSource_one.1]; rfl)
  have htwo := hsecond.vectors 0 _ (by rw [bufferedSource_two.1]; rfl)
  rw [hone] at htwo
  exact absurd (Option.some.inj htwo) (by decide)

end Example

end HnswIndex

end IshaVectorDb.Engine
