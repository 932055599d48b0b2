import IshaVectorDb.Correctness.GraphSearch

/-!
# `Correctness.GraphSnapshots` — **which graphs a snapshot gives back**, and what any accepted snapshot is

A snapshot keeps node counts and two of the parameters in 32 bits. So a graph is given back exactly where they fit
(`snapshot_restores_iff`). Whatever bytes are accepted, the graph they give is sound: its entry point and neighbours are
nodes, every array has its length, and searching and extending it end without reading outside it (`decode_sound`).
-/

namespace IshaVectorDb.Index

open Format Parsing Beam

namespace Snapshot

/-- A cursor gives what it reads from the front. -/
theorem runCursor_eq_some {α : Type} {c : Cursor α} {bs : Bytes} {a : α} :
    runCursor c bs = some a ↔ ∃ j, c ⟨bs, 0⟩ = .ok (a, j) := by
  unfold runCursor
  cases c ⟨bs, 0⟩ with
  | error e => exact ⟨nofun, nofun⟩
  | ok found =>
    obtain ⟨b, j⟩ := found
    constructor
    · intro h
      exact ⟨j, by rw [Option.some.inj h]⟩
    · rintro ⟨j', h⟩
      rw [(Prod.mk.inj (Except.ok.inj h)).1]

/-! ## Reading what was written -/

namespace Cursor

theorem reads_take {bs : Bytes} {n : Nat} (h : bs.length = n) : Reads (Cursor.take n) bs bs := by
  subst h
  intro rest o
  unfold Cursor.take
  rw [if_pos (by simp)]
  dsimp only
  rw [List.take_left, List.drop_left]

theorem reads_u8 (b : UInt8) : Reads Cursor.u8 [b] b := (reads_take (show [b].length = 1 from rfl)).bind_nil (Reads.pure b)

theorem reads_u16 (v : UInt16) : Reads Cursor.u16 (Writer.u16 v) v := by
  have h : Reads Cursor.u16 (Writer.u16 v) (UInt16.ofNat (leNat (Writer.u16 v))) :=
    (reads_take (Writer.u16_length v)).bind_nil (Reads.pure _)
  rwa [show UInt16.ofNat (leNat (Writer.u16 v)) = v from leNat_u16 v] at h

theorem reads_u32 (v : UInt32) : Reads Cursor.u32 (Writer.u32 v) v := by
  have h : Reads Cursor.u32 (Writer.u32 v) (UInt32.ofNat (leNat (Writer.u32 v))) :=
    (reads_take (Writer.u32_length v)).bind_nil (Reads.pure _)
  rwa [show UInt32.ofNat (leNat (Writer.u32 v)) = v from leNat_u32 v] at h

theorem reads_u64 (v : UInt64) : Reads Cursor.u64 (Writer.u64 v) v := by
  have h : Reads Cursor.u64 (Writer.u64 v) (UInt64.ofNat (leNat (Writer.u64 v))) :=
    (reads_take (Writer.u64_length v)).bind_nil (Reads.pure _)
  rwa [show UInt64.ofNat (leNat (Writer.u64 v)) = v from leNat_u64 v] at h

theorem reads_guard {ok : Bool} (h : ok = true) : Reads (Cursor.guard ok) [] () := by
  rw [h]
  exact Reads.pure ()

theorem guard_bind {α : Type} {ok : Bool} (h : ok = true) (f : Unit → Cursor α) (i : Input) :
    (Cursor.guard ok >>= f) i = f () i := by
  rw [h]
  rfl

/-- Going on means that the condition holds. -/
theorem guard_yields (ok : Bool) : Yields (Cursor.guard ok) (fun _ => ok = true) := by
  unfold Cursor.guard
  split
  · rename_i h
    exact Yields.pure h
  · exact Yields.fail ()

end Cursor

theorem metricFrom_metricCode (metric : Metric) : metricFrom (metricCode (some metric)) = some metric := by
  cases metric <;> rfl

/-- What is put before the rows. -/
def headerBytes (g : Graph) (p : HnswParams) : Bytes :=
  Writer.u32 magic ++ Writer.u16 version ++ Writer.u16 (metricCode g.metric) ++
    Writer.u32 (UInt32.ofNat g.dimension) ++ Writer.u32 (UInt32.ofNat p.m) ++
    Writer.u32 (UInt32.ofNat p.efConstruction) ++ Writer.u64 p.seed ++
    Writer.u32 (UInt32.ofNat g.len) ++ Writer.u32 (UInt32.ofNat g.layers.length) ++ entryBytes g.entry

theorem encode_eq (g : Graph) (p : HnswParams) : encode g p = headerBytes g p ++
    (g.rows.flatMap (fun row => Writer.u64 row.value) ++ (g.levels ++
      g.layers.flatMap (fun layer => layer.flatMap neighbourBytes))) := by
  unfold encode headerBytes
  simp only [List.append_assoc]

theorem headerBytes_length (g : Graph) (p : HnswParams) : (headerBytes g p).length = 41 := by
  unfold headerBytes entryBytes
  cases g.entry <;> simp

/-- The byte and the word that say where the entry point is. -/
def entryWord : Option Nat → UInt8 × UInt32
  | some entry => (1, UInt32.ofNat entry)
  | none => (0, 0)

theorem entryBytes_eq (entry : Option Nat) :
    entryBytes entry = (entryWord entry).1 :: Writer.u32 (entryWord entry).2 := by
  cases entry <;> rfl

/-- **What a header says**, if its checks pass. -/
theorem readHeader_encode {g : Graph} {metric : Metric} (hmetric : g.metric = some metric) (p : HnswParams) (len : Nat)
    (rest : Bytes) : readHeader p len ⟨headerBytes g p ++ rest, 0⟩ = (do
      Cursor.guard ((UInt32.ofNat g.len).toNat * minBytesPerNode ≤ len)
      Cursor.guard ((UInt32.ofNat g.layers.length).toNat ≤ maxLevel + 1)
      let entry ← Cursor.some? (readEntry (entryWord g.entry).1 (entryWord g.entry).2 (UInt32.ofNat g.len).toNat)
      let body ← position
      return ⟨metric, (UInt32.ofNat g.dimension).toNat, (UInt32.ofNat g.len).toNat, (UInt32.ofNat g.layers.length).toNat,
        entry, (UInt32.ofNat p.m).toNat = p.m && (UInt32.ofNat p.efConstruction).toNat = p.efConstruction &&
          p.seed = p.seed, body⟩ : Cursor Header) ⟨rest, 41⟩ := by
  unfold readHeader headerBytes
  simp only [List.append_assoc]
  rw [entryBytes_eq, hmetric, List.cons_append]
  refine (bind_of_ok (Cursor.reads_u32 _ _ _)).trans ?_
  refine (bind_of_ok (Cursor.reads_guard (by decide) _ _)).trans ?_
  refine (bind_of_ok (Cursor.reads_u16 _ _ _)).trans ?_
  refine (bind_of_ok (Cursor.reads_guard (by decide) _ _)).trans ?_
  refine (bind_of_ok (Cursor.reads_u16 _ _ _)).trans ?_
  rw [metricFrom_metricCode]
  refine (bind_of_ok (Reads.pure metric _ _)).trans ?_
  refine (bind_of_ok (Cursor.reads_u32 _ _ _)).trans ?_
  refine (bind_of_ok (Cursor.reads_u32 _ _ _)).trans ?_
  refine (bind_of_ok (Cursor.reads_u32 _ _ _)).trans ?_
  refine (bind_of_ok (Cursor.reads_u64 _ _ _)).trans ?_
  refine (bind_of_ok (Cursor.reads_u32 _ _ _)).trans ?_
  refine (bind_of_ok (Cursor.reads_u32 _ _ _)).trans ?_
  refine (bind_of_ok (Cursor.reads_u8 _ _ _)).trans ?_
  refine (bind_of_ok (Cursor.reads_u32 _ _ _)).trans ?_
  simp only [List.length_nil, Writer.u32_length, Writer.u16_length, Writer.u64_length, List.length_singleton]

theorem toNat_of_fits {n : Nat} (h : n < 2 ^ 32) : (UInt32.ofNat n).toNat = n := UInt32.toNat_ofNat_of_lt' h

theorem readEntry_entryWord {entry : Option Nat} {nodes : Nat} (hn : nodes < 2 ^ 32)
    (he : ∀ e, entry = some e → e < nodes) :
    readEntry (entryWord entry).1 (entryWord entry).2 nodes = some entry := by
  cases entry with
  | none => rfl
  | some e =>
    have hlt := he e rfl
    have hfits : (UInt32.ofNat e).toNat = e := toNat_of_fits (by omega)
    show (if (1 : UInt8) = 0 then _ else if (1 : UInt8) = 1 ∧ (UInt32.ofNat e).toNat < nodes then _ else _) = _
    rw [if_neg (by decide), hfits, if_pos ⟨rfl, hlt⟩]
    exact congrArg (fun n => some (some n)) hfits

/-- **A node's neighbours are read back**, being fewer than the nodes and nodes themselves. -/
theorem reads_neighbours {nodes : Nat} (hn : nodes < 2 ^ 32) {list : List Nat} (hlen : list.length ≤ nodes)
    (hall : ∀ x ∈ list, x < nodes) : Reads (readNeighbours nodes) (neighbourBytes list) list := by
  have hcount : (UInt32.ofNat list.length).toNat = list.length := toNat_of_fits (by omega)
  unfold readNeighbours neighbourBytes
  refine (Cursor.reads_u32 _).bind ?_
  rw [hcount]
  refine (Cursor.reads_guard (decide_eq_true hlen)).nil_bind ?_
  suffices h : ∀ x ∈ list, Reads (readNeighbour nodes) (Writer.u32 (UInt32.ofNat x)) x from Reads.times h
  intro x hx
  have hfits : (UInt32.ofNat x).toNat = x := toNat_of_fits (by have := hall x hx; omega)
  unfold readNeighbour
  refine (Cursor.reads_u32 _).bind_nil ?_
  rw [hfits]
  exact (Cursor.reads_guard (decide_eq_true (hall x hx))).nil_bind (Reads.pure x)

/-- **The rows are recognised.** -/
theorem reads_rows {dimension : Nat} (rows : List DecodedRow) (h : ∀ r ∈ rows, r.2.1.length = dimension) :
    Reads (readRows dimension rows) ((rows.map Prod.fst).flatMap (fun row => Writer.u64 row.value)) () := by
  induction rows with
  | nil => exact Reads.pure ()
  | cons r rows ih =>
    obtain ⟨hr, hrest⟩ := List.forall_mem_cons.mp h
    unfold readRows
    rw [List.map_cons, List.flatMap_cons]
    refine (Cursor.reads_u64 _).bind ?_
    refine (Cursor.reads_guard (decide_eq_true rfl)).nil_bind ?_
    exact (Cursor.reads_guard (decide_eq_true hr)).nil_bind (ih hrest)

/-- A graph whose numbers fit in a snapshot, over these rows. -/
structure Fits (g : Graph) (metric : Metric) (dimension : UInt32) (rows : List DecodedRow) : Prop extends g.Sound where
  few : g.len < 2 ^ 32
  metric_eq : g.metric = some metric
  dimension_eq : g.dimension = dimension.toNat
  rows_eq : g.rows = rows.map Prod.fst
  vectors_eq : g.vectors = rows.flatMap (fun r => r.2.1)
  invNorms_eq : g.invNorms = rows.map (fun r => r.2.2)
  dims : ∀ r ∈ rows, r.2.1.length = dimension.toNat
  low : g.layers.length ≤ maxLevel + 1
  based : 0 < g.len → 0 < g.layers.length
  short : ∀ l n, (g.neighbours l n).length ≤ g.len

section Restore

variable {g : Graph} {metric : Metric} {dimension : UInt32} {rows : List DecodedRow} {p : HnswParams}

/-- What a graph's header says of it. -/
def headerOf (g : Graph) (metric : Metric) (p : HnswParams) : Header :=
  ⟨metric, g.dimension, g.len, g.layers.length, g.entry, (UInt32.ofNat p.m).toNat = p.m &&
    (UInt32.ofNat p.efConstruction).toNat = p.efConstruction && p.seed = p.seed, 41⟩

theorem Fits.len_rows (h : Fits g metric dimension rows) : g.len = rows.length := by
  unfold Graph.len
  rw [h.rows_eq, List.length_map]

theorem layerBytes_length (layer : List (List Nat)) : 4 * layer.length ≤ (layer.flatMap neighbourBytes).length := by
  induction layer with
  | nil => exact Nat.zero_le _
  | cons list layer ih =>
    have hlist : 4 ≤ (neighbourBytes list).length := by
      unfold neighbourBytes
      rw [List.length_append, Writer.u32_length]
      omega
    rw [List.flatMap_cons, List.length_append, List.length_cons]
    omega

/-- A snapshot is not too short for its nodes. -/
theorem Fits.encode_length (h : Fits g metric dimension rows) :
    g.len * minBytesPerNode ≤ (encode g p).length := by
  have hrows : (g.rows.flatMap (fun row => Writer.u64 row.value)).length = g.len * 8 :=
    length_flatMap_stride (fun row _ => Writer.u64_length _)
  rw [encode_eq, List.length_append, List.length_append, List.length_append, hrows, h.levels, headerBytes_length]
  unfold minBytesPerNode
  by_cases hzero : g.len = 0
  · omega
  · -- there is a layer, and it has four bytes for each node
    cases hl : g.layers with
    | nil =>
      have := h.based (by omega)
      rw [hl, List.length_nil] at this
      omega
    | cons layer rest =>
      have hlayer := layerBytes_length layer
      rw [(h.layers layer (hl ▸ List.mem_cons_self)).2 (Nat.le_of_lt h.few)] at hlayer
      rw [List.flatMap_cons, List.length_append]
      omega

/-- **The header is read back.** -/
theorem Fits.decodeHeader (h : Fits g metric dimension rows) :
    decodeHeader (encode g p) p = some (headerOf g metric p) := by
  have hlayers : (UInt32.ofNat g.layers.length).toNat = g.layers.length := toNat_of_fits (by
    have := h.low
    unfold maxLevel at this
    omega)
  have hdim : (UInt32.ofNat g.dimension).toNat = g.dimension := toNat_of_fits (h.dimension_eq ▸ dimension.toNat_lt)
  unfold Snapshot.decodeHeader runCursor
  have hsize := h.encode_length (p := p)
  revert hsize
  generalize (encode g p).length = len
  intro hsize
  rw [encode_eq, readHeader_encode h.metric_eq, toNat_of_fits h.few, hlayers, hdim,
    readEntry_entryWord h.few h.entry, Cursor.guard_bind (decide_eq_true hsize), Cursor.guard_bind (decide_eq_true h.low)]
  rfl

/-- **The body is read back.** -/
theorem Fits.readBody (h : Fits g metric dimension rows) :
    Reads (readBody (headerOf g metric p) rows) (encode g p) g := by
  have hlists (layer : List (List Nat)) (hlayer : layer ∈ g.layers) (list : List Nat) (hlist : list ∈ layer) :
      Reads (readNeighbours g.len) (neighbourBytes list) list := by
    obtain ⟨l, hl⟩ := List.getElem?_of_mem hlayer
    obtain ⟨n, hn⟩ := List.getElem?_of_mem hlist
    have hat : g.neighbours l n = list := by
      unfold Graph.neighbours
      rw [hl, Option.bind_some, hn]
      rfl
    exact reads_neighbours h.few (hat ▸ h.short l n) (hat ▸ h.neighbours l n)
  have hlayers : Reads (times (times (readNeighbours g.len) g.len) g.layers.length)
      (g.layers.flatMap (fun layer => layer.flatMap neighbourBytes)) g.layers := by
    have hlayer (layer : List (List Nat)) (hlayer : layer ∈ g.layers) :
        Reads (times (readNeighbours g.len) g.len) (layer.flatMap neighbourBytes) layer := by
      have hread := Reads.times (hlists layer hlayer)
      rwa [(h.layers layer hlayer).2 (Nat.le_of_lt h.few)] at hread
    exact Reads.times hlayer
  unfold Snapshot.readBody
  rw [encode_eq]
  refine (Cursor.reads_take (headerBytes_length g p)).bind ?_
  have hdims : ∀ r ∈ rows, r.2.1.length = (headerOf g metric p).dimension := by
    intro r hr
    rw [h.dims r hr]
    exact h.dimension_eq.symm
  rw [h.rows_eq]
  refine (reads_rows rows hdims).bind ?_
  refine (Cursor.reads_take h.levels).bind ?_
  refine hlayers.bind_nil ?_
  refine (Cursor.reads_guard ?_).nil_bind ((Cursor.reads_guard ?_).nil_bind ?_)
  · rw [Bool.and_eq_true, List.all_eq_true]
    exact ⟨decide_eq_true h.levels, fun layer hlayer =>
      decide_eq_true ((h.layers layer hlayer).2 (Nat.le_of_lt h.few))⟩
  · exact decide_eq_true h.entered
  · have hg : (⟨g.rows, g.vectors, g.invNorms, g.levels, g.layers, g.entry, g.dimension, some metric⟩ : Graph) = g := by
      rw [← h.metric_eq]
    rw [← h.rows_eq, ← h.vectors_eq, ← h.invNorms_eq]
    show Reads (pure (⟨g.rows, g.vectors, g.invNorms, g.levels, g.layers, g.entry, g.dimension, some metric⟩ : Graph)) [] g
    rw [hg]
    exact Reads.pure g

/-- **A snapshot gives its graph back** to the same rows and parameters. -/
def Restores (g : Graph) (p : HnswParams) (rows : List DecodedRow) : Prop :=
  ∃ header, Snapshot.decodeHeader (encode g p) p = some header ∧ header.paramsMatch = true ∧
    decode (encode g p) header rows = some g

theorem Fits.restores (h : Fits g metric dimension rows) (hm : p.m < 2 ^ 32) (hef : p.efConstruction < 2 ^ 32) :
    Restores g p rows := by
  refine ⟨headerOf g metric p, h.decodeHeader, ?_, ?_⟩
  · unfold headerOf
    simp [toNat_of_fits hm, toNat_of_fits hef]
  · have hread := h.readBody (p := p) [] 0
    rw [List.append_nil] at hread
    unfold decode
    rw [if_neg (show ¬ (headerOf g metric p).nodes ≠ rows.length from not_not.mpr h.len_rows)]
    exact runCursor_eq_some.mpr ⟨_, hread⟩

/-- A graph that is given back has counts of 32 bits. -/
theorem Restores.small (h : Restores g p rows) (hmetric : g.metric = some metric) (hlen : g.len = rows.length) :
    g.len < 2 ^ 32 ∧ p.m < 2 ^ 32 ∧ p.efConstruction < 2 ^ 32 := by
  obtain ⟨header, hheader, hmatch, hdecode⟩ := h
  obtain ⟨j, hrun⟩ := runCursor_eq_some.mp hheader
  rw [encode_eq, readHeader_encode hmetric] at hrun
  obtain ⟨-, k1, -, hrun⟩ := bind_eq_ok.mp hrun
  obtain ⟨-, k2, -, hrun⟩ := bind_eq_ok.mp hrun
  obtain ⟨entry, k3, -, hrun⟩ := bind_eq_ok.mp hrun
  obtain ⟨body, k4, -, hrun⟩ := bind_eq_ok.mp hrun
  obtain ⟨rfl, -⟩ := Prod.mk.inj (Except.ok.inj hrun)
  have hnodes : (UInt32.ofNat g.len).toNat = rows.length := by
    unfold decode at hdecode
    split at hdecode
    · cases hdecode
    · rename_i hsame
      exact not_not.mp hsame
  simp only [Bool.and_eq_true, decide_eq_true_eq] at hmatch
  refine ⟨?_, ?_, ?_⟩
  · rw [hlen, ← hnodes]
    exact UInt32.toNat_lt _
  · rw [← hmatch.1.1]
    exact UInt32.toNat_lt _
  · rw [← hmatch.1.2]
    exact UInt32.toNat_lt _

/-! ## The graphs that are built -/

variable {M : Machine}

theorem levelFor_le (M : Machine) (p : HnswParams) (row : RowId) : (levelFor M p row).toNat ≤ maxLevel := by
  have hle := Nat.min_le_right (M.draw (levelHash row p.seed >>> 11) p.m) maxLevel
  have hfits : (levelFor M p row).toNat = min (M.draw (levelHash row p.seed >>> 11) p.m) maxLevel :=
    UInt8.toNat_ofNat_of_lt' (Nat.lt_of_le_of_lt hle (by decide))
  rw [hfits]
  exact hle

variable (M p) in
/-- A graph with nodes has layers, and no more than there may be. -/
theorem height_extend (hg : g.Sound) (hlow : g.layers.length ≤ maxLevel + 1)
    (hbased : 0 < g.len → 0 < g.layers.length) (hrows : ∀ r ∈ rows, r.2.1.length = g.dimension)
    (hmetric : g.metric = some metric) :
    (g.extend (hnswLinking M p) rows).layers.length ≤ maxLevel + 1 ∧
      (0 < (g.extend (hnswLinking M p) rows).len → 0 < (g.extend (hnswLinking M p) rows).layers.length) := by
  induction rows generalizing g with
  | nil => exact ⟨hlow, hbased⟩
  | cons r rows ih =>
    obtain ⟨hr, hrest⟩ := List.forall_mem_cons.mp hrows
    obtain ⟨g', hadded⟩ := hg.addRow M metric p hr
    have hheight := hadded.height
    have hlevel := levelFor_le M p r.1
    rw [hadded.extend_cons hmetric]
    exact ih hadded.sound (by omega) (fun _ => by omega) (fun r h => hadded.dimension ▸ hrest r h)
      (hadded.metric_eq.trans hmetric)

theorem fits_built (M : Machine) (p : HnswParams) (hrows : ∀ r ∈ rows, r.2.1.length = dimension.toNat)
    (hfew : rows.length < 2 ^ 32) :
    Fits (Graph.buildFrom (hnswLinking M p) rows dimension.toNat metric) metric dimension rows := by
  have hnew := Graph.wellFormed_new p dimension.toNat metric
  have hwell := hnew.extend (M := M)
    (by rw [show Graph.len { Graph.default with dimension := dimension.toNat, metric := some metric } = 0 from rfl]; omega)
    hrows rfl
  obtain ⟨hids, hvectors, hnorms, -, hdim, hmetric⟩ := Graph.extend_nodes (hnswLinking M p)
    { Graph.default with dimension := dimension.toNat, metric := some metric } rows
  have hlen := Graph.len_extend (hnswLinking M p)
    { Graph.default with dimension := dimension.toNat, metric := some metric } rows
  obtain ⟨hlow, hbased⟩ := height_extend p M hnew.toSound (Nat.zero_le _) nofun hrows rfl
  have hlen : (Graph.buildFrom (hnswLinking M p) rows dimension.toNat metric).len = rows.length :=
    hlen.trans (Nat.zero_add _)
  refine ⟨hwell.toSound, hlen ▸ hfew, hmetric, hdim, hids, hvectors, hnorms, hrows, hlow, hbased, fun l n => ?_⟩
  exact Graph.nodup_length_le (hwell.once l n) (hwell.neighbours l n)

/-! ## What is accepted -/

theorem readEntry_lt {hasEntry : UInt8} {value : UInt32} {nodes e : Nat}
    (h : readEntry hasEntry value nodes = some (some e)) : e < nodes := by
  unfold readEntry at h
  split at h
  · cases h
  split at h
  · rename_i hin
    obtain rfl := Option.some.inj (Option.some.inj h)
    exact hin.2
  · cases h

/-- The entry point of an accepted header is a node, and it counts the nodes in 32 bits. -/
theorem readHeader_entry (p : HnswParams) (len : Nat) :
    Yields (readHeader p len) (fun h => (∀ e, h.entry = some e → e < h.nodes) ∧ h.nodes < 2 ^ 32) := by
  unfold readHeader
  refine .skip fun _ => .skip fun _ => .skip fun _ => .skip fun _ => .skip fun _ => .skip fun metric => ?_
  refine .skip fun dimension => .skip fun m => .skip fun ef => .skip fun seed => .skip fun nodes => .skip fun layers => ?_
  refine .skip fun hasEntry => .skip fun value => .skip fun _ => .skip fun _ => ?_
  refine .bind (P := fun entry => ∀ e, entry = some e → e < nodes.toNat) ?_ (fun entry hentry => .skip fun body => ?_)
  · cases hread : readEntry hasEntry value nodes.toNat with
    | none => exact .fail ()
    | some entry => exact .pure (fun e he => readEntry_lt (he ▸ hread))
  · exact .pure ⟨hentry, nodes.toNat_lt⟩

theorem readRows_dims (dimension : Nat) (rows : List DecodedRow) :
    Yields (readRows dimension rows) (fun _ => ∀ r ∈ rows, r.2.1.length = dimension) := by
  induction rows with
  | nil => exact .pure nofun
  | cons r rows ih =>
    unfold readRows
    refine .skip fun _ => .skip fun _ => .bind (Cursor.guard_yields _) (fun _ hr => ?_)
    intro i u j hrun
    exact List.forall_mem_cons.mpr ⟨of_decide_eq_true hr, ih i u j hrun⟩

theorem readNeighbour_lt (nodes : Nat) : Yields (readNeighbour nodes) (· < nodes) := by
  unfold readNeighbour
  exact .skip fun n => .bind (Cursor.guard_yields _) (fun _ hn => .pure (of_decide_eq_true hn))

theorem readNeighbours_lt (nodes : Nat) : Yields (readNeighbours nodes) (fun list => ∀ x ∈ list, x < nodes) := by
  unfold readNeighbours
  exact .skip fun count => .skip fun _ => .times (readNeighbour_lt nodes) _

/-- **An accepted body is a sound graph**, of the metric and dimension that its header says. -/
theorem readBody_sound {header : Header} {rows : List DecodedRow} (hnodes : header.nodes = rows.length)
    (hentry : ∀ e, header.entry = some e → e < header.nodes) : Yields (readBody header rows)
      (fun g => g.Sound ∧ g.metric = some header.metric ∧ g.dimension = header.dimension ∧ g.rows = rows.map Prod.fst) := by
  unfold readBody
  refine .skip fun _ => .bind (readRows_dims header.dimension rows) (fun _ hdims => .skip fun levels => ?_)
  refine .bind ((readNeighbours_lt header.nodes).times header.nodes |>.times header.layers) (fun layers hlists => ?_)
  refine .bind (Cursor.guard_yields _) (fun _ hfull => .bind (Cursor.guard_yields _) (fun _ hsome => .pure ?_))
  rw [Bool.and_eq_true, List.all_eq_true] at hfull
  obtain ⟨hlevels, hlayers⟩ := hfull
  have hlen : (rows.map Prod.fst).length = header.nodes := by rw [List.length_map, hnodes]
  refine ⟨⟨⟨?_, ?_, ?_, fun layer hlayer => ?_, fun l n x hx => ?_⟩, fun e he => ?_, ?_⟩, rfl, rfl, rfl⟩
  · show (rows.flatMap (fun r => r.2.1)).length = (rows.map Prod.fst).length * header.dimension
    rw [List.length_map]
    exact length_flatMap_stride hdims
  · show (rows.map (fun r => r.2.2)).length = (rows.map Prod.fst).length
    rw [List.length_map, List.length_map]
  · exact (of_decide_eq_true hlevels).trans hlen.symm
  · have hlists := (of_decide_eq_true (hlayers layer hlayer)).trans hlen.symm
    exact ⟨le_of_eq hlists, fun _ => hlists⟩
  · show x < (rows.map Prod.fst).length
    rw [hlen]
    have hx : x ∈ ((layers[l]?).bind (fun lists => lists[n]?)).getD [] := hx
    cases hl : layers[l]? with
    | none => rw [hl] at hx; cases hx
    | some lists =>
      rw [hl, Option.bind_some] at hx
      cases hlist : lists[n]? with
      | none => rw [hlist] at hx; cases hx
      | some list =>
        rw [hlist] at hx
        exact hlists lists (List.mem_of_getElem? hl) list (List.mem_of_getElem? hlist) x hx
  · show e < (rows.map Prod.fst).length
    rw [hlen]
    exact hentry e he
  · show header.entry.isSome = decide (0 < (rows.map Prod.fst).length)
    rw [hlen]
    exact of_decide_eq_true hsome

/-- **A graph that is safe to use**: its entry point and all its neighbours are nodes, it has a level for each node and a
    list for each on every layer; a search of it ends, for every query, and so does adding rows, for all parameters. -/
structure SafeToUse (g : Graph) : Prop where
  entry : ∀ e, g.entry = some e → e < g.len
  neighbours : ∀ l n, ∀ x ∈ g.neighbours l n, x < g.len
  levels : g.levels.length = g.len
  layers : ∀ layer ∈ g.layers, layer.length = g.len
  search : ∀ M rowScore p q out, ∃ r, HnswIndex.search M rowScore p g q out = some r
  extend : ∀ M p metric (rows : List DecodedRow), g.metric = some metric → (∀ r ∈ rows, r.2.1.length = g.dimension) →
    rows.foldlM (Graph.addRow M metric p) g = some (g.extend (hnswLinking M p) rows)

theorem safeToUse_of_sound (hg : g.Sound) (hfew : g.len < 2 ^ 32) : SafeToUse g := by
  refine ⟨hg.entry, hg.neighbours, hg.levels, fun layer hlayer => (hg.layers layer hlayer).2 (Nat.le_of_lt hfew), fun M rowScore p q out => ?_, fun M p metric rows hm hrows => ?_⟩
  · obtain ⟨r, hrun, -⟩ := HnswIndex.search_ends M rowScore p q hg out
    exact ⟨r, hrun⟩
  · exact (hg.extend M metric p hrows hm).1

theorem decode_sound {bs : Bytes} {header : Header} (hheader : Snapshot.decodeHeader bs p = some header)
    (hdecode : decode bs header rows = some g) : g.Sound ∧ g.len < 2 ^ 32 := by
  obtain ⟨j, hrun⟩ := runCursor_eq_some.mp hheader
  obtain ⟨hentry, hfew⟩ := readHeader_entry p bs.length ⟨bs, 0⟩ _ _ hrun
  unfold decode at hdecode
  split at hdecode
  · cases hdecode
  rename_i hnodes
  obtain ⟨j', hrun'⟩ := runCursor_eq_some.mp hdecode
  obtain ⟨hsound, -, -, hrows⟩ := readBody_sound (not_not.mp hnodes) hentry ⟨bs, 0⟩ _ _ hrun'
  refine ⟨hsound, ?_⟩
  unfold Graph.len
  rw [hrows, List.length_map, ← not_not.mp hnodes]
  exact hfew

/-- **Snapshots give back** the graphs of every build and its extensions exactly where counts fit in 32 bits, and
    whatever bytes are accepted, what they give is safe to use. -/
theorem snapshot_restores_iff (M : Machine) (p : HnswParams) (rows : List DecodedRow) (more : List (List DecodedRow))
    (dimension : UInt32) (metric : Metric) (hrows : ∀ r ∈ rows ++ more.flatten, r.2.1.length = dimension.toNat) :
    (Restores (more.foldl (Graph.extend (hnswLinking M p))
        (Graph.buildFrom (hnswLinking M p) rows dimension.toNat metric)) p (rows ++ more.flatten) ↔
      (rows ++ more.flatten).length < 2 ^ 32 ∧ p.m < 2 ^ 32 ∧ p.efConstruction < 2 ^ 32) ∧
    ∀ bs header (stored : List DecodedRow) g, Snapshot.decodeHeader bs p = some header →
      decode bs header stored = some g → SafeToUse g := by
  refine ⟨?_, fun bs header stored g hheader hdecode => ?_⟩
  swap
  · obtain ⟨hsound, hfew⟩ := decode_sound hheader hdecode
    exact safeToUse_of_sound hsound hfew
  rw [Graph.foldl_extend]
  have hlen : (Graph.buildFrom (hnswLinking M p) (rows ++ more.flatten) dimension.toNat metric).len
      = (rows ++ more.flatten).length := (Graph.len_extend _ _ _).trans (Nat.zero_add _)
  have hmetric : (Graph.buildFrom (hnswLinking M p) (rows ++ more.flatten) dimension.toNat metric).metric = some metric :=
    (Graph.extend_nodes _ _ _).2.2.2.2.2
  refine ⟨fun h => ?_, fun ⟨hfew, hm, hef⟩ => (fits_built M p hrows hfew).restores hm hef⟩
  rw [← hlen]
  exact h.small hmetric hlen

end Restore

/-! ## A parameter that does not fit -/

/-- The default parameters with a candidate list of `2 ^ 32`. -/
def wideParams : HnswParams := { HnswParams.default with efConstruction := 2 ^ 32 }

theorem restores_small : Restores (([[lowRow]] : List (List DecodedRow)).foldl (Graph.extend (hnswLinking .whole .default))
    (Graph.buildFrom (hnswLinking .whole .default) [highRow] 1 .l2)) .default [highRow, lowRow] :=
  ((snapshot_restores_iff .whole .default [highRow] [[lowRow]] 1 .l2 (by decide)).1).mpr (by decide)

/-- The graph of one row is not given back, because its own snapshot seems to be one of other parameters. -/
theorem wide_not_restored : ¬ (∀ (rows : List DecodedRow), (∀ r ∈ rows, r.2.1.length = 1) →
    Restores (Graph.buildFrom (hnswLinking .whole wideParams) rows 1 .l2) wideParams rows) := by
  intro hall
  obtain ⟨header, hheader, hmatch, -⟩ := hall [lowRow] (by decide)
  have hother : (Snapshot.decodeHeader
      (encode (Graph.buildFrom (hnswLinking .whole wideParams) [lowRow] 1 .l2) wideParams) wideParams).map
        Header.paramsMatch = some false := by decide +kernel
  obtain ⟨header', hheader', hother⟩ := Option.map_eq_some_iff.mp hother
  obtain rfl := Option.some.inj (hheader.symm.trans hheader')
  rw [hmatch] at hother
  cases hother

end Snapshot

end IshaVectorDb.Index
