import IshaVectorDb.Correctness.CurrentRows
import IshaVectorDb.Correctness.GraphSearch

/-!
# `Correctness.ExactSearch` — **the exact search answers from the documents**

A collection refines a map of documents, and an exact search of it returns the best of those that match: the hits are the
best `k` by score, each document once with its current vector's score, best first and equal scores by id
(`Run.search_exact`). Where the last place is contested by equal scores, it goes to the document whose row comes first.
-/

namespace IshaVectorDb.Engine

open Format Interaction Index KeyLog Correctness Beam

/-! ## What a search should answer -/

/-- Whether a document matches a filter. -/
def Doc.matches (filter : Option Filter) (d : Doc) : Bool := filter.all (fun f => f.matchesFields d.fields)

/-- **Hits are sound**: best first and at most `k`, each a document that is accepted, once, with its score. -/
structure SoundHits (docs : DocMap) (accepts : Doc → Bool) (score : DocId → Doc → UInt32) (k : Nat) (minScore : Option UInt32)
    (inc : Include) (hits : List Hit) : Prop where
  ordered : hits.Pairwise Hit.before
  distinct : (hits.map Hit.id).Nodup
  few : hits.length ≤ k
  sound : ∀ hit ∈ hits, ∃ d, docs hit.id = some d ∧ accepts d = true ∧ hit.score = score hit.id d ∧
    minScore.any (fun least => Score.gt least hit.score) = false ∧
    hit.document = if inc = ⟨false, false, false⟩ then none else some (d.view hit.id inc)

/-- **The best `k`** of the documents that are accepted, each being found at a row. -/
structure BestHits (docs : DocMap) (accepts : Doc → Bool) (score : DocId → Doc → UInt32) (place : DocId → RowId) (k : Nat)
    (minScore : Option UInt32) (inc : Include) (hits : List Hit) : Prop extends SoundHits docs accepts score k minScore inc hits where
  complete : ∀ id d, docs id = some d → accepts d = true → minScore.any (fun least => Score.gt least (score id d)) = false →
    id ∈ hits.map Hit.id ∨ hits.length = k ∧ ∀ hit ∈ hits, totalKey (score id d) < totalKey hit.score ∨
      totalKey (score id d) = totalKey hit.score ∧ (place hit.id).value ≤ (place id).value

/-! ## The order of the hits -/

instance : Std.Total Hit.before where
  total a b := by
    unfold Hit.before
    rcases Nat.lt_trichotomy (totalKey a.score) (totalKey b.score) with hlt | heq | hgt
    · exact .inr (.inl hlt)
    · rcases le_total a.id b.id with hle | hle
      · exact .inl (.inr ⟨heq, hle⟩)
      · exact .inr (.inr ⟨heq.symm, hle⟩)
    · exact .inl (.inl hgt)

instance : IsTrans Hit Hit.before where
  trans a b c := by
    unfold Hit.before
    rintro (hab | ⟨hab, hid⟩) (hbc | ⟨hbc, hid'⟩)
    · exact .inl (by omega)
    · exact .inl (by omega)
    · exact .inl (by omega)
    · exact .inr ⟨by omega, hid.trans hid'⟩

/-! ## One search -/

/-- The checks on a request. -/
def SearchRequest.check (s : Session) (request : SearchRequest) : Except DbError Unit := do
  checkTopK request.topK
  request.vector.checkDimension s.name.bytes s.catalog.dimension
  request.vector.checkFinite
  request.filter.elim (.ok ()) RowFilter.validate

/-- What an index gets of a request. -/
def SearchRequest.ctx (s : Session) (source : CollectionSource) (request : SearchRequest) (budget : Budget) : SearchCtx :=
  ⟨request.vector.toF32, request.topK, request.metric.getD s.catalog.metric, source, request.filter, request.minScore,
    request.params, budget⟩

theorem planSearch_eq {s : Session} {source : CollectionSource} (hbuild : CollectionSource.build s s.catalog.dimension = .ok source)
    (request : SearchRequest) (budget : Budget) :
    planSearch s request budget = (request.check s).map (fun _ => request.ctx s source budget) := by
  unfold planSearch SearchRequest.check SearchRequest.ctx
  rw [hbuild]
  cases checkTopK request.topK with
  | error e => rfl
  | ok u =>
    cases request.vector.checkDimension s.name.bytes s.catalog.dimension with
    | error e => rfl
    | ok u =>
      cases request.vector.checkFinite with
      | error e => rfl
      | ok u =>
        cases request.filter with
        | none => rfl
        | some f =>
          simp only [Parsing.except_ok_bind, Option.elim_some]
          cases f.validate <;> rfl

/-- **A search with an index that prepares nothing** makes no call. -/
theorem search_pure {scan : Scan Unit} (request : SearchRequest) (budget : Budget) (x : Searching Unit) :
    search (ExactScan scan) request budget x = .pure ((do
      let ctx ← planSearch x.session request budget
      let found ← scan x.graph ctx
      hitsOf ctx.source request.inc found), x) := by
  unfold search
  rw [Proc.get_bind]
  cases planSearch x.session request budget with
  | error e => rfl
  | ok ctx =>
    show (Proc.lift (scan x.graph ctx) >>= fun found => Proc.lift (hitsOf ctx.source request.inc found)) x = _
    cases hscan : scan x.graph ctx with
    | error e =>
      simp only [Parsing.except_ok_bind, hscan]
      rfl
    | ok found =>
      simp only [Parsing.except_ok_bind, hscan]
      rfl

/-- A scan of rows that a filter can tell apart offers those that may be returned. -/
theorem scan_offers {score : Bytes → UInt32 → UInt32} {q : Query} (hq : q.Unlimited) (hk : q.topK ≠ 0)
    (hadmits : ∀ r ∈ q.rows, ∃ b, q.admits r.1 = .ok b) (n : Nat) (out : TopK) :
    ∃ m, Index.ExactScan.search score q n out = .ok (out.offerAll (scanned score q q.rows), m) := by
  unfold Index.ExactScan.search
  rw [if_neg hk]
  cases hscan : q.rows.foldlM (ExactScan.scanRow score q) ⟨out, 0, n⟩ with
  | error e =>
    obtain ⟨r, hr, herror⟩ := scanRows_error hq q.rows hscan
    obtain ⟨b, hb⟩ := hadmits r hr
    rw [hb] at herror
    cases herror
  | ok s =>
    have hoffered := scanRows_ok q.rows hscan
    show ∃ m, (do return (s.top, ← q.charge s.scanned s.charged) : Except DbError (TopK × Nat)) = _
    rw [hq.charge, hoffered]
    exact ⟨_, rfl⟩

section Open

variable {invNorm : InvNorm} {durability : Durability} {sess : Session} {g : Ghost} {img : Image} {dimension : UInt32}
  {c : CollectionSource} (h : MemInv invNorm durability sess.coll g img) (hfew : sess.segments.length < 2 ^ 32)
  (hbuild : CollectionSource.build sess dimension = .ok c)
include h hfew hbuild

theorem MemInv.docIds_nodup : (c.forEach.map (fun r => c.docId r.1)).Nodup := by
  rw [h.forEach_docIds hfew hbuild]
  exact (foundIds_nodup h).map (fun _ _ => Option.some.inj)

/-- **Every document is found at one row.** -/
theorem MemInv.exists_place : ∃ place : DocId → RowId × UInt32, ∀ id d, g.docs id = some d →
    ((place id).1, d.vector, (place id).2) ∈ c.forEach ∧ c.Shows (place id).1 (place id).2 id d := by
  have hone : ∀ id, ∃ p : RowId × UInt32, ∀ d, g.docs id = some d → (p.1, d.vector, p.2) ∈ c.forEach ∧ c.Shows p.1 p.2 id d := by
    intro id
    by_cases hsome : (g.docs id).isSome = true
    · have hmem : some id ∈ c.forEach.map (fun r => c.docId r.1) := by
        rw [h.forEach_docIds hfew hbuild]
        exact List.mem_map_of_mem ((mem_foundIds h).mpr hsome)
      obtain ⟨⟨row, bytes, norm⟩, hvisited, hdoc⟩ := List.mem_map.mp hmem
      obtain ⟨id', d, hd, rfl, hshows⟩ := h.shows hfew hbuild hvisited
      obtain rfl := Option.some.inj (hdoc.symm.trans hshows.docId)
      refine ⟨(row, norm), fun d' hd' => ?_⟩
      obtain rfl := Option.some.inj (hd.symm.trans hd')
      exact ⟨hvisited, hshows⟩
    · exact ⟨(RowId.new 0 0, 0), fun d hd => absurd (by rw [hd]; rfl) hsome⟩
  choose place hplace using hone
  exact ⟨place, hplace⟩

end Open

/-- What a visited row shows may be returned if the filter matches it. -/
theorem CollectionSource.Shows.admits {c : CollectionSource} {row : RowId} {norm : UInt32} {id : DocId} {d : Doc}
    (h : c.Shows row norm id d) {sess : Session} {request : SearchRequest} {budget : Budget} {valid : Except DbError Unit}
    {filter : Option Filter} (hfilter : request.filter = filter.map (CompiledFilter valid))
    (hnames : ∀ f ∈ filter, emptyField ∉ f.referencedFields) :
    (asQuery (request.ctx sess c budget)).admits row = .ok (d.matches filter) := by
  have hlive : (asQuery (request.ctx sess c budget)).isLive row = true := h.live
  have hasked : (asQuery (request.ctx sess c budget)).filter = filter.map (fun f row => c.filterMatches f row) := by
    show request.filter.map _ = _
    rw [hfilter, Option.map_map]
    rfl
  unfold Query.admits
  rw [hlive, hasked]
  cases filter with
  | none => rfl
  | some f => exact h.filter f (hnames f rfl)

/-! ## The hits -/

/-- The hit at a candidate's row. -/
def hitAt (c : CollectionSource) (inc : Include) (cand : Index.Candidate) : Hit :=
  ⟨(c.docId cand.row).getD (.u64 0), cand.score,
    if inc = ⟨false, false, false⟩ then none else (c.document cand.row inc).toOption.join⟩

section Open

variable {invNorm : InvNorm} {durability : Durability} {sess : Session} {g : Ghost} {img : Image} {dimension : UInt32}
  {c : CollectionSource} (h : MemInv invNorm durability sess.coll g img) (hfew : sess.segments.length < 2 ^ 32)
  (hbuild : CollectionSource.build sess dimension = .ok c)

/-- A row that shows a document makes a hit. -/
theorem CollectionSource.Shows.hitOf {row : RowId} {norm : UInt32} {id : DocId} {d : Doc} (h : c.Shows row norm id d)
    (inc : Include) (score : UInt32) : hitOf c inc ⟨row, score⟩ = .ok (some (hitAt c inc ⟨row, score⟩)) ∧
      hitAt c inc ⟨row, score⟩ = ⟨id, score, if inc = ⟨false, false, false⟩ then none else some (d.view id inc)⟩ := by
  unfold Engine.hitOf hitAt
  rw [h.docId, h.document inc]
  dsimp only
  by_cases hinc : inc = ⟨false, false, false⟩
  · rw [if_pos hinc, if_pos hinc, if_pos hinc]
    exact ⟨rfl, rfl⟩
  · rw [if_neg hinc, if_neg hinc, if_neg hinc]
    exact ⟨rfl, rfl⟩

/-- **Candidates for the hits**: at distinct rows, each that of a document that is accepted, with its score. -/
structure Offers (docs : DocMap) (c : CollectionSource) (place : DocId → RowId × UInt32) (accepts : Doc → Bool)
    (score : DocId → Doc → UInt32) (offered : List Index.Candidate) : Prop where
  rows : (offered.map Index.Candidate.row).Nodup
  shows : ∀ cand ∈ offered, ∃ id d, docs id = some d ∧ accepts d = true ∧ cand = ⟨(place id).1, score id d⟩ ∧
    c.Shows (place id).1 (place id).2 id d

section Offers

variable {docs : DocMap} {place : DocId → RowId × UInt32} {accepts : Doc → Bool} {score : DocId → Doc → UInt32}
  {offered : List Index.Candidate}

/-- Their documents are distinct too. -/
theorem Offers.docIds (h : Offers docs c place accepts score offered) : (offered.map (fun cand => c.docId cand.row)).Nodup := by
  refine h.rows.of_map.map_on (fun a ha b hb heq => ?_)
  obtain ⟨id, d, hd, -, rfl, hshows⟩ := h.shows a ha
  obtain ⟨id', d', hd', -, rfl, hshows'⟩ := h.shows b hb
  obtain rfl := Option.some.inj (hshows.docId.symm.trans (heq.trans hshows'.docId))
  obtain rfl := Option.some.inj (hd.symm.trans hd')
  rfl

/-- Candidates whose documents are accepted. -/
theorem Offers.accepting (h : Offers docs c place (fun _ => true) score offered)
    (haccepts : ∀ cand ∈ offered, ∀ norm id d, c.Shows cand.row norm id d → accepts d = true) :
    Offers docs c place accepts score offered := by
  refine ⟨h.rows, fun cand hc => ?_⟩
  obtain ⟨id, d, hd, -, rfl, hshows⟩ := h.shows cand hc
  exact ⟨id, d, hd, haccepts _ hc _ _ _ hshows, rfl, hshows⟩

/-- Some of the candidates. -/
theorem Offers.sublist (h : Offers docs c place accepts score offered) {fewer : List Index.Candidate}
    (hsub : fewer.Sublist offered) : Offers docs c place accepts score fewer :=
  ⟨h.rows.sublist (hsub.map _), fun cand hc => h.shows cand (hsub.subset hc)⟩

/-- **The hits of the best candidates** are sound, and as many as they can be. -/
theorem Offers.hits (h : Offers docs c place accepts score offered) (k : Nat) (minScore : Option UInt32) (inc : Include) :
    ∃ hits, hitsOf c inc (TopK.bestOf k minScore offered) = .ok hits ∧ SoundHits docs accepts score k minScore inc hits ∧
      hits.Perm ((TopK.bestOf k minScore offered).map (hitAt c inc)) := by
  set found := TopK.bestOf k minScore offered with hfound
  have hsub : found.Subperm (offered.filter (TopK.AtLeast minScore)) :=
    (List.take_sublist _ _).subperm.trans (List.perm_insertionSort _ _).subperm
  have hcand : ∀ cand ∈ found, TopK.AtLeast minScore cand = true ∧ ∃ id d, docs id = some d ∧ accepts d = true ∧
      cand = ⟨(place id).1, score id d⟩ ∧ c.Shows cand.row (place id).2 id d := by
    intro cand hc
    obtain ⟨hin, hleast⟩ := List.mem_filter.mp (hsub.subset hc)
    obtain ⟨id, d, hd, hmatches, rfl, hshows⟩ := h.shows cand hin
    exact ⟨hleast, id, d, hd, hmatches, rfl, hshows⟩
  have hhits : hitsOf c inc found = .ok ((found.map (hitAt c inc)).insertionSort Hit.before) := by
    have hmap : found.mapM (Engine.hitOf c inc) = .ok (found.map (fun cand => some (hitAt c inc cand))) :=
      mapM_eq_map (fun cand hc => by
        obtain ⟨-, id, d, -, -, -, hshows⟩ := hcand cand hc
        exact (hshows.hitOf inc cand.score).1)
    unfold hitsOf
    rw [hmap]
    show Except.ok (((found.map (fun cand => some (hitAt c inc cand))).filterMap id).insertionSort Hit.before) = _
    rw [List.filterMap_map]
    exact congrArg (fun l => Except.ok (List.insertionSort Hit.before l)) (congrFun List.filterMap_eq_map' found)
  have hperm := List.perm_insertionSort Hit.before (found.map (hitAt c inc))
  have hids : (found.map (hitAt c inc)).map (fun hit => some hit.id) = found.map (fun cand => c.docId cand.row) := by
    rw [List.map_map]
    refine List.map_congr_left (fun cand hc => ?_)
    obtain ⟨-, id, d, -, -, -, hshows⟩ := hcand cand hc
    rw [Function.comp_apply, (hshows.hitOf inc cand.score).2, hshows.docId]
  refine ⟨_, hhits, ⟨List.pairwise_insertionSort _ _, ?_, ?_, fun hit hh => ?_⟩, hperm⟩
  · -- the rows are distinct, and so their documents
    rw [(hperm.map Hit.id).nodup_iff]
    refine List.Nodup.of_map some ?_
    rw [List.map_map, show some ∘ Hit.id = fun hit => some hit.id from rfl, hids]
    obtain ⟨l, hl, hsublist⟩ := hsub.trans List.filter_sublist.subperm
    exact (hl.map _).nodup_iff.mp (h.docIds.sublist (hsublist.map _))
  · rw [hperm.length_eq, List.length_map]
    exact List.length_take_le _ _
  · obtain ⟨cand, hc, rfl⟩ := List.mem_map.mp (hperm.mem_iff.mp hh)
    obtain ⟨hleast, id, d, hd, hmatches, hat, hshows⟩ := hcand cand hc
    rw [(hshows.hitOf inc cand.score).2]
    exact ⟨d, hd, hmatches, by rw [hat], by simpa [TopK.AtLeast] using hleast, rfl⟩

end Offers

include h hfew hbuild

/-- The rows that are accepted are candidates. -/
theorem MemInv.offers {place : DocId → RowId × UInt32} (hplace : ∀ id d, g.docs id = some d →
      ((place id).1, d.vector, (place id).2) ∈ c.forEach ∧ c.Shows (place id).1 (place id).2 id d)
    {accepts : RowId → Bool} {matching : Doc → Bool}
    (haccepts : ∀ row norm id d, c.Shows row norm id d → accepts row = matching d) (score : Bytes → UInt32 → UInt32) :
    Offers g.docs c place matching (fun id d => score d.vector (place id).2)
      ((c.forEach.filter (fun r => accepts r.1)).map (fun r => ⟨r.1, score r.2.1 r.2.2⟩)) := by
  have hnodup := h.docIds_nodup hfew hbuild
  refine ⟨?_, fun cand hc => ?_⟩
  · rw [List.map_map]
    have hrows : (c.forEach.map (fun r => r.1)).Nodup := List.Nodup.of_map c.docId (by rw [List.map_map]; exact hnodup)
    exact hrows.sublist (List.filter_sublist.map _)
  · obtain ⟨⟨row, bytes, norm⟩, hr, rfl⟩ := List.mem_map.mp hc
    obtain ⟨hr, haccepted⟩ := List.mem_filter.mp hr
    obtain ⟨id, d, hd, rfl, hshows⟩ := h.shows hfew hbuild hr
    obtain ⟨hvisited, hplaced⟩ := hplace id d hd
    have heq := List.inj_on_of_nodup_map hnodup hr hvisited (hshows.docId.trans hplaced.docId.symm)
    obtain ⟨hrow, hrest⟩ := Prod.mk.inj heq
    obtain ⟨-, hnorm⟩ := Prod.mk.inj hrest
    refine ⟨id, d, hd, (haccepts _ _ _ _ hshows).symm.trans haccepted, ?_, hplaced⟩
    rw [← hrow, ← hnorm]

/-- **The hits of the best candidates are the best hits.** -/
theorem MemInv.bestHits {place : DocId → RowId × UInt32} (hplace : ∀ id d, g.docs id = some d →
      ((place id).1, d.vector, (place id).2) ∈ c.forEach ∧ c.Shows (place id).1 (place id).2 id d)
    {accepts : RowId → Bool} {matching : Doc → Bool}
    (haccepts : ∀ row norm id d, c.Shows row norm id d → accepts row = matching d) (score : Bytes → UInt32 → UInt32) (k : Nat)
    (minScore : Option UInt32) (inc : Include) : ∃ hits,
      hitsOf c inc (TopK.bestOf k minScore
        ((c.forEach.filter (fun r => accepts r.1)).map (fun r => ⟨r.1, score r.2.1 r.2.2⟩))) = .ok hits ∧
      BestHits g.docs matching (fun id d => score d.vector (place id).2) (fun id => (place id).1) k minScore inc hits := by
  have hoffers := h.offers hfew hbuild hplace haccepts score
  obtain ⟨hits, hhits, hsound, hperm⟩ := hoffers.hits k minScore inc
  refine ⟨hits, hhits, hsound, fun id d hd hmatches hleast => ?_⟩
  obtain ⟨hvisited, hplaced⟩ := hplace id d hd
  have hin : (⟨(place id).1, score d.vector (place id).2⟩ : Index.Candidate) ∈
      ((c.forEach.filter (fun r => accepts r.1)).map (fun r => (⟨r.1, score r.2.1 r.2.2⟩ : Index.Candidate))).filter
        (TopK.AtLeast minScore) := by
    refine List.mem_filter.mpr ⟨List.mem_map.mpr ⟨_, List.mem_filter.mpr ⟨hvisited, ?_⟩, rfl⟩, ?_⟩
    · exact (haccepts _ _ _ _ hplaced).trans hmatches
    · unfold TopK.AtLeast
      rw [hleast]
      rfl
  rcases best_complete (fun a b => TopK.worse a b = false) k hin with hbest | ⟨hfull, hbefore⟩
  · refine .inl (List.mem_map.mpr ⟨_, hperm.mem_iff.mpr (List.mem_map_of_mem hbest), ?_⟩)
    rw [(hplaced.hitOf inc _).2]
  · refine .inr ⟨by rw [hperm.length_eq, List.length_map]; exact hfull, fun hit hh => ?_⟩
    obtain ⟨cand, hc, rfl⟩ := List.mem_map.mp (hperm.mem_iff.mp hh)
    have hoffered : cand ∈ List.filter _ _ := List.perm_insertionSort _ _ |>.mem_iff.mp (List.mem_of_mem_take hc)
    obtain ⟨id', d', -, -, hat, hshows⟩ := hoffers.shows cand (List.mem_of_mem_filter hoffered)
    rw [hat, (hshows.hitOf inc _).2]
    rcases TopK.not_worse_iff.mp (hbefore cand hc) with hless | ⟨heq, hrow⟩
    · rw [hat] at hless
      exact .inl hless
    · rw [hat] at heq hrow
      exact .inr ⟨heq.symm, hrow⟩

end Open

section Run

variable {invNorm : InvNorm} {durability : Durability} {sess : Session} {g : Ghost} {img : Image}

/-- **Every exact search answers from these documents.** Each has a row and a reciprocal norm of its vector; a search makes no
    call, and has the error of the first check that its request fails, or the best hits. -/
def Session.Searches (sess : Session) (docs : DocMap) : Prop :=
  ∃ (c : CollectionSource) (place : DocId → RowId × UInt32), CollectionSource.build sess sess.catalog.dimension = .ok c ∧
    (∀ id d, docs id = some d → c.Shows (place id).1 (place id).2 id d) ∧
    ∀ (rowScore : RowScore) (request : SearchRequest) (valid : Except DbError Unit) (filter : Option Filter),
      request.filter = filter.map (CompiledFilter valid) → (∀ f ∈ filter, emptyField ∉ f.referencedFields) →
      ∃ r, search (ExactScan (exactScan rowScore)) request ⟨false, none⟩ ⟨(), sess⟩ = .pure (r, ⟨(), sess⟩) ∧
        (∀ e, request.check sess = .error e → r = .error e) ∧
        (request.check sess = .ok () → ∃ hits, r = .ok hits ∧ BestHits docs (Doc.matches filter)
          (fun id d => rowScore (request.metric.getD sess.catalog.metric) request.vector.toF32 d.vector (place id).2)
          (fun id => (place id).1) request.topK request.minScore request.inc hits)

/-- **An open collection** is searched exactly. -/
theorem MemInv.searches (h : MemInv invNorm durability sess.coll g img) (hfew : sess.segments.length < 2 ^ 32) :
    sess.Searches g.docs := by
  obtain ⟨c, hbuild⟩ := h.build_ok sess.catalog.dimension
  obtain ⟨place, hplace⟩ := h.exists_place hfew hbuild
  refine ⟨c, place, hbuild, fun id d hd => (hplace id d hd).2, fun rowScore request valid filter hfilter hnames => ?_⟩
  refine ⟨_, search_pure request _ _, fun e he => ?_, fun hok => ?_⟩
  · rw [planSearch_eq hbuild, he]
    rfl
  · rw [planSearch_eq hbuild, hok]
    set ctx := request.ctx sess c ⟨false, none⟩ with hctx
    have hk : request.topK ≠ 0 := by
      rintro hzero
      have htop : checkTopK request.topK = .error (.validation (.topKOutOfRange request.topK Limits.maxTopK)) := by
        unfold checkTopK
        rw [if_pos (.inl hzero)]
      unfold SearchRequest.check at hok
      rw [htop] at hok
      cases hok
    have hadmits : ∀ row norm id d, c.Shows row norm id d → (asQuery ctx).admits row = .ok (d.matches filter) :=
      fun row norm id d hshows => hshows.admits hfilter hnames
    obtain ⟨m, hscan⟩ := @scan_offers (rowScore ctx.metric ctx.query) (asQuery ctx) rfl hk (fun r hr => by
      obtain ⟨id, d, -, -, hshows⟩ := h.shows hfew hbuild hr
      exact ⟨_, hadmits _ _ _ _ hshows⟩) 0 (TopK.new request.topK request.minScore)
    have hfound : exactScan rowScore () ctx = .ok (TopK.bestOf request.topK request.minScore
        (scanned (rowScore ctx.metric ctx.query) (asQuery ctx) c.forEach)) := by
      unfold exactScan
      rw [show TopK.new ctx.topK ctx.minScore = TopK.new request.topK request.minScore from rfl, hscan]
      exact congrArg Except.ok (TopK.intoSorted_offerAll _ _ _)
    have haccepts : ∀ row norm id d, c.Shows row norm id d → (asQuery ctx).admitted row = Doc.matches filter d :=
      fun row norm id d hshows => Query.admitted_of_ok (hadmits row norm id d hshows)
    obtain ⟨hits, hhits, hbest⟩ := h.bestHits hfew hbuild hplace haccepts (rowScore ctx.metric ctx.query) request.topK
      request.minScore request.inc
    refine ⟨hits, ?_, hbest⟩
    simp only [Except.map, Parsing.except_ok_bind, hfound]
    exact hhits

theorem Run.searches {p : Site} {M : Str → Option DocMap} (h : Run (fun _ => True) Edit.Fits invNorm p M) {name : Str} {docs : DocMap}
    (hdocs : M name = some docs) (hsess : p.db.session name = some sess) (hfew : sess.segments.length < 2 ^ 32) :
    sess.Searches docs := by
  obtain ⟨G, hst, rfl⟩ := h.stands (fun _ _ => .inl (show Sel.live = .live from rfl)) (fun _ _ _ hfits => hfits)
  obtain ⟨g, hg, rfl⟩ := Option.map_eq_some_iff.mp hdocs
  obtain ⟨g', rfl, hstate⟩ := hst.session hsess 0
  obtain rfl := Option.some.inj (hg.symm.trans hstate.live.here)
  exact hstate.live.mem.searches hfew

/-- **The exact search answers from the documents.** After every run, a search of a collection by the exact scan returns the
    best `k` of the documents that the run leaves and that match, or the error of the first check that the request fails; it
    changes nothing. -/
theorem Run.search_exact {p : Site} {M : Str → Option DocMap} (h : Run (fun _ => True) Edit.Fits invNorm p M) {name : Str}
    {docs : DocMap} (hdocs : M name = some docs) :
    ∃ sess, p.db.session name = some sess ∧ (sess.segments.length < 2 ^ 32 → sess.Searches docs) := by
  obtain ⟨sess, hsess, -⟩ := h.reads_docs hdocs
  exact ⟨sess, hsess, h.searches hdocs hsess⟩

end Run

/-- The collection with one document is searched. -/
theorem search_exact_put : ∃ M docs sess, Run (fun _ => True) Edit.Fits zeroNorm putSite M ∧ M theSpec.name = some docs ∧
    putSite.db.session theSpec.name = some sess ∧ sess.count = 1 ∧ sess.Searches docs := by
  obtain ⟨M, docs, hrun, hdocs⟩ := putSite_run
  have hmade : (putSite.db.session theSpec.name).map (fun s => (s.segments.length, s.count)) = some (0, 1) := by decide +kernel
  obtain ⟨sess, hsess, hsearches⟩ := @Run.search_exact _ _ _ hrun theSpec.name docs hdocs
  rw [hsess] at hmade
  obtain ⟨hfew, hcount⟩ := Prod.mk.inj (Option.some.inj hmade)
  exact ⟨M, docs, sess, hrun, hdocs, hsess, hcount, hsearches (by rw [hfew]; decide)⟩

end IshaVectorDb.Engine
