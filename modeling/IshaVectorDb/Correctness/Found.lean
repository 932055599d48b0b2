import IshaVectorDb.Correctness.Deaths
import IshaVectorDb.Correctness.ExactSearch

/-!
# `Correctness.Found` — the exact search finds **what the reads see**

The documents that `get` and `ids` show are those that an exact search chooses from, wherever their rows are
(`Run.search_best`), if the filter reads no field of no name: in a segment such a field is never found, and a document that
matches is left out (`unnamed_not_found`).
-/

namespace IshaVectorDb.Engine

open Format Interaction KeyLog Index Correctness

section Run

variable {invNorm : InvNorm} {p : Site} {M : Str → Option DocMap}

/-- **An exact search returns the best `k` of the documents that reads see.** After every run, a collection reads as the documents
    that the run leaves; and a search whose request passes its checks, with no limit on its work, returns the best of those that
    match and reach the least score, where equal scores that contest the last place go to the smaller row. -/
theorem Run.search_best (h : Run (fun _ => True) Edit.Fits invNorm p M) {name : Str} {docs : DocMap} (hdocs : M name = some docs)
    {sess : Session} (hsess : p.db.session name = some sess) (hfew : sess.segments.length < 2 ^ 32) :
    sess.Refines docs ∧ ∃ place : DocId → RowId × UInt32, ∀ (rowScore : RowScore) (request : SearchRequest) (valid : Except DbError Unit)
      (filter : Option Filter), request.filter = filter.map (CompiledFilter valid) → (∀ f ∈ filter, emptyField ∉ f.referencedFields) →
      request.check sess = .ok () → ∃ hits,
        search (ExactScan (exactScan rowScore)) request ⟨false, none⟩ ⟨(), sess⟩ = .pure (.ok hits, ⟨(), sess⟩) ∧
        BestHits docs (Doc.matches filter)
          (fun id d => rowScore (request.metric.getD sess.catalog.metric) request.vector.toF32 d.vector (place id).2)
          (fun id => (place id).1) request.topK request.minScore request.inc hits := by
  obtain ⟨sess₁, hsess₁, href⟩ := h.reads_docs hdocs
  obtain rfl := Option.some.inj (hsess.symm.trans hsess₁)
  obtain ⟨c, place, -, -, hsearch⟩ := h.searches hdocs hsess hfew
  refine ⟨href, place, fun rowScore request valid filter hfilter hnames hcheck => ?_⟩
  obtain ⟨r, hrun, -, hbest⟩ := hsearch rowScore request valid filter hfilter hnames
  obtain ⟨hits, rfl, hhits⟩ := hbest hcheck
  exact ⟨hits, hrun, hhits⟩

end Run

section Example

theorem Edit.leaves_of_isOk {e : Edit} {r : Except DbError EditAnswer} {docs : DocMap} (h : r.isOk = true) :
    e.leaves r docs = replay docs e.writes := by
  cases r with
  | ok a => rfl
  | error err => cases h

theorem Edit.flush_leaves (r : Except DbError EditAnswer) (docs : DocMap) : Edit.flush.leaves r docs = docs := by
  cases r <;> rfl

/-- A document with the metadata `{"": 1}`. -/
def unnamedDoc : DocumentInput := { docOf 65 with metadata := some unnamedOne }

/-- The collection with this document, which is in the memtable. -/
def unnamedPut : Site := afterWrite madeSite (.upsert unnamedDoc)

/-- And when it is in a segment. -/
def unnamedSite : Site := afterWrite unnamedPut .flush

theorem unnamedSite_run : ∃ M docs, Run (fun _ => True) Edit.Fits zeroNorm unnamedSite M ∧ M theSpec.name = some docs ∧
    docs unnamedDoc.id = some unnamedDoc.stored := by
  have hroomy : roomyAt madeSite (.upsert unnamedDoc) = true := by decide +kernel
  obtain ⟨sess, hsess, hfits⟩ := roomyAt_session hroomy
  have hput := (madeSite_run (fun _ => True) Edit.Fits trivial).afterWrite rfl hsess hfits
  have hroomy' : roomyAt unnamedPut .flush = true := by decide +kernel
  obtain ⟨sess', hsess', hfits'⟩ := roomyAt_session hroomy'
  have hflush := hput.afterWrite rfl hsess' hfits'
  have hok : (writeRun madeSite (.upsert unnamedDoc)).1.1.isOk = true := by decide +kernel
  refine ⟨_, Edit.flush.leaves (writeRun (afterWrite madeSite (.upsert unnamedDoc)) .flush).1.1 ((Edit.upsert unnamedDoc).leaves
    (writeRun madeSite (.upsert unnamedDoc)).1.1 noDocs), hflush, ?_, ?_⟩
  · rw [Function.update_self, Function.update_self, Function.update_self, Option.map_some, Option.map_some]
  · rw [Edit.flush_leaves, Edit.leaves_of_isOk hok]
    exact Function.update_self unnamedDoc.id (some unnamedDoc.stored) noDocs

/-- A search for a document with a field of no name. -/
def searchUnnamed : SearchRequest :=
  ⟨.f32 [0], 1, none, some (CompiledFilter (.ok ()) (.exists_ emptyField)), none, ⟨false, false, false⟩, ⟨none, none⟩⟩

/-- Every row scores alike. -/
def noScore : RowScore := fun _ _ _ _ => 0

/-- A search for any document. -/
def searchAny : SearchRequest := { searchUnnamed with filter := none }

/-- **A document whose field has no name** is found while it is in the memtable, and in a segment it is not. -/
theorem unnamed_not_found : ¬ ∀ p M, Run (fun _ => True) Edit.Fits zeroNorm p M → ∀ name docs, M name = some docs →
    ∀ sess, p.db.session name = some sess → ∀ (request : SearchRequest) (valid : Except DbError Unit) (filter : Option Filter),
      request.filter = filter.map (CompiledFilter valid) → request.check sess = .ok () →
        ∃ (place : DocId → RowId) (score : DocId → Doc → UInt32) (hits : List Hit),
          search (ExactScan (exactScan noScore)) request ⟨false, none⟩ ⟨(), sess⟩ = .pure (.ok hits, ⟨(), sess⟩) ∧
          BestHits docs (Doc.matches filter) score place request.topK request.minScore request.inc hits := by
  intro hall
  obtain ⟨M, docs, hrun, hdocs, hdoc⟩ := unnamedSite_run
  have hmade : (unnamedSite.db.session theSpec.name).map (fun s => ((searchUnnamed.check s).isOk, ((search (ExactScan (exactScan noScore))
      searchUnnamed ⟨false, none⟩ ⟨(), s⟩).run device unnamedSite.storage).1.1.toOption.map List.length)) = some (true, some 0) := by
    decide +kernel
  obtain ⟨sess, hsess, hseen⟩ := Option.map_eq_some_iff.mp hmade
  obtain ⟨hcheck, hnone⟩ := Prod.mk.inj hseen
  have hok : searchUnnamed.check sess = .ok () := by
    cases h : searchUnnamed.check sess with
    | ok u => rfl
    | error e => rw [h] at hcheck; cases hcheck
  obtain ⟨place, score, hits, hsearch, hbest⟩ := hall _ M hrun _ docs hdocs sess hsess searchUnnamed (.ok ()) (some (.exists_ emptyField))
    rfl hok
  rw [hsearch] at hnone
  obtain rfl : hits = [] := List.length_eq_zero_iff.mp (Option.some.inj hnone)
  have hmatches : Doc.matches (some (.exists_ emptyField)) unnamedDoc.stored = true := by
    show (Filter.exists_ emptyField).matchesFields (.decoded unnamedOne) = true
    simp only [Filter.matchesFields, Fields.resolve, getPath_emptyField]
    rfl
  rcases hbest.complete _ _ hdoc hmatches rfl with hin | ⟨hfull, -⟩
  · cases hin
  · cases hfull

/-- The same document is found where no filter asks for the field. -/
theorem search_best_any : ∃ (docs : DocMap) (sess : Session) (place : DocId → RowId × UInt32) (hits : List Hit),
    unnamedSite.db.session theSpec.name = some sess ∧ docs unnamedDoc.id = some unnamedDoc.stored ∧
    search (ExactScan (exactScan noScore)) searchAny ⟨false, none⟩ ⟨(), sess⟩ = .pure (.ok hits, ⟨(), sess⟩) ∧
    hits.map Hit.id = [unnamedDoc.id] ∧
    BestHits docs (Doc.matches none) (fun _ _ => 0) (fun id => (place id).1) 1 none ⟨false, false, false⟩ hits := by
  obtain ⟨M, docs, hrun, hdocs, hdoc⟩ := unnamedSite_run
  have hmade : (unnamedSite.db.session theSpec.name).map (fun s => ((searchAny.check s).isOk, s.segments.length,
      ((search (ExactScan (exactScan noScore)) searchAny ⟨false, none⟩ ⟨(), s⟩).run device unnamedSite.storage).1.1.toOption.map
        (fun hits => hits.map Hit.id))) = some (true, 1, some [unnamedDoc.id]) := by
    decide +kernel
  obtain ⟨sess, hsess, hseen⟩ := Option.map_eq_some_iff.mp hmade
  obtain ⟨hcheck, hrest⟩ := Prod.mk.inj hseen
  obtain ⟨hone, hids⟩ := Prod.mk.inj hrest
  have hok : searchAny.check sess = .ok () := by
    cases h : searchAny.check sess with
    | ok u => rfl
    | error e => rw [h] at hcheck; cases hcheck
  obtain ⟨-, place, hsearch⟩ := Run.search_best hrun hdocs hsess (by rw [hone]; decide)
  obtain ⟨hits, hfound, hbest⟩ := hsearch noScore searchAny (.ok ()) none rfl (fun f hf => by cases hf) hok
  rw [hfound] at hids
  exact ⟨docs, sess, place, hits, hsess, hdoc, hfound, Option.some.inj hids, hbest⟩

end Example

end IshaVectorDb.Engine
