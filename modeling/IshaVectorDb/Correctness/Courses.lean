import IshaVectorDb.Correctness.GraphSearch
import IshaVectorDb.Index.Courses

/-!
# `Correctness.Courses` — a search's course **ends as the search does**

`Engine.Query` searches under a budget that is as it is from the beginning to the end. Under such a budget a search's
course ends with the search's own answer, and with what the search has charged (`scan_ending`, `search_ending`).
-/

namespace IshaVectorDb.Index

open Format Beam Engine Metering

/-- A query's budget, for a course. -/
def Query.metered (q : Query) : Metering.Budget := ⟨q.budget.maxScanned, if q.budget.cancelled then some 0 else none⟩

section

variable {q : Query} {α β : Type} {total : Nat}

theorem metered_constant (q : Query) : q.metered.Constant := by
  intro i total
  unfold Metering.Budget.stops Query.metered
  cases q.budget.cancelled
  · rfl
  · show (decide (0 ≤ i) || _) = (decide (0 ≤ 0) || _)
    rw [decide_eq_true (Nat.zero_le i), decide_eq_true (Nat.le_refl 0)]

theorem charge_eq (n : Nat) :
    q.charge total n = if q.metered.stops 0 (total + n) then .error .cancelled else .ok (total + n) := by
  unfold Query.charge Metering.Budget.stops Query.metered
  cases q.budget.cancelled with
  | true => rfl
  | false => rfl

theorem ending_check (n : Nat) (f : Unit → Searching α) :
    (Course.check n >>= f).ending .cancelled q.metered total = match q.charge total n with
      | .error e => some (.error e)
      | .ok total => (f ()).ending .cancelled q.metered total := by
  rw [Course.ending_bind (metered_constant q), charge_eq]
  unfold Course.ending Course.check Metering.Budget.walk
  by_cases hstop : q.metered.stops 0 (total + n) = true
  · rw [if_pos hstop, if_pos hstop]; rfl
  · rw [if_neg hstop, if_neg hstop]; rfl

theorem reads_some_bind (a : β) (f : β → Searching α) : (Course.reads (some a) >>= f) = f a := rfl

theorem ending_scores (n : Nat) (f : Unit → Searching α) :
    (scores n >>= f).ending .cancelled q.metered total = (f ()).ending .cancelled q.metered total := by
  have hwalk : ∀ (ws : List Deed) i, (q.metered.walk (ws.map Item.deed) i total).2 = some total := by
    intro ws
    induction ws with
    | nil => exact fun _ => rfl
    | cons w ws ih => exact fun i => ih (i + 1)
  rw [Course.ending_bind (metered_constant q)]
  unfold Course.ending scores Course.deeds
  rw [hwalk]
  rfl

theorem ending_visit (row : RowId) (f : Bool → Searching α) :
    (q.visit row >>= f).ending .cancelled q.metered total = match q.admits row with
      | .error e => some (.error e)
      | .ok b => (f b).ending .cancelled q.metered total := by
  rw [Course.ending_bind (metered_constant q)]
  unfold Course.ending Query.visit
  cases q.admits row <;> rfl

theorem ending_test (row : RowId) (f : Bool → Searching α) :
    (q.test row >>= f).ending .cancelled q.metered total = match q.admits row with
      | .error e => some (.error e)
      | .ok b => (f b).ending .cancelled q.metered total := by
  rw [Course.ending_bind (metered_constant q)]
  unfold Course.ending Query.test
  cases q.admits row <;> rfl

end

/-! ## The scan -/

namespace ExactScan

section

variable {score : Bytes → UInt32 → UInt32} {q : Query}

theorem scanRow_admitted {s : Searched} {r : RowId × Bytes × UInt32} (h : q.admits r.1 = .ok true) :
    scanRow score q s r =
      if budgetStride ≤ s.charged + 1 then
        (q.charge s.scanned (s.charged + 1)).map (fun n => ⟨(s.top.offer ⟨r.1, score r.2.1 r.2.2⟩).1, 0, n⟩)
      else .ok ⟨(s.top.offer ⟨r.1, score r.2.1 r.2.2⟩).1, s.charged + 1, s.scanned⟩ := by
  unfold scanRow
  rw [h]
  dsimp only [Bind.bind, Except.bind]
  rw [if_pos rfl]
  split
  · rcases q.charge s.scanned (s.charged + 1) with e | n <;> rfl
  · rfl

theorem courseRow_ending (s : Searched) (r : RowId × Bytes × UInt32) :
    (courseRow score q (s.top, s.charged) r).ending .cancelled q.metered s.scanned =
      some ((scanRow score q s r).map (fun s' => ((s'.top, s'.charged), s'.scanned))) := by
  unfold courseRow
  rw [ending_visit]
  rcases hadm : q.admits r.1 with e | b
  · unfold scanRow
    rw [hadm]; rfl
  · cases b with
    | false =>
      unfold scanRow
      rw [hadm]; rfl
    | true =>
      rw [scanRow_admitted hadm]
      dsimp only
      rw [if_pos rfl]
      split
      · rw [ending_check]
        rcases q.charge s.scanned (s.charged + 1) with e | n <;> rfl
      · rfl

theorem foldlM_ending (rows : List (RowId × Bytes × UInt32)) (s : Searched) :
    (rows.foldlM (courseRow score q) (s.top, s.charged)).ending .cancelled q.metered s.scanned =
      some ((rows.foldlM (scanRow score q) s).map (fun s' => ((s'.top, s'.charged), s'.scanned))) := by
  induction rows generalizing s with
  | nil => rfl
  | cons r rows ih =>
    rw [List.foldlM_cons, List.foldlM_cons, Course.ending_bind (metered_constant q), courseRow_ending]
    rcases scanRow score q s r with e | s1
    · rfl
    · exact ih s1

/-- **A scan's course ends as the scan does**, and with what it has charged. -/
theorem scan_ending (out : TopK) (scanned : Nat) :
    (course score q out).ending .cancelled q.metered scanned = some (search score q scanned out) := by
  unfold course search
  split
  · rfl
  · rw [Course.ending_bind (metered_constant q), foldlM_ending q.rows ⟨out, 0, scanned⟩]
    rcases q.rows.foldlM (scanRow score q) ⟨out, 0, scanned⟩ with e | s
    · rfl
    · refine (ending_check s.charged _).trans ?_
      show (match q.charge s.scanned s.charged with | .error e => _ | .ok total => _) = _
      rcases hcharge : q.charge s.scanned s.charged with e | n
      · show _ = some (q.charge s.scanned s.charged >>= _)
        rw [hcharge]; rfl
      · show _ = some (q.charge s.scanned s.charged >>= _)
        rw [hcharge]; rfl

end

end ExactScan

/-! ## The search of the graph -/

namespace HnswIndex

section

variable {M : Machine} {rowScore : Metric → List UInt32 → Bytes → UInt32 → UInt32} {p : HnswParams} {g : Graph}
  {q : Query} {α : Type}

theorem ending_courseSettle (m : Meter) (f : Nat → Searching α) :
    (courseSettle m.charged >>= f).ending .cancelled q.metered m.scanned = match settle q m with
      | .error e => some (.error e)
      | .ok m => (f m.charged).ending .cancelled q.metered m.scanned := by
  unfold courseSettle settle
  split
  · rw [Course.ending_bind (metered_constant q), ending_check]
    rcases q.charge m.scanned m.charged with e | n <;> rfl
  · rfl

theorem courseLayer_ending (layer fuel : Nat) (current : Scored Nat UInt32) (m : Meter) :
    (courseLayer M g q layer fuel current m.charged).ending .cancelled q.metered m.scanned =
      (descendLayer M g q layer fuel current m >>= fun r => pure ((r.1, r.2.charged), r.2.scanned) :
        Answering ((Scored Nat UInt32 × Nat) × Nat)) := by
  induction fuel generalizing current m with
  | zero => rfl
  | succ fuel ih =>
    unfold courseLayer descendLayer
    dsimp only
    cases hround : improve (g.space M q.metric q.vector layer) current false (g.neighbours layer current.node) with
    | none => rfl
    | some round =>
      obtain ⟨next, improved⟩ := round
      rw [reads_bind rfl, reads_some_bind, ending_scores]
      refine (ending_courseSettle ⟨m.charged + (g.neighbours layer current.node).length, m.scanned⟩ _).trans ?_
      dsimp only
      rcases settle q ⟨m.charged + (g.neighbours layer current.node).length, m.scanned⟩ with e | m'
      · rfl
      · rw [checks_bind rfl]
        cases improved with
        | true => exact ih next m'
        | false => rfl

theorem courseLayers_ending (layers : Nat) (current : Scored Nat UInt32) (m : Meter) :
    (courseLayers M g q layers current m.charged).ending .cancelled q.metered m.scanned =
      (descendLayers M g q layers current m >>= fun r => pure ((r.1, r.2.charged), r.2.scanned) :
        Answering ((Scored Nat UInt32 × Nat) × Nat)) := by
  induction layers generalizing current m with
  | zero => rfl
  | succ layers ih =>
    unfold courseLayers descendLayers
    rw [Course.ending_bind (metered_constant q), courseLayer_ending]
    rcases descendLayer M g q (layers + 1) (g.len + 1) current m with _ | e | r
    · rfl
    · rfl
    · exact ih r.1 r.2

theorem courseAdmitted_ending (found : List (Scored Nat UInt32)) (total : Nat) :
    (courseAdmitted g q found).ending .cancelled q.metered total =
      some ((admitted g q found).map (fun rows => (rows, total))) := by
  induction found with
  | nil => rfl
  | cons c found ih =>
    unfold courseAdmitted admitted
    cases g.rows[c.node]? with
    | none => exact ih
    | some row =>
      dsimp only
      rw [ending_test]
      rcases q.admits row with e | ok
      · rfl
      · dsimp only
        rw [Course.ending_bind (metered_constant q), ih]
        rcases admitted g q found with e | others <;> rfl

/-- **A search's course ends as the search does**, and with what it has charged. -/
theorem search_ending (out : TopK) :
    (course M rowScore p g q out).ending .cancelled q.metered 0 = search M rowScore p g q out := by
  unfold course search searchBy
  split
  · rfl
  split
  · exact ExactScan.scan_ending out 0
  cases g.entry with
  | none => exact ExactScan.scan_ending out 0
  | some entry =>
    dsimp only
    cases hscore : g.scoreOf M q.metric q.vector entry with
    | none => rfl
    | some score =>
      rw [reads_bind rfl, reads_some_bind, ending_scores, Course.ending_bind (metered_constant q),
        courseLayers_ending _ _ ⟨0, 0⟩]
      rcases descendLayers M g q (g.layers.length - 1) ⟨score, entry⟩ ⟨0, 0⟩ with _ | e | r
      · rfl
      · rfl
      · obtain ⟨current, m⟩ := r
        show (Course.reads (layerSeen M g q 0 (beamWidth p g q) [current.node]) >>= _).ending .cancelled q.metered m.scanned =
          (Answering.reads (g.searchLayer M q.metric q.vector 0 (beamWidth p g q) [current.node]) >>= _)
        have hfst : (layerSeen M g q 0 (beamWidth p g q) [current.node]).map Prod.fst =
            g.searchLayer M q.metric q.vector 0 (beamWidth p g q) [current.node] :=
          searchSeen_fst M.heaps _ _ _ _
        rw [← hfst]
        cases layerSeen M g q 0 (beamWidth p g q) [current.node] with
        | none => rfl
        | some f =>
          obtain ⟨found, seen⟩ := f
          rw [Option.map_some, reads_bind rfl, reads_some_bind, ending_scores, ending_check]
          dsimp only
          rcases q.charge m.scanned (m.charged + found.length) with e | scanned
          · rfl
          · rw [checks_bind rfl]
            dsimp only
            rw [Course.ending_bind (metered_constant q), courseAdmitted_ending]
            rcases admitted g q found with e | rows
            · rfl
            · rw [checks_bind rfl]
              show (if rows.length < q.topK ∧ found.length < g.len then _ else _ : Searching TopK).ending .cancelled
                q.metered scanned = _
              split
              · exact ExactScan.scan_ending out scanned
              · rfl

end

end HnswIndex

end IshaVectorDb.Index
