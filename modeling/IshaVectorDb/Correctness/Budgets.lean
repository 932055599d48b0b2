import IshaVectorDb.Correctness.GraphSearch
import IshaVectorDb.Index.Courses

/-!
# `Correctness.Budgets` — a budget is honoured by the **scan**, and as promptly as the filter lets it

A search by the exact scan charges every score that it computes. It charges 1024 at a time, though, and counts only rows
that it may return; rows that it skips pass without a charge, however many there are. A search of the graph computes
scores that it never charges: the entry point's, and in the beam all but those of the rows that it finds.

`budget_honoured_iff` says which searches do what a budget promises.
-/

namespace IshaVectorDb.Index

open Format Beam Engine Metering

/-! ## What a search leaves uncharged -/

def Deed.isScored (d : Deed) : Bool := d = .scored

section

variable {q : Query} {n : Nat}

theorem owes_visit (row : RowId) :
    Owes Deed.isScored n (q.visit row) (fun b m => m = n + if b then 1 else 0) := by
  intro b hb
  have hadmits : q.admits row = .ok b := Option.some.inj hb
  refine ⟨_, ?_, rfl⟩
  unfold Query.visit
  rw [hadmits]
  cases b
  · show 0 + n = 0 + (n + 0)
    omega
  · show 1 + n = 0 + (n + 1)
    omega

theorem owes_test (row : RowId) : Owes Deed.isScored n (q.test row) (fun _ m => m = n) :=
  fun _ _ => ⟨n, rfl, rfl⟩

theorem owes_scores (k : Nat) : Owes Deed.isScored n (scores k) (fun _ m => m = n + k) := by
  have h : Owes Deed.isScored n (scores k) (fun _ m => m = n + (List.replicate k Deed.scored).countP Deed.isScored) :=
    Owes.deeds
  rwa [List.countP_replicate, if_pos (show Deed.scored.isScored = true from rfl)] at h

end

namespace ExactScan

section

variable {score : Bytes → UInt32 → UInt32} {q : Query}

theorem owes_courseRow (n : Nat) (s : TopK × Nat) (r : RowId × Bytes × UInt32) :
    Owes Deed.isScored (n + s.2) (courseRow score q s r) (fun s' m => m = n + s'.2) := by
  refine (owes_visit r.1).bind fun b m hm => ?_
  subst hm
  cases b with
  | false => exact .pure rfl
  | true =>
    show Owes _ (n + s.2 + 1) (if budgetStride ≤ s.2 + 1 then _ else _) _
    rw [Nat.add_assoc]
    split
    · refine (Owes.check (n := n)).bind fun _ m hm => ?_
      exact .pure hm
    · exact .pure rfl

/-- **A scan charges every score** that it computes. -/
theorem owes_course (n : Nat) (out : TopK) :
    Owes Deed.isScored n (course score q out) (fun _ m => m = n) := by
  unfold course
  split
  · exact .pure rfl
  · refine (Owes.foldlM (fun s => n + s.2) (owes_courseRow n) q.rows (out, 0)).bind fun s m hm => ?_
    subst hm
    refine (Owes.check (n := n)).bind fun _ m hm => ?_
    exact .pure hm

end

end ExactScan

namespace HnswIndex

section

variable {M : Machine} {rowScore : Metric → List UInt32 → Bytes → UInt32 → UInt32} {p : HnswParams} {g : Graph} {q : Query}

theorem owes_courseSettle (n charged : Nat) :
    Owes Deed.isScored (n + charged) (courseSettle charged) (fun charged' m => m = n + charged') := by
  unfold courseSettle
  split
  · refine (Owes.check (n := n)).bind fun _ m hm => ?_
    exact .pure hm
  · exact .pure rfl

theorem owes_courseLayer (n layer fuel : Nat) (current : Scored Nat UInt32) (charged : Nat) :
    Owes Deed.isScored (n + charged) (courseLayer M g q layer fuel current charged) (fun r m => m = n + r.2) := by
  induction fuel generalizing current charged with
  | zero => exact Owes.reads.mono fun _ _ h => nomatch h.1
  | succ fuel ih =>
    unfold courseLayer
    refine Owes.reads.bind fun round m hm => ?_
    obtain ⟨-, rfl⟩ := hm
    refine (owes_scores _).bind fun _ m hm => ?_
    subst hm
    rw [Nat.add_assoc]
    refine (owes_courseSettle n _).bind fun charged' m hm => ?_
    subst hm
    split
    · exact ih _ _
    · exact .pure rfl

theorem owes_courseLayers (n layers : Nat) (current : Scored Nat UInt32) (charged : Nat) :
    Owes Deed.isScored (n + charged) (courseLayers M g q layers current charged) (fun r m => m = n + r.2) := by
  induction layers generalizing current charged with
  | zero => exact .pure rfl
  | succ layers ih =>
    unfold courseLayers
    refine (owes_courseLayer n _ _ _ _).bind fun r m hm => ?_
    subst hm
    exact ih _ _

theorem owes_courseAdmitted (n : Nat) (found : List (Scored Nat UInt32)) :
    Owes Deed.isScored n (courseAdmitted g q found) (fun _ m => m = n) := by
  induction found with
  | nil => exact .pure rfl
  | cons c found ih =>
    unfold courseAdmitted
    split
    · exact ih
    · refine (owes_test _).bind fun ok m hm => ?_
      subst hm
      refine ih.bind fun others m hm => ?_
      exact .pure hm

/-- **A search that goes through the graph** leaves a score uncharged. -/
theorem owes_course (hk : q.topK ≠ 0) (hfits : fits g q = true) {entry : Nat} (hentry : g.entry = some entry)
    (out : TopK) : Owes Deed.isScored 0 (course M rowScore p g q out) (fun _ m => 1 ≤ m) := by
  unfold course
  rw [if_neg hk, hfits, hentry]
  refine Owes.reads.bind fun score m hm => ?_
  obtain ⟨-, rfl⟩ := hm
  refine (owes_scores 1).bind fun _ m hm => ?_
  subst hm
  refine (owes_courseLayers 1 _ _ 0).bind fun r m hm => ?_
  subst hm
  refine Owes.reads.bind fun f m hm => ?_
  obtain ⟨hfound, rfl⟩ := hm
  have hlen : f.1.length ≤ f.2.length := searchSeen_length hfound
  refine (owes_scores _).bind fun _ m hm => ?_
  subst hm
  rw [show 1 + r.2 + f.2.length = (1 + (f.2.length - f.1.length)) + (r.2 + f.1.length) by omega]
  refine Owes.check.bind fun _ m hm => ?_
  refine (owes_courseAdmitted _ _).bind fun rows m' hm' => ?_
  split
  · exact (ExactScan.owes_course _ _).mono fun _ _ h => by omega
  · exact .pure (by omega)

end

end HnswIndex

/-! ## How promptly a scan stops -/

namespace Query

variable (q : Query)

/-- The rows that a scan comes to: all, or those up to the first whose test fails. -/
def reached : List (RowId × Bytes × UInt32) → List (RowId × Bytes × UInt32)
  | [] => []
  | r :: rest => match q.admits r.1 with
    | .error _ => [r]
    | .ok _ => r :: reached rest

/-- How many of the first `i` rows may be returned. -/
def admittedBefore (rows : List (RowId × Bytes × UInt32)) (i : Nat) : Nat :=
  (rows.take i).countP (fun r => q.admitted r.1)

/-- **Rows to return come evenly**: from any row to the `K`th behind it, another full 1024 of them come to their end. -/
def Evenly (K : Nat) : Prop := ∀ i, i + K < (q.reached q.rows).length →
  q.admittedBefore (q.reached q.rows) i / ExactScan.budgetStride <
    q.admittedBefore (q.reached q.rows) (i + K) / ExactScan.budgetStride

variable {q}

/-- A scan comes to every row if no test fails. -/
theorem reached_eq {rows : List (RowId × Bytes × UInt32)} (h : ∀ r ∈ rows, ∃ b, q.admits r.1 = .ok b) :
    q.reached rows = rows := by
  induction rows with
  | nil => rfl
  | cons r rows ih =>
    obtain ⟨⟨b, hb⟩, hrest⟩ := List.forall_mem_cons.mp h
    unfold reached
    rw [hb, ih hrest]

/-- Where every row may be returned, rows come evenly, however many there are. -/
theorem evenly_of_admitted (h : ∀ r ∈ q.rows, q.admits r.1 = .ok true) : q.Evenly ExactScan.budgetStride := by
  have hcount : ∀ i ≤ q.rows.length, q.admittedBefore q.rows i = i := by
    intro i hi
    unfold admittedBefore
    rw [List.countP_eq_length.mpr, List.length_take, Nat.min_eq_left hi]
    intro r hr
    exact admitted_of_ok (h r (List.mem_of_mem_take hr))
  unfold Evenly
  rw [reached_eq (fun r hr => ⟨true, h r hr⟩)]
  intro i hi
  rw [hcount _ hi.le, hcount i (by omega), Nat.add_div_right i (by decide)]
  exact Nat.lt_succ_self _

/-- Where none may be returned, they do not. -/
theorem not_evenly_of_skipped (h : ∀ r ∈ q.rows, q.admits r.1 = .ok false) {K : Nat} (hK : K < q.rows.length) :
    ¬ q.Evenly K := by
  have hcount : ∀ i, q.admittedBefore q.rows i = 0 := by
    intro i
    unfold admittedBefore
    rw [List.countP_eq_zero]
    intro r hr
    rw [admitted_of_ok (h r (List.mem_of_mem_take hr))]
    exact Bool.false_ne_true
  unfold Evenly
  rw [reached_eq (fun r hr => ⟨false, h r hr⟩)]
  intro heven
  have := heven 0 (by omega)
  rw [hcount, hcount] at this
  exact Nat.lt_irrefl _ this

end Query

namespace ExactScan

section

variable {score : Bytes → UInt32 → UInt32} {q : Query}

/-- A scan's items, row by row, `since` scores being uncharged. -/
def scanItems (q : Query) : Nat → List (RowId × Bytes × UInt32) → List (Item Deed)
  | _, [] => []
  | since, r :: rest =>
      if q.admitted r.1 then
        .deed .scored ::
          if budgetStride ≤ since + 1 then .check (since + 1) :: scanItems q 0 rest else scanItems q (since + 1) rest
      else .deed .passed :: scanItems q since rest

theorem items_foldlM (rows : List (RowId × Bytes × UInt32)) (s : TopK × Nat) :
    (rows.foldlM (courseRow score q) s).items = scanItems q s.2 (q.reached rows) := by
  induction rows generalizing s with
  | nil => rfl
  | cons r rows ih =>
    rw [List.foldlM_cons]
    unfold Query.reached
    cases hadm : q.admits r.1 with
    | error e =>
      have hvisit : (q.visit r.1).result = some (.error e) := congrArg some hadm
      have hrow : courseRow score q s r = ⟨(q.visit r.1).items, some (.error e)⟩ := Course.bind_error hvisit
      have hnot : q.admitted r.1 = false := by
        unfold Query.admitted; rw [hadm]
      rw [hrow, Course.bind_error rfl]
      show [Item.deed _] = scanItems q s.2 [r]
      unfold scanItems
      rw [hadm, hnot]
      rfl
    | ok b =>
      have hvisit : (q.visit r.1).result = some (.ok b) := congrArg some hadm
      have hadmitted := Query.admitted_of_ok hadm
      dsimp only
      unfold scanItems
      rw [hadmitted]
      cases b with
      | false =>
        have hrow : courseRow score q s r = ⟨[.deed .passed], some (.ok s)⟩ := by
          unfold courseRow Query.visit
          rw [hadm]; rfl
        rw [hrow, Course.bind_items rfl, ih]
        rfl
      | true =>
        by_cases hdue : budgetStride ≤ s.2 + 1
        · have hrow : courseRow score q s r = ⟨[.deed .scored, .check (s.2 + 1)],
              some (.ok ((s.1.offer ⟨r.1, score r.2.1 r.2.2⟩).1, 0))⟩ := by
            unfold courseRow Query.visit
            rw [hadm]
            dsimp only [Bind.bind]
            rw [if_pos rfl, if_pos hdue]; rfl
          rw [hrow, Course.bind_items rfl, ih, if_pos rfl, if_pos hdue]
          rfl
        · have hrow : courseRow score q s r = ⟨[.deed .scored],
              some (.ok ((s.1.offer ⟨r.1, score r.2.1 r.2.2⟩).1, s.2 + 1))⟩ := by
            unfold courseRow Query.visit
            rw [hadm]
            dsimp only [Bind.bind]
            rw [if_pos rfl, if_neg hdue]; rfl
          rw [hrow, Course.bind_items rfl, ih, if_pos rfl, if_neg hdue]
          rfl

/-- What `Evenly` is on the way: of `len` rows to come `c i` of the first `i` may be returned, `since` scores are
    uncharged, and `n` rows have been passed since the last charge. -/
def EvenFrom (K : Nat) (c : Nat → Nat) (len since n : Nat) : Prop :=
  (∀ i, i + K < len → (since + c i) / budgetStride < (since + c (i + K)) / budgetStride) ∧
    ∀ j, j < len → since + c j < budgetStride → n + j + 1 ≤ K

theorem evenFrom_step {K len since n a : Nat} {c c' : Nat → Nat} (hzero : c 0 = 0) (hsucc : ∀ i, c (i + 1) = a + c' i)
    (hroom : since + a < budgetStride) :
    EvenFrom K c (len + 1) since n ↔ n + 1 ≤ K ∧ EvenFrom K c' len (since + a) (n + 1) := by
  unfold EvenFrom
  unfold budgetStride at *
  constructor
  · rintro ⟨hevery, hfirst⟩
    have hn := hfirst 0 (by omega) (by omega)
    refine ⟨by omega, fun i hi => ?_, fun j hj hc => ?_⟩
    · have h := hevery (i + 1) (by omega)
      rw [show i + 1 + K = i + K + 1 by omega, hsucc, hsucc] at h
      omega
    · have h := hfirst (j + 1) (by omega)
      rw [hsucc] at h
      omega
  · rintro ⟨hn, hevery, hfirst⟩
    refine ⟨fun i hi => ?_, fun j hj hc => ?_⟩
    · cases i with
      | zero =>
        -- as many rows as that are more than may be passed
        obtain ⟨k, rfl⟩ : ∃ k, K = k + 1 := ⟨K - 1, by omega⟩
        have h := hfirst k (by omega)
        rw [Nat.zero_add, hsucc, hzero]
        omega
      | succ i =>
        have h := hevery i (by omega)
        rw [show i + 1 + K = i + K + 1 by omega, hsucc, hsucc]
        omega
    · cases j with
      | zero => omega
      | succ j =>
        rw [hsucc] at hc
        have h := hfirst j (by omega) (by omega)
        omega

theorem evenFrom_due {K len since n : Nat} {c c' : Nat → Nat} (hzero : c 0 = 0) (hsucc : ∀ i, c (i + 1) = 1 + c' i)
    (hzero' : c' 0 = 0) (hmono : ∀ i j, i ≤ j → c' i ≤ c' j) (hdue : since + 1 = budgetStride) :
    EvenFrom K c (len + 1) since n ↔ n + 1 ≤ K ∧ EvenFrom K c' len 0 0 := by
  unfold EvenFrom
  unfold budgetStride at *
  constructor
  · rintro ⟨hevery, hfirst⟩
    have hn := hfirst 0 (by omega) (by omega)
    refine ⟨by omega, fun i hi => ?_, fun j hj hc => ?_⟩
    · have h := hevery (i + 1) (by omega)
      rw [show i + 1 + K = i + K + 1 by omega, hsucc, hsucc] at h
      omega
    · -- otherwise `K` rows are passed from the charge on
      by_contra hfar
      have h := hevery 1 (by omega)
      have hle := hmono K j (by omega)
      rw [show 1 + K = K + 1 by omega, hsucc, show (1 : Nat) = 0 + 1 from rfl, hsucc, hzero'] at h
      omega
  · rintro ⟨hn, hevery, hfirst⟩
    refine ⟨fun i hi => ?_, fun j hj hc => ?_⟩
    · cases i with
      | zero =>
        obtain ⟨k, rfl⟩ : ∃ k, K = k + 1 := ⟨K - 1, by omega⟩
        rw [Nat.zero_add, hsucc, hzero]
        omega
      | succ i =>
        have h := hevery i (by omega)
        rw [show i + 1 + K = i + K + 1 by omega, hsucc, hsucc]
        omega
    · cases j with
      | zero => omega
      | succ j =>
        rw [hsucc] at hc
        omega

theorem admittedBefore_zero (rows : List (RowId × Bytes × UInt32)) : q.admittedBefore rows 0 = 0 := rfl

theorem admittedBefore_succ (r : RowId × Bytes × UInt32) (rows : List (RowId × Bytes × UInt32)) (i : Nat) :
    q.admittedBefore (r :: rows) (i + 1) = (if q.admitted r.1 then 1 else 0) + q.admittedBefore rows i := by
  unfold Query.admittedBefore
  rw [List.take_succ_cons, List.countP_cons, Nat.add_comm]

theorem admittedBefore_mono (rows : List (RowId × Bytes × UInt32)) (i j : Nat) (h : i ≤ j) :
    q.admittedBefore rows i ≤ q.admittedBefore rows j :=
  (List.take_sublist_take_left h).countP_le

theorem promptFrom_scanItems {K : Nat} (rows : List (RowId × Bytes × UInt32)) (since n : Nat)
    (hsince : since < budgetStride) :
    PromptFrom K n (scanItems q since rows) ↔ EvenFrom K (q.admittedBefore rows) rows.length since n := by
  induction rows generalizing since n with
  | nil => exact ⟨fun _ => ⟨fun _ h => absurd h (Nat.not_lt_zero _), fun _ h => absurd h (Nat.not_lt_zero _)⟩, fun _ => trivial⟩
  | cons r rows ih =>
    rw [List.length_cons]
    unfold scanItems
    cases hadm : q.admitted r.1 with
    | false =>
      have hsucc : ∀ i, q.admittedBefore (r :: rows) (i + 1) = 0 + q.admittedBefore rows i := by
        intro i
        rw [admittedBefore_succ, hadm]; rfl
      rw [evenFrom_step (admittedBefore_zero _) hsucc hsince]
      exact and_congr_right fun _ => ih since (n + 1) hsince
    | true =>
      have hsucc : ∀ i, q.admittedBefore (r :: rows) (i + 1) = 1 + q.admittedBefore rows i := by
        intro i
        rw [admittedBefore_succ, hadm]; rfl
      rw [if_pos rfl]
      split
      · next hdue =>
        rw [evenFrom_due (admittedBefore_zero _) hsucc (admittedBefore_zero _) (admittedBefore_mono rows) (by omega),
          ← ih 0 0 (by decide)]
        exact Iff.rfl
      · next hroom =>
        rw [evenFrom_step (admittedBefore_zero _) hsucc (by omega), ← ih (since + 1) (n + 1) (by omega)]
        exact Iff.rfl

variable (score) in
/-- **How promptly a scan stops** is how evenly rows come that it may return. -/
theorem prompt_course_iff {K : Nat} (out : TopK) :
    Prompt K (course score q out).items ↔ q.topK = 0 ∨ q.Evenly K := by
  rw [prompt_iff_from]
  unfold course
  split
  · next hk => exact ⟨fun _ => .inl hk, fun _ => trivial⟩
  · next hk =>
    have hitems : PromptFrom K 0 ((do
        let s ← q.rows.foldlM (courseRow score q) (out, 0)
        Course.check s.2
        return s.1 : Searching TopK)).items ↔ PromptFrom K 0 (scanItems q 0 (q.reached q.rows)) := by
      have hscan : (q.rows.foldlM (courseRow score q) (out, 0)).items = scanItems q 0 (q.reached q.rows) :=
        items_foldlM q.rows (out, 0)
      rcases hresult : (q.rows.foldlM (courseRow score q) (out, 0)).result with _ | e | s
      · rw [Course.bind_none hresult, hscan]
      · rw [Course.bind_error hresult, hscan]
      · rw [Course.bind_items hresult, hscan]
        exact promptFrom_append_check _ _ _
    rw [hitems, promptFrom_scanItems _ _ _ (by decide)]
    refine ⟨fun h => .inr fun i hi => ?_, fun h => ⟨fun i hi => ?_, fun j hj hc => ?_⟩⟩
    · have := h.1 i hi
      rwa [Nat.zero_add, Nat.zero_add] at this
    · rw [Nat.zero_add, Nat.zero_add]
      exact h.resolve_left hk i hi
    · by_contra hfar
      have heven := h.resolve_left hk 0 (by omega)
      have hle := admittedBefore_mono (q := q) (q.reached q.rows) K j (by omega)
      rw [Nat.zero_add, admittedBefore_zero] at heven
      rw [Nat.zero_add] at hc
      unfold budgetStride at heven hc
      omega

end

end ExactScan

/-! ## What a budget promises -/

/-- **A search honours its budget**, to within `K` rows: under whatever ceiling it ends well, it has computed at most so
    many scores, and however the budget is cancelled, at most `K` more rows are visited, tested or scored. -/
structure Honours (K : Nat) (x : Searching TopK) : Prop where
  ceiling : ∀ (b : Metering.Budget) (most : Nat), b.most = some most →
    (∃ r, x.ending .cancelled b 0 = some (.ok r)) → (x.done b).countP (Item.counts Deed.isScored) ≤ most
  prompt : ∀ most m, ((x.done ⟨most, some m⟩).drop m).countP Item.isDeed ≤ K

/-- An index that a search goes by. -/
inductive Indexing
  | exact
  | hnsw (p : HnswParams) (g : Graph)

namespace Indexing

/-- A search's course. -/
def course (M : Machine) (rowScore : Metric → List UInt32 → Bytes → UInt32 → UInt32) :
    Indexing → Query → TopK → Searching TopK
  | exact, q, out => ExactScan.course (rowScore q.metric q.vector) q out
  | hnsw p g, q, out => HnswIndex.course M rowScore p g q out

/-- Whether a search scans: there is no graph, or none that fits the query, or nothing in it. -/
def scans : Indexing → Query → Bool
  | exact, _ => true
  | hnsw _ g, q => !HnswIndex.fits g q || g.entry.isNone

end Indexing

section

variable {M : Machine} {rowScore : Metric → List UInt32 → Bytes → UInt32 → UInt32} {q : Query} {out : TopK} {K : Nat}

theorem course_of_scans {ix : Indexing} (h : ix.scans q = true) :
    ix.course M rowScore q out = ExactScan.course (rowScore q.metric q.vector) q out := by
  cases ix with
  | exact => rfl
  | hnsw p g =>
    show HnswIndex.course M rowScore p g q out = _
    unfold HnswIndex.course
    split
    · next hk =>
      unfold ExactScan.course
      rw [if_pos hk]
    · split
      · rfl
      · next hfits =>
        have hentry : g.entry = none := by
          rcases Bool.or_eq_true_iff.mp h with hnot | hnone
          · exact absurd hnot hfits
          · exact Option.isNone_iff_eq_none.mp hnone
        rw [hentry]
        rfl

/-- What a course's end says of what stopped it. -/
theorem ends_iff {x : Searching TopK} {top : TopK} (h : x.result = some (.ok top)) (b : Metering.Budget) :
    (∃ r, x.ending .cancelled b 0 = some (.ok r)) ↔ (b.walk x.items 0 0).2.isSome := by
  unfold Course.ending
  rw [h]
  cases (b.walk x.items 0 0).2 with
  | none => exact ⟨fun ⟨_, hr⟩ => (nomatch hr), nofun⟩
  | some total => exact ⟨fun _ => rfl, fun _ => ⟨(top, total), rfl⟩⟩

theorem ending_of_not_ok {x : Searching TopK} (h : ∀ top, x.result ≠ some (.ok top)) (b : Metering.Budget) :
    ¬ ∃ r, x.ending .cancelled b 0 = some (.ok r) := by
  rintro ⟨r, hr⟩
  unfold Course.ending at hr
  rcases hx : x.result with _ | e | top
  · rw [hx] at hr
    split at hr <;> cases hr
  · rw [hx] at hr
    split at hr <;> cases hr
  · exact h top hx

/-- **A scan honours its budget** as promptly as rows come. -/
theorem scan_honours_iff {score : Bytes → UInt32 → UInt32} :
    Honours K (ExactScan.course score q out) ↔ q.topK = 0 ∨ q.Evenly K := by
  rw [← ExactScan.prompt_course_iff score out]
  refine ⟨fun h => prompt_iff.mp h.prompt, fun h => ⟨fun b most hmost hends => ?_, prompt_iff.mpr h⟩⟩
  by_cases hok : ∃ top, (ExactScan.course score q out).result = some (.ok top)
  · obtain ⟨top, htop⟩ := hok
    obtain ⟨m, hm, rfl⟩ := ExactScan.owes_course 0 out top htop
    exact (covered_iff _).mpr (by omega) b most hmost ((ends_iff htop b).mp hends)
  · exact absurd hends (ending_of_not_ok (fun top htop => hok ⟨top, htop⟩) b)

/-- **A search through the graph** breaks some ceiling, if it ends well without one. -/
theorem graph_overruns {p : HnswParams} {g : Graph} (hk : q.topK ≠ 0) (hscans : (Indexing.hnsw p g).scans q = false)
    {top : TopK} (htop : (HnswIndex.course M rowScore p g q out).result = some (.ok top)) :
    ¬ Honours K (HnswIndex.course M rowScore p g q out) := by
  intro h
  obtain ⟨hfits, hentry⟩ := Bool.or_eq_false_iff.mp hscans
  obtain ⟨entry, hentry⟩ : ∃ entry, g.entry = some entry :=
    Option.isSome_iff_exists.mp (by rwa [← Option.not_isNone, Bool.not_eq_true'])
  obtain ⟨m, hm, hpos⟩ := HnswIndex.owes_course hk (by simpa using hfits) hentry out top htop
  have hcovered := (covered_iff (x := HnswIndex.course M rowScore p g q out) (Item.counts Deed.isScored)).mp
    (fun b most hmost hends => h.ceiling b most hmost ((ends_iff htop b).mpr hends))
  omega

end

/-- **Which searches honour their budget**: those that scan, to within as many rows as come between two charges. A
    search through the graph that ends well does not. -/
theorem budget_honoured_iff (M : Machine) (rowScore : Metric → List UInt32 → Bytes → UInt32 → UInt32) (ix : Indexing)
    (q : Query) (out : TopK) (K : Nat) :
    (q.topK = 0 ∨ ix.scans q = true ∧ q.Evenly K → Honours K (ix.course M rowScore q out)) ∧
      ((ix.scans q = false → ∃ top, (ix.course M rowScore q out).result = some (.ok top)) →
        Honours K (ix.course M rowScore q out) → q.topK = 0 ∨ ix.scans q = true ∧ q.Evenly K) := by
  constructor
  · rintro (hk | ⟨hscans, heven⟩)
    · have hnothing : ix.course M rowScore q out = ExactScan.course (rowScore q.metric q.vector) q out := by
        unfold ExactScan.course
        cases ix with
        | exact => rfl
        | hnsw p g =>
          show HnswIndex.course M rowScore p g q out = _
          unfold HnswIndex.course
          rw [if_pos hk, if_pos hk]
      rw [hnothing]
      exact scan_honours_iff.mpr (.inl hk)
    · rw [course_of_scans hscans]
      exact scan_honours_iff.mpr (.inr heven)
  · intro hends h
    by_cases hk : q.topK = 0
    · exact .inl hk
    cases hscans : ix.scans q with
    | true =>
      rw [course_of_scans hscans] at h
      exact .inr ⟨rfl, (scan_honours_iff.mp h).resolve_left hk⟩
    | false =>
      obtain ⟨top, htop⟩ := hends hscans
      cases ix with
      | exact => cases hscans
      | hnsw p g => exact absurd h (graph_overruns hk hscans htop)

/-- A source of dead rows, one more than may be passed: cancelled at its beginning, a scan visits them all. -/
theorem dead_rows_overrun : ¬ ∃ K, ∀ (M : Machine) (rowScore : Metric → List UInt32 → Bytes → UInt32 → UInt32)
    (ix : Indexing) (q : Query) (out : TopK), Honours K (ix.course M rowScore q out) := by
  rintro ⟨K, h⟩
  have hdead := h .whole (fun _ _ _ _ => 0) .exact
    ⟨[], 1, .l2, List.replicate (K + 1) (⟨0⟩, [], 0), K + 1, fun _ => false, none, ⟨none, none⟩, ⟨false, none⟩⟩ (TopK.new 1 none)
  rcases scan_honours_iff.mp hdead with hk | heven
  · cases hk
  · exact Query.not_evenly_of_skipped (fun _ _ => rfl) (by rw [List.length_replicate]; exact Nat.lt_succ_self K) heven

end IshaVectorDb.Index
