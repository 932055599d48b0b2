import IshaVectorDb.Correctness.Graphs
import IshaVectorDb.Correctness.TopK

/-!
# `Correctness.GraphSearch` — what a **search of the graph** keeps

On a sound graph a search ends without reading outside it, whatever the budget, the filter and the scores are
(`search_ends`). Over a graph of the query's rows and with nothing to cancel it, it keeps as many rows as it should: `k`
of those that may be returned, or all of them (`Ends.keepsEnough`). The beam finds distinct nodes, so what it offers is
either enough, or everything there is, or given up for a scan.
-/

namespace IshaVectorDb.Index

open Format Beam Engine

/-! ## What a query admits -/

namespace Query

variable {q : Query}

/-- Whether a row is live and matches the filter. -/
def admitted (q : Query) (row : RowId) : Bool := match q.admits row with
  | .ok b => b
  | .error _ => false

theorem admitted_of_ok {row : RowId} {b : Bool} (h : q.admits row = .ok b) : q.admitted row = b := by
  unfold admitted
  rw [h]

theorem admits_of_admitted {row : RowId} (h : q.admitted row = true) : q.admits row = .ok true := by
  unfold admitted at h
  cases ha : q.admits row with
  | error e => rw [ha] at h; cases h
  | ok b =>
    rw [ha] at h
    exact congrArg Except.ok h

/-- Nothing cancels the query. -/
def Unlimited (q : Query) : Prop := q.budget = ⟨false, none⟩

theorem Unlimited.charge (h : q.Unlimited) (scanned candidates : Nat) :
    q.charge scanned candidates = .ok (scanned + candidates) := by
  unfold Query.charge
  rw [h]
  rfl

end Query

/-! ## The exact scan -/

section Scan

variable {score : Bytes → UInt32 → UInt32} {q : Query} {s s' : Searched}

/-- The candidates that a scan offers. -/
def scanned (score : Bytes → UInt32 → UInt32) (q : Query) (rows : List (RowId × Bytes × UInt32)) : List Candidate :=
  (rows.filter (fun r => q.admitted r.1)).map (fun r => ⟨r.1, score r.2.1 r.2.2⟩)

theorem scanRow_ok {r : RowId × Bytes × UInt32} (h : ExactScan.scanRow score q s r = .ok s') :
    s'.top = s.top.offerAll (scanned score q [r]) := by
  unfold ExactScan.scanRow at h
  unfold scanned
  cases hadm : q.admits r.1 with
  | error e => rw [hadm] at h; cases h
  | ok b =>
    rw [hadm] at h
    rw [List.filter_cons, Query.admitted_of_ok hadm]
    cases b with
    | false => exact Except.ok.inj h ▸ rfl
    | true =>
      dsimp only [Bind.bind, Except.bind] at h
      rw [if_pos rfl] at h
      split at h
      · cases hc : q.charge s.scanned (s.charged + 1) with
        | error e => rw [hc] at h; cases h
        | ok n =>
          rw [hc] at h
          exact Except.ok.inj h ▸ rfl
      · exact Except.ok.inj h ▸ rfl

theorem scanRow_error (hq : q.Unlimited) {r : RowId × Bytes × UInt32} {e : DbError}
    (h : ExactScan.scanRow score q s r = .error e) : q.admits r.1 = .error e := by
  unfold ExactScan.scanRow at h
  cases hadm : q.admits r.1 with
  | error e' =>
    rw [hadm] at h
    rw [show e' = e from Except.error.inj h]
  | ok b =>
    rw [hadm] at h
    cases b with
    | false => cases h
    | true =>
      dsimp only [Bind.bind, Except.bind] at h
      rw [if_pos rfl, hq.charge] at h
      split at h <;> cases h

/-- **A scan that ends well** has offered every row that may be returned. -/
theorem scanRows_ok (rows : List (RowId × Bytes × UInt32)) (h : rows.foldlM (ExactScan.scanRow score q) s = .ok s') :
    s'.top = s.top.offerAll (scanned score q rows) := by
  induction rows generalizing s with
  | nil => exact Except.ok.inj h ▸ rfl
  | cons r rows ih =>
    rw [List.foldlM_cons] at h
    cases hr : ExactScan.scanRow score q s r with
    | error e => rw [hr] at h; cases h
    | ok s1 =>
      rw [hr] at h
      rw [ih h, scanRow_ok hr]
      unfold TopK.offerAll
      rw [← List.foldl_append]
      congr 1
      unfold scanned
      rw [← List.map_append, ← List.filter_append, List.singleton_append]

theorem scanRows_error (hq : q.Unlimited) (rows : List (RowId × Bytes × UInt32)) {e : DbError}
    (h : rows.foldlM (ExactScan.scanRow score q) s = .error e) : ∃ r ∈ rows, q.admits r.1 = .error e := by
  induction rows generalizing s with
  | nil => cases h
  | cons r rows ih =>
    rw [List.foldlM_cons] at h
    cases hr : ExactScan.scanRow score q s r with
    | error e' =>
      rw [hr] at h
      obtain rfl : e' = e := Except.error.inj h
      exact ⟨r, List.mem_cons_self, scanRow_error hq hr⟩
    | ok s1 =>
      rw [hr] at h
      obtain ⟨r', hmem, he⟩ := ih h
      exact ⟨r', List.mem_cons_of_mem _ hmem, he⟩

end Scan

/-! ## What an answer should be -/

/-- **As many rows as there should be**: `k` of those that may be returned, or all, none of them twice. -/
structure Answers (q : Query) (out : TopK) : Prop where
  count : out.heap.length = min q.topK ((q.rows.map Prod.fst).countP q.admitted)
  admitted : ∀ c ∈ out.heap, c.row ∈ q.rows.map Prod.fst ∧ q.admits c.row = .ok true
  distinct : (out.heap.map Candidate.row).Nodup

/-- Enough distinct rows that may be returned make an answer when they are offered. -/
theorem answers_offerAll {q : Query} {cs : List Candidate} (hsub : (cs.map Candidate.row).Subperm (q.rows.map Prod.fst))
    (hnd : (q.rows.map Prod.fst).Nodup) (hadm : ∀ c ∈ cs, q.admitted c.row = true)
    (henough : q.topK ≤ cs.length ∨ cs.length = (q.rows.map Prod.fst).countP q.admitted) :
    Answers q ((TopK.new q.topK none).offerAll cs) := by
  have hheap := TopK.offerAll_subperm (TopK.new q.topK none) cs
  rw [show (TopK.new q.topK none).heap = [] from rfl, List.append_nil] at hheap
  have hlen := TopK.offerAll_length (t := TopK.new q.topK none) rfl (Nat.zero_le _) cs
  rw [show (TopK.new q.topK none).heap.length + cs.length = cs.length from Nat.zero_add _] at hlen
  refine ⟨?_, fun c hc => ?_, ?_⟩
  · rw [hlen]
    show min q.topK cs.length = _
    rcases henough with hk | hall
    · -- those offered are among those that may be returned
      have hcount := hsub.countP_le q.admitted
      rw [List.countP_map, show cs.countP (q.admitted ∘ Candidate.row) = cs.length from
        List.countP_eq_length.mpr hadm] at hcount
      omega
    · rw [hall]
  · have hmem := hheap.subset hc
    exact ⟨hsub.subset (List.mem_map_of_mem hmem), Query.admits_of_admitted (hadm c hmem)⟩
  · obtain ⟨l, hperm, hsublist⟩ := hheap
    have hnd' : (cs.map Candidate.row).Nodup := by
      obtain ⟨l', hperm', hsublist'⟩ := hsub
      exact hperm'.nodup_iff.mp (hnd.sublist hsublist')
    exact (hperm.map _).nodup_iff.mp (hnd'.sublist (hsublist.map _))

/-- **The exact scan** answers, or the filter fails. -/
theorem exactScan_answers {score : Bytes → UInt32 → UInt32} {q : Query} (hq : q.Unlimited)
    (hnd : (q.rows.map Prod.fst).Nodup) (n : Nat) (r : Except DbError (TopK × Nat))
    (hr : ExactScan.search score q n (TopK.new q.topK none) = r) :
    (∀ out m, r = .ok (out, m) → Answers q out) ∧
      ∀ e, r = .error e → ∃ row ∈ q.rows.map Prod.fst, q.admits row = .error e := by
  unfold ExactScan.search at hr
  by_cases hk : q.topK = 0
  · rw [if_pos hk] at hr
    subst hr
    refine ⟨fun out m h => ?_, nofun⟩
    obtain rfl := (Prod.mk.inj (Except.ok.inj h)).1
    refine ⟨?_, nofun, List.nodup_nil⟩
    rw [hk, Nat.zero_min]
    rfl
  rw [if_neg hk] at hr
  cases hscan : q.rows.foldlM (ExactScan.scanRow score q) ⟨TopK.new q.topK none, 0, n⟩ with
  | error e' =>
    rw [hscan] at hr
    obtain rfl : Except.error e' = r := hr
    refine ⟨nofun, fun e h => ?_⟩
    obtain rfl : e' = e := Except.error.inj h
    obtain ⟨r, hmem, he⟩ := scanRows_error hq q.rows hscan
    exact ⟨r.1, List.mem_map_of_mem hmem, he⟩
  | ok s =>
    have hoffered := scanRows_ok q.rows hscan
    rw [hscan] at hr
    have hr : (do return (s.top, ← q.charge s.scanned s.charged) : Except DbError (TopK × Nat)) = r := hr
    rw [hq.charge] at hr
    obtain rfl : Except.ok (s.top, s.scanned + s.charged) = r := hr
    refine ⟨fun out m h => ?_, nofun⟩
    obtain rfl := (Prod.mk.inj (Except.ok.inj h)).1
    rw [hoffered]
    have hrows : (scanned score q q.rows).map Candidate.row = (q.rows.map Prod.fst).filter q.admitted := by
      unfold scanned
      rw [List.map_map, List.filter_map]
      rfl
    refine answers_offerAll (hrows ▸ List.filter_sublist.subperm) hnd (fun c hc => ?_) (.inr ?_)
    · obtain ⟨r, hr, rfl⟩ := List.mem_map.mp hc
      exact (List.mem_filter.mp hr).2
    · rw [List.countP_eq_length_filter, ← hrows, List.length_map]

/-! ## How a search of the graph ends -/

section Search

variable {M : Machine} {rowScore : Metric → List UInt32 → Bytes → UInt32 → UInt32} {p : HnswParams} {g : Graph}
  {q : Query} {α β : Type}

theorem reads_bind {o : Option α} {a : α} (h : o = some a) (f : α → Answering β) :
    (Answering.reads o >>= f) = f a := by
  rw [h]
  rfl

theorem checks_bind {e : Except DbError α} {a : α} (h : e = .ok a) (f : α → Answering β) :
    (Answering.checks e >>= f) = f a := by
  rw [h]
  rfl

theorem checks_bind_error {r : Except DbError α} {e : DbError} (h : r = .error e) (f : α → Answering β) :
    (Answering.checks r >>= f) = some (.error e) := by
  rw [h]
  rfl

namespace HnswIndex

theorem settle_unlimited (hq : q.Unlimited) (m : Meter) : ∃ m', settle q m = .ok m' := by
  unfold settle
  split
  · rw [hq.charge]
    exact ⟨_, rfl⟩
  · exact ⟨m, rfl⟩

/-- **A charged descent** comes to the node of the uncharged one, unless it is cancelled. -/
theorem descendLayer_of_descend {layer fuel : Nat} {current r : Scored Nat UInt32}
    (h : descend (g.space M q.metric q.vector layer) fuel current = some r) (m : Meter) :
    ∃ out, descendLayer M g q layer fuel current m = some out ∧ (∀ r' m', out = .ok (r', m') → r' = r) ∧
      (q.Unlimited → ∃ m', out = .ok (r, m')) := by
  induction fuel generalizing current m with
  | zero => cases h
  | succ fuel ih =>
    unfold descend at h
    obtain ⟨⟨next, improved⟩, hround, h⟩ := Option.bind_eq_some_iff.mp h
    unfold descendLayer
    dsimp only at h ⊢
    have hround : improve (g.space M q.metric q.vector layer) current false (g.neighbours layer current.node)
        = some (next, improved) := hround
    rw [reads_bind hround]
    dsimp only
    cases hsettle : settle q ⟨m.charged + (g.neighbours layer current.node).length, m.scanned⟩ with
    | error e =>
      rw [checks_bind_error rfl]
      refine ⟨_, rfl, fun r' m' he => (by cases he), fun hq => ?_⟩
      obtain ⟨m', hm⟩ := settle_unlimited hq ⟨m.charged + (g.neighbours layer current.node).length, m.scanned⟩
      rw [hsettle] at hm
      cases hm
    | ok m' =>
      rw [checks_bind rfl]
      cases improved with
      | true => exact ih h m'
      | false =>
        obtain rfl : next = r := Option.some.inj h
        exact ⟨.ok (next, m'), rfl, fun r' m'' he => ((Prod.mk.inj (Except.ok.inj he)).1).symm, fun _ => ⟨m', rfl⟩⟩

/-- **The descent through the layers** ends at a node, unless it is cancelled. -/
theorem descendLayers_spec (hs : g.Shaped) (layers : Nat) {current : Scored Nat UInt32} (hc : current.node < g.len)
    (hscore : g.scoreOf M q.metric q.vector current.node = some current.score) (m : Meter) :
    ∃ out, descendLayers M g q layers current m = some out ∧ (∀ r m', out = .ok (r, m') → r.node < g.len) ∧
      (q.Unlimited → ∃ r m', out = .ok (r, m')) := by
  induction layers generalizing current m with
  | zero =>
    refine ⟨.ok (current, m), rfl, fun r m' he => ?_, fun _ => ⟨current, m, rfl⟩⟩
    exact (Prod.mk.inj (Except.ok.inj he)).1 ▸ hc
  | succ layers ih =>
    have hsealed : Sealed (g.space M q.metric q.vector (layers + 1)) (· < g.len) :=
      (hs.tower (layers + 2)).sealed M q.metric q.vector hs (Nat.lt_succ_self _)
    have hat : At (g.space M q.metric q.vector (layers + 1)) (· < g.len) current := ⟨hc, hscore⟩
    obtain ⟨r, hrun, hr⟩ := descend_spec Score.gt_strict hsealed
      (fun nodes hn h => Graph.nodup_length_le hn h) (Nat.le_succ g.len) hat
    obtain ⟨out, hout, hnode, hfree⟩ := descendLayer_of_descend hrun m
    unfold descendLayers
    cases out with
    | error e =>
      refine ⟨.error e, ?_, nofun, fun hq => ?_⟩
      · show ((descendLayer M g q (layers + 1) (g.len + 1) current m) >>= _) = _
        rw [hout]
        rfl
      · obtain ⟨m', hm⟩ := hfree hq
        cases hm
    | ok found =>
      obtain ⟨next, m'⟩ := found
      obtain rfl := hnode next m' rfl
      obtain ⟨out', hout', hnode', hfree'⟩ := ih hr.inside hr.score m'
      refine ⟨out', ?_, hnode', hfree'⟩
      show ((descendLayer M g q (layers + 1) (g.len + 1) current m) >>= _) = _
      rw [hout]
      exact hout'

/-- The row of a node that was found. -/
def rowOf (g : Graph) (c : Scored Nat UInt32) : Option RowId := g.rows[c.node]?

/-- The rows that are admitted of those found. -/
theorem admitted_ok {found : List (Scored Nat UInt32)} {cs : List Candidate} (h : admitted g q found = .ok cs) :
    cs.map Candidate.row = (found.filterMap (rowOf g)).filter q.admitted := by
  induction found generalizing cs with
  | nil => exact Except.ok.inj h ▸ rfl
  | cons c found ih =>
    unfold admitted at h
    cases hrow : g.rows[c.node]? with
    | none =>
      rw [hrow] at h
      rw [List.filterMap_cons_none (show rowOf g c = none from hrow)]
      exact ih h
    | some row =>
      rw [hrow] at h
      dsimp only at h
      rw [List.filterMap_cons_some (show rowOf g c = some row from hrow), List.filter_cons]
      cases hadm : q.admits row with
      | error e => rw [hadm] at h; cases h
      | ok b =>
        rw [hadm] at h
        rw [Query.admitted_of_ok hadm]
        cases hrest : admitted g q found with
        | error e => rw [hrest] at h; cases h
        | ok others =>
          rw [hrest] at h
          obtain rfl : (if b = true then ⟨row, c.score⟩ :: others else others) = cs := Except.ok.inj h
          rw [← ih hrest]
          cases b <;> rfl

theorem admitted_error {found : List (Scored Nat UInt32)} {e : DbError} (h : admitted g q found = .error e) :
    ∃ row ∈ g.rows, q.admits row = .error e := by
  induction found with
  | nil => cases h
  | cons c found ih =>
    unfold admitted at h
    cases hrow : g.rows[c.node]? with
    | none =>
      rw [hrow] at h
      exact ih h
    | some row =>
      rw [hrow] at h
      dsimp only at h
      cases hadm : q.admits row with
      | error e' =>
        rw [hadm] at h
        obtain rfl : e' = e := Except.error.inj h
        exact ⟨row, List.mem_of_getElem? hrow, hadm⟩
      | ok b =>
        rw [hadm] at h
        cases hrest : admitted g q found with
        | error e' =>
          rw [hrest] at h
          obtain rfl : e' = e := Except.error.inj h
          exact ih hrest
        | ok others => rw [hrest] at h; cases h

/-- **How a search can end**: with nothing asked for, by a scan, cancelled, with a filter that fails, or with what the
    beam found, which is then enough or all there is. -/
inductive Ends (rowScore : Metric → List UInt32 → Bytes → UInt32 → UInt32) (g : Graph) (q : Query) (out : TopK) :
    Except DbError (TopK × Nat) → Prop
  | nothing : q.topK = 0 → Ends rowScore g q out (.ok (out, 0))
  | scan (n : Nat) : Ends rowScore g q out (fallback rowScore q n out)
  | cancelled (e : DbError) : ¬ q.Unlimited → Ends rowScore g q out (.error e)
  | failed (found : List (Scored Nat UInt32)) (e : DbError) : admitted g q found = .error e →
      Ends rowScore g q out (.error e)
  | found (found : List (Scored Nat UInt32)) (cs : List Candidate) (n : Nat) : (∀ c ∈ found, c.node < g.len) →
      (found.map Scored.node).Nodup → admitted g q found = .ok cs → (q.topK ≤ cs.length ∨ g.len ≤ found.length) →
      Ends rowScore g q out (.ok (out.offerAll cs, n))

/-- Nodes of the graph that a search of its lowest layer may return. -/
structure Distinct (g : Graph) (found : List (Scored Nat UInt32)) : Prop where
  inside : ∀ c ∈ found, c.node < g.len
  once : (found.map Scored.node).Nodup

variable (M rowScore p q) in
/-- **A search of a sound graph ends** where the search of its lowest layer does, without reading outside it. -/
theorem searchBy_ends (hg : g.Sound) {lowest : Nat → List Nat → Option (List (Scored Nat UInt32))}
    (hlowest : fits g q = true → ∀ ef n, n < g.len → ∃ found, lowest ef [n] = some found ∧ Distinct g found) (out : TopK) :
    ∃ r, searchBy M rowScore p g q lowest out = some r ∧ Ends rowScore g q out r := by
  unfold searchBy
  by_cases hk : q.topK = 0
  · rw [if_pos hk]
    exact ⟨_, rfl, .nothing hk⟩
  rw [if_neg hk]
  by_cases hfits : (!fits g q) = true
  · rw [if_pos hfits]
    exact ⟨_, rfl, .scan 0⟩
  rw [if_neg hfits]
  rw [Bool.not_eq_true', Bool.not_eq_false] at hfits
  cases hentry : g.entry with
  | none => exact ⟨_, rfl, .scan 0⟩
  | some entry =>
    have helt := hg.entry entry hentry
    obtain ⟨score, hscore⟩ := hg.scoreOf_some M q.metric helt q.vector
    dsimp only
    rw [reads_bind hscore]
    obtain ⟨descended, hdescended, hnode, hfree⟩ := descendLayers_spec (M := M) (q := q) hg.toShaped
      (g.layers.length - 1) (show (⟨score, entry⟩ : Scored Nat UInt32).node < g.len from helt) hscore ⟨0, 0⟩
    cases descended with
    | error e =>
      refine ⟨.error e, by rw [hdescended]; rfl, .cancelled e (fun hq => ?_)⟩
      obtain ⟨r, m, he⟩ := hfree hq
      cases he
    | ok at_ =>
      obtain ⟨current, m⟩ := at_
      obtain ⟨found, hfound, hin, hnd⟩ := hlowest hfits (beamWidth p g q) current.node (hnode current m rfl)
      rw [hdescended]
      show ∃ r, ((Answering.reads _ >>= _ : Answering (TopK × Nat))) = some r ∧ _
      rw [reads_bind hfound]
      cases hcharge : q.charge m.scanned (m.charged + found.length) with
      | error e =>
        refine ⟨.error e, by rw [checks_bind_error rfl], .cancelled e (fun hq => ?_)⟩
        rw [hq.charge] at hcharge
        cases hcharge
      | ok n =>
        rw [checks_bind rfl]
        cases hadm : admitted g q found with
        | error e => exact ⟨.error e, by rw [checks_bind_error rfl], .failed found e hadm⟩
        | ok cs =>
          rw [checks_bind rfl]
          by_cases hfew : cs.length < q.topK ∧ found.length < g.len
          · rw [if_pos hfew]
            exact ⟨_, rfl, .scan n⟩
          · rw [if_neg hfew]
            exact ⟨_, rfl, .found found cs n hin hnd hadm (by omega)⟩

variable (M rowScore p q) in
theorem search_ends (hg : g.Sound) (out : TopK) :
    ∃ r, search M rowScore p g q out = some r ∧ Ends rowScore g q out r := by
  refine searchBy_ends M rowScore p q hg (fun _ ef n hn => ?_) out
  obtain ⟨found, hfound, hin, hnd, -⟩ := Graph.searchLayer_spec M q.metric q.vector hg.toShaped (hg.tower 1)
    Nat.zero_lt_one ef (fun e (he : e ∈ [n]) => List.mem_singleton.mp he ▸ hn)
  exact ⟨found, hfound, hin, hnd⟩

/-! ## As many rows as there should be -/

/-- Distinct nodes are distinct rows, all of them if they are as many. -/
theorem found_rows (hrows : g.rows.Nodup) {found : List (Scored Nat UInt32)} (hin : ∀ c ∈ found, c.node < g.len)
    (hnd : (found.map Scored.node).Nodup) :
    (found.filterMap (rowOf g)).Subperm g.rows ∧
      (g.len ≤ found.length → (found.filterMap (rowOf g)).Perm g.rows) := by
  have hsplit : found.filterMap (rowOf g) = (found.map Scored.node).filterMap (fun n => g.rows[n]?) := by
    rw [List.filterMap_map]
    rfl
  have hdistinct : (found.filterMap (rowOf g)).Nodup := by
    rw [hsplit]
    refine hnd.filterMap (fun a b row ha hb => ?_)
    obtain ⟨hlt, -⟩ := List.getElem?_eq_some_iff.mp ha
    exact (List.getElem?_inj hlt hrows).mp (ha.trans hb.symm)
  have hsub : (found.filterMap (rowOf g)).Subperm g.rows := by
    refine List.subperm_of_subset hdistinct (fun row hrow => ?_)
    obtain ⟨c, -, hc⟩ := List.mem_filterMap.mp hrow
    exact List.mem_of_getElem? hc
  refine ⟨hsub, fun hmany => hsub.perm_of_length_le ?_⟩
  have hlen : (found.filterMap (rowOf g)).length = found.length := by
    rw [List.length_filterMap_eq_countP]
    refine List.countP_eq_length.mpr (fun c hc => ?_)
    show (g.rows[c.node]?).isSome = true
    rw [List.getElem?_eq_getElem (hin c hc)]
    rfl
  rw [hlen]
  exact hmany

/-- **The search keeps enough**: it returns, and answers unless the filter fails on a row. -/
def KeepsEnough (q : Query) (answer : Answering (TopK × Nat)) : Prop :=
  ∃ r, answer = some r ∧ (∀ out n, r = .ok (out, n) → Answers q out) ∧
    ∀ e, r = .error e → ∃ row ∈ q.rows.map Prod.fst, q.admits row = .error e

/-- **A search that ends keeps as many rows as it should**: over a graph of the query's rows, with nothing to cancel it. -/
theorem Ends.keepsEnough {answer : Answering (TopK × Nat)} (hrows : g.rows = q.rows.map Prod.fst)
    (hnd : (q.rows.map Prod.fst).Nodup) (hq : q.Unlimited)
    (h : ∃ r, answer = some r ∧ Ends rowScore g q (TopK.new q.topK none) r) : KeepsEnough q answer := by
  obtain ⟨r, hrun, hends⟩ := h
  refine ⟨r, hrun, ?_⟩
  cases hends with
  | nothing hk =>
    refine ⟨fun out n he => ?_, nofun⟩
    obtain rfl := (Prod.mk.inj (Except.ok.inj he)).1
    refine ⟨?_, nofun, List.nodup_nil⟩
    rw [hk, Nat.zero_min]
    rfl
  | scan n => exact exactScan_answers hq hnd n _ rfl
  | cancelled e hlimited => exact absurd hq hlimited
  | failed found e hfailed =>
    refine ⟨nofun, fun e' he => ?_⟩
    obtain rfl : e = e' := Except.error.inj he
    exact hrows ▸ admitted_error hfailed
  | found found cs n hin hnodup hadm henough =>
    refine ⟨fun out m he => ?_, nofun⟩
    obtain rfl := (Prod.mk.inj (Except.ok.inj he)).1
    have hcs := admitted_ok hadm
    obtain ⟨hsub, hperm⟩ := found_rows (hrows ▸ hnd) hin hnodup
    refine answers_offerAll ?_ hnd (fun c hc => ?_) ?_
    · rw [hcs, ← hrows]
      exact (List.filter_sublist.subperm).trans hsub
    · have hmem := List.mem_map_of_mem (f := Candidate.row) hc
      rw [hcs] at hmem
      exact (List.mem_filter.mp hmem).2
    · rcases henough with hk | hall
      · exact .inl hk
      · refine .inr ?_
        rw [← List.length_map (f := Candidate.row), hcs, ← List.countP_eq_length_filter, ← hrows]
        exact (hperm hall).countP_eq q.admitted

/-- Whatever the scores are, a search whose sort returns keeps enough. -/
theorem search_keeps_enough (M : Machine) (rowScore : Metric → List UInt32 → Bytes → UInt32 → UInt32) (p : HnswParams)
    (g : Graph) (q : Query) (hg : g.Sound) (hrows : g.rows = q.rows.map Prod.fst)
    (hnd : (q.rows.map Prod.fst).Nodup) (hq : q.Unlimited) :
    KeepsEnough q (search M rowScore p g q (TopK.new q.topK none)) :=
  Ends.keepsEnough hrows hnd hq (search_ends M rowScore p q hg _)

end HnswIndex

end Search

end IshaVectorDb.Index
