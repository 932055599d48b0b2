import IshaVectorDb.Sdk.NodeFilter

/-!
# `Correctness.FilterCompilers` — **the two JavaScript filter compilers**, compared

One package compiles a query object to steps for a stack machine, the other builds the tree directly. A step sequence
`Replays` as a list of expressions when, on any stack, it pushes just these; so sequences compose as lists do. Whatever
the first compiler accepts replays as one expression or as none. Where the second accepts it too, the two filters match
the same metadata, provided that they see the same properties and none of them is undefined: one skips an undefined
property, the other compares the field against null.
-/

namespace IshaVectorDb.Correctness

open Format Engine Sdk Parsing

/-! ## Replaying -/

theorem replay_append (a b : List Step) (stack : List Filter) :
    replay (a ++ b) stack = replay a stack >>= replay b := by
  unfold replay
  rw [List.foldlM_append]

/-- **On any stack, the steps push these expressions** and nothing else. -/
def Replays (steps : List Step) (fs : List Filter) : Prop := ∀ stack, replay steps stack = .ok (stack ++ fs)

namespace Replays

theorem nil : Replays [] [] := fun stack => by rw [List.append_nil]; rfl

theorem append {a b : List Step} {fs gs : List Filter} (ha : Replays a fs) (hb : Replays b gs) :
    Replays (a ++ b) (fs ++ gs) := by
  intro stack
  rw [replay_append, ha stack, except_ok_bind, hb (stack ++ fs), List.append_assoc]

theorem step {s : Step} {f : Filter} (h : ∀ stack, replayStep stack s = .ok (stack ++ [f])) : Replays [s] [f] := by
  intro stack
  show (replayStep stack s >>= fun stack => replay [] stack) = _
  rw [h stack]
  rfl

/-- The topmost expressions, combined. -/
theorem combine {steps : List Step} {fs : List Filter} {s : Step} {f : Filter} (h : Replays steps fs)
    (hs : ∀ stack, replayStep (stack ++ fs) s = .ok (stack ++ [f])) : Replays (steps ++ [s]) [f] := by
  intro stack
  rw [replay_append, h stack, except_ok_bind]
  show (replayStep (stack ++ fs) s >>= fun stack => replay [] stack) = _
  rw [hs stack]
  rfl

end Replays

/-- What a combinator other than `not` makes of the topmost expressions. -/
theorem combine_top {fs : List Filter} (hne : fs ≠ []) {combinator : Nat} (hc : combinator ≠ 3) (stack : List Filter) :
    VdbFilter.combine (stack ++ fs) combinator fs.length = match combinator with
      | 1 => .ok (stack ++ [.and fs])
      | 2 => .ok (stack ++ [.or fs])
      | _ => .error .invalidArgument := by
  have hpos := List.length_pos_iff.mpr hne
  have hlen : (stack ++ fs).length - fs.length = stack.length := by rw [List.length_append]; omega
  have hguard : ¬ (fs.length = 0 ∨ (stack ++ fs).length < fs.length) := by rw [List.length_append]; omega
  unfold VdbFilter.combine
  rw [if_neg hguard, if_neg (fun h => hc h.1), hlen, List.take_left, List.drop_left]
  split
  · rfl
  · rfl
  · exact absurd rfl hc
  · rename_i h1 h2 _
    split
    · exact absurd rfl h1
    · exact absurd rfl h2
    · rfl

theorem combine_not (f : Filter) (stack : List Filter) :
    replayStep (stack ++ [f]) (.combine Combine.not 1) = .ok (stack ++ [.not f]) := by
  show VdbFilter.combine (stack ++ [f]) Combine.not 1 = _
  unfold VdbFilter.combine
  rw [if_neg (by simp), if_neg (by decide)]
  simp only [List.length_append, List.length_singleton, Nat.add_sub_cancel, List.take_left, List.drop_left]
  rfl

/-- Several expressions conjoined are one, which holds where they all do. -/
theorem conjoin_replays {steps : List Step} {fs : List Filter} (h : Replays steps fs) (hne : fs ≠ []) :
    ∃ f, Replays (steps ++ conjoin fs.length) [f] ∧
      ∀ fields, f.matchesFields fields = Filter.matchesAll fields fs := by
  have hpos := List.length_pos_iff.mpr hne
  unfold conjoin
  by_cases h1 : 1 < fs.length
  · rw [if_pos h1]
    exact ⟨.and fs, h.combine (fun stack => combine_top hne (show Combine.and ≠ 3 by decide) stack), fun fields => rfl⟩
  · rw [if_neg h1, List.append_nil]
    obtain ⟨f, rfl⟩ := List.length_eq_one_iff.mp (show fs.length = 1 by omega)
    exact ⟨f, h, fun fields => by simp [Filter.matchesAll]⟩

/-- Several alternatives likewise. -/
theorem disjoin_replays {steps : List Step} {fs : List Filter} (h : Replays steps fs) (hne : fs ≠ []) :
    ∃ f, Replays (steps ++ (if 1 < fs.length then [.combine Combine.or fs.length] else [])) [f] ∧
      ∀ fields, f.matchesFields fields = Filter.matchesAny fields fs := by
  have hpos := List.length_pos_iff.mpr hne
  by_cases h1 : 1 < fs.length
  · rw [if_pos h1]
    exact ⟨.or fs, h.combine (fun stack => combine_top hne (show Combine.or ≠ 3 by decide) stack), fun fields => rfl⟩
  · rw [if_neg h1, List.append_nil]
    obtain ⟨f, rfl⟩ := List.length_eq_one_iff.mp (show fs.length = 1 by omega)
    exact ⟨f, h, fun fields => by simp [Filter.matchesAny]⟩

theorem matchesAll_append (fields : Fields) (fs gs : List Filter) :
    Filter.matchesAll fields (fs ++ gs) = (Filter.matchesAll fields fs && Filter.matchesAll fields gs) := by
  induction fs with
  | nil => simp [Filter.matchesAll]
  | cons f fs ih => rw [List.cons_append, Filter.matchesAll, Filter.matchesAll, ih, Bool.and_assoc]

theorem conjunction_matches (fields : Fields) (fs : List Filter) :
    (Node.conjunction fs).matchesFields fields = Filter.matchesAll fields fs := by
  match fs with
  | [] => rfl
  | [f] => simp [Node.conjunction, Filter.matchesAll]
  | f :: g :: rest => rfl

/-! ## One operator -/

/-- An absent field equals null, so an existence test is a comparison against null. -/
theorem equals_null (found : Option Value) : Filter.equals found .null = Filter.isNullAt found := by
  cases found with
  | none => rfl
  | some v => cases v <;> rfl

/-- **A comparison pushes one expression**, the one Node makes of the value. -/
theorem pushCompare_spec {field : Str} {op : Nat} {v : JsValue} {steps : List Step} {make : Value → Filter}
    (h : pushCompare field op v = .ok steps)
    (hpush : ∀ stack value, VdbFilter.pushCompare stack field op value = .ok (stack ++ [make value]))
    (heq : op = Op.eq → make = .eq field) (hne : op = Op.ne → make = .ne field) :
    ∃ f, Replays steps [f] ∧ ∀ value, Node.scalar field v = .ok value → ∀ fields,
      f.matchesFields fields = (make value).matchesFields fields := by
  cases v with
  | undefined => cases h
  | array items => cases h
  | object properties => cases h
  | other b => cases h
  | string s =>
    cases h
    refine ⟨make (.str s), .step (fun stack => hpush stack (.str s)), fun value hv fields => ?_⟩
    cases hv
    rfl
  | bool b =>
    cases h
    refine ⟨make (.bool b), .step (fun stack => hpush stack (.bool b)), fun value hv fields => ?_⟩
    cases hv
    rfl
  | number bits =>
    rw [pushCompare] at h
    split at h
    · cases h
      refine ⟨make (if integral bits then .i64 (toI64 bits) else .f64 bits), .step (fun stack => ?_),
        fun value hv fields => ?_⟩
      · by_cases hint : integral bits = true
        · rw [if_pos hint, if_pos hint]
          exact hpush stack (.i64 (toI64 bits))
        · rw [if_neg hint, if_neg hint]
          exact hpush stack (.f64 bits)
      · cases hv
        rfl
    · cases h
  | null =>
    rw [pushCompare] at h
    split at h
    · rename_i hop
      cases h
      refine ⟨.isNull field, .step (fun stack => rfl), fun value hv fields => ?_⟩
      cases hv
      rw [heq hop, Filter.matchesFields, Filter.matchesFields, equals_null]
    · split at h
      · rename_i hop
        cases h
        have hnull : Replays [Step.unary field Unary.isNull] [.isNull field] := .step (fun stack => rfl)
        refine ⟨.not (.isNull field), hnull.combine (fun stack => combine_not _ stack), fun value hv fields => ?_⟩
        cases hv
        rw [hne hop]
        simp only [Filter.matchesFields, equals_null]
      · cases h

/-- **Alternatives push one equality each.** -/
theorem pushEach_spec {field : Str} (values : List JsValue) : ∀ {steps : List Step},
    pushEach field values = .ok steps → ∃ fs, fs.length = values.length ∧ Replays steps fs ∧
      ∀ vs, Node.scalars field values = .ok vs → ∀ fields : Fields,
        Filter.matchesAny fields fs = vs.any (fun v => Filter.equals (fields.resolve field) v) := by
  induction values with
  | nil =>
    intro steps h
    cases h
    refine ⟨[], rfl, .nil, fun vs hvs fields => ?_⟩
    cases hvs
    rfl
  | cons v values ih =>
    intro steps h
    obtain ⟨first, hfirst, h⟩ := except_bind_eq_ok.mp h
    obtain ⟨more, hmore, h⟩ := except_bind_eq_ok.mp h
    cases h
    obtain ⟨f, hf, hmatch⟩ := @pushCompare_spec _ _ _ _ (Filter.eq field) hfirst (fun _ _ => rfl) (fun _ => rfl)
      (fun hop => absurd hop (by decide))
    obtain ⟨fs, hlen, hfs, hmatches⟩ := ih hmore
    refine ⟨f :: fs, by rw [List.length_cons, List.length_cons, hlen], hf.append hfs, fun vs hvs fields => ?_⟩
    obtain ⟨value, hvalue, hvs⟩ := except_bind_eq_ok.mp hvs
    obtain ⟨others, hothers, hvs⟩ := except_bind_eq_ok.mp hvs
    cases hvs
    rw [Filter.matchesAny, hmatch value hvalue fields, hmatches others hothers fields, List.any_cons,
      Filter.matchesFields]

/-- **A set of alternatives pushes one expression**: a field that equals one of them, or none. -/
theorem pushAlternatives_spec {field op : Str} {negated : Bool} {raw : JsValue} {steps : List Step}
    (h : pushAlternatives field op negated raw = .ok steps) :
    ∃ f, Replays steps [f] ∧ ∀ vs, Node.scalarList field raw = .ok vs → ∀ fields : Fields,
      f.matchesFields fields = (negated ^^ vs.any (fun v => Filter.equals (fields.resolve field) v)) := by
  cases raw with
  | array values =>
    rw [pushAlternatives] at h
    split at h
    · cases h
    · rename_i hne
      obtain ⟨pushed, hpushed, h⟩ := except_bind_eq_ok.mp h
      obtain ⟨fs, hlen, hfs, hmatches⟩ := pushEach_spec values hpushed
      have hnil : fs ≠ [] := by
        rintro rfl
        exact hne (List.isEmpty_iff_length_eq_zero.mpr hlen.symm)
      obtain ⟨f, hf, hmatch⟩ := disjoin_replays hfs hnil
      rw [hlen] at hf
      cases negated with
      | false =>
        cases h
        refine ⟨f, ?_, fun vs hvs fields => ?_⟩
        · rw [if_neg (show ¬ (false = true) by decide), List.append_nil]
          exact hf
        · rw [hmatch, hmatches vs hvs, Bool.false_xor]
      | true =>
        cases h
        refine ⟨.not f, hf.combine (fun stack => combine_not f stack), fun vs hvs fields => ?_⟩
        rw [Filter.matchesFields, hmatch, hmatches vs hvs, Bool.true_xor]
  | _ => cases h

/-- **One operator pushes one expression**, and Node's answers alike. -/
theorem walkOperator_spec {field op : Str} {raw : JsValue} {steps : List Step}
    (h : walkOperator field op raw = .ok steps) : ∃ f, Replays steps [f] ∧
      ∀ g, Node.parseOperator field op raw = .ok g → ∀ fields, f.matchesFields fields = g.matchesFields fields := by
  -- what a comparison comes to, whichever it is
  have hcompare : ∀ {code : Nat} {make : Value → Filter} {node : Except Node.ParseFault Filter},
      pushCompare field code raw = .ok steps →
      (∀ stack value, VdbFilter.pushCompare stack field code value = .ok (stack ++ [make value])) →
      (code = Op.eq → make = .eq field) → (code = Op.ne → make = .ne field) →
      (node = do return make (← Node.scalar field raw)) →
      ∃ f, Replays steps [f] ∧ ∀ g, node = .ok g → ∀ fields, f.matchesFields fields = g.matchesFields fields := by
    intro code make node hpushed hpush heq hne hnode
    obtain ⟨f, hf, hmatch⟩ := pushCompare_spec hpushed hpush heq hne
    refine ⟨f, hf, fun g hg fields => ?_⟩
    rw [hnode] at hg
    obtain ⟨value, hvalue, hg⟩ := except_bind_eq_ok.mp hg
    cases hg
    exact hmatch value hvalue fields
  unfold walkOperator at h
  unfold Node.parseOperator
  by_cases h1 : op.bytes = ascii "$eq"
  · rw [if_pos h1] at h ⊢
    exact hcompare h (fun _ _ => rfl) (fun _ => rfl) (fun hop => absurd hop (by decide)) rfl
  rw [if_neg h1] at h ⊢
  by_cases h2 : op.bytes = ascii "$ne"
  · rw [if_pos h2] at h ⊢
    exact hcompare h (fun _ _ => rfl) (fun hop => absurd hop (by decide)) (fun _ => rfl) rfl
  rw [if_neg h2] at h ⊢
  by_cases h3 : op.bytes = ascii "$gt"
  · rw [if_pos h3] at h ⊢
    exact hcompare h (fun _ _ => rfl) (fun hop => absurd hop (by decide)) (fun hop => absurd hop (by decide)) rfl
  rw [if_neg h3] at h ⊢
  by_cases h4 : op.bytes = ascii "$gte"
  · rw [if_pos h4] at h ⊢
    exact hcompare h (fun _ _ => rfl) (fun hop => absurd hop (by decide)) (fun hop => absurd hop (by decide)) rfl
  rw [if_neg h4] at h ⊢
  by_cases h5 : op.bytes = ascii "$lt"
  · rw [if_pos h5] at h ⊢
    exact hcompare h (fun _ _ => rfl) (fun hop => absurd hop (by decide)) (fun hop => absurd hop (by decide)) rfl
  rw [if_neg h5] at h ⊢
  by_cases h6 : op.bytes = ascii "$lte"
  · rw [if_pos h6] at h ⊢
    exact hcompare h (fun _ _ => rfl) (fun hop => absurd hop (by decide)) (fun hop => absurd hop (by decide)) rfl
  rw [if_neg h6] at h ⊢
  by_cases h7 : op.bytes = ascii "$contains"
  · rw [if_pos h7] at h ⊢
    exact hcompare h (fun _ _ => rfl) (fun hop => absurd hop (by decide)) (fun hop => absurd hop (by decide)) rfl
  rw [if_neg h7] at h ⊢
  by_cases h8 : op.bytes = ascii "$startsWith"
  · rw [if_pos h8] at h ⊢
    cases raw with
    | string s =>
      cases h
      refine ⟨.startsWith field s, .step (fun stack => rfl), fun g hg fields => ?_⟩
      cases hg
      rfl
    | _ => cases h
  rw [if_neg h8] at h ⊢
  by_cases h9 : op.bytes = ascii "$in"
  · rw [if_pos h9] at h ⊢
    obtain ⟨f, hf, hmatch⟩ := pushAlternatives_spec h
    refine ⟨f, hf, fun g hg fields => ?_⟩
    obtain ⟨vs, hvs, hg⟩ := except_bind_eq_ok.mp hg
    cases hg
    rw [hmatch vs hvs fields, Filter.matchesFields, Bool.false_xor]
  rw [if_neg h9] at h ⊢
  by_cases h10 : op.bytes = ascii "$nin"
  · rw [if_pos h10] at h ⊢
    obtain ⟨f, hf, hmatch⟩ := pushAlternatives_spec h
    refine ⟨f, hf, fun g hg fields => ?_⟩
    obtain ⟨vs, hvs, hg⟩ := except_bind_eq_ok.mp hg
    cases hg
    rw [hmatch vs hvs fields, Filter.matchesFields, Bool.true_xor]
  rw [if_neg h10] at h ⊢
  by_cases h11 : op.bytes = ascii "$exists"
  · rw [if_pos h11] at h ⊢
    cases h
    refine ⟨if raw.truthy then .exists_ field else .isNull field, .step (fun stack => ?_), fun g hg fields => ?_⟩
    · cases raw.truthy <;> rfl
    · cases hg
      rfl
  · rw [if_neg h11] at h
    cases h

/-! ## One field -/

/-- **An object that both packages see alike**: `napi` lists its own properties, and only these, and finds each value by its
    name; and none of them is undefined. -/
structure Alike (napi : Node.Napi) (properties : List (Str × JsValue)) : Prop where
  names : napi.names properties = properties.map Prod.fst
  named : ∀ p ∈ properties, napi.named properties p.1 = p.2
  defined : ∀ p ∈ properties, p.2.isUndefined = false

/-- What `napi` finds by the names that it lists. -/
theorem Alike.mapM {napi : Node.Napi} {properties : List (Str × JsValue)} (h : Alike napi properties)
    (f : Str → JsValue → Except Node.ParseFault Filter) :
    (napi.names properties).mapM (fun key => f key (napi.named properties key)) = properties.mapM (fun p => f p.1 p.2) := by
  have hsub : ∀ ps : List (Str × JsValue), (∀ p ∈ ps, napi.named properties p.1 = p.2) →
      (ps.map Prod.fst).mapM (fun key => f key (napi.named properties key)) = ps.mapM (fun p => f p.1 p.2) := by
    intro ps
    induction ps with
    | nil => intro _; rfl
    | cons p ps ih =>
      intro hnamed
      obtain ⟨hp, hps⟩ := List.forall_mem_cons.mp hnamed
      rw [List.map_cons, List.mapM_cons, List.mapM_cons, ih hps, hp]
  rw [h.names]
  exact hsub properties h.named

theorem walkEach_spec {field : Str} (operators : List (Str × JsValue)) : ∀ {steps : List Step} {n : Nat},
    walkEach field operators = .ok (steps, n) → ∃ fs, fs.length = n ∧ Replays steps fs ∧
      ∀ gs, operators.mapM (fun p => Node.parseOperator field p.1 p.2) = .ok gs →
        (∀ p ∈ operators, p.2.isUndefined = false) → ∀ fields,
        Filter.matchesAll fields fs = Filter.matchesAll fields gs := by
  induction operators with
  | nil =>
    intro steps n h
    cases h
    refine ⟨[], rfl, .nil, fun gs hgs _ fields => ?_⟩
    cases hgs
    rfl
  | cons p operators ih =>
    intro steps n h
    rw [walkEach] at h
    by_cases hundef : p.2.isUndefined = true
    · rw [if_pos hundef] at h
      obtain ⟨fs, hlen, hfs, -⟩ := ih h
      refine ⟨fs, hlen, hfs, fun gs _ hdefined => ?_⟩
      have := hdefined p List.mem_cons_self
      rw [hundef] at this
      cases this
    · rw [if_neg hundef] at h
      obtain ⟨first, hfirst, h⟩ := except_bind_eq_ok.mp h
      obtain ⟨⟨more, m⟩, hmore, h⟩ := except_bind_eq_ok.mp h
      cases h
      obtain ⟨f, hf, hmatch⟩ := walkOperator_spec hfirst
      obtain ⟨fs, hlen, hfs, hmatches⟩ := ih hmore
      refine ⟨f :: fs, by rw [List.length_cons, hlen], hf.append hfs, fun gs hgs hdefined fields => ?_⟩
      rw [List.mapM_cons] at hgs
      obtain ⟨g, hg, hgs⟩ := except_bind_eq_ok.mp hgs
      obtain ⟨others, hothers, hgs⟩ := except_bind_eq_ok.mp hgs
      cases hgs
      rw [Filter.matchesAll, Filter.matchesAll, hmatch g hg fields,
        hmatches others hothers (fun q hq => hdefined q (List.mem_cons_of_mem _ hq)) fields]

/-- A field's value that both packages see alike: an object of operators is. -/
def FieldAlike (napi : Node.Napi) : JsValue → Prop
  | .object operators => Alike napi operators
  | _ => True

/-- **One field pushes one expression.** -/
theorem walkField_spec (napi : Node.Napi) {field : Str} {depth : Nat} {v : JsValue} {steps : List Step}
    (h : walkField field depth v = .ok steps) : ∃ f, Replays steps [f] ∧
      ∀ g, Node.parseField napi field v = .ok g → FieldAlike napi v → ∀ fields,
        f.matchesFields fields = g.matchesFields fields := by
  -- a bare value is an equality
  have hbare : pushCompare field Op.eq v = .ok steps →
      Node.parseField napi field v = (do return .eq field (← Node.scalar field v)) →
      ∃ f, Replays steps [f] ∧ ∀ g, Node.parseField napi field v = .ok g → FieldAlike napi v → ∀ fields,
        f.matchesFields fields = g.matchesFields fields := by
    intro hpushed hnode
    obtain ⟨f, hf, hmatch⟩ := @pushCompare_spec _ _ _ _ (Filter.eq field) hpushed (fun _ _ => rfl) (fun _ => rfl)
      (fun hop => absurd hop (by decide))
    refine ⟨f, hf, fun g hg _ fields => ?_⟩
    rw [hnode] at hg
    obtain ⟨value, hvalue, hg⟩ := except_bind_eq_ok.mp hg
    cases hg
    exact hmatch value hvalue fields
  cases v with
  | array items => cases h
  | object operators =>
    rw [walkField, walkOperators] at h
    split at h
    · cases h
    · obtain ⟨⟨pushed, n⟩, hpushed, h⟩ := except_bind_eq_ok.mp h
      obtain ⟨fs, hlen, hfs, hmatches⟩ := walkEach_spec operators hpushed
      simp only at h
      split at h
      · cases h
      · rename_i hn
        cases h
        have hne : fs ≠ [] := by
          rintro rfl
          exact hn hlen.symm
        obtain ⟨f, hf, hmatch⟩ := conjoin_replays hfs hne
        rw [hlen] at hf
        refine ⟨f, hf, fun g hg halike fields => ?_⟩
        have halike : Alike napi operators := halike
        obtain ⟨gs, hgs, hg⟩ := except_bind_eq_ok.mp hg
        cases hg
        rw [Node.parseOperators, halike.mapM] at hgs
        rw [hmatch, conjunction_matches, hmatches gs hgs halike.defined]
  | undefined => exact hbare h rfl
  | null => exact hbare h rfl
  | bool b => exact hbare h rfl
  | number bits => exact hbare h rfl
  | string s => exact hbare h rfl
  | other b => exact hbare h rfl

/-! ## Filter objects -/

section

variable (napi : Node.Napi)

mutual

/-- **A filter that both packages see alike**: every object that a walk over it looks at, a filter object or an object of
    operators. -/
def SeenAlike : JsValue → Prop
  | .object properties => Alike napi properties ∧ AllAlike properties
  | _ => True
termination_by structural v => v

def AllAlike : List (Str × JsValue) → Prop
  | [] => True
  | p :: rest => ClauseAlike p ∧ AllAlike rest
termination_by structural l => l

def ClauseAlike : Str × JsValue → Prop
  | (key, value) =>
      if key.bytes = ascii "$and" ∨ key.bytes = ascii "$or" then ListAlike value
      else if key.bytes = ascii "$not" then SeenAlike value
      else FieldAlike napi value
termination_by structural p => p

def ListAlike : JsValue → Prop
  | .array items => ItemsAlike items
  | _ => True
termination_by structural v => v

def ItemsAlike : List JsValue → Prop
  | [] => True
  | v :: rest => SeenAlike v ∧ ItemsAlike rest
termination_by structural l => l

end

mutual

/-- **A filter object pushes its clauses**, and Node's conjunction of its own says the same of every document. -/
theorem walkObject_spec : ∀ (v : JsValue) {key : Str} {depth : Nat} {steps : List Step} {n : Nat},
    walkObject key depth v = .ok (steps, n) → ∃ fs, fs.length = n ∧ Replays steps fs ∧
      ∀ levels g, Node.parseObject napi levels depth v = .ok g → SeenAlike napi v → ∀ fields,
        Filter.matchesAll fields fs = g.matchesFields fields
  | .object properties, key, depth, steps, n, h => by
    rw [walkObject] at h
    split at h
    · cases h
    · rename_i hdepth
      obtain ⟨fs, hlen, hfs, hmatches⟩ := walkClauses_spec properties h
      refine ⟨fs, hlen, hfs, fun levels g hg halike fields => ?_⟩
      rw [SeenAlike] at halike
      cases levels with
      | zero => cases hg
      | succ levels =>
        rw [Node.parseObject, if_neg hdepth] at hg
        obtain ⟨gs, hgs, hg⟩ := except_bind_eq_ok.mp hg
        cases hg
        rw [halike.1.mapM (Node.parseClause napi (Node.parseObject napi levels (depth + 1)))] at hgs
        rw [conjunction_matches, hmatches levels gs hgs halike.1.defined halike.2]
  | .undefined, _, _, _, _, h => nomatch h
  | .null, _, _, _, _, h => nomatch h
  | .bool _, _, _, _, _, h => nomatch h
  | .number _, _, _, _, _, h => nomatch h
  | .string _, _, _, _, _, h => nomatch h
  | .array _, _, _, _, _, h => nomatch h
  | .other _, _, _, _, _, h => nomatch h
termination_by structural v => v

theorem walkClauses_spec : ∀ (properties : List (Str × JsValue)) {depth : Nat} {steps : List Step} {n : Nat},
    walkClauses depth properties = .ok (steps, n) → ∃ fs, fs.length = n ∧ Replays steps fs ∧
      ∀ levels gs, properties.mapM (fun p => Node.parseClause napi (Node.parseObject napi levels (depth + 1)) p.1 p.2) = .ok gs →
        (∀ p ∈ properties, p.2.isUndefined = false) → AllAlike napi properties → ∀ fields,
        Filter.matchesAll fields fs = Filter.matchesAll fields gs
  | [], depth, steps, n, h => by
    rw [walkClauses] at h
    cases h
    refine ⟨[], rfl, .nil, fun levels gs hgs _ _ fields => ?_⟩
    cases hgs
    rfl
  | p :: properties, depth, steps, n, h => by
    rw [walkClauses] at h
    obtain ⟨⟨first, m⟩, hfirst, h⟩ := except_bind_eq_ok.mp h
    obtain ⟨⟨more, m'⟩, hmore, h⟩ := except_bind_eq_ok.mp h
    cases h
    obtain ⟨fs, hlen, hfs, hmatch⟩ := walkClause_spec p hfirst
    obtain ⟨fs', hlen', hfs', hmatches⟩ := walkClauses_spec properties hmore
    refine ⟨fs ++ fs', by rw [List.length_append, hlen, hlen'], hfs.append hfs', fun levels gs hgs hdefined halike fields => ?_⟩
    rw [List.mapM_cons] at hgs
    obtain ⟨g, hg, hgs⟩ := except_bind_eq_ok.mp hgs
    obtain ⟨others, hothers, hgs⟩ := except_bind_eq_ok.mp hgs
    cases hgs
    obtain ⟨hp, hrest⟩ : ClauseAlike napi p ∧ AllAlike napi properties := by simpa only [AllAlike] using halike
    obtain ⟨hdef, hdefs⟩ := List.forall_mem_cons.mp hdefined
    rw [matchesAll_append, hmatch levels g hg hdef hp, hmatches levels others hothers hdefs hrest, Filter.matchesAll]
termination_by structural l => l

theorem walkClause_spec : ∀ (p : Str × JsValue) {depth : Nat} {steps : List Step} {n : Nat},
    walkClause depth p = .ok (steps, n) → ∃ fs, fs.length = n ∧ Replays steps fs ∧
      ∀ levels g, Node.parseClause napi (Node.parseObject napi levels (depth + 1)) p.1 p.2 = .ok g →
        p.2.isUndefined = false → ClauseAlike napi p → ∀ fields, Filter.matchesAll fields fs = g.matchesFields fields
  | (key, value), depth, steps, n, h => by
    rw [walkClause] at h
    by_cases hundef : value.isUndefined = true
    · rw [if_pos hundef] at h
      cases h
      refine ⟨[], rfl, .nil, fun levels g _ hdefined => ?_⟩
      have hdefined : value.isUndefined = false := hdefined
      rw [hundef] at hdefined
      cases hdefined
    rw [if_neg hundef] at h
    by_cases hlist : key.bytes = ascii "$and" ∨ key.bytes = ascii "$or"
    · rw [if_pos hlist] at h
      obtain ⟨f, rfl, hf, hmatch⟩ := walkFilters_spec value h
      refine ⟨[f], rfl, hf, fun levels g hg _ halike fields => ?_⟩
      rw [ClauseAlike, if_pos hlist] at halike
      rw [Filter.matchesAll, Filter.matchesAll, Bool.and_true]
      unfold Node.parseClause at hg
      by_cases hand : key.bytes = ascii "$and"
      · rw [if_pos hand] at hg
        obtain ⟨gs, hgs, hg⟩ := except_bind_eq_ok.mp hg
        cases hg
        rw [hmatch levels gs hgs halike fields, if_pos hand, Filter.matchesFields]
      · rw [if_neg hand, if_pos (hlist.resolve_left hand)] at hg
        obtain ⟨gs, hgs, hg⟩ := except_bind_eq_ok.mp hg
        cases hg
        rw [hmatch levels gs hgs halike fields, if_neg hand, Filter.matchesFields]
    rw [if_neg hlist] at h
    obtain ⟨hand, hor⟩ := not_or.mp hlist
    by_cases hnot : key.bytes = ascii "$not"
    · rw [if_pos hnot] at h
      obtain ⟨⟨pushed, m⟩, hpushed, h⟩ := except_bind_eq_ok.mp h
      simp only at h
      split at h
      · cases h
      · rename_i hm
        cases h
        obtain ⟨fs, hlen, hfs, hmatch⟩ := walkObject_spec value hpushed
        have hne : fs ≠ [] := by
          rintro rfl
          exact hm hlen.symm
        obtain ⟨f, hf, hone⟩ := conjoin_replays hfs hne
        rw [hlen] at hf
        refine ⟨[.not f], rfl, hf.combine (fun stack => combine_not f stack), fun levels g hg _ halike fields => ?_⟩
        unfold Node.parseClause at hg
        rw [if_neg hand, if_neg hor, if_pos hnot] at hg
        rw [ClauseAlike, if_neg hlist, if_pos hnot] at halike
        split at hg
        · obtain ⟨inner, hinner, hg⟩ := except_bind_eq_ok.mp hg
          cases hg
          rw [Filter.matchesAll, Filter.matchesAll, Bool.and_true, Filter.matchesFields, Filter.matchesFields, hone,
            hmatch levels inner hinner halike]
        · cases hg
    rw [if_neg hnot] at h
    by_cases hdollar : (ascii "$").isPrefixOf key.bytes = true
    · rw [if_pos hdollar] at h
      cases h
    rw [if_neg hdollar] at h
    obtain ⟨pushed, hpushed, h⟩ := except_bind_eq_ok.mp h
    cases h
    obtain ⟨f, hf, hmatch⟩ := walkField_spec napi hpushed
    refine ⟨[f], rfl, hf, fun levels g hg _ halike fields => ?_⟩
    unfold Node.parseClause at hg
    rw [if_neg hand, if_neg hor, if_neg hnot, if_neg hdollar] at hg
    rw [ClauseAlike, if_neg hlist, if_neg hnot] at halike
    rw [Filter.matchesAll, Filter.matchesAll, Bool.and_true, hmatch g hg halike]
termination_by structural p => p

/-- **A list of filters pushes one expression**, the conjunction or the disjunction of them. -/
theorem walkFilters_spec : ∀ (v : JsValue) {key : Str} {depth : Nat} {steps : List Step} {n : Nat},
    walkFilters key depth v = .ok (steps, n) → ∃ f, n = 1 ∧ Replays steps [f] ∧
      ∀ levels gs, Node.parseList (Node.parseObject napi levels (depth + 1)) v = .ok gs → ListAlike napi v → ∀ fields,
        f.matchesFields fields =
          if key.bytes = ascii "$and" then Filter.matchesAll fields gs else Filter.matchesAny fields gs
  | .array items, key, depth, steps, n, h => by
    rw [walkFilters] at h
    split at h
    · cases h
    · rename_i hempty
      obtain ⟨pushed, hpushed, h⟩ := except_bind_eq_ok.mp h
      cases h
      obtain ⟨fs, hlen, hfs, hmatches⟩ := walkList_spec items hpushed
      have hne : fs ≠ [] := by
        rintro rfl
        exact hempty (List.isEmpty_iff_length_eq_zero.mpr hlen.symm)
      by_cases hand : key.bytes = ascii "$and"
      · obtain ⟨f, hf, hone⟩ := conjoin_replays hfs hne
        rw [conjoin, hlen] at hf
        refine ⟨f, rfl, by rw [if_pos hand]; exact hf, fun levels gs hgs halike fields => ?_⟩
        rw [Node.parseList] at hgs
        rw [if_pos hand, hone, (hmatches levels gs hgs (by simpa only [ListAlike] using halike) fields).1]
      · obtain ⟨f, hf, hone⟩ := disjoin_replays hfs hne
        rw [hlen] at hf
        refine ⟨f, rfl, by rw [if_neg hand]; exact hf, fun levels gs hgs halike fields => ?_⟩
        rw [Node.parseList] at hgs
        rw [if_neg hand, hone, (hmatches levels gs hgs (by simpa only [ListAlike] using halike) fields).2]
  | .undefined, _, _, _, _, h => nomatch h
  | .null, _, _, _, _, h => nomatch h
  | .bool _, _, _, _, _, h => nomatch h
  | .number _, _, _, _, _, h => nomatch h
  | .string _, _, _, _, _, h => nomatch h
  | .object _, _, _, _, _, h => nomatch h
  | .other _, _, _, _, _, h => nomatch h
termination_by structural v => v

theorem walkList_spec : ∀ (items : List JsValue) {key : Str} {depth : Nat} {steps : List Step},
    walkList key depth items = .ok steps → ∃ fs, fs.length = items.length ∧ Replays steps fs ∧
      ∀ levels gs, items.mapM (Node.parseObject napi levels (depth + 1)) = .ok gs → ItemsAlike napi items → ∀ fields,
        Filter.matchesAll fields fs = Filter.matchesAll fields gs ∧
          Filter.matchesAny fields fs = Filter.matchesAny fields gs
  | [], key, depth, steps, h => by
    rw [walkList] at h
    cases h
    refine ⟨[], rfl, .nil, fun levels gs hgs _ fields => ?_⟩
    cases hgs
    exact ⟨rfl, rfl⟩
  | v :: items, key, depth, steps, h => by
    rw [walkList] at h
    obtain ⟨⟨first, n⟩, hfirst, h⟩ := except_bind_eq_ok.mp h
    simp only at h
    split at h
    · cases h
    · rename_i hn
      obtain ⟨more, hmore, h⟩ := except_bind_eq_ok.mp h
      cases h
      obtain ⟨fs, hlen, hfs, hmatch⟩ := walkObject_spec v hfirst
      obtain ⟨fs', hlen', hfs', hmatches⟩ := walkList_spec items hmore
      have hne : fs ≠ [] := by
        rintro rfl
        exact hn hlen.symm
      obtain ⟨f, hf, hone⟩ := conjoin_replays hfs hne
      rw [hlen] at hf
      refine ⟨f :: fs', by rw [List.length_cons, List.length_cons, hlen'], hf.append hfs',
        fun levels gs hgs halike fields => ?_⟩
      rw [List.mapM_cons] at hgs
      obtain ⟨g, hg, hgs⟩ := except_bind_eq_ok.mp hgs
      obtain ⟨others, hothers, hgs⟩ := except_bind_eq_ok.mp hgs
      cases hgs
      obtain ⟨hv, hrest⟩ : SeenAlike napi v ∧ ItemsAlike napi items := by simpa only [ItemsAlike] using halike
      obtain ⟨hall, hany⟩ := hmatches levels others hothers hrest fields
      simp only [Filter.matchesAll, Filter.matchesAny, hone, hmatch levels g hg hv, hall, hany, and_self]
termination_by structural l => l

end

end

/-! ## The whole filter -/

/-- What a replayed sequence asks of a document; no filter asks nothing. -/
def builtMatches (built : Option Filter) (fields : Fields) : Bool := built.elim true (fun f => f.matchesFields fields)

/-- A sequence that pushes one expression is what the bridge makes a filter of. -/
theorem buildFilter_one {steps : List Step} {f : Filter} (h : Replays steps [f]) : buildFilter steps = .ok (some f) := by
  have hreplay : replay steps [] = .ok [f] := h []
  have hne : steps ≠ [] := by
    rintro rfl
    cases hreplay
  rw [buildFilter, if_neg (by simp [hne]), hreplay]
  rfl

/-- **The two compilers, compared.** Whatever filter object the first one accepts, its steps replay without a fault to
    exactly one expression, or there are none; and where the second one accepts the object too and both see it alike, the
    filters are satisfied by the same metadata, from whatever source it is read. -/
theorem compilers_agree {properties : List (Str × JsValue)} {steps : List Step}
    (h : compileFilter (.object properties) = .ok steps) :
    (steps = [] ∨ ∃ f, replay steps [] = .ok [f]) ∧ ∃ built, buildFilter steps = .ok built ∧
      ∀ napi g, Node.parse napi (.object properties) = .ok g → SeenAlike napi (.object properties) → ∀ fields,
        builtMatches built fields = g.matchesFields fields := by
  obtain ⟨⟨pushed, n⟩, hpushed, h⟩ := except_bind_eq_ok.mp h
  simp only at h
  split at h
  · -- no clauses, no filter
    rename_i hn
    cases h
    refine ⟨.inl rfl, none, rfl, fun napi g hg halike fields => ?_⟩
    obtain ⟨fs, hlen, -, hmatch⟩ := walkObject_spec napi (.object properties) hpushed
    obtain rfl : fs = [] := List.eq_nil_of_length_eq_zero (hlen.trans hn)
    exact hmatch _ g hg halike fields
  · rename_i hn
    cases h
    have hone : ∀ napi, ∃ f, Replays (pushed ++ conjoin n) [f] ∧ ∀ g, Node.parse napi (.object properties) = .ok g →
        SeenAlike napi (.object properties) → ∀ fields, f.matchesFields fields = g.matchesFields fields := by
      intro napi
      obtain ⟨fs, hlen, hfs, hmatch⟩ := walkObject_spec napi (.object properties) hpushed
      have hne : fs ≠ [] := by
        rintro rfl
        exact hn hlen.symm
      obtain ⟨f, hf, hall⟩ := conjoin_replays hfs hne
      rw [hlen] at hf
      exact ⟨f, hf, fun g hg halike fields => (hall fields).trans (hmatch _ g hg halike fields)⟩
    obtain ⟨f, hf, -⟩ := hone ⟨fun _ => [], fun _ _ => .undefined, fun _ _ => .error .foreign⟩
    refine ⟨.inr ⟨f, hf []⟩, some f, buildFilter_one hf, fun napi g hg halike fields => ?_⟩
    -- the expression does not depend on what `napi` does
    obtain ⟨f', hf', hmatch⟩ := hone napi
    have hsame : [f] = [f'] := Except.ok.inj ((hf []).symm.trans (hf' []))
    obtain rfl : f = f' := List.singleton_inj.mp hsame
    exact hmatch g hg halike fields

/-- The field `a`. -/
def fieldA : Str := ⟨[0x61], utf8_a⟩

/-- What `napi` shows of an object that inherits nothing: its own properties, each by its name. -/
def ownProperties : Node.Napi :=
  ⟨fun properties => properties.map Prod.fst,
    fun properties name => (properties.find? (fun p => p.1 = name)).elim .undefined Prod.snd, fun _ _ => .error .foreign⟩

/-- Every object whose names are apart, and none of whose properties is undefined, is then seen alike. -/
theorem ownProperties_alike {properties : List (Str × JsValue)} (hnd : (properties.map Prod.fst).Nodup)
    (hdefined : ∀ p ∈ properties, p.2.isUndefined = false) : Alike ownProperties properties := by
  refine ⟨rfl, fun p hp => ?_, hdefined⟩
  show (properties.find? (fun q => q.1 = p.1)).elim JsValue.undefined Prod.snd = p.2
  induction properties with
  | nil => cases hp
  | cons q properties ih =>
    obtain ⟨hq, hrest⟩ := List.nodup_cons.mp hnd
    by_cases hqp : q.1 = p.1
    · rw [List.find?_cons_of_pos (by simpa using hqp)]
      rcases List.mem_cons.mp hp with rfl | hp
      · rfl
      · exact absurd (hqp ▸ List.mem_map_of_mem hp) hq
    · rw [List.find?_cons_of_neg (by simpa using hqp)]
      rcases List.mem_cons.mp hp with rfl | hp
      · exact absurd rfl hqp
      · exact ih hrest (fun r hr => hdefined r (List.mem_cons_of_mem _ hr)) hp

/-- The filter `{ a: true, $not: { a: { $ne: true } } }`. -/
def trueA : List (Str × JsValue) :=
  [(fieldA, .bool true), (⟨ascii "$not", by decide +kernel⟩, .object [(fieldA, .object [(⟨ascii "$ne", by decide +kernel⟩, .bool true)])])]

theorem compilers_agree_trueA : ∃ steps g built, compileFilter (.object trueA) = .ok steps ∧
    Node.parse ownProperties (.object trueA) = .ok g ∧ buildFilter steps = .ok built ∧
    ∀ fields, builtMatches built fields = g.matchesFields fields := by
  obtain ⟨-, built, hbuilt, hmatch⟩ := compilers_agree (show compileFilter (.object trueA) = .ok _ from rfl)
  refine ⟨_, _, built, rfl, rfl, hbuilt, hmatch ownProperties _ rfl ?_⟩
  have halike : ∀ ps : List (Str × JsValue), (ps.map Prod.fst).Nodup ∧ (ps.all (fun p => !p.2.isUndefined) = true) →
      Alike ownProperties ps := fun ps ⟨hnd, hall⟩ =>
    ownProperties_alike hnd (fun p hp => by simpa using List.all_eq_true.mp hall p hp)
  exact ⟨halike _ ⟨by decide +kernel, rfl⟩, trivial, ⟨halike _ ⟨by decide +kernel, rfl⟩, halike _ ⟨by decide +kernel, rfl⟩, trivial⟩, trivial⟩

/-- The metadata `{ a: 1 }`. -/
def oneA : Metadata := ⟨[(fieldA, .i64 1)], List.pairwise_singleton _ _, trivial, trivial⟩

/-- **An undefined property is skipped by one compiler and compared by the other**: `{ a: undefined }` is no filter for
    the first, and asks the second for documents without a value at `a`. -/
theorem undefined_property_differs : compileFilter (.object [(fieldA, .undefined)]) = .ok [] ∧
    buildFilter [] = .ok none ∧
    Node.parse ownProperties (.object [(fieldA, .undefined)]) = .ok (.eq fieldA .null) ∧
    builtMatches none (.decoded oneA) = true ∧ (Filter.eq fieldA .null).matchesFields (.decoded oneA) = false :=
  ⟨rfl, rfl, rfl, rfl, rfl⟩

end IshaVectorDb.Correctness
