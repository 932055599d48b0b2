import IshaVectorDb.Interaction.Triple

/-!
# `Interaction.Faults` — one run, and **what befalls it**

`Fault` names at most one accident in a run: a call that fails, or the end of the process inside a call. Under a
fault a run is a function of its input again (`Prog.runWith`), so that a history is a list of programs with their
faults. A triple says what each of these runs leaves (`Triple.runWith`).
-/

namespace Interaction

variable {C : Type} {R : C → Type} {ε σ S α : Type}

/-- What befalls a run: nothing; call number `call` returns the error `e` after `work` units of its work; or the
    process dies in that call, after as many. -/
inductive Fault (ε : Type) : Type
  | none : Fault ε
  | fail (call : Nat) (e : ε) (work : Nat) : Fault ε
  | die (call work : Nat) : Fault ε

/-- Whether the process outlives the fault. -/
def Fault.Survived : Fault ε → Prop
  | .die _ _ => False
  | _ => True

/-- The run under a fault, with no result when the process died. A fault past the last call is none. -/
def Prog.runWith (D : Device C R ε σ) (p : Prog C R ε α) (s : σ) : Fault ε → Option α × σ
  | .none => (some (p.run D s).1, (p.run D s).2)
  | .fail i e n => match p.failAt D s i e n with
      | some (_, a, s') => (some a, s')
      | none => (some (p.run D s).1, (p.run D s).2)
  | .die i n => match p.dieAt D s i n with
      | some (_, s') => (none, s')
      | none => (some (p.run D s).1, (p.run D s).2)

namespace Prog

variable {D : Device C R ε σ} {s : σ}

@[simp] theorem runWith_pure (a : α) (fault : Fault ε) :
    (Prog.pure a : Prog C R ε α).runWith D s fault = (some a, s) := by cases fault <;> rfl

@[simp] theorem runWith_none (p : Prog C R ε α) : p.runWith D s .none = (some (p.run D s).1, (p.run D s).2) := rfl

theorem runWith_call_none (c : C) (k : Except ε (R c) → Prog C R ε α) :
    (Prog.call c k).runWith D s .none = (k (D.step c s).1).runWith D (D.step c s).2 .none := rfl

/-- The first call fails. -/
theorem runWith_call_fail (c : C) (k : Except ε (R c) → Prog C R ε α) (e : ε) (n : Nat) :
    (Prog.call c k).runWith D s (.fail 0 e n) = (k (.error e)).runWith D (D.fail c n s) .none := rfl

/-- The first call behaves, and a later one fails. -/
theorem runWith_call_later (c : C) (k : Except ε (R c) → Prog C R ε α) (i : Nat) (e : ε) (n : Nat) :
    (Prog.call c k).runWith D s (.fail (i + 1) e n) = (k (D.step c s).1).runWith D (D.step c s).2 (.fail i e n) := rfl

/-- The process dies in a later call. -/
theorem runWith_call_survives (c : C) (k : Except ε (R c) → Prog C R ε α) (i n : Nat) :
    (Prog.call c k).runWith D s (.die (i + 1) n) = (k (D.step c s).1).runWith D (D.step c s).2 (.die i n) := rfl

/-- A result computed from another under the same fault. -/
theorem runWith_map {β : Type} (p : Prog C R ε α) (g : α → β) (fault : Fault ε) :
    (p.bind (fun a => .pure (g a))).runWith D s fault =
      ((p.runWith D s fault).1.map g, (p.runWith D s fault).2) := by
  induction p generalizing s fault with
  | pure a =>
    show (Prog.pure (g a)).runWith D s fault = _
    rw [runWith_pure, runWith_pure]
    rfl
  | call c k ih =>
    cases fault with
    | none => exact ih _ .none
    | fail i e n =>
      cases i with
      | zero => exact ih _ .none
      | succ i => exact ih _ (.fail i e n)
    | die i n =>
      cases i with
      | zero => rfl
      | succ i => exact ih _ (.die i n)

end Prog

/-- **One call at a time**: under any fault, the call fails and the process stops, or the process dies in it, or
    the process goes on behind it under what is left of the fault. -/
theorem Proc.runWith_step {β : Type} {D : Device C R ε σ} {c : C} {f : R c → Proc C R ε S β} {x : S} {s s' : σ} {r : R c}
    (h : D.step c s = (.ok r, s')) (fault : Fault ε) :
    (∃ e n, ((Proc.call c >>= f) x).runWith D s fault = (some (.error e, x), D.fail c n s)) ∨
      (∃ n, ((Proc.call c >>= f) x).runWith D s fault = (none, D.cut c n s)) ∨
      ∃ fault', (fault = .none → fault' = .none) ∧
        ((Proc.call c >>= f) x).runWith D s fault = (f r x).runWith D s' fault' := by
  show (∃ e n, (Proc.bind (Proc.call c) f x).runWith D s fault = _) ∨
    (∃ n, (Proc.bind (Proc.call c) f x).runWith D s fault = _) ∨
    ∃ fault', _ ∧ (Proc.bind (Proc.call c) f x).runWith D s fault = _
  unfold Proc.bind Proc.call
  rw [Prog.bind_call]
  cases fault with
  | none =>
    refine .inr (.inr ⟨.none, fun _ => rfl, ?_⟩)
    rw [Prog.runWith_call_none, h]
    rfl
  | fail i e n =>
    cases i with
    | zero => exact .inl ⟨e, n, rfl⟩
    | succ i =>
      refine .inr (.inr ⟨.fail i e n, nofun, ?_⟩)
      rw [Prog.runWith_call_later, h]
      rfl
  | die i n =>
    cases i with
    | zero => exact .inr (.inl ⟨n, rfl⟩)
    | succ i =>
      refine .inr (.inr ⟨.die i n, nofun, ?_⟩)
      rw [Prog.runWith_call_survives, h]
      rfl

/-- One call and nothing behind it. -/
theorem Proc.runWith_call {D : Device C R ε σ} {c : C} {x : S} {s s' : σ} {r : R c} (h : D.step c s = (.ok r, s'))
    (fault : Fault ε) :
    (∃ e n, (Proc.call c x : Prog C R ε _).runWith D s fault = (some (.error e, x), D.fail c n s)) ∨
      (∃ n, (Proc.call c x : Prog C R ε _).runWith D s fault = (none, D.cut c n s)) ∨
      (Proc.call c x : Prog C R ε _).runWith D s fault = (some (.ok r, x), s') := by
  unfold Proc.call
  cases fault with
  | none =>
    rw [Prog.runWith_call_none, h, Prog.runWith_pure]
    exact .inr (.inr rfl)
  | fail i e n =>
    cases i with
    | zero => exact .inl ⟨e, n, rfl⟩
    | succ i =>
      rw [Prog.runWith_call_later, h, Prog.runWith_pure]
      exact .inr (.inr rfl)
  | die i n =>
    cases i with
    | zero => exact .inr (.inl ⟨n, rfl⟩)
    | succ i =>
      rw [Prog.runWith_call_survives, h, Prog.runWith_pure]
      exact .inr (.inr rfl)

/-- **Every run that a triple covers**: it succeeds, or one call failed and so did the process, or the process
    died. -/
theorem Triple.runWith {D : Device C R ε σ} {m : Proc C R ε S α} {x : S} {s : σ} {Q : α → S → σ → Prop}
    {I : C → Nat → σ → Prop} {F : C → S → σ → Prop} (h : Triple D m x s Q I F) (fault : Fault ε) :
    (∃ a x' s', (m x).runWith D s fault = (some (.ok a, x'), s') ∧ Q a x' s') ∨
      (∃ c e x' s', (m x).runWith D s fault = (some (.error e, x'), s') ∧ F c x' s' ∧ fault.Survived) ∨
      ∃ c n s', (m x).runWith D s fault = (none, s') ∧ I c n s' ∧ ¬ fault.Survived := by
  obtain ⟨a, x', s', hr, hq⟩ := h.runs
  cases fault with
  | none =>
    refine .inl ⟨a, x', s', ?_, hq⟩
    simp only [Prog.runWith, hr]
  | fail i e n =>
    cases hf : (m x).failAt D s i e n with
    | none =>
      refine .inl ⟨a, x', s', ?_, hq⟩
      simp only [Prog.runWith, hf, hr]
    | some r =>
      obtain ⟨c, ⟨r, x1⟩, s1⟩ := r
      obtain ⟨⟨e', he⟩, hF⟩ := (Prog.failures_iff _ _).mp h.failures i e n c _ s1 hf
      obtain rfl : r = .error e' := he
      refine .inr (.inl ⟨c, e', x1, s1, ?_, hF, trivial⟩)
      simp only [Prog.runWith, hf]
  | die i n =>
    cases hd : (m x).dieAt D s i n with
    | none =>
      refine .inl ⟨a, x', s', ?_, hq⟩
      simp only [Prog.runWith, hd, hr]
    | some r =>
      obtain ⟨c, s1⟩ := r
      have hI := (Prog.deaths_iff _ _).mp h.deaths i n c s1 hd
      refine .inr (.inr ⟨c, n, s1, ?_, hI, id⟩)
      simp only [Prog.runWith, hd]

/-- A run in which no call fails: it succeeds, or the process died. -/
theorem Triple.runWith_unfailed {D : Device C R ε σ} {m : Proc C R ε S α} {x : S} {s : σ} {Q : α → S → σ → Prop}
    {I : C → Nat → σ → Prop} {F : C → S → σ → Prop} (h : Triple D m x s Q I F) {fault : Fault ε}
    (hno : ∀ i e n r, fault = .fail i e n → (m x).failAt D s i e n ≠ some r) :
    (∃ a x' s', (m x).runWith D s fault = (some (.ok a, x'), s') ∧ Q a x' s') ∨
      ∃ c n s', (m x).runWith D s fault = (none, s') ∧ I c n s' := by
  cases fault with
  | none =>
    obtain ⟨a, x', s', hr, hq⟩ := h.runs
    exact .inl ⟨a, x', s', by rw [Prog.runWith_none, hr], hq⟩
  | fail i e n =>
    obtain ⟨a, x', s', hr, hq⟩ := h.runs
    have hnone : (m x).failAt D s i e n = none := Option.eq_none_iff_forall_ne_some.mpr (fun r => hno i e n r rfl)
    exact .inl ⟨a, x', s', by simp only [Prog.runWith, hnone, hr], hq⟩
  | die i n =>
    rcases h.runWith (.die i n) with hok | ⟨c, e, x', s', -, -, hsurvived⟩ | ⟨c, n', s', hr, hI, -⟩
    · exact .inl hok
    · exact absurd hsurvived id
    · exact .inr ⟨c, n', s', hr, hI⟩

end Interaction
