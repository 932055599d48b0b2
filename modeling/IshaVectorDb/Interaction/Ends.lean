import IshaVectorDb.Interaction.Triple

/-!
# `Interaction.Ends` — where a run ends, **whether it succeeds or not**

`Ends D m x s Q` says that the run of the process `m` in which every call behaves ends with a result, a memory and
a device state that satisfy `Q`; the result may be an error that the process itself raised. It is what a proof uses
about a process that is not known to succeed: a triple gives the part that is (`Triple.ends`), the rules below the
rest.
-/

namespace Interaction

variable {C : Type} {R : C → Type} {ε σ S T α β : Type}

/-- The result, the memory and the device state at the end of the run satisfy `Q`. -/
def Ends (D : Device C R ε σ) (m : Proc C R ε S α) (x : S) (s : σ) (Q : Except ε α → S → σ → Prop) : Prop :=
  Q ((m x).run D s).1.1 ((m x).run D s).1.2 ((m x).run D s).2

/-- The run of a process that a triple describes succeeds. -/
theorem Triple.ends {D : Device C R ε σ} {m : Proc C R ε S α} {x : S} {s : σ} {P : α → S → σ → Prop}
    {I : C → Nat → σ → Prop} {F : C → S → σ → Prop} {Q : Except ε α → S → σ → Prop} (h : Triple D m x s P I F)
    (hQ : ∀ a x' s', P a x' s' → Q (.ok a) x' s') : Ends D m x s Q := by
  obtain ⟨a, x', s', hr, hp⟩ := h.runs
  unfold Ends
  rw [hr]
  exact hQ a x' s' hp

namespace Ends

variable {D : Device C R ε σ} {x : S} {s : σ}

/-- What a run that ended somewhere satisfies. -/
theorem of_run {m : Proc C R ε S α} {Q : Except ε α → S → σ → Prop} (h : Ends D m x s Q) {r : Except ε α} {x' : S}
    {s' : σ} (hr : (m x).run D s = ((r, x'), s')) : Q r x' s' := by
  unfold Ends at h
  rw [hr] at h
  exact h

theorem mono {m : Proc C R ε S α} {Q Q' : Except ε α → S → σ → Prop} (h : Ends D m x s Q)
    (hQ : ∀ r x' s', Q r x' s' → Q' r x' s') : Ends D m x s Q' := hQ _ _ _ h

/-- The run keeps its equation beside what is known of its end. -/
theorem with_run {m : Proc C R ε S α} {Q : Except ε α → S → σ → Prop} (h : Ends D m x s Q) :
    Ends D m x s (fun r x' s' => Q r x' s' ∧ (m x).run D s = ((r, x'), s')) := ⟨h, rfl⟩

/-! ## Steps without a call -/

theorem pure {a : α} {Q : Except ε α → S → σ → Prop} (h : Q (.ok a) x s) :
    Ends D (Pure.pure a : Proc C R ε S α) x s Q := h

theorem throw {e : ε} {Q : Except ε α → S → σ → Prop} (h : Q (.error e) x s) :
    Ends D (Proc.throw e : Proc C R ε S α) x s Q := h

theorem lift {r : Except ε α} {Q : Except ε α → S → σ → Prop} (h : Q r x s) :
    Ends D (Proc.lift r : Proc C R ε S α) x s Q := h

theorem get {Q : Except ε S → S → σ → Prop} (h : Q (.ok x) x s) : Ends D (Proc.get : Proc C R ε S S) x s Q := h

theorem modify {f : S → S} {Q : Except ε Unit → S → σ → Prop} (h : Q (.ok ()) (f x) s) :
    Ends D (Proc.modify f : Proc C R ε S Unit) x s Q := h

theorem call {c : C} {Q : Except ε (R c) → S → σ → Prop} {r : Except ε (R c)} {s' : σ} (hs : D.step c s = (r, s'))
    (hQ : Q r x s') : Ends D (Proc.call c : Proc C R ε S (R c)) x s Q := by
  show Q (D.step c s).1 x (D.step c s).2
  rw [hs]
  exact hQ

/-! ## Sequencing -/

/-- **A sequence** ends where its second part does, or with the error of its first. -/
theorem seq {m : Proc C R ε S α} {f : α → Proc C R ε S β} {P : Except ε α → S → σ → Prop}
    {Q : Except ε β → S → σ → Prop} (h : Ends D m x s P)
    (hok : ∀ a x' s', P (.ok a) x' s' → Ends D (f a) x' s' Q)
    (herror : ∀ e x' s', P (.error e) x' s' → Q (.error e) x' s') : Ends D (m >>= f) x s Q := by
  unfold Ends at h ⊢
  show Q ((Proc.bind m f x).run D s).1.1 ((Proc.bind m f x).run D s).1.2 ((Proc.bind m f x).run D s).2
  rw [Proc.bind, Prog.run_bind]
  cases hr : (m x).run D s with
  | mk r s' =>
    obtain ⟨r, x'⟩ := r
    rw [hr] at h
    cases r with
    | ok a => exact hok a x' s' h
    | error e => exact herror e x' s' h

/-- A first part that is known to succeed. -/
theorem after {m : Proc C R ε S α} {f : α → Proc C R ε S β} {I : C → Nat → σ → Prop} {F : C → S → σ → Prop}
    {Q : Except ε β → S → σ → Prop} (h : Triple D m x s (fun a x' s' => Ends D (f a) x' s' Q) I F) :
    Ends D (m >>= f) x s Q := by
  apply seq (h.ends (Q := fun r x' s' => ∃ a, r = .ok a ∧ Ends D (f a) x' s' Q) (fun a x' s' ha => ⟨a, rfl, ha⟩))
  · rintro a x' s' ⟨b, hb, hends⟩
    obtain rfl := Except.ok.inj hb
    exact hends
  · rintro e x' s' ⟨b, hb, -⟩
    cases hb

/-- Reading the memory first. -/
theorem get_bind {f : S → Proc C R ε S β} {Q : Except ε β → S → σ → Prop} (h : Ends D (f x) x s Q) :
    Ends D (Proc.get >>= f) x s Q := h

/-- Changing the memory first. -/
theorem modify_bind {g : S → S} {f : Unit → Proc C R ε S β} {Q : Except ε β → S → σ → Prop}
    (h : Ends D (f ()) (g x) s Q) : Ends D (Proc.modify g >>= f) x s Q := h

/-- A first part that returned without a call. -/
theorem done_bind {m : Proc C R ε S α} {f : α → Proc C R ε S β} {x' : S} {a : α} {Q : Except ε β → S → σ → Prop}
    (hm : m x = .pure (.ok a, x')) (h : Ends D (f a) x' s Q) : Ends D (m >>= f) x s Q := by
  unfold Ends at h ⊢
  show Q ((Proc.bind m f x).run D s).1.1 ((Proc.bind m f x).run D s).1.2 ((Proc.bind m f x).run D s).2
  rw [Proc.bind, hm]
  exact h

/-- What is known of a process whose result is replaced. -/
theorem of_answer {m : Proc C R ε S α} {b : β} {Q : Except ε β → S → σ → Prop}
    (h : Ends D (m >>= fun _ => Pure.pure b) x s Q) : Ends D m x s (fun r x' s' => Q (r.map (fun _ => b)) x' s') := by
  unfold Ends at h ⊢
  change Q ((Proc.bind m _ x).run D s).1.1 ((Proc.bind m _ x).run D s).1.2 ((Proc.bind m _ x).run D s).2 at h
  rw [Proc.bind, Prog.run_bind] at h
  rcases hr : (m x).run D s with ⟨⟨r, x'⟩, s'⟩
  rw [hr] at h
  cases r <;> exact h

/-- A computation without a call first. -/
theorem lift_bind {r : Except ε α} {f : α → Proc C R ε S β} {Q : Except ε β → S → σ → Prop}
    (hok : ∀ a, r = .ok a → Ends D (f a) x s Q) (herror : ∀ e, r = .error e → Q (.error e) x s) :
    Ends D (Proc.lift r >>= f) x s Q := by
  cases r with
  | ok a => exact hok a rfl
  | error e => exact herror e rfl

/-- Part of the memory. -/
theorem zoom {read : T → S} {write : S → T → T} {m : Proc C R ε S α} {t : T} {Q : Except ε α → T → σ → Prop}
    (h : Ends D m (read t) s (fun r x' s' => Q r (write x' t) s')) : Ends D (Proc.zoom read write m) t s Q := by
  unfold Ends at h ⊢
  show Q ((Proc.zoom read write m t).run D s).1.1 ((Proc.zoom read write m t).run D s).1.2
    ((Proc.zoom read write m t).run D s).2
  rw [Proc.zoom, Prog.run_bind]
  exact h

/-- An error becomes a value. -/
theorem attempt {m : Proc C R ε S α} {Q : Except ε (Except ε α) → S → σ → Prop}
    (h : Ends D m x s (fun r x' s' => Q (.ok r) x' s')) : Ends D (Proc.attempt m) x s Q := by
  unfold Ends at h ⊢
  show Q ((Proc.attempt m x).run D s).1.1 ((Proc.attempt m x).run D s).1.2 ((Proc.attempt m x).run D s).2
  rw [Proc.attempt, Prog.run_bind]
  exact h

/-! ## Walking a list -/

/-- **A walk over a list** that stops at the first error keeps what each of its steps keeps. -/
theorem forList {f : β → Proc C R ε S Unit} (P : S → σ → Prop) (l : List β)
    (step : ∀ b ∈ l, ∀ x s, P x s → Ends D (f b) x s (fun _ x' s' => P x' s')) (h : P x s) :
    Ends D (Proc.forList f l) x s (fun _ x' s' => P x' s') := by
  induction l generalizing x s with
  | nil => exact pure h
  | cons b l ih =>
    obtain ⟨hb, hl⟩ := List.forall_mem_cons.mp step
    apply seq (hb x s h)
    · intro _ x' s' hP
      exact ih hl hP
    · intro e x' s' hP
      exact hP

end Ends

end Interaction
