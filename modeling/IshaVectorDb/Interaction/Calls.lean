import IshaVectorDb.Interaction.Faults

/-!
# `Interaction.Calls` — which calls a program **can** make

`Prog.Calls good p` says that every call the program `p` could make, whatever the device answers, is `good`. What
good calls keep, every run keeps: to its end (`Calls.run`), to a failing call or to the death of the process
(`Calls.runWith`). A process inherits the property from its parts.
-/

namespace Interaction

variable {C : Type} {R : C → Type} {ε σ S T α β : Type} {good better : C → Prop}

namespace Prog

/-- Every call that the program can make is `good`. -/
def Calls (good : C → Prop) : Prog C R ε α → Prop
  | .pure _ => True
  | .call c k => good c ∧ ∀ r, Calls good (k r)

theorem Calls.mono {p : Prog C R ε α} (h : p.Calls good) (himp : ∀ c, good c → better c) : p.Calls better := by
  induction p with
  | pure a => trivial
  | call c k ih => exact ⟨himp c h.1, fun r => ih r (h.2 r)⟩

theorem Calls.bind {p : Prog C R ε α} {f : α → Prog C R ε β} (h : p.Calls good) (hf : ∀ a, (f a).Calls good) :
    (p.bind f).Calls good := by
  induction p with
  | pure a => exact hf a
  | call c k ih => exact ⟨h.1, fun r => ih r (h.2 r)⟩

section Keep

variable {D : Device C R ε σ} {P : σ → Prop}

/-- **What good calls keep, a run keeps.** -/
theorem Calls.run {p : Prog C R ε α} (h : p.Calls good) (hstep : ∀ c s, good c → P s → P (D.step c s).2) {s : σ}
    (hs : P s) : P (p.run D s).2 := by
  induction p generalizing s with
  | pure a => exact hs
  | call c k ih => exact ih _ (h.2 _) (hstep c s h.1 hs)

/-- **What good calls keep, a death leaves**, and the call it falls inside is good. -/
theorem Calls.deaths_good {p : Prog C R ε α} (h : p.Calls good) (hstep : ∀ c s, good c → P s → P (D.step c s).2)
    (hcut : ∀ c n s, good c → P s → P (D.cut c n s)) {s : σ} (hs : P s) : p.Deaths D (fun c _ t => good c ∧ P t) s := by
  induction p generalizing s with
  | pure a => trivial
  | call c k ih => exact ⟨fun n => ⟨h.1, hcut c n s h.1 hs⟩, ih _ (h.2 _) (hstep c s h.1 hs)⟩

theorem Calls.deaths {p : Prog C R ε α} (h : p.Calls good) (hstep : ∀ c s, good c → P s → P (D.step c s).2)
    (hcut : ∀ c n s, good c → P s → P (D.cut c n s)) {s : σ} (hs : P s) : p.Deaths D (fun _ _ t => P t) s :=
  (h.deaths_good hstep hcut hs).mono (fun _ _ _ ht => ht.2)

/-- **What good calls keep, a run under a fault keeps.** -/
theorem Calls.runWith {p : Prog C R ε α} (h : p.Calls good) (hstep : ∀ c s, good c → P s → P (D.step c s).2)
    (hcut : ∀ c n s, good c → P s → P (D.cut c n s)) (hfail : ∀ c n s, good c → P s → P (D.fail c n s))
    (fault : Fault ε) {s : σ} (hs : P s) : P (p.runWith D s fault).2 := by
  induction p generalizing s fault with
  | pure a => rw [runWith_pure]; exact hs
  | call c k ih =>
    have hnext := hstep c s h.1 hs
    cases fault with
    | none => exact ih _ (h.2 _) .none hnext
    | fail i e n =>
      cases i with
      | zero => exact ih _ (h.2 _) .none (hfail c n s h.1 hs)
      | succ i => exact ih _ (h.2 _) (.fail i e n) hnext
    | die i n =>
      cases i with
      | zero => exact hcut c n s h.1 hs
      | succ i => exact ih _ (h.2 _) (.die i n) hnext

end Keep

end Prog

/-! ## Processes -/

namespace Proc

/-- Every call that the process can make is `good`, in whatever memory it starts. -/
def Calls (good : C → Prop) (m : Proc C R ε S α) : Prop := ∀ x, (m x).Calls good

namespace Calls

theorem mono {m : Proc C R ε S α} (h : m.Calls good) (himp : ∀ c, good c → better c) : m.Calls better :=
  fun x => (h x).mono himp

theorem pure (a : α) : (Pure.pure a : Proc C R ε S α).Calls good := fun _ => trivial

theorem throw (e : ε) : (Proc.throw e : Proc C R ε S α).Calls good := fun _ => trivial

theorem lift (r : Except ε α) : (Proc.lift r : Proc C R ε S α).Calls good := fun _ => trivial

theorem attempt {m : Proc C R ε S α} (h : m.Calls good) : (Proc.attempt m).Calls good :=
  fun x => (h x).bind (fun _ => trivial)

theorem get : (Proc.get : Proc C R ε S S).Calls good := fun _ => trivial

theorem modify (f : S → S) : (Proc.modify f : Proc C R ε S Unit).Calls good := fun _ => trivial

theorem call {c : C} (h : good c) : (Proc.call c : Proc C R ε S (R c)).Calls good := fun _ => ⟨h, fun _ => trivial⟩

theorem bind {m : Proc C R ε S α} {f : α → Proc C R ε S β} (h : m.Calls good) (hf : ∀ a, (f a).Calls good) :
    (m >>= f).Calls good := fun x => (h x).bind (fun r => match r with
  | (.ok a, x') => hf a x'
  | (.error _, _) => trivial)

/-- A computation without a call first: what comes behind it need be good for its value only. -/
theorem lift_bind {r : Except ε α} {f : α → Proc C R ε S β} (hf : ∀ a, r = .ok a → (f a).Calls good) :
    (Proc.lift r >>= f).Calls good := by
  cases r with
  | ok a => exact hf a rfl
  | error e => exact fun _ => trivial

theorem ite {p : Prop} [Decidable p] {m n : Proc C R ε S α} (hm : p → m.Calls good) (hn : ¬ p → n.Calls good) :
    (if p then m else n).Calls good := by
  split
  · rename_i hp; exact hm hp
  · rename_i hp; exact hn hp

theorem zoom {read : T → S} {write : S → T → T} {m : Proc C R ε S α} (h : m.Calls good) :
    (Proc.zoom read write m).Calls good := fun t => (h (read t)).bind (fun _ => trivial)

theorem mapList {f : β → Proc C R ε S α} (l : List β) (h : ∀ b ∈ l, (f b).Calls good) :
    (Proc.mapList f l).Calls good := by
  induction l with
  | nil => exact pure []
  | cons b l ih =>
    obtain ⟨hb, hl⟩ := List.forall_mem_cons.mp h
    exact bind hb (fun a => bind (ih hl) (fun as => pure (a :: as)))

theorem forList {f : β → Proc C R ε S Unit} (l : List β) (h : ∀ b ∈ l, (f b).Calls good) :
    (Proc.forList f l).Calls good := by
  induction l with
  | nil => exact pure ()
  | cons b l ih =>
    obtain ⟨hb, hl⟩ := List.forall_mem_cons.mp h
    exact bind hb (fun _ => ih hl)

theorem iterMut {f : Proc C R ε T α} (h : f.Calls good) : (Proc.iterMut f).Calls good := by
  intro l
  induction l with
  | nil => trivial
  | cons x l ih =>
    apply (h x).bind
    rintro ⟨r, x'⟩
    cases r with
    | error e => trivial
    | ok a => exact ih.bind (fun _ => trivial)

end Calls

/-- A sequence goes on where its first part returned without a call. -/
theorem bind_done {m : Proc C R ε S α} {f : α → Proc C R ε S β} {x x' : S} {a : α} (h : m x = .pure (.ok a, x')) :
    (m >>= f) x = f a x' := by
  change Proc.bind m f x = _
  rw [Proc.bind, h]
  rfl

/-- A sequence is refused where its first part was refused without a call. -/
theorem bind_refused {m : Proc C R ε S α} {f : α → Proc C R ε S β} {x x' : S} {e : ε} (h : m x = .pure (.error e, x')) :
    (m >>= f) x = .pure (.error e, x') := by
  change Proc.bind m f x = _
  rw [Proc.bind, h]
  rfl

/-- The run of a sequence goes on where its first part succeeded. -/
theorem run_bind {D : Device C R ε σ} {m : Proc C R ε S α} {f : α → Proc C R ε S β} {x x₁ : S} {s s₁ : σ} {a : α}
    (h : (m x).run D s = ((.ok a, x₁), s₁)) : ((m >>= f) x).run D s = (f a x₁).run D s₁ := by
  change (Proc.bind m f x).run D s = _
  rw [Proc.bind, Prog.run_bind, h]

/-- The deaths of a sequence whose first part succeeds. -/
theorem deaths_bind {D : Device C R ε σ} {m : Proc C R ε S α} {f : α → Proc C R ε S β} {I : C → Nat → σ → Prop} {x x₁ : S}
    {s s₁ : σ} {a : α} (h : (m x).Deaths D I s) (hrun : (m x).run D s = ((.ok a, x₁), s₁)) (hf : (f a x₁).Deaths D I s₁) :
    ((m >>= f) x).Deaths D I s := by
  change (Prog.bind _ _).Deaths D I s
  rw [Prog.deaths_bind, hrun]
  exact ⟨h, hf⟩

/-- The run of a sequence ends where its first part failed. -/
theorem run_bind_error {D : Device C R ε σ} {m : Proc C R ε S α} {f : α → Proc C R ε S β} {x x₁ : S} {s s₁ : σ} {e : ε}
    (h : (m x).run D s = ((.error e, x₁), s₁)) : ((m >>= f) x).run D s = ((.error e, x₁), s₁) := by
  change (Proc.bind m f x).run D s = _
  rw [Proc.bind, Prog.run_bind, h]
  rfl

/-- A sequence that succeeded is one whose parts did. -/
theorem run_bind_ok {D : Device C R ε σ} {m : Proc C R ε S α} {f : α → Proc C R ε S β} {x x' : S} {s s' : σ} {b : β}
    (h : ((m >>= f) x).run D s = ((.ok b, x'), s')) :
    ∃ a x₁ s₁, (m x).run D s = ((.ok a, x₁), s₁) ∧ (f a x₁).run D s₁ = ((.ok b, x'), s') := by
  change (Proc.bind m f x).run D s = _ at h
  rw [Proc.bind, Prog.run_bind] at h
  cases hr : (m x).run D s with
  | mk r s₁ =>
    obtain ⟨r, x₁⟩ := r
    rw [hr] at h
    cases r with
    | ok a => exact ⟨a, x₁, s₁, rfl, h⟩
    | error e => cases h

/-- **What the first part of a sequence keeps, and each way on from it, the sequence keeps.** -/
theorem keep_bind {D : Device C R ε σ} {P : σ → Prop} {m : Proc C R ε S α} {f : α → Proc C R ε S β} {x : S} {s : σ}
    (h : P ((m x).run D s).2) (hf : ∀ a x₁ s₁, (m x).run D s = ((.ok a, x₁), s₁) → P ((f a x₁).run D s₁).2) :
    P (((m >>= f) x).run D s).2 := by
  cases hr : (m x).run D s with
  | mk r s₁ =>
    obtain ⟨r, x₁⟩ := r
    cases r with
    | ok a =>
      rw [run_bind hr]
      exact hf a x₁ s₁ hr
    | error e =>
      change P ((Proc.bind m f x).run D s).2
      rw [Proc.bind, Prog.run_bind, hr]
      rw [hr] at h
      exact h

/-! ## Runs that leave the device as it was -/

/-- The run leaves the device as it found it. -/
def Still (D : Device C R ε σ) (m : Proc C R ε S α) (x : S) (s : σ) : Prop := ((m x).run D s).2 = s

namespace Still

variable {D : Device C R ε σ} {x : S} {s : σ}

/-- Calls that change nothing leave the device as it was. -/
theorem of_calls {m : Proc C R ε S α} (h : m.Calls good) (hgood : ∀ c, good c → (D.step c s).2 = s) :
    Still D m x s := by
  apply @Prog.Calls.run _ _ _ _ _ _ D (fun t => t = s) _ (h x) _ s rfl
  intro c t hc ht
  rw [ht]
  exact hgood c hc

theorem pure (a : α) : Still D (Pure.pure a : Proc C R ε S α) x s := rfl

theorem throw (e : ε) : Still D (Proc.throw e : Proc C R ε S α) x s := rfl

theorem lift (r : Except ε α) : Still D (Proc.lift r : Proc C R ε S α) x s := rfl

theorem modify (f : S → S) : Still D (Proc.modify f : Proc C R ε S Unit) x s := rfl

/-- A sequence is still when its first part is, and each way on from it. -/
theorem bind {m : Proc C R ε S α} {f : α → Proc C R ε S β} (h : Still D m x s)
    (hf : ∀ a x₁, (m x).run D s = ((.ok a, x₁), s) → Still D (f a) x₁ s) : Still D (m >>= f) x s := by
  apply @Proc.keep_bind _ _ _ _ _ _ _ D (fun t => t = s) m f x s h
  intro a x₁ s₁ hr
  have hs : s₁ = s := by
    have hfirst : ((m x).run D s).2 = s := h
    rw [hr] at hfirst
    exact hfirst
  subst hs
  exact hf a x₁ hr

/-- Reading the memory first. -/
theorem get_bind {f : S → Proc C R ε S β} (h : Still D (f x) x s) : Still D (Proc.get >>= f) x s := h

theorem zoom {read : T → S} {write : S → T → T} {m : Proc C R ε S α} {t : T} (h : Still D m (read t) s) :
    Still D (Proc.zoom read write m) t s := by
  show ((Proc.zoom read write m t).run D s).2 = s
  rw [Proc.zoom, Prog.run_bind]
  exact h

theorem attempt {m : Proc C R ε S α} (h : Still D m x s) : Still D (Proc.attempt m) x s := by
  show ((Proc.attempt m x).run D s).2 = s
  rw [Proc.attempt, Prog.run_bind]
  exact h

end Still

/-- **The process answers** `a`, and leaves its memory and the device as it found them. -/
def Says (D : Device C R ε σ) (m : Proc C R ε S α) (x : S) (s : σ) (a : α) : Prop := (m x).run D s = ((.ok a, x), s)

namespace Says

variable {D : Device C R ε σ} {x : S} {s : σ} {a : α} {b : β}

theorem pure (a : α) : Says D (Pure.pure a : Proc C R ε S α) x s a := rfl

theorem lift {r : Except ε α} (h : r = .ok a) : Says D (Proc.lift r : Proc C R ε S α) x s a := by
  rw [h]
  rfl

theorem bind {m : Proc C R ε S α} {f : α → Proc C R ε S β} (h : Says D m x s a) (hf : Says D (f a) x s b) :
    Says D (m >>= f) x s b := (run_bind h).trans hf

theorem get_bind {f : S → Proc C R ε S β} (h : Says D (f x) x s b) : Says D (Proc.get >>= f) x s b := h

end Says

/-- Trying a process that changes nothing. -/
theorem attempt_says {D : Device C R ε σ} {m : Proc C R ε S α} {x : S} {s : σ} {r : Except ε α}
    (h : (m x).run D s = ((r, x), s)) : Says D (attempt m) x s r := by
  show (attempt m x).run D s = _
  rw [attempt, Prog.run_bind, h]
  rfl

/-- **Steps that change nothing**, one after the other: they succeed if each does. -/
theorem forList_run {D : Device C R ε σ} {x : S} {s : σ} {f : β → Proc C R ε S Unit} {P : β → Prop} {l : List β}
    (h : ∀ b ∈ l, ∃ r, (f b x).run D s = ((r, x), s) ∧ (r = .ok () ↔ P b)) :
    ∃ r, (forList f l x).run D s = ((r, x), s) ∧ (r = .ok () ↔ ∀ b ∈ l, P b) := by
  induction l with
  | nil => exact ⟨_, rfl, fun _ b hb => absurd hb List.not_mem_nil, fun _ => rfl⟩
  | cons b l ih =>
    obtain ⟨⟨r, hrun, hverdict⟩, hl⟩ := List.forall_mem_cons.mp h
    cases r with
    | ok u =>
      obtain ⟨r', hrun', hverdict'⟩ := ih hl
      refine ⟨r', (run_bind hrun).trans hrun', ?_⟩
      rw [List.forall_mem_cons, hverdict']
      exact (and_iff_right (hverdict.mp rfl)).symm
    | error e =>
      refine ⟨.error e, run_bind_error hrun, ⟨fun hok => (by cases hok), fun hall => ?_⟩⟩
      exact hverdict.mpr (hall b List.mem_cons_self)

end Proc

end Interaction
