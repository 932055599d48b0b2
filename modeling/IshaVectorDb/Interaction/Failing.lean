import IshaVectorDb.Interaction.Ends

/-!
# `Interaction.Failing` — a device of which **any calls fail**

`Fault` knows one accident in a run. Where a process lives through many, the device itself is one whose calls fail as it is
told (`Device.failing`), and what is known of runs on every device is known of these. `Stays D I m G` is the judgement about
the state: every call that `m` makes in a state of which `I` holds leaves one of which `I` holds, whether it returns, fails or
is cut off. Unlike `Calls` it relies on what the device answers, so that a handle is the one of the file that was opened.
-/

namespace Interaction

variable {C : Type} {R : C → Type} {ε σ S T α β : Type}

/-- Which of the calls to come fail, with what error, and after how much of their work. -/
abbrev Mishaps (ε : Type) := Nat → Option (ε × Nat)

/-- **The device**, but calls fail as they are told to. -/
def Device.failing (D : Device C R ε σ) : Device C R ε (σ × Mishaps ε) where
  step c s := match s.2 0 with
    | none => ((D.step c s.1).1, (D.step c s.1).2, fun i => s.2 (i + 1))
    | some (e, n) => (.error e, D.fail c n s.1, fun i => s.2 (i + 1))
  cut c n s := (D.cut c n s.1, s.2)
  fail c n s := (D.fail c n s.1, s.2)

theorem Device.failing_behaves {D : Device C R ε σ} {c : C} {s : σ × Mishaps ε} (h : s.2 0 = none) :
    D.failing.step c s = ((D.step c s.1).1, (D.step c s.1).2, fun i => s.2 (i + 1)) := by
  unfold failing
  dsimp only
  rw [h]

theorem Device.failing_fails {D : Device C R ε σ} {c : C} {s : σ × Mishaps ε} {mishap : ε × Nat} (h : s.2 0 = some mishap) :
    D.failing.step c s = (.error mishap.1, D.fail c mishap.2 s.1, fun i => s.2 (i + 1)) := by
  unfold failing
  dsimp only
  rw [h]

section Stays

variable {D : Device C R ε σ} {I : σ → Prop}

/-- The call leaves a state in which `I` holds, however it ends. -/
def Device.Within (D : Device C R ε σ) (I : σ → Prop) (c : C) (s : σ) : Prop :=
  I (D.step c s).2 ∧ ∀ n, I (D.cut c n s) ∧ I (D.fail c n s)

namespace Prog

/-- Every call of the program keeps `I`, and what it ends with satisfies `Q`. -/
def Stays (D : Device C R ε σ) (I : σ → Prop) (Q : α → Prop) : Prog C R ε α → Prop
  | .pure a => Q a
  | .call c k => (∀ s, I s → D.Within I c s ∧ Stays D I Q (k (D.step c s).1)) ∧ ∀ e, Stays D I Q (k (.error e))

theorem Stays.bind {p : Prog C R ε α} {f : α → Prog C R ε β} {P : α → Prop} {Q : β → Prop} (h : p.Stays D I P)
    (hf : ∀ a, P a → (f a).Stays D I Q) : (p.bind f).Stays D I Q := by
  induction p with
  | pure a => exact hf a h
  | call c k ih => exact ⟨fun s hs => ⟨(h.1 s hs).1, ih _ (h.1 s hs).2⟩, fun e => ih _ (h.2 e)⟩

theorem Stays.mono {p : Prog C R ε α} {P Q : α → Prop} (h : p.Stays D I P) (hPQ : ∀ a, P a → Q a) : p.Stays D I Q := by
  induction p with
  | pure a => exact hPQ a h
  | call c k ih => exact ⟨fun s hs => ⟨(h.1 s hs).1, ih _ (h.1 s hs).2⟩, fun e => ih _ (h.2 e)⟩

/-- A call of the device that fails as it is told. -/
theorem Stays.step {Q : α → Prop} {c : C} {k : Except ε (R c) → Prog C R ε α} (h : (Prog.call c k).Stays D I Q)
    {s : σ × Mishaps ε} (hs : I s.1) : I (D.failing.step c s).2.1 ∧ (k (D.failing.step c s).1).Stays D I Q := by
  obtain ⟨hwithin, hnext⟩ := h.1 s.1 hs
  cases hfirst : s.2 0 with
  | none =>
    rw [Device.failing_behaves hfirst]
    exact ⟨hwithin.1, hnext⟩
  | some mishap =>
    rw [Device.failing_fails hfirst]
    exact ⟨(hwithin.2 mishap.2).2, h.2 mishap.1⟩

/-- **Whatever calls fail**, a run ends in a state that it may be in. -/
theorem Stays.run {Q : α → Prop} {p : Prog C R ε α} (h : p.Stays D I Q) {s : σ × Mishaps ε} (hs : I s.1) :
    Q (p.run D.failing s).1 ∧ I (p.run D.failing s).2.1 := by
  induction p generalizing s with
  | pure a => exact ⟨h, hs⟩
  | call c k ih => exact ih _ (h.step hs).2 (h.step hs).1

/-- So does a run in which none fails. -/
theorem Stays.run_whole {Q : α → Prop} {p : Prog C R ε α} (h : p.Stays D I Q) {s : σ} (hs : I s) :
    Q (p.run D s).1 ∧ I (p.run D s).2 := by
  induction p generalizing s with
  | pure a => exact ⟨h, hs⟩
  | call c k ih => exact ih _ (h.1 s hs).2 (h.1 s hs).1.1

/-- **Whatever calls fail before it**, a death leaves a state that it may be in. -/
theorem Stays.dieAt {Q : α → Prop} {p : Prog C R ε α} (h : p.Stays D I Q) {s t : σ × Mishaps ε} (hs : I s.1) {i n : Nat}
    {c : C} (hdies : p.dieAt D.failing s i n = some (c, t)) : I t.1 := by
  have hdeaths : p.Deaths D.failing (fun _ _ u => I u.1) s := by
    clear hdies
    induction p generalizing s with
    | pure a => trivial
    | call c k ih => exact ⟨fun n => (((h.1 s.1 hs).1).2 n).1, ih _ (h.step hs).2 (h.step hs).1⟩
  exact (deaths_iff _ _).mp hdeaths i n c t hdies

end Prog

/-! ## Processes -/

/-- Every call of the process keeps `I`, in whatever memory it starts, and what it returns satisfies `G`. -/
def Stays (D : Device C R ε σ) (I : σ → Prop) (m : Proc C R ε S α) (G : α → Prop) : Prop :=
  ∀ x, (m x).Stays D I (fun r => ∀ a, r.1 = .ok a → G a)

namespace Stays

variable {G : α → Prop} {H : β → Prop}

theorem pure {a : α} (h : G a) : Stays D I (Pure.pure a : Proc C R ε S α) G := fun _ b hb => by
  obtain rfl := Except.ok.inj hb
  exact h

theorem lift {r : Except ε α} (h : ∀ a, r = .ok a → G a) : Stays D I (Proc.lift r : Proc C R ε S α) G := fun _ => h

theorem modify {f : S → S} : Stays D I (Proc.modify f : Proc C R ε S Unit) (fun _ => True) := fun _ _ _ => trivial

theorem call {c : C} {G : R c → Prop} (h : ∀ s, I s → D.Within I c s)
    (hG : ∀ s, I s → ∀ a, (D.step c s).1 = .ok a → G a) : Stays D I (Proc.call c : Proc C R ε S (R c)) G :=
  fun _ => ⟨fun s hs => ⟨h s hs, hG s hs⟩, fun _ _ he => (by cases he)⟩

theorem bind {m : Proc C R ε S α} {f : α → Proc C R ε S β} (h : Stays D I m G) (hf : ∀ a, G a → Stays D I (f a) H) :
    Stays D I (m >>= f) H := fun x => (h x).bind (fun r hr => by
  obtain ⟨r, x'⟩ := r
  cases r with
  | ok a => exact hf a (hr a rfl) x'
  | error e => exact fun b hb => (by cases hb))

/-- Reading the memory first. -/
theorem get_bind {f : S → Proc C R ε S β} (h : ∀ x, Stays D I (f x) H) : Stays D I (Proc.get >>= f) H := fun x => h x x

/-- An error becomes a value. -/
theorem attempt {m : Proc C R ε S α} {G : Except ε α → Prop} (h : Stays D I m (fun a => G (.ok a))) (herror : ∀ e, G (.error e)) :
    Stays D I (Proc.attempt m) G := fun x => (h x).bind (fun r hr a ha => by
  obtain ⟨r, x'⟩ := r
  obtain rfl := Except.ok.inj ha
  cases r with
  | ok a => exact hr a rfl
  | error e => exact herror e)

theorem ite {p : Prop} [Decidable p] {m n : Proc C R ε S α} (hm : Stays D I m G) (hn : Stays D I n G) :
    Stays D I (if p then m else n) G := by
  split
  · exact hm
  · exact hn

/-- Part of the memory. -/
theorem zoom {read : T → S} {write : S → T → T} {m : Proc C R ε S α} (h : Stays D I m G) :
    Stays D I (Proc.zoom read write m) G := fun t => (h (read t)).bind (fun _ hr => hr)

end Stays

end Stays

end Interaction
