import Mathlib.Data.List.Basic
import Mathlib.Logic.Basic

/-!
# `Interaction.Program` — programs that talk to a **fallible device**

A `Prog` is a tree of calls: each call names a command, and its continuation takes the reply *or the error*
the device gave. Nothing about the device is fixed by the program, so one program has several readings:

* `run` — every call behaves as the device says;
* `dieAt` — the process dies in the middle of one call, and what is left is the device's state;
* `failAt` — one call returns an error that the device would not have returned, having done part of its work
  or none, and the process carries on.

`Deaths` and `Failures` are the same two readings as predicates over *all* positions, in the form a proof
composes (`deaths_bind`, `failures_bind`); `deaths_iff` and `failures_iff` connect them to the executable
forms. Nothing here knows what the commands are.
-/

namespace Interaction

/-- A program over commands `C`, where command `c` is answered by an `R c` or by an error of type `ε`. -/
inductive Prog (C : Type) (R : C → Type) (ε : Type) (α : Type) : Type
  | pure (a : α) : Prog C R ε α
  | call (c : C) (k : Except ε (R c) → Prog C R ε α) : Prog C R ε α

/-- A device: what a call replies and leaves behind, and what it leaves when it does not get to its end.
    `cut c n s` is the state when `c`, started in `s`, was cut off after `n` units of work, `fail c n s` the
    state when it returned an error after them. -/
structure Device (C : Type) (R : C → Type) (ε : Type) (σ : Type) where
  step : (c : C) → σ → Except ε (R c) × σ
  cut : C → Nat → σ → σ
  fail : C → Nat → σ → σ

variable {C : Type} {R : C → Type} {ε σ α β : Type}

namespace Prog

/-- Sequencing. -/
def bind : Prog C R ε α → (α → Prog C R ε β) → Prog C R ε β
  | .pure a, f => f a
  | .call c k, f => .call c (fun r => (k r).bind f)

/-- Run to the end on a device that behaves. -/
def run (D : Device C R ε σ) : Prog C R ε α → σ → α × σ
  | .pure a, s => (a, s)
  | .call c k, s => run D (k (D.step c s).1) (D.step c s).2

/-- The call in progress and the device's state when the process dies in call number `i`, after `n` units
    of that call's work; `none` when the program makes fewer calls. -/
def dieAt (D : Device C R ε σ) : Prog C R ε α → σ → Nat → Nat → Option (C × σ)
  | .pure _, _, _, _ => none
  | .call c _, s, 0, n => some (c, D.cut c n s)
  | .call c k, s, i + 1, n => dieAt D (k (D.step c s).1) (D.step c s).2 i n

/-- The call that fails and the program's result when call number `i` returns the error `e` after `n`
    units of its work and every other call behaves. -/
def failAt (D : Device C R ε σ) : Prog C R ε α → σ → Nat → ε → Nat → Option (C × α × σ)
  | .pure _, _, _, _, _ => none
  | .call c k, s, 0, e, n => some (c, run D (k (.error e)) (D.fail c n s))
  | .call c k, s, i + 1, e, n => failAt D (k (D.step c s).1) (D.step c s).2 i e n

/-- Every state left by a death inside the program satisfies `I` (given the call and how far it got). -/
def Deaths (D : Device C R ε σ) (I : C → Nat → σ → Prop) : Prog C R ε α → σ → Prop
  | .pure _, _ => True
  | .call c k, s => (∀ n, I c n (D.cut c n s)) ∧ Deaths D I (k (D.step c s).1) (D.step c s).2

/-- Every result of a run in which exactly one call fails satisfies `F`. -/
def Failures (D : Device C R ε σ) (F : C → α → σ → Prop) : Prog C R ε α → σ → Prop
  | .pure _, _ => True
  | .call c k, s =>
      (∀ e n, F c (run D (k (.error e)) (D.fail c n s)).1 (run D (k (.error e)) (D.fail c n s)).2) ∧
        Failures D F (k (D.step c s).1) (D.step c s).2

/-! ## The executable and the logical forms agree -/

theorem deaths_iff {D : Device C R ε σ} {I : C → Nat → σ → Prop} (p : Prog C R ε α) (s : σ) :
    p.Deaths D I s ↔ ∀ i n c img, p.dieAt D s i n = some (c, img) → I c n img := by
  induction p generalizing s with
  | pure a => exact ⟨fun _ i n c img h => (nomatch h), fun _ => trivial⟩
  | call c k ih =>
    constructor
    · rintro ⟨h0, hrest⟩ i n c' img h
      cases i with
      | zero =>
        obtain ⟨rfl, rfl⟩ := Prod.mk.inj (Option.some.inj h)
        exact h0 n
      | succ i => exact (ih _ _).mp hrest i n c' img h
    · intro h
      exact ⟨fun n => h 0 n c _ rfl, (ih _ _).mpr (fun i n c' img hi => h (i + 1) n c' img hi)⟩

theorem failures_iff {D : Device C R ε σ} {F : C → α → σ → Prop} (p : Prog C R ε α) (s : σ) :
    p.Failures D F s ↔ ∀ i e n c a s', p.failAt D s i e n = some (c, a, s') → F c a s' := by
  induction p generalizing s with
  | pure a => exact ⟨fun _ i e n c a s' h => (nomatch h), fun _ => trivial⟩
  | call c k ih =>
    constructor
    · rintro ⟨h0, hrest⟩ i e n c' a s' h
      cases i with
      | zero =>
        obtain ⟨rfl, hr⟩ := Prod.mk.inj (Option.some.inj h)
        have h1 := h0 e n
        rw [hr] at h1
        exact h1
      | succ i => exact (ih _ _).mp hrest i e n c' a s' h
    · intro h
      exact ⟨fun e n => h 0 e n c _ _ rfl, (ih _ _).mpr (fun i e n c' a s' hi => h (i + 1) e n c' a s' hi)⟩

/-! ## Sequencing -/

@[simp] theorem bind_pure (a : α) (f : α → Prog C R ε β) : (Prog.pure a).bind f = f a := rfl

@[simp] theorem bind_call (c : C) (k : Except ε (R c) → Prog C R ε α) (f : α → Prog C R ε β) :
    (Prog.call c k).bind f = .call c (fun r => (k r).bind f) := rfl

@[simp] theorem run_pure (D : Device C R ε σ) (a : α) (s : σ) :
    (Prog.pure a : Prog C R ε α).run D s = (a, s) := rfl

theorem run_bind (D : Device C R ε σ) (p : Prog C R ε α) (f : α → Prog C R ε β) (s : σ) :
    (p.bind f).run D s = (f (p.run D s).1).run D (p.run D s).2 := by
  induction p generalizing s with
  | pure a => rfl
  | call c k ih => exact ih _ _

theorem deaths_bind {D : Device C R ε σ} {I : C → Nat → σ → Prop} (p : Prog C R ε α)
    (f : α → Prog C R ε β) (s : σ) :
    (p.bind f).Deaths D I s ↔ p.Deaths D I s ∧ (f (p.run D s).1).Deaths D I (p.run D s).2 := by
  induction p generalizing s with
  | pure a => exact ⟨fun h => ⟨trivial, h⟩, fun h => h.2⟩
  | call c k ih =>
    constructor
    · rintro ⟨h0, h⟩
      obtain ⟨h1, h2⟩ := (ih _ _).mp h
      exact ⟨⟨h0, h1⟩, h2⟩
    · rintro ⟨⟨h0, h1⟩, h2⟩
      exact ⟨h0, (ih _ _).mpr ⟨h1, h2⟩⟩

theorem failures_bind {D : Device C R ε σ} {F : C → β → σ → Prop} (p : Prog C R ε α)
    (f : α → Prog C R ε β) (s : σ) :
    (p.bind f).Failures D F s ↔
      p.Failures D (fun c a s' => F c ((f a).run D s').1 ((f a).run D s').2) s ∧
        (f (p.run D s).1).Failures D F (p.run D s).2 := by
  induction p generalizing s with
  | pure a => exact ⟨fun h => ⟨trivial, h⟩, fun h => h.2⟩
  | call c k ih =>
    constructor
    · rintro ⟨h0, h⟩
      obtain ⟨h1, h2⟩ := (ih _ _).mp h
      refine ⟨⟨fun e n => ?_, h1⟩, h2⟩
      have h3 := h0 e n
      rw [run_bind] at h3
      exact h3
    · rintro ⟨⟨h0, h1⟩, h2⟩
      refine ⟨fun e n => ?_, (ih _ _).mpr ⟨h1, h2⟩⟩
      rw [run_bind]
      exact h0 e n

theorem Deaths.mono {D : Device C R ε σ} {I J : C → Nat → σ → Prop} {p : Prog C R ε α} {s : σ}
    (h : p.Deaths D I s) (hij : ∀ c n img, I c n img → J c n img) : p.Deaths D J s := by
  induction p generalizing s with
  | pure a => trivial
  | call c k ih => exact ⟨fun n => hij _ _ _ (h.1 n), ih _ h.2⟩

theorem Deaths.and {D : Device C R ε σ} {I J : C → Nat → σ → Prop} {p : Prog C R ε α} {s : σ} (h : p.Deaths D I s)
    (h' : p.Deaths D J s) : p.Deaths D (fun c n img => I c n img ∧ J c n img) s := by
  induction p generalizing s with
  | pure a => trivial
  | call c k ih => exact ⟨fun n => ⟨h.1 n, h'.1 n⟩, ih _ h.2 h'.2⟩

theorem Failures.mono {D : Device C R ε σ} {F G : C → α → σ → Prop} {p : Prog C R ε α} {s : σ}
    (h : p.Failures D F s) (hfg : ∀ c a s', F c a s' → G c a s') : p.Failures D G s := by
  induction p generalizing s with
  | pure a => trivial
  | call c k ih => exact ⟨fun e n => hfg _ _ _ (h.1 e n), ih _ h.2⟩

end Prog

/-! ## Processes: a program with a memory that outlives its errors

A process runs over its own memory `S` and stops at the first error, *keeping* the memory as it stood: what
a failed operation changed before it failed stays changed. -/

/-- A process with memory `S` and result `α`. -/
def Proc (C : Type) (R : C → Type) (ε S α : Type) : Type := S → Prog C R ε (Except ε α × S)

namespace Proc

variable {S : Type}

/-- Return a value, changing nothing. -/
def pure (a : α) : Proc C R ε S α := fun x => .pure (.ok a, x)

/-- Stop with an error. -/
def throw (e : ε) : Proc C R ε S α := fun x => .pure (.error e, x)

/-- Sequencing: an error skips the rest. -/
def bind (m : Proc C R ε S α) (f : α → Proc C R ε S β) : Proc C R ε S β := fun x =>
  (m x).bind (fun r => match r with
    | (.ok a, x') => f a x'
    | (.error e, x') => .pure (.error e, x'))

instance : Monad (Proc C R ε S) where
  pure := Proc.pure
  bind := Proc.bind

/-- One call to the device. -/
def call (c : C) : Proc C R ε S (R c) := fun x => .call c (fun r => .pure (r, x))

/-- The result of a computation that may fail without a call. -/
def lift (r : Except ε α) : Proc C R ε S α := fun x => .pure (r, x)

/-- Run a process and go on with its result, an error included. -/
def attempt (m : Proc C R ε S α) : Proc C R ε S (Except ε α) := fun x => (m x).bind (fun r => .pure (.ok r.1, r.2))

/-- Read the memory. -/
def get : Proc C R ε S S := fun x => .pure (.ok x, x)

/-- Change the memory. -/
def modify (f : S → S) : Proc C R ε S Unit := fun x => .pure (.ok (), f x)

/-- Run a process over part of the memory. -/
def zoom {T : Type} (read : T → S) (write : S → T → T) (m : Proc C R ε S α) : Proc C R ε T α := fun t =>
  (m (read t)).bind (fun r => .pure (r.1, write r.2 t))

theorem get_bind (f : S → Proc C R ε S β) (x : S) : (Proc.get >>= f) x = f x x := rfl

end Proc

end Interaction
