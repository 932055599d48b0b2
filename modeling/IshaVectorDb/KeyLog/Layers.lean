import IshaVectorDb.KeyLog.Log
import Mathlib.Data.List.Pairwise

/-!
# `KeyLog.Layers` — a map spread over layers

A store often keeps its contents in several layers and looks a key up in the newest one that has it. When the
layers are **apart** — no key in two of them — the order does not matter and the stack is simply their union
(`stack_eq_some`); hiding keys in some layers hides them in the stack and changes nothing else.
-/

namespace KeyLog

variable {K V : Type}

/-- Look a key up in the last layer that has it. -/
def stack : List (Contents K V) → Contents K V
  | [] => fun _ => none
  | L :: rest => fun k => (stack rest k).or (L k)

/-- No key is in both. -/
def Apart (A B : Contents K V) : Prop := ∀ k, A k = none ∨ B k = none

/-- No key is in two layers. -/
def Separate (layers : List (Contents K V)) : Prop := layers.Pairwise Apart

/-- `A` is `B` with some of the keys that satisfy `P` taken away. -/
def Trims (P : K → Prop) (A B : Contents K V) : Prop := ∀ k, A k = B k ∨ (A k = none ∧ P k)

theorem Apart.symm {A B : Contents K V} (h : Apart A B) : Apart B A := fun k => (h k).symm

theorem Trims.refl (P : K → Prop) (A : Contents K V) : Trims P A A := fun _ => .inl rfl

theorem Trims.trans {P : K → Prop} {A B C : Contents K V} (h : Trims P A B) (h' : Trims P B C) : Trims P A C := by
  intro k
  rcases h k with hk | ⟨hk, hp⟩
  · rcases h' k with hk' | ⟨hk', hp⟩
    · exact .inl (hk.trans hk')
    · exact .inr ⟨hk.trans hk', hp⟩
  · exact .inr ⟨hk, hp⟩

theorem Trims.mono {P Q : K → Prop} {A B : Contents K V} (h : Trims P A B) (hpq : ∀ k, P k → Q k) : Trims Q A B :=
  fun k => (h k).imp id (fun hk => ⟨hk.1, hpq k hk.2⟩)

theorem Trims.none_of_none {P : K → Prop} {A B : Contents K V} (h : Trims P A B) {k : K} (hk : B k = none) :
    A k = none := by
  rcases h k with he | ⟨he, -⟩
  · rw [he, hk]
  · exact he

theorem Apart.trims {P : K → Prop} {A B A' B' : Contents K V} (h : Apart A B) (hA : Trims P A' A)
    (hB : Trims P B' B) : Apart A' B' := fun k => (h k).imp hA.none_of_none hB.none_of_none

@[simp] theorem stack_nil (k : K) : stack ([] : List (Contents K V)) k = none := rfl

@[simp] theorem stack_cons (L : Contents K V) (rest : List (Contents K V)) (k : K) :
    stack (L :: rest) k = (stack rest k).or (L k) := rfl

theorem stack_append (xs ys : List (Contents K V)) (k : K) :
    stack (xs ++ ys) k = (stack ys k).or (stack xs k) := by
  induction xs with
  | nil => simp
  | cons L xs ih => rw [List.cons_append, stack_cons, stack_cons, ih, Option.or_assoc]

theorem stack_eq_none {layers : List (Contents K V)} {k : K} :
    stack layers k = none ↔ ∀ L ∈ layers, L k = none := by
  induction layers with
  | nil => simp
  | cons L layers ih => rw [stack_cons, Option.or_eq_none_iff, ih, List.forall_mem_cons, and_comm]

theorem mem_of_stack {layers : List (Contents K V)} {k : K} {v : V} (h : stack layers k = some v) :
    ∃ L ∈ layers, L k = some v := by
  induction layers with
  | nil => cases h
  | cons L layers ih =>
    rw [stack_cons, Option.or_eq_some_iff] at h
    rcases h with h | ⟨-, h⟩
    · obtain ⟨L', hL', hk⟩ := ih h
      exact ⟨L', List.mem_cons_of_mem _ hL', hk⟩
    · exact ⟨L, List.mem_cons_self, h⟩

/-- **A separate stack is the union of its layers.** -/
theorem stack_eq_some {layers : List (Contents K V)} (hs : Separate layers) {k : K} {v : V} :
    stack layers k = some v ↔ ∃ L ∈ layers, L k = some v := by
  refine ⟨mem_of_stack, ?_⟩
  induction layers with
  | nil => rintro ⟨L, hL, -⟩; cases hL
  | cons L layers ih =>
    obtain ⟨hL, hs⟩ := List.pairwise_cons.mp hs
    rintro ⟨L', hL', hk⟩
    rw [stack_cons]
    rcases List.mem_cons.mp hL' with rfl | hmem
    · have hnone : stack layers k = none := stack_eq_none.mpr (fun L'' h'' => (hL L'' h'' k).resolve_left
        (by rw [hk]; exact Option.some_ne_none v))
      rw [hnone, hk]; rfl
    · rw [ih hs ⟨L', hmem, hk⟩]; rfl

/-- The order of separate layers does not matter. -/
theorem stack_perm {xs ys : List (Contents K V)} (hs : Separate xs) (h : xs.Perm ys) : stack xs = stack ys := by
  have hs' : Separate ys := hs.perm h (fun h => h.symm)
  funext k
  cases hk : stack ys k with
  | none =>
    rw [stack_eq_none] at hk ⊢
    exact fun L hL => hk L (h.mem_iff.mp hL)
  | some v =>
    obtain ⟨L, hL, hv⟩ := mem_of_stack hk
    exact (stack_eq_some hs).mpr ⟨L, h.mem_iff.mpr hL, hv⟩

theorem exists_of_forall₂ {α β : Type} {R : α → β → Prop} {xs : List α} {ys : List β} (h : List.Forall₂ R xs ys)
    {a : α} (ha : a ∈ xs) : ∃ b ∈ ys, R a b := by
  induction h with
  | nil => cases ha
  | cons hab _ ih =>
    rcases List.mem_cons.mp ha with rfl | ha
    · exact ⟨_, List.mem_cons_self, hab⟩
    · obtain ⟨b, hb, hR⟩ := ih ha
      exact ⟨b, List.mem_cons_of_mem _ hb, hR⟩

/-- **Trimming layers trims the stack** and keeps the layers apart. -/
theorem trims_stack {P : K → Prop} {xs ys : List (Contents K V)} (h : List.Forall₂ (Trims P) xs ys)
    (hs : Separate ys) : Separate xs ∧ Trims P (stack xs) (stack ys) := by
  induction h with
  | nil => exact ⟨List.Pairwise.nil, fun _ => .inl rfl⟩
  | @cons A B xs ys hAB hrest ih =>
    obtain ⟨hB, hs⟩ := List.pairwise_cons.mp hs
    obtain ⟨hsep, htrim⟩ := ih hs
    constructor
    · refine List.pairwise_cons.mpr ⟨fun A' hA' => ?_, hsep⟩
      obtain ⟨B', hB', hA'B'⟩ := exists_of_forall₂ hrest hA'
      exact (hB B' hB').trims hAB hA'B'
    · intro k
      rw [stack_cons, stack_cons]
      rcases htrim k with hk | ⟨hk, hp⟩
      · rcases hAB k with ha | ⟨ha, hp⟩
        · exact .inl (by rw [hk, ha])
        · cases hy : stack ys k with
          | none => exact .inr ⟨by rw [hk, ha, hy]; rfl, hp⟩
          | some v => exact .inl (by rw [hk, hy]; rfl)
      · cases hy : stack ys k with
        | none =>
          rcases hAB k with ha | ⟨ha, -⟩
          · exact .inl (by rw [hk, ha])
          · exact .inr ⟨by rw [hk, ha]; rfl, hp⟩
        | some v =>
          -- the key was in a later layer, so it is not in this one
          obtain ⟨L, hL, hv⟩ := mem_of_stack hy
          have hBk : B k = none := (hB L hL k).resolve_right (by rw [hv]; exact Option.some_ne_none v)
          exact .inr ⟨by rw [hk, hAB.none_of_none hBk]; rfl, hp⟩

end KeyLog
