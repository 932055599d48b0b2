import IshaVectorDb.Parsing.Reads

/-!
# `Parsing.RunsOut` — failing **because the input ends**, and what was read before that

`Torn` speaks of the beginnings of one encoding. Here the input is arbitrary: `RunsOut T p i` says that `p`
fails on `i` with a failure of the kind `T`, and the rules say where in a sequence of steps that can happen.
-/

namespace Parsing

variable {ε α β : Type}

/-- **`p` runs out on `i`**: it fails there, with a failure of the kind `T`. -/
def RunsOut (T : ε → Prop) (p : Parser ε α) (i : Input) : Prop := ∃ e, p i = .error e ∧ T e

namespace RunsOut

variable {T : ε → Prop}

/-- A sequence runs out in its first step, or behind what its first step read. -/
theorem bind_iff {p : Parser ε α} {f : α → Parser ε β} {i : Input} :
    RunsOut T (p >>= f) i ↔ RunsOut T p i ∨ ∃ a j, p i = .ok (a, j) ∧ RunsOut T (f a) j := by
  cases hp : p i with
  | error e =>
    have hb : (p >>= f) i = .error e := bind_of_error hp
    constructor
    · rintro ⟨e', he, hT⟩
      rw [hb] at he
      cases he
      exact .inl ⟨e, hp, hT⟩
    · rintro (⟨e', he, hT⟩ | ⟨a, j, ha, -⟩)
      · rw [hp] at he
        cases he
        exact ⟨e, hb, hT⟩
      · cases ha
  | ok r =>
    obtain ⟨a, j⟩ := r
    have hb : (p >>= f) i = f a j := bind_of_ok hp
    constructor
    · rintro ⟨e, he, hT⟩
      exact .inr ⟨a, j, rfl, e, hb.symm.trans he, hT⟩
    · rintro (⟨e, he, -⟩ | ⟨a', j', ha, e, he, hT⟩)
      · rw [hp] at he; cases he
      · cases ha
        exact ⟨e, hb.trans he, hT⟩

theorem not_pure {a : α} {i : Input} : ¬ RunsOut T (pure a : Parser ε α) i := by
  rintro ⟨e, he, -⟩; cases he

theorem fail_iff {e : ε} {i : Input} : RunsOut T (fail e : Parser ε α) i ↔ T e := by
  constructor
  · rintro ⟨e', he, hT⟩; cases he; exact hT
  · exact fun h => ⟨e, rfl, h⟩

/-- A last step that cannot run out is no place to run out in. -/
theorem bind_pure_iff {p : Parser ε α} {g : α → β} {i : Input} :
    RunsOut T (p >>= fun a => pure (g a)) i ↔ RunsOut T p i := by
  rw [bind_iff]
  exact ⟨fun h => h.elim id (fun ⟨_, _, _, h⟩ => absurd h not_pure), .inl⟩

theorem position_bind_iff {f : Nat → Parser ε β} {i : Input} :
    RunsOut T (position >>= f) i ↔ RunsOut T (f i.offset) i := Iff.rfl

end RunsOut

end Parsing
