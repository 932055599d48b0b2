import IshaVectorDb.Beam.Search

/-!
# `Beam.Marked` — a search that keeps its **marks** elsewhere

A search asks of each node whether it was seen. `Beam.Search` answers from the list of the nodes seen; a search in place
answers from marks of its own that outlive it, cleared when the next one begins. A `Marking` is any such marks that show
the list they stand for. `searchMarked_eq` says that a search finds the same nodes with the same scores in the same order
whatever marks it starts with: what earlier searches left behind does not matter.
-/

namespace Beam

variable {N S V α β γ δ : Type}

/-! ## Two computations that fail together -/

section Rel

variable {r : α → β → Prop} {s : γ → δ → Prop}

theorem rel_refl (x : Option α) : Option.Rel Eq x x := by
  cases x with
  | none => exact .none
  | some a => exact .some rfl

theorem rel_bind {x : Option α} {y : Option β} {f : α → Option γ} {g : β → Option δ} (h : Option.Rel r x y)
    (hfg : ∀ a b, r a b → Option.Rel s (f a) (g b)) : Option.Rel s (x.bind f) (y.bind g) := by
  cases h with
  | none => exact .none
  | some hab => exact hfg _ _ hab

theorem rel_foldlM {f : α → γ → Option α} {g : β → γ → Option β} (hstep : ∀ a b c, r a b → Option.Rel r (f a c) (g b c))
    (items : List γ) {a : α} {b : β} (h : r a b) : Option.Rel r (items.foldlM f a) (items.foldlM g b) := by
  induction items generalizing a b with
  | nil => exact .some h
  | cons c items ih =>
    rw [List.foldlM_cons, List.foldlM_cons]
    exact rel_bind (hstep a b c h) (fun _ _ h' => ih h')

/-- What agrees wherever it does not fail is equal. -/
theorem rel_eq {x : Option α} {y : Option β} {f : α → γ} {g : β → γ} (h : Option.Rel (fun a b => f a = g b) x y) :
    x.map f = y.map g := by
  cases h with
  | none => rfl
  | some hab => exact congrArg some hab

end Rel

/-- **Marks for the nodes of a graph**: beginning clears them, asking for a node marks it. `shows v nodes` says that
    the marks are those nodes'. -/
structure Marking (V N : Type) [DecidableEq N] (has : N → Bool) where
  begin : V → V
  seen : V → N → Bool × V
  shows : V → List N → Prop
  begin_shows : ∀ v, shows (begin v) []
  seen_answer : ∀ {v nodes n}, shows v nodes → has n = true → (seen v n).1 = nodes.contains n
  seen_old : ∀ {v nodes n}, shows v nodes → has n = true → n ∈ nodes → shows (seen v n).2 nodes
  seen_new : ∀ {v nodes n}, shows v nodes → has n = true → n ∉ nodes → shows (seen v n).2 (n :: nodes)

/-- How far a search with marks has come. -/
structure MarkedProgress (V N S : Type) where
  visited : V
  frontier : List (Scored N S)
  results : List (Scored N S)

section Search

variable [DecidableEq N] (h : Heaps N S) (g : Space N S) (m : Marking V N g.has) (ef : Nat)

/-- Take up an entry, unless it is marked. -/
def enterMarked (q : MarkedProgress V N S) (entry : N) : Option (MarkedProgress V N S) :=
  if !g.has entry then some q
  else
    let (before, visited) := m.seen q.visited entry
    if before then some { q with visited := visited }
    else do
      let score ← g.score entry
      return ⟨visited, h.frontier.push q.frontier ⟨score, entry⟩, h.results.push q.results ⟨score, entry⟩⟩

/-- Score a neighbour not marked before, and keep it if it is among the best. -/
def visitMarked (q : MarkedProgress V N S) (n : N) : Option (MarkedProgress V N S) :=
  if !g.has n then some q
  else
    let (before, visited) := m.seen q.visited n
    if before then some { q with visited := visited }
    else do
      let score ← g.score n
      if q.results.length < ef || (h.results.peek q.results).any (fun worst => g.gt score worst.score) then
        return ⟨visited, h.frontier.push q.frontier ⟨score, n⟩, keepBest h ef (h.results.push q.results ⟨score, n⟩)⟩
      else return { q with visited := visited }

/-- Expand the best node left, until there is none or none can improve the result. -/
def loopMarked : Nat → MarkedProgress V N S → Option (MarkedProgress V N S)
  | 0, _ => none
  | fuel + 1, q => match h.frontier.pop q.frontier with
    | none => some q
    | some (current, rest) =>
        if ef ≤ q.results.length && (h.results.peek q.results).any (fun worst => g.gt worst.score current.score) then
          some { q with frontier := rest }
        else do
          let q ← (g.neighbours current.node).foldlM (visitMarked h g m ef) { q with frontier := rest }
          loopMarked fuel q

/-- **The beam search with marks**: what it found, best first, and the marks as it leaves them. -/
def searchMarked (fuel : Nat) (entries : List N) (visited : V) : Option (List (Scored N S) × V) := do
  let q ← entries.foldlM (enterMarked h g m) ⟨m.begin visited, [], []⟩
  let q ← loopMarked h g m ef fuel q
  return (h.sort q.results, q.visited)

end Search

/-! ## The marks do not matter -/

/-- **The two searches side by side**: the marks show what was seen, and the queues are the same. -/
structure Alongside [DecidableEq N] {has : N → Bool} (m : Marking V N has) (p : Progress N S)
    (q : MarkedProgress V N S) : Prop where
  shows : m.shows q.visited p.seen
  frontier : q.frontier = p.frontier
  results : q.results = p.results

section Sim

variable [DecidableEq N] {h : Heaps N S} {g : Space N S} {m : Marking V N g.has} {ef : Nat} {p : Progress N S}
  {q : MarkedProgress V N S}

theorem enterMarked_alongside (n : N) (hpq : Alongside m p q) :
    Option.Rel (Alongside m) (enter h g p n) (enterMarked h g m q n) := by
  unfold enter enterMarked
  cases hhas : g.has n with
  | false => exact .some hpq
  | true =>
    have hanswer := m.seen_answer hpq.shows hhas
    simp only [Bool.not_true, Bool.false_or, Bool.false_eq_true, if_false, hanswer, List.contains_iff_mem]
    by_cases hmem : n ∈ p.seen
    · rw [if_pos hmem, if_pos hmem]
      exact .some ⟨m.seen_old hpq.shows hhas hmem, hpq.frontier, hpq.results⟩
    · rw [if_neg hmem, if_neg hmem, hpq.frontier, hpq.results]
      cases g.score n with
      | none => exact .none
      | some s => exact .some ⟨m.seen_new hpq.shows hhas hmem, rfl, rfl⟩

theorem visitMarked_alongside (n : N) (hpq : Alongside m p q) :
    Option.Rel (Alongside m) (visit h g ef p n) (visitMarked h g m ef q n) := by
  unfold visit visitMarked
  cases hhas : g.has n with
  | false => exact .some hpq
  | true =>
    have hanswer := m.seen_answer hpq.shows hhas
    simp only [Bool.not_true, Bool.false_or, Bool.false_eq_true, if_false, hanswer, List.contains_iff_mem]
    by_cases hmem : n ∈ p.seen
    · rw [if_pos hmem, if_pos hmem]
      exact .some ⟨m.seen_old hpq.shows hhas hmem, hpq.frontier, hpq.results⟩
    · have hnew := m.seen_new hpq.shows hhas hmem
      rw [if_neg hmem, if_neg hmem, hpq.frontier, hpq.results]
      cases g.score n with
      | none => exact .none
      | some s =>
        simp only [Option.bind_eq_bind, Option.bind_some]
        split
        · exact .some ⟨hnew, rfl, rfl⟩
        · exact .some ⟨hnew, rfl, rfl⟩

/-- Both loops go the same way, for as long as either goes. -/
theorem loopMarked_alongside (fuel : Nat) (hpq : Alongside m p q) :
    Option.Rel (Alongside m) (loop h g ef fuel p) (loopMarked h g m ef fuel q) := by
  induction fuel generalizing p q with
  | zero => exact .none
  | succ fuel ih =>
    unfold loop loopMarked
    rw [hpq.frontier]
    cases h.frontier.pop p.frontier with
    | none => exact .some hpq
    | some popped =>
      obtain ⟨current, rest⟩ := popped
      dsimp only
      unfold settled
      rw [hpq.results]
      split
      · exact .some ⟨hpq.shows, rfl, rfl⟩
      · exact rel_bind (rel_foldlM (fun _ _ n h' => visitMarked_alongside n h') _ ⟨hpq.shows, rfl, rfl⟩)
          (fun _ _ h' => ih h')

variable (h g m ef) in
/-- **A search does not depend on the marks it starts with.** -/
theorem searchMarked_eq (fuel : Nat) (entries : List N) (visited : V) :
    (searchMarked h g m ef fuel entries visited).map Prod.fst = search h g ef fuel entries := by
  have hstart : Alongside m (⟨[], [], []⟩ : Progress N S) ⟨m.begin visited, [], []⟩ :=
    ⟨m.begin_shows visited, rfl, rfl⟩
  have hsame : Option.Rel (fun found marked => found = Prod.fst marked) (search h g ef fuel entries)
      (searchMarked h g m ef fuel entries visited) := by
    rw [search_eq]
    refine rel_bind (rel_foldlM (fun _ _ n h' => enterMarked_alongside n h') entries hstart) (fun p q hpq => ?_)
    refine rel_bind (loopMarked_alongside fuel hpq) (fun p' q' hpq' => ?_)
    exact .some (congrArg h.sort hpq'.results.symm)
  rw [← rel_eq hsame, Option.map_id']

end Sim

end Beam
