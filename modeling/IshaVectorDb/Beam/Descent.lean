import IshaVectorDb.Beam.Search
import Mathlib.Logic.Relation
import Mathlib.Order.Lattice

/-!
# `Beam.Descent` — **greedy descent** to a node without a better neighbour

A round looks at the neighbours of the node it started from, and moves to each that is better than the best so far; the
descent ends with the first round that moves nowhere. Every move makes the score better, so no node is started from
twice, and a descent ends within as many rounds as there are nodes (`descend_spec`). Where it ends no neighbour is
better (`descend_peak`).
-/

namespace Beam

variable {N S : Type}

/-- One round: the best of the current node and these, and whether any was better. -/
def improve (g : Space N S) : Scored N S → Bool → List N → Option (Scored N S × Bool)
  | current, improved, [] => some (current, improved)
  | current, improved, n :: rest => do
      let score ← g.score n
      if g.gt score current.score then improve g ⟨score, n⟩ true rest else improve g current improved rest

/-- Rounds until one improves nothing. -/
def descend (g : Space N S) : Nat → Scored N S → Option (Scored N S)
  | 0, _ => none
  | fuel + 1, current => do
      let (next, improved) ← improve g current false (g.neighbours current.node)
      if improved then descend g fuel next else return next

/-- **A strict order** on scores: none is better than itself. Some may not compare at all. -/
structure Strict (gt : S → S → Bool) : Prop where
  irrefl : ∀ a, gt a a = false
  trans : ∀ a b c, gt a b = true → gt b c = true → gt a c = true

/-- A linear order is one. -/
theorem strict_of_linearOrder [LinearOrder S] : Strict (fun a b : S => decide (b < a)) := by
  refine ⟨fun a => decide_eq_false (lt_irrefl a), fun a b c hab hbc => decide_eq_true ?_⟩
  exact lt_trans (of_decide_eq_true hbc) (of_decide_eq_true hab)

/-- A set of nodes with scores that the neighbours never leave, whether they are nodes or not. -/
structure Sealed (g : Space N S) (within : N → Prop) : Prop where
  scored : ∀ n, within n → ∃ s, g.score n = some s
  step : ∀ a, within a → ∀ b ∈ g.neighbours a, within b

theorem Sealed.closed {g : Space N S} {within : N → Prop} (h : Sealed g within) : Closed g within :=
  ⟨h.scored, fun a ha b hb _ => h.step a ha b hb⟩

/-- A node of the set, with its own score. -/
structure At (g : Space N S) (within : N → Prop) (c : Scored N S) : Prop where
  inside : within c.node
  score : g.score c.node = some c.score

section Rounds

variable {g : Space N S} {current next start r : Scored N S} {improved now : Bool} {nodes : List N}

/-- **No look at a neighbour lowers the score**: a round stays where it is, or moves to a better node. -/
theorem improve_rises (hgt : Strict g.gt) (h : improve g current improved nodes = some (next, now)) :
    next = current ∧ now = improved ∨ now = true ∧ g.gt next.score current.score = true := by
  induction nodes generalizing current improved with
  | nil =>
    obtain ⟨rfl, rfl⟩ := Prod.mk.inj (Option.some.inj h)
    exact .inl ⟨rfl, rfl⟩
  | cons n nodes ih =>
    unfold improve at h
    obtain ⟨s, hs, h⟩ := Option.bind_eq_some_iff.mp h
    split at h
    · rename_i hbetter
      rcases ih h with ⟨rfl, rfl⟩ | ⟨rfl, hgreater⟩
      · exact .inr ⟨rfl, hbetter⟩
      · exact .inr ⟨rfl, hgt.trans _ _ _ hgreater hbetter⟩
    · exact ih h

/-- A round that has moved says so. -/
theorem improve_moved (h : improve g current true nodes = some (next, now)) : now = true := by
  induction nodes generalizing current with
  | nil => exact (Prod.mk.inj (Option.some.inj h)).2.symm
  | cons n nodes ih =>
    unfold improve at h
    obtain ⟨s, hs, h⟩ := Option.bind_eq_some_iff.mp h
    split at h
    · exact ih h
    · exact ih h

/-- **A round that moves nowhere** has found no better node. -/
theorem improve_still (h : improve g current false nodes = some (next, false)) :
    next = current ∧ ∀ n ∈ nodes, ∀ s, g.score n = some s → g.gt s current.score = false := by
  induction nodes with
  | nil => exact ⟨(Prod.mk.inj (Option.some.inj h)).1.symm, nofun⟩
  | cons n nodes ih =>
    unfold improve at h
    obtain ⟨s, hs, h⟩ := Option.bind_eq_some_iff.mp h
    split at h
    · cases improve_moved h
    · rename_i hbetter
      obtain ⟨rfl, hrest⟩ := ih h
      refine ⟨rfl, List.forall_mem_cons.mpr ⟨fun s' hs' => ?_, hrest⟩⟩
      rw [hs] at hs'
      obtain rfl := Option.some.inj hs'
      exact Bool.eq_false_iff.mpr hbetter

/-- One round moves from a node to another. -/
def Moves (g : Space N S) (a b : Scored N S) : Prop := improve g a false (g.neighbours a.node) = some (b, true)

/-- Rounds come to no lower score. -/
theorem higher_of_path (hgt : Strict g.gt) (h : Relation.ReflTransGen (Moves g) start r) :
    r = start ∨ g.gt r.score start.score = true := by
  induction h with
  | refl => exact .inl rfl
  | @tail a b hpath hmove ih =>
    rcases improve_rises hgt hmove with ⟨-, hflag⟩ | ⟨-, hgreater⟩
    · cases hflag
    · rcases ih with rfl | hless
      · exact .inr hgreater
      · exact .inr (hgt.trans _ _ _ hgreater hless)

/-- **What a descent does**: it comes by rounds to a node without a better neighbour, and wherever a round has got to,
    the score is not lower than where the round started. -/
structure Peak (g : Space N S) (start r : Scored N S) : Prop where
  path : Relation.ReflTransGen (Moves g) start r
  higher : r = start ∨ g.gt r.score start.score = true
  rises : ∀ a, Relation.ReflTransGen (Moves g) start a → ∀ nodes, nodes <+: g.neighbours a.node →
    ∀ b now, improve g a false nodes = some (b, now) → b = a ∨ g.gt b.score a.score = true
  best : ∀ n ∈ g.neighbours r.node, ∀ s, g.score n = some s → g.gt s r.score = false

/-- **A descent that ends** ends at a peak. -/
theorem descend_peak (hgt : Strict g.gt) {fuel : Nat} (h : descend g fuel start = some r) : Peak g start r := by
  suffices hend : Relation.ReflTransGen (Moves g) start r ∧
      ∀ n ∈ g.neighbours r.node, ∀ s, g.score n = some s → g.gt s r.score = false by
    refine ⟨hend.1, higher_of_path hgt hend.1, fun a _ nodes _ b now hrun => ?_, hend.2⟩
    rcases improve_rises hgt hrun with ⟨hsame, -⟩ | ⟨-, hgreater⟩
    · exact .inl hsame
    · exact .inr hgreater
  induction fuel generalizing start with
  | zero => cases h
  | succ fuel ih =>
    unfold descend at h
    obtain ⟨⟨next, improved⟩, hround, h⟩ := Option.bind_eq_some_iff.mp h
    cases improved with
    | true =>
      obtain ⟨hpath, hbest⟩ := ih h
      exact ⟨.head hround hpath, hbest⟩
    | false =>
      obtain rfl : next = r := Option.some.inj h
      obtain ⟨rfl, hbest⟩ := improve_still hround
      exact ⟨.refl, hbest⟩

end Rounds

section Spec

variable {g : Space N S} {within : N → Prop}

/-- **A round** ends at a node of the set, at the one it started from or at a better one. -/
theorem improve_spec (hgt : Strict g.gt) (hg : Sealed g within) (nodes : List N) (hn : ∀ n ∈ nodes, within n)
    {current : Scored N S} (hc : At g within current) (improved : Bool) :
    ∃ next now, improve g current improved nodes = some (next, now) ∧ At g within next ∧
      (next = current ∧ now = improved ∨ now = true ∧ g.gt next.score current.score = true) := by
  suffices hruns : ∃ next now, improve g current improved nodes = some (next, now) ∧ At g within next by
    obtain ⟨next, now, hrun, hat⟩ := hruns
    exact ⟨next, now, hrun, hat, improve_rises hgt hrun⟩
  induction nodes generalizing current improved with
  | nil => exact ⟨current, improved, rfl, hc⟩
  | cons n nodes ih =>
    obtain ⟨hhead, hrest⟩ := List.forall_mem_cons.mp hn
    obtain ⟨s, hs⟩ := hg.scored n hhead
    unfold improve
    simp only [hs, Option.bind_eq_bind, Option.bind_some]
    split
    · exact ih hrest (⟨hhead, hs⟩ : At g within ⟨s, n⟩) true
    · exact ih hrest hc improved

/-- **A descent ends** within as many rounds as there are nodes; `passed` are those it came from, all of them worse. -/
theorem descend_from (hgt : Strict g.gt) (hg : Sealed g within) {total : Nat}
    (hroom : ∀ l : List N, l.Nodup → (∀ a ∈ l, within a) → l.length ≤ total) (fuel : Nat) {current : Scored N S}
    (hc : At g within current) {passed : List N} (hnd : passed.Nodup)
    (hpassed : ∀ a ∈ passed, within a ∧ ∃ s, g.score a = some s ∧ g.gt current.score s = true)
    (hfuel : total ≤ passed.length + fuel) : ∃ r, descend g fuel current = some r ∧ At g within r := by
  have hfresh : (current.node :: passed).Nodup := by
    refine List.nodup_cons.mpr ⟨fun hmem => ?_, hnd⟩
    obtain ⟨-, s, hs, hworse⟩ := hpassed _ hmem
    rw [hc.score] at hs
    rw [← Option.some.inj hs, hgt.irrefl] at hworse
    cases hworse
  have hfew := hroom (current.node :: passed) hfresh
    (List.forall_mem_cons.mpr ⟨hc.inside, fun a ha => (hpassed a ha).1⟩)
  rw [List.length_cons] at hfew
  induction fuel generalizing current passed with
  | zero => omega
  | succ fuel ih =>
    obtain ⟨next, now, hround, hat, hcase⟩ :=
      improve_spec hgt hg (g.neighbours current.node) (hg.step _ hc.inside) hc false
    unfold descend
    simp only [hround, Option.bind_eq_bind, Option.bind_some]
    rcases hcase with ⟨rfl, rfl⟩ | ⟨rfl, hbetter⟩
    · exact ⟨next, rfl, hat⟩
    · -- everything passed, and the node started from, is worse than where the round ended
      have hworse : ∀ a ∈ current.node :: passed, within a ∧ ∃ s, g.score a = some s ∧ g.gt next.score s = true := by
        refine List.forall_mem_cons.mpr ⟨⟨hc.inside, current.score, hc.score, hbetter⟩, fun a ha => ?_⟩
        obtain ⟨hin, s, hs, hless⟩ := hpassed a ha
        exact ⟨hin, s, hs, hgt.trans _ _ _ hbetter hless⟩
      have hnext : (next.node :: current.node :: passed).Nodup := by
        refine List.nodup_cons.mpr ⟨fun hmem => ?_, hfresh⟩
        obtain ⟨-, s, hs, hless⟩ := hworse _ hmem
        rw [hat.score] at hs
        rw [← Option.some.inj hs, hgt.irrefl] at hless
        cases hless
      have hfew' := hroom _ hnext (List.forall_mem_cons.mpr ⟨hat.inside, fun a ha => (hworse a ha).1⟩)
      refine ih hat hfresh hworse (by rw [List.length_cons]; omega) hnext ?_
      rw [List.length_cons] at hfew'
      exact hfew'

theorem descend_spec (hgt : Strict g.gt) (hg : Sealed g within) {total : Nat}
    (hroom : ∀ l : List N, l.Nodup → (∀ a ∈ l, within a) → l.length ≤ total) {fuel : Nat} (hfuel : total ≤ fuel)
    {current : Scored N S} (hc : At g within current) : ∃ r, descend g fuel current = some r ∧ At g within r :=
  descend_from hgt hg hroom fuel hc List.nodup_nil nofun (by rw [List.length_nil]; omega)

end Spec

end Beam
