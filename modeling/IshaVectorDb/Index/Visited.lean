import Mathlib.Data.List.Induction

/-!
# `Index.Visited` — **visited marks** that are cleared by counting

A traversal asks for each node it meets whether it has met it before. The marks are stamps: a node is marked when its
stamp is the present generation, and a new traversal clears them all by going on to the next generation. No stamp is
ever ahead of the generation (`Visited.behind`), so a generation never used before finds no stamp of its own; when the
counter is at its end the stamps are wiped and it starts over.

`seen_iff` is what the marks show after any sequence of calls.
-/

namespace IshaVectorDb.Index

/-- Which nodes a traversal has already seen. -/
structure Visited where
  stamp : List UInt32
  generation : UInt32
  behind : ∀ s ∈ stamp, s ≤ generation

namespace Visited

def default : Visited := ⟨[], 0, nofun⟩

/-- `Vec::resize` to at least so many stamps, new ones zero. -/
def grown (stamp : List UInt32) (len : Nat) : List UInt32 := stamp ++ List.replicate (len - stamp.length) 0

theorem grown_behind {stamp : List UInt32} {generation : UInt32} (h : ∀ s ∈ stamp, s ≤ generation) (len : Nat) :
    ∀ s ∈ grown stamp len, s ≤ generation := by
  intro s hs
  rcases List.mem_append.mp hs with hs | hs
  · exact h s hs
  · rw [List.eq_of_mem_replicate hs]
    exact UInt32.le_iff_toNat_le.mpr (Nat.zero_le _)

theorem lt_next {generation s : UInt32} (h : generation ≠ 0xFFFFFFFF) (hs : s ≤ generation) : s < generation + 1 := by
  have hlt := generation.toNat_lt
  have hne : generation.toNat ≠ 4294967295 := fun he => h (UInt32.toNat_inj.mp he)
  have hle := UInt32.le_iff_toNat_le.mp hs
  rw [UInt32.lt_iff_toNat_lt, UInt32.toNat_add, show (1 : UInt32).toNat = 1 from rfl]
  omega

/-- Start a fresh traversal over `len` nodes. -/
def begin (v : Visited) (len : Nat) : Visited :=
  if h : v.generation = 0xFFFFFFFF then
    ⟨(grown v.stamp len).map (fun _ => 0), 1, fun s hs => by
      obtain ⟨_, _, rfl⟩ := List.mem_map.mp hs
      exact UInt32.le_iff_toNat_le.mpr (Nat.zero_le _)⟩
  else
    ⟨grown v.stamp len, v.generation + 1, fun s hs => by
      exact UInt32.le_of_lt (lt_next h (grown_behind v.behind len s hs))⟩

/-- Mark `node` seen, returning whether it had already been seen this traversal. -/
def seen (v : Visited) (node : Nat) : Bool × Visited :=
  match v.stamp[node]? with
  | none => (true, v)
  | some slot =>
      if slot = v.generation then (true, v)
      else (false, ⟨v.stamp.set node v.generation, v.generation, fun s hs => by
        rcases List.mem_or_eq_of_mem_set hs with hs | rfl
        · exact v.behind s hs
        · exact UInt32.le_refl _⟩)

/-! ## What the marks show -/

/-- **The marks show a list**: of the nodes that have a stamp, those of the list are marked. -/
structure Shows (v : Visited) (range : Nat) (marked : List Nat) : Prop where
  length : v.stamp.length = range
  marks : ∀ i < range, v.stamp[i]? = some v.generation ↔ i ∈ marked

variable {v : Visited} {range : Nat} {marked : List Nat}

theorem default_shows : Shows default 0 [] := ⟨rfl, nofun⟩

theorem begin_length (v : Visited) (len : Nat) : (v.begin len).stamp.length = max v.stamp.length len := by
  have hgrown : (grown v.stamp len).length = max v.stamp.length len := by
    rw [grown, List.length_append, List.length_replicate]
    omega
  unfold begin
  split
  · rw [List.length_map]
    exact hgrown
  · exact hgrown

/-- Once a traversal has begun, no stamp is its generation, wherever the counter was. -/
theorem begin_fresh (v : Visited) (len : Nat) : ∀ s ∈ (v.begin len).stamp, s ≠ (v.begin len).generation := by
  intro s hs
  unfold begin at hs ⊢
  split at hs
  · rename_i hend
    obtain ⟨_, -, rfl⟩ := List.mem_map.mp hs
    rw [dif_pos hend]
    exact (by decide : (0 : UInt32) ≠ 1)
  · rename_i hend
    rw [dif_neg hend]
    exact UInt32.ne_of_lt (lt_next hend (grown_behind v.behind len s hs))

theorem begin_shows (v : Visited) (len : Nat) : Shows (v.begin len) (max v.stamp.length len) [] := by
  refine ⟨begin_length v len, fun i _ => ⟨fun h => ?_, nofun⟩⟩
  exact absurd rfl (begin_fresh v len _ (List.mem_of_getElem? h))

theorem seen_answer (h : Shows v range marked) (node : Nat) : (v.seen node).1 = true ↔ node ∈ marked ∨ range ≤ node := by
  unfold seen
  cases hslot : v.stamp[node]? with
  | none =>
    have hout := List.getElem?_eq_none_iff.mp hslot
    rw [h.length] at hout
    exact ⟨fun _ => .inr hout, fun _ => rfl⟩
  | some slot =>
    have hin := (List.getElem?_eq_some_iff.mp hslot).1
    rw [h.length] at hin
    have hmark := h.marks node hin
    rw [hslot, Option.some.injEq] at hmark
    dsimp only
    split
    · rename_i he
      exact ⟨fun _ => .inl (hmark.mp he), fun _ => rfl⟩
    · rename_i hne
      refine ⟨nofun, fun hor => ?_⟩
      rcases hor with hm | hout
      · exact absurd (hmark.mpr hm) hne
      · omega

theorem seen_shows (h : Shows v range marked) (node : Nat) : Shows (v.seen node).2 range (node :: marked) := by
  unfold seen
  cases hslot : v.stamp[node]? with
  | none =>
    have hout := List.getElem?_eq_none_iff.mp hslot
    rw [h.length] at hout
    refine ⟨h.length, fun i hi => ?_⟩
    rw [List.mem_cons, h.marks i hi]
    exact ⟨.inr, fun hor => hor.resolve_left (by omega)⟩
  | some slot =>
    have hin := (List.getElem?_eq_some_iff.mp hslot).1
    dsimp only
    split
    -- marked before: nothing changes
    · rename_i he
      refine ⟨h.length, fun i hi => ?_⟩
      rw [List.mem_cons, ← h.marks i hi]
      refine ⟨.inr, fun hor => hor.elim (fun heq => ?_) id⟩
      rw [heq, hslot, he]
    · refine ⟨(List.length_set ..).trans h.length, fun i hi => ?_⟩
      show (v.stamp.set node v.generation)[i]? = some v.generation ↔ _
      rw [List.getElem?_set, List.mem_cons, ← h.marks i hi]
      by_cases hi : node = i
      · rw [if_pos hi, if_pos hin]
        exact ⟨fun _ => .inl hi.symm, fun _ => rfl⟩
      · rw [if_neg hi]
        exact ⟨.inr, fun hor => hor.resolve_left (fun he => hi he.symm)⟩

/-! ## Any sequence of calls -/

inductive Call
  | begin (len : Nat)
  | seen (node : Nat)
deriving DecidableEq, Repr

namespace Call

/-- The nodes a call makes room for. -/
def len : Call → Nat
  | .begin len => len
  | .seen _ => 0

/-- The node a call asks for. -/
def node : Call → Option Nat
  | .begin _ => none
  | .seen node => some node

end Call

def step (v : Visited) : Call → Visited
  | .begin len => v.begin len
  | .seen node => (v.seen node).2

/-- The marks after a sequence of calls. -/
def run (calls : List Call) : Visited := calls.foldl step default

/-- The nodes asked for since the latest `begin`, the latest first. -/
def sinceBegin (calls : List Call) : List Nat := (calls.reverse.takeWhile (fun c => c.node.isSome)).filterMap Call.node

/-- The most nodes that any `begin` made room for: the marks never shrink. -/
def room (calls : List Call) : Nat := calls.foldl (fun most c => max most c.len) 0

/-- The length the latest `begin` was given. -/
def latest (calls : List Call) : Option Nat :=
  (calls.reverse.find? (fun c => c.node.isNone)).map Call.len

theorem run_concat (calls : List Call) (c : Call) : run (calls ++ [c]) = (run calls).step c := by
  rw [run, List.foldl_append, run]
  rfl

theorem room_concat (calls : List Call) (c : Call) : room (calls ++ [c]) = max (room calls) c.len := by
  rw [room, List.foldl_append, room]
  rfl

/-- **One call keeps what the marks show.** -/
theorem step_shows {calls : List Call} (h : Shows (run calls) (room calls) (sinceBegin calls)) (c : Call) :
    Shows (run (calls ++ [c])) (room (calls ++ [c])) (sinceBegin (calls ++ [c])) := by
  rw [run_concat, room_concat, sinceBegin, List.reverse_concat]
  cases c with
  | begin len =>
    have hnil : List.filterMap Call.node (List.takeWhile (fun c => c.node.isSome) (Call.begin len :: calls.reverse)) = [] := by
      rw [List.takeWhile_cons_of_neg (by simp [Call.node])]
      rfl
    rw [hnil, ← h.length]
    exact begin_shows (run calls) len
  | seen node =>
    have hcons : List.filterMap Call.node (List.takeWhile (fun c => c.node.isSome) (Call.seen node :: calls.reverse)) =
        node :: sinceBegin calls := by
      rw [List.takeWhile_cons_of_pos (by simp [Call.node]), List.filterMap_cons]
      rfl
    rw [hcons, show max (room calls) (Call.seen node).len = room calls from Nat.max_zero _]
    exact seen_shows h node

theorem run_shows (calls : List Call) : Shows (run calls) (room calls) (sinceBegin calls) := by
  induction calls using List.reverseRecOn with
  | nil => exact default_shows
  | append_singleton calls c ih => exact step_shows ih c

theorem latest_le_room (calls : List Call) {len : Nat} (h : latest calls = some len) : len ≤ room calls := by
  induction calls using List.reverseRecOn with
  | nil => cases h
  | append_singleton calls c ih =>
    rw [latest, List.reverse_concat, List.find?_cons] at h
    rw [room_concat]
    split at h
    · obtain rfl := Option.some.inj h
      exact Nat.le_max_right _ _
    · exact Nat.le_trans (ih h) (Nat.le_max_left _ _)

/-- **Marks survive the counter's wrap-around.** After any sequence of calls, however many traversals it began, asking for
    a node reports true exactly when it was asked for since the latest `begin` or has no stamp: the stamps are as many
    as the largest length begun with. For a node below the length of the latest `begin` this is the first case. -/
theorem seen_iff (calls : List Call) (node : Nat) :
    (((run calls).seen node).1 = true ↔ node ∈ sinceBegin calls ∨ room calls ≤ node) ∧
    ∀ len, latest calls = some len → node < len → (((run calls).seen node).1 = true ↔ node ∈ sinceBegin calls) := by
  have hanswer := seen_answer (run_shows calls) node
  refine ⟨hanswer, fun len hlen hlt => ?_⟩
  have hroom := latest_le_room calls hlen
  rw [hanswer]
  exact or_iff_left (by omega)

end Visited

end IshaVectorDb.Index
