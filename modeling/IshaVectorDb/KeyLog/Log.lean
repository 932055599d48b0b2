import Mathlib.Logic.Function.Basic
import Mathlib.Data.List.Basic
import Mathlib.Data.List.Induction

/-!
# `KeyLog.Log` — maps from keys to values and logs of writes over them

A log is a list of writes, each to one key. `replay_apply` says what a replay leaves: the last write to a key
where the log **names** it, what was there before where it does not. The rest follows from that: what lies
below a log matters only off the keys the log names (`replay_congr`), a log may be replayed twice
(`replay_replay`), and so may any part of it whose keys the rest does not name (`replay_replay_prefix`).
`livePuts` lists what a log leaves **in the order of the last writes**.
-/

namespace KeyLog

variable {K V : Type} [DecidableEq K]

/-- What a store holds. -/
abbrev Contents (K V : Type) := K → Option V

/-- One write. -/
inductive Op (K V : Type)
  | put (k : K) (v : V)
  | del (k : K)

namespace Op

def key : Op K V → K
  | put k _ => k
  | del k => k

/-- What the write leaves at its key. -/
def value : Op K V → Option V
  | put _ v => some v
  | del _ => none

/-- Whether the write puts a value. -/
def isPut : Op K V → Bool
  | put _ _ => true
  | del _ => false

/-- Carry out one write. -/
def apply (M : Contents K V) (op : Op K V) : Contents K V := Function.update M op.key op.value

@[simp] theorem apply_key (M : Contents K V) (op : Op K V) : op.apply M op.key = op.value :=
  Function.update_self _ _ _

theorem apply_ne (M : Contents K V) {op : Op K V} {k : K} (h : k ≠ op.key) : op.apply M k = M k :=
  Function.update_of_ne h _ _

end Op

/-- Carry out a log from the front. -/
def replay (M : Contents K V) (ops : List (Op K V)) : Contents K V := ops.foldl Op.apply M

/-- The last word of a log on a key, if it says anything. -/
def verdict (ops : List (Op K V)) (k : K) : Option (Option V) :=
  (ops.reverse.find? (fun op => op.key = k)).map Op.value

/-- The log writes to the key. -/
def Named (ops : List (Op K V)) (k : K) : Prop := ∃ op ∈ ops, op.key = k

@[simp] theorem replay_nil (M : Contents K V) : replay M [] = M := rfl

@[simp] theorem replay_cons (M : Contents K V) (op : Op K V) (ops : List (Op K V)) :
    replay M (op :: ops) = replay (op.apply M) ops := rfl

theorem replay_append (M : Contents K V) (xs ys : List (Op K V)) :
    replay M (xs ++ ys) = replay (replay M xs) ys := List.foldl_append

theorem replay_concat (M : Contents K V) (ops : List (Op K V)) (op : Op K V) :
    replay M (ops ++ [op]) = op.apply (replay M ops) := by rw [replay_append]; rfl

@[simp] theorem verdict_nil (k : K) : verdict ([] : List (Op K V)) k = none := rfl

theorem verdict_concat (ops : List (Op K V)) (op : Op K V) (k : K) :
    verdict (ops ++ [op]) k = if op.key = k then some op.value else verdict ops k := by
  unfold verdict
  rw [List.reverse_concat, List.find?_cons]
  by_cases h : op.key = k <;> simp [h]

theorem named_iff_verdict {ops : List (Op K V)} {k : K} : Named ops k ↔ (verdict ops k).isSome = true := by
  unfold verdict Named
  rw [Option.isSome_map, List.find?_isSome]
  simp

theorem verdict_eq_none {ops : List (Op K V)} {k : K} (h : ¬ Named ops k) : verdict ops k = none := by
  rw [named_iff_verdict, Option.isSome_iff_ne_none, not_not] at h; exact h

/-- A log that says a key holds a value puts it there. -/
theorem put_mem_of_verdict {ops : List (Op K V)} {k : K} {v : V} (h : verdict ops k = some (some v)) :
    Op.put k v ∈ ops := by
  unfold verdict at h
  obtain ⟨op, hfind, hval⟩ := Option.map_eq_some_iff.mp h
  have hkey : op.key = k := by simpa using List.find?_some hfind
  have hmem := List.mem_reverse.mp (List.mem_of_find?_eq_some hfind)
  cases op with
  | put k' v' =>
    obtain rfl := Option.some.inj hval
    obtain rfl : k' = k := hkey
    exact hmem
  | del k' => cases hval

/-- **What a replay leaves.** -/
theorem replay_apply (M : Contents K V) (ops : List (Op K V)) (k : K) :
    replay M ops k = (verdict ops k).getD (M k) := by
  induction ops using List.reverseRecOn with
  | nil => rfl
  | append_singleton ops op ih =>
    rw [replay_concat, verdict_concat]
    by_cases h : op.key = k
    · subst h; rw [if_pos rfl, Op.apply_key]; rfl
    · rw [if_neg h, Op.apply_ne _ (fun hk => h hk.symm)]; exact ih

theorem replay_of_not_named {M : Contents K V} {ops : List (Op K V)} {k : K} (h : ¬ Named ops k) :
    replay M ops k = M k := by rw [replay_apply, verdict_eq_none h]; rfl

/-- **Below a log only the keys it does not name matter.** -/
theorem replay_congr {M N : Contents K V} {ops : List (Op K V)} (h : ∀ k, ¬ Named ops k → M k = N k) :
    replay M ops = replay N ops := by
  funext k
  rw [replay_apply, replay_apply]
  by_cases hk : Named ops k
  · obtain ⟨v, hv⟩ := Option.isSome_iff_exists.mp (named_iff_verdict.mp hk)
    rw [hv]; rfl
  · rw [h k hk]

/-- A prefix of a log may be replayed over the result when the rest does not name its keys. -/
theorem replay_replay_prefix {M : Contents K V} {xs ys : List (Op K V)}
    (h : ∀ k, Named xs k → ¬ Named ys k) : replay (replay M (xs ++ ys)) xs = replay M (xs ++ ys) := by
  funext k
  by_cases hk : Named xs k
  · obtain ⟨v, hv⟩ := Option.isSome_iff_exists.mp (named_iff_verdict.mp hk)
    rw [replay_append, replay_of_not_named (h k hk), replay_apply _ xs, replay_apply M xs, hv]; rfl
  · exact replay_of_not_named hk

/-- **A log may be replayed twice.** -/
theorem replay_replay (M : Contents K V) (ops : List (Op K V)) :
    replay (replay M ops) ops = replay M ops := by
  have h : replay (replay M (ops ++ [])) ops = replay M (ops ++ []) := replay_replay_prefix
    (fun _ _ hn => by obtain ⟨op, hop, -⟩ := hn; cases hop)
  rwa [List.append_nil] at h

/-! ## What a log leaves, in the order of the last writes -/

/-- What one write makes of the pairs a log has left: the key's older pair goes, a new one comes last. -/
def Op.arrange (pairs : List (K × V)) (op : Op K V) : List (K × V) :=
  pairs.filter (fun p => p.1 ≠ op.key) ++ (op.value.map (fun v => (op.key, v))).toList

/-- The keys a log leaves a value at, each once, with its value, in the order of their last writes. -/
def livePuts (ops : List (Op K V)) : List (K × V) := ops.foldl Op.arrange []

theorem livePuts_concat (ops : List (Op K V)) (op : Op K V) :
    livePuts (ops ++ [op]) = op.arrange (livePuts ops) := by
  unfold livePuts; rw [List.foldl_append]; rfl

theorem mem_arrange {pairs : List (K × V)} {op : Op K V} {k : K} {v : V} :
    (k, v) ∈ op.arrange pairs ↔ if op.key = k then op.value = some v else (k, v) ∈ pairs := by
  unfold Op.arrange
  rw [List.mem_append, List.mem_filter, Option.mem_toList, Option.map_eq_some_iff]
  by_cases h : op.key = k
  · subst h
    simp
  · rw [if_neg h]
    have hne : k ≠ op.key := fun hk => h hk.symm
    simp [h, hne]

/-- **A pair is left exactly when the log's last word on its key is its value.** -/
theorem mem_livePuts {ops : List (Op K V)} {k : K} {v : V} :
    (k, v) ∈ livePuts ops ↔ verdict ops k = some (some v) := by
  induction ops using List.reverseRecOn with
  | nil => exact ⟨nofun, nofun⟩
  | append_singleton ops op ih =>
    rw [livePuts_concat, mem_arrange, verdict_concat]
    by_cases h : op.key = k
    · rw [if_pos h, if_pos h, Option.some.injEq]
    · rw [if_neg h, if_neg h]; exact ih

theorem mem_livePuts_keys {ops : List (Op K V)} {k : K} :
    k ∈ (livePuts ops).map Prod.fst ↔ ∃ v, verdict ops k = some (some v) := by
  rw [List.mem_map]
  constructor
  · rintro ⟨⟨k', v⟩, hmem, rfl⟩; exact ⟨v, mem_livePuts.mp hmem⟩
  · rintro ⟨v, hv⟩; exact ⟨(k, v), mem_livePuts.mpr hv, rfl⟩

/-- **A relation between the keys goes through a log**: what one write needs is that the keys left by the
    writes before it, itself apart, stand before it. -/
theorem arrange_pairwise {r : K → K → Prop} {pairs : List (K × V)} {op : Op K V}
    (h : ((pairs.filter (fun p => p.1 ≠ op.key)).map Prod.fst).Pairwise r)
    (hlast : ∀ p ∈ pairs, p.1 ≠ op.key → op.value.isSome = true → r p.1 op.key) :
    ((op.arrange pairs).map Prod.fst).Pairwise r := by
  unfold Op.arrange
  rw [List.map_append, List.pairwise_append]
  refine ⟨h, ?_, ?_⟩
  · cases op.value with
    | none => exact List.Pairwise.nil
    | some v => exact List.pairwise_singleton _ _
  · intro a ha b hb
    obtain ⟨p, hp, rfl⟩ := List.mem_map.mp ha
    rw [List.mem_filter, decide_eq_true_eq] at hp
    cases hv : op.value with
    | none => rw [hv] at hb; cases hb
    | some v =>
      rw [hv] at hb
      obtain rfl : b = op.key := by simpa using hb
      exact hlast p hp.1 hp.2 (by rw [hv]; rfl)

/-- Each key is left once. -/
theorem livePuts_nodup (ops : List (Op K V)) : ((livePuts ops).map Prod.fst).Nodup := by
  induction ops using List.reverseRecOn with
  | nil => exact List.nodup_nil
  | append_singleton ops op ih =>
    rw [livePuts_concat]
    exact arrange_pairwise ((List.filter_sublist.map Prod.fst).nodup ih) (fun _ _ hne _ => hne)

end KeyLog
