import Mathlib.Data.List.Infix
import Mathlib.Algebra.Ring.Nat
import Mathlib.Data.List.TakeWhile
import Mathlib.Tactic.Common

/-!
# `Metering.Course` — what a computation does **between two checks** of its budget

A computation that no one can interrupt asks a budget from time to time whether to go on. Its `Course` is what it does
if it is never stopped: deeds and checks in their order, and how it ends. A budget stops it at the first check that
finds it cancelled, or charged more than its ceiling; so what is done under any budget is the first part of the course.

Two promises of a budget are then promises of the course. Once it is cancelled, however that falls between the deeds,
at most `K` more are done: this is so exactly if the course has at most `K` deeds between two checks (`prompt_iff`).
And whatever the ceiling is, a course that comes to its end has done at most so much: exactly if what its checks charge
covers it (`covered_iff`).
-/

namespace Metering

variable {W E A B : Type}

/-! ## Courses -/

/-- One thing that is done, or a check that charges so many. -/
inductive Item (W : Type)
  | deed (w : W)
  | check (n : Nat)

/-- **A course**: what a computation does if no check stops it, and how it ends, if it does. -/
structure Course (W E A : Type) where
  items : List (Item W)
  result : Option (Except E A)

namespace Course

instance : Monad (Course W E) where
  pure a := ⟨[], some (.ok a)⟩
  bind x f := match x.result with
    | some (.ok a) => ⟨x.items ++ (f a).items, (f a).result⟩
    | some (.error e) => ⟨x.items, some (.error e)⟩
    | none => ⟨x.items, none⟩

/-- Do these one after the other. -/
def deeds (ws : List W) : Course W E Unit := ⟨ws.map .deed, some (.ok ())⟩

/-- Charge so many, and see whether to go on. -/
def check (n : Nat) : Course W E Unit := ⟨[.check n], some (.ok ())⟩

/-- What may fail. -/
def checks (e : Except E A) : Course W E A := ⟨[], some e⟩

/-- What may have no end. -/
def reads (o : Option A) : Course W E A := ⟨[], o.map .ok⟩

section

variable {x : Course W E A} {f : A → Course W E B} {a : A}

theorem bind_items (h : x.result = some (.ok a)) : (x >>= f).items = x.items ++ (f a).items := by
  show (match x.result with | some (.ok a) => _ | some (.error e) => _ | none => _ : Course W E B).items = _
  rw [h]

theorem bind_result (h : x.result = some (.ok a)) : (x >>= f).result = (f a).result := by
  show (match x.result with | some (.ok a) => _ | some (.error e) => _ | none => _ : Course W E B).result = _
  rw [h]

theorem bind_error {e : E} (h : x.result = some (.error e)) : (x >>= f) = ⟨x.items, some (.error e)⟩ := by
  show (match x.result with | some (.ok a) => _ | some (.error e) => _ | none => _ : Course W E B) = _
  rw [h]

theorem bind_none (h : x.result = none) : (x >>= f) = ⟨x.items, none⟩ := by
  show (match x.result with | some (.ok a) => _ | some (.error e) => _ | none => _ : Course W E B) = _
  rw [h]

/-- What ends well has had a first part that did. -/
theorem of_bind_ok {b : B} (h : (x >>= f).result = some (.ok b)) :
    ∃ a, x.result = some (.ok a) ∧ (f a).result = some (.ok b) := by
  rcases hx : x.result with _ | e | a
  · rw [bind_none hx] at h; cases h
  · rw [bind_error hx] at h; cases h
  · exact ⟨a, rfl, by rwa [bind_result hx] at h⟩

end

end Course

/-! ## Budgets -/

/-- **A budget**: a ceiling, and the item before which it is cancelled. -/
structure Budget where
  most : Option Nat
  moment : Option Nat

namespace Budget

/-- Whether a check stops: the one that is item `i`, when so much is charged. -/
def stops (b : Budget) (i total : Nat) : Bool := b.moment.any (fun m => m ≤ i) || b.most.any (fun most => most < total)

variable (b : Budget)

/-- What is done of the items, from item `i` on, and what is charged then, unless a check has stopped it. -/
def walk : List (Item W) → Nat → Nat → List (Item W) × Option Nat
  | [], _, total => ([], some total)
  | .deed w :: rest, i, total => (.deed w :: (walk rest (i + 1) total).1, (walk rest (i + 1) total).2)
  | .check n :: rest, i, total =>
      if b.stops i (total + n) then ([.check n], none)
      else (.check n :: (walk rest (i + 1) (total + n)).1, (walk rest (i + 1) (total + n)).2)

end Budget

namespace Course

/-- What is done under a budget. -/
def done (b : Budget) (x : Course W E A) : List (Item W) := (b.walk x.items 0 0).1

/-- How a course ends under a budget that has been charged `total`, and what it is charged then; `cancelled` says that
    it was stopped. -/
def ending (cancelled : E) (b : Budget) (x : Course W E A) (total : Nat) : Option (Except E (A × Nat)) :=
  match (b.walk x.items 0 total).2 with
  | none => some (.error cancelled)
  | some total => x.result.map (fun r => r.map (fun a => (a, total)))

end Course

/-! ## Between two checks -/

def Item.isDeed : Item W → Bool
  | .deed _ => true
  | .check _ => false

/-- **At most `K` deeds** between two checks. -/
def Prompt (K : Nat) (items : List (Item W)) : Prop := ∀ l, l <:+: items → (∀ x ∈ l, x.isDeed = true) → l.length ≤ K

theorem Prompt.tail {K : Nat} {x : Item W} {items : List (Item W)} (h : Prompt K (x :: items)) : Prompt K items :=
  fun l hl => h l (hl.trans (List.suffix_cons x items).isInfix)

namespace Budget

variable {b : Budget} {m : Nat}

/-- Once cancelled, what is done is done before the next check. -/
theorem walk_late (hm : b.moment = some m) (items : List (Item W)) {i : Nat} (hi : m ≤ i) (total : Nat) :
    (b.walk items i total).1.countP Item.isDeed = (items.takeWhile Item.isDeed).length := by
  induction items generalizing i with
  | nil => rfl
  | cons x items ih =>
    cases x with
    | deed w =>
      unfold walk
      rw [List.countP_cons_of_pos rfl, ih (by omega), List.takeWhile_cons_of_pos rfl, List.length_cons]
    | check n =>
      have hstop : b.stops i (total + n) = true := by
        unfold stops
        rw [hm, Option.any_some, decide_eq_true hi, Bool.true_or]
      unfold walk
      rw [if_pos hstop, List.takeWhile_cons_of_neg Bool.false_ne_true]
      rfl

theorem walk_drop_le {K : Nat} (hm : b.moment = some m) (items : List (Item W)) (h : Prompt K items) (i total : Nat) :
    (((b.walk items i total).1.drop (m - i)).countP Item.isDeed) ≤ K := by
  induction items generalizing i total with
  | nil => rw [show (b.walk ([] : List (Item W)) i total).1 = [] from rfl, List.drop_nil]; exact Nat.zero_le _
  | cons x items ih =>
    rcases Nat.lt_or_ge i m with hi | hi
    · -- the budget is not cancelled yet
      have hdrop : ∀ (y : Item W) (l : List (Item W)), (y :: l).drop (m - i) = l.drop (m - (i + 1)) := by
        intro y l
        rw [show m - i = m - (i + 1) + 1 by omega, List.drop_succ_cons]
      cases x with
      | deed w =>
        unfold walk
        rw [hdrop]
        exact ih h.tail _ _
      | check n =>
        unfold walk
        split
        · rw [hdrop, List.drop_nil]
          exact Nat.zero_le _
        · rw [hdrop]
          exact ih h.tail _ _
    · rw [show m - i = 0 by omega, List.drop_zero, walk_late hm _ hi]
      refine h _ (List.takeWhile_prefix _).isInfix (fun y hy => ?_)
      exact List.mem_takeWhile_imp hy

/-- Nothing stops before the moment, if there is no ceiling. -/
theorem walk_before (s t : List (Item W)) (i total : Nat) : ∃ rest total',
    (walk ⟨none, some (i + s.length)⟩ (s ++ t) i total).1 = s ++ rest ∧
      rest = (walk ⟨none, some (i + s.length)⟩ t (i + s.length) total').1 := by
  induction s generalizing i total with
  | nil => exact ⟨_, total, rfl, rfl⟩
  | cons x s ih =>
    have hnext := ih (i + 1)
    rw [show i + 1 + s.length = i + (x :: s).length by rw [List.length_cons]; omega] at hnext
    rw [List.cons_append]
    cases x with
    | deed w =>
      obtain ⟨rest, total', hdone, hrest⟩ := hnext total
      refine ⟨rest, total', ?_, hrest⟩
      unfold walk
      rw [hdone, List.cons_append]
    | check n =>
      obtain ⟨rest, total', hdone, hrest⟩ := hnext (total + n)
      refine ⟨rest, total', ?_, hrest⟩
      unfold walk
      rw [if_neg, hdone, List.cons_append]
      simp [stops]

theorem walk_deeds {l : List (Item W)} (hl : ∀ x ∈ l, x.isDeed = true) (t : List (Item W)) (i total : Nat) :
    ∃ rest, (b.walk (l ++ t) i total).1 = l ++ rest := by
  induction l generalizing i with
  | nil => exact ⟨_, rfl⟩
  | cons x l ih =>
    obtain ⟨hx, hothers⟩ := List.forall_mem_cons.mp hl
    cases x with
    | deed w =>
      obtain ⟨rest, hrest⟩ := ih hothers (i + 1)
      refine ⟨rest, ?_⟩
      rw [List.cons_append, List.cons_append]
      unfold walk
      rw [hrest]
    | check n => cases hx

end Budget

/-- **Cancelled at any moment, at most `K` more deeds are done**, under whatever ceiling, exactly if there are at most
    `K` deeds between two checks. -/
theorem prompt_iff {x : Course W E A} {K : Nat} :
    (∀ most m, ((x.done ⟨most, some m⟩).drop m).countP Item.isDeed ≤ K) ↔ Prompt K x.items := by
  constructor
  · rintro h l ⟨s, t, hitems⟩ hl
    have hfew := h none s.length
    unfold Course.done at hfew
    rw [← hitems, List.append_assoc] at hfew
    obtain ⟨rest, total, hdone, hrest⟩ := Budget.walk_before s (l ++ t) 0 0
    rw [Nat.zero_add] at hdone hrest
    obtain ⟨behind, hbehind⟩ := Budget.walk_deeds (b := ⟨none, some s.length⟩) hl t s.length total
    rw [hdone, List.drop_left, hrest, hbehind, List.countP_append] at hfew
    have hall : l.countP Item.isDeed = l.length := List.countP_eq_length.mpr hl
    omega
  · intro h most m
    exact Budget.walk_drop_le rfl x.items h 0 0

/-! ## Ceilings -/

/-- What the checks charge. -/
def charges (items : List (Item W)) : Nat := (items.map (fun x => match x with | .deed _ => 0 | .check n => n)).sum

@[simp] theorem charges_nil : charges ([] : List (Item W)) = 0 := rfl

@[simp] theorem charges_deed (w : W) (items : List (Item W)) : charges (.deed w :: items) = charges items :=
  Nat.zero_add _

@[simp] theorem charges_check (n : Nat) (items : List (Item W)) : charges (.check n :: items) = n + charges items := rfl

theorem charges_append (s t : List (Item W)) : charges (s ++ t) = charges s + charges t := by
  unfold charges
  rw [List.map_append, List.sum_append]

theorem charges_deeds (ws : List W) : charges (ws.map Item.deed) = 0 := by
  induction ws with
  | nil => rfl
  | cons w ws ih => rw [List.map_cons, charges_deed, ih]

/-- **Only a ceiling below what is charged stops** a course that is not cancelled. -/
theorem walk_ends_iff {most : Nat} (items : List (Item W)) (i : Nat) {total : Nat} (htotal : total ≤ most) :
    (Budget.walk ⟨some most, none⟩ items i total).2.isSome ↔ total + charges items ≤ most := by
  induction items generalizing i total with
  | nil => exact ⟨fun _ => htotal, fun _ => rfl⟩
  | cons x items ih =>
    cases x with
    | deed w =>
      rw [charges_deed]
      exact ih (i + 1) htotal
    | check n =>
      rw [charges_check, ← Nat.add_assoc]
      unfold Budget.walk
      have hstops : Budget.stops ⟨some most, none⟩ i (total + n) = decide (most < total + n) := rfl
      rw [hstops]
      split
      · next hover =>
        have hover := of_decide_eq_true hover
        exact ⟨nofun, fun h => absurd h (by omega)⟩
      · next hunder => exact ih (i + 1) (by simpa using hunder)

/-- What is done to the end is the whole course. -/
theorem walk_whole {b : Budget} (items : List (Item W)) (i total : Nat) (h : (b.walk items i total).2.isSome) :
    (b.walk items i total).1 = items := by
  induction items generalizing i total with
  | nil => rfl
  | cons x items ih =>
    cases x with
    | deed w => exact congrArg _ (ih (i + 1) total h)
    | check n =>
      unfold Budget.walk at h ⊢
      split at h
      · cases h
      · next hgo =>
        rw [if_neg hgo]
        exact congrArg _ (ih (i + 1) (total + n) h)

/-- A budget that is cancelled as well stops no later. -/
theorem walk_ends_of_moment {most m : Option Nat} (items : List (Item W)) (i total : Nat)
    (h : (Budget.walk ⟨most, m⟩ items i total).2.isSome) : (Budget.walk ⟨most, none⟩ items i total).2.isSome := by
  induction items generalizing i total with
  | nil => rfl
  | cons x items ih =>
    cases x with
    | deed w => exact ih (i + 1) total h
    | check n =>
      unfold Budget.walk at h ⊢
      split at h
      · cases h
      · next hgo =>
        have hunder : ¬ Budget.stops ⟨most, none⟩ i (total + n) = true := by
          intro hstop
          apply hgo
          unfold Budget.stops at hstop ⊢
          rw [Option.any_none, Bool.false_or] at hstop
          rw [hstop, Bool.or_true]
        rw [if_neg hunder]
        exact ih (i + 1) (total + n) h

/-- **Under any ceiling that lets it come to its end, a course does at most so many of some deeds**, exactly if its
    checks charge as many. -/
theorem covered_iff {x : Course W E A} (p : Item W → Bool) :
    (∀ b : Budget, ∀ most, b.most = some most → (b.walk x.items 0 0).2.isSome → (x.done b).countP p ≤ most) ↔
      x.items.countP p ≤ charges x.items := by
  constructor
  · intro h
    have hends := (walk_ends_iff x.items 0 (Nat.zero_le (charges x.items))).mpr (Nat.zero_add _).le
    have hfew := h ⟨some (charges x.items), none⟩ _ rfl hends
    unfold Course.done at hfew
    rwa [walk_whole _ _ _ hends] at hfew
  · intro h b most hmost hends
    unfold Course.done
    rw [walk_whole _ _ _ hends]
    obtain ⟨most', m⟩ := b
    obtain rfl : most' = some most := hmost
    have hunder := (walk_ends_iff x.items 0 (Nat.zero_le most)).mp (walk_ends_of_moment _ _ _ hends)
    omega

/-! ## Runs of deeds -/

/-- At most `K` deeds between two checks, `n` having been done since the last. -/
def PromptFrom (K : Nat) : Nat → List (Item W) → Prop
  | _, [] => True
  | n, .deed _ :: rest => n + 1 ≤ K ∧ PromptFrom K (n + 1) rest
  | _, .check _ :: rest => PromptFrom K 0 rest

theorem promptFrom_iff {K : Nat} (items : List (Item W)) (n : Nat) (hn : n ≤ K) :
    PromptFrom K n items ↔ n + (items.takeWhile Item.isDeed).length ≤ K ∧ Prompt K items := by
  induction items generalizing n with
  | nil => exact ⟨fun _ => ⟨hn, fun l hl _ => by rw [List.infix_nil.mp hl]; exact Nat.zero_le _⟩, fun _ => trivial⟩
  | cons x items ih =>
    -- what begins with `x` and has no check is a part of the first run
    have hcons : Prompt K (x :: items) ↔ ((x :: items).takeWhile Item.isDeed).length ≤ K ∧ Prompt K items := by
      constructor
      · intro h
        exact ⟨h _ (List.takeWhile_prefix _).isInfix (fun y hy => List.mem_takeWhile_imp hy), h.tail⟩
      · rintro ⟨hfirst, hrest⟩ l hl hdeeds
        rcases List.infix_cons_iff.mp hl with hl | hl
        · have hwhole : l.takeWhile Item.isDeed = l := List.takeWhile_eq_self_iff.mpr hdeeds
          obtain ⟨t, ht⟩ := hl
          have hle : l.length ≤ ((x :: items).takeWhile Item.isDeed).length := by
            rw [← ht, List.takeWhile_append_of_pos hdeeds, List.length_append]
            exact Nat.le_add_right _ _
          exact hle.trans hfirst
        · exact hrest l hl hdeeds
    cases x with
    | deed w =>
      rw [hcons, List.takeWhile_cons_of_pos rfl, List.length_cons]
      show n + 1 ≤ K ∧ PromptFrom K (n + 1) items ↔ _
      constructor
      · rintro ⟨hlt, h⟩
        obtain ⟨hfirst, hrest⟩ := (ih (n + 1) hlt).mp h
        exact ⟨by omega, by omega, hrest⟩
      · rintro ⟨hfirst, -, hrest⟩
        exact ⟨by omega, (ih (n + 1) (by omega)).mpr ⟨by omega, hrest⟩⟩
    | check m =>
      rw [hcons, List.takeWhile_cons_of_neg Bool.false_ne_true, List.length_nil]
      show PromptFrom K 0 items ↔ _
      rw [ih 0 (Nat.zero_le _), Nat.zero_add]
      refine ⟨fun h => ⟨hn, Nat.zero_le _, h.2⟩, fun h => ⟨?_, h.2.2⟩⟩
      exact h.2.2 _ (List.takeWhile_prefix _).isInfix (fun y hy => List.mem_takeWhile_imp hy)

theorem prompt_iff_from {K : Nat} (items : List (Item W)) : Prompt K items ↔ PromptFrom K 0 items := by
  rw [promptFrom_iff items 0 (Nat.zero_le _), Nat.zero_add]
  exact ⟨fun h => ⟨h _ (List.takeWhile_prefix _).isInfix (fun y hy => List.mem_takeWhile_imp hy), h⟩, And.right⟩

/-- A check at the end is not missed. -/
theorem promptFrom_append_check {K : Nat} (items : List (Item W)) (n c : Nat) :
    PromptFrom K n (items ++ [.check c]) ↔ PromptFrom K n items := by
  induction items generalizing n with
  | nil => exact Iff.rfl
  | cons x items ih =>
    cases x with
    | deed w => exact and_congr_right fun _ => ih (n + 1)
    | check m => exact ih 0

/-! ## Budgets that do not change -/

/-- A budget that is cancelled from the beginning, or never. -/
def Budget.Constant (b : Budget) : Prop := ∀ i total, b.stops i total = b.stops 0 total

namespace Budget

variable {b : Budget}

theorem walk_shift (hb : b.Constant) (items : List (Item W)) (i total : Nat) :
    (b.walk items i total).2 = (b.walk items 0 total).2 := by
  induction items generalizing i total with
  | nil => rfl
  | cons x items ih =>
    cases x with
    | deed w =>
      show (b.walk items (i + 1) total).2 = (b.walk items (0 + 1) total).2
      rw [ih, ih (0 + 1)]
    | check n =>
      unfold walk
      rw [hb i]
      split
      · rfl
      · show (b.walk items (i + 1) (total + n)).2 = (b.walk items (0 + 1) (total + n)).2
        rw [ih, ih (0 + 1)]

theorem walk_append (hb : b.Constant) (s t : List (Item W)) (total : Nat) :
    (b.walk (s ++ t) 0 total).2 = (b.walk s 0 total).2.bind (fun total => (b.walk t 0 total).2) := by
  induction s generalizing total with
  | nil => rfl
  | cons x s ih =>
    cases x with
    | deed w =>
      show (b.walk (s ++ t) (0 + 1) total).2 = (b.walk s (0 + 1) total).2.bind _
      rw [walk_shift hb (s ++ t), ih, walk_shift hb s (0 + 1)]
    | check n =>
      simp only [List.cons_append, walk]
      split
      · rfl
      · show (b.walk (s ++ t) (0 + 1) (total + n)).2 = (b.walk s (0 + 1) (total + n)).2.bind _
        rw [walk_shift hb (s ++ t), ih, walk_shift hb s (0 + 1)]

end Budget

namespace Course

variable {cancelled : E} {b : Budget}

/-- **Under a budget that does not change, one course after the other** ends as the second does after the first. -/
theorem ending_bind (hb : b.Constant) (x : Course W E A) (f : A → Course W E B) (total : Nat) :
    (x >>= f).ending cancelled b total = (show ExceptT E Option (A × Nat) from x.ending cancelled b total) >>=
      fun r => (show ExceptT E Option (B × Nat) from (f r.1).ending cancelled b r.2) := by
  unfold ending
  rcases hx : x.result with _ | e | a
  · rw [bind_none hx]
    cases (b.walk x.items 0 total).2 <;> rfl
  · rw [bind_error hx]
    cases (b.walk x.items 0 total).2 <;> rfl
  · rw [bind_items hx, bind_result hx, Budget.walk_append hb]
    cases (b.walk x.items 0 total).2 <;> rfl

end Course

/-! ## What is not charged yet -/

/-- Whether a deed is one of those that are charged for. -/
def Item.counts (p : W → Bool) : Item W → Bool
  | .deed w => p w
  | .check _ => false

/-- **What a course leaves uncharged**: begun with `n` such deeds not charged yet, it comes to its end with a value and
    a number of them that are so. -/
def Owes (p : W → Bool) (n : Nat) (x : Course W E A) (Q : A → Nat → Prop) : Prop :=
  ∀ a, x.result = some (.ok a) → ∃ m, x.items.countP (Item.counts p) + n = charges x.items + m ∧ Q a m

namespace Owes

variable {p : W → Bool} {n : Nat} {Q : A → Nat → Prop} {R : B → Nat → Prop}

theorem pure {a : A} (h : Q a n) : Owes p n (Pure.pure a : Course W E A) Q := by
  intro a' ha
  obtain rfl : a = a' := Except.ok.inj (Option.some.inj ha)
  exact ⟨n, rfl, h⟩

theorem bind {x : Course W E A} {f : A → Course W E B} (hx : Owes p n x Q)
    (hf : ∀ a m, Q a m → Owes p m (f a) R) : Owes p n (x >>= f) R := by
  intro b hb
  obtain ⟨a, ha, hfa⟩ := Course.of_bind_ok hb
  obtain ⟨m, hm, hQ⟩ := hx a ha
  obtain ⟨m', hm', hR⟩ := hf a m hQ b hfa
  refine ⟨m', ?_, hR⟩
  rw [Course.bind_items ha, List.countP_append, charges_append]
  omega

theorem mono {x : Course W E A} {Q' : A → Nat → Prop} (hx : Owes p n x Q) (h : ∀ a m, Q a m → Q' a m) :
    Owes p n x Q' := fun a ha =>
  let ⟨m, hm, hQ⟩ := hx a ha
  ⟨m, hm, h a m hQ⟩

theorem deeds {ws : List W} : Owes p n (Course.deeds ws : Course W E Unit) (fun _ m => m = n + ws.countP p) := by
  intro _ _
  refine ⟨_, ?_, rfl⟩
  have hcount : (ws.map Item.deed).countP (Item.counts p) = ws.countP p := by
    rw [List.countP_map]; rfl
  have hcharges := charges_deeds ws
  show (ws.map Item.deed).countP (Item.counts p) + n = charges (ws.map Item.deed) + (n + ws.countP p)
  omega

theorem check {k : Nat} : Owes p (n + k) (Course.check k : Course W E Unit) (fun _ m => m = n) := by
  intro _ _
  refine ⟨n, ?_, rfl⟩
  show 0 + (n + k) = k + 0 + n
  omega

theorem checks {e : Except E A} : Owes p n (Course.checks e : Course W E A) (fun _ m => m = n) :=
  fun _ _ => ⟨n, rfl, rfl⟩

theorem reads {o : Option A} : Owes p n (Course.reads o : Course W E A) (fun a m => o = some a ∧ m = n) := by
  intro a ha
  obtain ⟨a', ho, ha'⟩ := Option.map_eq_some_iff.mp ha
  obtain rfl := Except.ok.inj ha'
  exact ⟨n, rfl, ho, rfl⟩

/-- What one step of a fold leaves uncharged for the next, the fold leaves in the end. -/
theorem foldlM {C : Type} {f : A → C → Course W E A} (I : A → Nat)
    (hstep : ∀ a c, Owes p (I a) (f a c) (fun a' m => m = I a')) (items : List C) (a : A) :
    Owes p (I a) (items.foldlM f a) (fun a' m => m = I a') := by
  induction items generalizing a with
  | nil => exact .pure rfl
  | cons c items ih =>
    rw [List.foldlM_cons]
    refine (hstep a c).bind fun a' m hm => ?_
    subst hm
    exact ih a'

end Owes

end Metering
