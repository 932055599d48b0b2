import IshaVectorDb.Interaction.Faults

/-!
# `Interaction.Keeps` — what a process keeps, **whatever its calls answer**

`Prog.Outcome p a` says that the program `p` can end with `a` when each of its calls may be answered in any way at all;
every run is one of these ways, on every device (`outcome_run`) and under every accident that the process outlives
(`outcome_runWith`). `Keeps P m G` is the judgement about all of them: a process `m` that starts in a memory of which `P`
holds ends in one of which `P` holds, and what it answers satisfies `G`. A process that holds nothing but its own
arguments keeps everything; one that works on part of a memory keeps what does not depend on that part (`zoom_apart`).
`Lands m x Q` is the weaker judgement about the ways that succeed, where a process that fails may leave its memory half changed,
and `Calm P m` the one about a process that makes no call.
-/

namespace Interaction

variable {C : Type} {R : C → Type} {ε σ S T α β : Type}

namespace Prog

/-- The program can end with `a`. -/
def Outcome : Prog C R ε α → α → Prop
  | .pure b, a => b = a
  | .call _ k, a => ∃ r, Outcome (k r) a

theorem outcome_bind {p : Prog C R ε α} {f : α → Prog C R ε β} {b : β} (h : (p.bind f).Outcome b) :
    ∃ a, p.Outcome a ∧ (f a).Outcome b := by
  induction p with
  | pure a => exact ⟨a, rfl, h⟩
  | call c k ih =>
    obtain ⟨r, hr⟩ := h
    obtain ⟨a, ha, hb⟩ := ih r hr
    exact ⟨a, ⟨r, ha⟩, hb⟩

theorem outcome_bind_of {p : Prog C R ε α} {f : α → Prog C R ε β} {a : α} {b : β} (ha : p.Outcome a)
    (hb : (f a).Outcome b) : (p.bind f).Outcome b := by
  induction p with
  | pure a' =>
    obtain rfl : a' = a := ha
    exact hb
  | call c k ih =>
    obtain ⟨r, hr⟩ := ha
    exact ⟨r, ih r hr⟩

/-- The end of a run is an outcome. -/
theorem outcome_run (D : Device C R ε σ) (p : Prog C R ε α) (s : σ) : p.Outcome (p.run D s).1 := by
  induction p generalizing s with
  | pure a => rfl
  | call c k ih => exact ⟨_, ih _ _⟩

/-- The end of a run under a fault is an outcome, if the process lives to it. -/
theorem outcome_runWith (D : Device C R ε σ) (p : Prog C R ε α) (s : σ) (fault : Fault ε) :
    ∀ a, (p.runWith D s fault).1 = some a → p.Outcome a := by
  induction p generalizing s fault with
  | pure b =>
    intro a h
    rw [runWith_pure] at h
    exact Option.some.inj h
  | call c k ih =>
    intro a h
    cases fault with
    | none => exact ⟨_, ih _ _ .none a h⟩
    | fail i e n =>
      cases i with
      | zero => exact ⟨_, ih _ _ .none a h⟩
      | succ i => exact ⟨_, ih _ _ (.fail i e n) a h⟩
    | die i n =>
      cases i with
      | zero => cases h
      | succ i => exact ⟨_, ih _ _ (.die i n) a h⟩

end Prog

/-- One process after another that succeeded. -/
theorem Proc.outcome_bind_of {m : Proc C R ε S α} {f : α → Proc C R ε S β} {x y : S} {a : α} {r : Except ε β × S}
    (hm : (m x).Outcome (.ok a, y)) (hf : (f a y).Outcome r) : ((m >>= f) x).Outcome r :=
  Prog.outcome_bind_of hm hf

/-- **The process keeps `P`**, and what it answers satisfies `G`. -/
def Keeps (P : S → Prop) (m : Proc C R ε S α) (G : α → Prop) : Prop :=
  ∀ x, P x → ∀ r, (m x).Outcome r → P r.2 ∧ ∀ a, r.1 = .ok a → G a

namespace Keeps

variable {P : S → Prop} {G G' : α → Prop} {H : β → Prop}

theorem mono {m : Proc C R ε S α} (h : Keeps P m G) (hG : ∀ a, G a → G' a) : Keeps P m G' :=
  fun x hx r hr => ⟨(h x hx r hr).1, fun a ha => hG a ((h x hx r hr).2 a ha)⟩

/-- Nothing need be said of the answer. -/
theorem any {m : Proc C R ε S α} (h : Keeps P m G) : Keeps P m (fun _ => True) := h.mono (fun _ _ => trivial)

/-! ## Steps -/

theorem pure {a : α} (h : G a) : Keeps P (Pure.pure a : Proc C R ε S α) G := by
  rintro x hx r rfl
  exact ⟨hx, fun b hb => Except.ok.inj hb ▸ h⟩

theorem throw (e : ε) : Keeps P (Proc.throw e : Proc C R ε S α) G := by
  rintro x hx r rfl
  exact ⟨hx, nofun⟩

theorem lift {v : Except ε α} (h : ∀ a, v = .ok a → G a) : Keeps P (Proc.lift v : Proc C R ε S α) G := by
  rintro x hx r rfl
  exact ⟨hx, h⟩

theorem get : Keeps P (Proc.get : Proc C R ε S S) P := by
  rintro x hx r rfl
  exact ⟨hx, fun a ha => Except.ok.inj ha ▸ hx⟩

theorem modify {f : S → S} (h : ∀ x, P x → P (f x)) :
    Keeps P (Proc.modify f : Proc C R ε S Unit) (fun _ => True) := by
  rintro x hx r rfl
  exact ⟨h x hx, fun _ _ => trivial⟩

theorem call (c : C) : Keeps P (Proc.call c : Proc C R ε S (R c)) (fun _ => True) := by
  rintro x hx r ⟨v, rfl⟩
  exact ⟨hx, fun _ _ => trivial⟩

/-! ## Sequencing -/

/-- **A sequence keeps what its parts keep**, the second for whatever the first may answer. -/
theorem bind {m : Proc C R ε S α} {f : α → Proc C R ε S β} (h : Keeps P m G) (hf : ∀ a, G a → Keeps P (f a) H) :
    Keeps P (m >>= f) H := by
  intro x hx r hr
  obtain ⟨⟨v, x'⟩, hm, hrest⟩ := Prog.outcome_bind hr
  obtain ⟨hx', hv⟩ := h x hx _ hm
  cases v with
  | ok a => exact hf a (hv a rfl) x' hx' r hrest
  | error e =>
    obtain rfl : (.error e, x') = r := hrest
    exact ⟨hx', nofun⟩

/-- A first part of whose answer nothing is known. -/
theorem next {m : Proc C R ε S α} {f : α → Proc C R ε S β} (h : Keeps P m (fun _ => True)) (hf : ∀ a, Keeps P (f a) H) :
    Keeps P (m >>= f) H := bind h (fun a _ => hf a)

theorem ite {c : Prop} [Decidable c] {m m' : Proc C R ε S α} (h : c → Keeps P m G) (h' : ¬ c → Keeps P m' G) :
    Keeps P (if c then m else m') G := by
  split
  · exact h ‹_›
  · exact h' ‹_›

/-- Trying a process keeps what it keeps. -/
theorem attempt {m : Proc C R ε S α} (h : Keeps P m G) : Keeps P (Proc.attempt m) (fun _ => True) := by
  intro x hx r hr
  obtain ⟨v, hm, hr⟩ := Prog.outcome_bind hr
  obtain rfl : (.ok v.1, v.2) = r := hr
  exact ⟨(h x hx v hm).1, fun _ _ => trivial⟩

/-- **Work on a part of the memory** keeps `P` if what it keeps of the part is enough for `P`. -/
theorem zoom {read : T → S} {write : S → T → T} {m : Proc C R ε S α} {Q : T → Prop} (h : Keeps P m G)
    (hread : ∀ t, Q t → P (read t)) (hwrite : ∀ x t, P x → Q t → Q (write x t)) : Keeps Q (Proc.zoom read write m) G := by
  intro t ht r hr
  obtain ⟨v, hm, hr⟩ := Prog.outcome_bind hr
  obtain rfl : (v.1, write v.2 t) = r := hr
  obtain ⟨hx, hv⟩ := h _ (hread t ht) v hm
  exact ⟨hwrite v.2 t hx ht, hv⟩

/-- Work on a part of the memory that `P` does not depend on. -/
theorem zoom_apart {read : T → S} {write : S → T → T} {m : Proc C R ε S α} {Q : T → Prop}
    (hwrite : ∀ x t, Q t → Q (write x t)) : Keeps Q (Proc.zoom read write m) (fun _ => True) := by
  intro t ht r hr
  obtain ⟨v, -, hr⟩ := Prog.outcome_bind hr
  obtain rfl : (v.1, write v.2 t) = r := hr
  exact ⟨hwrite v.2 t ht, fun _ _ => trivial⟩

/-! ## Walking a list -/

theorem forList {f : β → Proc C R ε S Unit} (l : List β) (h : ∀ b ∈ l, Keeps P (f b) (fun _ => True)) :
    Keeps P (Proc.forList f l) (fun _ => True) := by
  induction l with
  | nil => exact pure trivial
  | cons b l ih =>
    obtain ⟨hb, hl⟩ := List.forall_mem_cons.mp h
    exact next hb (fun _ => ih hl)

theorem mapList {f : β → Proc C R ε S α} (l : List β) (h : ∀ b ∈ l, Keeps P (f b) G) :
    Keeps P (Proc.mapList f l) (fun as => ∀ a ∈ as, G a) := by
  induction l with
  | nil => exact pure nofun
  | cons b l ih =>
    obtain ⟨hb, hl⟩ := List.forall_mem_cons.mp h
    exact bind hb (fun a ha => bind (ih hl) (fun as has => pure (List.forall_mem_cons.mpr ⟨ha, has⟩)))

/-- What is said of what each step returns is said of all of it, in order. -/
theorem mapList_map {κ : Type} {f : β → Proc C R ε S α} {key : β → κ} {answer : α → κ} (l : List β)
    (h : ∀ b, Keeps P (f b) (answer · = key b)) : Keeps P (Proc.mapList f l) (fun as => as.map answer = l.map key) := by
  induction l with
  | nil => exact pure rfl
  | cons b l ih => exact bind (h b) (fun a ha => bind ih (fun as has => pure (congrArg₂ List.cons ha has)))

/-- **Changing a list in place** keeps what each change keeps of its element. -/
theorem iterMut {f : Proc C R ε S α} (h : Keeps P f G) :
    Keeps (fun l : List S => ∀ x ∈ l, P x) (Proc.iterMut f) (fun _ => True) := by
  intro l
  induction l with
  | nil =>
    rintro - r rfl
    exact ⟨nofun, fun _ _ => trivial⟩
  | cons x l ih =>
    intro hl r hr
    obtain ⟨hx, hrest⟩ := List.forall_mem_cons.mp hl
    obtain ⟨⟨v, x'⟩, hm, hr⟩ := Prog.outcome_bind hr
    obtain ⟨hx', -⟩ := h x hx _ hm
    cases v with
    | error e =>
      obtain rfl : (.error e, x' :: l) = r := hr
      exact ⟨List.forall_mem_cons.mpr ⟨hx', hrest⟩, nofun⟩
    | ok a =>
      obtain ⟨w, hw, hr⟩ := Prog.outcome_bind hr
      obtain rfl : (w.1.map (a :: ·), x' :: w.2) = r := hr
      exact ⟨List.forall_mem_cons.mpr ⟨hx', (ih hrest w hw).1⟩, fun _ _ => trivial⟩

/-- **Changing a list in place** leaves each element what each change leaves it: what is said of the new elements and of what
    the changes return is said in the same order. -/
theorem iterMut_map {κ : Type} {f : Proc C R ε S α} {key : S → κ} {answer : α → κ}
    (h : ∀ k, Keeps (key · = k) f (answer · = k)) (ks : List κ) :
    Keeps (fun l : List S => l.map key = ks) (Proc.iterMut f) (fun as => as.map answer = ks) := by
  intro l
  induction l generalizing ks with
  | nil =>
    rintro rfl r rfl
    refine ⟨rfl, fun as has => ?_⟩
    obtain rfl := Except.ok.inj has
    rfl
  | cons x l ih =>
    rintro rfl r hr
    obtain ⟨⟨v, x'⟩, hm, hr⟩ := Prog.outcome_bind hr
    obtain ⟨hx', hv⟩ := h (key x) x rfl _ hm
    have hx' : key x' = key x := hx'
    cases v with
    | error e =>
      obtain rfl : (.error e, x' :: l) = r := hr
      exact ⟨congrArg (· :: l.map key) hx', fun _ has => by cases has⟩
    | ok a =>
      obtain ⟨w, hw, hr⟩ := Prog.outcome_bind hr
      obtain rfl : (w.1.map (a :: ·), x' :: w.2) = r := hr
      obtain ⟨hl, has⟩ := ih _ rfl w hw
      refine ⟨congrArg₂ List.cons hx' hl, fun as has' => ?_⟩
      cases hw1 : w.1 with
      | error e =>
        rw [hw1] at has'
        cases has'
      | ok as' =>
        rw [hw1] at has'
        obtain rfl := Except.ok.inj has'
        exact congrArg₂ List.cons (hv a rfl) (has as' hw1)

/-! ## Runs -/

/-- What a run ends with. -/
theorem run {m : Proc C R ε S α} (h : Keeps P m G) (D : Device C R ε σ) {x : S} (hx : P x) (s : σ) :
    P ((m x).run D s).1.2 ∧ ∀ a, ((m x).run D s).1.1 = .ok a → G a := h x hx _ (Prog.outcome_run D (m x) s)

end Keeps

/-! ## Processes that succeed -/

/-- Where the process succeeds, whatever its calls answer, it leaves a memory and returns a value that satisfy `Q`. -/
def Lands (m : Proc C R ε S α) (x : S) (Q : α → S → Prop) : Prop := ∀ a x', (m x).Outcome (.ok a, x') → Q a x'

namespace Lands

variable {x : S} {Q : α → S → Prop} {H : β → S → Prop}

theorem of_keeps {P : S → Prop} {m : Proc C R ε S α} {G : α → Prop} (h : Keeps P m G) (hx : P x) :
    Lands m x (fun a x' => P x' ∧ G a) := fun a _ hout => ⟨(h x hx _ hout).1, (h x hx _ hout).2 a rfl⟩

theorem mono {m : Proc C R ε S α} {Q' : α → S → Prop} (h : Lands m x Q) (hQ : ∀ a x', Q a x' → Q' a x') : Lands m x Q' :=
  fun a x' hout => hQ a x' (h a x' hout)

theorem pure {a : α} (h : Q a x) : Lands (Pure.pure a : Proc C R ε S α) x Q := by
  intro b x' hout
  obtain ⟨hb, rfl⟩ := Prod.mk.inj hout
  obtain rfl := Except.ok.inj hb
  exact h

theorem modify {f : S → S} {Q : Unit → S → Prop} (h : Q () (f x)) : Lands (Proc.modify f : Proc C R ε S Unit) x Q := by
  intro b x' hout
  obtain ⟨-, rfl⟩ := Prod.mk.inj hout
  exact h

/-- A process that does not succeed. -/
theorem throw {e : ε} : Lands (Proc.throw e : Proc C R ε S α) x Q := fun _ _ hout => by cases (Prod.mk.inj hout).1

/-- **A sequence** succeeds where its second part does after its first. -/
theorem bind {m : Proc C R ε S α} {f : α → Proc C R ε S β} (h : Lands m x (fun a x' => Lands (f a) x' H)) :
    Lands (m >>= f) x H := by
  intro b x' hout
  obtain ⟨⟨r, x1⟩, hm, hf⟩ := Prog.outcome_bind hout
  cases r with
  | ok a => exact h a x1 hm b x' hf
  | error e => cases (Prod.mk.inj hf).1

/-- A part that leaves the memory alone. -/
theorem past {m : Proc C R ε S α} {G : α → Prop} {f : α → Proc C R ε S β} (hm : Keeps (· = x) m G)
    (hf : ∀ a, G a → Lands (f a) x H) : Lands (m >>= f) x H := by
  refine bind ((of_keeps hm rfl).mono fun a x' ha => ?_)
  obtain ⟨rfl, hG⟩ := ha
  exact hf a hG

/-- Reading the memory first. -/
theorem get_bind {f : S → Proc C R ε S β} (h : Lands (f x) x H) : Lands (Proc.get >>= f) x H := h

/-- A computation without a call first. -/
theorem lift_bind {r : Except ε α} {f : α → Proc C R ε S β} (h : ∀ a, r = .ok a → Lands (f a) x H) :
    Lands (Proc.lift r >>= f) x H := by
  cases r with
  | ok a => exact h a rfl
  | error e => exact fun _ _ hout => by cases (Prod.mk.inj hout).1

theorem ite {p : Prop} [Decidable p] {m m' : Proc C R ε S α} (h : p → Lands m x Q) (h' : ¬ p → Lands m' x Q) :
    Lands (if p then m else m') x Q := by
  split
  · rename_i hp; exact h hp
  · rename_i hp; exact h' hp

/-- Part of the memory. -/
theorem zoom {read : T → S} {write : S → T → T} {m : Proc C R ε S α} {t : T} {Q : α → T → Prop}
    (h : Lands m (read t) (fun a x' => Q a (write x' t))) : Lands (Proc.zoom read write m) t Q := by
  intro a t' hout
  obtain ⟨⟨r, x'⟩, hm, heq⟩ := Prog.outcome_bind hout
  obtain ⟨rfl, rfl⟩ := Prod.mk.inj (show (r, write x' t) = (Except.ok a, t') from heq)
  exact h a x' hm

/-- What a run that succeeded ended with. -/
theorem of_run {m : Proc C R ε S α} (h : Lands m x Q) {D : Device C R ε σ} {s s' : σ} {a : α} {x' : S}
    (hrun : (m x).run D s = ((.ok a, x'), s')) : Q a x' := by
  refine h a x' ?_
  have hout := Prog.outcome_run D (m x) s
  rw [hrun] at hout
  exact hout

end Lands

/-! ## Processes that make no call -/

/-- The process does not succeed without a call. -/
def Speaks (m : Proc C R ε S α) : Prop := ∀ x a x', m x ≠ .pure (.ok a, x')

/-- Where the process makes no call, `P` is kept. -/
def Calm (P : S → Prop) (m : Proc C R ε S α) : Prop := ∀ x, P x → ∀ r x', m x = .pure (r, x') → P x'

theorem Speaks.call (c : C) : Speaks (Proc.call c : Proc C R ε S (R c)) := fun _ _ _ h => by cases h

/-- A sequence whose first part calls. -/
theorem Speaks.first {m : Proc C R ε S α} {f : α → Proc C R ε S β} (h : Speaks m) : Speaks (m >>= f) := by
  intro x b x' hpure
  change Proc.bind m f x = _ at hpure
  rw [Proc.bind] at hpure
  cases hm : m x with
  | pure r =>
    obtain ⟨r, x1⟩ := r
    cases r with
    | ok a => exact h x a x1 hm
    | error e =>
      rw [hm] at hpure
      cases hpure
  | call c k =>
    rw [hm] at hpure
    cases hpure

/-- A sequence whose second part calls. -/
theorem Speaks.second {m : Proc C R ε S α} {f : α → Proc C R ε S β} (h : ∀ a, Speaks (f a)) : Speaks (m >>= f) := by
  intro x b x' hpure
  change Proc.bind m f x = _ at hpure
  rw [Proc.bind] at hpure
  cases hm : m x with
  | pure r =>
    obtain ⟨r, x1⟩ := r
    rw [hm] at hpure
    cases r with
    | ok a => exact h a x1 b x' hpure
    | error e => cases hpure
  | call c k =>
    rw [hm] at hpure
    cases hpure

theorem Speaks.zoom {read : T → S} {write : S → T → T} {m : Proc C R ε S α} (h : Speaks m) : Speaks (Proc.zoom read write m) := by
  intro t a t' hpure
  rw [Proc.zoom] at hpure
  cases hm : m (read t) with
  | pure r =>
    obtain ⟨r, x'⟩ := r
    rw [hm] at hpure
    obtain ⟨rfl, -⟩ := Prod.mk.inj (Prog.pure.inj (show Prog.pure (r, write x' t) = .pure (.ok a, t') from hpure))
    exact h _ _ _ hm
  | call c k =>
    rw [hm] at hpure
    cases hpure

namespace Calm

variable {P : S → Prop} {G : α → Prop}

theorem of_keeps {m : Proc C R ε S α} (h : Keeps P m G) : Calm P m := by
  intro x hx r x' hpure
  exact (h x hx (r, x') (by rw [hpure]; rfl)).1

theorem bind {m : Proc C R ε S α} {f : α → Proc C R ε S β} (h : Calm P m) (hf : ∀ a, Calm P (f a)) : Calm P (m >>= f) := by
  intro x hx r x' hpure
  change Proc.bind m f x = _ at hpure
  rw [Proc.bind] at hpure
  cases hm : m x with
  | pure w =>
    obtain ⟨v, x1⟩ := w
    have hx1 := h x hx v x1 hm
    rw [hm] at hpure
    cases v with
    | ok a => exact hf a x1 hx1 r x' hpure
    | error e =>
      obtain ⟨-, rfl⟩ := Prod.mk.inj (Prog.pure.inj (show Prog.pure (.error e, x1) = .pure (r, x') from hpure))
      exact hx1
  | call c k =>
    rw [hm] at hpure
    cases hpure

/-- Behind a part that calls, anything may come. -/
theorem before {m : Proc C R ε S α} {f : α → Proc C R ε S β} (h : Calm P m) (hm : Speaks m) : Calm P (m >>= f) := by
  intro x hx r x' hpure
  change Proc.bind m f x = _ at hpure
  rw [Proc.bind] at hpure
  cases hw : m x with
  | pure w =>
    obtain ⟨v, x1⟩ := w
    rw [hw] at hpure
    cases v with
    | ok a => exact absurd hw (hm x a x1)
    | error e =>
      obtain ⟨-, rfl⟩ := Prod.mk.inj (Prog.pure.inj (show Prog.pure (.error e, x1) = .pure (r, x') from hpure))
      exact h x hx _ x1 hw
  | call c k =>
    rw [hw] at hpure
    cases hpure

theorem ite {p : Prop} [Decidable p] {m m' : Proc C R ε S α} (h : Calm P m) (h' : Calm P m') :
    Calm P (if p then m else m') := by
  split
  · exact h
  · exact h'

end Calm

end Interaction
