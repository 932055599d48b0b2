import IshaVectorDb.Interaction.Program

/-!
# `Interaction.Triple` — one judgement for the result, the **deaths** and the **failures** of a process

`Triple D m x s Q I F` says three things about the process `m` started with memory `x` on the device state
`s`: it succeeds and its result, memory and device state satisfy `Q`; whenever the process dies inside it,
what is left satisfies `I`; and whenever one call fails under it, the process stops with an error in a memory
and a device state that satisfy `F`. The rules below walk a process call by call, so a proof states what each
call leaves once and gets all three readings from it.
-/

namespace Interaction

variable {C : Type} {R : C → Type} {ε σ S α β : Type}

/-- The judgement: `Q` on success, `I` at every death, `F` after every single failing call. -/
structure Triple (D : Device C R ε σ) (m : Proc C R ε S α) (x : S) (s : σ)
    (Q : α → S → σ → Prop) (I : C → Nat → σ → Prop) (F : C → S → σ → Prop) : Prop where
  runs : ∃ a x' s', (m x).run D s = ((.ok a, x'), s') ∧ Q a x' s'
  deaths : (m x).Deaths D I s
  failures : (m x).Failures D (fun c r s' => (∃ e, r.1 = .error e) ∧ F c r.2 s') s

namespace Triple

variable {D : Device C R ε σ} {Q Q' : α → S → σ → Prop} {I I' : C → Nat → σ → Prop}
  {F F' : C → S → σ → Prop} {x : S} {s : σ}

theorem mono {m : Proc C R ε S α} (h : Triple D m x s Q I F) (hQ : ∀ a x' s', Q a x' s' → Q' a x' s')
    (hI : ∀ c n img, I c n img → I' c n img) (hF : ∀ c x' s', F c x' s' → F' c x' s') :
    Triple D m x s Q' I' F' := by
  obtain ⟨a, x', s', hr, hq⟩ := h.runs
  exact ⟨⟨a, x', s', hr, hQ _ _ _ hq⟩, h.deaths.mono hI,
    h.failures.mono (fun c r s' hf => ⟨hf.1, hF _ _ _ hf.2⟩)⟩

theorem conseq {m : Proc C R ε S α} (h : Triple D m x s Q I F) (hQ : ∀ a x' s', Q a x' s' → Q' a x' s') :
    Triple D m x s Q' I F := h.mono hQ (fun _ _ _ hi => hi) (fun _ _ _ hf => hf)

/-- A triple with what else is known of the deaths. -/
theorem with_deaths {m : Proc C R ε S α} (h : Triple D m x s Q I F) (h' : (m x).Deaths D I' s) :
    Triple D m x s Q (fun c n img => I c n img ∧ I' c n img) F := ⟨h.runs, h.deaths.and h', h.failures⟩

/-- Two processes that are the same program here. -/
theorem of_eq {m m' : Proc C R ε S α} {x₁ : S} (h : m x = m' x₁) (ht : Triple D m' x₁ s Q I F) : Triple D m x s Q I F :=
  ⟨by rw [h]; exact ht.runs, by rw [h]; exact ht.deaths, by rw [h]; exact ht.failures⟩

/-! ## Steps without a call -/

theorem pure {a : α} (h : Q a x s) : Triple D (Pure.pure a : Proc C R ε S α) x s Q I F :=
  ⟨⟨a, x, s, rfl, h⟩, trivial, trivial⟩

theorem lift {r : Except ε α} {a : α} (hr : r = .ok a) (h : Q a x s) :
    Triple D (Proc.lift r : Proc C R ε S α) x s Q I F := by
  subst hr; exact ⟨⟨a, x, s, rfl, h⟩, trivial, trivial⟩

theorem get {Q : S → S → σ → Prop} (h : Q x x s) : Triple D (Proc.get : Proc C R ε S S) x s Q I F :=
  ⟨⟨x, x, s, rfl, h⟩, trivial, trivial⟩

theorem modify {Q : Unit → S → σ → Prop} {f : S → S} (h : Q () (f x) s) :
    Triple D (Proc.modify f : Proc C R ε S Unit) x s Q I F :=
  ⟨⟨(), f x, s, rfl, h⟩, trivial, trivial⟩

/-! ## Calls and sequencing -/

theorem call {c : C} {Q : R c → S → σ → Prop} {r : R c} {s' : σ} (hs : D.step c s = (.ok r, s'))
    (hQ : Q r x s') (hI : ∀ n, I c n (D.cut c n s)) (hF : ∀ n, F c x (D.fail c n s)) :
    Triple D (Proc.call c : Proc C R ε S (R c)) x s Q I F := by
  refine ⟨⟨r, x, s', ?_, hQ⟩, ⟨hI, trivial⟩, ⟨fun e n => ⟨⟨e, rfl⟩, hF n⟩, trivial⟩⟩
  show (((D.step c s).1, x), (D.step c s).2) = _
  rw [hs]

theorem bind {m : Proc C R ε S α} {f : α → Proc C R ε S β} {Q : β → S → σ → Prop}
    (h : Triple D m x s (fun a x' s' => Triple D (f a) x' s' Q I F) I F) :
    Triple D (m >>= f) x s Q I F := by
  obtain ⟨a, x', s', hr, ⟨b, x'', s'', hr', hq⟩, hd, hf⟩ := h.runs
  have hbind : (m >>= f : Proc C R ε S β) = Proc.bind m f := rfl
  refine ⟨⟨b, x'', s'', ?_, hq⟩, ?_, ?_⟩
  · rw [hbind, Proc.bind, Prog.run_bind, hr]; exact hr'
  · rw [hbind, Proc.bind, Prog.deaths_bind, hr]; exact ⟨h.deaths, hd⟩
  · rw [hbind, Proc.bind, Prog.failures_bind, hr]
    refine ⟨h.failures.mono ?_, hf⟩
    -- a failure inside `m` ends the whole sequence where it stands
    rintro c ⟨r, x1⟩ s1 ⟨⟨e, he⟩, hF⟩
    obtain rfl : r = .error e := he
    exact ⟨⟨e, rfl⟩, hF⟩

theorem seq {m : Proc C R ε S α} {f : α → Proc C R ε S β} {Q : β → S → σ → Prop} {P : α → S → σ → Prop}
    (h : Triple D m x s P I F) (hf : ∀ a x' s', P a x' s' → Triple D (f a) x' s' Q I F) :
    Triple D (m >>= f) x s Q I F := bind (h.conseq hf)

/-- **The deaths of a sequence** are those of its first part and those of the rest, in whatever state the first part leaves. -/
theorem deaths_bind {m : Proc C R ε S α} {f : α → Proc C R ε S β}
    (h : Triple D m x s (fun a x' s' => (f a x').Deaths D I s') I F) : ((m >>= f) x).Deaths D I s := by
  obtain ⟨a, x', s', hrun, hrest⟩ := h.runs
  show (Prog.bind _ _).Deaths D I s
  rw [Prog.deaths_bind, hrun]
  exact ⟨h.deaths, hrest⟩

/-- Where the first part fails, they are its own. -/
theorem deaths_bind_failed {m : Proc C R ε S α} {f : α → Proc C R ε S β} {e : ε} (h : (m x).Deaths D I s)
    (hfails : ((m x).run D s).1.1 = .error e) : ((m >>= f) x).Deaths D I s := by
  show (Prog.bind _ _).Deaths D I s
  rw [Prog.deaths_bind]
  refine ⟨h, ?_⟩
  generalize (m x).run D s = ended at hfails ⊢
  obtain ⟨⟨r, x'⟩, t⟩ := ended
  obtain rfl : r = .error e := hfails
  trivial

theorem zoom {T : Type} {read : T → S} {write : S → T → T} {m : Proc C R ε S α} {t : T}
    {Q : α → T → σ → Prop} {F : C → T → σ → Prop}
    (h : Triple D m (read t) s (fun a x' s' => Q a (write x' t) s') I (fun c x' s' => F c (write x' t) s')) :
    Triple D (Proc.zoom read write m) t s Q I F := by
  obtain ⟨a, x', s', hr, hq⟩ := h.runs
  refine ⟨⟨a, write x' t, s', ?_, hq⟩, ?_, ?_⟩
  · show (Prog.bind _ _).run D s = _
    rw [Prog.run_bind, hr]; rfl
  · show (Prog.bind _ _).Deaths D I s
    rw [Prog.deaths_bind]; exact ⟨h.deaths, trivial⟩
  · show (Prog.bind _ _).Failures D _ s
    rw [Prog.failures_bind]
    exact ⟨h.failures.mono (fun c r s1 hf => hf), trivial⟩

/-- The result of a process that a triple describes. -/
theorem result {m : Proc C R ε S α} (h : Triple D m x s Q I F) {r : Except ε α × S} {s' : σ}
    (hr : (m x).run D s = (r, s')) : ∃ a x', r = (.ok a, x') ∧ Q a x' s' := by
  obtain ⟨a, x', s1, hr', hq⟩ := h.runs
  rw [hr] at hr'
  obtain ⟨rfl, rfl⟩ := Prod.mk.inj hr'
  exact ⟨a, x', rfl, hq⟩

end Triple

/-! ## Walking a list -/

/-- Run a process for each element, collecting the results. -/
def Proc.mapList (f : β → Proc C R ε S α) : List β → Proc C R ε S (List α)
  | [] => Pure.pure []
  | b :: bs => do
      let a ← f b
      let as ← Proc.mapList f bs
      Pure.pure (a :: as)

/-- Run a process for each element. -/
def Proc.forList (f : β → Proc C R ε S Unit) : List β → Proc C R ε S Unit
  | [] => Pure.pure ()
  | b :: bs => do
      f b
      Proc.forList f bs

theorem Triple.mapList {D : Device C R ε σ} {f : β → Proc C R ε S α} {I : C → Nat → σ → Prop}
    {F : C → S → σ → Prop} (P : List β → List α → S → σ → Prop) (l : List β)
    (step : ∀ done b rest as x s, l = done ++ b :: rest → P done as x s →
      Triple D (f b) x s (fun a x' s' => P (done ++ [b]) (as ++ [a]) x' s') I F)
    {x : S} {s : σ} (h0 : P [] [] x s) :
    Triple D (Proc.mapList f l) x s (fun as x' s' => P l as x' s') I F := by
  suffices H : ∀ rest done as x s, l = done ++ rest → P done as x s →
      Triple D (Proc.mapList f rest) x s (fun bs x' s' => P l (as ++ bs) x' s') I F by
    exact H l [] [] x s rfl h0
  intro rest
  induction rest with
  | nil =>
    intro done as x s hl hP
    have hl' : l = done := by rw [hl, List.append_nil]
    refine Triple.pure ?_
    rw [hl', List.append_nil]; exact hP
  | cons b rest ih =>
    intro done as x s hl hP
    refine Triple.seq (step done b rest as x s hl hP) (fun a x' s' hP' => ?_)
    refine Triple.seq (ih (done ++ [b]) (as ++ [a]) x' s' (by rw [hl, List.append_assoc]; rfl) hP') ?_
    intro bs x'' s'' hQ
    refine Triple.pure ?_
    rw [List.append_assoc] at hQ; exact hQ

theorem Triple.forList {D : Device C R ε σ} {f : β → Proc C R ε S Unit} {I : C → Nat → σ → Prop}
    {F : C → S → σ → Prop} (P : List β → S → σ → Prop) (l : List β)
    (step : ∀ done b rest x s, l = done ++ b :: rest → P done x s →
      Triple D (f b) x s (fun _ x' s' => P (done ++ [b]) x' s') I F)
    {x : S} {s : σ} (h0 : P [] x s) :
    Triple D (Proc.forList f l) x s (fun _ x' s' => P l x' s') I F := by
  suffices H : ∀ rest done x s, l = done ++ rest → P done x s →
      Triple D (Proc.forList f rest) x s (fun _ x' s' => P l x' s') I F from H l [] x s rfl h0
  intro rest
  induction rest with
  | nil =>
    intro done x s hl hP
    refine Triple.pure ?_
    have hl' : l = done := by rw [hl, List.append_nil]
    rw [hl']; exact hP
  | cons b rest ih =>
    intro done x s hl hP
    refine Triple.seq (step done b rest x s hl hP) (fun _ x' s' hP' => ?_)
    exact ih (done ++ [b]) x' s' (by rw [hl, List.append_assoc]; rfl) hP'

/-- **Elements whose processes change nothing** and give known results. -/
theorem Triple.mapList_each {D : Device C R ε σ} {f : β → Proc C R ε S α} {I : C → Nat → σ → Prop}
    {F : C → S → σ → Prop} {x : S} {s : σ} {l : List β} {as : List α}
    (h : List.Forall₂ (fun b a => ∀ P : α → S → σ → Prop, P a x s → Triple D (f b) x s P I F) l as)
    {Q : List α → S → σ → Prop} (hQ : Q as x s) : Triple D (Proc.mapList f l) x s Q I F := by
  induction h generalizing Q with
  | nil => exact Triple.pure hQ
  | cons hb _ ih => exact Triple.bind (hb _ (Triple.bind (ih (Triple.pure hQ))))

/-- A process that only looks, at each element. -/
theorem Proc.mapList_run {D : Device C R ε σ} {f : β → Proc C R ε S α} {g : β → α} {x : S} {s : σ} (l : List β)
    (h : ∀ b ∈ l, (f b x).run D s = ((.ok (g b), x), s)) :
    (Proc.mapList f l x).run D s = ((.ok (l.map g), x), s) := by
  induction l with
  | nil => rfl
  | cons b l ih =>
    have hrest := ih (fun b' hb' => h b' (List.mem_cons_of_mem _ hb'))
    show (Proc.bind (f b) (fun a => Proc.bind (Proc.mapList f l) (fun as => Proc.pure (a :: as))) x).run D s = _
    unfold Proc.bind
    rw [Prog.run_bind, h b List.mem_cons_self]
    show (Prog.bind (Proc.mapList f l x) _).run D s = _
    rw [Prog.run_bind, hrest]
    rfl

/-! ## Changing a list in place -/

variable {T : Type}

/-- Run a process over each element of a list held in memory, one after the other. When one fails, the
    elements before it stay as they were left, it stays as it left itself, and the rest are untouched. -/
def Proc.iterMut (f : Proc C R ε T α) : Proc C R ε (List T) (List α)
  | [] => .pure (.ok [], [])
  | x :: xs => (f x).bind (fun r => match r with
      | (.error e, x') => .pure (.error e, x' :: xs)
      | (.ok a, x') => (Proc.iterMut f xs).bind (fun r => .pure (r.1.map (a :: ·), x' :: r.2)))

theorem Triple.iterMut {D : Device C R ε σ} {f : Proc C R ε T α} {I : C → Nat → σ → Prop}
    {F : C → List T → σ → Prop} (P : List T → List T → List α → σ → Prop) (l : List T)
    (step : ∀ before x rest after as s, l = before ++ x :: rest → P before after as s →
      Triple D f x s (fun a x' s' => P (before ++ [x]) (after ++ [x']) (as ++ [a]) s') I
        (fun c x' s' => F c (after ++ x' :: rest) s'))
    {s : σ} (h0 : P [] [] [] s) :
    Triple D (Proc.iterMut f) l s (fun as l' s' => P l l' as s') I F := by
  suffices H : ∀ rest before after as s, l = before ++ rest → P before after as s →
      Triple D (Proc.iterMut f) rest s (fun bs l' s' => P l (after ++ l') (as ++ bs) s') I
        (fun c l' s' => F c (after ++ l') s') from H l [] [] [] s rfl h0
  intro rest
  induction rest with
  | nil =>
    intro before after as s hl hP
    have hl' : l = before := by rw [hl, List.append_nil]
    refine ⟨⟨[], [], s, rfl, ?_⟩, trivial, trivial⟩
    rw [hl', List.append_nil, List.append_nil]; exact hP
  | cons x rest ih =>
    intro before after as s hl hP
    have hx := step before x rest after as s hl hP
    obtain ⟨a, x', s1, hr, hP1⟩ := hx.runs
    have hrest := ih (before ++ [x]) (after ++ [x']) (as ++ [a]) s1 (by rw [hl, List.append_assoc]; rfl) hP1
    obtain ⟨bs, l', s2, hr2, hP2⟩ := hrest.runs
    refine ⟨⟨a :: bs, x' :: l', s2, ?_, ?_⟩, ?_, ?_⟩
    · show (Prog.bind (f x) _).run D s = _
      rw [Prog.run_bind, hr]
      show (Prog.bind (Proc.iterMut f rest) _).run D s1 = _
      rw [Prog.run_bind, hr2]; rfl
    · rw [List.append_assoc, List.append_assoc] at hP2; exact hP2
    · show (Prog.bind (f x) _).Deaths D I s
      rw [Prog.deaths_bind, hr]
      refine ⟨hx.deaths, ?_⟩
      show (Prog.bind (Proc.iterMut f rest) _).Deaths D I s1
      rw [Prog.deaths_bind]
      exact ⟨hrest.deaths, trivial⟩
    · show (Prog.bind (f x) _).Failures D _ s
      rw [Prog.failures_bind, hr]
      refine ⟨hx.failures.mono ?_, ?_⟩
      · rintro c ⟨r, x1⟩ s3 ⟨⟨e, he⟩, hF⟩
        obtain rfl : r = .error e := he
        exact ⟨⟨e, rfl⟩, hF⟩
      · show (Prog.bind (Proc.iterMut f rest) _).Failures D _ s1
        rw [Prog.failures_bind]
        refine ⟨hrest.failures.mono ?_, trivial⟩
        rintro c ⟨r, l1⟩ s3 ⟨⟨e, he⟩, hF⟩
        obtain rfl : r = .error e := he
        refine ⟨⟨e, rfl⟩, ?_⟩
        rw [List.append_assoc] at hF; exact hF

end Interaction
