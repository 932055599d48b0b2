import Mathlib.Data.List.Basic
import Mathlib.Tactic.Ring
import Mathlib.Tactic.Linarith

/-!
# `Parsing.Reads` — parsers over bytes and the relation **`p` reads `bs` as `a`**

A parser consumes bytes from the front of its input and keeps count of how many bytes lie behind it. `Reads`
is the half of a round trip that composes: whatever follows `bs`, and wherever `bs` stands, the parser takes
exactly `bs` and answers `a`. The rules follow the parser's own structure, so the round trip of a composite
format is assembled from the round trips of its fields.
-/

namespace Parsing

/-- What is left to read, and how many bytes were read before it. -/
structure Input where
  rest : List UInt8
  offset : Nat
deriving DecidableEq, Repr

/-- A parser: a computation over the input that may fail. -/
abbrev Parser (ε α : Type) := StateT Input (Except ε) α

variable {ε α β : Type}

/-- Where the parser stands. -/
def position : Parser ε Nat := fun i => .ok (i.offset, i)

/-- How many bytes are left. -/
def remaining : Parser ε Nat := fun i => .ok (i.rest.length, i)

/-- Fail. -/
def fail (e : ε) : Parser ε α := fun _ => .error e

/-- Take a result that does not depend on the input. -/
def checked (r : Except ε α) : Parser ε α := fun i => match r with
  | .ok a => .ok (a, i)
  | .error e => .error e

/-- Run a parser `n` times. -/
def times (p : Parser ε α) : Nat → Parser ε (List α)
  | 0 => pure []
  | n + 1 => do
      let a ← p
      let as ← times p n
      pure (a :: as)

/-- **`p` reads `bs` as `a`**: on any input that begins with `bs`, it consumes exactly `bs`. -/
def Reads (p : Parser ε α) (bs : List UInt8) (a : α) : Prop :=
  ∀ rest o, p ⟨bs ++ rest, o⟩ = .ok (a, ⟨rest, o + bs.length⟩)

/-- A sequence of two results succeeds exactly when both do. -/
theorem except_bind_eq_ok {x : Except ε α} {f : α → Except ε β} {b : β} :
    (x >>= f) = .ok b ↔ ∃ a, x = .ok a ∧ f a = .ok b := by
  cases x with
  | error e =>
    constructor
    · intro h; cases h
    · rintro ⟨a, h, -⟩; cases h
  | ok a =>
    constructor
    · exact fun h => ⟨a, rfl, h⟩
    · rintro ⟨a', h, hf⟩; cases h; exact hf

@[simp] theorem except_ok_bind (a : α) (f : α → Except ε β) : (Except.ok a >>= f) = f a := rfl

@[simp] theorem except_error_bind (e : ε) (f : α → Except ε β) : (Except.error e >>= f) = .error e := rfl

theorem bind_of_ok {p : Parser ε α} {f : α → Parser ε β} {i j : Input} {a : α} (h : p i = .ok (a, j)) :
    (p >>= f) i = f a j := by
  show (p i >>= fun r => f r.1 r.2) = _
  rw [h]; rfl

theorem bind_of_error {p : Parser ε α} {f : α → Parser ε β} {i : Input} {e : ε} (h : p i = .error e) :
    (p >>= f) i = .error e := by
  show (p i >>= fun r => f r.1 r.2) = _
  rw [h]; rfl

/-- A sequence that succeeded is one whose steps did. -/
theorem bind_eq_ok {p : Parser ε α} {f : α → Parser ε β} {i j : Input} {b : β} :
    (p >>= f) i = .ok (b, j) ↔ ∃ a k, p i = .ok (a, k) ∧ f a k = .ok (b, j) := by
  cases hp : p i with
  | error e =>
    rw [bind_of_error hp]
    constructor
    · intro h; cases h
    · rintro ⟨a, k, h, -⟩; cases h
  | ok r =>
    obtain ⟨a, k⟩ := r
    rw [bind_of_ok hp]
    constructor
    · exact fun h => ⟨a, k, rfl, h⟩
    · rintro ⟨a', k', h, hf⟩; cases h; exact hf

@[simp] theorem pure_apply (a : α) (i : Input) : (pure a : Parser ε α) i = .ok (a, i) := rfl

@[simp] theorem position_bind_apply (f : Nat → Parser ε β) (i : Input) :
    (position >>= f) i = f i.offset i := rfl

@[simp] theorem remaining_bind_apply (f : Nat → Parser ε β) (i : Input) :
    (remaining >>= f) i = f i.rest.length i := rfl

@[simp] theorem fail_apply (e : ε) (i : Input) : (fail e : Parser ε α) i = .error e := rfl

@[simp] theorem checked_ok (a : α) (i : Input) : (checked (.ok a) : Parser ε α) i = .ok (a, i) := rfl

@[simp] theorem checked_error (e : ε) (i : Input) : (checked (.error e) : Parser ε α) i = .error e := rfl

namespace Reads

theorem pure (a : α) : Reads (Pure.pure a : Parser ε α) [] a := fun _ _ => rfl

theorem bind {p : Parser ε α} {f : α → Parser ε β} {bs cs : List UInt8} {a : α} {b : β}
    (hp : Reads p bs a) (hf : Reads (f a) cs b) : Reads (p >>= f) (bs ++ cs) b := by
  intro rest o
  rw [List.append_assoc, bind_of_ok (hp (cs ++ rest) o), hf rest (o + bs.length), List.length_append,
    Nat.add_assoc]

/-- A last step that consumes nothing. -/
theorem bind_nil {p : Parser ε α} {f : α → Parser ε β} {bs : List UInt8} {a : α} {b : β}
    (hp : Reads p bs a) (hf : Reads (f a) [] b) : Reads (p >>= f) bs b := by
  have h := bind hp hf
  rwa [List.append_nil] at h

/-- A first step that consumes nothing. -/
theorem nil_bind {p : Parser ε α} {f : α → Parser ε β} {bs : List UInt8} {a : α} {b : β}
    (hp : Reads p [] a) (hf : Reads (f a) bs b) : Reads (p >>= f) bs b := bind hp hf

theorem position_bind {f : Nat → Parser ε β} {bs : List UInt8} {b : β} (h : ∀ o, Reads (f o) bs b) :
    Reads (position >>= f) bs b := fun rest o => h o rest o

theorem remaining_bind {f : Nat → Parser ε β} {bs : List UInt8} {b : β}
    (h : ∀ n, bs.length ≤ n → Reads (f n) bs b) : Reads (remaining >>= f) bs b := by
  intro rest o
  exact h (bs ++ rest).length (by rw [List.length_append]; omega) rest o

theorem checked_bind {r : Except ε α} {a : α} {f : α → Parser ε β} {bs : List UInt8} {b : β}
    (hr : r = .ok a) (h : Reads (f a) bs b) : Reads (checked r >>= f) bs b := by
  subst hr; exact h

theorem times {p : Parser ε α} {enc : α → List UInt8} {as : List α} (h : ∀ a ∈ as, Reads p (enc a) a) :
    Reads (Parsing.times p as.length) (as.flatMap enc) as := by
  induction as with
  | nil => exact pure []
  | cons a as ih =>
    have h1 : Reads p (enc a) a := h a List.mem_cons_self
    have h2 := ih (fun b hb => h b (List.mem_cons_of_mem _ hb))
    exact bind h1 (bind_nil h2 (pure (a :: as)))

end Reads

/-- **`p` reads all of `bs` as `a`**: the input ends where `bs` does. -/
def ReadsAll (p : Parser ε α) (bs : List UInt8) (a : α) : Prop :=
  ∀ o, p ⟨bs, o⟩ = .ok (a, ⟨[], o + bs.length⟩)

namespace ReadsAll

theorem of_reads {p : Parser ε α} {bs : List UInt8} {a : α} (h : Reads p bs a) : ReadsAll p bs a := by
  intro o
  have h1 := h [] o
  rwa [List.append_nil] at h1

theorem bind {p : Parser ε α} {f : α → Parser ε β} {bs cs : List UInt8} {a : α} {b : β}
    (hp : Reads p bs a) (hf : ReadsAll (f a) cs b) : ReadsAll (p >>= f) (bs ++ cs) b := by
  intro o
  rw [bind_of_ok (hp cs o), hf (o + bs.length), List.length_append, Nat.add_assoc]

theorem bind_nil {p : Parser ε α} {f : α → Parser ε β} {bs : List UInt8} {a : α} {b : β}
    (hp : ReadsAll p bs a) (hf : ReadsAll (f a) [] b) : ReadsAll (p >>= f) bs b := by
  intro o
  rw [bind_of_ok (hp o), hf]; rfl

theorem nil_bind {p : Parser ε α} {f : α → Parser ε β} {bs : List UInt8} {a : α} {b : β}
    (hp : Reads p [] a) (hf : ReadsAll (f a) bs b) : ReadsAll (p >>= f) bs b := bind hp hf

theorem position_bind {f : Nat → Parser ε β} {bs : List UInt8} {b : β} (h : ∀ o, ReadsAll (f o) bs b) :
    ReadsAll (position >>= f) bs b := fun o => h o o

theorem remaining_bind {f : Nat → Parser ε β} {bs : List UInt8} {b : β} (h : ReadsAll (f bs.length) bs b) :
    ReadsAll (remaining >>= f) bs b := fun o => h o

theorem checked_bind {r : Except ε α} {a : α} {f : α → Parser ε β} {bs : List UInt8} {b : β}
    (hr : r = .ok a) (h : ReadsAll (f a) bs b) : ReadsAll (checked r >>= f) bs b := by
  subst hr; exact h

theorem pure (a : α) : ReadsAll (Pure.pure a : Parser ε α) [] a := fun _ => rfl

end ReadsAll

/-! ## What is accepted -/

/-- **Everything `p` accepts satisfies `P`**, whatever the input. -/
def Yields (p : Parser ε α) (P : α → Prop) : Prop := ∀ i a j, p i = .ok (a, j) → P a

namespace Yields

variable {P : α → Prop} {Q : β → Prop}

theorem pure {a : α} (h : P a) : Yields (Pure.pure a : Parser ε α) P := by
  intro i b j hb
  cases hb
  exact h

theorem fail (e : ε) : Yields (Parsing.fail e : Parser ε α) P := fun _ _ _ h => (nomatch h)

theorem bind {p : Parser ε α} {f : α → Parser ε β} (hp : Yields p P) (hf : ∀ a, P a → Yields (f a) Q) :
    Yields (p >>= f) Q := by
  intro i b j h
  obtain ⟨⟨a, k⟩, ha, hb⟩ := except_bind_eq_ok.mp (show (p i >>= fun r => f r.1 r.2) = .ok (b, j) from h)
  exact hf a (hp i a k ha) k b j hb

/-- A first step about which nothing need be known. -/
theorem skip {p : Parser ε α} {f : α → Parser ε β} (hf : ∀ a, Yields (f a) Q) : Yields (p >>= f) Q :=
  bind (P := fun _ => True) (fun _ _ _ _ => trivial) (fun a _ => hf a)

theorem ite {c : Prop} [Decidable c] {p q : Parser ε α} (hp : c → Yields p P) (hq : ¬ c → Yields q P) :
    Yields (if c then p else q) P := by
  split
  · exact hp ‹_›
  · exact hq ‹_›

theorem times {p : Parser ε α} (hp : Yields p P) (n : Nat) :
    Yields (Parsing.times p n) (fun as => ∀ a ∈ as, P a) := by
  induction n with
  | zero => exact pure (fun a ha => by cases ha)
  | succ n ih =>
    refine bind hp (fun a ha => bind ih (fun as has => pure ?_))
    intro b hb
    rcases List.mem_cons.mp hb with rfl | hb
    · exact ha
    · exact has b hb

/-- A parser run `n` times yields `n` items. -/
theorem times_length {p : Parser ε α} (n : Nat) : Yields (Parsing.times p n) (fun as => as.length = n) := by
  induction n with
  | zero => exact pure rfl
  | succ n ih => exact skip (fun a => bind ih (fun as has => pure (congrArg Nat.succ has)))

end Yields

/-! ## Inputs that stop early -/

/-- **`p` notices that `bs` is torn**: on a strict prefix of `bs` with nothing after it, it stops with an
    error that `T` recognises. -/
def Torn (T : ε → Prop) (p : Parser ε α) (bs : List UInt8) : Prop :=
  ∀ k, k < bs.length → ∀ o, ∃ e, p ⟨bs.take k, o⟩ = .error e ∧ T e

namespace Torn

variable {T : ε → Prop}

theorem nil (p : Parser ε α) : Torn T p [] := fun _ hk => absurd hk (Nat.not_lt_zero _)

theorem bind {p : Parser ε α} {f : α → Parser ε β} {bs cs : List UInt8} {a : α} (hp : Torn T p bs)
    (hr : Reads p bs a) (hf : Torn T (f a) cs) : Torn T (p >>= f) (bs ++ cs) := by
  intro k hk o
  rw [List.length_append] at hk
  by_cases h : k < bs.length
  · obtain ⟨e, he, hT⟩ := hp k h o
    refine ⟨e, ?_, hT⟩
    rw [List.take_append_of_le_length (by omega)]
    exact bind_of_error he
  · obtain ⟨e, he, hT⟩ := hf (k - bs.length) (by omega) (o + bs.length)
    refine ⟨e, ?_, hT⟩
    rw [List.take_append, List.take_of_length_le (by omega), bind_of_ok (hr _ o), he]

/-- What follows does not matter when the tear is in the first part. -/
theorem bind_left {p : Parser ε α} {f : α → Parser ε β} {bs : List UInt8} (hp : Torn T p bs) :
    Torn T (p >>= f) bs := by
  intro k hk o
  obtain ⟨e, he, hT⟩ := hp k hk o
  exact ⟨e, bind_of_error he, hT⟩

theorem position_bind {f : Nat → Parser ε β} {bs : List UInt8} (h : ∀ o, Torn T (f o) bs) :
    Torn T (position >>= f) bs := fun k hk o => h o k hk o

end Torn

end Parsing
