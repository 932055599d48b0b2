import IshaVectorDb.Engine.Error
import Mathlib.Data.List.Basic

/-!
# `Engine.PathStrings` — paths as the **strings** that they are kept as

A path is one string: its components, separated by slashes, and nothing for the root. Components are checked when a path
is made, by parsing a string or by joining one component to a path, and never again. `Spelled` is what every path that
can be made has in common, that it is the spelling of some checked components; `lawful_iff` is which of them keep the
laws of parsing, joining and taking the parent.
-/

namespace IshaVectorDb.Engine.PathStrings

open Format

/-- Longest single path component accepted. -/
def maxComponentLen : Nat := 255

/-- Longest whole path. -/
def maxPathLen : Nat := 1024

/-- Why a path or component was rejected. -/
inductive PathRejection
  | empty
  | relativeComponent
  | illegalCharacter
  | absolute
  | componentTooLong
  | tooLong
deriving DecidableEq, Repr

/-- What was rejected, and why. -/
structure InvalidPath where
  path : Bytes
  reason : PathRejection
deriving DecidableEq

/-- A path within a database; the text of its string. -/
structure Path where
  text : Bytes
deriving DecidableEq

def slash : UInt8 := 0x2F
def backslash : UInt8 := 0x5C
def dot : UInt8 := 0x2E

def checkComponent (c : Bytes) : Except InvalidPath Unit :=
  if c = [] then .error ⟨c, .empty⟩
  else if c = [dot] ∨ c = [dot, dot] then .error ⟨c, .relativeComponent⟩
  else if maxComponentLen < c.length then .error ⟨c, .componentTooLong⟩
  else if c.any (fun b => b = slash ∨ b = backslash ∨ b = 0) then .error ⟨c, .illegalCharacter⟩
  else .ok ()

/-- `out` with a component pushed on, after a slash unless it is the first. -/
def pushed (out c : Bytes) : Bytes := if out = [] then c else out ++ slash :: c

/-- The index of the last `b`. -/
def rfind (b : UInt8) : Bytes → Option Nat
  | [] => none
  | a :: rest => match rfind b rest with
    | some i => some (i + 1)
    | none => if a = b then some 0 else none

namespace Path

/-- The database root itself. -/
def root : Path := ⟨[]⟩

/-- Build a path from separated components. -/
def fromComponents (components : List Bytes) : Except InvalidPath Path := do
  let out ← components.foldlM (fun out c => do checkComponent c; return pushed out c) []
  if maxPathLen < out.length then .error ⟨out, .tooLong⟩ else return ⟨out⟩

/-- Parse a slash-separated relative path, validating every component. -/
def parse (s : Bytes) : Except InvalidPath Path :=
  if s = [] then .ok root
  else if s.head? = some slash ∨ s.head? = some backslash then .error ⟨s, .absolute⟩
  else fromComponents (s.splitOn slash)

/-- Append one component. -/
def join (p : Path) (component : Bytes) : Except InvalidPath Path := do
  checkComponent component
  let out := pushed p.text component
  if maxPathLen < out.length then .error ⟨out, .tooLong⟩ else return ⟨out⟩

/-- The individual components, none for the root. -/
def components (p : Path) : List Bytes := (p.text.splitOn slash).filter (fun c => c ≠ [])

/-- The final component. -/
def fileName (p : Path) : Option Bytes := p.components.getLast?

/-- What is before the last slash, if there is one. -/
def parent (p : Path) : Option Path := (rfind slash p.text).map (fun idx => ⟨p.text.take idx⟩)

/-- **The paths that can be made**, by any sequence of these. -/
inductive Obtainable : Path → Prop
  | root : Obtainable root
  | parse {s : Bytes} {p : Path} (h : parse s = .ok p) : Obtainable p
  | join {p q : Path} {c : Bytes} (hp : Obtainable p) (h : p.join c = .ok q) : Obtainable q
  | parent {p q : Path} (hp : Obtainable p) (h : p.parent = some q) : Obtainable q

/-- **The laws of paths**, at one path: its components pass the check, its string parses to it, and whatever component is
    joined to it, the parent of the result is the path and its file name is the component. -/
structure Lawful (p : Path) : Prop where
  checked : ∀ c ∈ p.components, checkComponent c = .ok ()
  parses : parse p.text = .ok p
  parent : ∀ c q, p.join c = .ok q → q.parent = some p
  fileName : ∀ c q, p.join c = .ok q → q.fileName = some c

end Path

/-! ## Components -/

theorem checkComponent_ok {c : Bytes} (h : checkComponent c = .ok ()) :
    c ≠ [] ∧ slash ∉ c ∧ backslash ∉ c := by
  unfold checkComponent at h
  split_ifs at h with h1 h2 h3 h4
  refine ⟨h1, fun hs => h4 ?_, fun hs => h4 ?_⟩
  · exact List.any_eq_true.mpr ⟨slash, hs, by decide⟩
  · exact List.any_eq_true.mpr ⟨backslash, hs, by decide⟩

theorem rfind_none {b : UInt8} {l : Bytes} (h : b ∉ l) : rfind b l = none := by
  induction l with
  | nil => rfl
  | cons a l ih =>
    rw [List.mem_cons, not_or] at h
    rw [rfind, ih h.2]
    exact if_neg (fun he => h.1 he.symm)

theorem rfind_last {b : UInt8} {l : Bytes} (h : b ∉ l) (before : Bytes) :
    rfind b (before ++ b :: l) = some before.length := by
  induction before with
  | nil =>
    rw [List.nil_append, rfind, rfind_none h]
    exact if_pos rfl
  | cons a before ih => rw [List.cons_append, rfind, ih, List.length_cons]

/-! ## Spellings -/

/-- The spelling of some components. -/
def spell (cs : List Bytes) : Bytes := [slash].intercalate cs

theorem spell_nil : spell [] = [] := rfl

theorem spell_eq_nil {cs : List Bytes} (h : ∀ c ∈ cs, checkComponent c = .ok ()) : spell cs = [] ↔ cs = [] := by
  cases cs with
  | nil => exact ⟨fun _ => rfl, fun _ => rfl⟩
  | cons c rest =>
    have hc := (checkComponent_ok (h c List.mem_cons_self)).1
    refine ⟨fun hnil => ?_, nofun⟩
    cases rest with
    | nil =>
      rw [spell, List.intercalate_singleton] at hnil
      exact absurd hnil hc
    | cons d rest =>
      rw [spell, List.intercalate_cons_cons, List.append_eq_nil_iff, List.append_eq_nil_iff] at hnil
      exact absurd hnil.1.1 hc

theorem spell_cons {cs : List Bytes} (h : cs ≠ []) (a : Bytes) : spell (a :: cs) = a ++ slash :: spell cs := by
  rw [spell, List.intercalate_cons_of_ne_nil h, List.append_assoc, List.singleton_append]
  rfl

/-- A component joined to a spelling. -/
theorem spell_concat {cs : List Bytes} (h : ∀ c ∈ cs, checkComponent c = .ok ()) (c : Bytes) :
    spell (cs ++ [c]) = pushed (spell cs) c := by
  induction cs with
  | nil => exact List.intercalate_singleton
  | cons a cs ih =>
    have hrest : ∀ c ∈ cs, checkComponent c = .ok () := fun d hd => h d (List.mem_cons_of_mem _ hd)
    rw [List.cons_append, spell_cons (by simp), ih hrest, pushed, pushed, if_neg (fun hs => nomatch (spell_eq_nil h).mp hs)]
    by_cases hcs : cs = []
    · subst hcs
      rw [if_pos spell_nil, spell, List.intercalate_singleton]
    · rw [if_neg (fun hs => hcs ((spell_eq_nil hrest).mp hs)), spell_cons hcs, List.append_assoc, List.cons_append]

theorem pushAll {cs ds : List Bytes} (hc : ∀ c ∈ cs, checkComponent c = .ok ()) (hd : ∀ c ∈ ds, checkComponent c = .ok ()) :
    ds.foldlM (fun out c => do checkComponent c; return pushed out c) (spell cs) = .ok (spell (cs ++ ds)) := by
  induction ds generalizing cs with
  | nil => rw [List.append_nil]; rfl
  | cons d ds ih =>
    obtain ⟨hd, hds⟩ := List.forall_mem_cons.mp hd
    rw [List.foldlM_cons, hd]
    show ds.foldlM _ (pushed (spell cs) d) = _
    rw [← spell_concat hc, ih (fun c hmem => ?_) hds, List.append_assoc, List.singleton_append]
    rcases List.mem_append.mp hmem with hmem | hmem
    · exact hc c hmem
    · exact List.mem_singleton.mp hmem ▸ hd

theorem checked_of_pushAll {out r : Bytes} {ds : List Bytes}
    (h : ds.foldlM (fun out c => do checkComponent c; return pushed out c) out = .ok r) :
    ∀ c ∈ ds, checkComponent c = .ok () := by
  induction ds generalizing out with
  | nil => exact nofun
  | cons d ds ih =>
    rw [List.foldlM_cons] at h
    cases hd : checkComponent d with
    | error e => rw [hd] at h; cases h
    | ok u =>
      rw [hd] at h
      exact List.forall_mem_cons.mpr ⟨hd, ih h⟩

namespace Path

/-- **A path is the spelling of checked components**, and not too long. -/
structure Spelled (cs : List Bytes) (p : Path) : Prop where
  checked : ∀ c ∈ cs, checkComponent c = .ok ()
  text : p.text = spell cs
  length : p.text.length ≤ maxPathLen

variable {cs : List Bytes} {p q : Path} {c : Bytes}

theorem spelled_root : Spelled [] root := ⟨nofun, rfl, Nat.zero_le _⟩

theorem fromComponents_spelled (h : fromComponents cs = .ok p) : Spelled cs p := by
  unfold fromComponents at h
  cases hout : cs.foldlM (fun out c => do checkComponent c; return pushed out c) [] with
  | error e => rw [hout] at h; cases h
  | ok out =>
    have hchecked := checked_of_pushAll hout
    have hall := pushAll (List.forall_mem_nil _) hchecked
    rw [spell_nil, hout] at hall
    obtain rfl := Except.ok.inj hall
    rw [hout] at h
    by_cases hlong : maxPathLen < (spell ([] ++ cs)).length
    · simp only [Parsing.except_ok_bind, if_pos hlong] at h
      cases h
    · simp only [Parsing.except_ok_bind, if_neg hlong] at h
      obtain rfl := Except.ok.inj h
      exact ⟨hchecked, rfl, Nat.le_of_not_lt hlong⟩

theorem parse_spelled {s : Bytes} (h : parse s = .ok p) : ∃ cs, Spelled cs p := by
  unfold parse at h
  split at h
  · obtain rfl := Except.ok.inj h
    exact ⟨[], spelled_root⟩
  · split at h
    · cases h
    · exact ⟨_, fromComponents_spelled h⟩

theorem join_eq_ok : p.join c = .ok q ↔
    checkComponent c = .ok () ∧ q.text = pushed p.text c ∧ q.text.length ≤ maxPathLen := by
  unfold join
  cases hc : checkComponent c with
  | error e => exact ⟨nofun, fun h => nomatch h.1⟩
  | ok u =>
    show (if maxPathLen < (pushed p.text c).length then _ else _) = _ ↔ _
    split
    · rename_i hlong
      refine ⟨nofun, fun h => ?_⟩
      rw [h.2.1] at h
      omega
    · rename_i hshort
      constructor
      · intro h
        obtain rfl := Except.ok.inj h
        exact ⟨rfl, rfl, Nat.le_of_not_lt hshort⟩
      · rintro ⟨-, htext, -⟩
        cases q
        obtain rfl := htext
        rfl

theorem Spelled.join (hp : Spelled cs p) (h : p.join c = .ok q) : Spelled (cs ++ [c]) q := by
  obtain ⟨hc, htext, hlen⟩ := join_eq_ok.mp h
  refine ⟨fun d hd => ?_, by rw [htext, hp.text, spell_concat hp.checked], hlen⟩
  rcases List.mem_append.mp hd with hd | hd
  · exact hp.checked d hd
  · exact List.mem_singleton.mp hd ▸ hc

/-- What comes before the last of several components. -/
theorem Spelled.parent_concat {before : List Bytes} (hp : Spelled (before ++ [c]) p) :
    p.parent = if before = [] then none else some ⟨spell before⟩ := by
  have hbefore : ∀ d ∈ before, checkComponent d = .ok () := fun d hd => hp.checked d (List.mem_append_left _ hd)
  have hc := (checkComponent_ok (hp.checked c (List.mem_append_right _ List.mem_cons_self))).2.1
  unfold parent
  rw [hp.text, spell_concat hbefore, pushed]
  by_cases hnil : before = []
  · subst hnil
    rw [if_pos spell_nil, if_pos rfl, rfind_none hc]
    rfl
  · rw [if_neg (fun hs => hnil ((spell_eq_nil hbefore).mp hs)), if_neg hnil, rfind_last hc]
    exact congrArg some (congrArg Path.mk (List.take_left' rfl))

theorem Spelled.parent (hp : Spelled cs p) (h : p.parent = some q) : ∃ ds, Spelled ds q := by
  rcases List.eq_nil_or_concat cs with rfl | ⟨before, c, rfl⟩
  · unfold Path.parent at h
    rw [hp.text] at h
    cases h
  · rw [List.concat_eq_append] at hp
    rw [hp.parent_concat] at h
    split at h
    · cases h
    · obtain rfl := Option.some.inj h
      have hbefore : ∀ d ∈ before, checkComponent d = .ok () := fun d hd => hp.checked d (List.mem_append_left _ hd)
      refine ⟨before, hbefore, rfl, ?_⟩
      have hlen := hp.length
      rw [hp.text, spell_concat hbefore, pushed] at hlen
      split at hlen
      · rename_i hs
        show (spell before).length ≤ _
        rw [hs]
        exact Nat.zero_le _
      · rw [List.length_append] at hlen
        show (spell before).length ≤ _
        omega

/-- **Every path there is** is a spelling. -/
theorem Obtainable.spelled (h : Obtainable p) : ∃ cs, Spelled cs p := by
  induction h with
  | root => exact ⟨[], spelled_root⟩
  | parse h => exact parse_spelled h
  | join _ h ih =>
    obtain ⟨cs, hp⟩ := ih
    exact ⟨_, hp.join h⟩
  | parent _ h ih =>
    obtain ⟨cs, hp⟩ := ih
    exact hp.parent h

/-! ## The laws -/

theorem Spelled.splitOn (hp : Spelled cs p) (hne : cs ≠ []) : p.text.splitOn slash = cs := by
  rw [hp.text]
  exact List.splitOn_intercalate slash (fun c hc => (checkComponent_ok (hp.checked c hc)).2.1) hne

theorem Spelled.components (hp : Spelled cs p) : p.components = cs := by
  unfold Path.components
  by_cases hne : cs = []
  · subst hne
    rw [hp.text]
    rfl
  · rw [hp.splitOn hne]
    exact List.filter_eq_self.mpr (fun c hc => by simpa using (checkComponent_ok (hp.checked c hc)).1)

theorem Spelled.parses (hp : Spelled cs p) : parse p.text = .ok p := by
  unfold parse
  by_cases hne : cs = []
  · subst hne
    have htext : p.text = [] := hp.text
    rw [if_pos htext]
    cases p
    exact congrArg (fun text => Except.ok (Path.mk text)) htext.symm
  · obtain ⟨c, rest, rfl⟩ := List.exists_cons_of_ne_nil hne
    obtain ⟨hc, hslash, hback⟩ := checkComponent_ok (hp.checked c List.mem_cons_self)
    obtain ⟨b, c, rfl⟩ := List.exists_cons_of_ne_nil hc
    have hhead : p.text.head? = some b := by
      rw [hp.text, spell]
      cases rest with
      | nil => rfl
      | cons d rest => rw [List.intercalate_cons_cons]; rfl
    have hnil : p.text ≠ [] := by
      rw [hp.text]
      exact fun hs => nomatch (spell_eq_nil hp.checked).mp hs
    rw [if_neg hnil, hhead, if_neg ?_, hp.splitOn hne, fromComponents]
    · have hall := pushAll (List.forall_mem_nil _) hp.checked
      rw [spell_nil, List.nil_append, ← hp.text] at hall
      rw [hall]
      simp only [Parsing.except_ok_bind, if_neg (Nat.not_lt_of_le hp.length)]
      rfl
    · rintro (h | h)
      · exact hslash (Option.some.inj h ▸ List.mem_cons_self)
      · exact hback (Option.some.inj h ▸ List.mem_cons_self)

theorem Spelled.fileName_join (hp : Spelled cs p) (h : p.join c = .ok q) : q.fileName = some c := by
  unfold fileName
  rw [(hp.join h).components, List.getLast?_concat]

theorem Spelled.parent_join (hp : Spelled cs p) (h : p.join c = .ok q) : q.parent = some p ↔ p ≠ root := by
  rw [(hp.join h).parent_concat]
  have hroot : cs = [] ↔ p = root := by
    rw [← spell_eq_nil hp.checked, ← hp.text]
    cases p
    exact ⟨fun h => congrArg Path.mk h, fun h => congrArg Path.text h⟩
  have hself : (⟨spell cs⟩ : Path) = p := by
    rw [← hp.text]
  rw [hself]
  by_cases hnil : cs = []
  · rw [if_pos hnil]
    exact ⟨nofun, fun hne => absurd (hroot.mp hnil) hne⟩
  · rw [if_neg hnil]
    exact ⟨fun _ he => hnil (hroot.mpr he), fun _ => rfl⟩

/-- **Which paths keep the laws.** A path that can be made has checked components, is what its string parses to, and gives
    a joined component its name; and it keeps all the laws exactly when it is not the root, which is never found again
    as the parent of a path. -/
theorem lawful_iff (h : Obtainable p) :
    ((∀ c ∈ p.components, checkComponent c = .ok ()) ∧ parse p.text = .ok p ∧
      ∀ c q, p.join c = .ok q → q.fileName = some c) ∧
    (Lawful p ↔ p ≠ root) := by
  obtain ⟨cs, hp⟩ := h.spelled
  have hchecked : ∀ c ∈ p.components, checkComponent c = .ok () := by
    rw [hp.components]
    exact hp.checked
  have hnames : ∀ c q, p.join c = .ok q → q.fileName = some c := fun c q hq => hp.fileName_join hq
  refine ⟨⟨hchecked, hp.parses, hnames⟩, fun hlaws => ?_, fun hne => ?_⟩
  · rintro rfl
    have hparent := hlaws.parent [97] ⟨[97]⟩ (by decide)
    exact absurd hparent (by decide)
  · exact ⟨hchecked, hp.parses, fun c q hq => (hp.parent_join hq).mpr hne, hnames⟩

/-- The path `a` can be made and is not the root. -/
theorem lawful_letter : Lawful ⟨[97]⟩ := (lawful_iff (.parse (s := [97]) (by decide))).2.mpr (by decide)

/-- **The parent of a top-level path is missing**: the root joined with `a` has none. -/
theorem root_not_lawful : ¬ ∀ p, Obtainable p → Lawful p := by
  intro hall
  have hparent := (hall root .root).parent [97] ⟨[97]⟩ (by decide)
  exact absurd hparent (by decide)

end Path

end IshaVectorDb.Engine.PathStrings
