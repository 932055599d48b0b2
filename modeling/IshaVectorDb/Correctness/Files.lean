import IshaVectorDb.Engine.Segment
import Mathlib.Logic.Function.Basic

/-!
# `Correctness.Files` — what the engine's file operations leave **behind**

An `Image` is what the files hold: the bytes a process sees (`Sel.live`) or the bytes a power loss would leave
(`Sel.durable`). A `Spec` of an operation says, over one image, what is left when it succeeds, at each death
inside it, and after each failing call. Replacing a file goes through the old content, an empty file and every
prefix of the new one in the live image (`Call.Tears` names the deaths that leave one of these), and straight
from the old content to the new in the durable one (`writeFile_spec`).
-/

namespace IshaVectorDb.Engine

open Format Interaction

/-! ## Images -/

/-- What a process sees, or what a power loss leaves. -/
inductive Sel
  | live
  | durable
deriving DecidableEq

def Sel.of : Sel → FileData → Bytes
  | live, d => d.live
  | durable, d => d.durable

/-- The content of every file. -/
abbrev Image := DbPath → Option Bytes

/-- The two images agree on every path that does not satisfy `P`. -/
def Off (P : DbPath → Prop) (a b : Image) : Prop := ∀ p, ¬ P p → b p = a p

namespace Off

variable {P Q : DbPath → Prop} {a b c : Image}

theorem refl (P : DbPath → Prop) (a : Image) : Off P a a := fun _ _ => rfl

theorem trans (h : Off P a b) (h' : Off P b c) : Off P a c := fun p hp => (h' p hp).trans (h p hp)

theorem mono (h : Off P a b) (hpq : ∀ p, P p → Q p) : Off Q a b := fun p hp => h p (fun hP => hp (hpq p hP))

theorem update (a : Image) {p : DbPath} (hp : P p) (v : Option Bytes) : Off P a (Function.update a p v) := by
  intro q hq
  rw [Function.update_of_ne]
  rintro rfl
  exact hq hp

end Off

namespace MemoryStorage

variable {s : MemoryStorage} {path : DbPath}

/-- The files of the storage. -/
def image (s : MemoryStorage) (sel : Sel) : Image := fun p => match s.get p with
  | some (.file d) => some (sel.of d)
  | _ => none

theorem image_file {d : FileData} (h : s.get path = some (.file d)) (sel : Sel) :
    s.image sel path = some (sel.of d) := by unfold image; rw [h]

theorem image_none (h : s.get path = none) (sel : Sel) : s.image sel path = none := by unfold image; rw [h]

theorem image_put_file (s : MemoryStorage) (path : DbPath) (d : FileData) (sel : Sel) :
    (s.put path (.file d)).image sel = Function.update (s.image sel) path (some (sel.of d)) := by
  funext p
  by_cases hp : p = path
  · subst hp; rw [Function.update_self, image_file (get_put_self _ _ _)]
  · rw [Function.update_of_ne hp]; unfold image; rw [get_put_ne s _ hp]

theorem image_put_dir (h : s.image .live path = none) (sel : Sel) : (s.put path .dir).image sel = s.image sel := by
  funext p
  by_cases hp : p = path
  · subst hp
    unfold image at h ⊢
    rw [get_put_self]
    split at h
    · cases h
    · rename_i hn
      cases hg : s.get p with
      | none => rfl
      | some e =>
        cases e with
        | dir => rfl
        | file d => exact absurd hg (hn d)
  · unfold image; rw [get_put_ne s _ hp]

theorem image_erase (s : MemoryStorage) (path : DbPath) (sel : Sel) :
    (s.erase path).image sel = Function.update (s.image sel) path none := by
  funext p
  by_cases hp : p = path
  · subst hp; rw [Function.update_self, image_none (get_erase_self _ _)]
  · rw [Function.update_of_ne hp]; unfold image; rw [get_erase_ne s hp]

theorem file_of_image {sel : Sel} {bs : Bytes} (hi : s.image sel path = some bs) :
    ∃ d, s.get path = some (.file d) ∧ sel.of d = bs := by
  unfold image at hi
  split at hi
  · rename_i d hd; exact ⟨d, hd, Option.some.inj hi⟩
  · cases hi

/-- **A power loss makes the durable image the only one.** -/
theorem image_simulatePowerLoss (s : MemoryStorage) (sel : Sel) :
    s.simulatePowerLoss.image sel = s.image .durable := by
  funext p
  unfold image
  rw [get_simulatePowerLoss]
  cases s.get p with
  | none => rfl
  | some e =>
    cases e with
    | dir => rfl
    | file d => cases sel <;> rfl

@[simp] theorem put_put (s : MemoryStorage) (path : DbPath) (e e' : Entry) :
    (s.put path e).put path e' = s.put path e' := by
  unfold put; rw [AList.insert_insert]

end MemoryStorage

/-! ## Shape -/

/-- Whether the engine makes a directory of the path. -/
def DbPath.isDir : DbPath → Bool
  | .root => true
  | .collectionsDir => true
  | .collectionDir _ => true
  | .walDir _ => true
  | .segmentsDir _ => true
  | .indexDir _ => true
  | _ => false

/-- Directories are directories, files are files, and every entry lies in a directory. -/
structure Shape (s : MemoryStorage) : Prop where
  root : s.get .root = some .dir
  nested : ∀ p e, s.get p = some e → s.get p.parent = some .dir
  dirs : ∀ p d, s.get p = some (.file d) → p.isDir = false
  files : ∀ p, s.get p = some .dir → p.isDir = true

namespace Shape

open MemoryStorage

variable {s : MemoryStorage} {path : DbPath}

theorem new : Shape MemoryStorage.new := by
  have hget : ∀ p, MemoryStorage.new.get p = if p = .root then some .dir else none := by
    intro p
    unfold MemoryStorage.new MemoryStorage.get
    by_cases hp : p = .root
    · subst hp; rw [if_pos rfl]; exact AList.lookup_insert _
    · rw [if_neg hp]
      show AList.lookup p (AList.insert _ _ _) = none
      rw [AList.lookup_insert_ne hp]; exact AList.lookup_empty p
  refine ⟨hget .root, fun p e h => ?_, fun p d h => ?_, fun p h => ?_⟩
  · rw [hget] at h
    split at h
    · rename_i hp; subst hp; exact hget .root
    · cases h
  · rw [hget] at h
    split at h <;> cases h
  · rw [hget] at h
    split at h
    · rename_i hp; subst hp; rfl
    · cases h

theorem not_dir (h : Shape s) (hp : path.isDir = false) : s.get path ≠ some .dir :=
  fun hd => by rw [h.files path hd] at hp; cases hp

/-- What can be at a file's path. -/
theorem file_or_none (h : Shape s) (hp : path.isDir = false) :
    (∃ d, s.get path = some (.file d)) ∨ s.get path = none := by
  cases hg : s.get path with
  | none => exact .inr rfl
  | some e =>
    cases e with
    | dir => exact absurd hg (h.not_dir hp)
    | file d => exact .inl ⟨d, rfl⟩

theorem image_isSome (h : Shape s) (hp : path.isDir = false) (sel : Sel) :
    (s.image sel path).isSome = (s.get path).isSome := by
  rcases h.file_or_none hp with ⟨d, hd⟩ | hnone
  · rw [image_file hd, hd]; rfl
  · rw [image_none hnone, hnone]; rfl

/-- The directory of a path is never a file. -/
theorem parent_ne (h : Shape s) {q : DbPath} {e : Entry} (hq : s.get q = some e) (hp : path.isDir = false) :
    q.parent ≠ path := fun he => h.not_dir hp (by rw [← he]; exact h.nested q e hq)

theorem put_file (h : Shape s) (hp : path.isDir = false) (hparent : s.get path.parent = some .dir) (d : FileData) :
    Shape (s.put path (.file d)) := by
  have hroot : ∀ q, q.isDir = true → (s.put path (.file d)).get q = s.get q := fun q hq =>
    get_put_ne s _ (fun he => by rw [he, hp] at hq; cases hq)
  have hdir : path.parent.isDir = true := h.files _ hparent
  refine ⟨by rw [hroot _ rfl]; exact h.root, fun q e hq => ?_, fun q d' hq => ?_, fun q hq => ?_⟩
  · by_cases hqp : q = path
    · subst hqp; rw [hroot _ hdir]; exact hparent
    · rw [get_put_ne s _ hqp] at hq
      rw [get_put_ne s _ (h.parent_ne hq hp)]; exact h.nested q e hq
  · by_cases hqp : q = path
    · subst hqp; exact hp
    · rw [get_put_ne s _ hqp] at hq; exact h.dirs q d' hq
  · by_cases hqp : q = path
    · subst hqp; rw [get_put_self] at hq; cases hq
    · rw [get_put_ne s _ hqp] at hq; exact h.files q hq

theorem erase_file (h : Shape s) (hp : path.isDir = false) : Shape (s.erase path) := by
  have hsame : ∀ q e, (s.erase path).get q = some e → q ≠ path ∧ s.get q = some e := fun q e hq => by
    by_cases hqp : q = path
    · subst hqp; rw [get_erase_self] at hq; cases hq
    · exact ⟨hqp, by rw [get_erase_ne s hqp] at hq; exact hq⟩
  refine ⟨?_, fun q e hq => ?_, fun q d hq => h.dirs q d (hsame q _ hq).2, fun q hq => h.files q (hsame q _ hq).2⟩
  · rw [get_erase_ne s (fun he => by rw [← he] at hp; cases hp)]; exact h.root
  · have hq' := (hsame q e hq).2
    rw [get_erase_ne s (h.parent_ne hq' hp)]; exact h.nested q e hq'

theorem put_dir (h : Shape s) (hp : path.isDir = true) (hnone : s.get path = none)
    (hparent : s.get path.parent = some .dir) : Shape (s.put path .dir) := by
  have hkeep : ∀ q, s.get q = some .dir → (s.put path .dir).get q = some .dir := fun q hq => by
    by_cases hqp : q = path
    · subst hqp; exact get_put_self _ _ _
    · rw [get_put_ne s _ hqp]; exact hq
  refine ⟨hkeep _ h.root, fun q e hq => ?_, fun q d hq => ?_, fun q hq => ?_⟩
  · by_cases hqp : q = path
    · subst hqp; exact hkeep _ hparent
    · rw [get_put_ne s _ hqp] at hq; exact hkeep _ (h.nested q e hq)
  · by_cases hqp : q = path
    · subst hqp; rw [get_put_self] at hq; cases hq
    · rw [get_put_ne s _ hqp] at hq; exact h.dirs q d hq
  · by_cases hqp : q = path
    · subst hqp; exact hp
    · rw [get_put_ne s _ hqp] at hq; exact h.files q hq

theorem simulatePowerLoss (h : Shape s) : Shape s.simulatePowerLoss := by
  have hdir : ∀ p, s.simulatePowerLoss.get p = some .dir ↔ s.get p = some .dir := fun p => by
    rw [get_simulatePowerLoss, Option.map_eq_some_iff]
    constructor
    · rintro ⟨e, he, hr⟩
      cases e with
      | dir => exact he
      | file d => cases hr
    · intro hp; exact ⟨.dir, hp, rfl⟩
  refine ⟨(hdir _).mpr h.root, fun p e he => ?_, fun p d hd => ?_, fun p hp => h.files p ((hdir p).mp hp)⟩
  · rw [get_simulatePowerLoss, Option.map_eq_some_iff] at he
    obtain ⟨e', he', -⟩ := he
    exact (hdir _).mpr (h.nested p e' he')
  · rw [get_simulatePowerLoss, Option.map_eq_some_iff] at hd
    obtain ⟨e', he', hr⟩ := hd
    cases e' with
    | dir => cases hr
    | file d' => exact h.dirs p d' he'

end Shape

/-! ## Specs over an image -/

/-- The path a call is about. -/
def Call.path : Call → DbPath
  | .openFile path _ => path
  | .metadata path => path
  | .readAt f _ _ => f.path
  | .writeAt f _ _ => f.path
  | .append f _ => f.path
  | .truncate f _ => f.path
  | .len f => f.path
  | .syncData f => f.path
  | .removeFile path => path
  | .createDirAll path => path
  | .listDir path => path
  | .removeDirAll path => path

/-- Calls that change nothing. -/
def Call.IsRead : Call → Prop
  | .openFile _ .read => True
  | .metadata _ => True
  | .readAt _ _ _ => True
  | .len _ => True
  | .listDir _ => True
  | _ => False

instance (c : Call) : Decidable c.IsRead := by
  cases c with
  | openFile path mode => cases mode <;> unfold Call.IsRead <;> infer_instance
  | _ => unfold Call.IsRead; infer_instance

/-- The death leaves a file between its truncation and the end of its rewriting, or with part of what was to be
    appended. -/
def Call.Tears : Call → Nat → Prop
  | .truncate _ _, n => n ≠ 0
  | .writeAt _ bytes _, n => n < bytes.length
  | .append _ bytes, n => n ≠ 0 ∧ n < bytes.length
  | _, _ => False

instance (c : Call) (n : Nat) : Decidable (c.Tears n) := by
  cases c <;> unfold Call.Tears <;> infer_instance

/-- A triple over images: at every death the storage is in shape and its image satisfies `K`, after every
    failing call it is in shape and its live image satisfies `G`. -/
abbrev Spec {S α : Type} (sel : Sel) (m : Action S α) (x : S) (s : MemoryStorage)
    (Q : α → S → MemoryStorage → Prop) (K : Call → Nat → Image → Prop) (G : Call → S → Image → Prop) : Prop :=
  Triple device m x s Q (fun c n s' => Shape s' ∧ K c n (s'.image sel))
    (fun c x' s' => Shape s' ∧ G c x' (s'.image .live))

section Calls

variable {S : Type} {sel : Sel} {x : S} {s : MemoryStorage} {path : DbPath}
  {K : Call → Nat → Image → Prop} {G : Call → S → Image → Prop}

/-- **A call that changes nothing.** -/
theorem read_spec {c : Call} {Q : c.Reply → S → MemoryStorage → Prop} {r : c.Reply} (hs : Shape s) (hc : c.IsRead)
    (hstep : device.step c s = (.ok r, s)) (hQ : Q r x s) (hK : ∀ n, K c n (s.image sel))
    (hG : G c x (s.image .live)) : Spec sel (call c) x s Q K G := by
  have hcut : ∀ n, device.cut c n s = s := fun n => by
    have hdone : (MemoryStorage.step c s).2 = s := congrArg Prod.snd hstep
    cases c with
    | openFile path mode => exact (if_congr Iff.rfl rfl hdone).trans (ite_self s)
    | metadata path => exact ite_self s
    | readAt f len offset => exact ite_self s
    | len f => exact ite_self s
    | listDir path => exact ite_self s
    | _ => cases hc
  have hfail : ∀ n, device.fail c n s = s := fun n => by
    cases c with
    | openFile path mode => exact ite_self s
    | metadata path => exact ite_self s
    | readAt f len offset => exact ite_self s
    | len f => exact ite_self s
    | listDir path => exact ite_self s
    | _ => cases hc
  exact Triple.call hstep hQ (fun n => by rw [hcut n]; exact ⟨hs, hK n⟩) (fun n => by rw [hfail n]; exact ⟨hs, hG⟩)

theorem step_metadata (path : DbPath) (s : MemoryStorage) :
    device.step (.metadata path) s = (.ok (s.metadata path), s) := rfl

theorem metadata_file {d : FileData} (h : s.get path = some (.file d)) :
    s.metadata path = some d.live.length := by unfold MemoryStorage.metadata; rw [h]

theorem metadata_none (h : s.get path = none) : s.metadata path = none := by
  unfold MemoryStorage.metadata; rw [h]

/-- **Reading a whole file.** -/
theorem readFile_spec {Q : Option Bytes → S → MemoryStorage → Prop} (hs : Shape s) (hp : path.isDir = false)
    (hQ : Q (s.image .live path) x s) (hK : ∀ c n, K c n (s.image sel))
    (hG : ∀ c : Call, c.IsRead → c.path = path → G c x (s.image .live)) : Spec sel (readFile path) x s Q K G := by
  refine Triple.bind (read_spec hs trivial (step_metadata path s) ?_ (hK _) (hG _ trivial rfl))
  rcases hs.file_or_none hp with ⟨d, hd⟩ | hnone
  · rw [metadata_file hd]
    have hopen : device.step (.openFile path .read) s = (.ok ⟨path, false⟩, s) := MemoryStorage.openFile_file .read hd
    have hread : device.step (.readAt ⟨path, false⟩ d.live.length 0) s = (.ok d.live, s) := by
      show (MemoryStorage.readAt s ⟨path, false⟩ d.live.length 0, s) = _
      unfold MemoryStorage.readAt
      rw [hd]; simp
    rw [MemoryStorage.image_file hd] at hQ
    refine Triple.bind (read_spec hs trivial hopen ?_ (hK _) (hG _ trivial rfl))
    refine Triple.bind (read_spec hs trivial hread ?_ (hK _) (hG _ trivial rfl))
    exact Triple.pure hQ
  · rw [metadata_none hnone]
    rw [MemoryStorage.image_none hnone] at hQ
    exact Triple.pure hQ

/-! ## Replacing a file -/

theorem step_truncate {d : FileData} (h : s.get path = some (.file d)) (len : Nat) :
    device.step (.truncate ⟨path, true⟩ len) s = (.ok (), s.put path (.file ⟨resize d.live len, d.durable⟩)) :=
  MemoryStorage.change_file (f := ⟨path, true⟩) .truncate rfl h

theorem step_writeAt {d : FileData} (h : s.get path = some (.file d)) (bytes : Bytes) :
    device.step (.writeAt ⟨path, true⟩ bytes 0) s = (.ok (), s.put path (.file ⟨overwrite d.live bytes 0, d.durable⟩)) :=
  MemoryStorage.change_file (f := ⟨path, true⟩) .write rfl h

theorem step_syncData {d : FileData} (h : s.get path = some (.file d)) :
    device.step (.syncData ⟨path, true⟩) s = (.ok (), s.put path (.file ⟨d.live, d.live⟩)) :=
  MemoryStorage.change_file (f := ⟨path, true⟩) .sync rfl h

theorem step_append {d : FileData} (h : s.get path = some (.file d)) (bytes : Bytes) :
    device.step (.append ⟨path, true⟩ bytes) s =
      (.ok d.live.length, s.put path (.file ⟨d.live ++ bytes, d.durable⟩)) :=
  MemoryStorage.change_file (f := ⟨path, true⟩) .append rfl h

/-- What opening a file with `Create` gives, and that a later replacement forgets whether it was there. -/
theorem step_create (hs : Shape s) (hp : path.isDir = false) (hparent : s.get path.parent = some .dir) :
    ∃ t d, device.step (.openFile path .create) s = (.ok ⟨path, true⟩, t) ∧ t.get path = some (.file d) ∧
      (t = s ∨ s.get path = none ∧ d = ⟨[], []⟩ ∧ t = s.put path (.file ⟨[], []⟩)) ∧
      ∀ e, t.put path e = s.put path e := by
  rcases hs.file_or_none hp with ⟨d, hd⟩ | hnone
  · exact ⟨s, d, MemoryStorage.openFile_file .create hd, hd, .inl rfl, fun _ => rfl⟩
  · refine ⟨s.put path (.file ⟨[], []⟩), ⟨[], []⟩, ?_, MemoryStorage.get_put_self _ _ _, .inr ⟨hnone, rfl, rfl⟩,
      fun e => MemoryStorage.put_put _ _ _ _⟩
    show MemoryStorage.openFile s path .create = _
    unfold MemoryStorage.openFile
    rw [hnone]
    simp [hparent, OpenMode.isWritable]

/-- **Replacing a file.** In the live image it passes through the prefixes of the new content, in the durable
    one it does not. -/
theorem writeFile_spec {bytes : Bytes} {Q : Unit → S → MemoryStorage → Prop} (hs : Shape s) (hp : path.isDir = false)
    (hparent : s.get path.parent = some .dir)
    (hQ : Q () x (s.put path (.file ⟨bytes, bytes⟩)))
    (hold : ∀ c n, c.path = path → K c n (s.image sel))
    (hnew : s.get path = none → ∀ c n, c.path = path → K c n (Function.update (s.image sel) path (some [])))
    (htorn : sel = .live → ∀ c n k, c.path = path → c.Tears n →
      K c n (Function.update (s.image sel) path (some (bytes.take k))))
    (hdone : ∀ c n, c.path = path → K c n (Function.update (s.image sel) path (some bytes)))
    (gold : ∀ c, c = .openFile path .create ∨ c = .truncate ⟨path, true⟩ 0 → G c x (s.image .live))
    (gnew : s.get path = none → G (.truncate ⟨path, true⟩ 0) x (Function.update (s.image .live) path (some [])))
    (gpart : ∀ k, G (.writeAt ⟨path, true⟩ bytes 0) x (Function.update (s.image .live) path (some (bytes.take k))))
    (gsync : G (.syncData ⟨path, true⟩) x (Function.update (s.image .live) path (some bytes))) :
    Spec sel (writeFile path bytes) x s Q K G := by
  obtain ⟨t, d, hopen, hd, hcase, hput⟩ := step_create hs hp hparent
  have hshape : ∀ d', Shape (s.put path (.file d')) := fun d' => hs.put_file hp hparent d'
  have hts : Shape t := by
    rcases hcase with rfl | ⟨-, -, rfl⟩
    · exact hs
    · exact hshape _
  -- what each file content means for the two images
  have hK : ∀ c n d', c.path = path → (d'.live = bytes ∨ sel = .durable ∨ (c.Tears n ∧ ∃ k, d'.live = bytes.take k)) →
      d'.durable = d.durable → K c n ((s.put path (.file d')).image sel) := by
    intro c n d' hc hlive hdur
    rw [MemoryStorage.image_put_file]
    cases sel with
    | live =>
      rcases hlive with hl | hl | ⟨ht, k, hl⟩
      · rw [show Sel.live.of d' = bytes from hl]; exact hdone c n hc
      · cases hl
      · rw [show Sel.live.of d' = bytes.take k from hl]; exact htorn rfl c n k hc ht
    | durable =>
      rw [show Sel.durable.of d' = d.durable from hdur]
      rcases hcase with rfl | ⟨hnone, rfl, -⟩
      · rw [Function.update_eq_self_iff.mpr (MemoryStorage.image_file hd .durable).symm]
        exact hold c n hc
      · exact hnew hnone c n hc
  have hKt : ∀ c n, c.path = path → K c n (t.image sel) := by
    intro c n hc
    rcases hcase with rfl | ⟨hnone, rfl, rfl⟩
    · exact hold c n hc
    · rw [MemoryStorage.image_put_file]
      cases sel <;> exact hnew hnone c n hc
  have hlive : ∀ d' : FileData, (s.put path (.file d')).image .live = Function.update (s.image .live) path (some d'.live) :=
    fun d' => MemoryStorage.image_put_file s path d' .live
  unfold writeFile
  refine Triple.bind (Triple.call hopen ?_ (fun n => ?_) (fun n => ?_))
  rotate_left
  · show Shape (if n = 0 then s else (MemoryStorage.step (.openFile path .create) s).2) ∧ _
    have htwo : (MemoryStorage.step (.openFile path .create) s).2 = t := congrArg Prod.snd hopen
    show Shape (if n = 0 then s else _) ∧ K _ _ ((if n = 0 then s else _).image sel)
    rw [htwo]
    split
    · exact ⟨hs, hold _ _ rfl⟩
    · exact ⟨hts, hKt _ _ rfl⟩
  · have hfail : device.fail (.openFile path .create) n s = s := ite_self s
    rw [hfail]
    exact ⟨hs, gold _ (.inl rfl)⟩
  have htrunc := step_truncate hd 0
  rw [MemoryStorage.resize_zero, hput] at htrunc
  refine Triple.bind (Triple.call htrunc ?_ (fun n => ?_) (fun n => ?_))
  rotate_left
  · have htwo : (MemoryStorage.step (.truncate ⟨path, true⟩ 0) t).2 = s.put path (.file ⟨[], d.durable⟩) :=
      congrArg Prod.snd htrunc
    show Shape (if n = 0 then t else _) ∧ K _ _ ((if n = 0 then t else _).image sel)
    rw [htwo]
    split
    · exact ⟨hts, hKt _ _ rfl⟩
    · rename_i hn
      exact ⟨hshape _, hK _ _ _ rfl (.inr (.inr ⟨hn, 0, by simp⟩)) rfl⟩
  · have hfail : device.fail (.truncate ⟨path, true⟩ 0) n t = t := ite_self t
    rw [hfail]
    refine ⟨hts, ?_⟩
    rcases hcase with rfl | ⟨hnone, -, rfl⟩
    · exact gold _ (.inr rfl)
    · rw [hlive]; exact gnew hnone
  have hwrite : ∀ bs : Bytes, device.step (.writeAt ⟨path, true⟩ bs 0) (s.put path (.file ⟨[], d.durable⟩)) =
      (.ok (), s.put path (.file ⟨bs, d.durable⟩)) := fun bs => by
    have h := step_writeAt (MemoryStorage.get_put_self s path (.file ⟨[], d.durable⟩)) bs
    rw [MemoryStorage.overwrite_nil, MemoryStorage.put_put] at h
    exact h
  have hsome : ∀ n, (MemoryStorage.writeAt (s.put path (.file ⟨[], d.durable⟩)) ⟨path, true⟩ (bytes.take n) 0).2 =
      s.put path (.file ⟨bytes.take n, d.durable⟩) := fun n => congrArg Prod.snd (hwrite (bytes.take n))
  refine Triple.bind (Triple.call (hwrite bytes) ?_ (fun n => ?_) (fun n => ?_))
  rotate_left
  · show Shape (MemoryStorage.writeAt _ _ (bytes.take n) 0).2 ∧
      K _ _ ((MemoryStorage.writeAt _ _ (bytes.take n) 0).2.image sel)
    rw [hsome]
    refine ⟨hshape _, hK _ _ _ rfl ?_ rfl⟩
    by_cases hn : n < bytes.length
    · exact .inr (.inr ⟨hn, n, rfl⟩)
    · exact .inl (List.take_of_length_le (by omega))
  · show Shape (MemoryStorage.writeAt _ _ (bytes.take n) 0).2 ∧
      G _ _ ((MemoryStorage.writeAt _ _ (bytes.take n) 0).2.image .live)
    rw [hsome, hlive]
    exact ⟨hshape _, gpart n⟩
  have hsync := step_syncData (MemoryStorage.get_put_self s path (.file ⟨bytes, d.durable⟩))
  rw [MemoryStorage.put_put] at hsync
  refine Triple.call hsync hQ (fun n => ?_) (fun n => ?_)
  · have htwo : (MemoryStorage.step (.syncData ⟨path, true⟩) (s.put path (.file ⟨bytes, d.durable⟩))).2 =
        s.put path (.file ⟨bytes, bytes⟩) := congrArg Prod.snd hsync
    have hcut : device.cut (.syncData ⟨path, true⟩) n (s.put path (.file ⟨bytes, d.durable⟩)) =
        if n = 0 then s.put path (.file ⟨bytes, d.durable⟩) else s.put path (.file ⟨bytes, bytes⟩) := by
      rw [← htwo]; rfl
    rw [hcut]
    split
    · exact ⟨hshape _, hK _ _ _ rfl (.inl rfl) rfl⟩
    · refine ⟨hshape _, ?_⟩
      rw [MemoryStorage.image_put_file]
      cases sel <;> exact hdone _ _ rfl
  · have hfail : device.fail (.syncData ⟨path, true⟩) n (s.put path (.file ⟨bytes, d.durable⟩)) =
        s.put path (.file ⟨bytes, d.durable⟩) := ite_self _
    rw [hfail, hlive]
    exact ⟨hshape _, gsync⟩

/-- **Replacing a file nobody depends on.** -/
theorem writeFile_off {bytes : Bytes} {Q : Unit → S → MemoryStorage → Prop} (hs : Shape s) (hp : path.isDir = false)
    (hparent : s.get path.parent = some .dir) (hQ : Q () x (s.put path (.file ⟨bytes, bytes⟩)))
    (hK : ∀ c n img, c.path = path → Off (· = path) (s.image sel) img → K c n img)
    (hG : ∀ c img, c.path = path → Off (· = path) (s.image .live) img → G c x img) :
    Spec sel (writeFile path bytes) x s Q K G := by
  have hoff : ∀ sel v, Off (· = path) (s.image sel) (Function.update (s.image sel) path v) :=
    fun sel v => Off.update (P := (· = path)) _ rfl v
  refine writeFile_spec hs hp hparent hQ (fun c n hc => hK c n _ hc (Off.refl _ _))
    (fun _ c n hc => hK c n _ hc (hoff _ _)) (fun _ c n k hc _ => hK c n _ hc (hoff _ _))
    (fun c n hc => hK c n _ hc (hoff _ _)) (fun c hc => hG c _ ?_ (Off.refl _ _))
    (fun _ => hG _ _ rfl (hoff _ _)) (fun k => hG _ _ rfl (hoff _ _)) (hG _ _ rfl (hoff _ _))
  rcases hc with rfl | rfl <;> rfl

/-! ## Directories -/

/-- Each path lies in the one before it, the first in `q`, and all are directories. -/
def Descends : DbPath → List DbPath → Prop
  | _, [] => True
  | q, p :: rest => p.parent = q ∧ p.isDir = true ∧ Descends p rest

/-- What making missing directories leaves. -/
structure DirsMade (l : List DbPath) (s t : MemoryStorage) : Prop where
  shape : Shape t
  image : ∀ sel, t.image sel = s.image sel
  made : ∀ p ∈ l, t.get p = some .dir
  kept : ∀ p e, s.get p = some e → t.get p = some e
  other : ∀ p, p ∉ l → t.get p = s.get p

theorem createDirs_made (hs : Shape s) {q : DbPath} (hq : s.get q = some .dir) {l : List DbPath} (hl : Descends q l) :
    ∃ t, s.createDirs l = (.ok (), t) ∧ DirsMade l s t := by
  induction l generalizing q s with
  | nil => exact ⟨s, rfl, hs, fun _ => rfl, nofun, fun _ _ h => h, fun _ _ => rfl⟩
  | cons p rest ih =>
    obtain ⟨hpar, hdir, hrest⟩ := hl
    unfold MemoryStorage.createDirs
    cases hp : s.get p with
    | none =>
      have hne : s.image .live p = none := MemoryStorage.image_none hp .live
      have hshape := hs.put_dir hdir hp (by rw [hpar]; exact hq)
      obtain ⟨t, ht, hm⟩ := ih hshape (MemoryStorage.get_put_self s p .dir) hrest
      refine ⟨t, ht, hm.shape, fun sel => by rw [hm.image, MemoryStorage.image_put_dir hne], ?_, ?_, ?_⟩
      · intro p' hp'
        rcases List.mem_cons.mp hp' with rfl | hp'
        · exact hm.kept _ _ (MemoryStorage.get_put_self s p' .dir)
        · exact hm.made _ hp'
      · intro p' e he
        refine hm.kept _ _ ?_
        rw [MemoryStorage.get_put_ne s .dir (fun h => by rw [h, hp] at he; cases he)]; exact he
      · intro p' hp'
        rw [List.mem_cons, not_or] at hp'
        rw [hm.other p' hp'.2, MemoryStorage.get_put_ne s .dir hp'.1]
    | some e =>
      cases e with
      | file d => exact absurd (hs.dirs p d hp) (by rw [hdir]; exact Bool.noConfusion)
      | dir =>
        obtain ⟨t, ht, hm⟩ := ih hs hp hrest
        refine ⟨t, ht, hm.shape, hm.image, ?_, hm.kept, ?_⟩
        · intro p' hp'
          rcases List.mem_cons.mp hp' with rfl | hp'
          · exact hm.kept _ _ hp
          · exact hm.made _ hp'
        · intro p' hp'
          rw [List.mem_cons, not_or] at hp'
          exact hm.other p' hp'.2

/-- **Making directories changes no file.** -/
theorem createDirAll_spec {Q : Unit → S → MemoryStorage → Prop} (hs : Shape s)
    (hl : Descends .root path.ancestry) (hQ : ∀ t, DirsMade path.ancestry s t → Q () x t)
    (hK : ∀ n, K (.createDirAll path) n (s.image sel)) (hG : G (.createDirAll path) x (s.image .live)) :
    Spec sel (call (.createDirAll path)) x s Q K G := by
  obtain ⟨t, ht, hm⟩ := createDirs_made hs hs.root hl
  refine Triple.call ht (hQ t hm) (fun n => ?_) (fun n => ?_)
  · have htwo : (MemoryStorage.step (.createDirAll path) s).2 = t := congrArg Prod.snd ht
    show Shape (if n = 0 then s else (MemoryStorage.step (.createDirAll path) s).2) ∧
      K _ _ ((if n = 0 then s else (MemoryStorage.step (.createDirAll path) s).2).image sel)
    rw [htwo]
    split
    · exact ⟨hs, hK n⟩
    · exact ⟨hm.shape, by rw [hm.image]; exact hK n⟩
  · have hfail : device.fail (.createDirAll path) n s = s := ite_self s
    rw [hfail]
    exact ⟨hs, hG⟩

/-! ## Removing a segment's files -/

/-- The files of one segment. -/
def OfSegment (name : Str) (id : UInt64) (p : DbPath) : Prop := ∃ which, p = .segmentFile name id which

/-- **Removing one file, if it is there.** -/
theorem removeSegmentFile_spec {name : Str} (hname : checkCollectionName name = .ok ()) {id : UInt64}
    {which : SegmentFile} {Q : Unit → S → MemoryStorage → Prop} (hs : Shape s)
    (hQ : ∀ t, Shape t → (∀ sel, t.image sel = Function.update (s.image sel) (.segmentFile name id which) none) →
      (∀ p, p ≠ .segmentFile name id which → t.get p = s.get p) → Q () x t)
    (hK : ∀ c n img, Off (OfSegment name id) (s.image sel) img → K c n img)
    (hG : ∀ c : Call, ∀ img, c.path = .segmentFile name id which ∧ (c.IsRead ∨ ∃ p, c = .removeFile p) →
      Off (OfSegment name id) (s.image .live) img → G c x img) :
    Spec sel (removeSegmentFile name id which) x s Q K G := by
  set path : DbPath := .segmentFile name id which with hpath
  have hlayout : Layout.segmentFile name id which = .ok path := Layout.under_ok hname _
  have hoff : ∀ sel, Off (OfSegment name id) (s.image sel) (Function.update (s.image sel) path none) :=
    fun sel => Off.update _ ⟨which, rfl⟩ none
  refine Triple.bind (Triple.lift hlayout ?_)
  refine Triple.bind (read_spec hs trivial (step_metadata path s) ?_ (fun n => hK _ n _ (Off.refl _ _))
    (hG _ _ ⟨rfl, .inl trivial⟩ (Off.refl _ _)))
  rcases hs.file_or_none (show path.isDir = false from rfl) with ⟨d, hd⟩ | hnone
  · rw [metadata_file hd]
    have hstep : device.step (.removeFile path) s = (.ok (), s.erase path) := by
      show MemoryStorage.removeFile s path = _
      unfold MemoryStorage.removeFile
      rw [hd]
    have htwo : (MemoryStorage.step (.removeFile path) s).2 = s.erase path := congrArg Prod.snd hstep
    refine Triple.call hstep ?_ (fun n => ?_) (fun n => ?_)
    · exact hQ _ (hs.erase_file rfl) (fun sel => MemoryStorage.image_erase s path sel)
        (fun p hp => MemoryStorage.get_erase_ne s hp)
    · show Shape (if n = 0 then s else (MemoryStorage.step (.removeFile path) s).2) ∧
        K _ _ ((if n = 0 then s else (MemoryStorage.step (.removeFile path) s).2).image sel)
      rw [htwo]
      split
      · exact ⟨hs, hK _ _ _ (Off.refl _ _)⟩
      · refine ⟨hs.erase_file rfl, ?_⟩
        rw [MemoryStorage.image_erase]
        exact hK _ _ _ (hoff sel)
    · have hfail : device.fail (.removeFile path) n s = s := ite_self s
      rw [hfail]
      exact ⟨hs, hG _ _ ⟨rfl, .inr ⟨path, rfl⟩⟩ (Off.refl _ _)⟩
  · rw [metadata_none hnone]
    refine Triple.pure (hQ s hs (fun sel => ?_) (fun _ _ => rfl))
    exact (Function.update_eq_self_iff.mpr (MemoryStorage.image_none hnone sel).symm).symm

/-- What removing a segment leaves. -/
structure SegmentGone (name : Str) (id : UInt64) (s t : MemoryStorage) : Prop where
  shape : Shape t
  gone : ∀ which sel, t.image sel (.segmentFile name id which) = none
  other : ∀ p, ¬ OfSegment name id p → t.get p = s.get p

theorem image_of_get {t : MemoryStorage} {P : DbPath → Prop} (h : ∀ p, ¬ P p → t.get p = s.get p) (sel : Sel) :
    Off P (s.image sel) (t.image sel) := fun p hp => by unfold MemoryStorage.image; rw [h p hp]

theorem SegmentGone.off {t : MemoryStorage} {name : Str} {id : UInt64} (h : SegmentGone name id s t) (sel : Sel) :
    Off (OfSegment name id) (s.image sel) (t.image sel) := image_of_get h.other sel

/-- **Removing a segment changes nothing else.** -/
theorem removeSegment_spec {name : Str} (hname : checkCollectionName name = .ok ()) {id : UInt64}
    {Q : Unit → S → MemoryStorage → Prop} (hs : Shape s) (hQ : ∀ t, SegmentGone name id s t → Q () x t)
    (hK : ∀ c n img, Off (OfSegment name id) (s.image sel) img → K c n img)
    (hG : ∀ c : Call, ∀ img, OfSegment name id c.path ∧ (c.IsRead ∨ ∃ p, c = .removeFile p) →
      Off (OfSegment name id) (s.image .live) img → G c x img) :
    Spec sel (removeSegment name id) x s Q K G := by
  refine (Triple.forList (fun done x' t => x' = x ∧ Shape t ∧
    (∀ which ∈ done, ∀ sel, t.image sel (.segmentFile name id which) = none) ∧
    ∀ p, ¬ OfSegment name id p → t.get p = s.get p) SegmentFile.all ?_ ⟨rfl, hs, nofun, fun _ _ => rfl⟩).conseq ?_
  · rintro done which rest x' t - ⟨rfl, ht, hdone, hother⟩
    have hoff : ∀ sel, Off (OfSegment name id) (s.image sel) (t.image sel) := fun sel => image_of_get hother sel
    refine removeSegmentFile_spec hname ht (fun u hu himg hget => ?_) (fun c n img h => hK c n img ((hoff _).trans h))
      (fun c img hc h => hG c img ⟨⟨which, hc.1⟩, hc.2⟩ ((hoff _).trans h))
    refine ⟨rfl, hu, fun w hw sel => ?_, fun p hp => ?_⟩
    · rw [himg]
      by_cases hww : w = which
      · rw [hww, Function.update_self]
      · rw [Function.update_of_ne (fun h => hww (DbPath.segmentFile.inj h).2.2)]
        rcases List.mem_append.mp hw with hw | hw
        · exact hdone w hw sel
        · exact absurd (List.mem_singleton.mp hw) hww
    · rw [hget p (fun h => hp ⟨which, h⟩)]; exact hother p hp
  · rintro _ x' t ⟨rfl, ht, hdone, hother⟩
    refine hQ t ⟨ht, fun which sel => hdone which ?_ sel, hother⟩
    cases which <;> simp [SegmentFile.all]

end Calls

end IshaVectorDb.Engine
