import IshaVectorDb.Sdk.OpfsPool

/-!
# `Correctness.SlotPool` — **slots hold their files apart**, over any run of a page and its reloads

What the pool shows under each path is what files of their own would: a new file is empty, a write changes the one
file it is made to, a removal takes the one file away, and a death leaves each file as it was or as it was to be. Both
copies of the mapping agree throughout. `Allowed` says which steps this holds of, and each clause of it keeps one of
the code's slips out: a path that the header cannot hold, a handle that throws half-way, a death inside the creation
of a file in a slot that was not truncated, and a file object whose slot has gone to another path.
-/

namespace IshaVectorDb.Correctness

open Format Engine Interaction Sdk Parsing

/-! ## Headers -/

/-- A path that a header holds: some bytes, not too many, and no byte order mark before them. -/
structure PathFits (path : Str) : Prop where
  some : path.bytes ≠ []
  short : path.bytes.length ≤ maxPath
  unmarked : withoutMark path.bytes = path.bytes

instance (path : Str) : Decidable (PathFits path) :=
  decidable_of_iff (path.bytes ≠ [] ∧ path.bytes.length ≤ maxPath ∧ withoutMark path.bytes = path.bytes)
    ⟨fun h => ⟨h.1, h.2.1, h.2.2⟩, fun h => ⟨h.some, h.short, h.unmarked⟩⟩

theorem header_length {path : Str} (h : path.bytes.length ≤ maxPath) : (header path).length = headerBytes := by
  unfold header
  have h4 : magic.length = 4 := rfl
  have h2 : (leBytes 2 path.bytes.length).length = 2 := leBytes_length _ _
  have h512 : headerBytes = 512 := rfl
  have hmax : maxPath = 504 := rfl
  simp only [List.length_append, List.length_replicate, List.length_cons, List.length_nil, h4, h2]
  omega

section

variable (lossy : Bytes → Str)

/-- The path that a slot's file names. -/
def slotPath (file : Bytes) : Option Str :=
  if file.length < headerBytes then none else headerPath lossy (file.take headerBytes)

/-- **A header names its path.** -/
theorem headerPath_header {path : Str} (h : PathFits path) : headerPath lossy (header path) = some path := by
  have hmax : maxPath = 504 := rfl
  have hshort := h.short
  have hlen : leNat (leBytes 2 path.bytes.length) = path.bytes.length := leNat_leBytes_of_lt (by omega)
  have h2 : (leBytes 2 path.bytes.length).length = 2 := leBytes_length _ _
  have h4 : magic.length = 4 := rfl
  have htake : (header path).take 4 = magic := List.take_left' h4
  have hdrop : (header path).drop 4 = leBytes 2 path.bytes.length ++ ([0, 0] ++
      (path.bytes ++ List.replicate (headerBytes - 8 - path.bytes.length) 0)) := List.drop_left' h4
  have hbody : (header path).drop 8 = path.bytes ++ List.replicate (headerBytes - 8 - path.bytes.length) 0 := by
    rw [show 8 = 4 + (2 + 2) from rfl, ← List.drop_drop, hdrop, ← List.drop_drop, List.drop_left' h2]
    rfl
  have hne : path.bytes.length ≠ 0 := fun h0 => h.some (List.eq_nil_of_length_eq_zero h0)
  unfold headerPath
  rw [if_neg (not_not.mpr htake), hdrop, List.take_left' h2, hlen, hbody]
  dsimp only
  rw [if_neg (by omega), List.take_left' rfl, decodeText, h.unmarked, fromUtf8_bytes]
  rfl

/-- Zeroes name none. -/
theorem headerPath_zeroes : headerPath lossy (List.replicate headerBytes 0) = none := by
  unfold headerPath
  rw [if_pos]
  show (List.replicate 512 (0 : UInt8)).take 4 ≠ magic
  rw [List.take_replicate]
  decide

theorem slotPath_append {head : Bytes} (h : head.length = headerBytes) (rest : Bytes) :
    slotPath lossy (head ++ rest) = headerPath lossy head := by
  unfold slotPath
  rw [if_neg (by rw [List.length_append]; omega), List.take_left' h]

theorem length_of_slotPath {file : Bytes} {path : Str} (h : slotPath lossy file = some path) :
    headerBytes ≤ file.length := by
  unfold slotPath at h
  split at h
  · cases h
  · omega

/-! ## What a call does to a slot's file -/

/-- A slot's file is its header and the bytes of the file that it holds. -/
theorem slotPath_of_take {file file' : Bytes} (hlen : headerBytes ≤ file.length) (hlen' : headerBytes ≤ file'.length)
    (h : file'.take headerBytes = file.take headerBytes) : slotPath lossy file' = slotPath lossy file := by
  unfold slotPath
  rw [if_neg (by omega), if_neg (by omega), h]

end

/-- Truncating behind the header leaves it, and truncates the file. -/
theorem resize_split {file : Bytes} (h : headerBytes ≤ file.length) (len : Nat) :
    resize file (headerBytes + len) = file.take headerBytes ++ resize (file.drop headerBytes) len := by
  unfold resize
  rw [List.length_drop, List.take_add, List.append_assoc, show headerBytes + len - file.length = len - (file.length - headerBytes) by omega]

/-- Writing behind the header leaves it, and writes into the file. -/
theorem overwrite_split {file : Bytes} (h : headerBytes ≤ file.length) (bytes : Bytes) (offset : Nat) :
    overwrite file bytes (headerBytes + offset) =
      file.take headerBytes ++ overwrite (file.drop headerBytes) bytes offset := by
  have hhead : (file.take headerBytes).length = headerBytes := by rw [List.length_take]; omega
  have hmax : max file.length (headerBytes + offset + bytes.length) =
      headerBytes + max (file.drop headerBytes).length (offset + bytes.length) := by rw [List.length_drop]; omega
  unfold overwrite
  rw [hmax, resize_split h, List.take_append, hhead, List.take_of_length_le (by omega), Nat.add_sub_cancel_left,
    List.drop_drop, Nat.add_assoc]
  simp only [List.append_assoc]

/-- A header goes over whatever was there. -/
theorem overwrite_header {file head : Bytes} (h : head.length = headerBytes) :
    overwrite file head 0 = head ++ file.drop headerBytes := by
  unfold overwrite
  rw [List.take_zero, List.nil_append, Nat.zero_add, h]

theorem resize_header {head rest : Bytes} (h : head.length = headerBytes) : resize (head ++ rest) headerBytes = head := by
  unfold resize
  rw [List.take_left' h, show headerBytes - (head ++ rest).length = 0 by rw [List.length_append]; omega]
  exact List.append_nil head

/-! ## The files that a pool shows -/

/-- **Every path is held by at most one slot.** -/
def Apart (pool : Pool) : Prop := ∀ (i j : Nat) (path : Str), pool[i]? = some (some path) → pool[j]? = some (some path) → i = j

theorem find_eq_some {pool : Pool} (h : Apart pool) {path : Str} {i : Nat} :
    find pool path = some i ↔ pool[i]? = some (some path) := by
  have hfound : ∀ {j}, find pool path = some j → pool[j]? = some (some path) := by
    intro j hj
    obtain ⟨hlt, hp, -⟩ := List.findIdx?_eq_some_iff_getElem.mp hj
    rw [List.getElem?_eq_getElem hlt, of_decide_eq_true hp]
  constructor
  · exact hfound
  · intro hi
    cases hf : find pool path with
    | none =>
      obtain ⟨hlt, hget⟩ := List.getElem?_eq_some_iff.mp hi
      have := List.findIdx?_eq_none_iff.mp hf _ (List.getElem_mem hlt)
      rw [hget] at this
      simp at this
    | some j => rw [h i j path hi (hfound hf)]

theorem find_eq_none {pool : Pool} {path : Str} : find pool path = none ↔ ∀ i : Nat, pool[i]? ≠ some (some path) := by
  unfold find
  rw [List.findIdx?_eq_none_iff]
  constructor
  · intro h i hi
    obtain ⟨hlt, hget⟩ := List.getElem?_eq_some_iff.mp hi
    have := h _ (List.getElem_mem hlt)
    rw [hget] at this
    simp at this
  · intro h p hp
    obtain ⟨i, hlt, rfl⟩ := List.mem_iff_getElem.mp hp
    apply decide_eq_false
    intro heq
    exact h i (by rw [List.getElem?_eq_getElem hlt, heq])

theorem free_eq_some {pool : Pool} {i : Nat} (h : free pool = some i) : pool[i]? = some none := by
  obtain ⟨hlt, hp, -⟩ := List.findIdx?_eq_some_iff_getElem.mp h
  rw [List.getElem?_eq_getElem hlt, of_decide_eq_true hp]

/-- Files by their paths. -/
abbrev Files := Str → Option Bytes

/-- **What the pool shows**: under each path that a slot holds, the bytes behind that slot's header. -/
def contents (w : Page) : Files := fun path =>
  (find w.pool path).bind (fun i => (w.disk[i]?).map (fun file => file.drop headerBytes))

theorem contents_held {w : Page} (h : Apart w.pool) {path : Str} {i : Nat} (hi : w.pool[i]? = some (some path)) :
    contents w path = (w.disk[i]?).map (fun file => file.drop headerBytes) := by
  unfold contents
  rw [(find_eq_some h).mpr hi]
  rfl

theorem contents_none {w : Page} {path : Str} (h : ∀ i : Nat, w.pool[i]? ≠ some (some path)) : contents w path = none := by
  unfold contents
  rw [find_eq_none.mpr h]
  rfl

/-! ## The invariant -/

/-- **The page and its slots agree**: each slot's header names the path it holds in memory, no path is held twice, and
    the slots that file objects were opened on have a header. -/
structure Sound (lossy : Bytes → Str) (w : Page) : Prop where
  headers : w.disk.map (slotPath lossy) = w.pool
  apart : Apart w.pool
  opened : ∀ x ∈ w.files, ∃ file, w.disk[x.1.slot]? = some file ∧ headerBytes ≤ file.length

section

variable {lossy : Bytes → Str} {w : Page}

theorem Sound.slot (h : Sound lossy w) {i : Nat} {p : Option Str} (hi : w.pool[i]? = some p) :
    ∃ file, w.disk[i]? = some file ∧ slotPath lossy file = p := by
  rw [← h.headers, List.getElem?_map] at hi
  exact Option.map_eq_some_iff.mp hi

theorem Sound.held (h : Sound lossy w) {path : Str} {i : Nat} (hi : w.pool[i]? = some (some path)) :
    ∃ file, w.disk[i]? = some file ∧ headerBytes ≤ file.length ∧ contents w path = some (file.drop headerBytes) := by
  obtain ⟨file, hfile, hpath⟩ := h.slot hi
  refine ⟨file, hfile, length_of_slotPath lossy hpath, ?_⟩
  rw [contents_held h.apart hi, hfile]
  rfl

theorem Sound.fresh (lossy : Bytes → Str) (slots : Nat) : Sound lossy (.fresh slots) := by
  refine ⟨?_, fun i j path hi => ?_, nofun⟩
  · show (List.replicate slots []).map (slotPath lossy) = List.replicate slots none
    rw [List.map_replicate]
    rfl
  · have hi : (List.replicate slots (none : Option Str))[i]? = some (some path) := hi
    rw [List.getElem?_replicate] at hi
    split at hi
    · cases hi
    · cases hi

/-- Where a path is after one slot was given another, or none. -/
theorem held_of_set {pool : Pool} {i j : Nat} {p : Option Str} {path : Str}
    (h : (pool.set i p)[j]? = some (some path)) :
    j = i ∧ p = some path ∨ j ≠ i ∧ pool[j]? = some (some path) := by
  by_cases hji : i = j
  · rw [List.getElem?_set, if_pos hji] at h
    split at h
    · exact .inl ⟨hji.symm, Option.some.inj h⟩
    · cases h
  · rw [List.getElem?_set_ne hji] at h
    exact .inr ⟨Ne.symm hji, h⟩

/-- A page in which one slot, and its place in the pool, was changed. -/
def Page.changed (w : Page) (i : Nat) (p : Option Str) (file : Bytes) (files : List (FileObject × Str)) : Page :=
  ⟨w.pool.set i p, w.disk.set i file, files⟩

theorem Sound.changed (h : Sound lossy w) {i : Nat} {old file : Bytes} {p : Option Str} (hi : w.disk[i]? = some old)
    (hp : slotPath lossy file = p) (hother : ∀ path, p = some path → ∀ j : Nat, w.pool[j]? = some (some path) → j = i)
    (files : List (FileObject × Str))
    (hfiles : ∀ x ∈ files, x.1.slot = i ∧ headerBytes ≤ file.length ∨
      x.1.slot ≠ i ∧ ∃ file, w.disk[x.1.slot]? = some file ∧ headerBytes ≤ file.length) :
    Sound lossy (Page.changed w i p file files) := by
  obtain ⟨hlt, -⟩ := List.getElem?_eq_some_iff.mp hi
  refine ⟨?_, fun j k path hj hk => ?_, fun x hx => ?_⟩
  · show (w.disk.set i file).map (slotPath lossy) = w.pool.set i p
    rw [List.map_set, h.headers, hp]
  · rcases held_of_set hj with ⟨hji, hpj⟩ | ⟨hji, hj'⟩
    · rcases held_of_set hk with ⟨hki, -⟩ | ⟨hki, hk'⟩
      · rw [hji, hki]
      · exact absurd (hother path hpj k hk') hki
    · rcases held_of_set hk with ⟨hki, hpk⟩ | ⟨-, hk'⟩
      · exact absurd (hother path hpk j hj') hji
      · exact h.apart j k path hj' hk'
  · rcases hfiles x hx with ⟨hxi, hlen⟩ | ⟨hxi, file', hfile', hlen⟩
    · refine ⟨file, ?_, hlen⟩
      show (w.disk.set i file)[x.1.slot]? = some file
      rw [hxi, List.getElem?_set_self hlt]
    · refine ⟨file', ?_, hlen⟩
      show (w.disk.set i file)[x.1.slot]? = some file'
      rw [List.getElem?_set_ne (Ne.symm hxi), hfile']

/-- What is shown after the change. -/
theorem Sound.contents_changed (h : Sound lossy w) {i : Nat} {old file : Bytes} {p : Option Str}
    (hi : w.disk[i]? = some old) {files : List (FileObject × Str)} (hnew : Sound lossy (Page.changed w i p file files))
    (path : Str) : contents (Page.changed w i p file files) path =
      if p = some path then some (file.drop headerBytes)
      else if w.pool[i]? = some (some path) then none else contents w path := by
  obtain ⟨hlt, -⟩ := List.getElem?_eq_some_iff.mp hi
  have hpool : i < w.pool.length := by rw [← h.headers, List.length_map]; exact hlt
  split
  · rename_i hp
    rw [contents_held hnew.apart (i := i) (by
      show (w.pool.set i p)[i]? = _
      rw [List.getElem?_set_self hpool, hp])]
    show ((w.disk.set i file)[i]?).map _ = _
    rw [List.getElem?_set_self hlt]
    rfl
  · rename_i hp
    split
    · -- the slot held the path, and does so no more
      rename_i hheld
      apply contents_none
      intro j hj
      rcases held_of_set hj with ⟨-, hpj⟩ | ⟨hji, hj'⟩
      · exact hp hpj
      · exact hji (h.apart j i path hj' hheld)
    · rename_i hheld
      cases hf : find w.pool path with
      | none =>
        rw [contents_none (find_eq_none.mp hf)]
        apply contents_none
        intro j hj
        rcases held_of_set hj with ⟨-, hpj⟩ | ⟨-, hj'⟩
        · exact hp hpj
        · exact find_eq_none.mp hf j hj'
      | some j =>
        have hj := (find_eq_some h.apart).mp hf
        have hji : i ≠ j := by
          rintro rfl
          exact hheld hj
        rw [contents_held h.apart hj, contents_held hnew.apart (i := j) (by
          show (w.pool.set i p)[j]? = _
          rw [List.getElem?_set_ne hji, hj])]
        show ((w.disk.set i file)[j]?).map _ = _
        rw [List.getElem?_set_ne hji]

theorem readHeader_run (lossy : Bytes → Str) (disk : List Bytes) (pool : Pool) (i : Nat) :
    (readHeader lossy i pool).run handles disk = ((.ok (slotPath lossy (disk.getD i [])), pool), disk) := by
  show (Proc.bind (onHandle (.getSize i)) (fun size => if size < headerBytes then Proc.pure none else
    Proc.bind (onHandle (.read i headerBytes 0)) (fun head => Proc.pure (headerPath lossy head))) pool).run handles disk = _
  unfold slotPath
  by_cases hsize : (disk.getD i []).length < headerBytes
  · rw [if_pos hsize]
    show ((if (disk.getD i []).length < headerBytes then _ else _ : PageAction (Option Str)) pool).run handles disk = _
    rw [if_pos hsize]
    rfl
  · rw [if_neg hsize]
    show ((if (disk.getD i []).length < headerBytes then _ else _ : PageAction (Option Str)) pool).run handles disk = _
    rw [if_neg hsize]
    rfl

/-- **A page loaded anew** finds each slot's path in its header. -/
theorem load_eq (lossy : Bytes → Str) (disk : List Bytes) : Page.load lossy disk = ⟨disk.map (slotPath lossy), disk, []⟩ := by
  have hrun : (loadPool lossy disk.length []).run handles disk = ((.ok (disk.map (slotPath lossy)), []), disk) := by
    unfold loadPool
    rw [Proc.mapList_run _ (fun i _ => readHeader_run lossy disk [] i)]
    congr 3
    apply List.ext_getElem
    · rw [List.length_map, List.length_map, List.length_range]
    · intro i hi hi'
      rw [List.length_map] at hi'
      rw [List.getElem_map, List.getElem_map, List.getElem_range, List.getD_eq_getElem _ _ hi']
  unfold Page.load
  rw [hrun]

/-- A reload changes nothing that the slots say. -/
theorem Sound.load (h : Sound lossy w) : Sound lossy (.load lossy w.disk) ∧ contents (.load lossy w.disk) = contents w := by
  rw [load_eq, h.headers]
  exact ⟨⟨h.headers, h.apart, nofun⟩, rfl⟩

/-! ## What an operation is for -/

/-- A change to the file that a file object was opened for, while its slot holds it. -/
def writeInto (w : Page) (file : Nat) (f : Bytes → Bytes) (files : Files) : Files :=
  match w.files[file]? with
  | some (o, path) =>
      if w.pool[o.slot]? = some (some path) then Function.update files path ((files path).map f) else files
  | none => files

/-- **What files of their own would be** after the operation. -/
def after (w : Page) (files : Files) : PoolOp → Files
  | .open path writable =>
      if writable = true ∧ files path = none then Function.update files path (some []) else files
  | .read _ _ _ => files
  | .write file src offset =>
      if src = [] then files else writeInto w file (fun bytes => overwrite bytes src offset) files
  | .truncate file len => writeInto w file (fun bytes => resize bytes len) files
  | .removeFile path => Function.update files path none
  | .removeDirAll dir => fun path => if under dir path then none else files path

/-- What the operation answered or threw, if the page lived. -/
def outcome (w : Page) (op : PoolOp) (fault : Fault AdapterError) : Option (Except AdapterError PoolAnswer) :=
  (w.run op fault).1.map Prod.fst

/-- **The step does what the operation is for**: all of it when it answers; for each path all of it or nothing when it
    throws or the page dies; it leaves the mapping alone when it throws; and a read answers what its file holds. -/
structure Follows (lossy : Bytes → Str) (w : Page) (op : PoolOp) (fault : Fault AdapterError) : Prop where
  done : ∀ a, outcome w op fault = some (.ok a) → contents (w.perform lossy op fault) = after w (contents w) op
  each : ∀ path, contents (w.perform lossy op fault) path = contents w path ∨
    contents (w.perform lossy op fault) path = after w (contents w) op path
  thrown : ∀ e, outcome w op fault = some (.error e) → (w.perform lossy op fault).pool = w.pool
  reads : ∀ file len offset o path file' bytes, op = .read file len offset → w.files[file]? = some (o, path) →
    w.pool[o.slot]? = some (some path) → contents w path = some file' →
    outcome w op fault = some (.ok (.bytes bytes)) → bytes = (file'.drop offset).take len

/-- A handle throws in the operation. -/
def HandleThrows (w : Page) (op : PoolOp) (fault : Fault AdapterError) : Prop :=
  ∃ i e n r, fault = .fail i e n ∧ (w.action op w.pool).failAt handles w.disk i e n = some r

/-- The page dies between the two calls that give a slot to a new file: the header is written, and the truncation has
    not happened. -/
def DiesInCreate (fault : Fault AdapterError) : Prop := (∃ n, fault = .die 0 (n + 1)) ∨ fault = .die 1 0

/-- **The steps that keep files apart.** -/
def Allowed (w : Page) (fault : Fault AdapterError) : PoolOp → Prop
  | .open path writable => writable = true → find w.pool path = none → ∀ i, free w.pool = some i →
      PathFits path ∧ ¬ HandleThrows w (.open path writable) fault ∧
        (DiesInCreate fault → (w.disk.getD i []).drop headerBytes = [])
  | .read file _ _ | .write file _ _ | .truncate file _ => ∀ o path, w.files[file]? = some (o, path) →
      w.pool[o.slot]? = some (some path) ∨ w.pool[o.slot]? = some none
  | .removeFile path => ¬ HandleThrows w (.removeFile path) fault
  | .removeDirAll dir => ¬ HandleThrows w (.removeDirAll dir) fault

/-! ## Steps -/

theorem modify_eq_set {α : Type} {l : List α} {i : Nat} {a : α} (h : l[i]? = some a) (f : α → α) :
    l.modify i f = l.set i (f a) := by
  obtain ⟨hlt, hget⟩ := List.getElem?_eq_some_iff.mp h
  apply List.ext_getElem?
  intro j
  rw [List.getElem?_modify, List.getElem?_set]
  split
  · rename_i hij
    subst hij
    rw [h]
    rfl
  · simp

/-- A file object's slot written behind its header. -/
theorem Sound.written (h : Sound lossy w) {i : Nat} {old : Bytes} (file : Bytes) (hi : w.disk[i]? = some old)
    (hlen : headerBytes ≤ old.length) (hlen' : headerBytes ≤ file.length)
    (htake : file.take headerBytes = old.take headerBytes) :
    Sound lossy ⟨w.pool, w.disk.set i file, w.files⟩ ∧ ∀ path, contents ⟨w.pool, w.disk.set i file, w.files⟩ path =
      if w.pool[i]? = some (some path) then some (file.drop headerBytes) else contents w path := by
  obtain ⟨hlt, -⟩ := List.getElem?_eq_some_iff.mp hi
  have hpool : w.pool[i]? = some (slotPath lossy old) := by rw [← h.headers, List.getElem?_map, hi]; rfl
  have hself : w.pool.set i (slotPath lossy old) = w.pool := by
    obtain ⟨hlt', hget⟩ := List.getElem?_eq_some_iff.mp hpool
    rw [← hget, List.set_getElem_self]
  have hsound := h.changed hi (slotPath_of_take lossy hlen hlen' htake) (fun path hp j hj => by
    rw [hp] at hpool
    exact h.apart j i path hj hpool) w.files (fun x hx => by
    by_cases hxi : x.1.slot = i
    · exact .inl ⟨hxi, hlen'⟩
    · exact .inr ⟨hxi, h.opened x hx⟩)
  have hcontents := h.contents_changed hi hsound
  unfold Page.changed at hsound hcontents
  rw [hself] at hsound hcontents
  refine ⟨hsound, fun path => ?_⟩
  rw [hcontents path, hpool]
  by_cases hp : slotPath lossy old = some path
  · rw [if_pos hp, if_pos (by rw [hp])]
  · rw [if_neg hp, if_neg (fun heq => hp (Option.some.inj heq)), if_neg (fun heq => hp (Option.some.inj heq))]

/-- **A slot given up**: its header overwritten, and truncated or not yet. -/
theorem Sound.cleared (h : Sound lossy w) {i : Nat} {path : Str} (hi : w.pool[i]? = some (some path)) (rest : Bytes) :
    Sound lossy ⟨w.pool.set i none, w.disk.set i (List.replicate headerBytes 0 ++ rest), w.files⟩ ∧
      contents ⟨w.pool.set i none, w.disk.set i (List.replicate headerBytes 0 ++ rest), w.files⟩ =
        Function.update (contents w) path none := by
  obtain ⟨old, hold, -, -⟩ := h.held hi
  have hzero : (List.replicate headerBytes (0 : UInt8)).length = headerBytes := List.length_replicate
  have hsound := h.changed hold ((slotPath_append lossy hzero rest).trans (headerPath_zeroes lossy)) nofun
    w.files (fun x hx => by
    by_cases hxi : x.1.slot = i
    · exact .inl ⟨hxi, by rw [List.length_append]; omega⟩
    · exact .inr ⟨hxi, h.opened x hx⟩)
  refine ⟨hsound, ?_⟩
  funext q
  have hcontents := h.contents_changed hold hsound q
  rw [if_neg nofun] at hcontents
  refine hcontents.trans ?_
  rw [hi]
  by_cases hq : q = path
  · rw [if_pos (by rw [hq]), hq, Function.update_self]
  · rw [if_neg (fun heq => hq (Option.some.inj (Option.some.inj heq)).symm), Function.update_of_ne hq]

/-! ## How a step ends -/

section

variable {op : PoolOp} {fault : Fault AdapterError} {pool : Pool} {disk : List Bytes} {files : List (FileObject × Str)}

/-- The operation threw, and left the pool. -/
theorem step_threw {e : AdapterError} (hrun : w.run op fault = (some (.error e, w.pool), disk))
    (hs : Sound lossy ⟨w.pool, disk, w.files⟩)
    (heach : ∀ path, contents ⟨w.pool, disk, w.files⟩ path = contents w path ∨
      contents ⟨w.pool, disk, w.files⟩ path = after w (contents w) op path) :
    Sound lossy (w.perform lossy op fault) ∧ Follows lossy w op fault := by
  have hperform : w.perform lossy op fault = ⟨w.pool, disk, w.files⟩ := by
    unfold Page.perform
    rw [hrun]
    cases op <;> rfl
  have hout : outcome w op fault = some (.error e) := by rw [outcome, hrun]; rfl
  rw [hperform]
  refine ⟨hs, fun a ha => ?_, ?_, fun _ _ => by rw [hperform], ?_⟩
  · rw [hout] at ha
    cases ha
  · rw [hperform]
    exact heach
  · intro file len offset o path file' bytes _ _ _ _ ha
    rw [hout] at ha
    cases ha

/-- The page died, and is loaded anew. -/
theorem step_died (hrun : w.run op fault = (none, disk)) (hs : Sound lossy ⟨pool, disk, files⟩)
    (heach : ∀ path, contents ⟨pool, disk, files⟩ path = contents w path ∨
      contents ⟨pool, disk, files⟩ path = after w (contents w) op path) :
    Sound lossy (w.perform lossy op fault) ∧ Follows lossy w op fault := by
  obtain ⟨hload, hcontents⟩ := hs.load
  have hperform : w.perform lossy op fault = .load lossy disk := by
    unfold Page.perform
    rw [hrun]
  have hout : outcome w op fault = none := by rw [outcome, hrun]; rfl
  rw [hperform]
  refine ⟨hload, fun a ha => ?_, ?_, fun e he => ?_, ?_⟩
  · rw [hout] at ha
    cases ha
  · rw [hperform, hcontents]
    exact heach
  · rw [hout] at he
    cases he
  · intro file len offset o path file' bytes _ _ _ _ ha
    rw [hout] at ha
    cases ha

/-- The operation answered. -/
theorem step_answered {a : PoolAnswer} (hrun : w.run op fault = (some (.ok a, pool), disk))
    (hperform : w.perform lossy op fault = ⟨pool, disk, files⟩) (hs : Sound lossy ⟨pool, disk, files⟩)
    (hdone : contents ⟨pool, disk, files⟩ = after w (contents w) op)
    (hread : ∀ file len offset o path file' bytes, op = .read file len offset → w.files[file]? = some (o, path) →
      w.pool[o.slot]? = some (some path) → contents w path = some file' → a = .bytes bytes →
      bytes = (file'.drop offset).take len) :
    Sound lossy (w.perform lossy op fault) ∧ Follows lossy w op fault := by
  have hout : outcome w op fault = some (.ok a) := by rw [outcome, hrun]; rfl
  rw [hperform]
  refine ⟨hs, fun _ _ => by rw [hperform, hdone], fun path => .inr (by rw [hperform, hdone]), fun e he => ?_, ?_⟩
  · rw [hout] at he
    cases he
  · intro file len offset o path file' bytes hop hfile hheld hfile' ha
    rw [hout] at ha
    exact hread file len offset o path file' bytes hop hfile hheld hfile' (Except.ok.inj (Option.some.inj ha))

/-- An operation other than an open leaves the page its file objects. -/
theorem perform_of_run {a : PoolAnswer} (hrun : w.run op fault = (some (.ok a, pool), disk))
    (ha : ∀ o, a ≠ .file o) : w.perform lossy op fault = ⟨pool, disk, w.files⟩ := by
  unfold Page.perform
  rw [hrun]
  cases a with
  | file o => exact absurd rfl (ha o)
  | bytes b => cases op <;> rfl
  | done => cases op <;> rfl

end

/-! ## Through a file object -/

/-- **A read, a write or a truncate** through a file object whose slot has gone to no other path. -/
theorem fileOp_sound (h : Sound lossy w) (disk : List Bytes) {op : PoolOp} {file : Nat} {o : FileObject} {path : Str}
    (hfile : w.files[file]? = some (o, path))
    (hslot : w.pool[o.slot]? = some (some path) ∨ w.pool[o.slot]? = some none)
    {a : PoolAnswer} {f : Bytes → Bytes}
    (hdisk : ∀ old, w.disk[o.slot]? = some old → disk = w.disk.set o.slot (old.take headerBytes ++ f (old.drop headerBytes)))
    (hafter : after w (contents w) op = writeInto w file f (contents w))
    (ht : Triple handles (w.action op) w.pool w.disk (fun b pool' disk' => b = a ∧ pool' = w.pool ∧ disk' = disk)
      (fun _ _ disk' => disk' = w.disk ∨ disk' = disk)
      (fun _ pool' disk' => pool' = w.pool ∧ (disk' = w.disk ∨ disk' = disk)))
    (ha : ∀ o, a ≠ .file o)
    (hread : ∀ file len offset o path file' bytes, op = .read file len offset → w.files[file]? = some (o, path) →
      w.pool[o.slot]? = some (some path) → contents w path = some file' → a = .bytes bytes →
      bytes = (file'.drop offset).take len) (fault : Fault AdapterError) :
    Sound lossy (w.perform lossy op fault) ∧ Follows lossy w op fault := by
  obtain ⟨old, hold, hlen⟩ := h.opened (o, path) (List.mem_of_getElem? hfile)
  have hhead : (old.take headerBytes).length = headerBytes := by rw [List.length_take]; omega
  obtain ⟨hs, hc⟩ := h.written (old.take headerBytes ++ f (old.drop headerBytes)) hold hlen
    (by rw [List.length_append]; omega) (List.take_left' hhead)
  rw [← hdisk old hold, List.drop_left' hhead] at hc
  rw [← hdisk old hold] at hs
  have hdone : contents ⟨w.pool, disk, w.files⟩ = after w (contents w) op := by
    rw [hafter, writeInto]
    simp only [hfile]
    funext q
    rw [hc q]
    rcases hslot with hheld | hfree
    · rw [if_pos hheld]
      obtain ⟨old', hold', -, hshown⟩ := h.held hheld
      obtain rfl : old = old' := Option.some.inj (hold.symm.trans hold')
      by_cases hq : q = path
      · rw [hq, if_pos hheld, Function.update_self, hshown]
        rfl
      · rw [Function.update_of_ne hq, if_neg (fun heq => hq ?_)]
        rw [hheld] at heq
        exact (Option.some.inj (Option.some.inj heq)).symm
    · rw [hfree, if_neg nofun, if_neg nofun]
  have hsame : Sound lossy ⟨w.pool, w.disk, w.files⟩ := h
  rcases ht.runWith fault with ⟨b, pool', disk', hrun, rfl, rfl, rfl⟩ | ⟨c, e, pool', disk', hrun, ⟨rfl, hd⟩, -⟩ |
    ⟨c, n, disk', hrun, hd, -⟩
  · exact step_answered hrun (perform_of_run hrun ha) hs hdone hread
  · rcases hd with rfl | rfl
    · exact step_threw hrun hsame (fun q => .inl rfl)
    · exact step_threw hrun hs (fun q => .inr (by rw [hdone]))
  · rcases hd with rfl | rfl
    · exact step_died hrun hsame (fun q => .inl rfl)
    · exact step_died hrun hs (fun q => .inr (by rw [hdone]))

/-- An operation that does nothing. -/
theorem idle_sound (h : Sound lossy w) {op : PoolOp} (hop : w.action op = (pure .done : PageAction PoolAnswer))
    (hafter : after w (contents w) op = contents w) (fault : Fault AdapterError) :
    Sound lossy (w.perform lossy op fault) ∧ Follows lossy w op fault := by
  have hrun : w.run op fault = (some (.ok .done, w.pool), w.disk) := by
    unfold Page.run
    rw [hop]
    exact Prog.runWith_pure _ fault
  exact step_answered hrun (perform_of_run hrun nofun) h hafter.symm nofun

theorem writeInto_none {file : Nat} (hfile : w.files[file]? = none) (f : Bytes → Bytes) (files : Files) :
    writeInto w file f files = files := by
  unfold writeInto
  rw [hfile]

theorem writeInto_id (file : Nat) (files : Files) : writeInto w file id files = files := by
  unfold writeInto
  split
  · rw [Option.map_id_fun, id, Function.update_eq_self, ite_self]
  · rfl

/-- The states around a call that a fault comes upon. -/
theorem touched (c : HandleCall) (n : Nat) (disk : List Bytes) :
    (if n = 0 then disk else c.effect disk) = disk ∨ (if n = 0 then disk else c.effect disk) = c.effect disk := by
  split
  · exact .inl rfl
  · exact .inr rfl

theorem read_sound (h : Sound lossy w) (file len offset : Nat)
    (hslot : ∀ o path, w.files[file]? = some (o, path) →
      w.pool[o.slot]? = some (some path) ∨ w.pool[o.slot]? = some none) (fault : Fault AdapterError) :
    Sound lossy (w.perform lossy (.read file len offset) fault) ∧ Follows lossy w (.read file len offset) fault := by
  cases hfile : w.files[file]? with
  | none =>
    refine idle_sound h ?_ rfl fault
    show (match w.files[file]? with | some (o, _) => _ | none => _) = _
    rw [hfile]
  | some x =>
    obtain ⟨o, path⟩ := x
    have hsame : ∀ old, w.disk[o.slot]? = some old →
        w.disk = w.disk.set o.slot (old.take headerBytes ++ id (old.drop headerBytes)) := by
      intro old hold
      obtain ⟨hlt, hget⟩ := List.getElem?_eq_some_iff.mp hold
      rw [id, List.take_append_drop, ← hget, List.set_getElem_self]
    refine fileOp_sound h w.disk hfile (hslot o path hfile) (f := id)
      (a := .bytes (((w.disk.getD o.slot []).drop (headerBytes + offset)).take len)) hsame ?_ ?_ nofun ?_ fault
    · exact (writeInto_id file (contents w)).symm
    · show Triple handles (match w.files[file]? with | some (o, _) => _ | none => _) _ _ _ _ _
      rw [hfile]
      refine Triple.bind (Triple.call rfl (Triple.pure ⟨rfl, rfl, rfl⟩) (fun n => touched _ n w.disk)
        (fun n => ⟨rfl, touched _ n w.disk⟩))
    · intro file₁ len₁ offset₁ o₁ path₁ file' bytes hop hfile₁ hheld hshown hbytes
      obtain ⟨rfl, rfl, rfl⟩ := PoolOp.read.inj hop
      obtain ⟨rfl, rfl⟩ := Prod.mk.inj (Option.some.inj (hfile.symm.trans hfile₁))
      obtain ⟨old, hold, -, hcontents⟩ := h.held hheld
      obtain rfl : file' = old.drop headerBytes := Option.some.inj (hshown.symm.trans hcontents)
      rw [← PoolAnswer.bytes.inj hbytes, List.getD_eq_getElem?_getD, hold, List.drop_drop]
      rfl

theorem write_sound (h : Sound lossy w) (file : Nat) (src : Bytes) (offset : Nat)
    (hslot : ∀ o path, w.files[file]? = some (o, path) →
      w.pool[o.slot]? = some (some path) ∨ w.pool[o.slot]? = some none) (fault : Fault AdapterError) :
    Sound lossy (w.perform lossy (.write file src offset) fault) ∧ Follows lossy w (.write file src offset) fault := by
  cases hfile : w.files[file]? with
  | none =>
    refine idle_sound h ?_ ?_ fault
    · show (match w.files[file]? with | some (o, _) => _ | none => _) = _
      rw [hfile]
    · show (if src = [] then contents w else writeInto w file _ (contents w)) = _
      rw [writeInto_none hfile, ite_self]
  | some x =>
    obtain ⟨o, path⟩ := x
    cases src with
    | nil =>
      refine idle_sound h ?_ ?_ fault
      · show (match w.files[file]? with | some (o, _) => _ | none => _) = _
        rw [hfile]
        rfl
      · rw [after, if_pos rfl]
    | cons b src =>
      refine fileOp_sound h (w.disk.modify o.slot (fun bytes => overwrite bytes (b :: src) (headerBytes + offset)))
        hfile (hslot o path hfile) (f := fun bytes => overwrite bytes (b :: src) offset) (a := .done) ?_ ?_ ?_ nofun nofun fault
      · intro old hold
        obtain ⟨old', hold', hlen⟩ := h.opened (o, path) (List.mem_of_getElem? hfile)
        obtain rfl : old = old' := Option.some.inj (hold.symm.trans hold')
        rw [modify_eq_set hold, overwrite_split hlen]
      · rw [after, if_neg (List.cons_ne_nil b src)]
      · show Triple handles (match w.files[file]? with | some (o, _) => _ | none => _) _ _ _ _ _
        rw [hfile]
        -- the one call writes all, and behind it no byte is left
        refine Triple.bind (Triple.bind (Triple.call rfl ?_ (fun n => touched _ n w.disk)
          (fun n => ⟨rfl, touched _ n w.disk⟩)))
        show Triple handles (o.writeLoop src.length ((b :: src).drop (b :: src).length) _) _ _ _ _ _
        rw [List.drop_length]
        cases src.length with
        | zero => exact Triple.pure (Triple.pure ⟨rfl, rfl, rfl⟩)
        | succ n => exact Triple.pure (Triple.pure ⟨rfl, rfl, rfl⟩)

theorem truncate_sound (h : Sound lossy w) (file len : Nat)
    (hslot : ∀ o path, w.files[file]? = some (o, path) →
      w.pool[o.slot]? = some (some path) ∨ w.pool[o.slot]? = some none) (fault : Fault AdapterError) :
    Sound lossy (w.perform lossy (.truncate file len) fault) ∧ Follows lossy w (.truncate file len) fault := by
  cases hfile : w.files[file]? with
  | none =>
    refine idle_sound h ?_ ?_ fault
    · show (match w.files[file]? with | some (o, _) => _ | none => _) = _
      rw [hfile]
    · exact writeInto_none hfile _ _
  | some x =>
    obtain ⟨o, path⟩ := x
    refine fileOp_sound h (w.disk.modify o.slot (fun bytes => resize bytes (headerBytes + len)))
      hfile (hslot o path hfile) (f := fun bytes => resize bytes len) (a := .done) ?_ rfl ?_ nofun nofun fault
    · intro old hold
      obtain ⟨old', hold', hlen⟩ := h.opened (o, path) (List.mem_of_getElem? hfile)
      obtain rfl : old = old' := Option.some.inj (hold.symm.trans hold')
      rw [modify_eq_set hold, resize_split hlen]
    · show Triple handles (match w.files[file]? with | some (o, _) => _ | none => _) _ _ _ _ _
      rw [hfile]
      exact Triple.bind (Triple.call rfl (Triple.pure ⟨rfl, rfl, rfl⟩) (fun n => touched _ n w.disk)
        (fun n => ⟨rfl, touched _ n w.disk⟩))

/-! ## Opening -/

/-- The two calls that give a slot to a path, over the pool in which it has it. -/
def create (i : Nat) (path : Str) (pool : Pool) : Prog HandleCall HandleCall.Reply AdapterError
    (Except AdapterError PoolAnswer × Pool) :=
  .call (.write i (header path) 0) (fun r => match r with
    | .error e => .pure (.error e, pool)
    | .ok _ => .call (.truncate i headerBytes) (fun r => match r with
        | .error e => .pure (.error e, pool)
        | .ok _ => .pure (.ok (.file ⟨i⟩), pool)))

theorem openPath_held {path : Str} {i : Nat} (writable : Bool) {pool : Pool} (h : find pool path = some i) :
    openPath path writable pool = .pure (.ok ⟨i⟩, pool) := by
  rw [openPath, Proc.get_bind, h]
  rfl

theorem openPath_reader {path : Str} {pool : Pool} (h : find pool path = none) :
    openPath path false pool = .pure (.error .notFound, pool) := by
  rw [openPath, Proc.get_bind, h]
  rfl

theorem openPath_full {path : Str} {pool : Pool} (h : find pool path = none) (hfree : free pool = none) :
    openPath path true pool = .pure (.error (.quotaExceeded pool.length), pool) := by
  rw [openPath, Proc.get_bind, h, hfree]
  rfl

theorem openPath_given {path : Str} {i : Nat} {pool : Pool} (h : find pool path = none) (hfree : free pool = some i) :
    openPath path true pool = (do
      writeHeader i path
      onHandle (.truncate i headerBytes)
      return ⟨i⟩ : PageAction FileObject) (pool.set i (some path)) := by
  rw [openPath, Proc.get_bind, h, hfree]
  rfl

theorem open_creates {path : Str} {i : Nat} (hfind : find w.pool path = none) (hfree : free w.pool = some i)
    (hfits : path.bytes.length ≤ maxPath) :
    w.action (.open path true) w.pool = create i path (w.pool.set i (some path)) := by
  show Proc.bind (openPath path true) _ w.pool = _
  rw [Proc.bind, openPath_given hfind hfree, writeHeader, if_neg (by omega)]
  refine congrArg (Prog.call _) (funext fun r => ?_)
  cases r with
  | error e => rfl
  | ok n =>
    refine congrArg (Prog.call _) (funext fun r => ?_)
    cases r with
    | error e => rfl
    | ok u => rfl

/-- **A slot given to a path**: its header written, and behind it some bytes. -/
theorem Sound.given (h : Sound lossy w) {path : Str} {i : Nat} (hfind : find w.pool path = none)
    (hi : w.pool[i]? = some none) (hfits : PathFits path) (rest : Bytes) {files : List (FileObject × Str)}
    (hfiles : ∀ x ∈ files, x.1.slot = i ∨ x ∈ w.files) :
    Sound lossy ⟨w.pool.set i (some path), w.disk.set i (header path ++ rest), files⟩ ∧
      contents ⟨w.pool.set i (some path), w.disk.set i (header path ++ rest), files⟩ =
        Function.update (contents w) path (some rest) := by
  obtain ⟨old, hold, -⟩ := h.slot hi
  have hhead := header_length hfits.short
  have hlen : headerBytes ≤ (header path ++ rest).length := by rw [List.length_append]; omega
  have hsound := h.changed hold ((slotPath_append lossy hhead rest).trans (headerPath_header lossy hfits))
    (fun q hq j hj => absurd hj (by rw [← Option.some.inj hq]; exact find_eq_none.mp hfind j)) files (fun x hx => by
    by_cases hxi : x.1.slot = i
    · exact .inl ⟨hxi, hlen⟩
    · exact .inr ⟨hxi, h.opened x ((hfiles x hx).resolve_left hxi)⟩)
  refine ⟨hsound, funext fun q => ?_⟩
  refine (h.contents_changed hold hsound q).trans ?_
  have hfreed : ¬ (some (none : Option Str) = some (some q)) := nofun
  rw [hi, if_neg hfreed, List.drop_left' hhead]
  by_cases hq : q = path
  · rw [hq, if_pos rfl, Function.update_self]
  · rw [if_neg (fun heq => hq (Option.some.inj heq).symm), Function.update_of_ne hq]

/-- **A creating open.** -/
theorem create_sound (h : Sound lossy w) {path : Str} {i : Nat} (hfind : find w.pool path = none)
    (hfree : free w.pool = some i) {fault : Fault AdapterError} (hfits : PathFits path)
    (hthrows : ¬ HandleThrows w (.open path true) fault)
    (hdies : DiesInCreate fault → (w.disk.getD i []).drop headerBytes = []) :
    Sound lossy (w.perform lossy (.open path true) fault) ∧ Follows lossy w (.open path true) fault := by
  have hi := free_eq_some hfree
  obtain ⟨old, hold, -⟩ := h.slot hi
  have hact := open_creates hfind hfree hfits.short
  have hmid : HandleCall.effect (.write i (header path) 0) w.disk = w.disk.set i (header path ++ old.drop headerBytes) := by
    show w.disk.modify i _ = _
    rw [modify_eq_set hold, overwrite_header (header_length hfits.short)]
  have hend : HandleCall.effect (.truncate i headerBytes) (w.disk.set i (header path ++ old.drop headerBytes)) =
      w.disk.set i (header path ++ []) := by
    obtain ⟨hlt, -⟩ := List.getElem?_eq_some_iff.mp hold
    show (w.disk.set i _).modify i _ = _
    rw [modify_eq_set (List.getElem?_set_self hlt), resize_header (header_length hfits.short), List.set_set,
      List.append_nil]
  have hafter : after w (contents w) (.open path true) = Function.update (contents w) path (some []) :=
    if_pos ⟨rfl, contents_none (find_eq_none.mp hfind)⟩
  have hmore : ∀ x ∈ w.files ++ [(⟨i⟩, path)], x.1.slot = i ∨ x ∈ w.files := by
    intro x hx
    rcases List.mem_append.mp hx with hx | hx
    · exact .inr hx
    · rw [List.mem_singleton.mp hx]
      exact .inl rfl
  obtain ⟨hgiven, hshown⟩ := h.given hfind hi hfits [] hmore
  -- what a run is that gets to its end, and one that dies in either call
  have hfull : w.run (.open path true) fault =
      (some (.ok (.file ⟨i⟩), w.pool.set i (some path)), w.disk.set i (header path ++ [])) →
      Sound lossy (w.perform lossy (.open path true) fault) ∧ Follows lossy w (.open path true) fault := by
    intro hrun
    refine step_answered hrun ?_ hgiven (hshown.trans hafter.symm) nofun
    unfold Page.perform
    rw [hrun]
  have hcut : w.run (.open path true) fault = (none, w.disk.set i (header path ++ [])) →
      Sound lossy (w.perform lossy (.open path true) fault) ∧ Follows lossy w (.open path true) fault := by
    intro hrun
    exact step_died hrun hgiven (fun q => .inr (congrFun (hshown.trans hafter.symm) q))
  have hhalf : w.run (.open path true) fault = (none, w.disk.set i (header path ++ old.drop headerBytes)) →
      DiesInCreate fault →
      Sound lossy (w.perform lossy (.open path true) fault) ∧ Follows lossy w (.open path true) fault := by
    intro hrun hd
    have hclean := hdies hd
    rw [List.getD_eq_getElem?_getD, hold] at hclean
    rw [show old.drop headerBytes = [] from hclean] at hrun
    exact hcut hrun
  unfold HandleThrows at hthrows
  unfold Page.run at hfull hcut hhalf
  rw [hact] at hfull hcut hhalf hthrows
  cases fault with
  | none =>
    apply hfull
    show (_, HandleCall.effect (.truncate i headerBytes) (HandleCall.effect (.write i (header path) 0) w.disk)) = _
    rw [hmid, hend]
    rfl
  | fail k e n =>
    match k with
    | 0 => exact absurd ⟨0, e, n, _, rfl, rfl⟩ hthrows
    | 1 => exact absurd ⟨1, e, n, _, rfl, rfl⟩ hthrows
    | k + 2 =>
      apply hfull
      show (_, HandleCall.effect (.truncate i headerBytes) (HandleCall.effect (.write i (header path) 0) w.disk)) = _
      rw [hmid, hend]
      rfl
  | die k n =>
    match k, n with
    | 0, 0 =>
      have hsame : Sound lossy ⟨w.pool, w.disk, w.files⟩ := h
      refine step_died ?_ hsame (fun q => .inl rfl)
      unfold Page.run
      rw [hact]
      rfl
    | 0, n + 1 =>
      refine hhalf ?_ (.inl ⟨n, rfl⟩)
      show (_, HandleCall.effect (.write i (header path) 0) w.disk) = _
      rw [hmid]
    | 1, 0 =>
      refine hhalf ?_ (.inr rfl)
      show (_, HandleCall.effect (.write i (header path) 0) w.disk) = _
      rw [hmid]
    | 1, n + 1 =>
      apply hcut
      show (_, HandleCall.effect (.truncate i headerBytes) (HandleCall.effect (.write i (header path) 0) w.disk)) = _
      rw [hmid, hend]
    | k + 2, n =>
      apply hfull
      show (_, HandleCall.effect (.truncate i headerBytes) (HandleCall.effect (.write i (header path) 0) w.disk)) = _
      rw [hmid, hend]
      rfl

/-- **An open.** -/
theorem open_sound (h : Sound lossy w) (path : Str) (writable : Bool) {fault : Fault AdapterError}
    (hallowed : Allowed w fault (.open path writable)) :
    Sound lossy (w.perform lossy (.open path writable) fault) ∧ Follows lossy w (.open path writable) fault := by
  have hsame : Sound lossy ⟨w.pool, w.disk, w.files⟩ := h
  have hact : w.action (.open path writable) =
      Proc.bind (openPath path writable) (fun o => Proc.pure (.file o)) := rfl
  cases hfind : find w.pool path with
  | some i =>
    have hi := (find_eq_some h.apart).mp hfind
    obtain ⟨file, hfile, hlen, hshown⟩ := h.held hi
    have hrun : w.run (.open path writable) fault = (some (.ok (.file ⟨i⟩), w.pool), w.disk) := by
      unfold Page.run
      rw [hact, Proc.bind, openPath_held writable hfind]
      exact Prog.runWith_pure _ fault
    have hsound : Sound lossy ⟨w.pool, w.disk, w.files ++ [(⟨i⟩, path)]⟩ := by
      refine ⟨h.headers, h.apart, fun x hx => ?_⟩
      rcases List.mem_append.mp hx with hx | hx
      · exact h.opened x hx
      · rw [List.mem_singleton.mp hx]
        exact ⟨file, hfile, hlen⟩
    refine step_answered hrun ?_ hsound ?_ (fun _ _ _ _ _ _ _ hop => by cases hop)
    · unfold Page.perform
      rw [hrun]
    · exact (if_neg (fun hnone => by rw [hshown] at hnone; cases hnone.2)).symm
  | none =>
    cases writable with
    | false =>
      refine step_threw (e := .notFound) ?_ hsame (fun q => .inl rfl)
      unfold Page.run
      rw [hact, Proc.bind, openPath_reader hfind]
      exact Prog.runWith_pure _ fault
    | true =>
      cases hfree : free w.pool with
      | none =>
        refine step_threw (e := .quotaExceeded w.pool.length) ?_ hsame (fun q => .inl rfl)
        unfold Page.run
        rw [hact, Proc.bind, openPath_full hfind hfree]
        exact Prog.runWith_pure _ fault
      | some i =>
        obtain ⟨hfits, hthrows, hdies⟩ := hallowed rfl hfind i hfree
        exact create_sound h hfind hfree hfits hthrows hdies

/-! ## Removing -/

/-- **Part of the way through a removal**: of the files that are to go, some are gone. -/
structure Emptied (lossy : Bytes → Str) (w : Page) (gone : Str → Prop) (pool : Pool) (disk : List Bytes) : Prop where
  sound : Sound lossy ⟨pool, disk, w.files⟩
  each : ∀ path, contents ⟨pool, disk, w.files⟩ path = contents w path ∨
    gone path ∧ contents ⟨pool, disk, w.files⟩ path = none

section

variable {gone : Str → Prop} {pool : Pool} {disk : List Bytes} {path : Str} {i : Nat}

theorem Emptied.start (h : Sound lossy w) (gone : Str → Prop) : Emptied lossy w gone w.pool w.disk :=
  ⟨h, fun _ => .inl rfl⟩

theorem Emptied.cleared (h : Emptied lossy w gone pool disk) (hi : pool[i]? = some (some path)) (hgone : gone path)
    (rest : Bytes) : Emptied lossy w gone (pool.set i none) (disk.set i (List.replicate headerBytes 0 ++ rest)) := by
  obtain ⟨hs, hc⟩ := h.sound.cleared hi rest
  refine ⟨hs, fun q => ?_⟩
  have hq := congrFun hc q
  rw [hq]
  by_cases hqp : q = path
  · rw [hqp, Function.update_self]
    exact .inr ⟨hgone, rfl⟩
  · rw [Function.update_of_ne hqp]
    exact h.each q

/-- What a death in a removal leaves. -/
def LeavesEmptied (lossy : Bytes → Str) (w : Page) (gone : Str → Prop) (disk : List Bytes) : Prop :=
  ∃ pool, Emptied lossy w gone pool disk

/-- A slot emptied, in three steps: in memory, its header, its length. -/
theorem Emptied.empty (h : Emptied lossy w gone pool disk) (hi : pool[i]? = some (some path)) (hgone : gone path)
    {α : Type} {f : Unit → PageAction α} {Q : α → Pool → List Bytes → Prop} {F : HandleCall → Pool → List Bytes → Prop}
    (hF : ∀ c pool' disk', F c pool' disk')
    (hf : ∀ rest, Triple handles (f ()) (pool.set i none) (disk.set i (List.replicate headerBytes 0 ++ rest)) Q
      (fun _ _ disk' => LeavesEmptied lossy w gone disk') F) :
    Triple handles (Proc.modify (fun pool => pool.set i none) >>= fun _ => clearHeader i >>= f) pool disk Q
      (fun _ _ disk' => LeavesEmptied lossy w gone disk') F := by
  obtain ⟨old, hold, -⟩ := h.sound.held hi
  have hwrite : HandleCall.effect (.write i (List.replicate headerBytes 0) 0) disk =
      disk.set i (List.replicate headerBytes 0 ++ old.drop headerBytes) := by
    show disk.modify i _ = _
    rw [modify_eq_set hold, overwrite_header List.length_replicate]
  refine Triple.bind (Triple.modify (Triple.bind (Triple.bind (Triple.call rfl ?_ (fun n => ?_) (fun n => hF _ _ _)))))
  · refine Triple.pure ?_
    show Triple handles (f ()) (pool.set i none) (HandleCall.effect _ disk) _ _ _
    rw [hwrite]
    exact hf _
  · rcases touched (.write i (List.replicate headerBytes 0) 0) n disk with hd | hd
    · exact ⟨pool, by rw [show handles.cut _ n disk = _ from hd]; exact h⟩
    · exact ⟨pool.set i none, by rw [show handles.cut _ n disk = _ from hd, hwrite]; exact h.cleared hi hgone _⟩

theorem Emptied.shorten (h : Emptied lossy w gone pool disk) (hi : pool[i]? = some (some path)) (hgone : gone path)
    (rest : Bytes) {Q : Unit → Pool → List Bytes → Prop} {F : HandleCall → Pool → List Bytes → Prop}
    (hF : ∀ c pool' disk', F c pool' disk')
    (hQ : Q () (pool.set i none) (disk.set i (List.replicate headerBytes 0 ++ []))) :
    Triple handles (onHandle (.truncate i headerBytes)) (pool.set i none)
      (disk.set i (List.replicate headerBytes 0 ++ rest)) Q (fun _ _ disk' => LeavesEmptied lossy w gone disk') F := by
  obtain ⟨old, hold, -⟩ := h.sound.held hi
  have hcut : HandleCall.effect (.truncate i headerBytes) (disk.set i (List.replicate headerBytes 0 ++ rest)) =
      disk.set i (List.replicate headerBytes 0 ++ []) := by
    obtain ⟨hlt, -⟩ := List.getElem?_eq_some_iff.mp hold
    show (disk.set i _).modify i _ = _
    rw [modify_eq_set (List.getElem?_set_self hlt), resize_header List.length_replicate, List.set_set, List.append_nil]
  refine Triple.call rfl ?_ (fun n => ?_) (fun n => hF _ _ _)
  · show Q () _ (HandleCall.effect _ _)
    rw [hcut]
    exact hQ
  · rcases touched (.truncate i headerBytes) n (disk.set i (List.replicate headerBytes 0 ++ rest)) with hd | hd
    · exact ⟨pool.set i none, by rw [show handles.cut _ n _ = _ from hd]; exact h.cleared hi hgone rest⟩
    · exact ⟨pool.set i none, by rw [show handles.cut _ n _ = _ from hd, hcut]; exact h.cleared hi hgone []⟩

end

/-- How a removal ends, in which no handle throws. -/
theorem removal_sound (gone : Str → Prop) {op : PoolOp} {fault : Fault AdapterError}
    (hop : ∀ file len offset, op ≠ .read file len offset) (hthrows : ¬ HandleThrows w op fault)
    (hafter : ∀ path, gone path → after w (contents w) op path = none)
    (ht : Triple handles (w.action op) w.pool w.disk
      (fun a pool' disk' => a = .done ∧ Emptied lossy w gone pool' disk' ∧ contents ⟨pool', disk', w.files⟩ = after w (contents w) op)
      (fun _ _ disk' => LeavesEmptied lossy w gone disk') (fun _ _ _ => True)) :
    Sound lossy (w.perform lossy op fault) ∧ Follows lossy w op fault := by
  rcases ht.runWith_unfailed (fun i e n r hfault hfail => hthrows ⟨i, e, n, r, hfault, hfail⟩) with
    ⟨a, pool', disk', hrun, rfl, hE, hdone⟩ | ⟨c, n, disk', hrun, pool', hE⟩
  · exact step_answered hrun (perform_of_run hrun nofun) hE.sound hdone
      (fun file len offset _ _ _ _ heq => absurd heq (hop file len offset))
  · refine step_died hrun hE.sound (fun path => ?_)
    rcases hE.each path with hq | ⟨hgone, hq⟩
    · exact .inl hq
    · exact .inr (hq.trans (hafter path hgone).symm)

theorem removeFile_missing {path : Str} {pool : Pool} (h : find pool path = none) :
    removeFile path pool = .pure (.error .notFound, pool) := by
  rw [removeFile, Proc.get_bind, h]
  rfl

theorem removeFile_sound (h : Sound lossy w) (path : Str) {fault : Fault AdapterError}
    (hallowed : Allowed w fault (.removeFile path)) :
    Sound lossy (w.perform lossy (.removeFile path) fault) ∧ Follows lossy w (.removeFile path) fault := by
  have hsame : Sound lossy ⟨w.pool, w.disk, w.files⟩ := h
  cases hfind : find w.pool path with
  | none =>
    refine step_threw (e := .notFound) ?_ hsame (fun q => .inl rfl)
    show Prog.runWith handles ((Proc.bind (removeFile path) _ : PageAction PoolAnswer) w.pool) w.disk fault = _
    rw [Proc.bind, removeFile_missing hfind]
    exact Prog.runWith_pure _ fault
  | some i =>
    have hi := (find_eq_some h.apart).mp hfind
    refine removal_sound (fun q => q = path) (fun _ _ _ hop => by cases hop) hallowed ?_ ?_
    · rintro q rfl
      exact Function.update_self q none (contents w)
    · refine Triple.bind (Triple.bind (Triple.get ?_))
      rw [hfind]
      have hstart := Emptied.start h (fun q => q = path)
      refine hstart.empty hi rfl (fun _ _ _ => trivial) (fun rest => ?_)
      refine Triple.bind (hstart.shorten hi rfl rest (fun _ _ _ => trivial) ?_)
      have hend := hstart.cleared hi rfl []
      have hdone := (h.cleared hi []).2
      refine Triple.call rfl (Triple.pure ⟨rfl, hend, hdone⟩) (fun n => ?_) (fun n => trivial)
      rcases touched (.flush i) n _ with hd | hd
      · exact ⟨_, by rw [show handles.cut _ n _ = _ from hd]; exact hend⟩
      · exact ⟨_, by rw [show handles.cut _ n _ = _ from hd]; exact hend⟩

/-- Where a removal of a directory stands: the slots it has been at hold nothing that is to go. -/
structure Swept (lossy : Bytes → Str) (w : Page) (dir : Str) (seen : List Nat) (pool : Pool) (disk : List Bytes) : Prop where
  emptied : Emptied lossy w (fun path => under dir path = true) pool disk
  slots : pool.length = w.pool.length
  gone : ∀ i ∈ seen, ∀ path, pool[i]? = some (some path) → under dir path = false

/-- One more slot that holds nothing that is to go. -/
theorem Swept.next {dir : Str} {seen : List Nat} {pool : Pool} {disk : List Bytes} (h : Swept lossy w dir seen pool disk)
    {i : Nat} (hi : ∀ path, pool[i]? = some (some path) → under dir path = false) :
    Swept lossy w dir (seen ++ [i]) pool disk := by
  refine ⟨h.emptied, h.slots, fun j hj => ?_⟩
  rcases List.mem_append.mp hj with hj | hj
  · exact h.gone j hj
  · rw [List.mem_singleton.mp hj]
    exact hi

theorem clearUnder_spec {dir : Str} {seen : List Nat} {pool : Pool} {disk : List Bytes}
    (h : Swept lossy w dir seen pool disk) (i : Nat) :
    Triple handles (clearUnder dir i) pool disk (fun _ pool' disk' => Swept lossy w dir (seen ++ [i]) pool' disk')
      (fun _ _ disk' => LeavesEmptied lossy w (fun path => under dir path = true) disk') (fun _ _ _ => True) := by
  refine Triple.bind (Triple.get ?_)
  cases hi : pool[i]? with
  | none => exact Triple.pure (h.next (fun path hpath => by rw [hi] at hpath; cases hpath))
  | some p =>
    cases p with
    | none => exact Triple.pure (h.next (fun path hpath => by rw [hi] at hpath; cases hpath))
    | some path =>
      show Triple handles (if under dir path = true then _ else _) _ _ _ _ _
      by_cases hunder : under dir path = true
      · rw [if_pos hunder]
        refine h.emptied.empty hi hunder (fun _ _ _ => trivial) (fun rest => ?_)
        refine h.emptied.shorten hi hunder rest (fun _ _ _ => trivial) ⟨h.emptied.cleared hi hunder [], ?_, ?_⟩
        · rw [List.length_set, h.slots]
        · intro j hj q hq
          rcases held_of_set hq with ⟨-, hnone⟩ | ⟨hji, hq⟩
          · cases hnone
          · rcases List.mem_append.mp hj with hj | hj
            · exact h.gone j hj q hq
            · exact absurd (List.mem_singleton.mp hj) hji
      · rw [if_neg hunder]
        refine Triple.pure (h.next (fun q hq => ?_))
        rw [hi] at hq
        rw [← Option.some.inj (Option.some.inj hq)]
        exact Bool.eq_false_iff.mpr hunder

theorem removeDirAll_sound (h : Sound lossy w) (dir : Str) {fault : Fault AdapterError}
    (hallowed : Allowed w fault (.removeDirAll dir)) :
    Sound lossy (w.perform lossy (.removeDirAll dir) fault) ∧ Follows lossy w (.removeDirAll dir) fault := by
  refine removal_sound (fun path => under dir path = true) nofun hallowed (fun path hunder => if_pos hunder) ?_
  refine Triple.bind (Triple.bind (Triple.get ?_))
  have hstart : Swept lossy w dir [] w.pool w.disk := ⟨.start h _, rfl, nofun⟩
  refine (Triple.forList (fun seen pool disk => Swept lossy w dir seen pool disk) (List.range w.pool.length)
    (fun seen i rest pool disk _ hs => clearUnder_spec hs i) hstart).conseq (fun _ pool disk hs => ?_)
  refine Triple.pure ⟨rfl, hs.emptied, funext fun path => ?_⟩
  show _ = if under dir path then none else contents w path
  split
  · -- every slot has been seen, and none holds a path that was to go
    rename_i hunder
    apply contents_none
    intro i hi
    have hlt : i < w.pool.length := hs.slots ▸ (List.getElem?_eq_some_iff.mp hi).1
    rw [hs.gone i (List.mem_range.mpr hlt) path hi] at hunder
    cases hunder
  · rename_i hunder
    exact (hs.emptied.each path).resolve_right (fun hgone => hunder hgone.1)

/-! ## Any step, and any run -/

/-- **A step**: it keeps the page and its slots agreed, and does what it is for. -/
theorem perform_sound (h : Sound lossy w) {op : PoolOp} {fault : Fault AdapterError} (hallowed : Allowed w fault op) :
    Sound lossy (w.perform lossy op fault) ∧ Follows lossy w op fault := by
  cases op with
  | «open» path writable => exact open_sound h path writable hallowed
  | read file len offset => exact read_sound h file len offset hallowed fault
  | write file src offset => exact write_sound h file src offset hallowed fault
  | truncate file len => exact truncate_sound h file len hallowed fault
  | removeFile path => exact removeFile_sound h path hallowed
  | removeDirAll dir => exact removeDirAll_sound h dir hallowed

end

/-- The pages of a run: a pool of unused slots, steps as `allowed` lets them be, and reloads anywhere between them. -/
inductive Reaches (lossy : Bytes → Str) (allowed : Page → Fault AdapterError → PoolOp → Prop) (slots : Nat) : Page → Prop
  | fresh : Reaches lossy allowed slots (.fresh slots)
  | step {w : Page} (op : PoolOp) (fault : Fault AdapterError) :
      Reaches lossy allowed slots w → allowed w fault op → Reaches lossy allowed slots (w.perform lossy op fault)
  | reload {w : Page} : Reaches lossy allowed slots w → Reaches lossy allowed slots (.load lossy w.disk)

theorem Reaches.sound {lossy : Bytes → Str} {slots : Nat} {w : Page} (h : Reaches lossy Allowed slots w) :
    Sound lossy w := by
  induction h with
  | fresh => exact .fresh lossy slots
  | step op fault _ hallowed ih => exact (perform_sound ih hallowed).1
  | reload _ ih => exact ih.load.1

/-- **The slot pool keeps files apart**: on every page of a run every path is held by at most one slot, a reload shows
    the same files, and a step does what it is for and nothing else. -/
theorem slots_keep_files_apart {lossy : Bytes → Str} {slots : Nat} {w : Page} (h : Reaches lossy Allowed slots w) :
    Apart w.pool ∧ contents (.load lossy w.disk) = contents w ∧
      ∀ op fault, Allowed w fault op → Follows lossy w op fault :=
  ⟨h.sound.apart, h.sound.load.2, fun _ _ hallowed => (perform_sound h.sound hallowed).2⟩

def pathA : Str := ⟨[0x2F, 0x61], by decide⟩

def pathB : Str := ⟨[0x2F, 0x62], by decide⟩

def pathC : Str := ⟨[0x2F, 0x63], by decide⟩

/-- A page that has created the first path. -/
def pageA : Page := (Page.fresh 1).perform (fun _ => pathA) (.open pathA true) .none

/-- Whether a step without a fault is one that keeps files apart. -/
def allowedNow (w : Page) : PoolOp → Bool
  | .open path _ => decide (PathFits path)
  | .read file _ _ | .write file _ _ | .truncate file _ => (w.files[file]?).all fun held =>
      decide (w.pool[held.1.slot]? = some (some held.2) ∨ w.pool[held.1.slot]? = some none)
  | .removeFile _ | .removeDirAll _ => true

theorem not_handleThrows (w : Page) (op : PoolOp) : ¬ HandleThrows w op .none := by
  rintro ⟨_, _, _, _, h, _⟩
  cases h

theorem allowed_of_now {w : Page} {op : PoolOp} (h : allowedNow w op = true) : Allowed w .none op := by
  have hfile {file : Nat} (hall : (w.files[file]?).all (fun held => decide
      (w.pool[held.1.slot]? = some (some held.2) ∨ w.pool[held.1.slot]? = some none)) = true) :
      ∀ o path, w.files[file]? = some (o, path) → w.pool[o.slot]? = some (some path) ∨ w.pool[o.slot]? = some none :=
    fun o path hfile => by
      rw [hfile] at hall
      exact of_decide_eq_true hall
  cases op with
  | «open» path writable =>
    refine fun _ _ _ _ => ⟨of_decide_eq_true h, not_handleThrows _ _, ?_⟩
    rintro (⟨_, hdies⟩ | hdies)
    · cases hdies
    · cases hdies
  | read file len offset => exact hfile h
  | write file src offset => exact hfile h
  | truncate file len => exact hfile h
  | removeFile path => exact not_handleThrows _ _
  | removeDirAll dir => exact not_handleThrows _ _

/-- The page after such steps, without a fault. -/
def pageAfter (w : Page) (ops : List PoolOp) : Page := ops.foldl (fun w op => w.perform (fun _ => pathA) op .none) w

/-- Whether each of the steps keeps files apart, where it is made. -/
def allowedEach : Page → List PoolOp → Bool
  | _, [] => true
  | w, op :: ops => allowedNow w op && allowedEach (w.perform (fun _ => pathA) op .none) ops

theorem reaches_pageAfter {slots : Nat} {ops : List PoolOp} : ∀ {w : Page}, Reaches (fun _ => pathA) Allowed slots w →
    allowedEach w ops = true → Reaches (fun _ => pathA) Allowed slots (pageAfter w ops) := by
  induction ops with
  | nil => exact fun h _ => h
  | cons op ops ih =>
    intro w h hallowed
    obtain ⟨hfirst, hrest⟩ := (Bool.and_eq_true _ _).mp hallowed
    exact ih (.step op .none h (allowed_of_now hfirst)) hrest

/-- Two files in two slots: the first is removed, and a third path takes its slot. -/
def pageC : Page := pageAfter (.fresh 2) [.open pathA true, .write 0 [1, 2] 0, .open pathB true, .write 1 [3] 0,
  .removeFile pathA, .open pathC true, .write 2 [4] 0]

/-- The slot has changed hands and each file is its own, before and after a reload; then the page dies half-way through a
    removal. -/
theorem slots_keep_files_apart_reused : Apart pageC.pool ∧ pageC.pool = [some pathC, some pathB] ∧
    contents (.load (fun _ => pathA) pageC.disk) pathC = some [4] ∧ contents (.load (fun _ => pathA) pageC.disk) pathB = some [3] ∧
    Follows (fun _ => pathA) pageC (.removeFile pathB) (.die 1 0) := by
  have hreach : Reaches (fun _ => pathA) Allowed 2 pageC := reaches_pageAfter .fresh (by decide +kernel)
  obtain ⟨hapart, hsame, hfollows⟩ := slots_keep_files_apart hreach
  refine ⟨hapart, by decide +kernel, ?_, ?_, hfollows (.removeFile pathB) (.die 1 0) ?_⟩
  · exact (congrFun hsame pathC).trans (by decide +kernel)
  · exact (congrFun hsame pathB).trans (by decide +kernel)
  · rintro ⟨_, _, _, _, h, _⟩
    cases h

/-- The page after the first path was removed and its slot went to a second one. -/
def pageB : Page :=
  (pageA.perform (fun _ => pathA) (.removeFile pathA) .none).perform (fun _ => pathA) (.open pathB true) .none

theorem utf8_replicate (n : Nat) : (utf8Chars (List.replicate n 0x61)).isSome = true := by
  induction n with
  | zero => rfl
  | succ n ih =>
    rw [List.replicate_succ, utf8Chars.eq_def]
    dsimp only
    rw [if_pos (by decide), Option.isSome_map]
    exact ih

/-- A path that no header holds. -/
def longPath : Str := ⟨List.replicate 505 0x61, utf8_replicate 505⟩

/-- A file object outlives its slot's file, and a write through it goes into the second path's file; and a path that no
    header holds is given a slot by an open that throws. -/
theorem slots_not_apart :
    (Reaches (fun _ => pathA) (fun _ _ _ => True) 1 pageB ∧ pageB.files[0]?.map Prod.snd = some pathA ∧
      ¬ Follows (fun _ => pathA) pageB (.write 0 [7] 0) .none) ∧
      ¬ Follows (fun _ => pathA) (.fresh 1) (.open longPath true) .none := by
  refine ⟨⟨?_, rfl, fun h => ?_⟩, fun h => ?_⟩
  · exact .step _ _ (.step _ _ (.step _ _ .fresh trivial) trivial) trivial
  · have hshown : contents pageB pathB = some [] := by decide +kernel
    have hwritten : contents (pageB.perform (fun _ => pathA) (.write 0 [7] 0) .none) pathB = some [7] := by decide +kernel
    have hafter : after pageB (contents pageB) (.write 0 [7] 0) pathB = some [] := by decide +kernel
    rcases h.each pathB with heq | heq
    · rw [hshown, hwritten] at heq
      cases heq
    · rw [hafter, hwritten] at heq
      cases heq
  · have hthrown : (outcome (.fresh 1) (.open longPath true) .none).all (fun r => r.isOk) = false := by decide +kernel
    obtain ⟨r, hout, hr⟩ : ∃ r, outcome (.fresh 1) (.open longPath true) .none = some r ∧ r.isOk = false := by
      cases hout : outcome (.fresh 1) (.open longPath true) .none with
      | none =>
        rw [hout] at hthrown
        cases hthrown
      | some r =>
        rw [hout] at hthrown
        exact ⟨r, rfl, hthrown⟩
    obtain ⟨e, rfl⟩ : ∃ e, r = .error e := by
      cases r with
      | error e => exact ⟨e, rfl⟩
      | ok a => cases hr
    have hpool := h.thrown e hout
    have hheld : ((Page.fresh 1).perform (fun _ => pathA) (.open longPath true) .none).pool = [some longPath] := by
      decide +kernel
    rw [hheld] at hpool
    cases hpool

end IshaVectorDb.Correctness
