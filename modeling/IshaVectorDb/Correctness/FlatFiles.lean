import IshaVectorDb.Correctness.PathArrays

/-!
# `Correctness.FlatFiles` — blocks in memory read as **flat files**, if nothing is left behind

A flat file is one array of bytes. The adapter's blocks make up an array without an end for each path, and a file is
what of it lies below the size. Reads, and writes across holes and short blocks, agree with the flat file as long as
the array is blank from the size on.

A truncation does not see to that. It drops whole blocks and leaves the one that it cuts as it is, so that bytes behind
the cut come back when the file grows again. A write through an object whose file has been removed leaves blocks for
the next file of that path; and the blocks of a path that ends in a blank are taken for those of the path without.
`flat_while_clean` is what holds of every run without such calls.
-/

namespace IshaVectorDb.Sdk.IndexedDb

open Format Engine Blocks

/-! ## Flat files -/

/-- **Flat files**: of each path that there is a file of, one array of bytes. -/
abbrev Flat := Bytes → Option Bytes

namespace Flat

/-- A file changed; where there is none, nothing is. -/
def change (path : Bytes) (edit : Bytes → Bytes) (f : Flat) : Flat :=
  fun p => if p = path then (f p).map edit else f p

/-- What a file holds; a path that there is no file of reads as an empty one. -/
def content (f : Flat) (path : Bytes) : Bytes := (f path).getD []

/-- What a call answers, and what it makes of the files. -/
def call : FileCall → Flat → FileAnswer × Flat
  | .open path writable, f => match f path with
      | some _ => (.opened (.ok ⟨path⟩), f)
      | none =>
          if writable then (.opened (.ok ⟨path⟩), Function.update f path (some []))
          else (.opened (.error .notFound), f)
  | .read file len offset, f => (.bytes (((f.content file.path).drop offset).take len), f)
  | .write file src offset, f => (.done, f.change file.path (fun bs => overwrite bs src offset))
  | .truncate file len, f => (.done, f.change file.path (fun bs => resize bs len))
  | .size file, f => (.size (f.content file.path).length, f)
  | .removeFile path, f => (.done, Function.update f path none)

end Flat

/-- **The adapter shows flat files**: each with its size, and the array of its blocks blank from there on. -/
structure Shows (a : Adapter) (f : Flat) : Prop where
  sizes : ∀ path, (a.files.lookup path).map FileEntry.size = (f path).map List.length
  bytes : ∀ path, a.tape path = spread (f.content path)
  small : ∀ path, (f.content path).length ≤ 2 ^ 53

/-- **A call that leaves nothing behind.** A write ends within 2^53, and to a path that there is no file of it writes
    zeroes at most. A truncation within 2^53, or a removal, has the bytes in those blocks that it drops behind the cut
    of its own file, and all of these in them. -/
def FileCall.Clean : FileCall → Adapter → Prop
  | .write file src offset, a => offset + src.length ≤ 2 ^ 53 ∧ (file.path ∈ a.files ∨ ∀ b ∈ src, b = 0)
  | .truncate file len, a => file.path ∈ a.files → len ≤ 2 ^ 53 ∧ ∀ path i, a.tape path i ≠ 0 →
      (Adapter.reaches file.path len (blockKey path (i / blockBytes)) = true ↔ path = file.path ∧ len ≤ i)
  | .removeFile path, a => ∀ other i, a.tape other i ≠ 0 →
      Adapter.reaches path 0 (blockKey other (i / blockBytes)) = true → other = path
  | _, _ => True

namespace Shows

variable {a : Adapter} {f : Flat}

theorem mem_files (h : Shows a f) {path : Bytes} : path ∈ a.files ↔ (f path).isSome := by
  rw [← AList.lookup_isSome, ← Option.isSome_map, h.sizes path, Option.isSome_map]

/-- A file's entry and the file are there together. -/
theorem file_cases (h : Shows a f) (path : Bytes) :
    (a.files.lookup path = none ∧ f path = none) ∨
      ∃ entry bs, a.files.lookup path = some entry ∧ f path = some bs ∧ entry.size = bs.length := by
  have hsize := h.sizes path
  cases hfile : a.files.lookup path with
  | none =>
    rw [hfile, eq_comm, Option.map_none, Option.map_eq_none_iff] at hsize
    exact .inl ⟨rfl, hsize⟩
  | some entry =>
    rw [hfile, eq_comm, Option.map_some, Option.map_eq_some_iff] at hsize
    obtain ⟨bs, hbs, hlength⟩ := hsize
    exact .inr ⟨entry, bs, rfl, hbs, hlength.symm⟩

theorem size_eq (h : Shows a f) (o : FileObject) : a.size o = (f.content o.path).length := by
  unfold Adapter.size Flat.content
  rcases h.file_cases o.path with ⟨hfile, hflat⟩ | ⟨entry, bs, hfile, hflat, hsize⟩
  · rw [hfile, hflat]; rfl
  · rw [hfile, hflat]; exact hsize

theorem read_eq (h : Shows a f) (o : FileObject) (len offset : Nat) :
    a.read o len offset = ((f.content o.path).drop offset).take len := by
  unfold Adapter.read
  rw [h.size_eq, readInto_eq (h.small o.path), h.bytes, read_eq_window]

/-- An entry that is set has the size of the file that it is set for. -/
theorem sizes_set (h : Shows a f) {path bs : Bytes} {entry : FileEntry} (hentry : entry.size = bs.length) {g : Flat}
    (hg : g path = some bs) (hothers : ∀ p, p ≠ path → g p = f p) (p : Bytes) :
    ((a.files.set path entry).lookup p).map FileEntry.size = (g p).map List.length := by
  rw [lookup_set]
  split
  · next hp =>
    subst hp
    rw [hg, Option.map_some, Option.map_some, hentry]
  · next hp => rw [h.sizes p, hothers p hp]

theorem open_path (h : Shows a f) (path : Bytes) (writable : Bool) :
    (a.call (.open path writable)).1 = (f.call (.open path writable)).1 ∧
      Shows (a.call (.open path writable)).2 (f.call (.open path writable)).2 := by
  rcases h.file_cases path with ⟨hfile, hflat⟩ | ⟨entry, bs, hfile, hflat, _⟩
  · cases writable with
    | false =>
      have hadapter : a.call (.open path false) = (.opened (.error .notFound), a) := by
        simp only [Adapter.call, Adapter.openPath, hfile]; rfl
      have hfiles : f.call (.open path false) = (.opened (.error .notFound), f) := by
        simp only [Flat.call, hflat]; rfl
      rw [hadapter, hfiles]
      exact ⟨rfl, h⟩
    | true =>
      have hadapter : a.call (.open path true) = (.opened (.ok ⟨path⟩), a.setFile path ⟨0, false⟩) := by
        simp only [Adapter.call, Adapter.openPath, hfile]; rfl
      have hfiles : f.call (.open path true) = (.opened (.ok ⟨path⟩), Function.update f path (some [])) := by
        simp only [Flat.call, hflat]; rfl
      have hcontent : ∀ p, Flat.content (Function.update f path (some [])) p = f.content p := by
        intro p
        unfold Flat.content
        by_cases hp : p = path
        · subst hp
          rw [Function.update_self, hflat]; rfl
        · rw [Function.update_of_ne hp]
      rw [hadapter, hfiles]
      refine ⟨rfl, ⟨?_, fun p => ?_, fun p => ?_⟩⟩
      · exact h.sizes_set rfl (Function.update_self ..) (fun p hp => Function.update_of_ne hp ..)
      · rw [hcontent]; exact h.bytes p
      · rw [hcontent]; exact h.small p
  · have hadapter : a.call (.open path writable) = (.opened (.ok ⟨path⟩), a) := by
      simp only [Adapter.call, Adapter.openPath, hfile]
    have hfiles : f.call (.open path writable) = (.opened (.ok ⟨path⟩), f) := by
      simp only [Flat.call, hflat]
    rw [hadapter, hfiles]
    exact ⟨rfl, h⟩

/-- What is changed is one file, if it is there. -/
theorem content_change {path bs : Bytes} (hflat : f path = some bs) (edit : Bytes → Bytes) (p : Bytes) :
    (f.change path edit).content p = if p = path then edit bs else f.content p := by
  unfold Flat.change Flat.content
  dsimp only
  by_cases hp : p = path
  · rw [if_pos hp, if_pos hp, hp, hflat]; rfl
  · rw [if_neg hp, if_neg hp]

theorem change_none {path : Bytes} (hflat : f path = none) (edit : Bytes → Bytes) : f.change path edit = f := by
  funext p
  unfold Flat.change
  split
  · next hp => subst hp; rw [hflat]; rfl
  · rfl

theorem write (h : Shows a f) {file : FileObject} {src : Bytes} {offset : Nat}
    (hclean : FileCall.Clean (.write file src offset) a) :
    Shows (a.write file src offset) (f.change file.path (fun bs => overwrite bs src offset)) := by
  obtain ⟨hfits, hthere⟩ := hclean
  have hfiles : (Adapter.writeFrom file.path src offset a).files = a.files := files_writeLoop src offset _ _ a
  have hbytes : ∀ p, (Adapter.writeFrom file.path src offset a).tape p =
      if p = file.path then patched (a.tape file.path) src offset else a.tape p := fun p => tape_writeFrom hfits p a
  unfold Adapter.write
  dsimp only
  rcases h.file_cases file.path with ⟨hfile, hflat⟩ | ⟨entry, bs, hfile, hflat, hsize⟩
  · -- zeroes are written where everything is blank
    rw [hfiles, hfile, change_none hflat]
    have hzero : ∀ b ∈ src, b = 0 := by
      rcases hthere with hmem | hzero
      · rw [h.mem_files, hflat] at hmem
        cases hmem
      · exact hzero
    refine ⟨by rw [hfiles]; exact h.sizes, fun p => ?_, h.small⟩
    rw [hbytes p]
    split
    · next hp =>
      subst hp
      funext i
      rw [h.bytes, Flat.content, hflat]
      unfold patched
      split
      · rcases Nat.lt_or_ge (i - offset) src.length with hin | hout
        · rw [List.getD_eq_getElem _ _ hin, hzero _ (List.getElem_mem hin)]; rfl
        · rw [List.getD_eq_default _ _ hout]
      · rfl
    · exact h.bytes p
  · rw [hfiles, hfile, round53_of_le hfits]
    have hsmall : bs.length ≤ 2 ^ 53 := by
      have := h.small file.path
      rwa [Flat.content, hflat] at this
    have hbytes' : ∀ p, (Adapter.writeFrom file.path src offset a).tape p =
        spread ((f.change file.path (fun bs => overwrite bs src offset)).content p) := by
      intro p
      rw [hbytes p, content_change hflat]
      split
      · rw [spread_overwrite, h.bytes, Flat.content, hflat]; rfl
      · exact h.bytes p
    have hlength : ∀ p, ((f.change file.path (fun bs => overwrite bs src offset)).content p).length ≤ 2 ^ 53 := by
      intro p
      rw [content_change hflat]
      split
      · rw [length_overwrite]; omega
      · exact h.small p
    have hchanged : f.change file.path (fun bs => overwrite bs src offset) file.path = some (overwrite bs src offset) := by
      unfold Flat.change
      rw [if_pos rfl, hflat]; rfl
    have hothers : ∀ p, p ≠ file.path → f.change file.path (fun bs => overwrite bs src offset) p = f p :=
      fun p hp => if_neg hp
    dsimp only
    split
    · next hgrows =>
      refine ⟨?_, hbytes', hlength⟩
      show ∀ p, (((Adapter.writeFrom file.path src offset a).files.set file.path _).lookup p).map FileEntry.size = _
      rw [hfiles]
      exact h.sizes_set (by rw [length_overwrite]; dsimp only; omega) hchanged hothers
    · next hstays =>
      refine ⟨fun p => ?_, hbytes', hlength⟩
      rw [hfiles, h.sizes p]
      by_cases hp : p = file.path
      · subst hp
        rw [hchanged, hflat, Option.map_some, Option.map_some, length_overwrite]
        congr 1; omega
      · rw [hothers p hp]

theorem truncate (h : Shows a f) {file : FileObject} {len : Nat} (hclean : FileCall.Clean (.truncate file len) a) :
    Shows (a.truncate file len) (f.change file.path (fun bs => resize bs len)) := by
  unfold Adapter.truncate
  rcases h.file_cases file.path with ⟨hfile, hflat⟩ | ⟨entry, bs, hfile, hflat, hsize⟩
  · rw [hfile, change_none hflat]
    exact h
  · obtain ⟨hlen, hexact⟩ := hclean (AList.lookup_isSome.mp (by rw [hfile]; rfl))
    rw [hfile]
    refine ⟨?_, fun p => ?_, fun p => ?_⟩
    · show ∀ p, ((Adapter.dropBlocksFrom file.path len _).files.lookup p).map FileEntry.size = _
      rw [files_dropBlocksFrom]
      refine h.sizes_set (length_resize bs len).symm ?_ (fun p hp => if_neg hp)
      unfold Flat.change
      rw [if_pos rfl, hflat]; rfl
    · funext i
      show (Adapter.dropBlocksFrom file.path len _).tape p i = _
      rw [tape_dropBlocksFrom, content_change hflat]
      show (if _ then 0 else a.tape p i) = _
      by_cases hblank : a.tape p i = 0
      · rw [hblank, ite_self]
        rw [h.bytes] at hblank
        split
        · next hp =>
          rw [hp, Flat.content, hflat] at hblank
          rw [spread_resize]
          split
          · exact hblank.symm
          · rfl
        · exact hblank.symm
      · have hreach := hexact p i hblank
        split
        · next hdropped =>
          obtain ⟨hp, hi⟩ := hreach.mp hdropped
          rw [if_pos hp, spread_resize, if_neg (by omega)]
        · next hkept =>
          rw [h.bytes]
          split
          · next hp =>
            rw [hp, Flat.content, hflat, spread_resize, if_pos]
            · rfl
            · by_contra hi
              exact hkept (hreach.mpr ⟨hp, by omega⟩)
          · rfl
    · rw [content_change hflat]
      split
      · rw [length_resize]; exact hlen
      · exact h.small p

theorem remove_file (h : Shows a f) {path : Bytes} (hclean : FileCall.Clean (.removeFile path) a) :
    Shows (a.removeFile path) (Function.update f path none) := by
  have hcontent : ∀ p, Flat.content (Function.update f path none) p = if p = path then [] else f.content p := by
    intro p
    unfold Flat.content
    split
    · next hp => subst hp; rw [Function.update_self]; rfl
    · next hp => rw [Function.update_of_ne hp]
  refine ⟨fun p => ?_, fun p => ?_, fun p => ?_⟩
  · unfold Adapter.removeFile
    rw [files_dropBlocksFrom]
    show ((a.files.erase path).lookup p).map FileEntry.size = _
    rw [lookup_erase]
    split
    · next hp => subst hp; rw [Function.update_self]; rfl
    · next hp => rw [Function.update_of_ne hp]; exact h.sizes p
  · funext i
    unfold Adapter.removeFile
    rw [tape_dropBlocksFrom, hcontent]
    show (if _ then 0 else a.tape p i) = _
    split
    · next hdropped =>
      split
      · rfl
      · next hp =>
        by_contra hleft
        rw [← h.bytes] at hleft
        exact hp (hclean p i (Ne.symm hleft) hdropped)
    · next hkept =>
      split
      · next hp =>
        rw [hp, reaches_own] at hkept
        exact absurd (decide_eq_true (Nat.zero_le _)) hkept
      · rw [h.bytes]
  · rw [hcontent]
    split
    · exact Nat.zero_le _
    · exact h.small p

/-- **One call**: the answers agree, and what is left shows the same files. -/
theorem call (h : Shows a f) (c : FileCall) (hclean : c.Clean a) :
    (a.call c).1 = (f.call c).1 ∧ Shows (a.call c).2 (f.call c).2 := by
  cases c with
  | «open» path writable => exact h.open_path path writable
  | read file len offset => exact ⟨congrArg FileAnswer.bytes (h.read_eq file len offset), h⟩
  | write file src offset => exact ⟨rfl, h.write hclean⟩
  | truncate file len => exact ⟨rfl, h.truncate hclean⟩
  | size file => exact ⟨congrArg FileAnswer.size (h.size_eq file), h⟩
  | removeFile path => exact ⟨rfl, h.remove_file hclean⟩

end Shows

/-! ## Runs -/

/-- Every call of a run is clean where it comes. -/
def CleanRun : List FileCall → Adapter → Prop
  | [], _ => True
  | c :: calls, a => c.Clean a ∧ CleanRun calls (a.call c).2

theorem Shows.empty : Shows (.load .empty) (fun _ => none) where
  sizes _ := rfl
  bytes _ := rfl
  small _ := Nat.zero_le _

theorem Shows.answers {a : Adapter} {f : Flat} (h : Shows a f) {calls : List FileCall} (hclean : CleanRun calls a) :
    answers Adapter.call calls a = answers Flat.call calls f := by
  induction calls generalizing a f with
  | nil => rfl
  | cons c calls ih =>
    obtain ⟨hc, hrest⟩ := hclean
    obtain ⟨hanswer, hnext⟩ := h.call c hc
    show (a.call c).1 :: _ = (f.call c).1 :: _
    rw [hanswer, ih hnext hrest]

/-- **The adapter is a flat file, as long as nothing is left behind.** From an empty database on, every answer of every
    run of opens, reads, writes, truncations and removals on any paths, offsets and lengths is the one that flat files
    give, if no call of it leaves bytes behind the end of a file, or takes those of another. -/
theorem flat_while_clean (calls : List FileCall) (h : CleanRun calls (.load .empty)) :
    answers Adapter.call calls (.load .empty) = answers Flat.call calls (fun _ => none) :=
  Shows.empty.answers h

/-- What is not blank is in a file. -/
theorem Shows.file_of_ne {a : Adapter} {f : Flat} (h : Shows a f) {path : Bytes} {i : Nat} (hi : a.tape path i ≠ 0) :
    ∃ bs, f path = some bs ∧ i < bs.length := by
  rw [h.bytes, Flat.content] at hi
  cases hflat : f path with
  | none =>
    rw [hflat] at hi
    exact absurd rfl hi
  | some bs =>
    rw [hflat] at hi
    refine ⟨bs, rfl, ?_⟩
    by_contra hbehind
    exact hi (spread_of_le (Nat.not_lt.mp hbehind))

/-- A file of one byte is cut behind it, read and removed. -/
theorem flat_letter : answers Adapter.call
    [.open [0x61] true, .write ⟨[0x61]⟩ [7] 0, .truncate ⟨[0x61]⟩ 1, .read ⟨[0x61]⟩ 2 0, .removeFile [0x61],
      .size ⟨[0x61]⟩] (.load .empty) =
    [.opened (.ok ⟨[0x61]⟩), .done, .done, .bytes [7], .done, .size 0] := by
  have hothers : ∀ path, path ≠ [0x61] → (Flat.call (.open [0x61] true) fun _ => none).2 path = none :=
    fun path hp => show Function.update (fun _ => none) [0x61] (some ([] : Bytes)) path = none from
      Function.update_of_ne hp _ _
  have hopened := (Shows.empty.call (.open [0x61] true) trivial).2
  have hwrite : FileCall.Clean (.write ⟨[0x61]⟩ [7] 0) (Adapter.call (.open [0x61] true) (.load .empty)).2 :=
    ⟨by decide, .inl (by decide)⟩
  have hwritten := (hopened.call _ hwrite).2
  have htruncate : FileCall.Clean (.truncate ⟨[0x61]⟩ 1) (Adapter.call (.write ⟨[0x61]⟩ [7] 0)
      (Adapter.call (.open [0x61] true) (.load .empty)).2).2 := by
    refine fun _ => ⟨by decide, fun path i hi => ?_⟩
    obtain ⟨bs, hbs, hlt⟩ := hwritten.file_of_ne hi
    by_cases hp : path = [0x61]
    · subst hp
      obtain rfl := Option.some.inj hbs
      have hzero : i = 0 := Nat.lt_one_iff.mp hlt
      subst hzero
      decide
    · have hnone : (Flat.call (.write ⟨[0x61]⟩ [7] 0) (Flat.call (.open [0x61] true) fun _ => none).2).2 path = none :=
        (if_neg hp).trans (hothers path hp)
      rw [hnone] at hbs
      cases hbs
  have hremove : FileCall.Clean (.removeFile [0x61]) (Adapter.call (.truncate ⟨[0x61]⟩ 1)
      (Adapter.call (.write ⟨[0x61]⟩ [7] 0) (Adapter.call (.open [0x61] true) (.load .empty)).2).2).2 := by
    intro path i hi _
    obtain ⟨bs, hbs, _⟩ := (hwritten.call _ htruncate).2.file_of_ne hi
    by_contra hp
    have hnone : (Flat.call (.truncate ⟨[0x61]⟩ 1) (Flat.call (.write ⟨[0x61]⟩ [7] 0)
        (Flat.call (.open [0x61] true) fun _ => none).2).2).2 path = none :=
      (if_neg hp).trans ((if_neg hp).trans (hothers path hp))
    rw [hnone] at hbs
    cases hbs
  refine (flat_while_clean _ ?_).trans (by decide +kernel)
  exact And.intro trivial (And.intro hwrite (And.intro htruncate (And.intro trivial (And.intro hremove
    (And.intro trivial trivial)))))

/-- **A truncation leaves bytes behind**: cut to one byte and grown to three again, a file reads as before the cut. -/
theorem truncate_leaves : ¬ ∀ calls : List FileCall,
    answers Adapter.call calls (.load .empty) = answers Flat.call calls (fun _ => none) := by
  intro h
  have hrun := h [.open [0x61] true, .write ⟨[0x61]⟩ [1, 2, 3] 0, .truncate ⟨[0x61]⟩ 1, .truncate ⟨[0x61]⟩ 3,
    .read ⟨[0x61]⟩ 3 0]
  exact absurd hrun (by decide +kernel)

end IshaVectorDb.Sdk.IndexedDb
