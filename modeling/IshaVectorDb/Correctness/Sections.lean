import IshaVectorDb.Correctness.Edits
import IshaVectorDb.Correctness.ReachedStates
import IshaVectorDb.Correctness.Sessions
import IshaVectorDb.Engine.Sections

/-!
# `Correctness.Sections` — calls **side by side** on one manifest

Any number of calls run at once, one section at a time in any order, over a storage that answers in any way. A flush and a
compaction rewrite one entry of the manifest as they find it under its lock, and leave every other entry alone
(`Edit.act_elsewhere`). A drop commits a manifest that it read in an earlier section: what was committed in between is
undone. Two creations that find the same name free both go on.
-/

namespace IshaVectorDb.Engine

open Format Interaction

/-! ## Entries -/

section Entries

variable {m : Manifest} {e : CollectionEntry} {name other : Str}

theorem find_replaceFirst_ne (l : List CollectionEntry) (h : name ≠ e.name) :
    (Manifest.withEntry.replaceFirst e l).find? (fun c => c.name = name) = l.find? (fun c => c.name = name) := by
  induction l with
  | nil => rfl
  | cons c l ih =>
    unfold Manifest.withEntry.replaceFirst
    split
    · next hc =>
      rw [List.find?_cons_of_neg (by simpa using Ne.symm h), List.find?_cons_of_neg (by simpa [hc] using Ne.symm h)]
    · rw [List.find?_cons, List.find?_cons, ih]

/-- Rewriting one entry leaves the others alone. -/
theorem entry_withEntry_ne (h : name ≠ e.name) : (Manifest.withEntry m e).collection name = m.collection name := by
  unfold Manifest.withEntry Manifest.collection
  split
  · exact find_replaceFirst_ne m.collections h
  · show (m.collections ++ [e]).find? _ = _
    rw [List.find?_append, List.find?_cons_of_neg (by simpa using Ne.symm h), List.find?_nil, Option.or_none]

/-- Taking one out, too. -/
theorem entry_without_ne (h : name ≠ other) : (Manifest.without m other).collection name = m.collection name := by
  unfold Manifest.without Manifest.collection
  rw [List.find?_filter]
  congr 1
  funext c
  by_cases hc : c.name = name
  · simp [hc, h]
  · simp [hc]

end Entries

/-! ## Sections that leave the other collections alone -/

/-- The entries of every other collection are those of `m`. -/
def Elsewhere (name : Str) (m : Manifest) (store : ManifestStore) : Prop :=
  ∀ other, other ≠ name → store.current.collection other = m.collection other

/-- A commit leaves what its manifest agrees with. -/
theorem commit_elsewhere {name : Str} {m next : Manifest} {nowMs : UInt64}
    (h : ∀ other, other ≠ name → next.collection other = m.collection other) :
    Keeps (Elsewhere name m) (ManifestStore.commit next nowMs) (fun _ => True) :=
  .next Keeps.get.any fun _ => .next Keeps.get.any fun _ => .next (lift_keeps _) fun _ =>
    .next (writeFile_keeps _ _) fun _ => .modify fun _ _ => h

/-- A session on that collection. -/
def Session.Elsewhere (name : Str) (m : Manifest) (s : Session) : Prop := s.name = name ∧ Engine.Elsewhere name m s.store

section Collections

variable {name : Str} {m : Manifest} (env : Env)

theorem onWal_elsewhere {α : Type} (a : Action WalWriter α) :
    Keeps (Session.Elsewhere name m) (onWal a) (fun _ => True) := .zoom_apart fun _ _ h => h

/-- **The commit of an entry** is made of the manifest that is there then. -/
theorem commitCollection_elsewhere {entry : CollectionEntry} (hentry : entry.name = name) :
    Keeps (Session.Elsewhere name m) (commitCollection env entry) (fun _ => True) := by
  refine .bind .get fun s hs => .zoom (commit_elsewhere fun other hne => ?_) (fun _ h => h.2) fun _ _ hstore h => ⟨h.1, hstore⟩
  rw [entry_withEntry_ne (hentry ▸ hne)]
  exact hs.2 other hne

theorem adoptSegment_elsewhere (segment : SegmentRef) (refs : List SegmentRef) :
    Keeps (Session.Elsewhere name m) (adoptSegment segment refs) (fun _ => True) :=
  .next Keeps.get.any fun _ => .ite
    (fun _ => .next (SegmentData.open_keeps _ _).any fun _ => .next (.modify fun _ h => h) fun _ => .pure trivial)
    fun _ => .next (removeSegment_keeps _ _) fun _ => .pure trivial

theorem checkpoint_elsewhere (segmentId : UInt64) :
    Keeps (Session.Elsewhere name m) (checkpoint env segmentId) (fun _ => True) :=
  .next Keeps.get.any fun _ => .next (lift_keeps _) fun _ => .next (.call _) fun _ => .next (.call _) fun _ =>
    .next (.call _) fun _ => .next (.modify fun _ h => h) fun _ => .next (walOpen_keeps _ _ _) fun _ => .modify fun _ h => h

theorem doFlush_elsewhere : Keeps (Session.Elsewhere name m) (doFlush env) (fun _ => True) := by
  refine .next Keeps.get.any fun s => .ite (fun _ => .pure trivial) fun _ => .next (flushMemtable_keeps _ _ _) fun result => ?_
  refine .next (.zoom_apart fun _ _ h => h) fun refs => .next (adoptSegment_elsewhere _ _) fun refs => ?_
  exact .bind .get fun now hnow => .next (commitCollection_elsewhere env hnow.1) fun _ => checkpoint_elsewhere env _

theorem maybeFlush_elsewhere : Keeps (Session.Elsewhere name m) (maybeFlush env) (fun _ => True) :=
  .next Keeps.get.any fun _ => .ite (fun _ => doFlush_elsewhere env) fun _ => .pure trivial

theorem applyPut_elsewhere (doc : DocumentInput) : Keeps (Session.Elsewhere name m) (applyPut env doc) (fun _ => True) :=
  .next (lift_keeps _) fun _ => .next (onWal_elsewhere _) fun _ => .next Keeps.get.any fun _ => .next (lift_keeps _) fun _ =>
    .modify fun _ h => h

theorem compact_elsewhere (options : CompactOptions) :
    Keeps (Session.Elsewhere name m) (compact env options) (fun _ => True) := by
  refine .next (checkWritable_keeps env _) fun _ => .next Keeps.get.any fun s => .ite (fun _ => .pure trivial) fun _ => ?_
  refine .next (compactSegments_keeps _ _ _) fun result => .next (.modify fun _ h => h) fun _ => ?_
  refine .next (openRewritten_keeps _ _).any fun rewritten => .next (.modify fun _ h => h) fun _ => ?_
  exact .bind .get fun now hnow => .next (commitCollection_elsewhere env hnow.1) fun _ =>
    .next (.forList _ fun _ _ => removeSegment_keeps _ _) fun _ => .pure trivial

/-- **A call on a collection leaves the entries of the others alone**, whatever becomes of it. -/
theorem Edit.act_elsewhere (e : Edit) : Keeps (Session.Elsewhere name m) (e.act env) (fun _ => True) := by
  cases e with
  | insert doc =>
    refine .next (.next (checkWritable_keeps env _) fun _ => .next Keeps.get.any fun _ => .next (lift_keeps _) fun _ => ?_)
      fun _ => .pure trivial
    exact .ite (fun _ => .throw _) fun _ => .next (applyPut_elsewhere env doc) fun _ => maybeFlush_elsewhere env
  | upsert doc =>
    refine .next (.next (checkWritable_keeps env _) fun _ => .next Keeps.get.any fun _ => .next (lift_keeps _) fun _ => ?_)
      fun _ => .pure trivial
    exact .next (applyPut_elsewhere env doc) fun _ => .next (maybeFlush_elsewhere env) fun _ => .pure trivial
  | delete id =>
    refine .next (.next (checkWritable_keeps env _) fun _ => .next Keeps.get.any fun _ => .next (onWal_elsewhere _) fun _ => ?_)
      fun _ => .pure trivial
    exact .next (.modify fun _ h => h) fun _ => .next (maybeFlush_elsewhere env) fun _ => .pure trivial
  | writeBatch batch =>
    refine .next (.next (checkWritable_keeps env _) fun _ => .next (lift_keeps _) fun _ => ?_) fun _ => .pure trivial
    refine .ite (fun _ => .pure trivial) fun _ => .next Keeps.get.any fun _ => .next (lift_keeps _) fun _ => ?_
    refine .next (lift_keeps _) fun _ => .next (onWal_elsewhere _) fun _ => .next (.modify fun _ h => h) fun _ => ?_
    exact .next (lift_keeps _) fun _ => .next (.modify fun _ h => h) fun _ => .next (maybeFlush_elsewhere env) fun _ =>
      .pure trivial
  | flush =>
    exact .next (.ite (fun _ => .pure trivial) fun _ => doFlush_elsewhere env) fun _ => .pure trivial
  | compact options => exact .next (compact_elsewhere env options) fun _ => .pure trivial

end Collections

/-! ## Calls side by side -/

def Stage.running : Stage → Bool
  | .ended _ => false
  | _ => true

/-- Where a section leaves a call: the first error ends it. -/
def stageAfter : Except DbError Stage → Stage
  | .ok stage => stage
  | .error e => .ended (.error e)

/-- A call, how far it is, and when it made its first and its latest section. -/
structure Task where
  call : SectionCall
  stage : Stage
  began : Nat
  latest : Nat

/-- The calls that were made, over what they share, and how many sections they have made together. -/
structure World where
  shared : Shared
  tasks : List Task
  clock : Nat

/-- What can happen next: a call begins, or goes on; or a call on a collection, in one section. -/
inductive Event
  | begin (call : SectionCall)
  | next (i : Nat)
  | edit (handle : Nat) (e : Edit)

namespace World

/-- **One section**, under any reading of the clock and whatever the storage answers. -/
inductive Step (w : World) : Event → World → Prop
  | begin {env : Env} {call : SectionCall} {r : Except DbError Stage} {x : Shared} :
      (call.begin env w.shared).Outcome (r, x) →
      Step w (.begin call) ⟨x, w.tasks ++ [⟨call, stageAfter r, w.clock, w.clock⟩], w.clock + 1⟩
  | next {env : Env} {i : Nat} {task : Task} {r : Except DbError Stage} {x : Shared} : w.tasks[i]? = some task →
      task.stage.running = true → (task.call.next env task.stage w.shared).Outcome (r, x) →
      Step w (.next i) ⟨x, w.tasks.set i { task with stage := stageAfter r, latest := w.clock }, w.clock + 1⟩
  | edit {env : Env} {handle : Nat} {e : Edit} {s s' : Session} {r : Except DbError EditAnswer} :
      w.shared.session handle = some s → (e.act env s).Outcome (r, s') →
      Step w (.edit handle e) ⟨w.shared.take handle s', w.tasks, w.clock + 1⟩

/-- The collection that an event is about. -/
def subject (w : World) : Event → Option Str
  | .begin call => some call.name
  | .next i => w.tasks[i]?.map (fun task => task.call.name)
  | .edit handle _ => (w.shared.session handle).map Session.name

/-- The entry of a collection in the manifest that was committed last. -/
def entry (w : World) (name : Str) : Option CollectionEntry := w.shared.store.current.collection name

/-- **Nothing came in between**: a drop commits a manifest that has the entries that the committed one has by then, but for
    the one that it drops; and a creation that finds its name free is the only one of that name under way. -/
def Timely (w : World) : Event → Prop
  | .begin (.create spec) => w.shared.collectionExists spec.name = false → ∀ task ∈ w.tasks, ∀ spec', task.call = .create spec' →
      spec'.name = spec.name → task.stage.running = false
  | .next i => ∀ task name manifest, w.tasks[i]? = some task → task.call = .drop name → task.stage = .holds manifest →
      ∀ other, other ≠ name → manifest.collection other = w.entry other
  | _ => True

/-! ## One section -/

variable {w w' : World} {e : Event}

/-- What a section leaves of what is shared. -/
theorem begin_elsewhere (env : Env) (call : SectionCall) (name : Str) (m : Manifest) :
    Keeps (fun x : Shared => Elsewhere name m x.store) (call.begin env) (fun _ => True) := by
  cases call with
  | create spec =>
    refine .next (checkWritable_keeps env _) fun _ => .next (lift_keeps _) fun _ => .next Keeps.get.any fun x => ?_
    exact .ite (fun _ => .throw _) fun _ => .pure trivial
  | drop dropped =>
    refine .next (checkWritable_keeps env _) fun _ => .next Keeps.get.any fun x => ?_
    exact .ite (fun _ => .pure trivial) fun _ => .throw _

theorem commitShared_elsewhere (env : Env) {name : Str} {m next : Manifest}
    (h : ∀ other, other ≠ name → next.collection other = m.collection other) :
    Keeps (fun x : Shared => Elsewhere name m x.store) (commitShared env next) (fun _ => True) :=
  .zoom (commit_elsewhere h) (fun _ hx => hx) fun _ _ hstore _ => hstore

/-- **A section leaves the entries of the other collections alone**, unless it commits a manifest that does not have
    them. -/
theorem next_elsewhere (env : Env) {call : SectionCall} {stage : Stage} {m : Manifest}
    (hholds : ∀ name manifest, call = .drop name → stage = .holds manifest →
      ∀ other, other ≠ name → manifest.collection other = m.collection other) :
    Keeps (fun x : Shared => Elsewhere call.name m x.store) (call.next env stage) (fun _ => True) := by
  cases call with
  | create spec =>
    cases stage with
    | free =>
      exact .next (writeCatalog_keeps _) fun _ => .next (lift_keeps _) fun _ => .next (.call _) fun _ => .pure trivial
    | prepared catalog =>
      refine .next (.bind .get fun x hx => commitShared_elsewhere env fun other hne => ?_) fun _ => .pure trivial
      exact (entry_withEntry_ne hne).trans (hx other hne)
    | entered catalog => exact .next (collOpen_keeps env _ _).any fun _ => .pure trivial
    | opened coll => exact .next (.modify fun _ hx => hx) fun _ => .pure trivial
    | _ => exact .pure trivial
  | drop name =>
    cases stage with
    | found => exact .next Keeps.get.any fun _ => .pure trivial
    | holds manifest => exact .next (commitShared_elsewhere env (hholds name manifest rfl rfl)) fun _ => .pure trivial
    | unnamed => exact .next (.modify fun _ hx => hx) fun _ => .pure trivial
    | unregistered =>
      refine .next (lift_keeps _) fun dir => .next (.call _) fun found => ?_
      cases found with
      | none => exact .pure trivial
      | some len => exact .next (.call _) fun _ => .pure trivial
    | _ => exact .pure trivial

/-- **A section about one collection leaves the entries of the others.** -/
theorem Step.entry_ne (h : Step w e w') (htimely : w.Timely e) {name : Str} (hname : w.subject e ≠ some name) :
    w'.entry name = w.entry name := by
  cases h with
  | @begin env call r x hrun =>
    have hne : name ≠ call.name := fun heq => hname (congrArg some heq.symm)
    exact (begin_elsewhere env call call.name w.shared.store.current _ (fun _ _ => rfl) _ hrun).1 name hne
  | @next env i task r x htask hrunning hrun =>
    have hne : name ≠ task.call.name := by
      intro heq
      refine hname ?_
      show w.tasks[i]?.map (fun task => task.call.name) = some name
      rw [htask, heq]
      rfl
    refine (next_elsewhere env (m := w.shared.store.current) ?_ _ (fun _ _ => rfl) _ hrun).1 name hne
    exact fun dropped manifest hcall hstage => htimely task dropped manifest htask hcall hstage
  | @edit env handle e s s' r hs hrun =>
    have hne : name ≠ s.name := by
      intro heq
      refine hname ?_
      show (w.shared.session handle).map Session.name = some name
      rw [hs, heq]
      rfl
    obtain ⟨coll, -, rfl⟩ := Option.map_eq_some_iff.mp hs
    exact (Edit.act_elsewhere env e _ ⟨rfl, fun _ _ => rfl⟩ _ hrun).1.2 name hne

end World

/-! ## Creations -/

namespace Task

def Creates (name : Str) (task : Task) : Prop := ∃ spec, task.call = .create spec ∧ spec.name = name

/-- It has not ended in an error. -/
def Going (task : Task) : Prop := ∀ e, task.stage ≠ .ended (.error e)

/-- It had ended when the other one began. -/
def Before (task other : Task) : Prop := task.stage.running = false ∧ task.latest < other.began

end Task

namespace World

variable {w w' : World} {e : Event}

/-- **One creation of a name after the other.** -/
structure InTurn (w : World) : Prop where
  past : ∀ task ∈ w.tasks, task.latest < w.clock
  apart : ∀ (i j : Nat) (t u : Task) (name : Str), i ≠ j → w.tasks[i]? = some t → w.tasks[j]? = some u → t.Creates name →
    u.Creates name → t.Going → u.Going → t.Before u ∨ u.Before t

/-- A creation that goes on found its name free. -/
theorem free_of_begin {env : Env} {spec : Database.CollectionSpec} {x x' : Shared} {r : Except DbError Stage}
    (hrun : ((SectionCall.create spec).begin env x).Outcome (r, x')) (hgoing : ∀ e, stageAfter r ≠ .ended (.error e)) :
    x.collectionExists spec.name = false := by
  have hkeeps : Keeps (· = x) ((SectionCall.create spec).begin env) (fun _ => x.collectionExists spec.name = false) := by
    refine .next (checkWritable_keeps env _) fun _ => .next (lift_keeps _) fun _ => .bind .get fun x' hx => ?_
    subst hx
    exact .ite (fun _ => .throw _) fun hfree => .pure (Bool.eq_false_iff.mpr hfree)
  cases r with
  | ok stage => exact (hkeeps x rfl _ hrun).2 stage rfl
  | error e => exact absurd rfl (hgoing e)

theorem InTurn.begin (h : w.InTurn) {env : Env} {call : SectionCall} {r : Except DbError Stage} {x : Shared}
    (hrun : (call.begin env w.shared).Outcome (r, x)) (htimely : w.Timely (.begin call)) :
    InTurn ⟨x, w.tasks ++ [⟨call, stageAfter r, w.clock, w.clock⟩], w.clock + 1⟩ := by
  -- whatever went on before had ended by now
  have hnew : ∀ t ∈ w.tasks, ∀ name, t.Creates name → Task.Creates name ⟨call, stageAfter r, w.clock, w.clock⟩ →
      (∀ e, stageAfter r ≠ .ended (.error e)) → t.Before ⟨call, stageAfter r, w.clock, w.clock⟩ := by
    rintro t ht name ⟨spec', hcall', hname'⟩ ⟨spec, hcall, hname⟩ hgoing
    obtain rfl : call = .create spec := hcall
    exact ⟨htimely (free_of_begin hrun hgoing) t ht spec' hcall' (hname'.trans hname.symm), h.past t ht⟩
  constructor
  · intro t ht
    rcases List.mem_append.mp ht with ht | ht
    · exact Nat.lt_succ_of_lt (h.past t ht)
    · obtain rfl := List.mem_singleton.mp ht
      exact Nat.lt_succ_self _
  · intro i j t u name hne hi hj htc huc htg hug
    rw [List.getElem?_append] at hi hj
    split at hi
    · split at hj
      · exact h.apart i j t u name hne hi hj htc huc htg hug
      · obtain rfl := List.mem_singleton.mp (List.mem_of_getElem? hj)
        exact .inl (hnew t (List.mem_of_getElem? hi) name htc huc hug)
    · split at hj
      · obtain rfl := List.mem_singleton.mp (List.mem_of_getElem? hi)
        exact .inr (hnew u (List.mem_of_getElem? hj) name huc htc htg)
      · next hli hlj =>
        have hi0 := (List.getElem?_eq_some_iff.mp hi).1
        have hj0 := (List.getElem?_eq_some_iff.mp hj).1
        rw [List.length_singleton] at hi0 hj0
        omega

theorem InTurn.next (h : w.InTurn) {i : Nat} {task : Task} (htask : w.tasks[i]? = some task)
    (hrunning : task.stage.running = true) (x : Shared) (stage : Stage) :
    InTurn ⟨x, w.tasks.set i { task with stage := stage, latest := w.clock }, w.clock + 1⟩ := by
  have hgoing : task.Going := fun e he => by rw [he] at hrunning; cases hrunning
  -- the call that goes on began after the others had ended
  have hothers : ∀ j u name, i ≠ j → w.tasks[j]? = some u → task.Creates name → u.Creates name → u.Going →
      u.Before { task with stage := stage, latest := w.clock } := by
    intro j u name hne hj htc huc hug
    rcases h.apart i j task u name hne htask hj htc huc hgoing hug with hbefore | hbefore
    · exact absurd hbefore.1 (by rw [hrunning]; exact nofun)
    · exact hbefore
  constructor
  · intro t ht
    rcases List.mem_or_eq_of_mem_set ht with ht | rfl
    · exact Nat.lt_succ_of_lt (h.past t ht)
    · exact Nat.lt_succ_self _
  · intro j k t u name hne hj hk htc huc htg hug
    rw [List.getElem?_set] at hj hk
    split at hj
    · next hij =>
      subst hij
      rw [if_neg hne] at hk
      split at hj
      · obtain rfl := Option.some.inj hj
        exact .inr (hothers k u name hne hk htc huc hug)
      · exact nomatch hj
    · next hij =>
      split at hk
      · next hik =>
        split at hk
        · obtain rfl := Option.some.inj hk
          exact .inl (hothers j t name hij hj huc htc htg)
        · exact nomatch hk
      · exact h.apart j k t u name hne hj hk htc huc htg hug

theorem InTurn.step (h : w.InTurn) (hstep : Step w e w') (htimely : w.Timely e) : w'.InTurn := by
  cases hstep with
  | begin hrun => exact h.begin hrun htimely
  | next htask hrunning hrun => exact h.next htask hrunning _ _
  | edit hs hrun => exact ⟨fun t ht => Nat.lt_succ_of_lt (h.past t ht), h.apart⟩

/-! ## Runs -/

/-- A section that is timely. -/
def TimelyStep (w : World) (e : Event) (w' : World) : Prop := w.Step e w' ∧ w.Timely e

/-- One section of the kind that `R` allows. -/
def Next (R : World → Event → World → Prop) (w w' : World) : Prop := ∃ e, R w e w'

/-- A section about the collection that commits a manifest. -/
def Replaces (name : Str) (w : World) (e : Event) (w' : World) : Prop :=
  w.subject e = some name ∧ w'.shared.store ≠ w.shared.store

/-- **No update is lost**: whatever happens from here on, a collection's entry stays until a call about that collection
    commits another; and of two creations of a name that both succeeded, one had ended when the other began. -/
structure LosesNothing (R : World → Event → World → Prop) (w : World) : Prop where
  stays : ∀ name w', Relation.ReflTransGen (Next fun a e b => R a e b ∧ ¬ Replaces name a e b) w w' →
    w'.entry name = w.entry name
  creations : ∀ (i j : Nat) (t u : Task) (name : Str), i ≠ j → w.tasks[i]? = some t → w.tasks[j]? = some u →
    t.Creates name → u.Creates name → t.stage = .ended (.ok ()) → u.stage = .ended (.ok ()) →
    t.latest < u.began ∨ u.latest < t.began

theorem TimelyStep.entry_eq (h : TimelyStep w e w') {name : Str} (hkeeps : ¬ Replaces name w e w') :
    w'.entry name = w.entry name := by
  by_cases hname : w.subject e = some name
  · have hstore : w'.shared.store = w.shared.store := not_not.mp fun hne => hkeeps ⟨hname, hne⟩
    unfold entry
    rw [hstore]
  · exact h.1.entry_ne h.2 hname

/-- **No manifest update is lost** in any order of the sections of any number of calls, if each drop commits a manifest
    that nothing was committed behind, and no creation finds its name free while another of that name is under way. -/
theorem timely_loses_nothing {w₀ w : World} (hstart : w₀.tasks = [])
    (hrun : Relation.ReflTransGen (Next TimelyStep) w₀ w) : LosesNothing TimelyStep w := by
  have hturn : w.InTurn := by
    induction hrun with
    | refl =>
      constructor
      · intro task htask
        rw [hstart] at htask
        cases htask
      · intro i j t u name _ hi
        rw [hstart, List.getElem?_nil] at hi
        cases hi
    | tail _ hstep ih =>
      obtain ⟨e, hstep, htimely⟩ := hstep
      exact ih.step hstep htimely
  constructor
  · intro name w' hmore
    induction hmore with
    | refl => rfl
    | tail _ hstep ih =>
      obtain ⟨e, hstep, hkeeps⟩ := hstep
      exact (hstep.entry_eq hkeeps).trans ih
  · intro i j t u name hne hi hj htc huc ht hu
    have hgoing {task : Task} (h : task.stage = .ended (.ok ())) : task.Going := fun e he => by
      rw [h] at he
      exact nomatch Stage.ended.inj he
    exact (hturn.apart i j t u name hne hi hj htc huc (hgoing ht) (hgoing hu)).imp And.right And.right

/-! ## An update that is lost -/

section Example

def nameA : Str := ⟨[0x61], utf8_a⟩
def nameB : Str := ⟨[0x62], utf8_b⟩

def specB : Database.CollectionSpec := ⟨nameB, 1, .l2, .f32, .str 8, .flat⟩
def catalogB : Catalog := ⟨nameB, 1, .l2, .f32, .str 8, .flat, 0⟩

/-- A manifest that names some collections without segments. -/
def manifestOf (sequence : UInt64) (names : List Str) : Manifest :=
  ⟨sequence, (Manifest.new (newUuid 0 0) 0).dbUuid, 0, 0, names.map Database.emptyEntry⟩

/-- The collection `a`, without documents. -/
def collA : CollInner := ⟨⟨nameA, 1, .l2, .f32, .str 8, .flat, 0⟩,
  ⟨Memtable.new 1 .f32, [], ⟨⟨.walFile nameA 1, true⟩, .walFile nameA 1, 1, 1, 0, .full, false⟩, 1, 1⟩⟩

def sharedOf (sequence : UInt64) (names : List Str) (slot : Slot) : Shared :=
  ⟨⟨manifestOf sequence names, slot⟩, (∅ : AList (fun _ : Str => Nat)).insert nameA 0, [collA]⟩

/-- A commit that the storage carries out. -/
theorem commitShared_outcome {env : Env} {next : Manifest} {x : Shared}
    (h : (x.store.successor next env.nowMs).validate = .ok ()) :
    (commitShared env next x).Outcome (.ok (), x.withStore ⟨x.store.successor next env.nowMs, x.store.slot.other⟩) := by
  have hencode : formatAt (.manifest x.store.slot.other) (x.store.successor next env.nowMs).encode =
      .ok (encodeBlock .manifest (x.store.successor next env.nowMs).payload) := by
    unfold Manifest.encode
    rw [h]
    rfl
  have hcommit : (ManifestStore.commit next env.nowMs x.store).Outcome
      (.ok (), ⟨x.store.successor next env.nowMs, x.store.slot.other⟩) := by
    refine Proc.outcome_bind_of (m := Proc.get) rfl (Proc.outcome_bind_of (m := Proc.get) rfl ?_)
    refine Proc.outcome_bind_of (congrArg (fun r => (r, x.store)) hencode) ?_
    exact ⟨.ok ⟨.manifest x.store.slot.other, true⟩, .ok (), .ok (), .ok (), rfl⟩
  exact Prog.outcome_bind_of hcommit rfl


/-- The commit of `b` that the storage carries out. -/
theorem enter_outcome : ((SectionCall.create specB).next someEnv (.prepared catalogB) (sharedOf 1 [nameA] .a)).Outcome
    (.ok (.entered catalogB), sharedOf 2 [nameA, nameB] .b) := by
  refine Proc.outcome_bind_of (a := ()) (y := sharedOf 2 [nameA, nameB] .b) ?_ rfl
  exact Proc.outcome_bind_of (m := Proc.get) rfl (commitShared_outcome (by decide))

/-- Its directories and its specification, too. -/
theorem prepare_outcome (x : Shared) : ((SectionCall.create specB).next someEnv .free x).Outcome
    (.ok (.prepared catalogB), x) := by
  refine Proc.outcome_bind_of (a := ()) (y := x) ?_ ⟨.ok (), rfl⟩
  exact ⟨.ok (), .ok ⟨.catalog nameB, true⟩, .ok (), .ok (), .ok (), rfl⟩

/-- The drop's commit. -/
theorem undo_outcome : ((SectionCall.drop nameA).next someEnv (.holds (manifestOf 1 [])) (sharedOf 2 [nameA, nameB] .b)).Outcome
    (.ok .unnamed, sharedOf 3 [] .a) := by
  refine Proc.outcome_bind_of (a := ()) (y := sharedOf 3 [] .a) ?_ rfl
  exact commitShared_outcome (by decide)

/-- `a` is to be dropped: it is looked up, and the manifest is read; then `b` is created, up to its commit. -/
theorem entered_meanwhile : Relation.ReflTransGen (Next Step) ⟨sharedOf 1 [nameA] .a, [], 0⟩
    ⟨sharedOf 2 [nameA, nameB] .b,
      [⟨.drop nameA, .holds (manifestOf 1 []), 0, 1⟩, ⟨.create specB, .entered catalogB, 2, 4⟩], 5⟩ :=
  let w₁ : World := ⟨sharedOf 1 [nameA] .a, [⟨.drop nameA, .found, 0, 0⟩], 1⟩
  let w₂ : World := ⟨sharedOf 1 [nameA] .a, [⟨.drop nameA, .holds (manifestOf 1 []), 0, 1⟩], 2⟩
  let w₃ : World := ⟨sharedOf 1 [nameA] .a, [⟨.drop nameA, .holds (manifestOf 1 []), 0, 1⟩, ⟨.create specB, .free, 2, 2⟩], 3⟩
  let w₄ : World := ⟨sharedOf 1 [nameA] .a,
    [⟨.drop nameA, .holds (manifestOf 1 []), 0, 1⟩, ⟨.create specB, .prepared catalogB, 2, 3⟩], 4⟩
  have h₁ : Step ⟨sharedOf 1 [nameA] .a, [], 0⟩ (.begin (.drop nameA)) w₁ :=
    @Step.begin _ someEnv (.drop nameA) (.ok .found) (sharedOf 1 [nameA] .a) rfl
  have h₂ : Step w₁ (.next 0) w₂ :=
    @Step.next _ someEnv 0 ⟨.drop nameA, .found, 0, 0⟩ (.ok (.holds (manifestOf 1 []))) (sharedOf 1 [nameA] .a) rfl rfl rfl
  have h₃ : Step w₂ (.begin (.create specB)) w₃ :=
    @Step.begin _ someEnv (.create specB) (.ok .free) (sharedOf 1 [nameA] .a) rfl
  have h₄ : Step w₃ (.next 1) w₄ :=
    @Step.next _ someEnv 1 ⟨.create specB, .free, 2, 2⟩ (.ok (.prepared catalogB)) (sharedOf 1 [nameA] .a) rfl rfl
      (prepare_outcome _)
  .tail (.tail (.tail (.tail (.single ⟨_, h₁⟩) ⟨_, h₂⟩) ⟨_, h₃⟩) ⟨_, h₄⟩)
    ⟨_, @Step.next _ someEnv 1 ⟨.create specB, .prepared catalogB, 2, 3⟩ (.ok (.entered catalogB))
      (sharedOf 2 [nameA, nameB] .b) rfl rfl enter_outcome⟩

/-- **The drop of `a` takes `b` with it**: it commits the manifest that it read before `b` was entered. -/
theorem entered_is_lost : ¬ ∀ w₀ w : World, w₀.tasks = [] → Relation.ReflTransGen (Next Step) w₀ w → LosesNothing Step w := by
  intro h
  have hstep : Step ⟨sharedOf 2 [nameA, nameB] .b,
      [⟨.drop nameA, .holds (manifestOf 1 []), 0, 1⟩, ⟨.create specB, .entered catalogB, 2, 4⟩], 5⟩ (.next 0)
      ⟨sharedOf 3 [] .a, [⟨.drop nameA, .unnamed, 0, 5⟩, ⟨.create specB, .entered catalogB, 2, 4⟩], 6⟩ :=
    @Step.next _ someEnv 0 ⟨.drop nameA, .holds (manifestOf 1 []), 0, 1⟩ (.ok .unnamed) (sharedOf 3 [] .a) rfl rfl undo_outcome
  have hother : ¬ (some nameA = some nameB ∧ (sharedOf 3 [] .a).store ≠ (sharedOf 2 [nameA, nameB] .b).store) := by decide
  have hstays := (h _ _ rfl entered_meanwhile).stays nameB _ (.single ⟨.next 0, hstep, hother⟩)
  exact absurd hstays (by decide)

/-- The drop of `a` begins and, before it reads the manifest, `b` is created: it commits `b`'s entry with its own. -/
theorem dropped_around : LosesNothing TimelyStep ⟨sharedOf 3 [nameB] .a,
    [⟨.drop nameA, .unnamed, 0, 5⟩, ⟨.create specB, .entered catalogB, 1, 3⟩], 6⟩ := by
  let dropping : Task := ⟨.drop nameA, .found, 0, 0⟩
  let read : Task := ⟨.drop nameA, .holds (manifestOf 2 [nameB]), 0, 4⟩
  let entered : Task := ⟨.create specB, .entered catalogB, 1, 3⟩
  have h₁ : TimelyStep ⟨sharedOf 1 [nameA] .a, [], 0⟩ (.begin (.drop nameA)) ⟨sharedOf 1 [nameA] .a, [dropping], 1⟩ :=
    ⟨@Step.begin _ someEnv (.drop nameA) (.ok .found) (sharedOf 1 [nameA] .a) rfl, trivial⟩
  have h₂ : TimelyStep ⟨sharedOf 1 [nameA] .a, [dropping], 1⟩ (.begin (.create specB))
      ⟨sharedOf 1 [nameA] .a, [dropping, ⟨.create specB, .free, 1, 1⟩], 2⟩ := by
    refine ⟨@Step.begin _ someEnv (.create specB) (.ok .free) (sharedOf 1 [nameA] .a) rfl, fun _ task htask spec' hcall => ?_⟩
    cases List.mem_singleton.mp htask
    cases hcall
  have h₃ : TimelyStep ⟨sharedOf 1 [nameA] .a, [dropping, ⟨.create specB, .free, 1, 1⟩], 2⟩ (.next 1)
      ⟨sharedOf 1 [nameA] .a, [dropping, ⟨.create specB, .prepared catalogB, 1, 2⟩], 3⟩ := by
    refine ⟨@Step.next _ someEnv 1 ⟨.create specB, .free, 1, 1⟩ (.ok (.prepared catalogB)) (sharedOf 1 [nameA] .a) rfl rfl
      (prepare_outcome _), fun task name manifest htask hcall hstage => ?_⟩
    cases htask
    cases hcall
  have h₄ : TimelyStep ⟨sharedOf 1 [nameA] .a, [dropping, ⟨.create specB, .prepared catalogB, 1, 2⟩], 3⟩ (.next 1)
      ⟨sharedOf 2 [nameA, nameB] .b, [dropping, entered], 4⟩ := by
    refine ⟨@Step.next _ someEnv 1 ⟨.create specB, .prepared catalogB, 1, 2⟩ (.ok (.entered catalogB))
      (sharedOf 2 [nameA, nameB] .b) rfl rfl enter_outcome, fun task name manifest htask hcall hstage => ?_⟩
    cases htask
    cases hcall
  -- the manifest that the drop reads has `b` in it
  have h₅ : TimelyStep ⟨sharedOf 2 [nameA, nameB] .b, [dropping, entered], 4⟩ (.next 0)
      ⟨sharedOf 2 [nameA, nameB] .b, [read, entered], 5⟩ := by
    refine ⟨@Step.next _ someEnv 0 dropping (.ok (.holds (manifestOf 2 [nameB]))) (sharedOf 2 [nameA, nameB] .b)
      rfl rfl rfl, fun task name manifest htask hcall hstage => ?_⟩
    cases htask
    cases hstage
  have h₆ : TimelyStep ⟨sharedOf 2 [nameA, nameB] .b, [read, entered], 5⟩ (.next 0)
      ⟨sharedOf 3 [nameB] .a, [⟨.drop nameA, .unnamed, 0, 5⟩, entered], 6⟩ := by
    refine ⟨@Step.next _ someEnv 0 read (.ok .unnamed) (sharedOf 3 [nameB] .a) rfl rfl
      (Proc.outcome_bind_of (commitShared_outcome (by decide)) rfl), fun task name manifest htask hcall hstage => ?_⟩
    cases htask
    cases hcall
    cases hstage
    intro other hne
    exact entry_without_ne (m := manifestOf 2 [nameA, nameB]) hne
  exact timely_loses_nothing rfl
    (.tail (.tail (.tail (.tail (.tail (.single ⟨_, h₁⟩) ⟨_, h₂⟩) ⟨_, h₃⟩) ⟨_, h₄⟩) ⟨_, h₅⟩) ⟨_, h₆⟩)

end Example

end World

end IshaVectorDb.Engine
