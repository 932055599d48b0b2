import IshaVectorDb.Correctness.IndexCalls
import IshaVectorDb.Correctness.Refinement

/-!
# `Correctness.Crashes` — **lives of a database** whose processes die

A process may end at any call of an edit, of a search or of an open, with the power or without it, and the next one opens what
is left, dying perhaps in turn (`Life`). Whatever has happened, the next open that gets to its end succeeds, finds the documents of
all acknowledged operations, with each operation that was cut off applied or not, and leaves no segment file that the manifest does
not name (`Life.recovers_all`).
-/

namespace IshaVectorDb.Engine

open Format Interaction KeyLog Index

/-! ## What a process leaves -/

/-- The storage that the next process finds: as it is, or as a power loss leaves it. -/
def Sel.left : Sel → MemoryStorage → MemoryStorage
  | .live, s => s
  | .durable, s => s.simulatePowerLoss

section Left

variable {sel : Sel} {s : MemoryStorage}

theorem Sel.left_image (sel : Sel) (s : MemoryStorage) : (sel.left s).image .live = s.image sel := by
  cases sel with
  | live => rfl
  | durable => exact MemoryStorage.image_simulatePowerLoss s .live

/-- The next process cannot lose what it finds. -/
theorem Sel.left_twice (sel : Sel) (s : MemoryStorage) : (sel.left s).image sel = (sel.left s).image .live := by
  cases sel with
  | live => rfl
  | durable => exact (MemoryStorage.image_simulatePowerLoss s .durable).trans (MemoryStorage.image_simulatePowerLoss s .live).symm

theorem Sel.left_shape (sel : Sel) (h : Shape s) : Shape (sel.left s) := by
  cases sel with
  | live => exact h
  | durable => exact h.simulatePowerLoss

theorem Sel.left_dir (sel : Sel) (s : MemoryStorage) (path : DbPath) :
    (sel.left s).get path = some .dir ↔ s.get path = some .dir := by
  cases sel with
  | live => exact Iff.rfl
  | durable =>
    show s.simulatePowerLoss.get path = _ ↔ _
    rw [MemoryStorage.get_simulatePowerLoss, Option.map_eq_some_iff]
    constructor
    · rintro ⟨e, he, hrevert⟩
      cases e with
      | dir => exact he
      | file d => cases hrevert
    · intro hdir
      exact ⟨.dir, hdir, rfl⟩

/-- The logs' directories are those of these collections. -/
def Tidy (s : MemoryStorage) (M : Str → Option DocMap) : Prop :=
  ∀ name, s.get (.walDir name) = some .dir ↔ (M name).isSome = true

/-- **A storage that the next process can open**, and will find these documents in. -/
def Leaves (sel : Sel) (s : MemoryStorage) (M : Str → Option DocMap) : Prop :=
  ∃ store G, AtRest sel s store G G ∧ docsOf G = M ∧ Tidy s M

theorem docsOf_isSome (G : Str → Option Ghost) (name : Str) : (docsOf G name).isSome = (G name).isSome := Option.isSome_map

/-- What an image of the storage recovers is left to the next process. -/
theorem Recovers.leaves {M : Str → Option DocMap} (h : Recovers (s.image sel) M) (hs : Shape s) (htidy : Tidy s M) :
    Leaves sel (sel.left s) M := by
  obtain ⟨store, G, hdisk, hdocs⟩ := h
  have hM : docsOf G = M := funext hdocs
  have htidy' : Tidy (sel.left s) M := fun name => (sel.left_dir s _).trans (htidy name)
  rw [← Sel.left_image] at hdisk
  have hdirs : ∀ name, (G name).isSome = true → (sel.left s).get (.walDir name) = some .dir := fun name hsome => by
    rw [htidy', ← hM, docsOf_isSome]
    exact hsome
  obtain ⟨store', hrest⟩ := hdisk.atRest (sel.left_shape hs) hdirs (sel.left_twice s)
  exact ⟨store', G, hrest, hM, htidy'⟩

end Left

/-! ## Lives -/

/-- A process that runs, or what one has left. -/
inductive Phase
  | running (site : Site)
  | stopped (storage : MemoryStorage)

/-- **A life of a database**, and the documents that it may have come to: only an operation in which a process died leaves a
    choice. `opens` says how a database may be opened, `may` which edits are made, and `sel` whether the power goes with the
    process. A process that goes alone leaves no file half written, but for one that no other will read. -/
inductive Life (opens : Config → Prop) (may : Env → Session → Edit → Prop) (sel : Sel) (invNorm : InvNorm) :
    Phase → ((Str → Option DocMap) → Prop) → Prop
  | start (config : Config) (now counter : UInt64) {db : Database} {t : MemoryStorage} (hopens : opens config)
      (hrun : (Database.open ⟨config, now, invNorm⟩ counter ()).run device MemoryStorage.new = ((.ok db, ()), t)) :
      Life opens may sel invNorm (.running ⟨config, db, t⟩) (fun M => M = fun _ => none)
  | step {p p' : Site} {Ms : (Str → Option DocMap) → Prop} {M M' : Str → Option DocMap}
      (h : Life opens may sel invNorm (.running p) Ms) (hstep : Step opens may invNorm p M p' M') :
      Life opens may sel invNorm (.running p') (fun N' => ∃ N, Ms N ∧ Step opens may invNorm p N p' N')
  | exit {p : Site} {Ms : (Str → Option DocMap) → Prop} (h : Life opens may sel invNorm (.running p) Ms) :
      Life opens may sel invNorm (.stopped (sel.left p.storage)) Ms
  | died {p : Site} {Ms : (Str → Option DocMap) → Prop} (h : Life opens may sel invNorm (.running p) Ms) (now : UInt64)
      (name : Str) (e : Edit) {sess : Session} {i n : Nat} {c : Call} {t : MemoryStorage}
      (hsess : p.db.session name = some sess) (hmay : may ⟨p.config, now, invNorm⟩ sess e)
      (hdies : (Database.onCollection name (e.act ⟨p.config, now, invNorm⟩) p.db).dieAt device p.storage i n = some (c, t))
      (hwhole : sel = .live → ¬ e.Tears sess c n) :
      Life opens may sel invNorm (.stopped (sel.left t)) (fun M' => ∃ M, Ms M ∧
        (M' = M ∨ M' = Function.update M name ((M name).map (fun docs => replay docs e.writes))))
  | searched {p : Site} {Ms : (Str → Option DocMap) → Prop} (h : Life opens may sel invNorm (.running p) Ms) {name : Str}
      {sess : Session} (hsess : p.db.session name = some sess) (linking : Linking) (params : HnswParams) (scan : Scan Graph)
      (request : SearchRequest) (budget : Budget) (g : Graph) {mishaps rest : Mishaps DbError}
      {r : Except DbError (List Hit) × Searching Graph} {t : MemoryStorage}
      (hrun : (search (HnswIndex linking params scan) request budget ⟨g, sess⟩).run device.failing (p.storage, mishaps) =
        (r, (t, rest))) :
      Life opens may sel invNorm (.running ⟨p.config, p.db, t⟩) Ms
  | diedSearching {p : Site} {Ms : (Str → Option DocMap) → Prop} (h : Life opens may sel invNorm (.running p) Ms) {name : Str}
      {sess : Session} (hsess : p.db.session name = some sess) (linking : Linking) (params : HnswParams) (scan : Scan Graph)
      (request : SearchRequest) (budget : Budget) (g : Graph) {mishaps rest : Mishaps DbError} {i n : Nat} {c : Call}
      {t : MemoryStorage}
      (hdies : (search (HnswIndex linking params scan) request budget ⟨g, sess⟩).dieAt device.failing (p.storage, mishaps) i n =
        some (c, (t, rest))) :
      Life opens may sel invNorm (.stopped (sel.left t)) Ms
  | diedOpening {s : MemoryStorage} {Ms : (Str → Option DocMap) → Prop} (h : Life opens may sel invNorm (.stopped s) Ms)
      (config : Config) (now counter : UInt64) {i n : Nat} {c : Call} {t : MemoryStorage} (hopens : opens config)
      (hro : config.readOnly = false)
      (hdies : (Database.open ⟨config, now, invNorm⟩ counter ()).dieAt device s i n = some (c, t)) :
      Life opens may sel invNorm (.stopped (sel.left t)) Ms
  | opened {s : MemoryStorage} {Ms : (Str → Option DocMap) → Prop} (h : Life opens may sel invNorm (.stopped s) Ms)
      (config : Config) (now counter : UInt64) {db : Database} {t : MemoryStorage} (hopens : opens config)
      (hro : config.readOnly = false)
      (hrun : (Database.open ⟨config, now, invNorm⟩ counter ()).run device s = ((.ok db, ()), t)) :
      Life opens may sel invNorm (.running ⟨config, db, t⟩) Ms

/-! ## What each step keeps -/

section Keep

variable {opens : Config → Prop} {may : Env → Session → Edit → Prop} {sel : Sel} {invNorm : InvNorm}

/-- A step takes any documents along. -/
theorem Step.of_any {p p' : Site} {M M' : Str → Option DocMap} (h : Step opens may invNorm p M p' M')
    (N : Str → Option DocMap) : ∃ N', Step opens may invNorm p N p' N' := by
  cases h with
  | create now spec hroom hrun => exact ⟨_, .create now spec hroom hrun⟩
  | drop now name hroom hrun => exact ⟨_, .drop now name hroom hrun⟩
  | edit now name e hsess hmay hrun => exact ⟨_, .edit now name e hsess hmay hrun⟩
  | close now hmay hrun => exact ⟨_, .close now hmay hrun⟩
  | reopen config now counter hopens hro hrun => exact ⟨_, .reopen config now counter hopens hro hrun⟩

/-- A run that spares a log's directory. -/
theorem Spares.run {S α : Type} {name : Str} {m : Action S α} (h : Spares name m) {x x' : S} {s t : MemoryStorage}
    {r : Except DbError α} (hrun : (m x).run device s = ((r, x'), t)) : SameDir (.walDir name) s t := by
  have hkeeps := (h x).run (D := device) (P := SameDir (.walDir name) s) (fun c u hc hu => (hc.step u).trans hu) Iff.rfl
  rw [hrun] at hkeeps
  exact hkeeps

/-- A death that spares it. -/
theorem Spares.dieAt {S α : Type} {name : Str} {m : Action S α} (h : Spares name m) {x : S} {s t : MemoryStorage} {i n : Nat}
    {c : Call} (hdies : (m x).dieAt device s i n = some (c, t)) : SameDir (.walDir name) s t := by
  have hkeeps := (h x).deaths (D := device) (P := SameDir (.walDir name) s) (fun c u hc hu => (hc.step u).trans hu)
    (fun c n u hc hu => (hc.cut n u).trans hu) Iff.rfl
  exact (Prog.deaths_iff _ _).mp hkeeps i n c t hdies

/-- **A drop that succeeded has removed the log's directory.** -/
theorem dropCollection_removes {env : Env} {db : Database} {s : MemoryStorage} (name : Str) :
    Ends device (Database.dropCollection env name) db s (fun r _ t => r = .ok () → t.get (.walDir name) = some .dir →
      t.get (.collectionDir name) ≠ some .dir) := by
  have hany : ∀ {α : Type} (m : Action Database α) x u, Ends device m x u (fun _ _ _ => True) := fun m x u => trivial
  refine (hany (checkWritable env "drop a collection") db s).seq (fun _ db1 s1 _ => Ends.get_bind ?_) (fun e _ _ _ h => by cases h)
  by_cases hnone : (db1.collections.lookup name).isNone = true
  · rw [if_pos hnone]
    exact Ends.throw (fun h => by cases h)
  · rw [if_neg hnone]
    refine (hany _ _ _).seq (fun _ db2 s2 _ => Ends.modify_bind (Ends.lift_bind (fun dir hdir => ?_) (fun e _ h => by cases h)))
      (fun e _ _ _ h => by cases h)
    obtain rfl : dir = .collectionDir name := layout_ok hdir
    refine Ends.seq (Ends.call (step_metadata _ s2) (Q := fun r x' t => r = .ok (s2.metadata (.collectionDir name)) ∧ t = s2)
      ⟨rfl, rfl⟩) (fun found db3 t3 hr => ?_) (fun e _ _ _ h => by cases h)
    obtain ⟨hfound, rfl⟩ := hr
    obtain rfl := Except.ok.inj hfound
    unfold MemoryStorage.metadata
    cases hget : t3.get (.collectionDir name) with
    | none => exact Ends.pure (fun _ _ h => by rw [hget] at h; cases h)
    | some entry =>
      have hstep : device.step (.removeDirAll (.collectionDir name)) t3 = t3.removeDirAll (.collectionDir name) := rfl
      unfold MemoryStorage.removeDirAll at hstep
      rw [hget] at hstep
      cases entry with
      | file d => exact Ends.call hstep (fun h => by cases h)
      | dir =>
        refine Ends.call hstep (fun _ hwal => ?_)
        rw [get_gone (by simp [BelowDir, DbPath.ancestry]) (fun heq => by cases heq)] at hwal
        cases hwal

/-- **A step keeps the directories to the collections.** -/
theorem Step.tidy {p p' : Site} {M M' : Str → Option DocMap} (h : Step opens may invNorm p M p' M') (htidy : Tidy p.storage M)
    (hafter : ∃ G, p'.Stands sel invNorm G ∧ docsOf G = M') : Tidy p'.storage M' := by
  obtain ⟨G, hst, hM⟩ := hafter
  have hsame : (∀ name, SameDir (.walDir name) p.storage p'.storage) → (∀ name, (M' name).isSome = (M name).isSome) →
      Tidy p'.storage M' := fun hdirs hnames name => (hdirs name).trans (by rw [hnames]; exact htidy name)
  cases h with
  | create now spec hroom hrun =>
    intro name
    by_cases hname : name = spec.name
    · have hthere : (G spec.name).isSome = true := by rw [← docsOf_isSome, hM, Function.update_self]; rfl
      rw [hname, Function.update_self]
      exact ⟨fun _ => rfl, fun _ => (hst.state now).dirs hthere⟩
    · rw [Function.update_of_ne hname]
      exact ((createCollection_spares _ hname).run hrun).trans (htidy name)
  | drop now dropped hroom hrun =>
    intro name
    by_cases hname : name = dropped
    · rw [hname, Function.update_self]
      refine ⟨fun hdir => ?_, fun h => by cases h⟩
      exact absurd ((hst.state now).shape.nested _ _ hdir) ((dropCollection_removes dropped).of_run hrun rfl hdir)
    · rw [Function.update_of_ne hname]
      exact ((dropCollection_spares _ hname).run hrun).trans (htidy name)
  | edit now name e hsess hmay hrun =>
    refine hsame (fun other => (onCollection_spares name (Edit.spares _ e)).run hrun) (fun other => ?_)
    by_cases hn : other = name
    · rw [hn, Function.update_self, Option.isSome_map]
    · rw [Function.update_of_ne hn]
  | close now hmay hrun => exact hsame (fun name => (close_spares _).run hrun) (fun _ => rfl)
  | reopen config now counter hc hro hrun => exact hsame (fun name => (open_spares _ counter).run hrun) (fun _ => rfl)

/-- Only a configuration that passes its checks opens a database. -/
theorem open_validates {config : Config} {now counter : UInt64} {s t : MemoryStorage} {db : Database}
    (hrun : (Database.open ⟨config, now, invNorm⟩ counter ()).run device s = ((.ok db, ()), t)) : config.validate = .ok () := by
  cases hvalid : config.validate with
  | ok u => rfl
  | error e =>
    unfold Database.open at hrun
    rw [hvalid] at hrun
    cases hrun

/-- **What a database has**: these collections and no others, each of which reads as its documents. -/
structure Database.Has (db : Database) (M : Str → Option DocMap) : Prop where
  none_else : ∀ name, M name = none → db.session name = none
  all : ∀ name docs, M name = some docs → ∃ sess, db.session name = some sess ∧ sess.Refines docs

theorem DbState.has {env : Env} {db : Database} {G D : Str → Option Ghost} (h : DbState env sel db s G D) : db.Has (docsOf G) := by
  refine ⟨fun name hnone => ?_, fun name docs hdocs => ?_⟩
  · have hgone := h.all name
    rw [← docsOf_isSome, hnone] at hgone
    have hlook : db.collections.lookup name = none := Option.isNone_iff_eq_none.mp (Option.isSome_eq_false_iff.mp hgone.symm)
    unfold Database.session
    rw [hlook]
    rfl
  · obtain ⟨g, hg, rfl⟩ := Option.map_eq_some_iff.mp hdocs
    obtain ⟨coll, ops, docs, hlook, rfl, hstate⟩ := h.collection hg
    refine ⟨⟨db.store, coll⟩, ?_, hstate.live.mem.refines⟩
    unfold Database.session
    rw [hlook]
    rfl

/-- **What a database answers**: it has the collections that it should have, and they refine their documents. -/
theorem Site.Stands.answers {p : Site} {G : Str → Option Ghost} (h : p.Stands sel invNorm G) :
    (∀ name, docsOf G name = none → p.db.session name = none) ∧
      ∀ name docs, docsOf G name = some docs → ∃ sess, p.db.session name = some sess ∧ sess.Refines docs :=
  ⟨(h.state 0).has.none_else, (h.state 0).has.all⟩

/-- **An open** of what a process left. -/
theorem Leaves.open_ok {s : MemoryStorage} {M : Str → Option DocMap} (h : Leaves sel s M) {config : Config}
    (hvalid : config.validate = .ok ()) (hro : config.readOnly = false) (hsync : sel = .live ∨ config.durability = .full)
    (now counter : UInt64) :
    ∃ db t G, (Database.open ⟨config, now, invNorm⟩ counter ()).run device s = ((.ok db, ()), t) ∧
      (Site.mk config db t).Stands sel invNorm G ∧ docsOf G = M ∧ Tidy t M ∧ NoOrphans db.store t := by
  obtain ⟨store, G, hrest, hM, htidy⟩ := h
  have hspec : Spec sel (Database.open ⟨config, now, invNorm⟩ counter) () s _ _ _ := Database.open_spec hrest hvalid hro
  obtain ⟨db, u, t, hrun, -, hstore, ⟨G', D', hstate, hG, hD⟩, hclean, hsteady, -⟩ := hspec.runs
  obtain rfl := hstate.same hG hD
  have hM' : docsOf D' = M := hG.docsOf.trans hM
  have htidy' : Tidy t M := fun name => ((open_spares _ counter).run hrun).trans (htidy name)
  refine ⟨db, t, D', hrun, ⟨fun now' => hstate.anytime now', by rw [hstore]; exact hsteady, hro, hsync, fun name hnone => ?_⟩, hM',
    htidy', by rw [hstore]; exact hclean⟩
  -- where no log has a directory, there is no log
  refine MemoryStorage.image_none (Option.not_isSome_iff_eq_none.mp (fun hsome => ?_)) .live
  obtain ⟨entry, hentry⟩ := Option.isSome_iff_exists.mp hsome
  have hdir := (htidy' name).mp (hstate.shape.nested _ _ hentry)
  rw [← hM', docsOf_isSome, hnone] at hdir
  cases hdir

/-- **A death inside an open** changes nothing that shows. -/
theorem Leaves.diedOpening {s : MemoryStorage} {M : Str → Option DocMap} (h : Leaves sel s M) {config : Config} {now counter : UInt64}
    (hro : config.readOnly = false) {i n : Nat} {c : Call} {t : MemoryStorage}
    (hdies : (Database.open ⟨config, now, invNorm⟩ counter ()).dieAt device s i n = some (c, t)) :
    Leaves sel (sel.left t) M := by
  obtain ⟨store, G, hrest, hM, htidy⟩ := h
  cases hvalid : config.validate with
  | error e =>
    -- a configuration that is refused makes no call
    unfold Database.open at hdies
    rw [hvalid] at hdies
    cases hdies
  | ok u =>
    have hspec : Spec sel (Database.open ⟨config, now, invNorm⟩ counter) () s _ _ _ := Database.open_spec hrest hvalid hro
    obtain ⟨hshape, hdocs⟩ := (Prog.deaths_iff _ _).mp hspec.deaths i n c t hdies
    rw [← hM] at htidy ⊢
    exact Recovers.leaves hdocs hshape (fun name => ((open_spares _ counter).dieAt hdies).trans (htidy name))

/-- **A death inside an edit** leaves the documents before it or those after it. -/
theorem Site.Stands.died {p : Site} {G : Str → Option Ghost} (h : p.Stands sel invNorm G) (htidy : Tidy p.storage (docsOf G))
    {now : UInt64} {name : Str} {e : Edit} {sess : Session} (hsess : p.db.session name = some sess)
    (hfits : e.Fits ⟨p.config, now, invNorm⟩ sess) {i n : Nat} {c : Call} {t : MemoryStorage}
    (hdies : (Database.onCollection name (e.act ⟨p.config, now, invNorm⟩) p.db).dieAt device p.storage i n = some (c, t))
    (hwhole : sel = .live → ¬ e.Tears sess c n) :
    ∃ M', (M' = docsOf G ∨ M' = Function.update (docsOf G) name ((docsOf G name).map (fun docs => replay docs e.writes))) ∧
      Leaves sel (sel.left t) M' := by
  obtain ⟨g, rfl, hst⟩ := h.session hsess now
  have hdirs : ∀ other, SameDir (.walDir other) p.storage t := fun other =>
    (onCollection_spares g.name (Edit.spares _ e)).dieAt hdies
  have hsome : (docsOf G g.name) = some g.docs := by
    unfold docsOf
    rw [hst.live.here]; rfl
  cases Edit.goes hst h.writable h.synced hfits with
  | refused err sess' hrun hafter hanswers =>
    -- a refused edit makes no call
    obtain ⟨coll, hlook, rfl⟩ := Option.map_eq_some_iff.mp hsess
    have hpure : Database.onCollection g.name (e.act ⟨p.config, now, invNorm⟩) p.db = .pure (.error err, p.db.take g.name sess') := by
      unfold Database.onCollection
      rw [Proc.get_bind, hlook]
      show (e.act ⟨p.config, now, invNorm⟩ ⟨p.db.store, coll⟩).bind _ = _
      rw [hrun]
      rfl
    rw [hpure] at hdies
    cases hdies
  | done hspec =>
    have hlifted : Spec sel (Database.onCollection g.name (e.act ⟨p.config, now, invNorm⟩)) p.db p.storage (fun _ _ _ => True)
        (e.Dies sel sess G g) (fun _ _ _ => True) :=
      onCollection_spec hsess (hspec.mono (fun _ _ _ _ => trivial) (fun _ _ _ hd => hd) (fun _ _ _ hf => hf))
    obtain ⟨hshape, hdead⟩ := (Prog.deaths_iff _ _).mp hlifted.deaths i n c t hdies
    rcases hdead hwhole with hold | hnew
    · exact ⟨_, .inl rfl, hold.leaves hshape (fun other => (hdirs other).trans (htidy other))⟩
    · refine ⟨_, .inr (by rw [hsome]; rfl), hnew.leaves hshape (fun other => (hdirs other).trans ?_)⟩
      rw [htidy]
      by_cases hn : other = g.name
      · rw [hn, Function.update_self, hsome]
        rfl
      · rw [Function.update_of_ne hn]

/-! ## Over a life -/

/-- A run in which no process dies is a life. -/
theorem Run.life {p : Site} {M : Str → Option DocMap} (h : Run opens may invNorm p M) (sel : Sel) :
    ∃ Ms, Life opens may sel invNorm (.running p) Ms := by
  induction h with
  | start config now counter hc hrun => exact ⟨_, .start config now counter hc hrun⟩
  | step _ hstep ih =>
    obtain ⟨Ms, hlife⟩ := ih
    exact ⟨_, .step hlife hstep⟩

/-- What holds of a phase whose documents are these. -/
def Phase.Holds (sel : Sel) (invNorm : InvNorm) (M : Str → Option DocMap) : Phase → Prop
  | .running p => (∃ G, p.Stands sel invNorm G ∧ docsOf G = M) ∧ Tidy p.storage M
  | .stopped s => Leaves sel s M

/-- **In every life** the documents are among those that it may have come to. -/
theorem Life.holds {x : Phase} {Ms : (Str → Option DocMap) → Prop} (h : Life opens Edit.Fits sel invNorm x Ms)
    (hopens : ∀ c, opens c → sel = .live ∨ c.durability = .full) : ∃ M, Ms M ∧ x.Holds sel invNorm M := by
  induction h with
  | @start config now counter db t hc hrun =>
    refine ⟨_, rfl, ⟨_, .new (hopens _ hc) hrun, rfl⟩, fun name => ((open_spares _ counter).run hrun).trans ?_⟩
    exact ⟨fun h => (by cases h), fun h => (by cases h)⟩
  | step _ hstep ih =>
    obtain ⟨M, hM, hst, htidy⟩ := ih
    obtain ⟨M', hstep'⟩ := hstep.of_any M
    have hafter := hstep'.stands hopens (fun _ _ _ hf => hf) hst
    exact ⟨M', ⟨M, hM, hstep'⟩, hafter, hstep'.tidy htidy hafter⟩
  | exit _ ih =>
    obtain ⟨M, hM, ⟨G, hst, rfl⟩, htidy⟩ := ih
    exact ⟨_, hM, (hst.state 0).seen.recovers.leaves (hst.state 0).shape htidy⟩
  | died _ now name e hsess hfits hdies hwhole ih =>
    obtain ⟨M, hM, ⟨G, hst, rfl⟩, htidy⟩ := ih
    obtain ⟨M', hM', hleaves⟩ := hst.died htidy hsess hfits hdies hwhole
    exact ⟨M', ⟨_, hM, hM'⟩, hleaves⟩
  | @searched p _ _ name sess hsess linking params scan request budget g mishaps rest r t hrun ih =>
    obtain ⟨M, hM, ⟨G, hst, hdocs⟩, htidy⟩ := ih
    have hbeside := ((search_stays linking params scan request budget g sess).run (s := (p.storage, mishaps))
      (Beside.refl sess.name (hst.state 0).shape)).2
    rw [hrun] at hbeside
    exact ⟨M, hM, ⟨G, hst.beside hbeside, hdocs⟩, fun other => (hbeside.logs other).trans (htidy other)⟩
  | @diedSearching p _ _ name sess hsess linking params scan request budget g mishaps rest i n c t hdies ih =>
    obtain ⟨M, hM, ⟨G, hst, rfl⟩, htidy⟩ := ih
    have hbeside : Beside sess.name p.storage t :=
      (search_stays linking params scan request budget g sess).dieAt (s := (p.storage, mishaps))
        (Beside.refl sess.name (hst.state 0).shape) hdies
    have hafter := (hst.beside hbeside).state 0
    exact ⟨_, hM, hafter.seen.recovers.leaves hafter.shape (fun other => (hbeside.logs other).trans (htidy other))⟩
  | diedOpening _ config now counter hc hro hdies ih =>
    obtain ⟨M, hM, hleaves⟩ := ih
    exact ⟨M, hM, Leaves.diedOpening hleaves hro hdies⟩
  | opened _ config now counter hc hro hrun ih =>
    obtain ⟨M, hM, hleaves⟩ := ih
    have hvalid : config.validate = .ok () := open_validates hrun
    obtain ⟨db, t, G, hrun', hst, hdocs, htidy, -⟩ := Leaves.open_ok hleaves hvalid hro (hopens _ hc) _ _
    rw [hrun] at hrun'
    obtain ⟨⟨rfl, -⟩, rfl⟩ := hrun'
    exact ⟨M, hM, ⟨G, hst, hdocs⟩, htidy⟩

/-- **Whatever has happened, the next open succeeds** and finds the documents of all that was acknowledged, with each operation
    that was cut off applied or not. No segment file is left that the manifest does not name. -/
theorem Life.recovers_all {s : MemoryStorage} {Ms : (Str → Option DocMap) → Prop}
    (h : Life opens Edit.Fits sel invNorm (.stopped s) Ms) (hopens : ∀ c, opens c → sel = .live ∨ c.durability = .full)
    {config : Config} (hc : opens config) (hvalid : config.validate = .ok ()) (hro : config.readOnly = false) (now counter : UInt64) :
    ∃ M db t, Ms M ∧ (Database.open ⟨config, now, invNorm⟩ counter ()).run device s = ((.ok db, ()), t) ∧
      (∀ name, M name = none → db.session name = none) ∧
      (∀ name docs, M name = some docs → ∃ sess, db.session name = some sess ∧ sess.Refines docs) ∧ NoOrphans db.store t := by
  obtain ⟨M, hM, hleaves⟩ := h.holds hopens
  obtain ⟨db, t, G, hrun, hst, rfl, -, hclean⟩ := Leaves.open_ok hleaves hvalid hro (hopens _ hc) now counter
  exact ⟨_, db, t, hM, hrun, hst.answers.1, hst.answers.2, hclean⟩

end Keep

/-- The power goes while a document's frame is appended to the log, three bytes of it being written; the next open succeeds. -/
theorem recovers_cut_append : ∃ c s db t,
    (Database.onCollection theSpec.name ((Edit.upsert (fill 0)).act fullEnv) madeSite.db).dieAt device madeSite.storage 0 3 =
      some (c, s) ∧
    (Database.open fullEnv 0 ()).run device (Sel.durable.left s) = ((.ok db, ()), t) ∧ NoOrphans db.store t := by
  obtain ⟨g, hfilled, -⟩ := madeSite_filled
  obtain ⟨sess, a, db', t', g', hsess, hsmall, hrows, -⟩ := hfilled.step (by decide)
  have hsome : ((Database.onCollection theSpec.name ((Edit.upsert (fill 0)).act fullEnv) madeSite.db).dieAt device
      madeSite.storage 0 3).isSome = true := by decide +kernel
  obtain ⟨⟨c, s⟩, hdies⟩ := Option.isSome_iff_exists.mp hsome
  obtain ⟨Ms, hmade⟩ := (madeSite_run (fun config => config.durability = .full) Edit.Fits rfl).life .durable
  have hcut := Life.died hmade 0 theSpec.name (.upsert (fill 0)) hsess
    ⟨fill_wellFormed 0, hrows, fun hover => absurd hover hsmall⟩ hdies (fun h => by cases h)
  obtain ⟨M, db, t, -, hrun, -, -, hclean⟩ := Life.recovers_all hcut (fun _ hfull => .inr hfull) (show fullConfig.durability = .full from rfl)
    rfl rfl 0 0
  exact ⟨c, s, db, t, hdies, hrun, hclean⟩

end IshaVectorDb.Engine
