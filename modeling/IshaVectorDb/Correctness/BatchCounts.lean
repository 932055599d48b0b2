import IshaVectorDb.Correctness.Refinement
import IshaVectorDb.Correctness.WritePaths

/-!
# `Correctness.BatchCounts` — what a batch **reports**, against its operations one at a time

A batch counts each of its operations against the documents before the batch; made one at a time, each would be counted
against what those before it left. `Run.batchCounts_iff` says for which batches that comes to the same.
-/

namespace IshaVectorDb.Engine

open Format Interaction KeyLog

/-! ## One operation at a time -/

/-- The edit that does alone what the operation does in a batch. -/
def BatchOp.edit (cat : Catalog) : BatchOp → Edit
  | .upsert id vector metadata content => .upsert ⟨id, .raw .f32 vector cat.dimension, metadata, content⟩
  | .delete id => .delete id

/-- Count what an edit answered; one that was refused is not counted. -/
def BatchReport.countAnswer (r : BatchReport) : Except DbError EditAnswer → BatchReport
  | .ok (.upserted .inserted) => { r with inserted := r.inserted + 1 }
  | .ok (.upserted .updated) => { r with updated := r.updated + 1 }
  | .ok (.deleted true) => { r with deleted := r.deleted + 1 }
  | .ok (.deleted false) => { r with missingDeletes := r.missingDeletes + 1 }
  | _ => r

/-- **The operations one at a time**, with `upsert` and `delete`, and the count of their answers. -/
inductive OneByOne (invNorm : InvNorm) (name : Str) : Site → List BatchOp → BatchReport → BatchReport → Prop
  | nil (p : Site) (r : BatchReport) : OneByOne invNorm name p [] r r
  | cons {p : Site} {op : BatchOp} {ops : List BatchOp} {r r' : BatchReport} (now : UInt64) {sess : Session}
      {answer : Except DbError EditAnswer} {db' : Database} {t : MemoryStorage} (hsess : p.db.session name = some sess)
      (hfits : (op.edit sess.catalog).Fits ⟨p.config, now, invNorm⟩ sess)
      (hrun : (Database.onCollection name ((op.edit sess.catalog).act ⟨p.config, now, invNorm⟩) p.db).run device p.storage =
        ((answer, db'), t))
      (hrest : OneByOne invNorm name ⟨p.config, db', t⟩ ops (r.countAnswer answer) r') : OneByOne invNorm name p (op :: ops) r r'

/-! ## Counting on a map -/

def BatchOp.isUpsert : BatchOp → Bool
  | .upsert _ _ _ _ => true
  | .delete _ => false

/-- Each operation counted against what those before it left. -/
def BatchReport.countEach : DocMap → BatchReport → List BatchOp → BatchReport
  | _, r, [] => r
  | docs, r, op :: ops => countEach (op.logged.apply docs) (r.countIn docs op) ops

/-- The operations, each with the writes of those before it. -/
def withEarlier : List LogOp → List BatchOp → List (List LogOp × BatchOp)
  | _, [] => []
  | done, op :: ops => (done, op) :: withEarlier (done ++ [op.logged]) ops

/-- The operation finds a document that an earlier one has put, and that was not there before the batch. -/
def FindsNew (docs : DocMap) (x : List LogOp × BatchOp) : Bool := !(docs x.2.id).isSome && (replay docs x.1 x.2.id).isSome

/-- The operation misses a document that an earlier one has deleted, and that was there before the batch. -/
def MissesOld (docs : DocMap) (x : List LogOp × BatchOp) : Bool := (docs x.2.id).isSome && !(replay docs x.1 x.2.id).isSome

/-- How many of the upserts, or of the deletions, find or miss a document so. -/
def strays (docs : DocMap) (found : DocMap → List LogOp × BatchOp → Bool) (upserts : Bool) (done : List LogOp)
    (ops : List BatchOp) : Nat := (withEarlier done ops).countP (fun x => x.2.isUpsert == upserts && found docs x)

section Counting

variable {docs : DocMap} {done : List LogOp} {op : BatchOp} {ops : List BatchOp} {r r' : BatchReport}

theorem countEach_cons (docs : DocMap) (r : BatchReport) (op : BatchOp) (ops : List BatchOp) :
    r.countEach docs (op :: ops) = (r.countIn docs op).countEach (op.logged.apply docs) ops := rfl

/-- What counting one operation adds. -/
theorem countIn_eq (docs : DocMap) (r : BatchReport) (op : BatchOp) : r.countIn docs op =
    ⟨r.inserted + (op.isUpsert && !(docs op.id).isSome).toNat, r.updated + (op.isUpsert && (docs op.id).isSome).toNat,
      r.deleted + (!op.isUpsert && (docs op.id).isSome).toNat,
      r.missingDeletes + (!op.isUpsert && !(docs op.id).isSome).toNat⟩ := by
  unfold BatchReport.countIn
  cases op <;> cases (docs _).isSome <;> rfl

theorem strays_cons (found : DocMap → List LogOp × BatchOp → Bool) (upserts : Bool) :
    strays docs found upserts done (op :: ops) =
      strays docs found upserts (done ++ [op.logged]) ops + (op.isUpsert == upserts && found docs (done, op)).toNat := by
  refine List.countP_cons.trans (congrArg _ ?_)
  cases op.isUpsert == upserts && found docs (done, op) <;> rfl

/-- **Where the two counts differ**: by the operations that find what was not there, and those that miss what was. -/
theorem counts_differ (docs : DocMap) (done : List LogOp) (ops : List BatchOp) (r r' : BatchReport) :
    (ops.foldl (BatchReport.countIn docs) r).inserted + r'.inserted + strays docs MissesOld true done ops =
        (r'.countEach (replay docs done) ops).inserted + r.inserted + strays docs FindsNew true done ops ∧
      (ops.foldl (BatchReport.countIn docs) r).updated + r'.updated + strays docs FindsNew true done ops =
        (r'.countEach (replay docs done) ops).updated + r.updated + strays docs MissesOld true done ops ∧
      (ops.foldl (BatchReport.countIn docs) r).deleted + r'.deleted + strays docs FindsNew false done ops =
        (r'.countEach (replay docs done) ops).deleted + r.deleted + strays docs MissesOld false done ops ∧
      (ops.foldl (BatchReport.countIn docs) r).missingDeletes + r'.missingDeletes + strays docs MissesOld false done ops =
        (r'.countEach (replay docs done) ops).missingDeletes + r.missingDeletes + strays docs FindsNew false done ops := by
  induction ops generalizing done r r' with
  | nil =>
    simp only [List.foldl_nil, BatchReport.countEach, strays, withEarlier, List.countP_nil]
    omega
  | cons op ops ih =>
    have h := ih (done ++ [op.logged]) (r.countIn docs op) (r'.countIn (replay docs done) op)
    rw [replay_concat] at h
    simp only [strays_cons, List.foldl_cons, BatchReport.countEach, FindsNew, MissesOld]
    rw [countIn_eq, countIn_eq] at h ⊢
    generalize List.foldl (BatchReport.countIn docs) _ ops = code at h ⊢
    generalize BatchReport.countEach _ _ ops = each at h ⊢
    -- what the operation adds to one side, it adds to the other, or else it strays
    generalize (docs op.id).isSome = before at h ⊢
    generalize (replay docs done op.id).isSome = now at h ⊢
    generalize op.isUpsert = upserts at h ⊢
    cases before <;> cases now <;> cases upserts <;> simp at h ⊢ <;> omega

theorem fold_total (docs : DocMap) (ops : List BatchOp) (r : BatchReport) :
    (ops.foldl (BatchReport.countIn docs) r).inserted + (ops.foldl (BatchReport.countIn docs) r).updated =
      r.inserted + r.updated + ops.countP BatchOp.isUpsert := by
  induction ops generalizing r with
  | nil => rfl
  | cons op ops ih =>
    rw [List.foldl_cons, ih, List.countP_cons, countIn_eq]
    cases op.isUpsert <;> cases (docs op.id).isSome <;> simp <;> omega

theorem countEach_total (docs : DocMap) (ops : List BatchOp) (r : BatchReport) :
    (r.countEach docs ops).inserted + (r.countEach docs ops).updated = r.inserted + r.updated + ops.countP BatchOp.isUpsert := by
  induction ops generalizing r docs with
  | nil => rfl
  | cons op ops ih =>
    unfold BatchReport.countEach
    rw [ih, List.countP_cons, countIn_eq]
    cases op.isUpsert <;> cases (docs op.id).isSome <;> simp <;> omega

/-- **The two counts are the same** when as many operations find what was not there as miss what was, among the upserts and among
    the deletions. -/
theorem counts_iff (docs : DocMap) (ops : List BatchOp) :
    ops.foldl (BatchReport.countIn docs) BatchReport.zero = BatchReport.zero.countEach docs ops ↔
      ∀ upserts, strays docs FindsNew upserts [] ops = strays docs MissesOld upserts [] ops := by
  obtain ⟨h1, h2, h3, h4⟩ := counts_differ docs [] ops BatchReport.zero BatchReport.zero
  rw [replay_nil] at h1 h2 h3 h4
  constructor
  · intro heq upserts
    rw [heq] at h1 h3
    cases upserts <;> omega
  · intro hstrays
    have htrue := hstrays true
    have hfalse := hstrays false
    generalize ops.foldl (BatchReport.countIn docs) BatchReport.zero = code at h1 h2 h3 h4 ⊢
    generalize BatchReport.zero.countEach docs ops = each at h1 h2 h3 h4 ⊢
    cases code
    cases each
    simp only [BatchReport.mk.injEq]
    dsimp only at h1 h2 h3 h4
    omega

end Counting

/-! ## The edits, one at a time -/

/-- An upsert accepts the operation; a deletion is not refused. -/
def BatchOp.accepted (cat : Catalog) : BatchOp → Bool
  | .upsert id vector metadata content => (checkDoc cat ⟨id, .raw .f32 vector cat.dimension, metadata, content⟩).isOk
  | .delete _ => true

section Edits

variable {invNorm : InvNorm} {name : Str}

/-- **The answers of the edits** are those of the map, for the operations that upserts and deletions accept. -/
theorem OneByOne.counts {p : Site} {ops : List BatchOp} {r r' : BatchReport} (h : OneByOne invNorm name p ops r r')
    {G : Str → Option Ghost} (hst : p.Stands .live invNorm G) {g : Ghost} (hg : G name = some g) :
    r' = r.countEach g.docs (ops.filter (BatchOp.accepted g.cat)) := by
  induction h generalizing G g with
  | nil p r => rfl
  | @cons p op ops r r' now sess answer db' t hsess hfits hrun hrest ih =>
    obtain ⟨g1, g', hg1, hcat, hst', hanswers⟩ := (hst.edit hsess hfits).of_run hrun
    rw [hg] at hg1
    obtain rfl := Option.some.inj hg1
    have hih := ih hst' (Function.update_self _ _ _)
    obtain ⟨g2, rfl, hstate⟩ := hst.session hsess now
    have hsame : sess.catalog = g.cat := by
      have hhere := hstate.live.here
      rw [hg] at hhere
      obtain rfl := Option.some.inj hhere
      exact hstate.live.mem.catalog
    rw [hcat] at hih
    rw [hsame] at hanswers
    rw [hih]
    cases op with
    | upsert id vector metadata content =>
      have hput : PutAnswers g.cat g.docs ⟨id, .raw .f32 vector g.cat.dimension, metadata, content⟩
        (.ok (.upserted (if (g.docs id).isSome then .updated else .inserted))) answer g'.docs := hanswers
      unfold PutAnswers at hput
      cases hcheck : checkDoc g.cat ⟨id, .raw .f32 vector g.cat.dimension, metadata, content⟩ with
      | error e =>
        -- refused, and not counted
        have hno : BatchOp.accepted g.cat (.upsert id vector metadata content) = false := congrArg Except.isOk hcheck
        rw [hcheck] at hput
        rw [List.filter_cons_of_neg (by rw [hno]; exact Bool.false_ne_true), hput.1, hput.2]
        rfl
      | ok u =>
        have hyes : BatchOp.accepted g.cat (.upsert id vector metadata content) = true := congrArg Except.isOk hcheck
        rw [hcheck] at hput
        have hcount : r.countAnswer (.ok (.upserted (if (g.docs id).isSome then .updated else .inserted))) =
            r.countIn g.docs (.upsert id vector metadata content) := by
          unfold BatchReport.countIn BatchOp.id
          cases (g.docs id).isSome <;> rfl
        rw [List.filter_cons_of_pos hyes, countEach_cons, hput.1, hput.2, hcount]
        rfl
    | delete id =>
      have hdel : answer = .ok (.deleted (g.docs id).isSome) ∧ g'.docs = Function.update g.docs id none := hanswers
      have hcount : r.countAnswer (.ok (.deleted (g.docs id).isSome)) = r.countIn g.docs (.delete id) := by
        unfold BatchReport.countIn BatchOp.id
        cases (g.docs id).isSome <;> rfl
      rw [List.filter_cons_of_pos rfl, countEach_cons, hdel.1, hdel.2, hcount]
      rfl

/-- **A batch goes through** only if each of its operations passes its checks. -/
theorem writeBatch_checks {env : Env} {sess : Session} {s : MemoryStorage} (hro : env.config.readOnly = false)
    (batch : WriteBatch) : Ends device (writeBatch env batch) sess s (fun r _ _ => ∀ report, r = .ok report →
      ∀ op ∈ batch.ops, validateOp sess op = .ok ()) := by
  refine Ends.done_bind (checkWritable_done hro _ sess) (Ends.lift_bind (fun u _ => ?_) (fun e _ report h => by cases h))
  cases hempty : batch.ops.isEmpty with
  | true =>
    rw [List.isEmpty_iff.mp hempty]
    exact Ends.pure (fun _ _ op hop => absurd hop List.not_mem_nil)
  | false =>
    refine Ends.get_bind (Ends.lift_bind (fun u hops => ?_) (fun e _ report h => by cases h))
    exact fun _ _ => validateOps_ok hops

end Edits

/-! ## How many documents there are -/

/-- So many documents. -/
def Counts (docs : DocMap) (n : Nat) : Prop := ∃ ids : Finset DocId, (∀ id, id ∈ ids ↔ (docs id).isSome = true) ∧ ids.card = n

section Amount

variable {docs : DocMap} {n m : Nat}

theorem Counts.unique (h : Counts docs n) (h' : Counts docs m) : n = m := by
  obtain ⟨ids, hids, rfl⟩ := h
  obtain ⟨ids', hids', rfl⟩ := h'
  exact congrArg Finset.card (Finset.ext (fun id => (hids id).trans (hids' id).symm))

theorem Session.Refines.counts {sess : Session} (h : sess.Refines docs) : Counts docs sess.count := by
  refine ⟨sess.ids.toFinset, fun id => List.mem_toFinset.trans (h.ids id), ?_⟩
  rw [h.count]
  exact List.toFinset_card_of_nodup (h.sorted.imp ne_of_lt)

/-- **One operation more.** -/
theorem Counts.apply (h : Counts docs n) (op : BatchOp) : ∃ m, Counts (op.logged.apply docs) m ∧
    m + (!op.isUpsert && (docs op.id).isSome).toNat = n + (op.isUpsert && !(docs op.id).isSome).toNat := by
  obtain ⟨ids, hids, rfl⟩ := h
  cases op with
  | upsert id vector metadata content =>
    refine ⟨_, ⟨Insert.insert id ids, fun k => ?_, rfl⟩, ?_⟩
    · show k ∈ Insert.insert id ids ↔ (Function.update docs id _ k).isSome = true
      by_cases hk : k = id
      · rw [hk, Function.update_self]
        exact ⟨fun _ => rfl, fun _ => Finset.mem_insert_self _ _⟩
      · rw [Function.update_of_ne hk, Finset.mem_insert, or_iff_right hk, hids]
    · show (Insert.insert id ids).card + 0 = ids.card + (!(docs id).isSome).toNat
      cases hsome : (docs id).isSome with
      | true => rw [Finset.insert_eq_of_mem ((hids id).mpr hsome)]; rfl
      | false =>
        rw [Finset.card_insert_of_notMem (fun hin => by rw [(hids id).mp hin] at hsome; cases hsome)]
        rfl
  | delete id =>
    refine ⟨_, ⟨ids.erase id, fun k => ?_, rfl⟩, ?_⟩
    · show k ∈ ids.erase id ↔ (Function.update docs id none k).isSome = true
      by_cases hk : k = id
      · rw [hk, Function.update_self]
        exact ⟨fun hin => absurd rfl (Finset.ne_of_mem_erase hin), fun h => by cases h⟩
      · rw [Function.update_of_ne hk, Finset.mem_erase, and_iff_right hk, hids]
    · show (ids.erase id).card + (docs id).isSome.toNat = ids.card + 0
      cases hsome : (docs id).isSome with
      | true => exact Finset.card_erase_add_one ((hids id).mpr hsome)
      | false =>
        rw [Finset.erase_eq_of_notMem (fun hin => by rw [(hids id).mp hin] at hsome; cases hsome)]
        rfl

/-- **The count changes by what is inserted and what is deleted**, one operation after the other. -/
theorem Counts.countEach (h : Counts docs n) (ops : List BatchOp) (r : BatchReport) :
    ∃ m, Counts (replay docs (ops.map BatchOp.logged)) m ∧
      m + (r.countEach docs ops).deleted + r.inserted = n + (r.countEach docs ops).inserted + r.deleted := by
  induction ops generalizing docs n r with
  | nil => exact ⟨n, h, by show n + r.deleted + r.inserted = n + r.inserted + r.deleted; omega⟩
  | cons op ops ih =>
    obtain ⟨k, hk, hop⟩ := h.apply op
    obtain ⟨m, hm, hrest⟩ := ih hk (r.countIn docs op)
    refine ⟨m, hm, ?_⟩
    rw [countEach_cons]
    rw [countIn_eq] at hrest ⊢
    dsimp only at hrest
    omega

end Amount

/-! ## The report of a batch -/

/-- No content is larger than an upsert accepts. -/
def SmallContents (ops : List BatchOp) : Prop := ∀ id vector metadata c, BatchOp.upsert id vector metadata (some c) ∈ ops →
  c.length ≤ Limits.maxContentBytes

section Report

variable {sess : Session} {cat : Catalog} {ops : List BatchOp}

/-- **What a batch takes, an upsert takes** too, but for large contents. -/
theorem accepted_iff (hcheck : ∀ doc, validate sess doc = checkDoc sess.catalog doc)
    (hvalid : ∀ op ∈ ops, validateOp sess op = .ok ()) :
    (∀ op ∈ ops, op.accepted sess.catalog = true) ↔ SmallContents ops := by
  have hok : ∀ r : Except DbError Unit, r.isOk = true ↔ r = .ok () := fun r => by
    cases r with
    | ok u => exact ⟨fun _ => rfl, fun _ => rfl⟩
    | error e => exact ⟨fun h => (by cases h), fun h => (by cases h)⟩
  have hupsert : ∀ id vector metadata content, BatchOp.upsert id vector metadata content ∈ ops →
      ((BatchOp.upsert id vector metadata content).accepted sess.catalog = true ↔
        ¬ ∃ c ∈ content, Limits.maxContentBytes < c.length) := fun id vector metadata content hop => by
    have hcommon : CommonChecks sess ⟨id, .raw .f32 vector sess.catalog.dimension, metadata, content⟩ ∧ _ :=
      validateOp_iff.mp (hvalid _ hop)
    have hsingle : validate sess ⟨id, .raw .f32 vector sess.catalog.dimension, metadata, content⟩ = .ok () ↔ _ := validate_iff
    rw [hcheck] at hsingle
    exact (hok _).trans (hsingle.trans ⟨fun h => h.2.2, fun h => ⟨hcommon.1, rfl, h⟩⟩)
  constructor
  · intro hall id vector metadata c hop
    have hsmall := (hupsert _ _ _ _ hop).mp (hall _ hop)
    exact not_lt.mp (fun hlarge => hsmall ⟨c, rfl, hlarge⟩)
  · intro hsmall op hop
    cases op with
    | delete id => rfl
    | upsert id vector metadata content =>
      refine (hupsert _ _ _ _ hop).mpr ?_
      rintro ⟨c, hc, hlarge⟩
      rw [Option.mem_def.mp hc] at hop
      exact absurd (hsmall _ _ _ _ hop) (by omega)

/-- Where as many upserts are counted, all operations were accepted. -/
theorem accepted_of_total (h : (ops.filter (BatchOp.accepted cat)).countP BatchOp.isUpsert = ops.countP BatchOp.isUpsert) :
    ∀ op ∈ ops, op.accepted cat = true := by
  rw [List.countP_eq_countP_filter_add ops BatchOp.isUpsert (BatchOp.accepted cat)] at h
  have hnone : (ops.filter (fun op => !op.accepted cat)).countP BatchOp.isUpsert = 0 := by omega
  intro op hop
  by_contra hno
  rw [Bool.not_eq_true] at hno
  -- a deletion is never refused
  cases op with
  | delete id => cases hno
  | upsert id vector metadata content =>
    exact absurd rfl (List.countP_eq_zero.mp hnone _ (List.mem_filter.mpr ⟨hop, by rw [hno]; rfl⟩))

/-- **A batch reports what its operations would, one at a time**, exactly when none of its contents is larger than an upsert
    accepts and, among its upserts and among its deletions, as many find a document that only the batch has put as miss one
    that the batch has deleted. The report then tells the change in the number of documents. -/
theorem Run.batchCounts_iff {invNorm : InvNorm} {p : Site} {M : Str → Option DocMap} (h : Run (fun _ => True) Edit.Fits invNorm p M)
    {name : Str} {docs : DocMap} (hdocs : M name = some docs) {now : UInt64} {batch : WriteBatch}
    (hsess : p.db.session name = some sess) (hfits : (Edit.writeBatch batch).Fits ⟨p.config, now, invNorm⟩ sess)
    {report report' : BatchReport} {db' : Database} {t : MemoryStorage}
    (hrun : (Database.onCollection name ((Edit.writeBatch batch).act ⟨p.config, now, invNorm⟩) p.db).run device p.storage =
      ((.ok (.written report), db'), t))
    (hsingle : OneByOne invNorm name p batch.ops BatchReport.zero report') :
    (report = report' ∧ ∃ sess', db'.session name = some sess' ∧
        sess'.count + report.deleted = sess.count + report.inserted) ↔
      SmallContents batch.ops ∧ ∀ upserts, strays docs FindsNew upserts [] batch.ops = strays docs MissesOld upserts [] batch.ops := by
  obtain ⟨G, hst, rfl⟩ := h.stands (fun _ _ => .inl (show Sel.live = .live from rfl)) (fun _ _ _ hf => hf)
  obtain ⟨g, hg, rfl⟩ := Option.map_eq_some_iff.mp hdocs
  obtain ⟨sess1, hsess1, hcat, href⟩ := hst.refines hg
  obtain rfl := Option.some.inj (hsess.symm.trans hsess1)
  have hcheck : ∀ doc, validate sess doc = checkDoc sess.catalog doc := fun doc => by
    obtain ⟨g2, hname, hstate⟩ := hst.session hsess now
    rw [hstate.check_eq doc, show sess.catalog = g2.cat from hstate.live.mem.catalog]
  -- what the batch answers, and what it takes
  obtain ⟨g1, g', hg1, -, hst', hanswers⟩ := (hst.edit hsess hfits).of_run hrun
  rw [hg] at hg1
  obtain rfl := Option.some.inj hg1
  have hwritten : report = batch.ops.foldl (BatchReport.countIn g.docs) BatchReport.zero ∧ g'.docs = replay g.docs batch.logged := by
    dsimp only [Edit.Answers] at hanswers
    split at hanswers
    · cases hanswers.1
    · exact ⟨EditAnswer.written.inj (Except.ok.inj hanswers.1), hanswers.2⟩
  have hvalid : ∀ op ∈ batch.ops, validateOp sess op = .ok () := by
    have hchecks : Ends device (Database.onCollection name ((Edit.writeBatch batch).act ⟨p.config, now, invNorm⟩)) p.db p.storage
        (fun r _ _ => ∀ a, r = .ok a → ∀ op ∈ batch.ops, validateOp sess op = .ok ()) := by
      have hpass : Ends device (writeBatch ⟨p.config, now, invNorm⟩ batch) sess p.storage _ := writeBatch_checks hst.writable batch
      refine onCollection_ends hsess (hpass.seq (fun report sess' s' hr => ?_) (fun e sess' s' _ a ha => by cases ha))
      exact Ends.pure (fun _ _ => hr report rfl)
    exact hchecks.of_run hrun _ rfl
  have hsame := hsingle.counts hst hg
  rw [← hcat] at hsame
  rw [← accepted_iff hcheck hvalid, ← counts_iff, ← hwritten.1]
  constructor
  · rintro ⟨rfl, -⟩
    have htotal := fold_total g.docs batch.ops BatchReport.zero
    rw [← hwritten.1, hsame, countEach_total] at htotal
    have hall := accepted_of_total (Nat.add_left_cancel htotal)
    rw [List.filter_eq_self.mpr hall] at hsame
    exact ⟨hall, hsame⟩
  · rintro ⟨hall, heach⟩
    rw [List.filter_eq_self.mpr hall] at hsame
    obtain ⟨sess', hsess', -, href'⟩ := hst'.refines (Function.update_self _ _ _)
    obtain ⟨m, hm, hchange⟩ := href.counts.countEach batch.ops BatchReport.zero
    have hcount : sess'.count = m := by
      rw [hwritten.2] at href'
      exact href'.counts.unique hm
    refine ⟨heach.trans hsame.symm, sess', hsess', ?_⟩
    rw [hcount, heach]
    exact hchange

end Report

section Example

/-- Whether the memtable holds so much more without a flush. -/
def Session.holds (sess : Session) (more : List LogOp) : Bool :=
  decide ((sess.grown zeroNorm more).rows.length ≤ 2 ^ 32 ∧ (sess.grown zeroNorm more).byteSize < 2 ^ 63)

/-- Whether a write can be made without a flush. -/
def Edit.held (sess : Session) : Edit → Bool
  | .upsert doc => decide doc.vector.WellFormed && sess.holds [.put doc.id doc.stored]
  | .delete id => (id.validate sess.catalog.idKind).isOk && sess.holds [.del id]
  | .writeBatch batch => sess.holds batch.logged
  | _ => false

theorem Session.holds_room {sess : Session} {more : List LogOp} (h : sess.holds more = true) : WriteRoom fullEnv sess more := by
  obtain ⟨hrows, hsize⟩ := of_decide_eq_true h
  exact ⟨hrows, fun hover => absurd hover (not_le.mpr hsize)⟩

theorem Edit.held_fits {sess : Session} {e : Edit} (h : e.held sess = true) : e.Fits fullEnv sess := by
  cases e with
  | upsert doc =>
    obtain ⟨hvector, hroom⟩ := (Bool.and_eq_true _ _).mp h
    exact ⟨of_decide_eq_true hvector, Session.holds_room hroom⟩
  | delete id =>
    obtain ⟨hid, hroom⟩ := (Bool.and_eq_true _ _).mp h
    refine ⟨?_, Session.holds_room hroom⟩
    cases hv : id.validate sess.catalog.idKind with
    | ok u => rfl
    | error e => rw [hv] at hid; cases hid
  | writeBatch batch => exact Session.holds_room h
  | _ => cases h

/-- A write on the collection. -/
def writeRun (p : Site) (e : Edit) : (Except DbError EditAnswer × Database) × MemoryStorage :=
  (Database.onCollection theSpec.name (e.act fullEnv) p.db).run device p.storage

/-- The collection after the write. -/
def afterWrite (p : Site) (e : Edit) : Site := ⟨fullConfig, (writeRun p e).1.2, (writeRun p e).2⟩

/-- Whether a write can be made on the collection without a flush. -/
def heldAt (p : Site) (e : Edit) : Bool := (p.db.session theSpec.name).any (fun sess => sess.catalog = theSpec.catalog 0 && e.held sess)

theorem heldAt_session {p : Site} {e : Edit} (h : heldAt p e = true) :
    ∃ sess, p.db.session theSpec.name = some sess ∧ sess.catalog = theSpec.catalog 0 ∧ e.Fits fullEnv sess := by
  unfold heldAt at h
  cases hsess : p.db.session theSpec.name with
  | none => rw [hsess] at h; cases h
  | some sess =>
    rw [hsess] at h
    obtain ⟨hcat, hheld⟩ := (Bool.and_eq_true _ _).mp h
    exact ⟨sess, rfl, of_decide_eq_true hcat, Edit.held_fits hheld⟩

/-- Whether the operations can be made one at a time without a flush. -/
def heldEach : Site → List BatchOp → Bool
  | _, [] => true
  | p, op :: ops => heldAt p (op.edit (theSpec.catalog 0)) && heldEach (afterWrite p (op.edit (theSpec.catalog 0))) ops

theorem exists_oneByOne {ops : List BatchOp} : ∀ {p : Site}, p.config = fullConfig → heldEach p ops = true →
    ∀ r, ∃ r', OneByOne zeroNorm theSpec.name p ops r r' := by
  induction ops with
  | nil => exact fun _ _ r => ⟨r, .nil _ r⟩
  | cons op ops ih =>
    intro p hconfig h r
    obtain ⟨hfirst, hrest⟩ := (Bool.and_eq_true _ _).mp h
    obtain ⟨sess, hsess, hcat, hfits⟩ := heldAt_session hfirst
    obtain ⟨r', hr'⟩ := ih rfl hrest (r.countAnswer (writeRun p (op.edit (theSpec.catalog 0))).1.1)
    obtain ⟨config, db, storage⟩ := p
    cases hconfig
    rw [← hcat] at hfits hr'
    exact ⟨r', .cons 0 hsess hfits rfl hr'⟩

/-- **One batch and its operations one at a time**, from the same collection. -/
theorem exists_batch {p : Site} {M : Str → Option DocMap} {docs : DocMap} (h : Run (fun _ => True) Edit.Fits zeroNorm p M)
    (hdocs : M theSpec.name = some docs) (hconfig : p.config = fullConfig) {batch : WriteBatch}
    (hheld : heldAt p (.writeBatch batch) = true) (heach : heldEach p batch.ops = true)
    (hok : (writeRun p (.writeBatch batch)).1.1.isOk = true) :
    ∃ sess report' db' t, p.db.session theSpec.name = some sess ∧ (Edit.writeBatch batch).Fits ⟨p.config, 0, zeroNorm⟩ sess ∧
      (Database.onCollection theSpec.name ((Edit.writeBatch batch).act ⟨p.config, 0, zeroNorm⟩) p.db).run device p.storage =
        ((.ok (.written (batch.ops.foldl (BatchReport.countIn docs) BatchReport.zero)), db'), t) ∧
      OneByOne zeroNorm theSpec.name p batch.ops BatchReport.zero report' ∧
      report' = BatchReport.zero.countEach docs (batch.ops.filter (BatchOp.accepted (theSpec.catalog 0))) := by
  obtain ⟨sess, hsess, hcat, hfits⟩ := heldAt_session hheld
  obtain ⟨report', hsingle⟩ := exists_oneByOne hconfig heach BatchReport.zero
  obtain ⟨G, hst, rfl⟩ := h.stands (fun _ _ => .inl (show Sel.live = .live from rfl)) (fun _ _ _ hf => hf)
  obtain ⟨g, hg, rfl⟩ := Option.map_eq_some_iff.mp hdocs
  obtain ⟨config, db, storage⟩ := p
  cases hconfig
  rcases hrun : writeRun ⟨fullConfig, db, storage⟩ (.writeBatch batch) with ⟨⟨r, db'⟩, t⟩
  obtain ⟨g1, g', hg1, hsame, -, hanswers⟩ := (hst.edit hsess hfits).of_run hrun
  rw [hg] at hg1
  obtain rfl := Option.some.inj hg1
  obtain ⟨sess1, hsess1, hcat1, -⟩ := hst.refines hg
  obtain rfl := Option.some.inj (hsess.symm.trans hsess1)
  have hcount := hsingle.counts hst hg
  rw [← hcat1, hcat] at hcount
  dsimp only [Edit.Answers] at hanswers
  split at hanswers
  · have hisOk : r.isOk = true := (congrArg (fun x => x.1.1.isOk) hrun).symm.trans hok
    rw [hanswers.1] at hisOk
    cases hisOk
  · exact ⟨sess, report', db', t, hsess, hfits, by rw [← hanswers.1]; exact hrun, hsingle, hcount⟩

/-- In a collection with the document `a`: a new one is put, `a` is deleted, and `b`, which there is not. -/
def mixedBatch : WriteBatch := (((WriteBatch.new.upsert { fill 0 with id := .str ⟨[100], utf8_d⟩ }).delete (fill 0).id).delete
  (.str ⟨[98], utf8_b⟩))

/-- The report of a batch that was written. -/
def reportOf : Except DbError EditAnswer → Option BatchReport
  | .ok (.written report) => some report
  | _ => none

/-- Three operations of different kinds in a batch, and the documents that there are then. -/
theorem batch_mixed : ∃ sess sess' db' t, putSite.db.session theSpec.name = some sess ∧
    (Database.onCollection theSpec.name ((Edit.writeBatch mixedBatch).act ⟨putSite.config, 0, zeroNorm⟩) putSite.db).run device
      putSite.storage = ((.ok (.written ⟨1, 0, 1, 1⟩), db'), t) ∧
    db'.session theSpec.name = some sess' ∧ sess'.count + 1 = sess.count + 1 := by
  obtain ⟨M, docs, hstart, hdocs⟩ := putSite_run
  obtain ⟨sess, report', db', t, hsess, hfits, hrun, hsingle, -⟩ :=
    exists_batch hstart hdocs rfl (show heldAt putSite (.writeBatch mixedBatch) = true by decide +kernel) (by decide +kernel)
      (by decide +kernel)
  have hreport : reportOf (writeRun putSite (.writeBatch mixedBatch)).1.1 = some ⟨1, 0, 1, 1⟩ := by decide +kernel
  rw [show writeRun putSite (.writeBatch mixedBatch) = _ from hrun] at hreport
  rw [Option.some.inj hreport] at hrun
  have hcontents : SmallContents mixedBatch.ops := fun id vector metadata c hop => by
    simp only [mixedBatch, WriteBatch.new, WriteBatch.upsert, WriteBatch.delete, List.nil_append, List.cons_append,
      List.mem_cons, BatchOp.upsert.injEq, reduceCtorEq, List.not_mem_nil, or_false] at hop
    have hc : some c = some [65] := hop.2.2.2
    rw [Option.some.inj hc]
    decide
  -- no operation is about a document of one before it
  have hapart : ∀ x ∈ withEarlier [] mixedBatch.ops, replay docs x.1 x.2.id = docs x.2.id := by
    intro x hx
    simp only [mixedBatch, WriteBatch.new, WriteBatch.upsert, WriteBatch.delete, List.nil_append, List.cons_append, withEarlier,
      List.mem_cons, List.not_mem_nil, or_false] at hx
    rcases hx with rfl | rfl | rfl
    · rfl
    · rfl
    · rfl
  have hfinds : ∀ x ∈ withEarlier [] mixedBatch.ops, FindsNew docs x = false := fun x hx => by
    rw [FindsNew, hapart x hx, Bool.not_and_self]
  have hmisses : ∀ x ∈ withEarlier [] mixedBatch.ops, MissesOld docs x = false := fun x hx => by
    rw [MissesOld, hapart x hx, Bool.and_not_self]
  obtain ⟨-, sess', hsess', hcount⟩ := (Run.batchCounts_iff hstart hdocs hsess hfits hrun hsingle).mpr
    ⟨hcontents, fun upserts => (List.countP_eq_zero.mpr fun x hx => by simp [hfinds x hx]).trans
      (List.countP_eq_zero.mpr fun x hx => by simp [hmisses x hx]).symm⟩
  exact ⟨sess, sess', db', t, hsess, hrun, hsess', hcount⟩

/-- Two upserts of one id. -/
def twiceBatch : WriteBatch := (WriteBatch.new.upsert (fill 0)).upsert (fill 1)

/-- **Two upserts of one new id in one batch** are both reported as insertions. One at a time, the second is an update. -/
theorem counted_twice : ¬ ∀ p M, Run (fun _ => True) Edit.Fits zeroNorm p M → ∀ name docs, M name = some docs →
    ∀ now batch sess, p.db.session name = some sess → (Edit.writeBatch batch).Fits ⟨p.config, now, zeroNorm⟩ sess →
    ∀ report report' db' t,
      (Database.onCollection name ((Edit.writeBatch batch).act ⟨p.config, now, zeroNorm⟩) p.db).run device p.storage =
        ((.ok (.written report), db'), t) →
      OneByOne zeroNorm name p batch.ops BatchReport.zero report' → report = report' ∧ ∃ sess', db'.session name = some sess' ∧
        sess'.count + report.deleted = sess.count + report.inserted := by
  intro hall
  have hstart := madeSite_run (fun _ => True) Edit.Fits trivial
  obtain ⟨sess, report', db', t, hsess, hfits, hrun, hsingle, hcount⟩ :=
    exists_batch hstart (Function.update_self _ _ _) rfl
      (show heldAt madeSite (.writeBatch twiceBatch) = true by decide +kernel) (by decide +kernel) (by decide +kernel)
  obtain ⟨hsame, -⟩ := hall _ _ hstart _ _ (Function.update_self _ _ _) _ _ _ hsess hfits _ _ _ _ hrun hsingle
  rw [hcount] at hsame
  have hinserted : (2 : Nat) = 1 := congrArg BatchReport.inserted hsame
  omega

end Example

end IshaVectorDb.Engine
