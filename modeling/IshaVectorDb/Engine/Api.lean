import IshaVectorDb.Engine.Search
import IshaVectorDb.Engine.Verify

/-!
# `Engine.Api` — the calls a program makes on an **open database**

Every call first asks whether the database is still open; closing it is a call like the others.
-/

namespace IshaVectorDb.Engine

open Format Interaction

variable {G : Type}

/-- A database opened with an index, and whether it was closed since. -/
structure Opened (G : Type) where
  db : Database
  graph : G
  closed : Bool

/-- A call on a database or on one of its collections. -/
inductive ApiCall
  | get (name : Str) (id : DocId) (inc : Include)
  | contains (name : Str) (id : DocId)
  | count (name : Str)
  | ids (name : Str)
  | search (name : Str) (request : SearchRequest) (budget : Budget)
  | insert (name : Str) (doc : DocumentInput)
  | upsert (name : Str) (doc : DocumentInput)
  | delete (name : Str) (id : DocId)
  | writeBatch (name : Str) (batch : WriteBatch)
  | flush (name : Str)
  | compact (name : Str) (options : CompactOptions)
  | createCollection (spec : Database.CollectionSpec)
  | dropCollection (name : Str)
  | verify (level : VerifyLevel)
  | flushAll
  | compactAll (options : CompactOptions)
  | close

/-- What a call answers. -/
inductive Answer
  | done
  | document (found : Option Document)
  | flag (value : Bool)
  | number (value : Nat)
  | ids (found : List DocId)
  | hits (found : List Hit)
  | upserted (outcome : UpsertOutcome)
  | written (report : BatchReport)
  | compacted (report : CompactReport)
  | verified (report : VerifyReport)

namespace Opened

/-- Refuse a call on a closed database. -/
def checkOpen : Action (Opened G) Unit := do
  let x ← Proc.get
  if x.closed then Proc.throw .databaseClosed else return ()

/-- An action on the database. -/
def onDatabase {α : Type} (m : Action Database α) : Action (Opened G) α :=
  Proc.zoom Opened.db (fun db x => { x with db := db }) m

/-- An action on one of its collections. -/
def onCollection {α : Type} (name : Str) (m : Action Session α) : Action (Opened G) α :=
  onDatabase (Database.onCollection name m)

/-- A question to one of its collections. -/
def ask {α : Type} (name : Str) (question : Session → Except DbError α) : Action (Opened G) α :=
  onCollection name (do
    let s ← Proc.get
    Proc.lift (question s))

/-- A search of one of its collections. -/
def searchIn (index : VectorIndex G) (name : Str) (request : SearchRequest) (budget : Budget) :
    Action (Opened G) (List Hit) := do
  let x ← Proc.get
  match x.db.session name with
  | none => Proc.throw (.collectionNotFound name)
  | some s =>
      Proc.zoom (fun x : Opened G => (⟨x.graph, s⟩ : Searching G)) (fun y x => { x with graph := y.graph })
        (search index request budget)

end Opened

/-- What a call does, once the database is known to be open. -/
def ApiCall.body (env : Env) (index : VectorIndex G) : ApiCall → Action (Opened G) Answer
  | .get name id inc => do return .document (← Opened.ask name (fun s => s.getWith id inc))
  | .contains name id => do return .flag (← Opened.ask name (fun s => .ok (s.contains id)))
  | .count name => do return .number (← Opened.ask name (fun s => .ok s.count))
  | .ids name => do return .ids (← Opened.ask name (fun s => .ok s.ids))
  | .search name request budget => do return .hits (← Opened.searchIn index name request budget)
  | .insert name doc => do
      Opened.onCollection name (Engine.insert env doc)
      return .done
  | .upsert name doc => do return .upserted (← Opened.onCollection name (Engine.upsert env doc))
  | .delete name id => do return .flag (← Opened.onCollection name (Engine.delete env id))
  | .writeBatch name batch => do return .written (← Opened.onCollection name (Engine.writeBatch env batch))
  | .flush name => do
      Opened.onCollection name (Engine.flush env)
      return .done
  | .compact name options => do return .compacted (← Opened.onCollection name (Engine.compact env options))
  | .createCollection spec => do
      Opened.onDatabase (Database.createCollection env spec)
      return .done
  | .dropCollection name => do
      Opened.onDatabase (Database.dropCollection env name)
      return .done
  | .verify level => do return .verified (← Opened.onDatabase (Database.verify level))
  | .flushAll => do
      Opened.onDatabase (Database.flushAll env)
      return .done
  | .compactAll options => do return .compacted (← Opened.onDatabase (Database.compactAll env options))
  | .close => do
      let result ← Proc.attempt (Opened.onDatabase (Database.close env))
      -- the database is closed whatever became of the last flush
      Proc.modify (fun x => { x with closed := true })
      Proc.lift (result.map (fun _ => Answer.done))

/-- A call on an open database. -/
def ApiCall.act (env : Env) (index : VectorIndex G) (c : ApiCall) : Action (Opened G) Answer := do
  Opened.checkOpen
  c.body env index

end IshaVectorDb.Engine
