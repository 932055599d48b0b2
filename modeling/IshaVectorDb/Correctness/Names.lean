import IshaVectorDb.Engine.PathText
import IshaVectorDb.Correctness.ReadOnly

/-!
# `Correctness.Names` — which collections can **coexist**, and whose files they share

`create_collection` compares names byte by byte and lets both cases of a letter through, while some file systems take
them for one. What decides whether two collections share files there is the names without their case
(`coexisting_apart_iff`).
-/

namespace IshaVectorDb.Engine

open Format Interaction

/-- A creation that succeeded had a valid name that no open collection had. -/
theorem createCollection_ok {env : Env} {spec : Database.CollectionSpec} {db db' : Database} {s s' : MemoryStorage}
    (h : (Database.createCollection env spec db).run device s = ((.ok (), db'), s')) :
    checkCollectionName spec.name = .ok () ∧ db.collections.lookup spec.name = none := by
  obtain ⟨_, x₁, s₁, hwritable, h₁⟩ := Proc.run_bind_ok h
  obtain ⟨_, x₂, s₂, hvalid, h₂⟩ := Proc.run_bind_ok h₁
  obtain ⟨found, x₃, s₃, hget, hcreate⟩ := Proc.run_bind_ok h₂
  have hx₁ : x₁ = db := by
    unfold checkWritable at hwritable
    split at hwritable
    · cases hwritable
    · exact (Prod.mk.inj (Prod.mk.inj hwritable).1).2.symm
  have hlift : ((spec.validate, x₁), s₁) = ((.ok (), x₂), s₂) := hvalid
  obtain ⟨hpair, rfl⟩ := Prod.mk.inj hlift
  obtain ⟨hspec, rfl⟩ := Prod.mk.inj hpair
  have hread : ((Except.ok x₁, x₁), s₁) = ((Except.ok found, x₃), s₃) := hget
  cases hread
  subst hx₁
  constructor
  · unfold Database.CollectionSpec.validate at hspec
    cases hname : checkCollectionName spec.name with
    | ok u => rfl
    | error e => rw [hname] at hspec; cases hspec
  · by_cases hsome : (x₁.collections.lookup spec.name).isSome = true
    · rw [if_pos hsome] at hcreate
      cases hcreate
    · exact Option.not_isSome_iff_eq_none.mp hsome

/-- **When two collections that coexist keep apart.** A name that is created beside the collection `other` is another
    one; no path of either is a path of the other or lies above it, whatever the case of the letters, exactly when
    the names differ in more than case. -/
theorem coexisting_apart_iff {env : Env} {spec : Database.CollectionSpec} {db db' : Database} {s s' : MemoryStorage}
    {other : Str} (hother : (db.collections.lookup other).isSome)
    (h : (Database.createCollection env spec db).run device s = ((.ok (), db'), s')) :
    other ≠ spec.name ∧ (DbPath.Apart other spec.name ↔ foldCase other.bytes ≠ foldCase spec.name.bytes) := by
  obtain ⟨-, hnone⟩ := createCollection_ok h
  refine ⟨?_, DbPath.apart_iff⟩
  rintro rfl
  rw [hnone] at hother
  cases hother

section Example

/-- A collection of one-dimensional vectors. -/
def specOf (name : Str) : Database.CollectionSpec := ⟨name, 1, .l2, .f32, .str 8, .flat⟩

/-- The names `A`, `a` and `b`. -/
def upperA : Str := ⟨[0x41], by decide⟩

def lowerA : Str := ⟨[0x61], utf8_a⟩

def lowerB : Str := ⟨[0x62], utf8_b⟩

/-- A new database in which a collection `A` was created. -/
def withUpperA : (Except DbError Unit × Database) × MemoryStorage :=
  (Database.createCollection someEnv (specOf upperA) (databaseOf newDatabase.1.1)).run device newDatabase.2

/-- Another collection created beside `A`. -/
def beside (name : Str) : (Except DbError Unit × Database) × MemoryStorage :=
  (Database.createCollection someEnv (specOf name) withUpperA.1.2).run device withUpperA.2

theorem beside_run {name : Str} (h : (beside name).1.1.isOk = true) :
    (Database.createCollection someEnv (specOf name) withUpperA.1.2).run device withUpperA.2 =
      ((.ok (), (beside name).1.2), (beside name).2) := by
  cases hr : beside name with
  | mk r s' =>
    obtain ⟨r, db⟩ := r
    cases r with
    | error e => rw [hr] at h; cases h
    | ok u => exact hr

theorem upperA_apart_lowerB : upperA ≠ lowerB ∧ DbPath.Apart upperA lowerB := by
  have hthere : (withUpperA.1.2.collections.lookup upperA).isSome = true := by decide +kernel
  have hcreated : (beside lowerB).1.1.isOk = true := by decide +kernel
  obtain ⟨hne, hiff⟩ := coexisting_apart_iff hthere (beside_run hcreated)
  exact ⟨hne, hiff.mpr (by decide)⟩

/-- **`A` and `a` coexist and share every file** where case is ignored. -/
theorem upperA_meets_lowerA : (withUpperA.1.2.collections.lookup upperA).isSome = true ∧
    (beside lowerA).1.1.isOk = true ∧ upperA ≠ lowerA ∧ ¬ DbPath.Apart upperA lowerA := by
  refine ⟨by decide +kernel, by decide +kernel, by decide, fun h => ?_⟩
  exact DbPath.apart_iff.mp h (by decide)

end Example

end IshaVectorDb.Engine
