/-
  Schema migrations: `ask-core`'s `migrations.rs`.

  Every statement outside a transaction commits by itself, so that a run is a
  program of a few transactions.  What a script does to the tables other than
  the tracking table is a parameter.
-/
import Ask.Lib.Pool
import Ask.Lib.Tx
import Ask.Types

namespace Ask

open Lib

/-- A script with its version. -/
structure Migration where
  version : ℤ
  requiredActions : Option String
  sql : String
  deriving DecidableEq, Repr

/-- The embedded migrations; `includeStr` gives the text of a file. -/
def migrations (includeStr : String → String) : List Migration :=
  [⟨1, none, includeStr "../migrations/0001_bootstrap_migration_system.sql"⟩,
    ⟨2, none, includeStr "../migrations/0002_create_domain_tables.sql"⟩,
    ⟨3, none, includeStr "../migrations/0003_create_job_queue.sql"⟩,
    ⟨4, none, includeStr "../migrations/0004_simplify_job_queue_claim.sql"⟩,
    ⟨5, none, includeStr "../migrations/0005_create_embedding_search_state.sql"⟩,
    ⟨6, none, includeStr "../migrations/0006_rebuild_embedding_model_identity.sql"⟩,
    ⟨7, none, includeStr "../migrations/0007_add_document_hash_metadata.sql"⟩]

/-! ## The database -/

/-- A row of the tracking table. -/
structure MigrationRow where
  version : ℤ
  requiredActions : Option String
  deriving DecidableEq, Repr

/-- The tracking table; `version` is its primary key. -/
structure MigrationsTable where
  rows : List MigrationRow
  unique : (rows.map MigrationRow.version).Nodup

namespace MigrationsTable

/-- No script has been run. -/
def empty : MigrationsTable := ⟨[], List.nodup_nil⟩

/-- Insert a row; nothing when its version is taken. -/
def insert (t : MigrationsTable) (row : MigrationRow) : Option MigrationsTable :=
  if h : row.version ∉ t.rows.map MigrationRow.version then
    some
      { rows := t.rows ++ [row]
        unique := by
          rw [List.map_append, List.nodup_append]
          refine ⟨t.unique, by simp, fun a ha b hb => ?_⟩
          rw [List.map_singleton, List.mem_singleton] at hb
          rw [hb]
          exact ne_of_mem_of_not_mem ha h }
  else none

end MigrationsTable

/-- The tracking table, if there is one yet, and everything else. -/
structure Database (σ : Type) where
  migrations : Option MigrationsTable
  schema : σ

section transactions
variable {σ : Type}

/-- The versions in the tracking table. -/
def Database.recorded (db : Database σ) : List ℤ :=
  db.migrations.elim [] fun t => t.rows.map MigrationRow.version

/-- `CREATE TABLE IF NOT EXISTS migrations` -/
def createMigrationsTable : Tx (Database σ) AnyError Unit :=
  Tx.mapError (.context "failed to create migrations tracking table") <| Tx.exec fun db =>
    .ok ((), { db with migrations := some (db.migrations.getD .empty) })

/-- The versions in the migrations table. -/
def loadAppliedVersions : Tx (Database σ) AnyError (Finset ℤ) := Tx.query fun db =>
  match db.migrations with
  | none => .error (.context "failed to prepare applied migrations query"
      (.msg "no such table: migrations"))
  | some t => .ok (t.rows.map MigrationRow.version).toFinset

variable (exec : String → σ → Except AnyError σ)

/-- `execute_batch`. -/
def executeBatch (sql : String) : Tx (Database σ) AnyError Unit := Tx.exec fun db =>
  (exec sql db.schema).map fun schema => ((), { db with schema := schema })

/-- `INSERT INTO migrations`. -/
def insertMigration (migration : Migration) : Tx (Database σ) AnyError Unit := Tx.exec fun db =>
  match db.migrations with
  | none => .error (.msg "no such table: migrations")
  | some t =>
    match t.insert ⟨migration.version, migration.requiredActions⟩ with
    | none => .error (.msg "UNIQUE constraint failed: migrations.version")
    | some t => .ok ((), { db with migrations := some t })

/-- The body of the loop: the script and its row, committed together. -/
def applyMigration (migration : Migration) : Tx (Database σ) AnyError Unit := Tx.transaction do
  Tx.mapError (.context s!"failed to apply migration {migration.version}")
    (executeBatch exec migration.sql)
  Tx.mapError (.context s!"failed to record migration {migration.version}")
    (insertMigration migration)

end transactions

/-! ## The program -/

/-- What a migration run asks the database for. -/
inductive MigrationReq where
  | createMigrationsTable
  | loadAppliedVersions
  | applyMigration (migration : Migration)

namespace MigrationReq

/-- What each request yields. -/
@[reducible] def Val : MigrationReq → Type
  | createMigrationsTable => Unit
  | loadAppliedVersions => Finset ℤ
  | applyMigration _ => Unit

/-- A request may fail. -/
abbrev Ans (r : MigrationReq) : Type := Except AnyError r.Val

/-- What each request does to the database. -/
def run {σ : Type} (exec : String → σ → Except AnyError σ) :
    (r : MigrationReq) → Tx (Database σ) AnyError r.Val
  | createMigrationsTable => Ask.createMigrationsTable
  | loadAppliedVersions => Ask.loadAppliedVersions
  | applyMigration migration => Ask.applyMigration exec migration

/-- The migration whose script the request commits. -/
def committed : MigrationReq → List Migration
  | applyMigration migration => [migration]
  | createMigrationsTable | loadAppliedVersions => []

end MigrationReq

/-- The loop of `validate_migrations`. -/
def validateAfter : Option ℤ → List Migration → Except AnyError Unit
  | _, [] => .ok ()
  | previousVersion, migration :: rest => do
    if let some lastVersion := previousVersion then
      if ¬lastVersion < migration.version then
        throw (.msg ("migration versions must be strictly increasing: " ++
          s!"{migration.version} came after {lastVersion}"))
    if ¬0 < migration.version then
      throw (.msg s!"migration versions must be positive: {migration.version}")
    validateAfter (some migration.version) rest

/-- Versions rise from script to script. -/
def validateMigrations (list : List Migration) : Except AnyError Unit := validateAfter none list

/-- A program that migrates a database. -/
abbrev Migrate (α : Type) := Task MigrationReq MigrationReq.Ans AnyError α

/-- One request. -/
def perform (r : MigrationReq) : Migrate r.Val := Proc.call r .ret

/-- The loop of `apply_pending_migrations`. -/
def applyPending (appliedVersions : Finset ℤ) : List Migration → ℕ → Migrate ℕ
  | [], appliedCount => pure appliedCount
  | migration :: rest, appliedCount =>
    if migration.version ∈ appliedVersions then applyPending appliedVersions rest appliedCount
    else do
      perform (.applyMigration migration)
      applyPending appliedVersions rest (appliedCount + 1)

/-- Apply every migration of the list that has not yet been recorded; the number it applied. -/
def applyPendingMigrations (list : List Migration) : Migrate ℕ := do
  perform .createMigrationsTable
  Task.ofExcept (validateMigrations list)
  let appliedVersions ← perform .loadAppliedVersions
  applyPending appliedVersions list 0

/-! ## Answers -/

/-- The database, and the migrations whose transaction has committed, oldest first. -/
structure Migrated (σ : Type) where
  db : Database σ
  log : List Migration

/-- How a request is answered: it commits; it commits and the process hears of an error; or it
    fails, for whatever reason, and has changed nothing. -/
inductive Answered {σ : Type} (exec : String → σ → Except AnyError σ) :
    Migrated σ → (r : MigrationReq) → r.Ans → Migrated σ → Prop
  | done {w : Migrated σ} {r : MigrationReq} {v : r.Val} {db : Database σ} :
      (r.run exec).Ok w.db v db → Answered exec w r (.ok v) ⟨db, w.log ++ r.committed⟩
  | unheard {w : Migrated σ} {r : MigrationReq} {v : r.Val} {db : Database σ} {err : AnyError} :
      (r.run exec).Ok w.db v db → Answered exec w r (.error err) ⟨db, w.log ++ r.committed⟩
  | failed {w : Migrated σ} {r : MigrationReq} {err : AnyError} : Answered exec w r (.error err) w

/-- Any number of processes that start, migrate one database and may be killed. -/
abbrev Migrators (σ : Type) := Pool (Migrated σ) MigrationReq MigrationReq.Ans (Except AnyError ℕ)

/-- A step of one of them; each runs `apply_pending_migrations` on the same list. -/
abbrev MigratorsStep {σ : Type} (exec : String → σ → Except AnyError σ) (list : List Migration) :
    Migrators σ → PoolOp → Migrators σ → Prop :=
  Pool.Step (Answered exec) (applyPendingMigrations list)

end Ask
