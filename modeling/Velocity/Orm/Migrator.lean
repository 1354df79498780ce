import Velocity.Lib.Fallible
import Velocity.Lib.Bytes

/-! The migrator. Each SQL statement is one operation and may fail, and so are the bodies of the
migrations and the readings of the clock and the registry. The lock is that of SQLite. -/

namespace Migrate

open Interleave
open Bytes (ascii)

structure Migration where
  version : Bytes
  hasDown : Bool
deriving DecidableEq

/-- The version is YYYYMMDDHHmmss: 14 digits. -/
def Migration.validVersion (version : Bytes) : Bool :=
  version.length = 14 ∧ version.all fun b => Byte.of '0' ≤ b ∧ b ≤ Byte.of '9'

def migrationsLockTableName : Bytes := ascii "migrations_lock"

/-- `sqliteLockStaleAfter`, in seconds. -/
def sqliteLockStaleAfter : Int := 10 * 60

inductive MigrateOp
  | createLockTable
  /-- `PRAGMA table_info`: whether the column `locked_at` is there. -/
  | lockTableInfo
  | addLockedAt
  | seedLockRow
  | claimLock (now staleCutoff : Int)
  | freeLock
  | createMigrationsTable
  | selectVersions
  | selectMaxBatch
  | selectBatch (batch : Int)
  | insertMigration (version : Bytes) (batch : Int)
  | deleteMigration (version : Bytes)
  | begin
  | commit
  | rollback
  | selectTables
  | dropTable (table : Bytes)
  | up (version : Bytes)
  | down (version : Bytes)
  | registryAll
  | registryFind (version : Bytes)
  /-- `time.Now().Unix()`. -/
  | now

/-- A claim also tells when it ran, which no step looks at. -/
abbrev MigrateRes : MigrateOp → Type
  | .lockTableInfo => Except Bytes Bool
  | .claimLock _ _ => Except Bytes Nat × Int
  | .selectVersions | .selectBatch _ | .selectTables => Except Bytes (List Bytes)
  | .selectMaxBatch => Except Bytes (Option Int)
  | .registryAll => List Migration
  | .registryFind _ => Option Migration
  | .now => Int
  | _ => Except Bytes Unit

abbrev MigrateProg (α : Type) := Prog MigrateRes α

abbrev Migrating := MigrateProg (Except Bytes Unit)

namespace MigrateOp

def run (o : MigrateOp) : MigrateProg (MigrateRes o) := Prog.perform o

end MigrateOp

def errorf (text : String) {α : Type} (p : MigrateProg (Except Bytes α)) :
    MigrateProg (Except Bytes α) :=
  p.mapError (ascii text ++ ·)

def ensureSqliteLockedAtColumn : Migrating :=
  (errorf "velocity/orm: inspect lock table: " MigrateOp.lockTableInfo.run).andThen fun hasLockedAt =>
    if hasLockedAt then .ret (.ok ())
    else errorf "velocity/orm: add locked_at column: " MigrateOp.addLockedAt.run

def ensureLockTable : Migrating :=
  (errorf "velocity/orm: ensure lock table: " MigrateOp.createLockTable.run).andThen fun _ =>
    ensureSqliteLockedAtColumn

def seedLockRow : Migrating :=
  errorf "velocity/orm: seed lock row: " MigrateOp.seedLockRow.run

/-- The attempts left of the 600; the sleep is time before the next step. -/
def sqliteAcquireLock : Nat → Migrating
  | 0 => .ret (.error (ascii "velocity/orm: sqlite migration lock timeout after 600 attempts"))
  | attempts + 1 => do
    let now ← MigrateOp.now.run
    let staleCutoff := now - sqliteLockStaleAfter
    match (← (MigrateOp.claimLock now staleCutoff).run).1 with
    | .error e => return .error (ascii "velocity/orm: acquire lock row: " ++ e)
    | .ok rows => if rows = 1 then return .ok () else sqliteAcquireLock attempts

def acquireMigrationLock : Migrating :=
  ensureLockTable.andThen fun _ => seedLockRow.andThen fun _ => sqliteAcquireLock 600

/-- Only the outermost call takes the lock, and gives it back in any case. -/
def withMigrationLock (lockDepth : Nat) (fn : Nat → Migrating) : Migrating :=
  if lockDepth > 0 then fn (lockDepth + 1)
  else
    (errorf "velocity/orm: failed to acquire migration lock: " acquireMigrationLock).andThen fun _ => do
      let r ← fn 1
      let _ ← MigrateOp.freeLock.run
      return r

def createMigrationsTable : Migrating := MigrateOp.createMigrationsTable.run

def getAppliedMigrations : MigrateProg (Except Bytes (List Bytes)) :=
  (errorf "failed to create migrations table: " createMigrationsTable).andThen fun _ =>
    errorf "failed to query applied migrations: " MigrateOp.selectVersions.run

def getLastBatch : MigrateProg (Except Bytes Int) :=
  (errorf "failed to create migrations table: " createMigrationsTable).andThen fun _ =>
    (errorf "failed to get last batch: " MigrateOp.selectMaxBatch.run).andThen fun batch =>
      .ret (.ok (batch.getD 0))

def getMigrationsByBatch (batch : Int) : MigrateProg (Except Bytes (List Bytes)) :=
  errorf "failed to query migrations by batch: " (MigrateOp.selectBatch batch).run

def recordMigration (version : Bytes) (batch : Int) : Migrating :=
  (MigrateOp.insertMigration version batch).run.mapError
    (ascii "failed to record migration " ++ version ++ ascii ": " ++ ·)

def removeMigration (version : Bytes) : Migrating :=
  (MigrateOp.deleteMigration version).run.mapError
    (ascii "failed to remove migration " ++ version ++ ascii ": " ++ ·)

/-- In one transaction where the driver has transactional DDL. -/
def runInTx (useTx : Bool) (beginText commitText : String) (version : Bytes)
    (body bookkeeping : Migrating) : Migrating :=
  if !useTx then body.andThen fun _ => bookkeeping
  else
    (MigrateOp.begin.run.mapError
      (ascii beginText ++ version ++ ascii " tx: " ++ ·)).andThen fun _ => do
        match ← body.andThen fun _ => bookkeeping with
        | .error e =>
          let _ ← MigrateOp.rollback.run
          return .error e
        | .ok _ =>
          MigrateOp.commit.run.mapError (ascii commitText ++ version ++ ascii ": " ++ ·)

def runMigrationUp (useTx : Bool) (migration : Migration) (batch : Int) : Migrating :=
  runInTx useTx "velocity/orm: begin migration " "velocity/orm: commit migration " migration.version
    (MigrateOp.up migration.version).run (recordMigration migration.version batch)

def runMigrationDown (useTx : Bool) (version : Bytes) : Migrating :=
  runInTx useTx "velocity/orm: begin rollback " "velocity/orm: commit rollback " version
    (MigrateOp.down version).run (removeMigration version)

def eachOf {α : Type} (f : α → Migrating) :
    List α → Migrating
  | [] => .ret (.ok ())
  | a :: rest => (f a).andThen fun _ => eachOf f rest

def runUp (useTx : Bool) : Migrating :=
  createMigrationsTable.andThen fun _ => getAppliedMigrations.andThen fun appliedVersions => do
    let all ← MigrateOp.registryAll.run
    let pending := all.filter fun migration => migration.version ∉ appliedVersions
    if pending = [] then return .ok ()
    else
      getLastBatch.andThen fun lastBatch =>
        eachOf (fun migration => runMigrationUp useTx migration (lastBatch + 1)) pending

def rollBack (useTx : Bool) (version : Bytes) : Migrating := do
  match ← (MigrateOp.registryFind version).run with
  | none => return .error (ascii "migration not found: " ++ version)
  | some migration =>
    if !migration.hasDown then
      return .error (ascii "migration " ++ version ++ ascii " does not have a Down method")
    else runMigrationDown useTx version

/-- The loop of `runDown` over the batches that are left to roll back. -/
def rollBackBatches (useTx : Bool) : Nat → Int → Migrating
  | 0, _ => .ret (.ok ())
  | steps + 1, lastBatch =>
    if lastBatch > 0 then
      (getMigrationsByBatch lastBatch).andThen fun versions =>
        (eachOf (rollBack useTx) versions).andThen fun _ => rollBackBatches useTx steps (lastBatch - 1)
    else .ret (.ok ())

def runDown (useTx : Bool) (steps : Int) : Migrating :=
  let steps := if steps ≤ 0 then 1 else steps
  getLastBatch.andThen fun lastBatch =>
    if lastBatch = 0 then .ret (.ok ()) else rollBackBatches useTx steps.toNat lastBatch

def up (lockDepth : Nat) : Migrating :=
  withMigrationLock lockDepth fun _ => runUp false

def down (steps : Int) : Migrating :=
  withMigrationLock 0 fun _ => runDown false steps

/-- Drops all tables but that of the lock, and runs the migrations. -/
def fresh : Migrating :=
  withMigrationLock 0 fun lockDepth =>
    (errorf "failed to get tables: " MigrateOp.selectTables.run).andThen fun tables =>
      (eachOf (fun table =>
        (MigrateOp.dropTable table).run.mapError
          (ascii "failed to drop table " ++ table ++ ascii ": " ++ ·))
        (tables.filter (· ≠ migrationsLockTableName))).andThen fun _ => up lockDepth

inductive MigrateCall
  | up
  | down (steps : Int)
  | fresh

def MigrateCall.body : MigrateCall → Migrating
  | .up => Migrate.up 0
  | .down steps => Migrate.down steps
  | .fresh => Migrate.fresh

end Migrate
