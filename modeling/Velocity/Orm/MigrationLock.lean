import Velocity.Lib.Linear
import Velocity.Orm.Migrator

/-! Migrators in separate processes on one SQLite database. The lock is a row that a migrator claims when
it is free or has been held for too long, and writes back when it is done. -/

namespace Migrate

open Interleave MigrateCall Prog

/-- The row is `locked` and `locked_at`, which a table of an older release lacks. -/
structure LockTable where
  hasLockedAt : Bool
  row : Option (Bool × Int)

/-- The clock counts nanoseconds. -/
structure LockWorld where
  clock : Int
  lock : Option LockTable

/-- The time before a step, whether a statement fails, and what the lock table does not decide. -/
structure LockEnv where
  elapsed : Nat
  fails : Option Bytes
  answer : (o : MigrateOp) → MigrateRes o

def unix (clock : Int) : Int := clock / 10 ^ 9

namespace LockTable

def seeded (t : LockTable) : LockTable := { t with row := some (t.row.getD (false, 0)) }

def withLockedAt (t : LockTable) : LockTable := ⟨true, t.row.map fun r => (r.1, 0)⟩

/-- The claim is made on a row that is free or stale. -/
def claimable (t : LockTable) (staleCutoff : Int) : Bool :=
  t.row.any fun r => !r.1 || r.2 < staleCutoff

def claimed (t : LockTable) (now : Int) : LockTable := { t with row := some (true, now) }

/-- The row is written back whoever claimed it. -/
def freed (t : LockTable) : LockTable := { t with row := t.row.map fun _ => (false, 0) }

end LockTable

namespace LockWorld

variable (w : LockWorld)

def noSuchTable : Bytes := Bytes.ascii "no such table: migrations_lock"

def noSuchColumn : Bytes := Bytes.ascii "no such column: locked_at"

def onTable (f : LockTable → Except Bytes LockTable) : Except Bytes Unit × LockWorld :=
  match w.lock with
  | none => (.error noSuchTable, w)
  | some t =>
    match f t with
    | .error e => (.error e, w)
    | .ok t' => (.ok (), { w with lock := some t' })

def claimLock (now staleCutoff : Int) : Except Bytes Nat × LockWorld :=
  match w.lock with
  | none => (.error noSuchTable, w)
  | some t =>
    if !t.hasLockedAt then (.error noSuchColumn, w)
    else if t.claimable staleCutoff then (.ok 1, { w with lock := some (t.claimed now) })
    else (.ok 0, w)

def statement (e : LockEnv) : (o : MigrateOp) → MigrateRes o × LockWorld
  | .createLockTable => (.ok (), { w with lock := some (w.lock.getD ⟨true, none⟩) })
  | .lockTableInfo => (.ok (w.lock.any LockTable.hasLockedAt), w)
  | .addLockedAt => w.onTable fun t =>
      if t.hasLockedAt then .error (Bytes.ascii "duplicate column name: locked_at")
      else .ok t.withLockedAt
  | .seedLockRow => w.onTable fun t => .ok t.seeded
  | .claimLock now staleCutoff =>
    (((w.claimLock now staleCutoff).1, w.clock), (w.claimLock now staleCutoff).2)
  | .freeLock => w.onTable fun t => if t.hasLockedAt then .ok t.freed else .error noSuchColumn
  | .dropTable table =>
    (.ok (), if table = migrationsLockTableName then { w with lock := none } else w)
  | .now => (unix w.clock, w)
  | o => (e.answer o, w)

/-- A statement that fails has changed nothing. -/
def failed (e : LockEnv) (err : Bytes) : (o : MigrateOp) → MigrateRes o × LockWorld
  | .createLockTable | .addLockedAt | .seedLockRow | .freeLock | .dropTable _ => (.error err, w)
  | .lockTableInfo => (.error err, w)
  | .claimLock _ _ => ((.error err, w.clock), w)
  | .now => (unix w.clock, w)
  | o => (e.answer o, w)

def exec (e : LockEnv) (o : MigrateOp) : MigrateRes o × LockWorld :=
  let w := { w with clock := w.clock + e.elapsed }
  match e.fails with
  | none => w.statement e o
  | some err => w.failed e err o

end LockWorld

def migrators : System MigrateRes LockWorld LockEnv MigrateCall (Except Bytes Unit) :=
  ⟨MigrateCall.body, LockWorld.exec⟩

inductive Stage
  | before
  | inside (since : Int)
  | after
deriving DecidableEq

namespace Stage

def next : Stage → (o : MigrateOp) → MigrateRes o → Stage
  | .before, .claimLock _ _, (.ok rows, t) => if rows = 1 then .inside t else .before
  | .inside _, .freeLock, _ => .after
  | s, _, _ => s

def may : Stage → MigrateOp → Prop
  | s, .claimLock now staleCutoff => s = .before ∧ staleCutoff = now - sqliteLockStaleAfter
  | s, .freeLock => ∃ t, s = .inside t
  | _, .dropTable table => table ≠ migrationsLockTableName
  | _, _ => True

end Stage

def staging : Monitor MigrateRes where
  State := Stage
  init := .before
  allowed _ _ := True
  guard s o _ := s.may o
  next := Stage.next

def Neutral : MigrateOp → Prop
  | .claimLock _ _ | .freeLock => False
  | .dropTable table => table ≠ migrationsLockTableName
  | _ => True

theorem neutral_stage {o : MigrateOp} (h : Neutral o) (s : Stage) (r : MigrateRes o) :
    s.may o ∧ s.next o r = s := by
  cases o with
  | claimLock now cutoff => exact h.elim
  | freeLock => exact h.elim
  | dropTable table => exact ⟨h, by cases s <;> rfl⟩
  | _ => exact ⟨trivial, by cases s <;> rfl⟩

section Bodies

theorem neutral_run {o : MigrateOp} (h : Neutral o) : o.run.All Neutral := ⟨h, fun _ => trivial⟩

theorem neutral_eachOf {α : Type} {f : α → Migrating} {l : List α}
    (h : ∀ a ∈ l, (f a).All Neutral) : (eachOf f l).All Neutral := by
  induction l with
  | nil => exact trivial
  | cons a rest ih =>
    refine Prog.All.andThen (h a List.mem_cons_self) fun _ => ?_
    exact ih fun b hb => h b (List.mem_cons_of_mem _ hb)

theorem neutral_getLastBatch : getLastBatch.All Neutral := by
  refine ((neutral_run (by trivial)).mapError _).andThen fun _ => ?_
  exact ((neutral_run (by trivial)).mapError _).andThen fun _ => trivial

variable (useTx : Bool)

theorem neutral_runInTx (beginText commitText : String) (version : Bytes)
    {body bookkeeping : Migrating} (hbody : body.All Neutral) (hbook : bookkeeping.All Neutral) :
    (runInTx useTx beginText commitText version body bookkeeping).All Neutral := by
  have hboth := hbody.andThen fun _ => hbook
  cases useTx with
  | false => exact hboth
  | true =>
    refine ((neutral_run (by trivial)).mapError _).andThen fun _ => hboth.bind fun r => ?_
    cases r with
    | error e => exact ⟨trivial, fun _ => trivial⟩
    | ok u => exact (neutral_run (by trivial)).mapError _

theorem neutral_runUp : (runUp useTx).All Neutral := by
  refine (neutral_run (by trivial)).andThen fun _ => Prog.All.andThen ?_ fun applied => ?_
  · exact ((neutral_run (by trivial)).mapError _).andThen fun _ => (neutral_run (by trivial)).mapError _
  · refine ⟨trivial, fun all => ?_⟩
    show (if _ then _ else _ : MigrateProg _).All Neutral
    split
    · exact trivial
    · refine neutral_getLastBatch.andThen fun lastBatch => neutral_eachOf fun migration _ => ?_
      exact neutral_runInTx useTx _ _ _ (neutral_run (by trivial))
        ((neutral_run (by trivial)).mapError _)

theorem neutral_rollBack (version : Bytes) : (rollBack useTx version).All Neutral := by
  refine ⟨trivial, fun found => ?_⟩
  cases found with
  | none => exact trivial
  | some migration =>
    show (if _ then _ else _ : MigrateProg _).All Neutral
    split
    · exact trivial
    · exact neutral_runInTx useTx _ _ _ (neutral_run (by trivial))
        ((neutral_run (by trivial)).mapError _)

theorem neutral_rollBackBatches (steps : Nat) (lastBatch : Int) :
    (rollBackBatches useTx steps lastBatch).All Neutral := by
  induction steps generalizing lastBatch with
  | zero => exact trivial
  | succ steps ih =>
    rw [rollBackBatches]
    split
    · refine ((neutral_run (by trivial)).mapError _).andThen fun versions => ?_
      exact (neutral_eachOf fun version _ => neutral_rollBack useTx version).andThen fun _ => ih _
    · exact trivial

theorem neutral_runDown (steps : Int) : (runDown useTx steps).All Neutral := by
  refine neutral_getLastBatch.andThen fun lastBatch => ?_
  split
  · exact trivial
  · exact neutral_rollBackBatches useTx _ lastBatch

/-- Whether a claim that returns has brought the migrator inside. -/
def Claims {α : Type} (r : Except Bytes α) (s : Stage) : Prop :=
  match r with
  | .ok _ => ∃ t, s = .inside t
  | .error _ => s = .before

theorem wp_of_neutral {α : Type} {p : MigrateProg α} (hp : p.All Neutral) (s : Stage) :
    p.wp staging s fun _ s' => s' = s :=
  Prog.wp_of_neutral staging (hp.mono fun _ => neutral_stage) s

theorem sqliteAcquireLock_staging (attempts : Nat) :
    (sqliteAcquireLock attempts).wp staging Stage.before Claims := by
  induction attempts with
  | zero => exact rfl
  | succ attempts ih =>
    intro now _
    refine ⟨trivial, ?_⟩
    intro r _
    refine ⟨⟨rfl, rfl⟩, ?_⟩
    obtain ⟨e | rows, t⟩ := r
    · exact rfl
    · show (if rows = 1 then _ else _ : MigrateProg _).wp staging _ _
      by_cases hrows : rows = 1
      · subst hrows
        exact ⟨t, rfl⟩
      · rw [if_neg hrows]
        have hsame : Stage.next .before (.claimLock now (now - sqliteLockStaleAfter)) (.ok rows, t) =
            .before := if_neg hrows
        show (sqliteAcquireLock attempts).wp staging
          (Stage.next .before (.claimLock now (now - sqliteLockStaleAfter)) (.ok rows, t)) Claims
        rw [hsame]
        exact ih

theorem acquireMigrationLock_staging : acquireMigrationLock.wp staging Stage.before Claims := by
  have htable : ensureLockTable.All Neutral := by
    refine ((neutral_run (by trivial)).mapError _).andThen fun _ => ?_
    refine ((neutral_run (by trivial)).mapError _).andThen fun hasLockedAt => ?_
    cases hasLockedAt with
    | true => exact trivial
    | false => exact (neutral_run (by trivial)).mapError _
  refine wp_andThen (wp_of_neutral htable _) ?_ fun e m hm => hm
  rintro _ _ rfl
  refine wp_andThen (wp_of_neutral ((neutral_run (by trivial)).mapError _) _) ?_ fun e m hm => hm
  rintro _ _ rfl
  exact sqliteAcquireLock_staging 600

theorem withMigrationLock_staging {fn : Nat → Migrating}
    (h : (fn 1).All Neutral) : (withMigrationLock 0 fn).wp staging Stage.before fun _ _ => True := by
  refine wp_andThen
    (wp_mapError acquireMigrationLock_staging (fun _ _ ha => ha) fun _ _ ha => ha) ?_
    fun _ _ _ => trivial
  rintro _ m ⟨t, rfl⟩
  refine wp_bind_of (wp_of_neutral h _) ?_
  rintro r _ rfl
  exact fun _ _ => ⟨⟨t, rfl⟩, trivial⟩

theorem neutral_drop (tables : List Bytes) :
    (eachOf (fun table => (MigrateOp.dropTable table).run.mapError
      (Bytes.ascii "failed to drop table " ++ table ++ Bytes.ascii ": " ++ ·))
      (tables.filter (· ≠ migrationsLockTableName))).All Neutral := by
  refine neutral_eachOf fun table htable => ?_
  have hother : table ≠ migrationsLockTableName := by simpa using (List.mem_filter.mp htable).2
  exact (neutral_run (o := .dropTable table) hother).mapError _

theorem body_staging (c : MigrateCall) : c.body.wp staging Stage.before fun _ _ => True := by
  cases c with
  | up =>
    rw [body]
    exact withMigrationLock_staging (neutral_runUp false)
  | down steps =>
    rw [body]
    exact withMigrationLock_staging (neutral_runDown false steps)
  | fresh =>
    rw [body]
    apply withMigrationLock_staging
    refine ((neutral_run (by trivial)).mapError _).andThen fun tables => ?_
    exact (neutral_drop tables).andThen fun _ => neutral_runUp false

end Bodies

section Exclusion

def stageOf (l : Log MigrateRes) (i : Nat) : Stage := staging.stateOf l i

theorem stageOf_concat (l : Log MigrateRes) (ev : Event MigrateRes) (i : Nat) :
    stageOf (l ++ [ev]) i = if ev.tid = i then (stageOf l i).next ev.op ev.res else stageOf l i :=
  staging.stateOf_concat l ev i

def claims : Event MigrateRes → Bool
  | ⟨_, .claimLock _ _, (.ok rows, _)⟩ => rows = 1
  | _ => false

def lastClaimer (l : Log MigrateRes) : Option Nat :=
  l.foldl (fun last ev => if claims ev then some ev.tid else last) none

theorem lastClaimer_concat (l : Log MigrateRes) (ev : Event MigrateRes) :
    lastClaimer (l ++ [ev]) = if claims ev then some ev.tid else lastClaimer l := by
  simp [lastClaimer]

/-- Freed by the migrator that claimed last, and claimed in the second of its date. -/
def orderly (before : Log MigrateRes) : Event MigrateRes → Bool
  | ⟨i, .freeLock, _⟩ => lastClaimer before = some i
  | ⟨_, .claimLock now _, (_, clock)⟩ => now = unix clock
  | _ => true

def Orderly (l : Log MigrateRes) : Prop := EachAfter (fun pre ev => orderly pre ev = true) l

def Holds (p : Pool MigrateRes LockWorld MigrateCall (Except Bytes Unit)) (i : Nat) : Prop :=
  ∃ since, stageOf p.log i = .inside since ∧ p.world.clock - since < sqliteLockStaleAfter * 10 ^ 9

def LockWorld.HeldSince (w : LockWorld) (since : Int) : Prop :=
  w.lock = some ⟨true, some (true, unix since)⟩

theorem unix_le {since clock : Int} (h : clock - since < sqliteLockStaleAfter * 10 ^ 9) :
    unix clock - sqliteLockStaleAfter ≤ unix since := by
  unfold unix sqliteLockStaleAfter at *
  omega

open LockWorld

theorem clock_onTable (w : LockWorld) (f : LockTable → Except Bytes LockTable) :
    (w.onTable f).2.clock = w.clock := by
  unfold onTable
  split
  · rfl
  · split <;> rfl

theorem clock_exec (w : LockWorld) (e : LockEnv) (o : MigrateOp) :
    (w.exec e o).2.clock = w.clock + e.elapsed := by
  unfold exec
  cases e.fails with
  | some err => cases o <;> rfl
  | none =>
    cases o with
    | addLockedAt | seedLockRow | freeLock => exact clock_onTable _ _
    | claimLock now cutoff =>
      simp only [statement, claimLock]
      split
      · rfl
      · split
        · rfl
        · split <;> rfl
    | dropTable table =>
      simp only [statement]
      split <;> rfl
    | _ => rfl

variable {w : LockWorld} {o : MigrateOp} {l : Log MigrateRes}

theorem heldSince_exec {since : Int} (h : w.HeldSince since)
    (ho : Neutral o) (e : LockEnv) : (w.exec e o).2.HeldSince since := by
  unfold LockWorld.HeldSince at h
  unfold LockWorld.HeldSince exec
  cases e.fails with
  | some err => cases o <;> exact h
  | none =>
    cases o with
    | claimLock now cutoff => exact ho.elim
    | freeLock => exact ho.elim
    | dropTable table => simpa only [statement, if_neg ho] using h
    | createLockTable => simp [statement, h]
    | addLockedAt => simp [statement, onTable, h]
    | seedLockRow => simp [statement, onTable, LockTable.seeded, h]
    | _ => exact h

theorem claim_cases (w : LockWorld) (e : LockEnv) (now cutoff : Int) :
    let out := w.exec e (.claimLock now cutoff)
    (out.2.lock = w.lock ∧ out.1.1 ≠ .ok 1) ∨
    (out.1 = (.ok 1, w.clock + e.elapsed) ∧ (∃ t, w.lock = some t ∧ t.claimable cutoff = true) ∧
      out.2.lock = some ⟨true, some (true, now)⟩) := by
  unfold exec
  cases e.fails with
  | some err => exact .inl ⟨rfl, fun h => nomatch h⟩
  | none =>
    simp only [statement, claimLock]
    cases hlock : w.lock with
    | none => exact .inl ⟨rfl, fun h => nomatch h⟩
    | some t =>
      obtain ⟨hasLockedAt, row⟩ := t
      cases hasLockedAt with
      | false => exact .inl ⟨rfl, fun h => nomatch h⟩
      | true =>
        cases hfree : (⟨true, row⟩ : LockTable).claimable cutoff with
        | false => exact .inl (by simp [hfree])
        | true => exact .inr (by simp [hfree, LockTable.claimed])

/-- Whoever is inside for less than the limit claimed last, and the row has that date. -/
def Kept (w : LockWorld) (l : Log MigrateRes) : Prop :=
  ∀ i since, stageOf l i = .inside since → w.clock - since < sqliteLockStaleAfter * 10 ^ 9 →
    lastClaimer l = some i ∧ w.HeldSince since

theorem kept_neutral (h : Kept w l)
    (ho : Neutral o) (i : Nat) (e : LockEnv) : Kept (w.exec e o).2 (l ++ [⟨i, o, (w.exec e o).1⟩]) := by
  intro j since hj hclock
  have hstage : stageOf (l ++ [⟨i, o, (w.exec e o).1⟩]) j = stageOf l j := by
    rw [stageOf_concat]
    split
    · exact (neutral_stage ho _ _).2
    · rfl
  have hno : claims ⟨i, o, (w.exec e o).1⟩ = false := by
    cases o with
    | claimLock now cutoff => exact ho.elim
    | _ => rfl
  rw [hstage] at hj
  rw [clock_exec] at hclock
  obtain ⟨hlast, hheld⟩ := h j since hj (by omega)
  rw [lastClaimer_concat, hno]
  exact ⟨hlast, heldSince_exec hheld ho e⟩

/-- A claim that changes no row. -/
theorem unclaimed (i : Nat) (now cutoff : Int) {r : Except Bytes Nat × Int} (h : r.1 ≠ .ok 1) :
    Stage.next .before (.claimLock now cutoff) r = .before ∧
      claims ⟨i, .claimLock now cutoff, r⟩ = false := by
  obtain ⟨e | rows, t⟩ := r
  · exact ⟨rfl, rfl⟩
  · have hrows : rows ≠ 1 := fun hrows => h (by rw [hrows])
    exact ⟨if_neg hrows, decide_eq_false hrows⟩

theorem kept_step (h : Kept w l) {i : Nat} {e : LockEnv}
    (hmay : (stageOf l i).may o) (hord : orderly l ⟨i, o, (w.exec e o).1⟩ = true) :
    Kept (w.exec e o).2 (l ++ [⟨i, o, (w.exec e o).1⟩]) := by
  cases o with
  | freeLock =>
    have hlast : lastClaimer l = some i := by simpa [orderly] using hord
    intro j since hj hclock
    rw [stageOf_concat] at hj
    rw [clock_exec] at hclock
    split at hj
    case isTrue hij =>
      obtain ⟨t, ht⟩ := hmay
      obtain rfl : i = j := hij
      rw [ht] at hj
      cases hj
    case isFalse hij =>
      have hother := (h j since hj (by omega)).1
      rw [hlast] at hother
      exact absurd (Option.some.inj hother) hij
  | claimLock now cutoff =>
    obtain ⟨hbefore, rfl⟩ : stageOf l i = .before ∧ cutoff = now - sqliteLockStaleAfter := hmay
    intro j since hj hclock
    rw [clock_exec] at hclock
    rw [stageOf_concat] at hj
    rw [lastClaimer_concat]
    rcases claim_cases w e now (now - sqliteLockStaleAfter) with
      ⟨hlock, hno⟩ | ⟨hres, ⟨t, ht, hfree⟩, hlock⟩
    · obtain ⟨hstage, hclaims⟩ := unclaimed i now (now - sqliteLockStaleAfter) hno
      rw [hclaims]
      by_cases hij : i = j
      · rw [if_pos hij, ← hij, hbefore, hstage] at hj
        cases hj
      · rw [if_neg hij] at hj
        obtain ⟨hlast, hheld⟩ := h j since hj (by omega)
        exact ⟨hlast, hlock.trans hheld⟩
    · simp only [hres] at hj hord ⊢
      have hnow : now = unix (w.clock + e.elapsed) := by simpa [orderly] using hord
      by_cases hij : i = j
      · rw [if_pos hij, ← hij, hbefore] at hj
        obtain rfl : w.clock + e.elapsed = since := Stage.inside.inj hj
        exact ⟨by simp [claims, hij], by rw [LockWorld.HeldSince, hlock, hnow]⟩
      · rw [if_neg hij] at hj
        -- The row is dated with a claim that is not stale yet, so this one does not succeed.
        have hheld := (h j since hj (by omega)).2
        rw [LockWorld.HeldSince, ht, Option.some.injEq] at hheld
        have hfresh := unix_le hclock
        have hstale : unix since < now - sqliteLockStaleAfter := by
          simpa [hheld, LockTable.claimable] using hfree
        omega
  | dropTable table => exact kept_neutral (o := .dropTable table) h hmay i e
  | _ => exact kept_neutral h (by trivial) i e

/-- Where every lock is freed by the migrator that claimed it last, and every claim is made in the
second of its date, two migrators are never inside for less than the limit. -/
theorem migration_lock_excludes {w : LockWorld} {acts : List (Act LockEnv MigrateCall)}
    (h : Orderly (migrators.run (.start w) acts).log) :
    ∀ i j, Holds (migrators.run (.start w) acts) i →
      Holds (migrators.run (.start w) acts) j → i = j := by
  have hkept := migrators.invariant staging (I := fun w l => Orderly l → Kept w l)
    body_staging (fun _ i since hi => nomatch hi) (fun _ _ _ _ _ => trivial) ?_ acts h
  · rintro i j ⟨since, hi, hsince⟩ ⟨since', hj, hsince'⟩
    have hlast := (hkept i since hi hsince).1
    rw [(hkept j since' hj hsince').1] at hlast
    exact (Option.some.inj hlast).symm
  · intro w l i e o hkept hmay hord
    obtain ⟨hbefore, hnow⟩ := eachAfter_concat.mp hord
    exact kept_step (hkept hbefore) hmay hnow

end Exclusion

namespace Takeover

def answers : (o : MigrateOp) → MigrateRes o
  | .lockTableInfo => .ok true
  | .claimLock _ _ => (.ok 0, 0)
  | .selectVersions | .selectBatch _ | .selectTables => .ok []
  | .selectMaxBatch => .ok none
  | .registryAll => []
  | .registryFind _ => none
  | .now => 0
  | .createLockTable | .addLockedAt | .seedLockRow | .freeLock | .createMigrationsTable
  | .insertMigration _ _ | .deleteMigration _ | .begin | .commit | .rollback | .dropTable _
  | .up _ | .down _ => .ok ()

/-- Some seconds pass, then a migrator takes five steps. -/
def five (migrator seconds : Nat) : List (Act LockEnv MigrateCall) :=
  .run migrator ⟨seconds * 10 ^ 9, none, answers⟩ ::
    List.replicate 4 (.run migrator ⟨0, none, answers⟩)

def start (calls : Nat) (steps : List (List (Act LockEnv MigrateCall))) :
    Pool MigrateRes LockWorld MigrateCall (Except Bytes Unit) :=
  migrators.run (.start ⟨0, none⟩) (List.replicate calls (.spawn .up) ++ steps.flatten)

/-- The first migrator dies inside; the second finds the lock held, and takes it over once it is
stale. -/
def takenOver : Pool MigrateRes LockWorld MigrateCall (Except Bytes Unit) :=
  start 2 [five 0 0, five 1 30, [.crash 0], five 1 601]

set_option maxRecDepth 8000 in
theorem migration_lock_in_turn : Orderly takenOver.log ∧ Holds takenOver 1 ∧
    ∀ i j, Holds takenOver i → Holds takenOver j → i = j := by
  have h : Orderly takenOver.log := by
    unfold Orderly
    decide
  exact ⟨h, ⟨631 * 10 ^ 9, by rfl, by decide⟩, migration_lock_excludes h⟩

set_option maxRecDepth 4000 in
/-- The first migrator's lock is taken over after ten minutes; what it frees then is the lock of the
second, and the third comes in. -/
theorem late_release_frees_taker :
    Holds (start 3 [five 0 0, five 1 601, five 0 0, five 2 0]) 1 ∧
      Holds (start 3 [five 0 0, five 1 601, five 0 0, five 2 0]) 2 :=
  ⟨⟨601 * 10 ^ 9, by rfl, by decide⟩, ⟨601 * 10 ^ 9, by rfl, by decide⟩⟩

end Takeover

end Migrate
