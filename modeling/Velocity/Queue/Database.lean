import Velocity.Lib.Pool
import Velocity.Queue.Types

/-! The database queue driver. The tables are lists of rows; each statement or transaction is one
operation on them, and the driver's methods are programs over these. What the database and user code
contribute (clock readings, faults, rows locked by others, rebuilds, hooks) is in the environment. -/

namespace Velocity.Queue

open Interleave

structure JobRecord where
  id : Nat
  queue : String
  payload : JobWrapper
  attempts : Nat
  scheduledAt : Time
  reservedAt : Option Time
  reservedBy : Option String
  failedAt : Option Time
  failedReason : Option String
  createdAt : Time
  updatedAt : Time
  deriving DecidableEq, Repr

structure FailedJobRecord where
  id : Nat
  queue : String
  payload : JobWrapper
  exception : String
  createdAt : Time
  updatedAt : Time
  deriving DecidableEq, Repr

structure DedupeRow where
  dedupeKey : String
  queue : String
  deriving DecidableEq, Repr

/-- The three tables. Row ids of `jobs` start at 1 and are never reused. -/
structure Database where
  jobs : List JobRecord := []
  failedJobs : List FailedJobRecord := []
  jobDedupe : List DedupeRow := []
  nextID : Nat := 1
  nextFailedID : Nat := 1
  deriving DecidableEq, Repr

inductive Dialect
  | postgres
  | mysql
  | sqlite
  deriving DecidableEq, Repr

/-- One driver value: `workerID` is shared by every goroutine that uses it. -/
structure DatabaseDriver where
  workerID : String
  dbDriver : Dialect
  retryAfter : Duration
  deriving DecidableEq, Repr

/-- The largest value of the column `attempts`; the statement that exceeds it fails. -/
def Dialect.maxInteger : Dialect → Nat
  | .sqlite => 2 ^ 63 - 1
  | _ => 2 ^ 31 - 1

def DatabaseDriver.hasRowLocks (d : DatabaseDriver) : Bool :=
  d.dbDriver = .postgres || d.dbDriver = .mysql

inductive Stage
  | begin
  | query
  | exec
  | insert
  | commit
  deriving DecidableEq, Repr

structure Fault where
  stage : Stage
  err : BackendErr
  deriving DecidableEq, Repr

/-- `locked` are the rows other transactions hold, `poison` is the error of a failing rebuild,
`hookPanics` the panic of a Failed hook. -/
structure DbEnv where
  now : Time := 0
  fault : Option Fault := none
  locked : List Nat := []
  poison : Option Err := none
  hookPanics : Option Err := none
  deriving DecidableEq, Repr

inductive DbOp
  | insertJob (queue : String) (payload : JobWrapper) (delay : Duration)
  | claimAndInsert (dedupeKey queue : String) (payload : JobWrapper)
  | reserveNext (d : DatabaseDriver) (queue : String)
  | hydrateRecord (rec : JobRecord)
  | deleteReserved (token : ReservationToken) (op : String)
  | releaseReserved (token : ReservationToken) (delay : Duration)
  | commitFailedReservation (token : ReservationToken) (exception queue : String)
      (payload : JobWrapper)
  | quarantineReserved (token : ReservationToken) (rec : JobRecord) (queue exception : String)
  | insertFailed (queue : String) (payload : JobWrapper) (exception : String)
  | clearJobs (queue : String)
  | clearDedupe (queue : String)
  | runFailedHook (job : Job) (err : Err)
  deriving DecidableEq, Repr

@[reducible] def DbOp.Res : DbOp → Type
  | .insertJob .. => Except Err Nat
  | .claimAndInsert .. => Except Err Bool
  | .reserveNext .. => Except Err (Option (JobRecord × ReservationToken))
  | .hydrateRecord .. => Except Err Job
  | .deleteReserved .. => Except Err Unit
  | .releaseReserved .. => Except Err Unit
  | .commitFailedReservation .. => Except Err Unit
  | .quarantineReserved .. => Except Err Unit
  | .insertFailed .. => Except Err Unit
  | .clearJobs .. => Except Err Unit
  | .clearDedupe .. => Except Err Unit
  | .runFailedHook .. => Except Err Unit

/-- The fence `id = $1 AND attempts = $2 AND reserved_by = $3`. -/
def JobRecord.fencedBy (r : JobRecord) (token : ReservationToken) : Bool :=
  r.id = token.id && r.attempts = token.attempts && r.reservedBy = some token.reservedBy

/-- Due and unreserved, or with a lease expired before `cutoff`. -/
def JobRecord.poppable (r : JobRecord) (queue : String) (now cutoff : Time) : Bool :=
  r.queue = queue && r.failedAt.isNone &&
    match r.reservedAt with
    | none => r.scheduledAt ≤ now
    | some at_ => at_ < cutoff

/-- `ORDER BY scheduled_at ASC, id ASC`. -/
def JobRecord.before (r s : JobRecord) : Bool :=
  r.scheduledAt < s.scheduledAt || (r.scheduledAt = s.scheduledAt && r.id < s.id)

def firstRow : List JobRecord → Option JobRecord
  | [] => none
  | r :: rows =>
    match firstRow rows with
    | none => some r
    | some s => if s.before r then some s else some r

/-- The row `reserveNext` selects, passing over locked rows; SQLite has no row locks. -/
def Database.selectNext (db : Database) (d : DatabaseDriver) (queue : String) (now : Time)
    (locked : List Nat) : Option JobRecord :=
  firstRow (db.jobs.filter fun r =>
    r.poppable queue now (now - d.retryAfter) && !(d.hasRowLocks && locked.contains r.id))

def Database.insertRow (db : Database) (queue : String) (payload : JobWrapper)
    (scheduledAt now : Time) : Database :=
  { db with
    jobs := db.jobs ++ [{
      id := db.nextID, queue, payload, attempts := 0, scheduledAt, reservedAt := none,
      reservedBy := none, failedAt := none, failedReason := none, createdAt := now,
      updatedAt := now }]
    nextID := db.nextID + 1 }

def Database.recordFailed (db : Database) (queue : String) (payload : JobWrapper)
    (exception : String) (now : Time) : Database :=
  { db with
    failedJobs := db.failedJobs ++ [{
      id := db.nextFailedID, queue, payload, exception, createdAt := now, updatedAt := now }]
    nextFailedID := db.nextFailedID + 1 }

/-- `DELETE FROM jobs WHERE` the fence. -/
def Database.deleteFenced (db : Database) (token : ReservationToken) : Database :=
  { db with jobs := db.jobs.filter fun r => !r.fencedBy token }

def Database.assertFenced (db : Database) (token : ReservationToken) : Except Err Unit :=
  if db.jobs.any (·.fencedBy token) then .ok () else .error .leaseLost

def faultErr (msg : String) (f : Fault) : Err := .wrap msg f.err.toErr

def reserveFault (f : Fault) : Err :=
  match f.stage with
  | .begin => faultErr "velocity/queue: failed to begin transaction" f
  | .query => faultErr "velocity/queue: failed to fetch job" f
  | .exec | .insert => faultErr "velocity/queue: failed to reserve job" f
  | .commit => faultErr "velocity/queue: failed to commit pop transaction" f

def claimFault (f : Fault) : Err :=
  match f.stage with
  | .begin => faultErr "velocity/queue: PushIfNotExistsCtx begin" f
  | .query | .exec => faultErr "velocity/queue: dedupe insert" f
  | .insert => faultErr "velocity/queue: failed to insert job" f
  | .commit => faultErr "velocity/queue: PushIfNotExistsCtx commit" f

def failFault (f : Fault) : Err :=
  match f.stage with
  | .begin => faultErr "velocity/queue: failed to begin failure transaction" f
  | .query | .exec => faultErr "velocity/queue: failed to delete reserved job" f
  | .insert => faultErr "velocity/queue: failed to record failed job" f
  | .commit => faultErr "velocity/queue: failed to commit failure transaction" f

def quarantineFault (rec : JobRecord) (f : Fault) : Err :=
  match f.stage with
  | .begin => faultErr "velocity/queue: failed to begin poison-job quarantine" f
  | .query | .exec =>
    faultErr ("velocity/queue: failed to delete poison row " ++ toString rec.id) f
  | .insert =>
    faultErr ("velocity/queue: failed to record poison row " ++ toString rec.id ++ " in failed_jobs") f
  | .commit => faultErr "velocity/queue: failed to commit poison-job quarantine" f

def Database.reserveNext (db : Database) (env : DbEnv) (d : DatabaseDriver) (queue : String) :
    Except Err (Option (JobRecord × ReservationToken)) × Database :=
  match env.fault with
  | some f => (.error (reserveFault f), db)
  | none =>
    match db.selectNext d queue env.now env.locked with
    | none => (.ok none, db)
    | some rec =>
      let persistedAttempts := rec.attempts + 1
      if d.dbDriver.maxInteger < persistedAttempts then
        (.error (reserveFault ⟨.exec, .other "integer out of range"⟩), db)
      else (.ok (some (rec, ⟨rec.id, persistedAttempts, d.workerID⟩)),
        { db with jobs := db.jobs.map fun r =>
            if r.id = rec.id then
              { r with reservedAt := some env.now, reservedBy := some d.workerID,
                       attempts := persistedAttempts, updatedAt := env.now }
            else r })

/-- In one transaction; `false` when the key is already held. -/
def Database.claimAndInsert (db : Database) (env : DbEnv) (dedupeKey queue : String)
    (payload : JobWrapper) : Except Err Bool × Database :=
  match env.fault with
  | some f => (.error (claimFault f), db)
  | none =>
    if db.jobDedupe.any (·.dedupeKey = dedupeKey) then (.ok false, db)
    else
      let claimed : Database := { db with jobDedupe := db.jobDedupe ++ [⟨dedupeKey, queue⟩] }
      (.ok true, claimed.insertRow queue payload env.now env.now)

/-- In one transaction, which a fence that matches no row rolls back. -/
def Database.moveToFailed (db : Database) (token : ReservationToken) (queue : String)
    (payload : JobWrapper) (exception : String) (now : Time) : Except Err Unit × Database :=
  match db.assertFenced token with
  | .error e => (.error e, db)
  | .ok () => (.ok (), (db.deleteFenced token).recordFailed queue payload exception now)

/-- The registry is user code and may fail. -/
def hydrateRecord (registry : Registry) (env : DbEnv) (rec : JobRecord) : Except Err Job :=
  match env.poison with
  | some e => .error e
  | none =>
    match registry rec.payload.payload with
    | .ok job => .ok job
    | .error e => .error (.wrap "velocity/queue: failed to restore job from wrapper" e)

def dbExec (registry : Registry) (db : Database) (env : DbEnv) :
    (o : DbOp) → o.Res × Database
  | .insertJob queue payload delay =>
    match env.fault with
    | some f => (.error (faultErr "velocity/queue: failed to insert job" f), db)
    | none =>
      let scheduledAt := if 0 < delay then env.now + delay else env.now
      (.ok db.nextID, db.insertRow queue payload scheduledAt env.now)
  | .claimAndInsert dedupeKey queue payload => db.claimAndInsert env dedupeKey queue payload
  | .reserveNext d queue => db.reserveNext env d queue
  | .hydrateRecord rec => (Queue.hydrateRecord registry env rec, db)
  | .deleteReserved token op =>
    match env.fault with
    | some f => (.error (faultErr ("velocity/queue: failed to " ++ op ++ " job") f), db)
    | none => (db.assertFenced token, db.deleteFenced token)
  | .releaseReserved token delay =>
    match env.fault with
    | some f => (.error (faultErr "velocity/queue: failed to release job" f), db)
    | none =>
      (db.assertFenced token,
        { db with jobs := db.jobs.map fun r =>
            if r.fencedBy token then
              { r with reservedAt := none, reservedBy := none, scheduledAt := env.now + delay,
                       updatedAt := env.now }
            else r })
  | .commitFailedReservation token exception queue payload =>
    match env.fault with
    | some f => (.error (failFault f), db)
    | none => db.moveToFailed token queue payload exception env.now
  | .quarantineReserved token rec queue exception =>
    match env.fault with
    | some f => (.error (quarantineFault rec f), db)
    | none => db.moveToFailed token queue rec.payload exception env.now
  | .insertFailed queue payload exception =>
    match env.fault with
    | some f => (.error (faultErr "velocity/queue: failed to record failed job" f), db)
    | none => (.ok (), db.recordFailed queue payload exception env.now)
  | .clearJobs queue =>
    match env.fault with
    | some f => (.error (faultErr "velocity/queue: failed to clear queue" f), db)
    | none => (.ok (), { db with jobs := db.jobs.filter fun r => r.queue ≠ queue })
  | .clearDedupe queue =>
    match env.fault with
    | some f => (.error (faultErr "velocity/queue: failed to clear queue dedupe keys" f), db)
    | none => (.ok (), { db with jobDedupe := db.jobDedupe.filter fun r => r.queue ≠ queue })
  | .runFailedHook _ _ =>
    match env.hookPanics with
    | some e => (.error (.pair .failedHookPanicked e), db)
    | none => (.ok (), db)

abbrev DbProg := Prog DbOp.Res

namespace DatabaseDriver

open DbOp

variable (ctx : Option CtxErr)

def pushDelayedCtx (job : Option Job) (delay : Duration)
    (queueName : Option String) : DbProg (Except Err Unit) :=
  match ctx with
  | some e => .ret (.error e.toErr)
  | none =>
    match admitJob job queueName with
    | .error e => .ret (.error e)
    | .ok (job, name) =>
      match createJobWrapper job name with
      | .error e => .ret (.error (.wrap "velocity/queue: failed to create job wrapper" e))
      | .ok wrapper =>
        .call (insertJob name wrapper.wire delay) fun res =>
          match res with
          | .error e => .ret (.error e)
          | .ok _ => .ret (.ok ())

def pushCtx (job : Option Job) (queueName : Option String) : DbProg (Except Err Unit) :=
  pushDelayedCtx ctx job 0 queueName

def pushIfNotExistsCtx (job : Option Job) (dedupeKey : String)
    (queueName : Option String) : DbProg (Except Err Unit) :=
  if dedupeKey = "" then pushCtx ctx job queueName
  else
    match ctx with
    | some e => .ret (.error e.toErr)
    | none =>
      match admitJob job queueName with
      | .error e => .ret (.error e)
      | .ok (job, name) =>
        match createJobWrapper job name with
        | .error e => .ret (.error (.wrap "velocity/queue: failed to create job wrapper" e))
        | .ok wrapper =>
          let keyed : JobWrapper :=
            ⟨wrapper.job, { wrapper.payload with dedupeKey := dedupeKey }, dedupeKey⟩
          .call (claimAndInsert dedupeKey name keyed.wire) fun res =>
            match res with
            | .error e => .ret (.error e)
            | .ok _ => .ret (.ok ())

def quarantine (token : ReservationToken) (rec : JobRecord) (queueName : String)
    (poisonErr : Err) : DbProg Err :=
  .call (quarantineReserved token rec queueName poisonErr.message) fun res =>
    match res with
    | .ok () => .ret (.join .poisonJob poisonErr)
    | .error e => .ret (.join poisonErr e)

inductive PopMode
  | delete
  | reserve
  deriving DecidableEq, Repr

def popSelect (d : DatabaseDriver) (ctx : Option CtxErr) (queueName : String) (mode : PopMode) :
    DbProg (Except Err (Option (Job × ReservationToken))) :=
  match ctx with
  | some e => .ret (.error e.toErr)
  | none =>
    .call (reserveNext d queueName) fun reserved =>
      match reserved with
      | .error e => .ret (.error e)
      | .ok none => .ret (.ok none)
      | .ok (some (rec, token)) =>
        .call (DbOp.hydrateRecord rec) fun rebuilt =>
          match rebuilt with
          | .error poisonErr => do
            let err ← quarantine token rec queueName poisonErr
            return .error err
          | .ok job =>
            match mode with
            | .delete =>
              .call (deleteReserved token "pop") fun res =>
                match res with
                | .error e => .ret (.error e)
                | .ok () => .ret (.ok (some (job, .zero)))
            | .reserve => .ret (.ok (some (job, token)))

def popCtxReserved (d : DatabaseDriver) (ctx : Option CtxErr) (queueName : String) :
    DbProg (Except Err (Option (Job × ReservationToken))) :=
  d.popSelect ctx queueName .reserve

def popCtx (d : DatabaseDriver) (ctx : Option CtxErr) (queueName : String) :
    DbProg (Except Err (Option (Job × ReservationToken))) :=
  d.popSelect ctx queueName .delete

def ackCtx (token : ReservationToken) : DbProg (Except Err Unit) :=
  if token.isZero then .ret (.ok ())
  else
    match ctx with
    | some e => .ret (.error e.toErr)
    | none => .perform (DbOp.deleteReserved token "ack")

def releaseCtx (token : ReservationToken) (delay : Duration) : DbProg (Except Err Unit) :=
  if token.isZero then .ret (.ok ())
  else
    match ctx with
    | some e => .ret (.error e.toErr)
    | none => .perform (DbOp.releaseReserved token (if delay < 0 then 0 else delay))

def failedCtx (job : Job) (err : Err) (queueName : String) : DbProg (Except Err Unit) :=
  match createJobWrapper job queueName with
  | .error e => .ret (.error (.wrap "velocity/queue: failed to create job wrapper" e))
  | .ok wrapper =>
    .call (insertFailed queueName wrapper.wire err.message) fun res =>
      match res with
      | .error e => .ret (.error e)
      | .ok () => .perform (runFailedHook job err)

def failReservedCtx (token : ReservationToken) (job : Job) (jobErr : Err)
    (queueName : String) : DbProg (Except Err Unit) :=
  match ctx with
  | some e => .ret (.error e.toErr)
  | none =>
    if token.isZero then failedCtx job jobErr queueName
    else
      match createJobWrapper job queueName with
      | .error e => .ret (.error (.wrap "velocity/queue: failed to create job wrapper" e))
      | .ok wrapper =>
        .call (commitFailedReservation token jobErr.message queueName wrapper.wire) fun res =>
          match res with
          | .error e => .ret (.error e)
          | .ok () => .perform (runFailedHook job jobErr)

/-- Two autocommit statements; a missing job_dedupe table counts as cleared. -/
def clear (dedupeTable : Bool) (queueName : String) : DbProg (Except Err Unit) :=
  .call (clearJobs queueName) fun res =>
    match res with
    | .error e => .ret (.error e)
    | .ok () =>
      if dedupeTable then .perform (clearDedupe queueName) else .ret (.ok ())

end DatabaseDriver

inductive DbCall
  | pushCtx (ctx : Option CtxErr) (job : Option Job) (queueName : Option String)
  | pushDelayedCtx (ctx : Option CtxErr) (job : Option Job) (delay : Duration)
      (queueName : Option String)
  | pushIfNotExistsCtx (ctx : Option CtxErr) (job : Option Job) (dedupeKey : String)
      (queueName : Option String)
  | popCtxReserved (d : DatabaseDriver) (ctx : Option CtxErr) (queueName : String)
  | popCtx (d : DatabaseDriver) (ctx : Option CtxErr) (queueName : String)
  | ackCtx (ctx : Option CtxErr) (token : ReservationToken)
  | releaseCtx (ctx : Option CtxErr) (token : ReservationToken) (delay : Duration)
  | failReservedCtx (ctx : Option CtxErr) (token : ReservationToken) (job : Job) (jobErr : Err)
      (queueName : String)
  | failedCtx (job : Job) (err : Err) (queueName : String)
  | clear (dedupeTable : Bool) (queueName : String)

abbrev DbAnswer := Except Err (Option (Job × ReservationToken))

def DbCall.plain (p : DbProg (Except Err Unit)) : DbProg DbAnswer :=
  p >>= fun r => .ret (r.map fun _ => none)

def DbCall.body : DbCall → DbProg DbAnswer
  | .pushCtx ctx job q => plain (DatabaseDriver.pushCtx ctx job q)
  | .pushDelayedCtx ctx job delay q => plain (DatabaseDriver.pushDelayedCtx ctx job delay q)
  | .pushIfNotExistsCtx ctx job key q => plain (DatabaseDriver.pushIfNotExistsCtx ctx job key q)
  | .popCtxReserved d ctx q => d.popCtxReserved ctx q
  | .popCtx d ctx q => d.popCtx ctx q
  | .ackCtx ctx token => plain (DatabaseDriver.ackCtx ctx token)
  | .releaseCtx ctx token delay => plain (DatabaseDriver.releaseCtx ctx token delay)
  | .failReservedCtx ctx token job e q => plain (DatabaseDriver.failReservedCtx ctx token job e q)
  | .failedCtx job e q => plain (DatabaseDriver.failedCtx job e q)
  | .clear dedupeTable q => plain (DatabaseDriver.clear dedupeTable q)

def databaseSystem (registry : Registry) : System DbOp.Res Database DbEnv DbCall DbAnswer where
  body := DbCall.body
  exec := dbExec registry

end Velocity.Queue
