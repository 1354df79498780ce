import Velocity.Lib.SetList
import Velocity.Queue.BatchRepository
import Velocity.Queue.Database

/-! The database batch repository: a row of `job_batches` for each batch, its counters moved
by one UPDATE and the terminal state claimed by a second one in the same transaction. -/

namespace Velocity.Queue

open SetList

inductive BatchCol
  | id
  | totalJobs
  | pendingJobs
  | completedJobs
  | failedJobs
  | allowFailures
  | queue
  | thenCallback
  | catchCallback
  | finallyCallback
  | cancelledAt
  | completedAt
  | lastError
  | updatedAt
  deriving DecidableEq, Repr

@[reducible] def BatchCol.Val : BatchCol → Type
  | .id => BatchID
  | .totalJobs => Nat
  | .pendingJobs => Int
  | .completedJobs => Int
  | .failedJobs => Int
  | .allowFailures => Bool
  | .queue => String
  | .thenCallback => Option String
  | .catchCallback => Option String
  | .finallyCallback => Option String
  | .cancelledAt => Option Time
  | .completedAt => Option Time
  | .lastError => Option String
  | .updatedAt => Time

instance : (c : BatchCol) → DecidableEq c.Val
  | .id => inferInstanceAs (DecidableEq String)
  | .totalJobs => inferInstanceAs (DecidableEq Nat)
  | .pendingJobs => inferInstanceAs (DecidableEq Int)
  | .completedJobs => inferInstanceAs (DecidableEq Int)
  | .failedJobs => inferInstanceAs (DecidableEq Int)
  | .allowFailures => inferInstanceAs (DecidableEq Bool)
  | .queue => inferInstanceAs (DecidableEq String)
  | .thenCallback => inferInstanceAs (DecidableEq (Option String))
  | .catchCallback => inferInstanceAs (DecidableEq (Option String))
  | .finallyCallback => inferInstanceAs (DecidableEq (Option String))
  | .cancelledAt => inferInstanceAs (DecidableEq (Option Int))
  | .completedAt => inferInstanceAs (DecidableEq (Option Int))
  | .lastError => inferInstanceAs (DecidableEq (Option String))
  | .updatedAt => inferInstanceAs (DecidableEq Int)

abbrev BatchRow := Row BatchCol.Val

def BatchCol.all : List BatchCol :=
  [.id, .totalJobs, .pendingJobs, .completedJobs, .failedJobs, .allowFailures, .queue,
    .thenCallback, .catchCallback, .finallyCallback, .cancelledAt, .completedAt, .lastError,
    .updatedAt]

def pendingPositive : Expr BatchCol.Val Bool :=
  .app (fun n m : Int => decide (n > m)) (.col BatchCol.pendingJobs) (.const 0)

/-- `c = CASE WHEN pending_jobs > 0 THEN x ELSE c END`. -/
def whenPending (c : BatchCol) (x : Expr BatchCol.Val c.Val) : Assignment BatchCol.Val :=
  ⟨c, .caseWhen pendingPositive x (.col c)⟩

/-- The SET list; the WHERE clause picks the row. -/
def buildIncrementUpdate (success failure : Bool) (errText : Option String) (now : Time) :
    List (Assignment BatchCol.Val) :=
  (if success then
    [whenPending .completedJobs (.app (fun n m : Int => n + m) (.col BatchCol.completedJobs) (.const 1))]
  else []) ++
  (if failure then
    whenPending .failedJobs (.app (fun n m : Int => n + m) (.col BatchCol.failedJobs) (.const 1)) ::
      (match errText with
      | some text => [whenPending .lastError (.const (some text))]
      | none => [])
  else []) ++
  -- Last of the counters: MySQL evaluates the list from left to right.
  [whenPending .pendingJobs (.app (fun n m : Int => n - m) (.col BatchCol.pendingJobs) (.const 1)),
    ⟨.updatedAt, .const now⟩]

def Dialect.assign (d : Dialect) (set : List (Assignment BatchCol.Val)) (row : BatchRow) :
    BatchRow :=
  match d with
  | .mysql => leftToRight set row
  | .postgres => preUpdate set row
  | .sqlite => preUpdate set row

/-- MySQL counts changed rows, the others matched ones. -/
def Dialect.rowsAffected (d : Dialect) (old new : BatchRow) : Nat :=
  if d = .mysql && BatchCol.all.all fun c => old c = new c then 0 else 1

def Dialect.completionCAS (d : Dialect) (now : Time) (row : BatchRow) : Nat × BatchRow :=
  if row .pendingJobs = 0 ∧ row .completedAt = none then
    let new := d.assign [⟨.completedAt, .const (some now)⟩, ⟨.updatedAt, .const now⟩] row
    (d.rowsAffected row new, new)
  else (0, row)

def scanBatchRow (row : BatchRow) : Batch where
  id := row .id
  totalJobs := row .totalJobs
  pendingJobs := row .pendingJobs
  completedJobs := row .completedJobs
  failedJobs := row .failedJobs
  allowFailures := row .allowFailures
  cancelled := (row .cancelledAt).isSome
  finished := (row .completedAt).isSome
  finishedAt := row .completedAt
  queue := row .queue
  lastError := (row .lastError).getD ""
  thenName := (row .thenCallback).getD ""
  catchName := (row .catchCallback).getD ""
  finallyName := (row .finallyCallback).getD ""

def nullableString (s : String) : Option String := if s = "" then none else some s

def insertedRow (b : Batch) (now : Time) : BatchRow
  | .id => b.id
  | .totalJobs => b.totalJobs
  | .pendingJobs => b.pendingJobs
  | .completedJobs => (0 : Int)
  | .failedJobs => (0 : Int)
  | .allowFailures => b.allowFailures
  | .queue => b.queue
  | .thenCallback => nullableString b.thenName
  | .catchCallback => nullableString b.catchName
  | .finallyCallback => nullableString b.finallyName
  | .cancelledAt => none
  | .completedAt => none
  | .lastError => none
  | .updatedAt => now

def takeBytes (n : Nat) : List Char → List Char
  | [] => []
  | c :: cs => if c.utf8Size ≤ n then c :: takeBytes (n - c.utf8Size) cs else []

def truncateErrorText (s : String) (max : Nat) : String :=
  if s.utf8ByteSize ≤ max then s else String.ofList (takeBytes max s.toList)

inductive CounterStage
  | begin
  | update
  | cas
  | readback
  | commit
  deriving DecidableEq, Repr

/-- `now` is the clock as the column stores it. -/
structure CounterEnv where
  now : Time := 0
  ctx : Option CtxErr := none
  fault : Option (CounterStage × BackendErr) := none

def CounterEnv.faultAt (env : CounterEnv) (stage : CounterStage) : Option Err :=
  match env.fault with
  | some (s, e) => if s = stage then some e.toErr else none
  | none => none

structure DatabaseBatchRepository where
  dbDriver : Dialect
  closed : Bool := false
  jobBatches : FMap BatchID BatchRow := ∅

namespace DatabaseBatchRepository

variable (r : DatabaseBatchRepository) (env : CounterEnv) (id : BatchID)

def updateAndCAS (d : Dialect) (success failure : Bool) (errText : Option String) (now : Time)
    (row : BatchRow) : Bool × BatchRow :=
  let updated := d.assign (buildIncrementUpdate success failure errText now) row
  let cas := d.completionCAS now updated
  (cas.1 == 1, cas.2)

/-- The transaction ends after the UPDATE when that affects no row. -/
def settleRow (d : Dialect) (success failure : Bool) (errText : Option String) (now : Time)
    (row : BatchRow) : Option (Bool × BatchRow) :=
  let updated := d.assign (buildIncrementUpdate success failure errText now) row
  if d.rowsAffected row updated = 0 then none
  else some (updateAndCAS d success failure errText now row)

def incrementCounter
    (success failure : Bool) (errText : Option String) :
    RepoAnswer × DatabaseBatchRepository :=
  if r.closed then (.error .batchRepositoryClosed, r)
  else
    match env.ctx, env.faultAt .begin, env.faultAt .update with
    | some e, _, _ => (.error e.toErr, r)
    | none, some e, _ => (.error (.wrap "velocity/queue: batch increment begin" e), r)
    | none, none, some e => (.error (.wrap "velocity/queue: batch increment update" e), r)
    | none, none, none =>
      match (r.jobBatches.lookup id).bind (settleRow r.dbDriver success failure errText env.now) with
      | none => (.ok (none, false), r)
      | some (justFinished, row) =>
        match env.faultAt .cas, env.faultAt .readback, env.faultAt .commit with
        | some e, _, _ => (.error (.wrap "velocity/queue: batch completion CAS" e), r)
        | none, some e, _ => (.error (.wrap "velocity/queue: batch increment readback" e), r)
        | none, none, some e => (.error (.wrap "velocity/queue: batch increment commit" e), r)
        | none, none, none =>
          (.ok (some (scanBatchRow row), justFinished),
            { r with jobBatches := r.jobBatches.insert id row })

def incrementSuccess : RepoAnswer × DatabaseBatchRepository :=
  r.incrementCounter env id true false none

def incrementFailure
    (jobErr : Option Err) : RepoAnswer × DatabaseBatchRepository :=
  let truncated := (jobErr.map fun e => truncateErrorText e.message 4096).getD ""
  r.incrementCounter env id false true (some truncated)

def decrementPending : RepoAnswer × DatabaseBatchRepository :=
  r.incrementCounter env id false false none

def find (r : DatabaseBatchRepository) (env : CounterEnv) (id : BatchID) :
    Except Err (Option Batch) :=
  if r.closed then .error .batchRepositoryClosed
  else
    match env.ctx, env.faultAt .readback with
    | some e, _ => .error e.toErr
    | none, some e => .error (.wrap "velocity/queue: batch find" e)
    | none, none => .ok ((r.jobBatches.lookup id).map scanBatchRow)

-- The text of a primary-key conflict is the engine's.
def save (r : DatabaseBatchRepository) (env : CounterEnv) (b : Batch) :
    Except Err Unit × DatabaseBatchRepository :=
  if r.closed then (.error .batchRepositoryClosed, r)
  else
    match env.ctx, env.faultAt .update, r.jobBatches.lookup b.id with
    | some e, _, _ => (.error e.toErr, r)
    | none, some e, _ => (.error (.wrap "velocity/queue: batch save" e), r)
    | none, none, some _ =>
      (.error (.wrap "velocity/queue: batch save" (.text "UNIQUE constraint failed")), r)
    | none, none, none =>
      (.ok (), { r with jobBatches := r.jobBatches.insert b.id (insertedRow b env.now) })

def cancelRow (d : Dialect) (now : Time) (row : BatchRow) : BatchRow :=
  if row .cancelledAt = none then
    d.assign [⟨.cancelledAt, .const (some now)⟩, ⟨.updatedAt, .const now⟩] row
  else row

def cancel (r : DatabaseBatchRepository) (env : CounterEnv) (id : BatchID) :
    Except Err (Option Batch) × DatabaseBatchRepository :=
  if r.closed then (.error .batchRepositoryClosed, r)
  else
    match env.ctx, env.faultAt .update with
    | some e, _ => (.error e.toErr, r)
    | none, some e => (.error (.wrap "velocity/queue: batch cancel" e), r)
    | none, none =>
      match r.jobBatches.lookup id with
      | none => (r.find env id, r)
      | some row =>
        let r' :=
          { r with jobBatches := r.jobBatches.insert id (cancelRow r.dbDriver env.now row) }
        (r'.find env id, r')

def call (op : RepoOp) : RepoAnswer × DatabaseBatchRepository :=
  match op with
  | .incrementSuccess => r.incrementSuccess env id
  | .incrementFailure jobErr => r.incrementFailure env id jobErr
  | .decrementPending => r.decrementPending env id
  | .cancel =>
    let out := r.cancel env id
    (out.1.map fun b => (b, false), out.2)

end DatabaseBatchRepository

end Velocity.Queue
