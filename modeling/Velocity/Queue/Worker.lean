import Velocity.Lib.Pool
import Velocity.Queue.Types
import Velocity.Queue.Backoff

/-! The worker's job pipeline. `processJob` and the functions it calls are one program over the
operations of a driver and of the worker itself; the driver is a record of its methods, with the
reservation methods where it has them. Handlers, batches, contexts and `ShouldRetry` answer from the
environment. -/

namespace Velocity.Queue

open Interleave

structure ReservationDriver {Op : Type} (Res : Op → Type) where
  popCtxReserved : Option CtxErr → String → Prog Res (Except Err (Option (Job × ReservationToken)))
  ackCtx : Option CtxErr → ReservationToken → Prog Res (Except Err Unit)
  releaseCtx : Option CtxErr → ReservationToken → Duration → Prog Res (Except Err Unit)
  failReservedCtx : Option CtxErr → ReservationToken → Job → Err → String → Prog Res (Except Err Unit)

structure Driver {Op : Type} (Res : Op → Type) where
  popCtx : Option CtxErr → String → Prog Res (Except Err (Option Job))
  pushDelayedCtx : Option CtxErr → Job → Duration → String → Prog Res (Except Err Unit)
  failedCtx : Option CtxErr → Job → Err → String → Prog Res (Except Err Unit)
  reservation : Option (ReservationDriver Res)

/-- A string (a JobID or a content hash) or the job value itself. -/
inductive JobKey
  | str (s : String)
  | pointer (uid : Nat)
  deriving DecidableEq, Repr

def second : Duration := 1000000000

/-- Each `name` has an attempts map of its own. `sha256` is the content hash of `jobKey`. -/
structure WorkerOptions where
  name : String
  queueName : String
  maxRetries : Int := 3
  backoff : Nat → Duration := fun n => exponentialBackoff second (300 * second) n
  sha256 : String → String := id

structure Worker {Op : Type} (Res : Op → Type) extends WorkerOptions where
  queue : Driver Res

inductive Ctx
  | worker
  | ack
  | requeue
  | cleanup
  deriving DecidableEq, Repr

inductive HandlerEnd
  | done (err : Option Err)
  | ctxDone
  deriving DecidableEq, Repr

inductive JobEvent
  | processing (job : Job)
  | processed (job : Job)
  | retrying (job : Job) (attempt : Nat) (maxAttempts : Int) (err : Err) (backoff : Duration)
  | failed (job : Job) (err : Err)
  deriving DecidableEq, Repr

inductive WorkerOp (Op : Type)
  | driver (o : Op)
  | ctxErr (c : Ctx)
  | findBatch (id : BatchID)
  | cancelled (id : BatchID)
  | startHandler (job : Job)
  | awaitHandler
  | shouldRetry (job : Job) (err : Err)
  | incrementAttempts (worker : String) (key : JobKey)
  | removeAttempts (worker : String) (key : JobKey)
  | recordSuccess (id : BatchID)
  | recordFailure (id : BatchID) (err : Err)
  | recordSkip (id : BatchID)
  | dispatch (event : JobEvent)
  deriving DecidableEq, Repr

@[reducible] def WorkerOp.Res {Op : Type} (Res : Op → Type) : WorkerOp Op → Type
  | .driver o => Res o
  | .ctxErr _ => Option CtxErr
  | .findBatch _ => Bool
  | .cancelled _ => Bool
  | .startHandler _ => Unit
  | .awaitHandler => HandlerEnd
  | .shouldRetry _ _ => Bool
  | .incrementAttempts _ _ => Nat
  | .removeAttempts _ _ => Unit
  | .recordSuccess _ => Unit
  | .recordFailure _ _ => Unit
  | .recordSkip _ => Unit
  | .dispatch _ => Unit

def WorkerOp.asks {Op : Type} : WorkerOp Op → Bool
  | .ctxErr _ => true
  | .findBatch _ => true
  | .cancelled _ => true
  | .awaitHandler => true
  | .shouldRetry _ _ => true
  | .dispatch _ => true
  | _ => false

/-- What `processJob` returns: nil, an error of the worker's own, or a
`*jobFailedError`. -/
inductive Outcome
  | nil
  | error (err : Err)
  | jobFailed (err : Err)
  deriving DecidableEq, Repr

abbrev WorkerProg {Op : Type} (Res : Op → Type) := Prog (WorkerOp.Res Res)

abbrev WorkerLog {Op : Type} (Res : Op → Type) := Log (WorkerOp.Res Res)

namespace Worker

variable {Op : Type} {Res : Op → Type}

variable (w : Worker Res) (job : Job)

def call {α : Type} (p : Prog Res α) : WorkerProg Res α :=
  p.hoist fun o => .call (WorkerOp.driver o) .ret

abbrev op (o : WorkerOp Op) : WorkerProg Res (WorkerOp.Res Res o) := .perform o

def jobKey : JobKey :=
  match job.jobID, job.data with
  | some id, _ => .str id
  | none, some data => .str (w.sha256 data)
  | none, none => .pointer job.uid

/-- The persisted attempts count decides whenever the token carries one. -/
def attemptKey (token : ReservationToken) : Option JobKey :=
  if !token.isZero && 0 < token.attempts then none else some (w.jobKey job)

def incrementAttempts : Option JobKey → WorkerProg Res Nat
  | none => .ret 0
  | some key => op (.incrementAttempts w.name key)

def removeAttempts : Option JobKey → WorkerProg Res Unit
  | none => .ret ()
  | some key => op (.removeAttempts w.name key)

def attemptNumber (key : Option JobKey) (token : ReservationToken) : WorkerProg Res Nat :=
  if !token.isZero && 0 < token.attempts then .ret token.attempts else w.incrementAttempts key

def calculateBackoff (attempt : Nat) : Duration :=
  match job.backoff with
  | some (d :: ds) => (d :: ds).getD (min (attempt - 1) ds.length) 0
  | _ => w.backoff attempt

def maxAttempts : Int := job.maxAttempts.getD w.maxRetries

/-- True only when the ack returned nil, or there is no lease to confirm. -/
def ackReservation (token : ReservationToken) : WorkerProg Res Bool :=
  if token.isZero then .ret true
  else
    match w.queue.reservation with
    | none => .ret true
    | some rd => do
      let ctx ← op (.ctxErr .ack)
      let res ← call (rd.ackCtx ctx token)
      .ret res.isOk

/-- The terminal write of `failJob`; says whether the side effects may follow. -/
def recordTerminal (err : Err) (reservation : ReservationToken) :
    WorkerProg Res Bool := do
  let ctx ← op (.ctxErr .cleanup)
  match w.queue.reservation, reservation.isZero with
  | some rd, false => do
    let res ← call (rd.failReservedCtx ctx reservation job err w.queueName)
    match res with
    | .ok () => .ret true
    | .error e => .ret (e.is .failedHookPanicked)
  | _, _ => do
    let _ ← call (w.queue.failedCtx ctx job err w.queueName)
    .ret true

def settle (batch : Option BatchID) (record : BatchID → WorkerOp Op) : WorkerProg Res Unit :=
  match batch with
  | none => .ret ()
  | some id => do
    let found ← op (.findBatch id)
    if found then .call (record id) fun _ => .ret () else .ret ()

def failJob (err : Err) (key : Option JobKey)
    (reservation : ReservationToken) (batch : Option BatchID) :
    WorkerProg Res Unit := do
  w.removeAttempts key
  let confirmed ← w.recordTerminal job err reservation
  if confirmed then do
    settle batch (.recordFailure · err)
    op (.dispatch (.failed job err))
  else .ret ()

/-- The leased row in place, or a fresh delayed copy on drivers that delete on pop. -/
def requeue (reservation : ReservationToken) (backoff : Duration) :
    WorkerProg Res (Except Err Unit) := do
  let ctx ← op (.ctxErr .requeue)
  match w.queue.reservation, reservation.isZero with
  | some rd, false => call (rd.releaseCtx ctx reservation backoff)
  | _, _ => call (w.queue.pushDelayedCtx ctx job backoff w.queueName)

def wantsRetry (err : Err) : WorkerProg Res Bool :=
  if job.decidesRetry then op (.shouldRetry job err) else .ret true

theorem wantsRetry_asks (err : Err) :
    (wantsRetry job err : WorkerProg Res Bool).All fun o => o.asks = true := by
  unfold wantsRetry
  split
  · exact ⟨rfl, fun _ => trivial⟩
  · trivial

def handleJobFailure (err : Err) (reservation : ReservationToken)
    (batch : Option BatchID) : WorkerProg Res Unit := do
  let key := w.attemptKey job reservation
  let attempt ← w.attemptNumber key reservation
  let retry ← wantsRetry job err
  if !retry then w.failJob job err key reservation batch
  else if attempt < w.maxAttempts job then do
    let backoff := w.calculateBackoff job attempt
    let requeued ← w.requeue job reservation backoff
    match requeued with
    | .error e =>
      if e.is .leaseLost then .ret () else w.failJob job err key reservation batch
    | .ok () => op (.dispatch (.retrying job attempt (w.maxAttempts job) err backoff))
  else w.failJob job err key reservation batch

def skips (batch : Option BatchID) : WorkerProg Res Bool :=
  match batch with
  | none => .ret false
  | some id => do
    let found ← op (.findBatch id)
    if found then op (.cancelled id) else .ret false

/-- A handler that ends with a context error is aborted when the worker's context ended. -/
def abortedBy (err : Err) : WorkerProg Res (Option CtxErr) :=
  if err.is .canceled || err.is .deadlineExceeded then op (.ctxErr .worker) else .ret none

theorem skips_asks (batch : Option BatchID) :
    (skips batch : WorkerProg Res Bool).All fun o => o.asks = true := by
  cases batch with
  | none => trivial
  | some id =>
    refine ⟨rfl, fun found => ?_⟩
    cases found with
    | false => trivial
    | true => exact ⟨rfl, fun _ => trivial⟩

theorem abortedBy_asks (err : Err) :
    (abortedBy err : WorkerProg Res (Option CtxErr)).All fun o => o.asks = true := by
  unfold abortedBy
  split
  · exact ⟨rfl, fun _ => trivial⟩
  · trivial

/-- The part of `processJob` from the start of the handler on. -/
def runJob (reservation : ReservationToken)
    (batch : Option BatchID) : WorkerProg Res Outcome := do
  op (.startHandler job)
  let ended ← op .awaitHandler
  match ended with
  | .done (some err) => do
    -- the worker's context is read twice: any error is dropped while the worker stops
    let aborted ← abortedBy err
    if aborted.isSome then .ret .nil
    else do
      let down ← op (.ctxErr .worker)
      if down.isSome then .ret .nil
      else do
        w.handleJobFailure job err reservation batch
        .ret (.jobFailed (.wrap "velocity/queue: job failed" err))
  | .done none => do
    let owned ← w.ackReservation reservation
    w.removeAttempts (w.attemptKey job reservation)
    if owned then do
      settle batch .recordSuccess
      op (.dispatch (.processed job))
      .ret .nil
    else .ret .nil
  | .ctxDone => do
    let down ← op (.ctxErr .worker)
    if down.isSome then .ret .nil
    else do
      w.handleJobFailure job (.text "velocity/queue: job timed out") reservation batch
      .ret (.jobFailed (.text "velocity/queue: job timed out"))

def processPopped (reservation : ReservationToken) :
    WorkerProg Res Outcome := do
  op (.dispatch (.processing job))
  match job.batch with
  | .panics msg => do
    let failure := Err.wrap "velocity/queue: job GetBatchID panicked" (.text msg)
    let key := w.attemptKey job reservation
    let _ ← w.attemptNumber key reservation
    w.failJob job failure key reservation none
    .ret (.jobFailed failure)
  | .absent => w.runJob job reservation none
  | .id id => do
    let skip ← skips (some id)
    if skip then do
      let owned ← w.ackReservation reservation
      if owned then do
        op (.recordSkip id)
        .ret .nil
      else .ret .nil
    else w.runJob job reservation (some id)

def pop : WorkerProg Res (Except Err (Option (Job × ReservationToken))) := do
  let ctx ← op (.ctxErr .worker)
  match w.queue.reservation with
  | some rd => call (rd.popCtxReserved ctx w.queueName)
  | none => do
    let popped ← call (w.queue.popCtx ctx w.queueName)
    .ret (popped.map fun job => job.map fun job => (job, .zero))

def processJob : WorkerProg Res Outcome := do
  let popped ← w.pop
  match popped with
  | .error e => .ret (.error (.wrap "velocity/queue: failed to pop job" e))
  | .ok none => .ret (.error .noJobAvailable)
  | .ok (some (job, reservation)) => w.processPopped job reservation

end Worker

structure WorkerWorld (World : Type) where
  driver : World
  attempts : String → JobKey → Nat := fun _ _ => 0

structure WorkerEnv (Env : Type) where
  driver : Env
  ctxErr : Option CtxErr := none
  found : Bool := true
  cancelled : Bool := false
  handler : HandlerEnd := .done none
  retry : Bool := true

section System

variable {Op : Type} {Res : Op → Type} {World Env W Client α : Type}

def WorkerWorld.setAttempts (w : WorkerWorld World) (worker : String) (key : JobKey) (n : Nat) :
    WorkerWorld World :=
  { w with attempts := fun v k => if v = worker ∧ k = key then n else w.attempts v k }

def workerExec (exec : World → Env → (o : Op) → Res o × World) (w : WorkerWorld World)
    (e : WorkerEnv Env) : (o : WorkerOp Op) → WorkerOp.Res Res o × WorkerWorld World
  | .driver o =>
    let out := exec w.driver e.driver o
    (out.1, { w with driver := out.2 })
  | .ctxErr _ => (e.ctxErr, w)
  | .findBatch _ => (e.found, w)
  | .cancelled _ => (e.cancelled, w)
  | .startHandler _ => ((), w)
  | .awaitHandler => (e.handler, w)
  | .shouldRetry _ _ => (e.retry, w)
  | .incrementAttempts worker key =>
    (w.attempts worker key + 1, w.setAttempts worker key (w.attempts worker key + 1))
  | .removeAttempts worker key => ((), w.setAttempts worker key 0)
  | .recordSuccess _ => ((), w)
  | .recordFailure _ _ => ((), w)
  | .recordSkip _ => ((), w)
  | .dispatch _ => ((), w)

/-- Threads are `processJob` runs of any workers, and other users of the driver. -/
inductive WorkerCall (W Client : Type)
  | process (w : W)
  | client (c : Client)

def workerSystem (exec : World → Env → (o : Op) → Res o × World) (worker : W → Worker Res)
    (client : Client → Prog Res α) :
    System (WorkerOp.Res Res) (WorkerWorld World) (WorkerEnv Env) (WorkerCall W Client) Unit where
  body
    | .process w => (worker w).processJob >>= fun _ => .ret ()
    | .client c => Worker.call (client c) >>= fun _ => .ret ()
  exec := workerExec exec

def driverLog (log : WorkerLog Res) : Log Res :=
  log.filterMap fun
    | ⟨i, .driver o, r⟩ => some ⟨i, o, r⟩
    | _ => none

end System

end Velocity.Queue
