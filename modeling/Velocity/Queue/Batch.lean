import Velocity.Lib.Pool
import Velocity.Queue.BatchRepository

/-! Batches over the in-memory repository: what the worker does with the outcome of a batch job,
`CancelCtx`, `Dispatch`, and the callbacks they fire. Repository, receiver and answer share one
batch object, so it is named by its id and `copyCountersFrom` has nothing to do. -/

namespace Velocity.Queue

open Interleave

inductive CallbackKind
  | callbackThen
  | callbackCatch
  | callbackFinally
  deriving DecidableEq, Repr

structure BatchCallbackJob where
  batchID : BatchID
  name : String
  kind : CallbackKind
  errorMsg : String := ""
  deriving DecidableEq, Repr

structure CallbackEntry where
  thenFn : Bool
  catchFn : Bool
  finallyFn : Bool
  catchOnce : Bool := false
  finishedFired : Bool := false
  deriving DecidableEq, Repr

inductive BatchEvent
  | created (id : BatchID) (totalJobs : Nat) (queue : String)
  | jobCompleted (id : BatchID) (completedJobs : Int) (totalJobs : Nat)
  | jobFailed (id : BatchID) (failedJobs : Int) (totalJobs : Nat) (err : Option Err)
  | cancelled (id : BatchID) (failedJobs : Int)
  | completed (id : BatchID) (totalJobs : Nat) (completedJobs failedJobs : Int)
      (hasFailures : Bool)
  deriving DecidableEq, Repr

/-- `load` reads an atomic field; `bindBatchJob` is a job's own `SetBatchID` and `OnQueue`. -/
inductive BatchOp
  | newBatchID
  | bindBatchJob (job : Job) (id : BatchID)
  | register (id : BatchID) (entry : CallbackEntry)
  | remove (id : BatchID)
  | save (batch : Batch)
  | findBatch (id : BatchID)
  | find (id : BatchID)
  | repo (id : BatchID) (op : RepoOp)
  | swapCancelled (id : BatchID)
  | load (id : BatchID)
  | callbackEntry (id : BatchID)
  | catchOnce (id : BatchID)
  | swapFinishedFired (id : BatchID)
  | go (kind : CallbackKind) (id : BatchID)
  | callbackQueueDriver
  | pushCallback (job : BatchCallbackJob)
  | pushCtx (job : Job) (queue : String)
  | emit (event : BatchEvent)
  deriving DecidableEq, Repr

@[reducible] def BatchOp.Res : BatchOp → Type
  | .newBatchID => BatchID
  | .bindBatchJob .. => Option String
  | .save _ => Except Err Unit
  | .findBatch _ => Option Batch
  | .find _ => Except Err (Option Batch)
  | .repo .. => RepoAnswer
  | .swapCancelled _ => Bool
  | .load _ => Batch
  | .callbackEntry _ => Option CallbackEntry
  | .catchOnce _ => Bool
  | .swapFinishedFired _ => Bool
  | .callbackQueueDriver => Bool
  | .pushCtx .. => Except Err Unit
  | _ => Unit

structure BatchEnv where
  now : Time := 0
  ctx : InMemoryBatchRepository.Polled := {}
  panics : Option String := none
  pushErr : Option Err := none
  callbackQueue : Bool := true

structure BatchWorld where
  repo : InMemoryBatchRepository := {}
  callbacks : FMap BatchID CallbackEntry := ∅
  minted : Nat := 0

namespace BatchWorld

-- The zero batch stands for an id no thread holds.
def batch (w : BatchWorld) (id : BatchID) : Batch :=
  (w.repo.batches.lookup id).getD { id := id, totalJobs := 0, pendingJobs := 0 }

def setBatch (w : BatchWorld) (id : BatchID) (f : Batch → Batch) : BatchWorld :=
  match w.repo.batches.lookup id with
  | none => w
  | some b => { w with repo := ⟨w.repo.batches.insert id (f b)⟩ }

def setEntry (w : BatchWorld) (id : BatchID) (f : CallbackEntry → CallbackEntry) : BatchWorld :=
  match w.callbacks.lookup id with
  | none => w
  | some e => { w with callbacks := w.callbacks.insert id (f e) }

/-- `ids` are the ids that `newBatchID` mints, all different. -/
def exec (ids : ℕ ↪ BatchID) (w : BatchWorld) (env : BatchEnv) :
    (o : BatchOp) → o.Res × BatchWorld
  | .newBatchID => (ids w.minted, { w with minted := w.minted + 1 })
  | .bindBatchJob _ _ => (env.panics, w)
  | .register id entry => ((), { w with callbacks := w.callbacks.insert id entry })
  | .remove id => ((), { w with callbacks := w.callbacks.erase id })
  | .save b =>
    let out := w.repo.save env.ctx.ctx b
    (out.1, { w with repo := out.2 })
  | .findBatch id => (w.repo.batches.lookup id, w)
  | .find id => (w.repo.find env.ctx.ctx id, w)
  | .repo id op =>
    let out := w.repo.call ⟨env.ctx, id, op, env.now⟩
    (out.1, { w with repo := out.2 })
  | .swapCancelled id =>
    (!(w.batch id).cancelled, w.setBatch id fun b => { b with cancelled := true })
  | .load id => (w.batch id, w)
  | .callbackEntry id => (w.callbacks.lookup id, w)
  | .catchOnce id =>
    (!((w.callbacks.lookup id).any fun e => e.catchOnce),
      w.setEntry id fun e => { e with catchOnce := true })
  | .swapFinishedFired id =>
    (!((w.callbacks.lookup id).any fun e => e.finishedFired),
      w.setEntry id fun e => { e with finishedFired := true })
  | .go _ _ => ((), w)
  | .callbackQueueDriver => (env.callbackQueue, w)
  | .pushCallback _ => ((), w)
  | .pushCtx _ _ => (match env.pushErr with | some e => .error e | none => .ok (), w)
  | .emit _ => ((), w)

end BatchWorld

abbrev BatchProg := Prog BatchOp.Res

namespace Batch

def op (o : BatchOp) : BatchProg o.Res := .perform o

def useCatchName (b : Batch) (updated : Option Batch) : String :=
  match updated with
  | some u => if u.catchName ≠ "" then u.catchName else b.catchName
  | none => b.catchName

def useThenName (b : Batch) (updated : Option Batch) : String :=
  match updated with
  | some u => if u.thenName ≠ "" then u.thenName else b.thenName
  | none => b.thenName

def useFinallyName (b : Batch) (updated : Option Batch) : String :=
  match updated with
  | some u => if u.finallyName ≠ "" then u.finallyName else b.finallyName
  | none => b.finallyName

def dispatchBatchCallbackJob (name : String) (kind : CallbackKind) (id : BatchID)
    (errMsg : String) : BatchProg Unit := do
  let wired ← op .callbackQueueDriver
  .when (wired && name ≠ "") (op (.pushCallback ⟨id, name, kind, errMsg⟩))

def fireCatch (entry : Option CallbackEntry) (id : BatchID) : BatchProg Unit :=
  match entry with
  | none => pure ()
  | some e => do
    let first ← op (.catchOnce id)
    .when (first && e.catchFn) (op (.go .callbackCatch id))

def fireFinished (entry : Option CallbackEntry) (id : BatchID) : BatchProg Unit :=
  match entry with
  | none => pure ()
  | some e => do
    let first ← op (.swapFinishedFired id)
    .when first do
      let b ← op (.load id)
      .when (!b.hasFailures && e.thenFn) (op (.go .callbackThen id))
      .when e.finallyFn (op (.go .callbackFinally id))

def lastErrorSnapshot (b : Batch) : BatchProg String := do
  let now ← op (.load b.id)
  pure now.lastError

def fireTerminalCallbacks (b : Batch) (updated : Option Batch) : BatchProg Unit := do
  let entry ← op (.callbackEntry b.id)
  fireFinished entry b.id
  let now ← op (.load b.id)
  .when (!now.hasFailures && b.useThenName updated ≠ "")
    (dispatchBatchCallbackJob (b.useThenName updated) .callbackThen b.id "")
  .when (b.useFinallyName updated ≠ "") do
    let errMsg ← updated.elim (pure "") lastErrorSnapshot
    dispatchBatchCallbackJob (b.useFinallyName updated) .callbackFinally b.id errMsg
  let completed ← op (.load b.id)
  let failed ← op (.load b.id)
  let failures ← op (.load b.id)
  op (.emit (.completed b.id b.totalJobs completed.completedJobs failed.failedJobs failures.hasFailures))

def cancelCtx (b : Batch) : BatchProg Unit := do
  let first ← op (.swapCancelled b.id)
  .when first do
    let _ ← op (.repo b.id .cancel)
    let now ← op (.load b.id)
    op (.emit (.cancelled b.id now.failedJobs))

def recordSuccess (b : Batch) : BatchProg Unit := do
  let res ← op (.repo b.id .incrementSuccess)
  match res with
  | .ok (some updated, justFinished) =>
    let now ← op (.load b.id)
    op (.emit (.jobCompleted b.id now.completedJobs b.totalJobs))
    .when justFinished (b.fireTerminalCallbacks updated)
  | _ => pure ()

def recordFailure (b : Batch) (jobErr : Option Err) : BatchProg Unit := do
  let res ← op (.repo b.id (.incrementFailure jobErr))
  match res with
  | .ok (some updated, justFinished) =>
    let now ← op (.load b.id)
    op (.emit (.jobFailed b.id now.failedJobs b.totalJobs jobErr))
    let entry ← op (.callbackEntry b.id)
    fireCatch entry b.id
    .when (b.useCatchName updated ≠ "") (dispatchBatchCallbackJob (b.useCatchName updated)
      .callbackCatch b.id ((jobErr.map Err.message).getD ""))
    .when (!b.allowFailures) b.cancelCtx
    .when justFinished (b.fireTerminalCallbacks updated)
  | _ => pure ()

def recordSkip (b : Batch) : BatchProg Unit := do
  let res ← op (.repo b.id .decrementPending)
  match res with
  | .ok (some updated, justFinished) => .when justFinished (b.fireTerminalCallbacks updated)
  | _ => pure ()

end Batch

/-- The refusal names the first refused job by its position. -/
def admitBatch (jobs : List (Option Job)) : Except Err (List Job) :=
  jobs.zipIdx.mapM fun (job, i) =>
    match job with
    | none => .error (.wrap s!"batch: job {i + 1}/{jobs.length}" .nilJob)
    | some job =>
      if job.batch = .absent then
        .error (.wrap s!"batch: job {i + 1}/{jobs.length}" .jobNotBatchable)
      else .ok job

def batchJobQueue (job : Job) (batchQueue : String) : String :=
  match job.onQueue with
  | some name => if name ≠ "" then name else if batchQueue ≠ "" then batchQueue else "default"
  | none => if batchQueue ≠ "" then batchQueue else "default"

def Job.setBatchID (job : Job) (id : BatchID) : Job :=
  match job.batch with
  | .id _ => { job with batch := .id id }
  | _ => job

def bindBatchJobs (id : BatchID) (batchQueue : String) (n : Nat) :
    Nat → List Job → BatchProg (Except Err (List (Job × String)))
  | _, [] => pure (.ok [])
  | i, job :: jobs => do
    let panicked ← Batch.op (.bindBatchJob job id)
    match panicked with
    | some msg => pure (.error (.wrap s!"batch: job {i + 1}/{n}" (.text msg)))
    | none =>
      let bound ← bindBatchJobs id batchQueue n (i + 1) jobs
      pure (bound.map fun rest =>
        (job.setBatchID id, batchJobQueue (job.setBatchID id) batchQueue) :: rest)

namespace PendingBatch

/-- Releases `unpushed` slots, and tells whether one was the last. -/
def drain (id : BatchID) : Nat → Bool → BatchProg Bool
  | 0, anyFinished => pure anyFinished
  | unpushed + 1, anyFinished => do
    let res ← Batch.op (.repo id .decrementPending)
    match res with
    | .ok (_, true) => drain id unpushed true
    | _ => drain id unpushed anyFinished

def settleUnpushed (b : Batch) (unpushed : Nat) : BatchProg Unit := do
  let anyFinished ← drain b.id unpushed false
  let found ← Batch.op (.find b.id)
  let refreshed :=
    match found with
    | .ok found => found
    | .error _ => none
  b.cancelCtx
  .when anyFinished (b.fireTerminalCallbacks refreshed)

def pushAll (b : Batch) : Nat → List (Job × String) → BatchProg (Option Err)
  | _, [] => pure none
  | pushed, (job, queue) :: jobs => do
    let res ← Batch.op (.pushCtx job queue)
    match res with
    | .ok () => pushAll b (pushed + 1) jobs
    | .error e =>
      settleUnpushed b (b.totalJobs - pushed)
      pure (some (.wrap s!"batch: failed to push job {pushed + 1}/{b.totalJobs}" e))

def dispatch (pb : PendingBatch) : BatchProg (Option BatchID × Option Err) :=
  if pb.jobs = [] then pure (none, some (.text "batch: cannot dispatch empty batch"))
  else
    match admitBatch pb.jobs with
    | .error e => pure (none, some e)
    | .ok jobs => do
      let id ← Batch.op .newBatchID
      let bound ← bindBatchJobs id pb.queue jobs.length 0 jobs
      match bound with
      | .error e => pure (none, some e)
      | .ok bound =>
        Batch.op (.register id ⟨pb.thenFn, pb.catchFn, pb.finallyFn, false, false⟩)
        let saved ← Batch.op (.save (pb.batch id))
        match saved with
        | .error e =>
          Batch.op (.remove id)
          pure (none, some (.wrap "batch: failed to save batch" e))
        | .ok () =>
          let failed ← pushAll (pb.batch id) 0 bound
          match failed with
          | some e => pure (some id, some e)
          | none =>
            Batch.op (.emit (.created id pb.jobs.length pb.queue))
            pure (some id, none)

end PendingBatch

inductive BatchCall
  | dispatch (pb : PendingBatch)
  | recordSuccess (id : BatchID)
  | recordFailure (id : BatchID) (jobErr : Option Err)
  | recordSkip (id : BatchID)
  | cancelCtx (id : BatchID)
  deriving DecidableEq, Repr

def onBatch (id : BatchID) (f : Batch → BatchProg Unit) : BatchProg Unit := do
  let found ← Batch.op (.findBatch id)
  match found with
  | some b => f b
  | none => pure ()

def BatchCall.body : BatchCall → BatchProg Unit
  | .dispatch pb => do
    let _ ← pb.dispatch
    pure ()
  | .recordSuccess id => onBatch id Batch.recordSuccess
  | .recordFailure id jobErr => onBatch id fun b => b.recordFailure jobErr
  | .recordSkip id => onBatch id Batch.recordSkip
  | .cancelCtx id => onBatch id Batch.cancelCtx

def batchSystem (ids : ℕ ↪ BatchID) : System BatchOp.Res BatchWorld BatchEnv BatchCall Unit where
  body := BatchCall.body
  exec := BatchWorld.exec ids

end Velocity.Queue
