import Velocity.Queue.Worker

/-! Workers over a driver that removes a job when it is popped. The only attempt count is
then the worker's own map, keyed by the job's content, so jobs of equal content share an
entry and the first of them to finish drops it. -/

namespace Velocity.Queue

open Interleave Prog

inductive QueueOp
  | pop (queue : String)
  | pushDelayed (job : Job) (delay : Duration) (queue : String)
  | recordFailed (job : Job) (err : Err) (queue : String)
  deriving DecidableEq, Repr

@[reducible] def QueueOp.Res : QueueOp → Type
  | .pop _ => Except Err (Option Job)
  | .pushDelayed .. => Except Err Unit
  | .recordFailed .. => Except Err Unit

/-- `pick` is the position of the job a pop finds. -/
structure QueueEnv where
  pick : Option Nat := some 0
  fault : Option BackendErr := none

def queueExec (jobs : List Job) (env : QueueEnv) : (o : QueueOp) → o.Res × List Job
  | .pop _ =>
    match env.fault, env.pick with
    | some e, _ => (.error e.toErr, jobs)
    | none, none => (.ok none, jobs)
    | none, some i => (.ok jobs[i]?, jobs.eraseIdx i)
  | .pushDelayed job _ _ =>
    match env.fault with
    | some e => (.error e.toErr, jobs)
    | none => (.ok (), jobs ++ [job])
  | .recordFailed _ _ _ =>
    match env.fault with
    | some e => (.error e.toErr, jobs)
    | none => (.ok (), jobs)

def deleteOnPopDriver : Driver QueueOp.Res where
  popCtx ctx queue :=
    match ctx with
    | some e => .ret (.error e.toErr)
    | none => .perform (QueueOp.pop queue)
  pushDelayedCtx ctx job delay queue :=
    match ctx, createJobWrapper job queue with
    | some e, _ => .ret (.error e.toErr)
    | none, .error e => .ret (.error (.wrap "velocity/queue: failed to create job wrapper" e))
    | none, .ok _ => .perform (QueueOp.pushDelayed job delay queue)
  failedCtx _ job err queue := .perform (QueueOp.recordFailed job err queue)
  reservation := none

def deleteOnPopWorker (opts : WorkerOptions) : Worker QueueOp.Res :=
  { opts with queue := deleteOnPopDriver }

def deleteOnPopWorkers (opts : WorkerOptions) :
    System (WorkerOp.Res QueueOp.Res) (WorkerWorld (List Job)) (WorkerEnv QueueEnv)
      (WorkerCall Unit Empty) Unit :=
  workerSystem queueExec (fun _ => deleteOnPopWorker opts)
    fun c : Empty => (c.elim : Prog QueueOp.Res Unit)

structure Attempt where
  job : Option Job := none
  started : Bool := false
  counted : Option Nat := none
  dropped : Bool := false
  pushed : Bool := false

namespace Attempt

def next (m : Attempt) : (o : WorkerOp QueueOp) → WorkerOp.Res QueueOp.Res o → Attempt
  | .driver (.pop _), .ok (some job) => { m with job := some job }
  | .driver (.pushDelayed _ _ _), .ok _ => { m with pushed := true }
  | .startHandler _, _ => { m with started := true }
  | .incrementAttempts _ _, n => { m with counted := some n }
  | .removeAttempts _ _, _ => { m with dropped := true }
  | _, _ => m

def Guard (opts : WorkerOptions) (m : Attempt) : WorkerOp QueueOp → Prop
  | .driver (.pop _) => m = {}
  | .driver (.pushDelayed job _ _) => ∃ n, m = ⟨some job, true, some n, false, false⟩ ∧
      (n : Int) < (deleteOnPopWorker opts).maxAttempts job
  | .startHandler job => m = ⟨some job, false, none, false, false⟩
  | .incrementAttempts v key => ∃ job s, m = ⟨some job, s, none, false, false⟩ ∧
      v = opts.name ∧ key = (deleteOnPopWorker opts).jobKey job
  | .removeAttempts v key => ∃ job s n, m = ⟨some job, s, n, false, false⟩ ∧
      v = opts.name ∧ key = (deleteOnPopWorker opts).jobKey job
  | _ => True

def monitor (opts : WorkerOptions) : Monitor (WorkerOp.Res QueueOp.Res) where
  State := Attempt
  init := {}
  allowed _ _ := True
  guard m o _ := m.Guard opts o
  next := next

def plain : WorkerOp QueueOp → Bool
  | .driver (.recordFailed _ _ _) => true
  | .driver _ => false
  | .startHandler _ => false
  | .incrementAttempts _ _ => false
  | .removeAttempts _ _ => false
  | _ => true

variable {o : WorkerOp QueueOp}

theorem plain_of_asks (ho : o.asks = true) : plain o = true := by
  cases o <;> first | rfl | simp [WorkerOp.asks] at ho

variable {opts : WorkerOptions} {m : Attempt} {job : Job} {batch : Option BatchID} {err : Err}
  {α : Type} {n : Option Nat}

theorem wp_plain {p : WorkerProg QueueOp.Res α} (hp : p.All fun o => plain o = true) :
    p.wp (monitor opts) m fun _ m' => m' = m := by
  refine wp_of_neutral (monitor opts) (hp.mono fun o ho m r => ?_) m
  cases o with
  | driver o => cases o <;> first | exact ⟨trivial, rfl⟩ | simp [plain] at ho
  | _ => first | exact ⟨trivial, rfl⟩ | simp [plain] at ho

variable {Q : α → Attempt → Prop}

theorem wp_op_bind
    {f : WorkerOp.Res QueueOp.Res o → WorkerProg QueueOp.Res α} (ho : plain o = true)
    (hf : ∀ r, (f r).wp (monitor opts) m Q) : (Worker.op o >>= f).wp (monitor opts) m Q :=
  wp_bind_of (wp_plain ⟨ho, fun _ => trivial⟩) fun r _ h => h ▸ hf r

theorem settle_plain {record : BatchID → WorkerOp QueueOp} (hrec : ∀ id, plain (record id) = true) :
    (Worker.settle batch record : WorkerProg QueueOp.Res Unit).All
      fun o => plain o = true := by
  cases batch with
  | none => trivial
  | some id =>
    refine ⟨rfl, fun found => ?_⟩
    cases found with
    | false => trivial
    | true => exact ⟨hrec id, fun _ => trivial⟩

variable {s : Bool}

theorem wp_attemptNumber_bind {f : Nat → WorkerProg QueueOp.Res α}
    (hf : ∀ n, (f n).wp (monitor opts) (⟨some job, s, some n, false, false⟩ : Attempt) Q) :
    ((deleteOnPopWorker opts).attemptNumber ((deleteOnPopWorker opts).attemptKey job .zero) .zero
      >>= f).wp (monitor opts) (⟨some job, s, none, false, false⟩ : Attempt) Q :=
  fun n _ => ⟨⟨job, s, rfl, rfl, rfl⟩, hf n⟩

theorem wp_removeAttempts_bind {f : Unit → WorkerProg QueueOp.Res α}
    (hf : (f ()).wp (monitor opts) (⟨some job, s, n, true, false⟩ : Attempt) Q) :
    ((deleteOnPopWorker opts).removeAttempts ((deleteOnPopWorker opts).attemptKey job .zero)
      >>= f).wp (monitor opts) (⟨some job, s, n, false, false⟩ : Attempt) Q :=
  fun _ _ => ⟨⟨job, s, n, rfl, rfl, rfl⟩, hf⟩

theorem wp_failJob :
    ((deleteOnPopWorker opts).failJob job err ((deleteOnPopWorker opts).attemptKey job .zero) .zero
      batch).wp (monitor opts) (⟨some job, s, n, false, false⟩ : Attempt) fun _ _ => True := by
  refine wp_removeAttempts_bind ?_
  refine wp_op_bind rfl fun ctx => ?_
  refine wp_op_bind rfl fun res => ?_
  refine wp_bind_of (wp_plain (settle_plain fun _ => rfl)) fun _ m' _ => ?_
  exact wp_op_bind rfl fun _ => trivial

theorem wp_requeue {n : Nat} {backoff : Duration}
    (hn : (n : Int) < (deleteOnPopWorker opts).maxAttempts job) :
    ((deleteOnPopWorker opts).requeue job .zero backoff).wp (monitor opts)
      (⟨some job, true, some n, false, false⟩ : Attempt)
      fun res m' => ∀ e, res = .error e → m' = ⟨some job, true, some n, false, false⟩ := by
  refine wp_op_bind rfl fun ctx => ?_
  cases ctx with
  | some e => exact fun _ _ => rfl
  | none =>
    simp only [deleteOnPopWorker, deleteOnPopDriver]
    cases createJobWrapper job opts.queueName with
    | error e => exact fun _ _ => rfl
    | ok wrapper =>
      intro res _
      refine ⟨⟨n, rfl, hn⟩, ?_⟩
      cases res with
      | error e => exact fun _ _ => rfl
      | ok u => rintro e ⟨⟩

theorem wp_handleJobFailure :
    ((deleteOnPopWorker opts).handleJobFailure job err .zero batch).wp (monitor opts)
      (⟨some job, true, none, false, false⟩ : Attempt) fun _ _ => True := by
  refine wp_attemptNumber_bind fun n => ?_
  refine wp_bind_of (wp_plain ((Worker.wantsRetry_asks job err).mono fun _ => plain_of_asks)) ?_
  rintro retry m' rfl
  split
  · exact wp_failJob
  · split
    · next hlt =>
      refine wp_bind_of (wp_requeue hlt) fun requeued m' h => ?_
      cases requeued with
      | ok u => exact wp_op_bind rfl fun _ => trivial
      | error e =>
        obtain rfl := h e rfl
        simp only
        split
        · trivial
        · exact wp_failJob
    · exact wp_failJob

theorem wp_runJob : ((deleteOnPopWorker opts).runJob job .zero batch).wp (monitor opts)
      (⟨some job, false, none, false, false⟩ : Attempt) fun _ _ => True := by
  intro _ _
  refine ⟨rfl, ?_⟩
  refine wp_op_bind rfl fun ended => ?_
  rcases ended with (_ | err) | _
  · refine wp_removeAttempts_bind ?_
    refine wp_bind_of (wp_plain (settle_plain fun _ => rfl)) fun _ m' _ => ?_
    exact wp_op_bind rfl fun _ => trivial
  · refine wp_bind_of (wp_plain ((Worker.abortedBy_asks err).mono fun _ => plain_of_asks)) ?_
    rintro aborted m' rfl
    split
    · trivial
    · refine wp_op_bind rfl fun down => ?_
      split
      · trivial
      · exact wp_bind_of wp_handleJobFailure fun _ _ _ => trivial
  · refine wp_op_bind rfl fun down => ?_
    split
    · trivial
    · exact wp_bind_of wp_handleJobFailure fun _ _ _ => trivial

theorem wp_processPopped : ((deleteOnPopWorker opts).processPopped job .zero).wp (monitor opts)
      (⟨some job, false, none, false, false⟩ : Attempt) fun _ _ => True := by
  refine wp_op_bind rfl fun _ => ?_
  cases job.batch with
  | absent => exact wp_runJob
  | panics msg =>
    refine wp_attemptNumber_bind fun n => ?_
    exact wp_bind_of wp_failJob fun _ _ _ => trivial
  | id b =>
    refine wp_bind_of (wp_plain ((Worker.skips_asks _).mono fun _ => plain_of_asks)) ?_
    rintro skip m' rfl
    cases skip with
    | false => exact wp_runJob
    | true => exact wp_op_bind rfl fun _ => trivial

theorem wp_processJob :
    (deleteOnPopWorker opts).processJob.wp (monitor opts) ({} : Attempt) fun _ _ => True := by
  refine wp_op_bind rfl fun ctx => ?_
  cases ctx with
  | some e => trivial
  | none =>
    rintro (e | _ | job) -
    · exact ⟨rfl, trivial⟩
    · exact ⟨rfl, trivial⟩
    · exact ⟨rfl, wp_processPopped⟩

end Attempt

end Velocity.Queue
