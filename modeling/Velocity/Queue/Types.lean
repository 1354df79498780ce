import Mathlib.Tactic

/-! The vocabulary of package queue: errors, jobs with the optional interfaces they
implement, persisted payloads and reservation tokens. Clocks and durations are
integers (nanoseconds). -/

namespace Velocity.Queue

abbrev Time := Int

abbrev Duration := Int

abbrev BatchID := String

/-- `text` is an error of its own, `wrap` one built with `msg: %w`, `pair` one built with
`%w: %w`, `join` the result of `errors.Join`. -/
inductive Err
  | canceled
  | deadlineExceeded
  | noJobAvailable
  | nilJob
  | jobNotBatchable
  | jobNotFound
  | poisonJob
  | leaseLost
  | failedHookPanicked
  | batchRepositoryClosed
  | text (msg : String)
  | wrap (msg : String) (err : Err)
  | pair (first second : Err)
  | join (first second : Err)
  deriving DecidableEq, Repr

/-- `errchain.Is`. -/
def Err.is (e target : Err) : Bool :=
  match e with
  | .wrap msg e => decide (Err.wrap msg e = target) || e.is target
  | .pair a b => decide (Err.pair a b = target) || a.is target || b.is target
  | .join a b => decide (Err.join a b = target) || a.is target || b.is target
  | e => decide (e = target)

/-- `errchain.Text`. -/
def Err.message : Err → String
  | .canceled => "context canceled"
  | .deadlineExceeded => "context deadline exceeded"
  | .noJobAvailable => "velocity/queue: no job available"
  | .nilJob => "velocity/queue: job is nil"
  | .jobNotBatchable => "velocity/queue: batch job does not implement Batchable"
  | .jobNotFound => "velocity/queue: job not found"
  | .poisonJob => "velocity/queue: poison job quarantined to failed_jobs"
  | .leaseLost => "velocity/queue: lease lost; row reclaimed by another worker"
  | .failedHookPanicked =>
    "velocity/queue: job Failed hook panicked after the failure was recorded"
  | .batchRepositoryClosed => "velocity/queue: batch repository is closed"
  | .text msg => msg
  | .wrap msg e => msg ++ ": " ++ e.message
  | .pair a b => a.message ++ ": " ++ b.message
  | .join a b => a.message ++ "\n" ++ b.message

inductive CtxErr
  | canceled
  | deadlineExceeded
  deriving DecidableEq, Repr

def CtxErr.toErr : CtxErr → Err
  | .canceled => .canceled
  | .deadlineExceeded => .deadlineExceeded

/-- A backend reports an ended context or an error of its own, never a sentinel. -/
inductive BackendErr
  | ctx (err : CtxErr)
  | other (msg : String)
  deriving DecidableEq, Repr

def BackendErr.toErr : BackendErr → Err
  | .ctx e => e.toErr
  | .other msg => .text msg

/-- What a job's `GetBatchID` does; `absent` when it does not implement Batchable. -/
inductive Batchable
  | absent
  | id (b : BatchID)
  | panics (msg : String)
  deriving DecidableEq, Repr

/-- Its type, what `json.Marshal` makes of it, if anything, and its optional interfaces.
`decidesRetry`: it implements RetryDecider. `uid` tells values of equal content apart, as pointers
do. -/
structure Job where
  uid : Nat := 0
  type : String
  data : Option String
  onQueue : Option String := none
  jobID : Option String := none
  maxAttempts : Option Int := none
  backoff : Option (List Duration) := none
  batch : Batchable := .absent
  decidesRetry : Bool := false
  deriving DecidableEq, Repr

structure Payload where
  type : String
  data : String
  queue : String
  attempts : Nat
  dedupeKey : String := ""
  deriving DecidableEq, Repr

/-- `job` is the live producer-side value; it is never sent on the wire. -/
structure JobWrapper where
  job : Option Job
  payload : Payload
  dedupeKey : String := ""
  deriving DecidableEq, Repr

def JobWrapper.wire (w : JobWrapper) : JobWrapper := { w with job := none }

structure ReservationToken where
  id : Nat
  attempts : Nat
  reservedBy : String
  deriving DecidableEq, Repr

def ReservationToken.zero : ReservationToken := ⟨0, 0, ""⟩

def ReservationToken.isZero (t : ReservationToken) : Bool := t.id == 0

/-- A nil job is refused before any of its methods run; "default" is the last resort. -/
def admitJob (job : Option Job) (queueName : Option String) : Except Err (Job × String) :=
  match job with
  | none => .error .nilJob
  | some job =>
    match queueName with
    | some name =>
      if name ≠ "" then .ok (job, name)
      else .ok (job, (job.onQueue.filter (· ≠ "")).getD "default")
    | none => .ok (job, (job.onQueue.filter (· ≠ "")).getD "default")

/-- How a job is rebuilt from its payload. -/
abbrev Registry := Payload → Except Err Job

def marshalJob (job : Job) (queueName : String) : Except Err Payload :=
  match job.data with
  | none => .error (.wrap "velocity/queue: failed to marshal job" (.text "json: unsupported value"))
  | some data => .ok { type := job.type, data, queue := queueName, attempts := 0 }

def createJobWrapper (job : Job) (queueName : String) : Except Err JobWrapper :=
  match marshalJob job queueName with
  | .error e => .error e
  | .ok payload => .ok { job := some job, payload }

variable {job : Job} {queueName : String}

theorem createJobWrapper_job {w : JobWrapper} (h : createJobWrapper job queueName = .ok w) :
    w.payload.queue = queueName ∧ w.dedupeKey = "" ∧ w.job = some job := by
  unfold createJobWrapper marshalJob at h
  cases hd : job.data with
  | none => simp [hd] at h
  | some d =>
    simp only [hd, Except.ok.injEq] at h
    subst h
    simp

theorem createJobWrapper_error {e : Err} (h : createJobWrapper job queueName = .error e) :
    e = .wrap "velocity/queue: failed to marshal job" (.text "json: unsupported value") := by
  unfold createJobWrapper marshalJob at h
  cases hd : job.data with
  | none =>
    simp only [hd, Except.error.injEq] at h
    exact h.symm
  | some d => simp [hd] at h

end Velocity.Queue
