import Velocity.Lib.Heap
import Velocity.Lib.Map
import Velocity.Lib.Pool
import Velocity.Queue.Types

/-! The in-memory queue driver. A critical section of its mutex is one operation on its maps, and
its methods are programs over these; a job is rebuilt and a Failed hook runs outside them. The clock
is shared and never goes back. -/

namespace Velocity.Queue

open Interleave

/-- A wrapper in the driver's hands. `ptr` is its address, kept as it moves between containers. -/
structure Wrapper extends JobWrapper where
  ptr : Nat
  deriving DecidableEq, Repr

structure DelayedJob where
  wrapper : Wrapper
  runAt : Time
  deriving DecidableEq, Repr

structure FailedJob where
  wrapper : Wrapper
  job : Option Job
  error : String
  failedAt : Time
  deriving DecidableEq, Repr

structure MemReservation where
  wrapper : Wrapper
  queue : String
  deriving DecidableEq, Repr

structure MemoryDriver where
  queues : FMap String (List Wrapper) := ∅
  delayed : FMap String (Array DelayedJob) := ∅
  failed : FMap String (List FailedJob) := ∅
  dedupeKeys : FMap String Time := ∅
  reservations : FMap Nat MemReservation := ∅
  nextReservationID : Nat := 0

/-- The driver, with the wrappers that `PopCtx` calls are rebuilding, the next free address, and the
clock. -/
structure MemWorld extends MemoryDriver where
  popping : List Wrapper := []
  nextPtr : Nat := 0
  clock : Time := 0

/-- `elapsed` is the time since the operation before, `poison` the error of a failing rebuild,
`hookPanics` the panic of a Failed hook. -/
structure MemEnv where
  elapsed : Nat := 0
  poison : Option Err := none
  hookPanics : Option Err := none

def hour : Duration := 3600 * 1000000000

def dedupeKeyRetention : Duration := 7 * 24 * hour

/-- `handOut` is the return of a `PopCtx` call. `forgetJob` drops the live instance of a queued
wrapper, as one read back from bytes has none. -/
inductive MemOp
  | now
  | enqueue (wrapper : JobWrapper) (name : String)
  | delay (wrapper : JobWrapper) (delay : Duration) (name : String)
  | claim (wrapper : JobWrapper) (dedupeKey name : String)
  | popWrapper (queue : String)
  | reserveNext (queue : String)
  | getJobFromWrapper (wrapper : Wrapper)
  | handOut (wrapper : Wrapper)
  | quarantine (queue : String) (token : ReservationToken) (wrapper : Wrapper) (exception : String)
  | ack (token : ReservationToken)
  | release (token : ReservationToken) (delay : Duration)
  | failReserved (token : ReservationToken) (job : Job) (errText queue : String)
  | recordFailed (wrapper : JobWrapper) (job : Job) (errText queue : String)
  | runFailedHook (job : Job) (err : Err)
  | clear (queue : String)
  | moveReadyJobs
  | sweepStaleDedupeKeys (now : Time)
  | forgetJob (ptr : Nat)

/-- The mutators answer with the reservation they found, a claim with the time recorded for its key.
-/
@[reducible] def MemOp.Res : MemOp → Type
  | .now => Time
  | .enqueue .. => Unit
  | .delay .. => Unit
  | .claim .. => Option Time
  | .popWrapper .. => Option Wrapper
  | .reserveNext .. => Option (Wrapper × ReservationToken)
  | .getJobFromWrapper .. => Except Err Job
  | .handOut .. => Unit
  | .quarantine .. => Except Err Unit
  | .ack .. => Except Err MemReservation
  | .release .. => Except Err MemReservation
  | .failReserved .. => Except Err MemReservation
  | .recordFailed .. => Unit
  | .runFailedHook .. => Except Err Unit
  | .clear .. => Unit
  | .moveReadyJobs => Unit
  | .sweepStaleDedupeKeys .. => Unit
  | .forgetJob .. => Unit

def DelayedJob.less (a b : DelayedJob) : Bool := a.runAt < b.runAt

namespace MemWorld

variable (w : MemWorld)

def publish (wrapper : JobWrapper) : Wrapper := ⟨wrapper, w.nextPtr⟩

def pushBack (wrapper : JobWrapper) (name : String) : MemWorld :=
  { w with
    queues := w.queues.insert name (FMap.items w.queues name ++ [w.publish wrapper])
    nextPtr := w.nextPtr + 1 }

def heapPush (name : String) (job : DelayedJob) : FMap String (Array DelayedJob) :=
  w.delayed.insert name (BinaryHeap.push DelayedJob.less ((w.delayed.lookup name).getD #[]) job)

def addFailed (queue : String) (job : FailedJob) : FMap String (List FailedJob) :=
  w.failed.insert queue (FMap.items w.failed queue ++ [job])

def popWrapper (queue : String) : Option Wrapper × MemWorld :=
  match w.queues.lookup queue with
  | some (wrapper :: rest) =>
    (some wrapper, { w with
      queues := w.queues.insert queue rest
      popping := w.popping ++ [wrapper] })
  | _ => (none, w)

def countAttempt (wrapper : Wrapper) : Wrapper :=
  { wrapper with payload := { wrapper.payload with attempts := wrapper.payload.attempts + 1 } }

def reserveNext (queue : String) : Option (Wrapper × ReservationToken) × MemWorld :=
  match w.queues.lookup queue with
  | some (wrapper :: rest) =>
    let id := w.nextReservationID + 1
    let leased := countAttempt wrapper
    (some (leased, ⟨id, leased.payload.attempts, ""⟩), { w with
      queues := w.queues.insert queue rest
      reservations := w.reservations.insert id ⟨leased, queue⟩
      nextReservationID := id })
  | _ => (none, w)

def letGo (wrapper : Wrapper) : List Wrapper :=
  w.popping.filter fun v => v.ptr ≠ wrapper.ptr

/-- A reserved wrapper is recorded only while its reservation stands. -/
def quarantine (queue : String) (token : ReservationToken) (wrapper : Wrapper)
    (exception : String) : Except Err Unit × MemWorld :=
  let record : FailedJob := ⟨wrapper, none, exception, w.clock⟩
  if token.isZero then
    (.ok (), { w with failed := w.addFailed queue record, popping := w.letGo wrapper })
  else
    match w.reservations.lookup token.id with
    | none => (.error .leaseLost, w)
    | some _ => (.ok (), { w with
        reservations := w.reservations.erase token.id
        failed := w.addFailed queue record })

def takeReservation (token : ReservationToken) : Except Err (MemReservation × MemWorld) :=
  match w.reservations.lookup token.id with
  | none => .error .leaseLost
  | some r => .ok (r, { w with reservations := w.reservations.erase token.id })

def ack (token : ReservationToken) : Except Err MemReservation × MemWorld :=
  match w.takeReservation token with
  | .error e => (.error e, w)
  | .ok (r, w') => (.ok r, w')

def release (token : ReservationToken) (delay : Duration) : Except Err MemReservation × MemWorld :=
  match w.takeReservation token with
  | .error e => (.error e, w)
  | .ok (r, w') => (.ok r, { w' with delayed := w'.heapPush r.queue ⟨r.wrapper, w.clock + delay⟩ })

def failReserved (token : ReservationToken) (job : Job) (errText queue : String) :
    Except Err MemReservation × MemWorld :=
  match w.takeReservation token with
  | .error e => (.error e, w)
  | .ok (r, w') =>
    (.ok r, { w' with failed := w'.addFailed queue ⟨r.wrapper, some job, errText, w.clock⟩ })

def claim (wrapper : JobWrapper) (dedupeKey name : String) : Option Time × MemWorld :=
  match w.dedupeKeys.lookup dedupeKey with
  | some _ => (none, w)
  | none => (some w.clock, { w.pushBack wrapper name with
      dedupeKeys := w.dedupeKeys.insert dedupeKey w.clock })

def heapItems (queue : String) : List Wrapper :=
  ((w.delayed.lookup queue).getD #[]).toList.map (·.wrapper)

def keysOf (wrappers : List Wrapper) : List String :=
  (wrappers.map (·.dedupeKey)).filter (· ≠ "")

def keysOfQueue (queue : String) : List String :=
  keysOf (FMap.items w.queues queue) ++ keysOf (w.heapItems queue) ++
    keysOf ((w.reservations.entries.filter fun e => e.2.queue = queue).map fun e => e.2.wrapper)

def clear (queue : String) : MemWorld :=
  { w with
    dedupeKeys := w.dedupeKeys.eraseAll (w.keysOfQueue queue)
    reservations := w.reservations.filter fun _ r => r.queue ≠ queue
    queues := w.queues.erase queue
    delayed := w.delayed.erase queue }

def liveDedupeKeysLocked : List String :=
  keysOf (w.queues.entries.flatMap fun e => e.2) ++
    keysOf (w.delayed.entries.flatMap fun e => e.2.toList.map (·.wrapper)) ++
    keysOf (w.reservations.entries.map fun e => e.2.wrapper)

def sweepStaleDedupeKeys (now : Time) : MemWorld :=
  { w with dedupeKeys := w.dedupeKeys.filter fun key inserted =>
      w.liveDedupeKeysLocked.contains key || now - inserted < dedupeKeyRetention }

/-- The inner loop of `moveReadyJobs`: the due jobs, in heap order, and the heap left. -/
def drain (now : Time) (h : Array DelayedJob) : List Wrapper × Array DelayedJob :=
  match h[0]? with
  | none => ([], h)
  | some top =>
    if now < top.runAt then ([], h)
    else
      match hp : BinaryHeap.pop DelayedJob.less h with
      | none => ([], h)
      | some (job, rest) =>
        let (ready, left) := drain now rest
        (job.wrapper :: ready, left)
termination_by h.size
decreasing_by exact BinaryHeap.pop_size hp

def promote (queue : String) : MemWorld :=
  match w.delayed.lookup queue with
  | none => w
  | some h =>
    let (ready, left) := drain w.clock h
    { w with
      queues := if ready = [] then w.queues
        else w.queues.insert queue (FMap.items w.queues queue ++ ready)
      delayed := if left.isEmpty then w.delayed.erase queue else w.delayed.insert queue left }

def moveReadyJobs : MemWorld := w.delayed.keys.foldl promote w

def forget (ptr : Nat) (v : Wrapper) : Wrapper := if v.ptr = ptr then { v with job := none } else v

def forgetJob (ptr : Nat) : MemWorld :=
  { w with queues := FMap.mapValues (List.map (forget ptr)) w.queues }

end MemWorld

def memStep (registry : Registry) (w : MemWorld) (env : MemEnv) :
    (o : MemOp) → o.Res × MemWorld
  | .now => (w.clock, w)
  | .enqueue wrapper name => ((), w.pushBack wrapper name)
  | .delay wrapper delay name =>
    ((), { w with
      delayed := w.heapPush name ⟨w.publish wrapper, w.clock + delay⟩
      nextPtr := w.nextPtr + 1 })
  | .claim wrapper dedupeKey name => w.claim wrapper dedupeKey name
  | .popWrapper queue => w.popWrapper queue
  | .reserveNext queue => w.reserveNext queue
  | .getJobFromWrapper wrapper =>
    match wrapper.job, env.poison with
    | some job, _ => (.ok job, w)
    | none, some e => (.error e, w)
    | none, none => (registry wrapper.payload, w)
  | .handOut wrapper => ((), { w with popping := w.letGo wrapper })
  | .quarantine queue token wrapper exception => w.quarantine queue token wrapper exception
  | .ack token => w.ack token
  | .release token delay => w.release token delay
  | .failReserved token job errText queue => w.failReserved token job errText queue
  | .recordFailed wrapper job errText queue =>
    ((), { w with
      failed := w.addFailed queue ⟨w.publish wrapper, some job, errText, w.clock⟩
      nextPtr := w.nextPtr + 1 })
  | .runFailedHook _ _ =>
    match env.hookPanics with
    | some e => (.error (.pair .failedHookPanicked e), w)
    | none => (.ok (), w)
  | .clear queue => ((), w.clear queue)
  | .moveReadyJobs => ((), w.moveReadyJobs)
  | .sweepStaleDedupeKeys now => ((), w.sweepStaleDedupeKeys now)
  | .forgetJob ptr => ((), w.forgetJob ptr)

def memExec (registry : Registry) (w : MemWorld) (env : MemEnv) (o : MemOp) : o.Res × MemWorld :=
  memStep registry { w with clock := w.clock + env.elapsed } env o

def admitted (ctx : Option CtxErr) (job : Option Job) (queueName : Option String) :
    Except Err (JobWrapper × String) :=
  match ctx with
  | some e => .error e.toErr
  | none => do
    let (job, name) ← admitJob job queueName
    let wrapper ← createJobWrapper job name
    .ok (wrapper, name)

abbrev MemProg := Prog MemOp.Res

namespace MemoryDriver

variable (ctx : Option CtxErr)

def pushCtx (job : Option Job) (queueName : Option String) : MemProg (Except Err Unit) :=
  match admitted ctx job queueName with
  | .error e => .ret (.error e)
  | .ok (wrapper, name) => .call (MemOp.enqueue wrapper name) fun _ => .ret (.ok ())

def pushDelayedCtx (job : Option Job) (delay : Duration)
    (queueName : Option String) : MemProg (Except Err Unit) :=
  match admitted ctx job queueName with
  | .error e => .ret (.error e)
  | .ok (wrapper, name) => .call (MemOp.delay wrapper delay name) fun _ => .ret (.ok ())

def pushIfNotExistsCtx (job : Option Job) (dedupeKey : String)
    (queueName : Option String) : MemProg (Except Err Unit) :=
  if dedupeKey = "" then pushCtx ctx job queueName
  else
    match admitted ctx job queueName with
    | .error e => .ret (.error e)
    | .ok (wrapper, name) =>
      .call (MemOp.claim { wrapper with dedupeKey } dedupeKey name) fun _ => .ret (.ok ())

def quarantine (queueName : String) (token : ReservationToken) (wrapper : Wrapper) (cause : Err) :
    MemProg Err :=
  let poisonErr := Err.wrap "velocity/queue: failed to restore job from wrapper" cause
  .call (MemOp.quarantine queueName token wrapper poisonErr.message) fun res =>
    match res with
    | .ok () => .ret (.join .poisonJob poisonErr)
    | .error e => .ret e

def popCtx (queueName : String) : MemProg (Except Err (Option Job)) :=
  match ctx with
  | some e => .ret (.error e.toErr)
  | none =>
    .call (MemOp.popWrapper queueName) fun popped =>
      match popped with
      | none => .ret (.ok none)
      | some wrapper =>
        .call (MemOp.getJobFromWrapper wrapper) fun rebuilt =>
          match rebuilt with
          | .ok job => .call (MemOp.handOut wrapper) fun _ => .ret (.ok (some job))
          | .error cause => do
            let err ← quarantine queueName .zero wrapper cause
            return .error err

def popCtxReserved (queueName : String) : MemProg (Except Err (Option (Job × ReservationToken))) :=
  match ctx with
  | some e => .ret (.error e.toErr)
  | none =>
    .call (MemOp.reserveNext queueName) fun reserved =>
      match reserved with
      | none => .ret (.ok none)
      | some (wrapper, token) =>
        match wrapper.job with
        | some job => .ret (.ok (some (job, token)))
        | none =>
          .call (MemOp.getJobFromWrapper wrapper) fun rebuilt =>
            match rebuilt with
            | .ok job => .ret (.ok (some (job, token)))
            | .error cause => do
              let err ← quarantine queueName token wrapper cause
              return .error err

def ackCtx (token : ReservationToken) : MemProg (Except Err Unit) :=
  if token.isZero then .ret (.ok ())
  else
    match ctx with
    | some e => .ret (.error e.toErr)
    | none => .call (MemOp.ack token) fun res => .ret (res.map fun _ => ())

def releaseCtx (token : ReservationToken) (delay : Duration) : MemProg (Except Err Unit) :=
  if token.isZero then .ret (.ok ())
  else
    match ctx with
    | some e => .ret (.error e.toErr)
    | none =>
      .call (MemOp.release token (if delay < 0 then 0 else delay)) fun res =>
        .ret (res.map fun _ => ())

def failedCtx (job : Job) (err : Err) (queueName : String) : MemProg (Except Err Unit) :=
  match createJobWrapper job queueName with
  | .error e => .ret (.error e)
  | .ok wrapper =>
    .call (MemOp.recordFailed wrapper job err.message queueName) fun _ =>
      .perform (MemOp.runFailedHook job err)

def failReservedCtx (token : ReservationToken) (job : Job) (jobErr : Err)
    (queueName : String) : MemProg (Except Err Unit) :=
  if token.isZero then failedCtx job jobErr queueName
  else
    match ctx with
    | some e => .ret (.error e.toErr)
    | none =>
      .call (MemOp.failReserved token job jobErr.message queueName) fun res =>
        match res with
        | .error e => .ret (.error e)
        | .ok _ => .perform (MemOp.runFailedHook job jobErr)

def clear (queueName : String) : MemProg (Except Err Unit) :=
  .call (MemOp.clear queueName) fun _ => .ret (.ok ())

/-- The sweep of `processDelayedJobs`, which reads the clock before it takes the lock. -/
def sweep : MemProg (Except Err Unit) :=
  .call MemOp.now fun now => .call (MemOp.sweepStaleDedupeKeys now) fun _ => .ret (.ok ())

def moveReadyJobs : MemProg (Except Err Unit) :=
  .call MemOp.moveReadyJobs fun _ => .ret (.ok ())

end MemoryDriver

inductive MemCall
  | pushCtx (ctx : Option CtxErr) (job : Option Job) (queueName : Option String)
  | pushDelayedCtx (ctx : Option CtxErr) (job : Option Job) (delay : Duration)
      (queueName : Option String)
  | pushIfNotExistsCtx (ctx : Option CtxErr) (job : Option Job) (dedupeKey : String)
      (queueName : Option String)
  | popCtx (ctx : Option CtxErr) (queueName : String)
  | popCtxReserved (ctx : Option CtxErr) (queueName : String)
  | ackCtx (ctx : Option CtxErr) (token : ReservationToken)
  | releaseCtx (ctx : Option CtxErr) (token : ReservationToken) (delay : Duration)
  | failReservedCtx (ctx : Option CtxErr) (token : ReservationToken) (job : Job) (jobErr : Err)
      (queueName : String)
  | failedCtx (job : Job) (err : Err) (queueName : String)
  | clear (queueName : String)
  | moveReadyJobs
  | sweep
  | forgetJob (ptr : Nat)

abbrev MemAnswer := Except Err (Option (Job × ReservationToken))

def MemCall.plain (p : MemProg (Except Err Unit)) : MemProg MemAnswer :=
  p >>= fun r => .ret (r.map fun _ => none)

def MemCall.body : MemCall → MemProg MemAnswer
  | .pushCtx ctx job q => plain (MemoryDriver.pushCtx ctx job q)
  | .pushDelayedCtx ctx job delay q => plain (MemoryDriver.pushDelayedCtx ctx job delay q)
  | .pushIfNotExistsCtx ctx job key q => plain (MemoryDriver.pushIfNotExistsCtx ctx job key q)
  | .popCtx ctx q => MemoryDriver.popCtx ctx q >>= fun r =>
    .ret (r.map fun popped => popped.map fun job => (job, .zero))
  | .popCtxReserved ctx q => MemoryDriver.popCtxReserved ctx q
  | .ackCtx ctx token => plain (MemoryDriver.ackCtx ctx token)
  | .releaseCtx ctx token delay => plain (MemoryDriver.releaseCtx ctx token delay)
  | .failReservedCtx ctx token job e q => plain (MemoryDriver.failReservedCtx ctx token job e q)
  | .failedCtx job e q => plain (MemoryDriver.failedCtx job e q)
  | .clear q => plain (MemoryDriver.clear q)
  | .moveReadyJobs => plain MemoryDriver.moveReadyJobs
  | .sweep => plain MemoryDriver.sweep
  | .forgetJob ptr => .call (MemOp.forgetJob ptr) fun _ => .ret (.ok none)

def memorySystem (registry : Registry) : System MemOp.Res MemWorld MemEnv MemCall MemAnswer where
  body := MemCall.body
  exec := memExec registry

end Velocity.Queue
