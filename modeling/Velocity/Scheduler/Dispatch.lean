import Velocity.Lib.Panic
import Velocity.Lib.Pool

/-! What a tick does with a job that is due: it joins the run, takes the locks the job asks for and
hands the job to a goroutine, which runs it and gives back what was taken; that of a command in the
background hands over to a waiter. The three follow one another, so a dispatch is one thread; the
dispatches of all ticks interleave. -/

namespace Scheduling

open Interleave Code Code.Quiet Nat

abbrev PanicValue := Nat

inductive RunError
  | raised (n : Nat)
  | recovered (v : PanicValue)
  | jobRunning
  | contextDone
  deriving DecidableEq, Repr

inductive Guard
  | oneServer
  | overlap
  deriving DecidableEq, Repr

inductive Framing
  | startSpan
  | bindLogger
  | debugLine
  deriving DecidableEq, Repr

inductive Hook
  | before (i : Nat)
  | after (i : Nat)
  | onSuccess (i : Nat)
  | onFailure (i : Nat) (err : RunError)
  deriving DecidableEq, Repr

inductive TaskEvent
  | started
  | finished
  | failed (err : RunError)
  deriving DecidableEq, Repr

/-- What the waiter of a background process sees first. -/
inductive Select
  | waitDone (err : Option RunError)
  | contextDone
  deriving DecidableEq, Repr

inductive DispatchOp
  | join
  | acquire (g : Guard)
  | releaseLock (g : Guard)
  | release
  | writeLine
  | framing (f : Framing)
  | enterRun (job : Nat) (withoutOverlapping : Bool)
  | clearRunningFlag (job : Nat)
  | event (e : TaskEvent)
  | hook (h : Hook)
  | beginClosure
  | endClosure
  | openFile
  | chmod
  | closeFile
  | startCommand
  | beginCommand
  | endCommand
  | select
  | signalShutdown
  | awaitProcess

/-- User code, a locker and the framing's logger may panic; the rest is contained. -/
@[reducible] def DispatchOp.Res : DispatchOp → Type
  | .acquire _ => Except PanicValue (Except RunError Bool)
  | .releaseLock _ => Except PanicValue (Option RunError)
  | .framing _ | .hook _ => Except PanicValue Unit
  | .endClosure => Except PanicValue (Option RunError)
  | .enterRun _ _ => Bool
  | .openFile | .chmod | .startCommand | .endCommand | .awaitProcess => Option RunError
  | .select => Select
  | .join | .release | .writeLine | .clearRunningFlag _ | .event _ | .beginClosure
  | .closeFile | .beginCommand | .signalShutdown => Unit

inductive JobBody
  | errCallback
  | callback
  | command (outputFile runInBackground : Bool)
  | nothing
  deriving DecidableEq, Repr

structure Task where
  job : Nat
  onOneServer : Bool
  withoutOverlapping : Bool
  locker : Bool
  body : JobBody
  beforeCallbacks : Nat
  afterCallbacks : Nat
  onSuccessCallbacks : Nat
  onFailureCallbacks : Nat
  deriving DecidableEq, Repr

structure DispatchVars where
  claimed : Bool
  /-- Set once a waiter owns the release, with whether it holds an output file. -/
  waiter : Option Bool
  deriving DecidableEq, Repr

abbrev Dispatch (α : Type) : Type := Code DispatchOp.Res PanicValue DispatchVars α

namespace Dispatch

abbrev call (o : DispatchOp) : Dispatch o.Res := Code.perform o

end Dispatch

open Dispatch

def acquireLockSafely (g : Guard) : Dispatch (Except RunError Bool) :=
  (call (.acquire g) >>= Code.raise).recovering fun v => pure (.error (.recovered v))

def releaseLockSafely (g : Guard) : Dispatch (Option RunError) :=
  (call (.releaseLock g) >>= Code.raise).recovering fun v => pure (some (.recovered v))

def skipAfterAcquireFailure : Dispatch Unit :=
  (call .writeLine).deferring fun _ => call .release

def releaseTask (overlapLock : Bool) : Dispatch Unit := do
  let vars ← Code.read
  if vars.claimed then pure ()
  else do
    Code.assign fun v => { v with claimed := true }
    Code.when overlapLock (releaseLockSafely .overlap >>= fun _ => pure ())
    call .release

def runHookIsolated (onPanic : RunError → Dispatch Unit) (h : Hook) : Dispatch Unit :=
  (call (.hook h) >>= Code.raise).recovering fun v => onPanic (.recovered v)

def onHookPanic (err : RunError) : Dispatch Unit := call (.event (.failed err))

def runHooks (hook : Nat → Hook) (n : Nat) : Dispatch Unit :=
  Code.upTo (fun i => runHookIsolated onHookPanic (hook i)) n

def Task.finish (t : Task) (err : Option RunError) (panicDispatched : Bool) : Dispatch Unit := do
  runHooks .after t.afterCallbacks
  match err with
  | some e => do
    runHooks (.onFailure · e) t.onFailureCallbacks
    Code.when (!panicDispatched) (call (.event (.failed e)))
  | none => do
    runHooks .onSuccess t.onSuccessCallbacks
    call (.event .finished)

def runClosure (reportsError : Bool) : Dispatch (Option RunError × Bool) :=
  (do
    call .beginClosure
    let err ← call .endClosure >>= Code.raise
    pure (if reportsError then err else none, false)).recovering fun v => do
      call (.event (.failed (.recovered v)))
      pure (some (.recovered v), true)

/-- Opens the output file of a command: whether it is open, and the error. -/
def openOutput (outputFile : Bool) : Dispatch (Bool × Option RunError) :=
  if outputFile then do
    match ← call .openFile with
    | some e => pure (false, some e)
    | none =>
      match ← call .chmod with
      | some e => do
        call .closeFile
        pure (false, some e)
      | none => pure (true, none)
  else pure (false, none)

/-- A command in the foreground runs if its output file could be opened. -/
def runForeground (err : Option RunError) : Dispatch (Option RunError) :=
  match err with
  | some e => pure (some e)
  | none => do
    call .beginCommand
    call .endCommand

/-- Nothing is returned when a waiter has been started. -/
def runCommand (outputFile runInBackground : Bool) : Dispatch (Option (Option RunError)) := do
  let (outFile, err) ← openOutput outputFile
  if runInBackground && err.isNone then do
    match ← call .startCommand with
    | some e => do
      Code.when outFile (call .closeFile)
      pure (some (some e))
    | none => do
      Code.assign fun v => { v with waiter := some outFile }
      pure none
  else do
    let err ← runForeground err
    Code.when outFile (call .closeFile)
    pure (some err)

def Task.execute (t : Task) : Dispatch (Option RunError) := do
  call (.event .started)
  runHooks .before t.beforeCallbacks
  let out ← (match t.body with
    | .errCallback => do return some (← runClosure true)
    | .callback => do return some (← runClosure false)
    | .command outputFile runInBackground => do
      return (← runCommand outputFile runInBackground).map (·, false)
    | .nothing => pure (some (none, false)))
  match out with
  | none => pure none
  | some (err, panicDispatched) => do
    t.finish err panicDispatched
    pure err

def Task.runInternal (t : Task) (overlapLock : Bool) : Dispatch (Option RunError) := do
  if ← call (.enterRun t.job t.withoutOverlapping) then do
    releaseTask overlapLock
    pure (some .jobRunning)
  else
    t.execute.deferring fun r => do
      let vars ← Code.read
      if vars.waiter.isSome then Code.raise r
      else do
        call (.clearRunningFlag t.job)
        match r with
        | .error v => Code.panic v
        | .ok err => do
          releaseTask overlapLock
          pure err

def Task.goroutine (t : Task) (overlapLock : Bool) : Dispatch Unit :=
  (do
    call (.framing .startSpan) >>= Code.raise
    call (.framing .bindLogger) >>= Code.raise
    call (.framing .debugLine) >>= Code.raise
    t.runInternal overlapLock >>= fun _ => pure ()).recovering fun _ =>
      (call .writeLine).deferring fun _ => releaseTask overlapLock

def awaitCommand : Dispatch (Option RunError) := do
  match ← call .select with
  | .waitDone err => pure err
  | .contextDone => do
    call .signalShutdown
    let err ← call .awaitProcess
    pure (err.or (some .contextDone))

def Task.backgroundWaiter (t : Task) (outFile overlapLock : Bool) : Dispatch Unit :=
  (do
    let err ← awaitCommand
    t.finish err false).deferring fun r => do
      (match r with
        | .error v => call (.event (.failed (.recovered v)))
        | .ok _ => pure ())
      Code.when outFile (call .closeFile)
      call (.clearRunningFlag t.job)
      releaseTask overlapLock

def acquireFor (wanted : Bool) (g : Guard) : Dispatch (Except RunError Bool) :=
  if wanted then acquireLockSafely g else pure (.ok false)

def Task.start (t : Task) (oneServerLock : Bool) : Dispatch Unit := do
  match ← acquireFor (t.withoutOverlapping && t.locker) .overlap with
  | .error _ => do
    Code.when oneServerLock (releaseLockSafely .oneServer >>= fun _ => pure ())
    skipAfterAcquireFailure
  | .ok overlapLock => do
    t.goroutine overlapLock
    match (← Code.read).waiter with
    | some outFile => t.backgroundWaiter outFile overlapLock
    | none => pure ()

/-- A due job from its join to the end of everything it started. -/
def Task.dispatch (t : Task) : Dispatch Unit := do
  call .join
  match ← acquireFor (t.onOneServer && t.locker) .oneServer with
  | .error _ => skipAfterAcquireFailure
  | .ok oneServerLock => t.start oneServerLock

structure RunningJobs where
  running : List Nat
  deriving DecidableEq, Repr

/-- The environment answers every operation but the one on the running flag. -/
def RunningJobs.exec (w : RunningJobs) (env : (o : DispatchOp) → o.Res) :
    (o : DispatchOp) → o.Res × RunningJobs
  | .enterRun job withoutOverlapping =>
    if withoutOverlapping && w.running.contains job then (true, w)
    else (false, ⟨job :: w.running⟩)
  | .clearRunningFlag job => ((), ⟨w.running.filter (· != job)⟩)
  | o => (env o, w)

abbrev DispatchEnd := Except PanicValue Unit × DispatchVars

def dispatchSystem :
    System DispatchOp.Res RunningJobs ((o : DispatchOp) → o.Res) Task DispatchEnd where
  body t := t.dispatch ⟨false, none⟩
  exec := RunningJobs.exec

structure Account where
  joins : Nat
  releases : Nat
  oneServerTaken : Nat
  oneServerReturned : Nat
  overlapTaken : Nat
  overlapFailed : Nat
  overlapReturned : Nat
  begun : Nat
  ended : Nat
  deriving DecidableEq, Repr

namespace Account

def zero : Account := ⟨0, 0, 0, 0, 0, 0, 0, 0, 0⟩

def count (a : Account) : (o : DispatchOp) → o.Res → Account
  | .join, _ => { a with joins := a.joins + 1 }
  | .release, _ => { a with releases := a.releases + 1 }
  | .acquire .oneServer, .ok (.ok true) => { a with oneServerTaken := a.oneServerTaken + 1 }
  | .acquire .overlap, .ok (.ok true) => { a with overlapTaken := a.overlapTaken + 1 }
  | .acquire .overlap, .ok (.error _) => { a with overlapFailed := a.overlapFailed + 1 }
  | .acquire .overlap, .error _ => { a with overlapFailed := a.overlapFailed + 1 }
  | .releaseLock .oneServer, _ => { a with oneServerReturned := a.oneServerReturned + 1 }
  | .releaseLock .overlap, _ => { a with overlapReturned := a.overlapReturned + 1 }
  | .beginClosure, _ => { a with begun := a.begun + 1 }
  | .endClosure, _ => { a with ended := a.ended + 1 }
  | .beginCommand, _ => { a with begun := a.begun + 1 }
  | .endCommand, _ => { a with ended := a.ended + 1 }
  | .startCommand, none => { a with begun := a.begun + 1 }
  | .select, .waitDone _ => { a with ended := a.ended + 1 }
  | .awaitProcess, _ => { a with ended := a.ended + 1 }
  | _, _ => a

/-- A lock and the unit of the run are given back while they are held, once no closure and no
process of the dispatch runs, and none begins afterwards. -/
def Permits (a : Account) : DispatchOp → Prop
  | .join => a.joins = 0
  | .acquire .overlap => a.joins = 1 ∧ a.releases = 0 ∧ a.overlapTaken = 0
  | .acquire .oneServer => a.joins = 1 ∧ a.releases = 0 ∧ a.oneServerTaken = 0
  | .releaseLock .overlap => a.overlapReturned < a.overlapTaken ∧ a.begun = a.ended
  | .releaseLock .oneServer => a.oneServerReturned < a.oneServerTaken ∧ 0 < a.overlapFailed
  | .release => a.releases < a.joins ∧ a.overlapReturned = a.overlapTaken ∧ a.begun = a.ended
  | .beginClosure | .beginCommand | .startCommand =>
    a.joins = 1 ∧ a.releases = 0 ∧ a.overlapReturned = 0
  | _ => True

/-- The one server lock goes back only if the overlap lock of the job could not be taken. -/
structure Balanced (a : Account) : Prop where
  joined : a.joins = 1
  released : a.releases = 1
  overlap_once : a.overlapTaken ≤ 1
  overlap : a.overlapReturned = a.overlapTaken
  ended : a.ended = a.begun
  oneServer : a.oneServerReturned = if a.overlapFailed = 0 then 0 else a.oneServerTaken

end Account

def accountant : Monitor DispatchOp.Res where
  State := Account
  init := Account.zero
  allowed _ _ := True
  guard a o _ := a.Permits o
  next a o r := a.count o r

def account (log : Log DispatchOp.Res) (i : Nat) : Account := accountant.stateOf log i

/-- The dispatch has joined and holds its locks; `running` closures or processes of it run. -/
structure Account.Owes (overlapLock : Bool) (running : Nat) (a : Account) : Prop where
  joins : a.joins = 1
  releases : a.releases = 0
  oneServerReturned : a.oneServerReturned = 0
  overlapTaken : a.overlapTaken = overlapLock.toNat
  overlapFailed : a.overlapFailed = 0
  overlapReturned : a.overlapReturned = 0
  begun : a.begun = a.ended + running

section Specs

variable {a : Account} {vars : DispatchVars} {overlapLock : Bool}

abbrev Returns {α : Type} (Q : DispatchVars → Account → Prop) (r : Except PanicValue α)
    (vars : DispatchVars) (a : Account) : Prop := ∃ x, r = .ok x ∧ Q vars a

theorem quiet_writeLine : (call .writeLine).Quiet accountant :=
  perform fun _ _ => ⟨trivial, rfl⟩

theorem quiet_event (e : TaskEvent) : (call (.event e)).Quiet accountant :=
  perform fun _ _ => ⟨trivial, rfl⟩

theorem quiet_closeFile : (call .closeFile).Quiet accountant :=
  perform fun _ _ => ⟨trivial, rfl⟩

theorem quiet_clearRunningFlag (job : Nat) : (call (.clearRunningFlag job)).Quiet accountant :=
  perform fun _ _ => ⟨trivial, rfl⟩

theorem quiet_runHooks (hook : Nat → Hook) (n : Nat) : (runHooks hook n).Quiet accountant := by
  refine upTo (fun i => ?_) n
  refine recovering_raise (perform fun _ _ => ⟨trivial, rfl⟩) fun v => ?_
  exact quiet_event _

variable (t : Task)

theorem Task.quiet_finish (err : Option RunError) (panicDispatched : Bool) :
    (t.finish err panicDispatched).Quiet accountant := by
  refine (quiet_runHooks _ _).bind fun _ => ?_
  cases err with
  | some e => exact (quiet_runHooks _ _).bind fun _ => (quiet_event _).when
  | none => exact (quiet_runHooks _ _).bind fun _ => quiet_event _

theorem quiet_openOutput (outputFile : Bool) : (openOutput outputFile).Quiet accountant := by
  cases outputFile with
  | false => exact pure _
  | true =>
    refine (perform fun _ _ => ⟨trivial, rfl⟩).bind fun r => ?_
    cases r with
    | some e => exact pure _
    | none =>
      refine (perform fun _ _ => ⟨trivial, rfl⟩).bind fun r => ?_
      cases r with
      | some e => exact quiet_closeFile.bind fun _ => pure _
      | none => exact pure _

variable {g : Guard}

theorem wp_releaseLockSafely (h : a.Permits (.releaseLock g)) :
    (releaseLockSafely g).wp accountant vars a fun r vars' a' =>
      ∃ e, r = .ok e ∧ vars' = vars ∧ a' = a.count (.releaseLock g) (.ok none) := by
  intro r _
  have hcount : a.count (.releaseLock g) r = a.count (.releaseLock g) (.ok none) := by
    cases g <;> rfl
  refine ⟨h, ?_⟩
  cases r with
  | ok e => exact ⟨e, rfl, rfl, hcount⟩
  | error v => exact ⟨some (.recovered v), rfl, rfl, hcount⟩

theorem wp_releaseHeld {held : Bool} (h : held = true → a.Permits (.releaseLock g)) :
    (Code.when held (releaseLockSafely g >>= fun _ => pure ())).wp accountant vars a
      fun r vars' a' => ∃ u, r = .ok u ∧ vars' = vars ∧
        a' = if held then a.count (.releaseLock g) (.ok none) else a := by
  cases held with
  | false => exact ⟨(), rfl, rfl, rfl⟩
  | true =>
    refine wp_bind_of (wp_releaseLockSafely (h rfl)) ?_
    rintro _ vars' a' ⟨rfl, rfl⟩
    exact ⟨(), rfl, rfl, rfl⟩

theorem wp_releaseTask (h : a.Owes overlapLock 0) (hv : vars.claimed = false) :
    (releaseTask overlapLock).wp accountant vars a (Returns fun vars' a' =>
      vars' = { vars with claimed := true } ∧ a'.Balanced) := by
  have hreturned := h.overlapReturned
  have htaken := h.overlapTaken
  have hpermits : overlapLock = true → a.Permits (.releaseLock .overlap) := by
    intro hl
    rw [hl, Bool.toNat_true] at htaken
    exact ⟨by omega, h.begun⟩
  have hback : (if overlapLock then a.count (.releaseLock .overlap) (.ok none) else a) =
      { a with overlapReturned := a.overlapTaken } := by
    cases overlapLock with
    | false =>
      have he : a.overlapReturned = a.overlapTaken := hreturned.trans htaken.symm
      exact congrArg (fun k => { a with overlapReturned := k }) he
    | true =>
      have he : a.overlapReturned + 1 = a.overlapTaken := by rw [hreturned, htaken]; rfl
      exact congrArg (fun k => { a with overlapReturned := k }) he
  refine wp_read_bind.mpr ?_
  rw [hv]
  refine wp_assign_bind.mpr (wp_bind_of (wp_releaseHeld hpermits) ?_)
  rintro _ vars' a' ⟨rfl, rfl⟩ r _
  rw [hback]
  have hjoins := h.joins
  have hreleases := h.releases
  refine ⟨⟨?_, rfl, h.begun⟩, (), rfl, rfl, ?_⟩
  · simp only
    omega
  · constructor
    · exact hjoins
    · exact congrArg (· + 1) hreleases
    · have htaken := h.overlapTaken
      have hle := Bool.toNat_le overlapLock
      show a.overlapTaken ≤ 1
      omega
    · rfl
    · exact h.begun.symm
    · show a.oneServerReturned = if a.overlapFailed = 0 then 0 else a.oneServerTaken
      rw [h.overlapFailed, if_pos rfl, h.oneServerReturned]

def Handed (overlapLock : Bool) (vars : DispatchVars) (a : Account) : Prop :=
  vars.claimed = false ∧
    (vars.waiter = none ∧ a.Owes overlapLock 0 ∨
      (∃ outFile, vars.waiter = some outFile) ∧ a.Owes overlapLock 1)

theorem Account.Owes.permits_begin {o : DispatchOp} (h : a.Owes overlapLock 0)
    (ho : o = .beginClosure ∨ o = .beginCommand ∨ o = .startCommand) : a.Permits o := by
  rcases ho with rfl | rfl | rfl
  all_goals exact ⟨h.joins, h.releases, h.overlapReturned⟩

theorem Account.Owes.begin (h : a.Owes overlapLock 0) :
    Account.Owes overlapLock 1 { a with begun := a.begun + 1 } :=
  { h with begun := congrArg (· + 1) h.begun }

theorem Account.Owes.finish (h : a.Owes overlapLock 1) :
    Account.Owes overlapLock 0 { a with ended := a.ended + 1 } :=
  { h with begun := h.begun }

theorem wp_runClosure (reportsError : Bool) (h : a.Owes overlapLock 0) :
    (runClosure reportsError).wp accountant vars a (Returns fun vars' a' =>
      vars' = vars ∧ a'.Owes overlapLock 0) := by
  refine wp_recovering.mpr (wp_perform_bind.mpr ?_)
  intro u _
  refine ⟨h.permits_begin (.inl rfl), wp_bind.mpr (wp_raise.mpr ?_)⟩
  intro r _
  refine ⟨trivial, ?_⟩
  have hdone : Account.Owes overlapLock 0
      { a with begun := a.begun + 1, ended := a.ended + 1 } := h.begin.finish
  cases r with
  | ok err => exact ⟨_, rfl, rfl, hdone⟩
  | error v =>
    have hpanic : (do
        call (.event (.failed (.recovered v)))
        pure (some (.recovered v), true) : Dispatch (Option RunError × Bool)).wp accountant vars
          { a with begun := a.begun + 1, ended := a.ended + 1 } (Returns fun vars' a' =>
            vars' = vars ∧ a'.Owes overlapLock 0) :=
      (quiet_event _).wp_bind fun _ => ⟨_, rfl, rfl, hdone⟩
    exact hpanic

theorem wp_runForeground (err : Option RunError) (h : a.Owes overlapLock 0) :
    (runForeground err).wp accountant vars a (Returns fun vars' a' =>
      vars' = vars ∧ a'.Owes overlapLock 0) := by
  cases err with
  | some e => exact ⟨_, rfl, rfl, h⟩
  | none =>
    intro u _
    refine ⟨h.permits_begin (.inr (.inl rfl)), ?_⟩
    intro r _
    exact ⟨trivial, r, rfl, rfl, h.begin.finish⟩

def Settled (overlapLock : Bool) (vars : DispatchVars) (a : Account) : Prop :=
  vars.waiter = none ∧ a.Balanced ∨
    (∃ outFile, vars.waiter = some outFile) ∧ vars.claimed = false ∧ a.Owes overlapLock 1

theorem wp_framing {β : Type} {f : Framing} {k : Unit → Dispatch β}
    {Q : Except PanicValue β → DispatchVars → Account → Prop}
    (hk : (k ()).wp accountant vars a Q) (hpanic : ∀ v, Q (.error v) vars a) :
    ((call (.framing f) >>= Code.raise) >>= k).wp accountant vars a Q := by
  intro r _
  refine ⟨trivial, ?_⟩
  cases r with
  | ok u => exact hk
  | error v => exact hpanic v

section

variable (h : a.Owes overlapLock 0) (hv : vars.claimed = false) (hw : vars.waiter = none)

include h hv hw

theorem wp_runCommand (outputFile runInBackground : Bool) :
    (runCommand outputFile runInBackground).wp accountant vars a (Returns (Handed overlapLock)) := by
  have hhere : Handed overlapLock vars a := ⟨hv, .inl ⟨hw, h⟩⟩
  refine (quiet_openOutput _).wp_bind fun out => ?_
  obtain ⟨outFile, err⟩ := out
  show wp accountant (if (runInBackground && err.isNone) = true then _ else _) vars a _
  split
  · refine wp_perform_bind.mpr ?_
    intro r _
    refine ⟨h.permits_begin (.inr (.inr rfl)), ?_⟩
    cases r with
    | some e =>
      refine (quiet_closeFile.when).wp_bind fun _ => ?_
      exact ⟨_, rfl, hhere⟩
    | none => exact ⟨none, rfl, hv, .inr ⟨⟨outFile, rfl⟩, h.begin⟩⟩
  · refine wp_bind_of (wp_runForeground err h) ?_
    rintro e vars' a' ⟨rfl, ha⟩
    refine (quiet_closeFile.when).wp_bind fun _ => ?_
    exact ⟨_, rfl, hv, .inl ⟨hw, ha⟩⟩

theorem Task.wp_execute : t.execute.wp accountant vars a (Returns (Handed overlapLock)) := by
  refine (quiet_event _).wp_bind fun _ => (quiet_runHooks _ _).wp_bind fun _ => ?_
  refine wp_bind_of (P := fun _ => Handed overlapLock) ?_ ?_
  · have hclosure : ∀ b, (do return some (← runClosure b) :
        Dispatch (Option (Option RunError × Bool))).wp accountant vars a
          (Returns (Handed overlapLock)) := by
      intro b
      refine wp_bind_of (wp_runClosure b h) ?_
      rintro p vars' a' ⟨rfl, ha⟩
      exact ⟨_, rfl, hv, .inl ⟨hw, ha⟩⟩
    cases t.body with
    | errCallback => exact hclosure true
    | callback => exact hclosure false
    | command outputFile runInBackground =>
      refine wp_bind_of (wp_runCommand h hv hw outputFile runInBackground) ?_
      intro p vars' a' hh
      exact ⟨_, rfl, hh⟩
    | nothing => exact ⟨_, rfl, hv, .inl ⟨hw, h⟩⟩
  · intro out vars' a' hh
    cases out with
    | none => exact ⟨none, rfl, hh⟩
    | some p =>
      refine (t.quiet_finish _ _).wp_bind fun _ => ?_
      exact ⟨_, rfl, hh⟩

theorem Task.wp_runInternal :
    (t.runInternal overlapLock).wp accountant vars a (Returns (Settled overlapLock)) := by
  refine wp_perform_bind.mpr ?_
  intro gate _
  refine ⟨trivial, ?_⟩
  cases gate with
  | true =>
    refine wp_bind_of (wp_releaseTask h hv) ?_
    rintro _ vars' a' ⟨rfl, ha⟩
    exact ⟨_, rfl, .inl ⟨hw, ha⟩⟩
  | false =>
    rw [if_neg Bool.false_ne_true]
    refine wp_deferring_of (t.wp_execute h hv hw) ?_
    rintro _ vars' a' ⟨e, rfl, hv', hhand⟩
    refine wp_read_bind.mpr ?_
    rcases hhand with ⟨hw', ho⟩ | ⟨⟨outFile, hw'⟩, ho⟩
    · rw [hw']
      refine (quiet_clearRunningFlag _).wp_bind fun _ => ?_
      refine wp_bind_of (wp_releaseTask ho hv') ?_
      rintro _ vars'' a'' ⟨rfl, ha⟩
      exact ⟨_, rfl, .inl ⟨hw', ha⟩⟩
    · rw [hw']
      exact ⟨e, rfl, .inr ⟨⟨outFile, hw'⟩, hv', ho⟩⟩

theorem Task.wp_goroutine :
    (t.goroutine overlapLock).wp accountant vars a (Returns (Settled overlapLock)) := by
  -- a panic of the framing: nothing runs yet, and the recovery gives everything back
  have hrecover : ((call .writeLine).deferring fun _ => releaseTask overlapLock).wp accountant
      vars a (Returns (Settled overlapLock)) := by
    refine wp_deferring_of (quiet_writeLine vars a) ?_
    rintro r vars' a' ⟨-, rfl, rfl⟩
    refine wp_mono (wp_releaseTask h hv) ?_
    rintro r vars' a' ⟨u, rfl, rfl, ha⟩
    exact ⟨u, rfl, .inl ⟨hw, ha⟩⟩
  refine wp_recovering.mpr ?_
  refine wp_framing (wp_framing (wp_framing ?_ fun _ => hrecover) fun _ => hrecover) fun _ => hrecover
  refine wp_bind_of (t.wp_runInternal h hv hw) ?_
  intro e vars' a' hs
  exact ⟨(), rfl, hs⟩

end

theorem wp_awaitCommand (h : a.Owes overlapLock 1) :
    awaitCommand.wp accountant vars a (Returns fun vars' a' =>
      vars' = vars ∧ a'.Owes overlapLock 0) := by
  refine wp_perform_bind.mpr ?_
  intro r _
  refine ⟨trivial, ?_⟩
  cases r with
  | waitDone err => exact ⟨err, rfl, rfl, h.finish⟩
  | contextDone =>
    refine wp_perform_bind.mpr ?_
    intro u _
    refine ⟨trivial, wp_perform_bind.mpr ?_⟩
    intro r _
    exact ⟨trivial, _, rfl, rfl, h.finish⟩

theorem Task.wp_backgroundWaiter (outFile : Bool) (h : a.Owes overlapLock 1)
    (hv : vars.claimed = false) :
    (t.backgroundWaiter outFile overlapLock).wp accountant vars a
      (Returns fun _ => Account.Balanced) := by
  refine wp_deferring_of (P := fun r vars' (a' : Account) =>
    (∃ u, r = .ok u) ∧ vars' = vars ∧ a'.Owes overlapLock 0) ?_ ?_
  · refine wp_bind_of (wp_awaitCommand h) ?_
    rintro e vars' a' ⟨rfl, ha⟩
    refine wp_mono (t.quiet_finish _ _ vars' a') ?_
    rintro r vars'' a'' ⟨hr, rfl, rfl⟩
    exact ⟨hr, rfl, ha⟩
  · rintro _ vars' a' ⟨⟨u, rfl⟩, rfl, ha⟩
    refine (pure ()).wp_bind fun _ => (quiet_closeFile.when).wp_bind fun _ => ?_
    refine (quiet_clearRunningFlag _).wp_bind fun _ => ?_
    refine wp_mono (wp_releaseTask ha hv) ?_
    rintro r vars'' a'' ⟨u, rfl, -, hb⟩
    exact ⟨u, rfl, hb⟩

theorem wp_acquireFor {wanted : Bool} (h : a.Permits (.acquire g)) :
    (acquireFor wanted g).wp accountant vars a fun r vars' a' =>
      ∃ x, r = .ok x ∧ vars' = vars ∧ a' = a.count (.acquire g) (.ok x) := by
  cases wanted with
  | false =>
    have hnone : a = a.count (.acquire g) (.ok (.ok false)) := by cases g <;> rfl
    exact ⟨.ok false, rfl, rfl, hnone⟩
  | true =>
    intro r _
    refine ⟨h, ?_⟩
    cases r with
    | ok x => exact ⟨x, rfl, rfl, rfl⟩
    | error v =>
      have hfailed : a.count (.acquire g) (.error v) =
          a.count (.acquire g) (.ok (.error (.recovered v))) := by cases g <;> rfl
      exact ⟨_, rfl, rfl, hfailed⟩

theorem wp_skipAfterAcquireFailure (hp : a.Permits .release) (hb : (a.count .release ()).Balanced) :
    skipAfterAcquireFailure.wp accountant vars a (Returns fun _ => Account.Balanced) := by
  refine wp_deferring_of (quiet_writeLine vars a) ?_
  rintro r vars' a' ⟨-, rfl, rfl⟩ u _
  exact ⟨hp, u, rfl, hb⟩

def Account.entered (oneServerLock : Bool) : Account :=
  { Account.zero with joins := 1, oneServerTaken := oneServerLock.toNat }

theorem Task.wp_start (oneServerLock : Bool) :
    (t.start oneServerLock).wp accountant ⟨false, none⟩ (.entered oneServerLock)
      (Returns fun _ => Account.Balanced) := by
  refine wp_bind_of (wp_acquireFor ⟨rfl, rfl, rfl⟩) ?_
  rintro x vars a ⟨rfl, rfl⟩
  cases x with
  | error e =>
    have hp : oneServerLock = true → ((Account.entered oneServerLock).count (.acquire .overlap)
        (.ok (.error e))).Permits (.releaseLock .oneServer) := by
      intro hl
      rw [hl]
      exact ⟨one_pos, one_pos⟩
    refine wp_bind_of (wp_releaseHeld hp) ?_
    rintro _ vars a ⟨rfl, rfl⟩
    cases oneServerLock with
    | false | true =>
      refine wp_skipAfterAcquireFailure ⟨one_pos, rfl, rfl⟩ ?_
      exact ⟨rfl, rfl, zero_le 1, rfl, rfl, rfl⟩
  | ok overlapLock =>
    have ho : Account.Owes overlapLock 0
        ((Account.entered oneServerLock).count (.acquire .overlap) (.ok (.ok overlapLock))) := by
      cases overlapLock with
      | false | true => exact ⟨rfl, rfl, rfl, rfl, rfl, rfl, rfl⟩
    refine wp_bind_of (t.wp_goroutine ho rfl rfl) ?_
    rintro _ vars a hs
    refine wp_read_bind.mpr ?_
    rcases hs with ⟨hw, hb⟩ | ⟨⟨outFile, hw⟩, hv, ho⟩
    · rw [hw]
      exact ⟨(), rfl, hb⟩
    · rw [hw]
      exact t.wp_backgroundWaiter outFile ho hv

theorem Task.wp_dispatch :
    t.dispatch.wp accountant ⟨false, none⟩ Account.zero (Returns fun _ => Account.Balanced) := by
  refine wp_perform_bind.mpr ?_
  intro u _
  refine ⟨rfl, wp_bind_of (wp_acquireFor ⟨rfl, rfl, rfl⟩) ?_⟩
  rintro x vars a ⟨rfl, rfl⟩
  cases x with
  | error e =>
    refine wp_skipAfterAcquireFailure ⟨one_pos, rfl, rfl⟩ ?_
    exact ⟨rfl, rfl, zero_le 1, rfl, rfl, rfl⟩
  | ok oneServerLock =>
    have hone : Account.entered oneServerLock = (Account.zero.count .join u).count
        (.acquire .oneServer) (.ok (.ok oneServerLock)) := by
      cases oneServerLock <;> rfl
    have hstart := t.wp_start oneServerLock
    rw [hone] at hstart
    exact hstart

end Specs

/-- Whatever its locker, hooks, closure and process do, a dispatch gives back what it took, while it
is held and once nothing of it runs, and ends without a panic and with its account balanced. -/
theorem dispatch_gives_back (w : RunningJobs)
    (acts : List (Act ((o : DispatchOp) → o.Res) Task)) :
    let p := dispatchSystem.run (Pool.start w) acts
    EachAfter (fun pre ev => (account pre ev.tid).Permits ev.op) p.log ∧
      (∀ (i : Nat) (t : Task) (out : DispatchEnd),
        p.threads[i]? = some ⟨t, some (.ret out)⟩ → out.1 = .ok () ∧ (account p.log i).Balanced) ∧
      ∀ (i : Nat) (t : Task) (rest : Prog DispatchOp.Res DispatchEnd)
        (envs : Nat → (o : DispatchOp) → o.Res), p.threads[i]? = some ⟨t, some rest⟩ →
          ∃ n out, (dispatchSystem.run p
            ((List.range n).map fun k => .run i (envs k))).threads[i]? = some ⟨t, some (.ret out)⟩ := by
  have hbody : ∀ t, (dispatchSystem.body t).wp accountant accountant.init fun out a =>
      out.1 = .ok () ∧ Account.Balanced a := by
    intro t
    show t.dispatch.wp accountant ⟨false, none⟩ Account.zero fun r _ a =>
      r = .ok () ∧ Account.Balanced a
    refine wp_mono t.wp_dispatch ?_
    rintro r vars a ⟨-, rfl, ha⟩
    exact ⟨rfl, ha⟩
  have hans : ∀ w e o, accountant.allowed o (dispatchSystem.exec w e o).1 :=
    fun _ _ _ => trivial
  refine ⟨?_, ?_, ?_⟩
  · refine dispatchSystem.each_guarded accountant (fun t => ?_) hans acts
    exact Prog.wp_mono (hbody t) fun _ _ _ => trivial
  · intro i t out h
    exact dispatchSystem.returned accountant
      hbody hans h
  · intro i t rest envs h
    exact dispatchSystem.returns_alone h envs

end Scheduling
