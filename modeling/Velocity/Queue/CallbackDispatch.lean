import Velocity.Queue.DatabaseBatches
import Velocity.Queue.Batch
import Velocity.Queue.DedupeAgreement

/-! The named callbacks of batches as jobs: the dispatch that follows a batch's terminal state, and
the reaper that retries it from the rows of `job_batches`. Both push under a key of the batch and
the kind, and then set the kind's `_dispatched` column. -/

namespace Velocity.Queue

open Interleave List DatabaseDriver Prog Bool

variable (uuid : UUID5)

def CallbackKind.text : CallbackKind → String
  | .callbackThen => "then"
  | .callbackCatch => "catch"
  | .callbackFinally => "finally"

/-- `uuid.NewSHA1` in the callbacks' namespace, as text. -/
structure UUID5 where
  hash : String → String
  hash_ne : ∀ s, hash s ≠ ""

def callbackText (id : BatchID) (kind : CallbackKind) : String := id ++ ":" ++ kind.text

def callbackKey (id : BatchID) (kind : CallbackKind) : String :=
  uuid.hash (callbackText id kind)

def BatchCallbackJob.dedupeKey (job : BatchCallbackJob) : String :=
  callbackKey uuid job.batchID job.kind

/-- `push` is `PushIfNotExistsCtx`, with its error and whether it inserted the job: exactly when it
claims the key, which is then kept. `other` is any other use of the queue. -/
structure DedupeDriver where
  State : Type
  Env : Type
  empty : State
  push : State → Env → (key queueName : String) → BatchCallbackJob → (Except Err Unit × Bool) × State
  other : State → Env → State
  holds : State → String → Prop
  holds_empty : ∀ key, ¬holds empty key
  holds_other : ∀ s env key, holds (other s env) key ↔ holds s key
  push_ok : ∀ s env key queueName job, key ≠ "" →
    (push s env key queueName job).1.1 = .ok () → holds (push s env key queueName job).2 key
  push_inserts : ∀ s env key queueName job, key ≠ "" →
    ((push s env key queueName job).1.2 = true ↔
      ¬holds s key ∧ holds (push s env key queueName job).2 key)
  push_keeps : ∀ s env key queueName job key', key ≠ "" → holds s key' →
    holds (push s env key queueName job).2 key'
  push_claims : ∀ s env key queueName job key', key ≠ "" →
    holds (push s env key queueName job).2 key' → holds s key' ∨ key' = key

structure CallbackRow where
  row : BatchRow
  thenDispatched : Bool := false
  catchDispatched : Bool := false
  finallyDispatched : Bool := false

namespace CallbackRow

def dispatched (r : CallbackRow) : CallbackKind → Bool
  | .callbackThen => r.thenDispatched
  | .callbackCatch => r.catchDispatched
  | .callbackFinally => r.finallyDispatched

def mark (r : CallbackRow) : CallbackKind → CallbackRow
  | .callbackThen => { r with thenDispatched := true }
  | .callbackCatch => { r with catchDispatched := true }
  | .callbackFinally => { r with finallyDispatched := true }

theorem dispatched_mark (r : CallbackRow) (kind kind' : CallbackKind) :
    (r.mark kind).dispatched kind' = (r.dispatched kind' || decide (kind' = kind)) := by
  cases kind <;> cases kind' <;> simp [mark, dispatched]

end CallbackRow

structure UndispatchedCallback where
  batchID : BatchID
  kind : CallbackKind
  name : String
  errMsg : String := ""
  deriving DecidableEq, Repr

/-- What one row adds to `FindUndispatchedCallbacks`. -/
def CallbackRow.undispatched (r : CallbackRow) (id : BatchID) : List UndispatchedCallback :=
  let errMsg := (r.row .lastError).getD ""
  (match r.row .catchCallback with
    | some name =>
      if !r.catchDispatched && 0 < r.row .failedJobs then [⟨id, .callbackCatch, name, errMsg⟩]
      else []
    | none => []) ++
  (if (r.row .completedAt).isSome then
    (match r.row .thenCallback with
      | some name =>
        if !r.thenDispatched && r.row .failedJobs = 0 then [⟨id, .callbackThen, name, ""⟩] else []
      | none => []) ++
    (match r.row .finallyCallback with
      | some name => if !r.finallyDispatched then [⟨id, .callbackFinally, name, errMsg⟩] else []
      | none => [])
  else [])

/-- `save` and `update` leave the `_dispatched` columns alone. -/
inductive CallbackOp
  | closed
  | callbackQueueDriver
  | findUndispatchedCallbacks
  | push (key queueName : String) (job : BatchCallbackJob)
  | markCallbackDispatched (id : BatchID) (kind : CallbackKind)
  | useQueue
  | save (id : BatchID) (row : BatchRow)
  | update (id : BatchID) (row : BatchRow)
  | delete (id : BatchID)

@[reducible] def CallbackOp.Res : CallbackOp → Type
  | .closed => Bool
  | .callbackQueueDriver => Option String
  | .findUndispatchedCallbacks => Except Err (List UndispatchedCallback)
  | .push .. => Except Err Unit
  | .markCallbackDispatched .. => Except Err Unit
  | _ => Unit

/-- A write that answers an error may still have been made. -/
structure WriteFault where
  err : Err
  landed : Bool
  deriving DecidableEq, Repr

/-- `listed` are the batches the query returns; `wired` is the host's callback queue, if any. -/
structure CallbackEnv (d : DedupeDriver) where
  queue : d.Env
  closed : Bool := false
  wired : Option String := none
  listed : List BatchID := []
  findErr : Option Err := none
  markFault : Option WriteFault := none

/-- `inserted` are all callback jobs inserted so far. -/
structure CallbackWorld (d : DedupeDriver) where
  queue : d.State
  inserted : List BatchCallbackJob := []
  rows : FMap BatchID CallbackRow := ∅

namespace CallbackWorld

variable {d : DedupeDriver}

def dispatched (w : CallbackWorld d) (id : BatchID) (kind : CallbackKind) : Bool :=
  (w.rows.lookup id).any fun r => r.dispatched kind

def setRow (w : CallbackWorld d) (id : BatchID) (f : CallbackRow → CallbackRow) : CallbackWorld d :=
  match w.rows.lookup id with
  | none => w
  | some r => { w with rows := w.rows.insert id (f r) }

def markCallbackDispatched (w : CallbackWorld d) (env : CallbackEnv d) (id : BatchID)
    (kind : CallbackKind) : Except Err Unit × CallbackWorld d :=
  if env.closed then (.error .batchRepositoryClosed, w)
  else
    let marked := w.setRow id fun r => r.mark kind
    match env.markFault with
    | none => (.ok (), marked)
    | some f =>
      (.error (.wrap "velocity/queue: mark callback dispatched" f.err),
        if f.landed then marked else w)

def findUndispatchedCallbacks (w : CallbackWorld d) (env : CallbackEnv d) :
    Except Err (List UndispatchedCallback) :=
  if env.closed then .error .batchRepositoryClosed
  else
    match env.findErr with
    | some e => .error (.wrap "velocity/queue: find undispatched callbacks" e)
    | none =>
      .ok (env.listed.flatMap fun id => ((w.rows.lookup id).map (·.undispatched id)).getD [])

def exec (w : CallbackWorld d) (env : CallbackEnv d) :
    (o : CallbackOp) → o.Res × CallbackWorld d
  | .closed => (env.closed, w)
  | .callbackQueueDriver => (env.wired, w)
  | .findUndispatchedCallbacks => (w.findUndispatchedCallbacks env, w)
  | .push key queueName job =>
    let out := d.push w.queue env.queue key queueName job
    (out.1.1, { w with
      queue := out.2
      inserted := if out.1.2 then w.inserted ++ [job] else w.inserted })
  | .markCallbackDispatched id kind => w.markCallbackDispatched env id kind
  | .useQueue => ((), { w with queue := d.other w.queue env.queue })
  | .save id row =>
    ((), if (w.rows.lookup id).isSome then w
      else { w with rows := w.rows.insert id { row := row } })
  | .update id row => ((), w.setRow id fun r => { r with row := row })
  | .delete id => ((), { w with rows := w.rows.erase id })

end CallbackWorld

abbrev CallbackProg := Prog CallbackOp.Res

namespace CallbackDispatch

def op (o : CallbackOp) : CallbackProg o.Res := .perform o

def pushAndMark (queueName : String) (job : BatchCallbackJob) :
    CallbackProg Unit := do
  let pushed ← op (.push (job.dedupeKey uuid) queueName job)
  match pushed with
  | .error _ => pure ()
  | .ok _ =>
    let _ ← op (.markCallbackDispatched job.batchID job.kind)
    pure ()

def dispatchBatchCallbackJob (name : String) (kind : CallbackKind) (id : BatchID)
    (errMsg : String) : CallbackProg Unit := do
  let driver ← op .callbackQueueDriver
  match driver with
  | none => pure ()
  | some queueName => .when (name ≠ "") (pushAndMark uuid queueName ⟨id, name, kind, errMsg⟩)

def sweep (uuid : UUID5) (queueName : String) : List UndispatchedCallback → CallbackProg Unit
  | [] => pure ()
  | row :: rows => do
    let closed ← op .closed
    .when (!closed) do
      pushAndMark uuid queueName ⟨row.batchID, row.name, row.kind, row.errMsg⟩
      sweep uuid queueName rows

def reaperTick : CallbackProg Unit := do
  let closed ← op .closed
  .when (!closed) do
    let rows ← op .findUndispatchedCallbacks
    match rows with
    | .error _ => pure ()
    | .ok [] => pure ()
    | .ok rows =>
      let driver ← op .callbackQueueDriver
      match driver with
      | none => pure ()
      | some queueName => sweep uuid queueName rows

end CallbackDispatch

inductive CallbackCall
  | dispatchBatchCallbackJob (name : String) (kind : CallbackKind) (id : BatchID)
      (errMsg : String)
  | reaperTick
  | useQueue
  | save (id : BatchID) (row : BatchRow)
  | update (id : BatchID) (row : BatchRow)
  | delete (id : BatchID)

def CallbackCall.body : CallbackCall → CallbackProg Unit
  | .dispatchBatchCallbackJob name kind id errMsg =>
    CallbackDispatch.dispatchBatchCallbackJob uuid name kind id errMsg
  | .reaperTick => CallbackDispatch.reaperTick uuid
  | .useQueue => CallbackDispatch.op .useQueue
  | .save id row => CallbackDispatch.op (.save id row)
  | .update id row => CallbackDispatch.op (.update id row)
  | .delete id => CallbackDispatch.op (.delete id)

def callbackSystem (d : DedupeDriver) :
    System CallbackOp.Res (CallbackWorld d) (CallbackEnv d) CallbackCall Unit where
  body := CallbackCall.body uuid
  exec := CallbackWorld.exec

def CallbackOp.pushes (key : String) : (o : CallbackOp) → o.Res → Bool
  | .push key' _ _, .ok _ => key' = key
  | _, _ => false

structure Dispatcher where
  pushed : String → Bool := fun _ => false

namespace Dispatcher

def Guard (uuid : UUID5) (m : Dispatcher) : CallbackOp → Prop
  | .push key _ job => key = job.dedupeKey uuid
  | .markCallbackDispatched id kind => m.pushed (callbackKey uuid id kind) = true
  | _ => True

def monitor (uuid : UUID5) : Monitor CallbackOp.Res where
  State := Dispatcher
  init := {}
  allowed _ _ := True
  guard m o _ := m.Guard uuid o
  next m o r := { pushed := fun key => m.pushed key || o.pushes key r }

variable {uuid : UUID5} {m : Dispatcher}

theorem wp_pushAndMark (queueName : String) (job : BatchCallbackJob) :
    (CallbackDispatch.pushAndMark uuid queueName job).wp (monitor uuid) m fun _ _ => True := by
  intro pushed _
  refine ⟨rfl, ?_⟩
  cases pushed with
  | error e => trivial
  | ok _ =>
    intro marked _
    refine ⟨?_, trivial⟩
    show (m.pushed (job.dedupeKey uuid) ||
      CallbackOp.pushes (job.dedupeKey uuid) (.push (job.dedupeKey uuid) queueName job) (.ok ())) = true
    simp [CallbackOp.pushes]

theorem wp_sweep (queueName : String) (rows : List UndispatchedCallback) :
    (CallbackDispatch.sweep uuid queueName rows).wp (monitor uuid) m fun _ _ => True := by
  induction rows generalizing m with
  | nil => trivial
  | cons row rows ih =>
    intro closed _
    refine ⟨trivial, wp_when (fun _ => ?_) fun _ => trivial⟩
    exact wp_bind_of (wp_pushAndMark queueName _) fun _ m' _ => ih

theorem wp_reaperTick : (CallbackDispatch.reaperTick uuid).wp (monitor uuid) m fun _ _ => True := by
  intro closed _
  refine ⟨trivial, wp_when (fun _ => ?_) fun _ => trivial⟩
  intro rows _
  refine ⟨trivial, ?_⟩
  rcases rows with e | _ | ⟨row, rows⟩
  · trivial
  · trivial
  · intro driver _
    refine ⟨trivial, ?_⟩
    cases driver with
    | none => trivial
    | some queueName => exact wp_sweep queueName (row :: rows)

theorem wp_body (c : CallbackCall) : (c.body uuid).wp (monitor uuid) m fun _ _ => True := by
  cases c with
  | dispatchBatchCallbackJob name kind id errMsg =>
    intro driver _
    refine ⟨trivial, ?_⟩
    cases driver with
    | none => trivial
    | some queueName =>
      exact wp_when (fun _ => wp_pushAndMark queueName _) fun _ => trivial
  | reaperTick => exact wp_reaperTick
  | _ => exact fun _ _ => ⟨trivial, trivial⟩

end Dispatcher

structure CallbackInv (uuid : UUID5) {d : DedupeDriver} (w : CallbackWorld d)
    (log : Log CallbackOp.Res) : Prop where
  held : ∀ key, d.holds w.queue key ↔ ∃ job ∈ w.inserted, job.dedupeKey uuid = key
  once : (w.inserted.map fun job => job.dedupeKey uuid).Nodup
  pushed : ∀ ev ∈ log, ∀ key, ev.op.pushes key ev.res = true → d.holds w.queue key
  marked : ∀ id kind, w.dispatched id kind = true → d.holds w.queue (callbackKey uuid id kind)

namespace CallbackInv

variable {uuid : UUID5} {d : DedupeDriver} {w : CallbackWorld d}
  {log : Log CallbackOp.Res} {i : Nat} {env : CallbackEnv d} {o : CallbackOp}

theorem start (uuid : UUID5) (d : DedupeDriver) : CallbackInv uuid ⟨d.empty, [], ∅⟩ [] where
  held key := by simp [d.holds_empty]
  once := by simp
  pushed ev h := by simp at h
  marked id kind h := by simp [CallbackWorld.dispatched] at h

variable {kind : CallbackKind} {id : BatchID}

variable (h : CallbackInv uuid w log)

include h

variable {r : o.Res}

theorem quiet {q : d.State} {rows : FMap BatchID CallbackRow}
    (hq : ∀ key, d.holds q key ↔ d.holds w.queue key) (hr : ∀ key, o.pushes key r = false)
    (hmarked : ∀ id kind r, rows.lookup id = some r → r.dispatched kind = true →
      (∃ r, w.rows.lookup id = some r ∧ r.dispatched kind = true) ∨
        d.holds w.queue (callbackKey uuid id kind)) :
    CallbackInv uuid { w with queue := q, rows := rows } (log ++ [⟨i, o, r⟩]) := by
  constructor
  case held => simpa only [hq] using h.held
  case once => exact h.once
  case pushed =>
    intro ev hev key hpush
    rw [hq]
    rcases mem_concat.mp hev with hev | rfl
    · exact h.pushed ev hev key hpush
    · rw [hr key] at hpush
      cases hpush
  case marked =>
    intro id kind hd
    obtain ⟨r, hlook, hd⟩ := (Option.any_eq_true _ _).mp hd
    rw [hq]
    rcases hmarked id kind r hlook hd with hold | hheld
    · exact h.marked id kind ((Option.any_eq_true _ _).mpr hold)
    · exact hheld

theorem unchanged (hr : ∀ key, o.pushes key r = false) : CallbackInv uuid w (log ++ [⟨i, o, r⟩]) :=
  h.quiet (fun _ => Iff.rfl) hr fun _ _ r hlook hd => .inl ⟨r, hlook, hd⟩

theorem setRow_step {f : CallbackRow → CallbackRow} (hr : ∀ key, o.pushes key r = false)
    (hf : ∀ r kind, (f r).dispatched kind = true →
      r.dispatched kind = true ∨ d.holds w.queue (callbackKey uuid id kind)) :
    CallbackInv uuid (w.setRow id f) (log ++ [⟨i, o, r⟩]) := by
  unfold CallbackWorld.setRow
  cases hold : w.rows.lookup id with
  | none => exact h.unchanged hr
  | some r =>
    refine h.quiet (fun _ => Iff.rfl) hr fun id' kind r' hlook hd => ?_
    rcases FMap.lookup_of_insert hlook with ⟨rfl, rfl⟩ | ⟨-, hlook⟩
    · exact (hf r kind hd).imp_left fun hd => ⟨r, hold, hd⟩
    · exact .inl ⟨r', hlook, hd⟩

theorem push_step (queueName : String) (job : BatchCallbackJob) :
    let o := CallbackOp.push (job.dedupeKey uuid) queueName job
    CallbackInv uuid (w.exec env o).2 (log ++ [⟨i, o, (w.exec env o).1⟩]) := by
  set c := job.dedupeKey uuid
  intro o
  have hkey : job.dedupeKey uuid ≠ "" := uuid.hash_ne _
  have hok := d.push_ok w.queue env.queue _ queueName job hkey
  have hins := d.push_inserts w.queue env.queue _ queueName job hkey
  have hkeeps := fun k => d.push_keeps w.queue env.queue _ queueName job k hkey
  have hclaims := fun k => d.push_claims w.queue env.queue _ queueName job k hkey
  have hanswer : (w.exec env o).1 = (d.push w.queue env.queue c queueName job).1.1 := rfl
  have hqueue : (w.exec env o).2.queue = (d.push w.queue env.queue c queueName job).2 := rfl
  have hinserted : (w.exec env o).2.inserted =
    if (d.push w.queue env.queue c queueName job).1.2 then w.inserted ++ [job]
    else w.inserted := rfl
  generalize d.push w.queue env.queue c queueName job = out at *
  constructor
  case held =>
    intro key
    rw [hqueue, hinserted]
    cases hnew : out.1.2 with
    | true =>
      have hnow := (hins.mp hnew).2
      constructor
      · intro hk
        rcases hclaims key hk with hold | rfl
        · obtain ⟨j, hj, hjk⟩ := (h.held key).mp hold
          exact ⟨j, mem_append_left _ hj, hjk⟩
        · exact ⟨job, by simp, rfl⟩
      · rintro ⟨j, hj, rfl⟩
        rcases mem_concat.mp hj with hj | rfl
        · exact hkeeps _ ((h.held _).mpr ⟨j, hj, rfl⟩)
        · exact hnow
    | false =>
      have hsame : d.holds out.2 key ↔ d.holds w.queue key := by
        refine ⟨fun hk => ?_, hkeeps key⟩
        rcases hclaims key hk with hold | rfl
        · exact hold
        · by_contra hfree
          rw [hins.mpr ⟨hfree, hk⟩] at hnew
          cases hnew
      rw [hsame]
      exact h.held key
  case once =>
    rw [hinserted]
    cases hnew : out.1.2 with
    | true =>
      have hfree := (hins.mp hnew).1
      have hnot : job.dedupeKey uuid ∉ w.inserted.map fun j => j.dedupeKey uuid := by
        intro hmem
        obtain ⟨j, hj, hjk⟩ := mem_map.mp hmem
        exact hfree ((h.held _).mpr ⟨j, hj, hjk⟩)
      rw [if_pos rfl, map_append, map_singleton, ← concat_eq_append]
      exact List.Nodup.concat hnot h.once
    | false => exact h.once
  case pushed =>
    intro ev hev key hpush
    rw [hqueue]
    rcases mem_concat.mp hev with hev | rfl
    · exact hkeeps key (h.pushed ev hev key hpush)
    · cases hres : (w.exec env o).1 with
      | error e => rw [hres] at hpush; cases hpush
      | ok _ =>
        rw [hres] at hpush
        obtain rfl : job.dedupeKey uuid = key := of_decide_eq_true hpush
        exact hok (hanswer.symm.trans hres)
  case marked =>
    intro id kind hd
    rw [hqueue]
    exact hkeeps _ (h.marked id kind hd)

theorem guard_held (hg : Dispatcher.Guard uuid ((Dispatcher.monitor uuid).stateOf log i)
      (.markCallbackDispatched id kind)) : d.holds w.queue (callbackKey uuid id kind) := by
  have hpushed := (Dispatcher.monitor uuid).stateOf_any
    (f := fun m : Dispatcher => m.pushed (callbackKey uuid id kind))
    rfl (fun _ _ _ => rfl) log i
  obtain ⟨ev, hev, hh⟩ := any_eq_true.mp (hpushed.symm.trans hg)
  exact h.pushed ev hev _ (and_eq_true_iff.mp hh).2

theorem mark_step (hheld : d.holds w.queue (callbackKey uuid id kind)) :
    let o := CallbackOp.markCallbackDispatched id kind
    CallbackInv uuid (w.exec env o).2 (log ++ [⟨i, o, (w.exec env o).1⟩]) := by
  intro o
  have hworld : (w.exec env o).2 = w ∨ (w.exec env o).2 = w.setRow id fun r => r.mark kind := by
    show (w.markCallbackDispatched env id kind).2 = w ∨
      (w.markCallbackDispatched env id kind).2 = w.setRow id fun r => r.mark kind
    unfold CallbackWorld.markCallbackDispatched
    by_cases hc : env.closed = true
    · exact .inl (by rw [if_pos hc])
    · rw [if_neg hc]
      cases env.markFault with
      | none => exact .inr rfl
      | some f => cases hl : f.landed <;> simp [hl]
  rcases hworld with hw | hw
  · rw [hw]
    exact h.unchanged fun _ => rfl
  · rw [hw]
    refine h.setRow_step (fun _ => rfl) fun r kind' hr => ?_
    rw [CallbackRow.dispatched_mark, or_eq_true, decide_eq_true_eq] at hr
    rcases hr with hold | rfl
    · exact .inl hold
    · exact .inr hheld

theorem step (hg : Dispatcher.Guard uuid ((Dispatcher.monitor uuid).stateOf log i) o) :
    CallbackInv uuid (w.exec env o).2 (log ++ [⟨i, o, (w.exec env o).1⟩]) := by
  cases o with
  | push key queueName job =>
    obtain rfl : key = job.dedupeKey uuid := hg
    exact h.push_step queueName job
  | markCallbackDispatched id kind => exact h.mark_step (h.guard_held hg)
  | useQueue =>
    exact h.quiet (d.holds_other _ _) (fun _ => rfl) fun _ _ r hlook hd => .inl ⟨r, hlook, hd⟩
  | save id row =>
    by_cases hrow : (w.rows.lookup id).isSome = true
    · have hw : (w.exec env (.save id row)).2 = w := if_pos hrow
      rw [hw]
      exact h.unchanged fun _ => rfl
    · have hw : (w.exec env (.save id row)).2 =
          { w with rows := w.rows.insert id { row := row } } := if_neg hrow
      rw [hw]
      refine h.quiet (fun _ => Iff.rfl) (fun _ => rfl) fun id' kind r hlook hd => ?_
      rcases FMap.lookup_of_insert hlook with ⟨-, rfl⟩ | ⟨-, hlook⟩
      · cases kind <;> cases hd
      · exact .inl ⟨r, hlook, hd⟩
  | update id row =>
    exact h.setRow_step (fun _ => rfl) fun r kind hr => .inl (by cases kind <;> exact hr)
  | delete id =>
    exact h.quiet (fun _ => Iff.rfl) (fun _ => rfl) fun _ _ r hlook hd =>
      .inl ⟨r, (FMap.lookup_of_erase hlook).2, hd⟩
  | _ => exact h.unchanged fun _ => rfl

end CallbackInv

def isCallback (id : BatchID) (kind : CallbackKind) (job : BatchCallbackJob) : Bool :=
  job.batchID = id && job.kind = kind

theorem callbackText_injective {id id' : BatchID} {kind kind' : CallbackKind}
    (h : callbackText id kind = callbackText id' kind') : id = id' ∧ kind = kind' := by
  have hlist := congrArg String.toList h
  simp only [callbackText, String.toList_append] at hlist
  -- the three kinds end in different letters
  have hlast := congrArg getLast? hlist
  have hkind : kind = kind' := by
    revert hlast
    cases kind <;> cases kind' <;> simp [CallbackKind.text]
  subst hkind
  have hid := append_cancel_right (append_cancel_right hlist)
  exact ⟨String.toList_injective hid, rfl⟩

/-- At most one callback job of a batch and kind is inserted; and once its kind is marked as
dispatched it has been, if no inserted job has another text of the same hash. -/
theorem callbacks_inserted_once (uuid : UUID5) (d : DedupeDriver)
    (acts : List (Act (CallbackEnv d) CallbackCall)) :
    let w := ((callbackSystem uuid d).run (Pool.start ⟨d.empty, [], ∅⟩) acts).world
    (∀ id kind, w.inserted.countP (isCallback id kind) ≤ 1) ∧
    ∀ id kind, w.dispatched id kind = true →
      (∀ job ∈ w.inserted, uuid.hash (callbackText job.batchID job.kind) =
        uuid.hash (callbackText id kind) →
          callbackText job.batchID job.kind = callbackText id kind) →
      w.inserted.countP (isCallback id kind) = 1 := by
  intro w
  have hinv : CallbackInv uuid w ((callbackSystem uuid d).run (Pool.start ⟨d.empty, [], ∅⟩) acts).log :=
    (callbackSystem uuid d).invariant (Dispatcher.monitor uuid)
      Dispatcher.wp_body (CallbackInv.start uuid d) (fun _ _ _ _ _ => trivial)
      (fun _ _ _ _ _ h => h.step) acts
  have hmost : ∀ id kind, w.inserted.countP (isCallback id kind) ≤ 1 := by
    intro id kind
    have hcount := nodup_iff_count_le_one.mp hinv.once (callbackKey uuid id kind)
    rw [count, countP_map] at hcount
    refine Nat.le_trans (countP_mono_left fun job _ hjob => ?_) hcount
    obtain ⟨rfl, rfl⟩ : job.batchID = id ∧ job.kind = kind := by simpa [isCallback] using hjob
    simp [BatchCallbackJob.dedupeKey]
  refine ⟨hmost, fun id kind hmarked hinj => ?_⟩
  obtain ⟨job, hjob, hkey⟩ := (hinv.held _).mp (hinv.marked id kind hmarked)
  obtain ⟨hid, hkind⟩ := callbackText_injective (hinj job hjob hkey)
  have hpos : 0 < w.inserted.countP (isCallback id kind) :=
    countP_pos_iff.mpr ⟨job, hjob, by simp [isCallback, hid, hkind]⟩
  have hle := hmost id kind
  omega

/-! The database driver is such a driver while nothing clears the queue. -/

def BatchCallbackJob.job (marshal : BatchCallbackJob → Option String) (job : BatchCallbackJob) :
    Job where
  type := "BatchCallbackJob"
  data := marshal job
  maxAttempts := some 3

/-- `other` is anything but claiming or clearing keys. -/
structure DatabaseQueueEnv where
  ctx : Option CtxErr := none
  db : DbEnv := {}
  other : { o : DbOp // o.keepsDedupe } := ⟨.clearJobs "", trivial⟩

variable {key : String}

theorem pushIfNotExistsCtx_eval (hkey : key ≠ "")
    (registry : Registry) (ctx : Option CtxErr) (job : Option Job)
    (queueName : Option String) (env : DbEnv) (db : Database) :
    let out := (pushIfNotExistsCtx ctx job key queueName).eval (dbExec registry) env db
    (out.2 = db ∧ (out.1 = .ok () → db.jobDedupe.any (fun r => r.dedupeKey = key) = true)) ∨
    db.jobDedupe.any (fun r => r.dedupeKey = key) = false ∧ out.2.nextID = db.nextID + 1 ∧
      ∃ name, out.2.jobDedupe = db.jobDedupe ++ [⟨key, name⟩] := by
  unfold pushIfNotExistsCtx
  rw [if_neg hkey]
  cases ctx with
  | some e => exact .inl ⟨rfl, fun h => by cases h⟩
  | none =>
    cases admitJob job queueName with
    | error e => exact .inl ⟨rfl, fun h => by cases h⟩
    | ok admitted =>
      obtain ⟨job', name⟩ := admitted
      dsimp only
      cases createJobWrapper job' name with
      | error e => exact .inl ⟨rfl, fun h => by cases h⟩
      | ok wrapper =>
        simp only [eval, dbExec, Database.claimAndInsert]
        cases env.fault with
        | some f => exact .inl ⟨rfl, fun h => by cases h⟩
        | none =>
          by_cases hany : db.jobDedupe.any (fun r => r.dedupeKey = key) = true
          · simp only [hany, if_true]
            exact .inl ⟨rfl, fun _ => trivial⟩
          · simp only [hany, false_eq_true, if_false]
            exact .inr ⟨trivial, rfl, name, rfl⟩

theorem any_concat_key {rows : List DedupeRow} {row : DedupeRow} :
    (rows ++ [row]).any (fun r => r.dedupeKey = key) = true ↔
      rows.any (fun r => r.dedupeKey = key) = true ∨ key = row.dedupeKey := by
  have hrow : [row].any (fun r => r.dedupeKey = key) = true ↔ key = row.dedupeKey := by
    rw [any_cons, any_nil, Bool.or_false, decide_eq_true_eq]
    exact eq_comm
  rw [any_append, or_eq_true, hrow]

def databaseDedupe (registry : Registry)
    (marshal : BatchCallbackJob → Option String) : DedupeDriver where
  State := Database
  Env := DatabaseQueueEnv
  empty := {}
  push db env key queueName job :=
    let out := (DatabaseDriver.pushIfNotExistsCtx env.ctx (some (job.job marshal)) key
      (some queueName)).eval (dbExec registry) env.db db
    ((out.1, out.2.nextID ≠ db.nextID), out.2)
  other db env := (dbExec registry db env.db env.other.1).2
  holds db key := db.jobDedupe.any (fun r => r.dedupeKey = key) = true
  holds_empty key := by simp
  holds_other db env key := by rw [dbExec_jobDedupe registry db env.db env.other.2]
  push_ok db env key queueName job hkey hok := by
    rcases pushIfNotExistsCtx_eval hkey registry env.ctx (some (job.job marshal)) (some queueName)
      env.db db with ⟨hdb, hheld⟩ | ⟨-, -, name, hrows⟩
    · rw [hdb]
      exact hheld hok
    · rw [hrows]
      exact any_concat_key.mpr (Or.inr rfl)
  push_inserts db env key queueName job hkey := by
    rcases pushIfNotExistsCtx_eval hkey registry env.ctx (some (job.job marshal)) (some queueName)
      env.db db with ⟨hdb, -⟩ | ⟨hfree, hid, name, hrows⟩
    · simp [hdb]
    · simp only [hid, hrows, hfree, any_concat_key]
      simp
  push_keeps db env key queueName job key' hkey hold := by
    rcases pushIfNotExistsCtx_eval hkey registry env.ctx (some (job.job marshal)) (some queueName)
      env.db db with ⟨hdb, -⟩ | ⟨-, -, name, hrows⟩
    · rw [hdb]
      exact hold
    · rw [hrows]
      exact any_concat_key.mpr (Or.inl hold)
  push_claims db env key queueName job key' hkey hnow := by
    rcases pushIfNotExistsCtx_eval hkey registry env.ctx (some (job.job marshal)) (some queueName)
      env.db db with ⟨hdb, -⟩ | ⟨-, -, name, hrows⟩
    · rw [hdb] at hnow
      exact Or.inl hnow
    · rw [hrows] at hnow
      exact any_concat_key.mp hnow

/-- The keys of the two callbacks of batch "b". -/
def realUUID : UUID5 where
  hash s := if s = "b:then" then "097a21d7-b6c1-5641-a925-ab2ee3d763c2"
    else "5b034959-1566-5135-af61-608747e4c396"
  hash_ne s := by split <;> decide

def plainDriver : DedupeDriver :=
  databaseDedupe (fun _ => .error .jobNotFound) fun job => some job.name

def callbackEnv : CallbackEnv plainDriver :=
  { queue := ({} : DatabaseQueueEnv), wired := some "default", listed := ["b"] }

def finishedRow : BatchRow := fun
  | .completedAt => some (5 : Int)
  | c => insertedRow { id := "b", totalJobs := 1, pendingJobs := 0, thenName := "report" } 0 c

/-- The process dies before the mark; a reaper's push finds the key and marks the kind. Another
process dispatches the batch's other callback. -/
def crashedDispatch : List (Act (CallbackEnv plainDriver) CallbackCall) :=
  [.spawn (.save "b" finishedRow), .run 0 callbackEnv,
    .spawn (.dispatchBatchCallbackJob "report" .callbackThen "b" ""), .run 1 callbackEnv,
    .run 1 callbackEnv, .crash 1, .spawn .reaperTick] ++ List.replicate 6 (.run 2 callbackEnv) ++
    .spawn (.dispatchBatchCallbackJob "report" .callbackFinally "b" "") ::
      List.replicate 3 (.run 3 callbackEnv)

theorem callbacks_inserted_once_crashedDispatch :
    let w := ((callbackSystem realUUID plainDriver).run
      (Pool.start ⟨plainDriver.empty, [], ∅⟩) crashedDispatch).world
    w.inserted.length = 2 ∧ w.dispatched "b" .callbackThen = true ∧
      w.inserted.countP (isCallback "b" .callbackThen) = 1 := by
  intro w
  have hmarked : w.dispatched "b" .callbackThen = true := by decide
  have hh := callbacks_inserted_once realUUID plainDriver crashedDispatch
  exact ⟨by decide, hmarked, hh.2 "b" .callbackThen hmarked (by decide)⟩

end Velocity.Queue
