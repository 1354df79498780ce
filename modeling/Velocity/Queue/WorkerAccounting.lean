import Velocity.Queue.Worker

/-! What the pipeline settles. A thread asks a batch to settle only after its own fenced
mutation has removed the row it popped, and once; as a driver lets a row be removed
once, a job is settled at most once over all threads. -/

namespace Velocity.Queue

open Interleave List Prog WorkerOp Monitor Option

variable {Op : Type} {Res : Op → Type} {Row : Type}

/-- How a thread reads the operations of a reservation driver. `standsFor` ties a leased row to its
job, and `retries` says with which tokens a job may be given back. -/
structure LeaseView {Op : Type} (Res : Op → Type) (Row : Type) where
  allowed : (o : Op) → Res o → Prop
  guard : Option (Row × ReservationToken) → Op → Prop
  reserved : (o : Op) → Res o → Option (Row × ReservationToken)
  removed : (o : Op) → Res o → Option ReservationToken
  rowID : Row → ReservationToken → Nat
  standsFor : Row → Job → Prop
  retries : Job → ReservationToken → Prop

structure Accounting (Row : Type) where
  lease : Option (Row × ReservationToken) := none
  started : Bool := false
  removed : Bool := false
  settled : Bool := false

def Accounting.leased (row : Row) (t : ReservationToken) (started : Bool) : Accounting Row :=
  ⟨some (row, t), started, false, false⟩

def Accounting.finished (row : Row) (t : ReservationToken) (started : Bool) : Accounting Row :=
  ⟨some (row, t), started, true, false⟩

def WorkerOp.settles : WorkerOp Op → Bool
  | .recordSuccess _ => true
  | .recordFailure _ _ => true
  | .recordSkip _ => true
  | _ => false

def WorkerOp.starts : WorkerOp Op → Bool
  | .startHandler _ => true
  | _ => false

namespace LeaseView

variable (v : LeaseView Res Row)

def next (m : Accounting Row) : (o : WorkerOp Op) → WorkerOp.Res Res o → Accounting Row
  | .driver o, r =>
    { m with
      lease := m.lease.or (v.reserved o r)
      removed := m.removed || m.lease.any fun l => v.removed o r = some l.2 }
  | .startHandler _, _ => { m with started := true }
  | .recordSuccess _, _ => { m with settled := true }
  | .recordFailure _ _, _ => { m with settled := true }
  | .recordSkip _, _ => { m with settled := true }
  | _, _ => m

def Guard (m : Accounting Row) : WorkerOp Op → Prop
  | .driver o => v.guard m.lease o
  | .startHandler _ => m.lease.isSome = true ∧ m.started = false
  | .recordSuccess _ => m.removed = true ∧ m.settled = false
  | .recordFailure _ _ => m.removed = true ∧ m.settled = false
  | .recordSkip _ => m.removed = true ∧ m.settled = false
  | _ => True

def monitor : Monitor (WorkerOp.Res Res) where
  State := Accounting Row
  init := {}
  allowed
    | .driver o, r => v.allowed o r
    | _, _ => True
  guard m o _ := v.Guard m o
  next := v.next

variable {v} in
theorem next_leased {row : Row} {t : ReservationToken} {s : Bool} {o : Op} {r : Res o}
    (h : v.removed o r = some t) : v.next (.leased row t s) (.driver o) r = .finished row t s := by
  simp [next, Accounting.leased, Accounting.finished, h]

theorem next_finished (row : Row) (t : ReservationToken) (s : Bool) (o : Op) (r : Res o) :
    v.next (.finished row t s) (.driver o) r = .finished row t s := by
  simp [next, Accounting.finished]

structure Lawful (rd : ReservationDriver Res) : Prop where
  pop : ∀ ctx queue, (Worker.call (rd.popCtxReserved ctx queue)).wp v.monitor {}
    fun res m => ∀ job t, res = .ok (some (job, t)) →
      t.isZero = false ∧ ∃ row, v.standsFor row job ∧ m = .leased row t false
  ack : ∀ ctx row t s, t.isZero = false →
    (Worker.call (rd.ackCtx ctx t)).wp v.monitor (.leased row t s)
      fun res m => res.isOk = true → m = .finished row t s
  release : ∀ ctx row t s job delay, t.isZero = false → v.standsFor row job → v.retries job t →
    (Worker.call (rd.releaseCtx ctx t delay)).wp v.monitor (.leased row t s)
      fun _ m => m = .leased row t s
  fail : ∀ ctx row t s job err queue, t.isZero = false →
    (Worker.call (rd.failReservedCtx ctx t job err queue)).wp v.monitor (.leased row t s)
      fun res m => (∀ e, res = .error e → e.is .failedHookPanicked = true) → m = .finished row t s

end LeaseView

namespace Worker

variable {v : LeaseView Res Row} {w : Worker Res} {rd : ReservationDriver Res}
  {m : Accounting Row} {o : WorkerOp Op} {key : Option JobKey} {α : Type}

theorem wp_asks {p : WorkerProg Res α} (hp : p.All fun o => o.asks = true) :
    p.wp v.monitor m fun _ m' => m' = m := by
  refine wp_of_neutral v.monitor (hp.mono fun o ho m r => ?_) m
  cases o <;> first | exact ⟨trivial, rfl⟩ | simp [asks] at ho

theorem wp_op (ho : o.asks = true)
    {Q : WorkerOp.Res Res o → Accounting Row → Prop} (hQ : ∀ r, Q r m) : (op o).wp v.monitor m Q :=
  wp_mono (wp_asks ⟨ho, fun _ => trivial⟩) fun r _ h => h ▸ hQ r

theorem wp_op_bind {f : WorkerOp.Res Res o → WorkerProg Res α}
    {Q : α → Accounting Row → Prop} (ho : o.asks = true)
    (hf : ∀ r, (f r).wp v.monitor m Q) : (op o >>= f).wp v.monitor m Q :=
  (wp_bind _ _ _ _ _).mpr (wp_op ho hf)

theorem wp_settle {batch : Option BatchID} {record : BatchID → WorkerOp Op}
    (hg : ∀ id, v.Guard m (record id)) : (settle batch record).wp v.monitor m fun _ _ => True := by
  cases batch with
  | none => trivial
  | some id =>
    refine wp_op_bind rfl fun found => ?_
    cases found with
    | false => trivial
    | true => exact fun _ _ => ⟨hg id, trivial⟩

theorem wp_removeAttempts {Q : Unit → Accounting Row → Prop} (hQ : Q () m) :
    (w.removeAttempts key).wp v.monitor m Q := by
  cases key with
  | none => exact hQ
  | some k => exact fun _ _ => ⟨trivial, hQ⟩

theorem wp_attemptNumber {t : ReservationToken} :
    (w.attemptNumber key t).wp v.monitor m fun n m' =>
      (t.isZero = false → 0 < t.attempts → n = t.attempts) ∧ m' = m := by
  unfold attemptNumber incrementAttempts
  split
  · exact ⟨fun _ _ => rfl, rfl⟩
  · next h =>
    have hn : ∀ n : Nat, t.isZero = false → 0 < t.attempts → n = t.attempts := fun n hz hp =>
      absurd (by simp [hz, hp]) h
    cases key with
    | none => exact ⟨hn 0, rfl⟩
    | some k => exact fun n _ => ⟨trivial, hn n, rfl⟩

section Lawful

variable {row : Row} {t : ReservationToken} {s : Bool} {job : Job}
  (hrd : w.queue.reservation = some rd) (hl : v.Lawful rd) (ht : t.isZero = false)

include hrd hl ht

theorem wp_ackReservation : (w.ackReservation t).wp v.monitor (.leased row t s)
      fun owned m' => owned = true → m' = .finished row t s := by
  simp only [ackReservation, ht, hrd]
  refine wp_op_bind rfl fun ctx => ?_
  exact wp_bind_of (hl.ack ctx row t s ht) fun res m' h => h

variable {err : Err}

theorem wp_recordTerminal : (w.recordTerminal job err t).wp v.monitor (.leased row t s)
      fun confirmed m' => confirmed = true → m' = .finished row t s := by
  simp only [recordTerminal, ht, hrd]
  refine wp_op_bind rfl fun ctx => ?_
  refine wp_bind_of (hl.fail ctx row t s job err w.queueName ht) fun res m' h => ?_
  cases res with
  | ok u => exact fun _ => h (by simp)
  | error e => exact fun he => h (by simpa using he)

variable {batch : Option BatchID}

theorem wp_failJob :
    (w.failJob job err key t batch).wp v.monitor (.leased row t s) fun _ _ => True := by
  refine (wp_bind _ _ _ _ _).mpr (wp_removeAttempts ?_)
  refine wp_bind_of (wp_recordTerminal hrd hl ht) fun confirmed m' h => ?_
  cases confirmed with
  | false => trivial
  | true =>
    obtain rfl := h rfl
    refine wp_bind_of (wp_settle fun _ => ⟨rfl, rfl⟩) fun _ m' _ => ?_
    exact wp_op rfl fun _ => trivial

variable (hj : v.standsFor row job)
  (hretry : ∀ job (t : ReservationToken) (n : Nat), (0 < t.attempts → n = t.attempts) →
    (n : Int) < w.maxAttempts job → v.retries job t)

include hj hretry

theorem wp_handleJobFailure :
    (w.handleJobFailure job err t batch).wp v.monitor (.leased row t s) fun _ _ => True := by
  refine wp_bind_of wp_attemptNumber ?_
  rintro attempt m' ⟨hn, rfl⟩
  refine wp_bind_of (wp_asks (wantsRetry_asks job err)) ?_
  rintro retry m' rfl
  split
  · exact wp_failJob hrd hl ht
  · split
    · next hlt =>
      have hrequeue : (w.requeue job t (w.calculateBackoff job attempt)).wp v.monitor
          (.leased row t s) fun _ m' => m' = .leased row t s := by
        simp only [requeue, ht, hrd]
        refine wp_op_bind rfl fun ctx => ?_
        exact hl.release ctx row t s job _ ht hj (hretry job t attempt (hn ht) hlt)
      refine wp_bind_of hrequeue ?_
      rintro requeued m' rfl
      cases requeued with
      | ok u => exact wp_op rfl fun _ => trivial
      | error e =>
        simp only
        split
        · trivial
        · exact wp_failJob hrd hl ht
    · exact wp_failJob hrd hl ht

theorem wp_runJob : (w.runJob job t batch).wp v.monitor (.leased row t false) fun _ _ => True := by
  intro _ _
  refine ⟨⟨rfl, rfl⟩, ?_⟩
  refine wp_op_bind rfl fun ended => ?_
  rcases ended with (_ | err) | _
  · refine wp_bind_of (wp_ackReservation hrd hl ht) fun owned m' h => ?_
    refine (wp_bind _ _ _ _ _).mpr (wp_removeAttempts ?_)
    cases owned with
    | false => trivial
    | true =>
      obtain rfl := h rfl
      refine wp_bind_of (wp_settle fun _ => ⟨rfl, rfl⟩) fun _ m' _ => ?_
      exact wp_op_bind rfl fun _ => trivial
  · refine wp_bind_of (wp_asks (abortedBy_asks err)) ?_
    rintro aborted m' rfl
    split
    · trivial
    · refine wp_op_bind rfl fun down => ?_
      split
      · trivial
      · exact wp_bind_of (wp_handleJobFailure hrd hl ht hj hretry) fun _ _ _ => trivial
  · refine wp_op_bind rfl fun down => ?_
    split
    · trivial
    · exact wp_bind_of (wp_handleJobFailure hrd hl ht hj hretry) fun _ _ _ => trivial

theorem wp_processPopped :
    (w.processPopped job t).wp v.monitor (.leased row t false) fun _ _ => True := by
  refine wp_op_bind rfl fun _ => ?_
  cases job.batch with
  | absent => exact wp_runJob hrd hl ht hj hretry
  | panics msg =>
    refine wp_bind_of wp_attemptNumber ?_
    rintro attempt m' ⟨-, rfl⟩
    exact wp_bind_of (wp_failJob hrd hl ht) fun _ _ _ => trivial
  | id b =>
    refine wp_bind_of (wp_asks (skips_asks _)) ?_
    rintro skip m' rfl
    cases skip with
    | false => exact wp_runJob hrd hl ht hj hretry
    | true =>
      refine wp_bind_of (wp_ackReservation hrd hl ht) fun owned m' h => ?_
      cases owned with
      | false => trivial
      | true =>
        obtain rfl := h rfl
        exact fun _ _ => ⟨⟨rfl, rfl⟩, trivial⟩

omit ht hj in
theorem wp_processJob : w.processJob.wp v.monitor {} fun _ _ => True := by
  have hpop : w.pop.wp v.monitor {} fun res m' => ∀ job t, res = .ok (some (job, t)) →
      t.isZero = false ∧ ∃ row, v.standsFor row job ∧ m' = .leased row t false := by
    simp only [pop, hrd]
    exact wp_op_bind rfl fun ctx => hl.pop ctx w.queueName
  refine wp_bind_of hpop fun popped m' h => ?_
  rcases popped with e | _ | ⟨job, t⟩
  · trivial
  · trivial
  · obtain ⟨ht, row, hj, rfl⟩ := h job t rfl
    exact wp_processPopped hrd hl ht hj hretry

end Lawful

theorem wp_call {p : Prog Res α} (hp : p.All fun o => ∀ l, v.guard l o) :
    (call p).wp v.monitor m fun _ _ => True := by
  induction p generalizing m with
  | ret a => trivial
  | call o k ih => exact fun r _ => ⟨hp.1 _, ih r (hp.2 r)⟩

end Worker

theorem driverLog_append (l l' : WorkerLog Res) :
    driverLog (l ++ l') = driverLog l ++ driverLog l' := filterMap_append ..

theorem mem_driverLog {l : WorkerLog Res} {i : Nat} {o : Op} {r : Res o}
    (h : (⟨i, .driver o, r⟩ : Event (WorkerOp.Res Res)) ∈ l) : ⟨i, o, r⟩ ∈ driverLog l :=
  mem_filterMap.mpr ⟨_, h, rfl⟩

namespace LeaseView

variable (v : LeaseView Res Row) {id : Nat}

def issued : Event (WorkerOp.Res Res) → Option (Row × ReservationToken)
  | ⟨_, .driver o, r⟩ => v.reserved o r
  | _ => none

def removal : Event (WorkerOp.Res Res) → Option ReservationToken
  | ⟨_, .driver o, r⟩ => v.removed o r
  | _ => none

def leaseOf (log : WorkerLog Res) (i : Nat) : Option (Row × ReservationToken) :=
  log.findSome? fun ev => if ev.tid = i then v.issued ev else none

def rowOf (log : WorkerLog Res) (i : Nat) : Option Nat :=
  (v.leaseOf log i).map fun l => v.rowID l.1 l.2

def settledRows (log : WorkerLog Res) : List Nat :=
  (log.filter fun ev => ev.op.settles).filterMap fun ev => v.rowOf log ev.tid

def Issued (log : Log Res) (row : Row) (t : ReservationToken) : Prop :=
  ∃ ev ∈ log, v.reserved ev.op ev.res = some (row, t)

def Once (log : Log Res) : Prop :=
  ∀ x ∈ log, ∀ y ∈ log, ∀ row row' t u, v.removed x.op x.res = some t →
    v.removed y.op y.res = some u → v.Issued log row t → v.Issued log row' u →
    v.rowID row t = v.rowID row' u → x.tid = y.tid

/-- Thread `i` was leased the row with the token `t` and has removed it. -/
def Removed (log : WorkerLog Res) (i : Nat) (row : Row) (t : ReservationToken) : Prop :=
  v.leaseOf log i = some (row, t) ∧ ∃ ev ∈ log, ev.tid = i ∧ v.removal ev = some t

theorem leaseOf_append (log log' : WorkerLog Res) (i : Nat) :
    v.leaseOf (log ++ log') i = (v.leaseOf log i).or (v.leaseOf log' i) :=
  findSome?_append

theorem lease_stateOf (log : WorkerLog Res) (i : Nat) :
    (v.monitor.stateOf log i : Accounting Row).lease = v.leaseOf log i := by
  induction log using reverseRecOn with
  | nil => rfl
  | append_singleton log ev ih =>
    rw [leaseOf_append, stateOf_concat, ← ih]
    obtain ⟨j, o, -⟩ := ev
    by_cases h : j = i
    · cases o <;> simp [h, monitor, next, issued, leaseOf]
    · simp [h, leaseOf]

variable {v} {log : WorkerLog Res} {t : ReservationToken} {i : Nat} {row : Row}

theorem Removed.append (h : v.Removed log i row t) (log' : WorkerLog Res) :
    v.Removed (log ++ log') i row t := by
  obtain ⟨hl, x, hx, hxi, hxt⟩ := h
  exact ⟨by rw [leaseOf_append, hl]; rfl, x, mem_append_left _ hx, hxi, hxt⟩

theorem Removed.rowOf (h : v.Removed log i row t) : v.rowOf log i = some (v.rowID row t) := by
  simp [LeaseView.rowOf, h.1]

theorem removed_stateOf (h : (v.monitor.stateOf log i : Accounting Row).removed = true) :
    ∃ row t, v.Removed log i row t := by
  induction log using reverseRecOn with
  | nil => cases h
  | append_singleton log ev ih =>
    rw [stateOf_concat] at h
    obtain ⟨j, o, r⟩ := ev
    by_cases hold : (v.monitor.stateOf log i : Accounting Row).removed = true
    · obtain ⟨row, t, ht⟩ := ih hold
      exact ⟨row, t, ht.append _⟩
    · -- the thread's last operation removed the row of its token
      by_cases hj : j = i
      · subst hj
        simp only [if_true] at h
        cases o with
        | driver o =>
          have hrem := (Bool.or_eq_true_iff.mp h).resolve_left hold
          obtain ⟨⟨row, t⟩, hl, ht⟩ := (any_eq_true _ _).mp hrem
          have hlease := (v.lease_stateOf log j).symm.trans hl
          exact ⟨row, t, by rw [leaseOf_append, hlease]; rfl, ⟨j, .driver o, r⟩,
            mem_append_right _ (by simp), rfl, of_decide_eq_true ht⟩
        | _ => exact absurd h hold
      · simp only [hj, if_false] at h
        exact absurd h hold

variable {ev : Event (WorkerOp.Res Res)}

theorem settled_stateOf (h : ev ∈ log) (hs : ev.op.settles = true) :
    (v.monitor.stateOf log ev.tid : Accounting Row).settled = true := by
  refine stateOf_of_mem v.monitor (f := fun m : Accounting Row => m.settled = true)
    (P := fun o => o.settles = true) (fun m o r hm => ?_) (fun m o r ho => ?_) h hs
  · cases o <;> first | rfl | exact hm
  · cases o <;> first | rfl | simp [settles] at ho

theorem started_stateOf (h : ev ∈ log) (hs : ev.op.starts = true) :
    (v.monitor.stateOf log ev.tid : Accounting Row).started = true := by
  refine stateOf_of_mem v.monitor (f := fun m : Accounting Row => m.started = true)
    (P := fun o => o.starts = true) (fun m o r hm => ?_) (fun m o r ho => ?_) h hs
  · cases o <;> first | rfl | exact hm
  · cases o <;> first | rfl | simp [starts] at ho

theorem settledRows_concat (ev : Event (WorkerOp.Res Res))
    (hlog : ∀ x ∈ log, x.op.settles = true → ∃ row t, v.Removed log x.tid row t) :
    v.settledRows (log ++ [ev]) = v.settledRows log ++
      if ev.op.settles then (v.rowOf (log ++ [ev]) ev.tid).toList else [] := by
  have hkeep : ((log.filter fun x => x.op.settles).filterMap fun x =>
      v.rowOf (log ++ [ev]) x.tid) = v.settledRows log := by
    refine filterMap_congr fun x hx => ?_
    obtain ⟨hx, hs⟩ := mem_filter.mp hx
    obtain ⟨row, t, ht⟩ := hlog x hx hs
    rw [(ht.append [ev]).rowOf, ht.rowOf]
  rw [settledRows, filter_append, filterMap_append, hkeep]
  by_cases hs : ev.op.settles = true
  · cases ht : v.rowOf (log ++ [ev]) ev.tid <;> simp [hs, ht]
  · simp [hs]

theorem exists_of_leaseOf (h : v.leaseOf log i = some (row, t)) :
    ∃ o r, (⟨i, o, r⟩ : Event Res) ∈ driverLog log ∧ v.reserved o r = some (row, t) := by
  obtain ⟨⟨j, o, r⟩, hev, hi⟩ := exists_of_findSome?_eq_some h
  by_cases hj : j = i
  · subst hj
    cases o with
    | driver o => exact ⟨o, r, mem_driverLog hev, by simpa [issued] using hi⟩
    | _ => simp [issued] at hi
  · simp [hj] at hi

theorem Removed.driver (h : v.Removed log i row t) : v.Issued (driverLog log) row t ∧
      ∃ x ∈ driverLog log, x.tid = i ∧ v.removed x.op x.res = some t := by
  obtain ⟨hl, ⟨j, o, r⟩, hx, rfl, hxt⟩ := h
  obtain ⟨o', r', hmem, hres⟩ := exists_of_leaseOf hl
  refine ⟨⟨_, hmem, hres⟩, ?_⟩
  cases o with
  | driver o => exact ⟨⟨j, o, r⟩, mem_driverLog hx, rfl, hxt⟩
  | _ => simp [removal] at hxt

theorem Removed.thread_eq {i j : Nat} {row row' : Row}
    {t u : ReservationToken} (hi : v.Removed log i row t) (hj : v.Removed log j row' u)
    (hid : v.rowID row t = v.rowID row' u) (honce : v.Once (driverLog log)) : i = j := by
  obtain ⟨hrow, x, hx, rfl, hxt⟩ := hi.driver
  obtain ⟨hrow', y, hy, rfl, hyu⟩ := hj.driver
  exact honce x hx y hy row row' t u hxt hyu hrow hrow' hid

variable {o : WorkerOp Op} {r : WorkerOp.Res Res o}

theorem Guard.settles {m : Accounting Row} (h : v.Guard m o)
    (hs : o.settles = true) : m.removed = true ∧ m.settled = false := by
  cases o <;> first | exact h | simp [settles] at hs

variable (v)

structure Accounted (log : WorkerLog Res) : Prop where
  nodup : (v.settledRows log).Nodup
  removed : EachAfter (fun pre ev =>
    ev.op.settles = true → ∃ row t, v.Removed pre ev.tid row t) log

variable {v}

theorem accounted_nil : v.Accounted [] := ⟨nodup_nil, eachAfter_nil _⟩

theorem Accounted.removed_of_mem (h : v.Accounted log)
    (hev : ev ∈ log) (hs : ev.op.settles = true) : ∃ row t, v.Removed log ev.tid row t := by
  obtain ⟨pre, post, rfl⟩ := append_of_mem hev
  obtain ⟨row, t, ht⟩ := h.removed pre ev post rfl hs
  exact ⟨row, t, ht.append _⟩

theorem Accounted.removed_of_settledRows (h : v.Accounted log) (hid : id ∈ v.settledRows log) :
    ∃ i row t, v.Removed log i row t ∧ v.rowID row t = id := by
  obtain ⟨ev, hev, hrow⟩ := mem_filterMap.mp hid
  obtain ⟨hev, hs⟩ := mem_filter.mp hev
  obtain ⟨row, t, hrem⟩ := h.removed_of_mem hev hs
  exact ⟨ev.tid, row, t, hrem, by simpa [hrem.rowOf] using hrow⟩

theorem Accounted.concat (h : v.Accounted log)
    (honce : v.Once (driverLog log)) (hg : v.Guard (v.monitor.stateOf log i) o) :
    v.Accounted (log ++ [⟨i, o, r⟩]) := by
  have hrem := fun x (hx : x ∈ log) (hs : x.op.settles = true) => h.removed_of_mem hx hs
  refine ⟨?_, eachAfter_concat.mpr ⟨h.removed, fun hs => removed_stateOf (hg.settles hs).1⟩⟩
  rw [settledRows_concat _ hrem]
  by_cases hs : o.settles = true
  · obtain ⟨row, t, ht⟩ := removed_stateOf (hg.settles hs).1
    have hrow : v.rowOf (log ++ [⟨i, _, r⟩]) i = some (v.rowID row t) := (ht.append _).rowOf
    simp only [hs, if_true, hrow, toList_some]
    refine nodup_append.mpr ⟨h.nodup, by simp, ?_⟩
    -- a settlement of the same row was made by this thread, which settles only once
    rintro id hid _ hlast rfl
    obtain rfl : id = v.rowID row t := by simpa using hlast
    obtain ⟨x, hx, hxid⟩ := mem_filterMap.mp hid
    obtain ⟨hx, hxs⟩ := mem_filter.mp hx
    obtain ⟨row', u, hu⟩ := hrem x hx hxs
    have huid : v.rowID row' u = v.rowID row t := by simpa [hu.rowOf] using hxid
    have hxi : x.tid = i := hu.thread_eq ht huid honce
    have hset := settled_stateOf (v := v) hx hxs
    rw [hxi, (hg.settles hs).2] at hset
    simp at hset
  · simpa [hs] using h.nodup

variable (v)

/-- Handlers are started under a lease, at most once by each thread. -/
structure Started (log : WorkerLog Res) : Prop where
  nodup : ((log.filter fun ev => ev.op.starts).map (·.tid)).Nodup
  leased : ∀ ev ∈ log, ev.op.starts = true → (v.leaseOf log ev.tid).isSome = true

def handlerStarts (log : WorkerLog Res) (id : Nat) : WorkerLog Res :=
  log.filter fun ev => ev.op.starts && v.rowOf log ev.tid == some id

variable {v}

theorem Started.concat (h : v.Started log) (hg : v.Guard (v.monitor.stateOf log i) o) :
    v.Started (log ++ [⟨i, o, r⟩]) := by
  have hkeep : ∀ j, (v.leaseOf log j).isSome = true →
      (v.leaseOf (log ++ [⟨i, o, r⟩]) j).isSome = true := by
    intro j hj
    rw [leaseOf_append, isSome_or, hj]
    rfl
  by_cases hs : o.starts = true
  · obtain ⟨hl, hns⟩ : (v.monitor.stateOf log i : Accounting Row).lease.isSome = true ∧
        (v.monitor.stateOf log i : Accounting Row).started = false := by
      cases o <;> first | exact hg | simp [starts] at hs
    rw [lease_stateOf] at hl
    refine ⟨?_, fun ev hev hevs => ?_⟩
    · rw [filter_append, map_append]
      refine nodup_append.mpr ⟨h.nodup, by simp [hs], ?_⟩
      rintro j hj _ hlast rfl
      obtain rfl : j = i := by simpa [hs] using hlast
      obtain ⟨x, hx, rfl⟩ := mem_map.mp hj
      obtain ⟨hx, hxs⟩ := mem_filter.mp hx
      have hst := started_stateOf (v := v) hx hxs
      rw [hns] at hst
      simp at hst
    · rcases mem_concat.mp hev with hev | rfl
      · exact hkeep _ (h.leased ev hev hevs)
      · exact hkeep i hl
  · refine ⟨by simpa [hs] using h.nodup, fun ev hev hevs => ?_⟩
    rcases mem_concat.mp hev with hev | rfl
    · exact hkeep _ (h.leased ev hev hevs)
    · exact absurd hevs hs

theorem Started.length_le (h : v.Started log) {reserves : Event Res → Bool}
    (hres : ∀ i o r row t, (⟨i, o, r⟩ : Event Res) ∈ driverLog log →
      v.reserved o r = some (row, t) → v.rowID row t = id → reserves ⟨i, o, r⟩ = true) :
    (v.handlerStarts log id).length ≤ ((driverLog log).filter reserves).length := by
  have hsub : ((v.handlerStarts log id).map (·.tid)).Sublist
      ((log.filter fun ev => ev.op.starts).map (·.tid)) := by
    refine (monotone_filter_right log fun ev => ?_).map _
    intro hev
    exact (Bool.and_eq_true_iff.mp hev).1
  have hss : (v.handlerStarts log id).map (·.tid) ⊆
      ((driverLog log).filter reserves).map (·.tid) := by
    intro j hj
    obtain ⟨ev, hev, rfl⟩ := mem_map.mp hj
    obtain ⟨-, hev⟩ := mem_filter.mp hev
    simp only [Bool.and_eq_true, beq_iff_eq] at hev
    obtain ⟨⟨row, t⟩, hl, hid⟩ := map_eq_some_iff.mp hev.2
    obtain ⟨o, r, hmem, hr⟩ := exists_of_leaseOf hl
    exact mem_map.mpr ⟨⟨ev.tid, o, r⟩, mem_filter.mpr ⟨hmem, hres _ o r row t hmem hr hid⟩, rfl⟩
  have hle := (List.Nodup.subperm (h.nodup.sublist hsub) hss).length_le
  simpa using hle

section Runs

variable {World Env W Client α : Type} {exec : World → Env → (o : Op) → Res o × World}
  {worker : W → Worker Res} {client : Client → Prog Res α} {w : World}
  (hlaw : ∀ c, ∃ rd, (worker c).queue.reservation = some rd ∧ v.Lawful rd)
  (hretry : ∀ c job (t : ReservationToken) (n : Nat), (0 < t.attempts → n = t.attempts) →
    (n : Int) < (worker c).maxAttempts job → v.retries job t)
  (hclient : ∀ c, (client c).All fun o => ∀ l, v.guard l o)

include hlaw hretry hclient

theorem invariant {K : WorkerWorld World → WorkerLog Res → Prop} (h0 : K { driver := w } [])
    (hans : ∀ w l e o, K w l → v.allowed o (exec w.driver e o).1)
    (hstep : ∀ w l i e o, K w l → v.Guard (v.monitor.stateOf l i) o →
      K (workerExec exec w e o).2 (l ++ [⟨i, o, (workerExec exec w e o).1⟩]))
    (acts : List (Act (WorkerEnv Env) (WorkerCall W Client))) :
    let p := (workerSystem exec worker client).run (.start { driver := w }) acts
    K p.world p.log := by
  refine System.invariant (workerSystem exec worker client) v.monitor ?_ h0 ?_ hstep acts
  · rintro (c | c)
    · obtain ⟨rd, hrd, hl⟩ := hlaw c
      exact wp_bind_of (Worker.wp_processJob hrd hl (hretry c)) fun _ _ _ => trivial
    · exact wp_bind_of (Worker.wp_call (hclient c)) fun _ _ _ => trivial
  · intro w l e o hK
    cases o with
    | driver o => exact hans w l e.driver o hK
    | _ => trivial

theorem accounted_run {I : World → Log Res → Prop} (h0 : I w [])
    (hstep : ∀ w l i e o, I w l → I (exec w e o).2 (l ++ [⟨i, o, (exec w e o).1⟩]))
    (hans : ∀ w l e o, I w l → v.allowed o (exec w e o).1) (honce : ∀ w l, I w l → v.Once l)
    (acts : List (Act (WorkerEnv Env) (WorkerCall W Client))) :
    let p := (workerSystem exec worker client).run (.start { driver := w }) acts
    v.Accounted p.log ∧ I p.world.driver (driverLog p.log) := by
  refine invariant hlaw hretry hclient (K := fun w l => v.Accounted l ∧ I w.driver (driverLog l))
    ⟨accounted_nil, h0⟩ (fun w l e o hK => hans _ _ e o hK.2) ?_ acts
  rintro ⟨world, attempts⟩ l i e o ⟨hacc, hI⟩ hg
  refine ⟨hacc.concat (honce _ _ hI) hg, ?_⟩
  rw [driverLog_append]
  cases o with
  | driver o => exact hstep world _ i e.driver o hI
  | _ => exact (append_nil (driverLog l)).symm ▸ hI

end Runs

end LeaseView

end Velocity.Queue
