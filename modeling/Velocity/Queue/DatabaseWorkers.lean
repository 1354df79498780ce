import Velocity.Queue.DatabaseLeases
import Velocity.Queue.WorkerAccounting

/-! Workers over the database driver. -/

namespace Velocity.Queue

open Interleave DatabaseDriver

def DatabaseDriver.reservationDriver (d : DatabaseDriver) : ReservationDriver DbOp.Res where
  popCtxReserved := d.popCtxReserved
  ackCtx := DatabaseDriver.ackCtx
  releaseCtx := DatabaseDriver.releaseCtx
  failReservedCtx := DatabaseDriver.failReservedCtx

def DatabaseDriver.driver (d : DatabaseDriver) : Driver DbOp.Res where
  popCtx ctx queue := d.popCtx ctx queue >>= fun res =>
    .ret (res.map fun popped => popped.map Prod.fst)
  pushDelayedCtx ctx job delay queue :=
    DatabaseDriver.pushDelayedCtx ctx (some job) delay (some queue)
  failedCtx _ job err queue := DatabaseDriver.failedCtx job err queue
  reservation := some d.reservationDriver

def DatabaseDriver.worker (c : WorkerOptions × DatabaseDriver) : Worker DbOp.Res :=
  { c.1 with queue := c.2.driver }

section View

variable (registry : Registry) (budget : Option Int) {t : ReservationToken}

/-- Tokens are not zero, a rebuilt job is that of its payload, and a failed transaction reports no
panic. -/
def DbOp.Answers : (o : DbOp) → o.Res → Prop
  | .reserveNext _ _, .ok (some (_, t)) => t.isZero = false
  | .hydrateRecord rec, .ok job => registry rec.payload.payload = .ok job
  | .commitFailedReservation _ _ _ _, .error e => e.is .failedHookPanicked = false
  | _, _ => True

/-- The budget leaves another attempt, or there is none. -/
def Retries (job : Job) (t : ReservationToken) : Prop :=
  ∀ n ∈ budget, (t.attempts : Int) < job.maxAttempts.getD n

def databaseView : LeaseView DbOp.Res JobRecord where
  allowed := DbOp.Answers registry
  guard lease
    | .releaseReserved t _ => budget = none ∨
        ∃ rec job, lease = some (rec, t) ∧ registry rec.payload.payload = .ok job ∧ Retries budget job t
    | _ => True
  reserved o r :=
    match o.effect r with
    | .reserves rec t => some (rec, t)
    | _ => none
  removed o r :=
    match o.effect r with
    | .removes t => some t
    | _ => none
  rowID _ t := t.id
  standsFor rec job := registry rec.payload.payload = .ok job
  retries := Retries budget

variable {registry budget} in
theorem databaseView_removed {ev : Event DbOp.Res}
    (h : (databaseView registry budget).removed ev.op ev.res = some t) :
    jobsEffect ev = .removes t := by
  simp only [databaseView] at h
  cases heff : ev.op.effect ev.res with
  | removes u =>
    rw [heff] at h
    obtain rfl := Option.some.inj h
    exact heff
  | _ => simp [heff] at h

variable {registry budget} in
theorem databaseView_reserved {o : DbOp} {r : o.Res} {rec : JobRecord} :
    (databaseView registry budget).reserved o r = some (rec, t) ↔ o.effect r = .reserves rec t := by
  simp only [databaseView]
  cases o.effect r <;> simp

theorem databaseView_lawful (d : DatabaseDriver) :
    (databaseView registry budget).Lawful d.reservationDriver where
  pop := by
    intro ctx queue
    cases ctx with
    | some e => exact fun job t h => by cases h
    | none =>
      rintro (e | _ | ⟨rec, t⟩) hr
      · exact ⟨trivial, fun job t h => by cases h⟩
      · exact ⟨trivial, fun job t h => by cases h⟩
      · refine ⟨trivial, ?_⟩
        rintro (poisonErr | job) hj
        · refine ⟨trivial, ?_⟩
          rintro (e | u) -
          · exact ⟨trivial, fun job t h => by cases h⟩
          · exact ⟨trivial, fun job t h => by cases h⟩
        · refine ⟨trivial, ?_⟩
          rintro job' t' ⟨⟩
          exact ⟨hr, rec, hj, rfl⟩
  ack := by
    intro ctx rec t s ht
    simp only [reservationDriver, ackCtx, ht]
    cases ctx with
    | some e => exact fun h => by cases h
    | none =>
      rintro (e | u) -
      · exact ⟨trivial, fun h => by cases h⟩
      · exact ⟨trivial, fun _ => LeaseView.next_leased rfl⟩
  release := by
    intro ctx rec t s job delay ht hj hretry
    simp only [reservationDriver, releaseCtx, ht]
    cases ctx with
    | some e => rfl
    | none =>
      rintro (e | u) -
      · exact ⟨.inr ⟨rec, job, rfl, hj, hretry⟩, rfl⟩
      · exact ⟨.inr ⟨rec, job, rfl, hj, hretry⟩, rfl⟩
  fail := by
    intro ctx rec t s job err queue ht
    simp only [reservationDriver, failReservedCtx, ht]
    rcases ctx with _ | _ | _
    · cases hw : createJobWrapper job queue with
      | error e =>
        obtain rfl := createJobWrapper_error hw
        exact fun h => absurd (h _ rfl) (by decide)
      | ok wrapper =>
        rintro (e | u) hr
        · have he : e.is .failedHookPanicked = false := hr
          exact ⟨trivial, fun h => absurd (h e rfl) (by simp [he])⟩
        · refine ⟨trivial, ?_⟩
          rintro res -
          refine ⟨trivial, fun _ => ?_⟩
          exact (congrArg ((databaseView registry budget).next · _ _)
            (LeaseView.next_leased rfl)).trans (LeaseView.next_finished _ _ _ _ _ _)
    · exact fun h => absurd (h _ rfl) (by decide)
    · exact fun h => absurd (h _ rfl) (by decide)

end View

theorem failFault_is (f : Fault) : (failFault f).is .failedHookPanicked = false := by
  obtain ⟨stage, err⟩ := f
  rcases err with (_ | _) | msg <;> cases stage <;> simp [failFault, faultErr, Err.is,
    BackendErr.toErr, CtxErr.toErr]

variable (registry : Registry)

theorem dbExec_answers {db : Database} (hwf : db.WellFormed)
    (env : DbEnv) (o : DbOp) : o.Answers registry (dbExec registry db env o).1 := by
  cases o with
  | reserveNext d queue =>
    have heff := dbExec_effect registry db env (.reserveNext d queue) 0
    simp only [dbExec] at heff ⊢
    cases hres : (db.reserveNext env d queue).1 with
    | error e => trivial
    | ok x =>
      rcases x with _ | ⟨rec, t⟩
      · trivial
      · rw [hres] at heff
        obtain ⟨hrec, hid, -⟩ := heff
        have := (hwf.bounds rec hrec).1
        simp only [DbOp.Answers, ReservationToken.isZero, beq_eq_false_iff_ne, ne_eq]
        omega
  | hydrateRecord rec =>
    simp only [dbExec, hydrateRecord]
    cases env.poison with
    | some e => trivial
    | none =>
      cases hreg : registry rec.payload.payload with
      | error e => trivial
      | ok job => exact hreg
  | commitFailedReservation t exception queue payload =>
    simp only [dbExec]
    cases env.fault with
    | some f => exact failFault_is f
    | none =>
      rcases db.moveToFailed_eq t queue payload exception env.now with ⟨-, hm⟩ | ⟨-, hm⟩
      · rw [hm]
        trivial
      · rw [hm]
        rfl
  | _ => trivial

def databaseWorkers (registry : Registry) :
    System (WorkerOp.Res DbOp.Res) (WorkerWorld Database) (WorkerEnv DbEnv)
      (WorkerCall (WorkerOptions × DatabaseDriver) DbCall) Unit :=
  workerSystem (dbExec registry) DatabaseDriver.worker DbCall.body

theorem databaseWorkers_accounted
    (acts : List (Act (WorkerEnv DbEnv) (WorkerCall (WorkerOptions × DatabaseDriver) DbCall))) :
    let p := (databaseWorkers registry).run (.start { driver := {} }) acts
    (databaseView registry none).Accounted p.log ∧ LeaseInv p.world.driver (driverLog p.log) := by
  refine LeaseView.accounted_run (fun c => ⟨_, rfl, databaseView_lawful registry none c.2⟩)
    (fun c job t n _ _ => by simp [databaseView, Retries])
    (fun c => Prog.All.of_forall (fun o l => by cases o <;> simp [databaseView]) _) leaseInv_start
    (fun _ _ i e o h => h.step registry i e o) (fun _ _ e o h => dbExec_answers registry h.wf e o) ?_ acts
  intro db log h x hx y hy rec rec' t u hxt hyu _ _ (hid : t.id = u.id)
  have hxr : removesRow t.id x = true := removesRow_iff.mpr ⟨t, databaseView_removed hxt, rfl⟩
  have hyr : removesRow t.id y = true :=
    removesRow_iff.mpr ⟨u, databaseView_removed hyu, hid.symm⟩
  exact congrArg (·.tid) (eq_of_length_le_one (h.once t.id) (List.mem_filter.mpr ⟨hx, hxr⟩)
    (List.mem_filter.mpr ⟨hy, hyr⟩))

end Velocity.Queue
