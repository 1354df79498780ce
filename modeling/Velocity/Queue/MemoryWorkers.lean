import Velocity.Queue.DatabaseWorkers
import Velocity.Queue.MemoryLeases

/-! Workers over the memory driver, and what holds of the workers over both reservation
drivers. -/

namespace Velocity.Queue

open Interleave Placement MemoryDriver LeaseView

def MemoryDriver.reservationDriver : ReservationDriver MemOp.Res where
  popCtxReserved := MemoryDriver.popCtxReserved
  ackCtx := MemoryDriver.ackCtx
  releaseCtx := MemoryDriver.releaseCtx
  failReservedCtx := MemoryDriver.failReservedCtx

def MemoryDriver.driver : Driver MemOp.Res where
  popCtx := MemoryDriver.popCtx
  pushDelayedCtx ctx job delay queue :=
    MemoryDriver.pushDelayedCtx ctx (some job) delay (some queue)
  failedCtx _ job err queue := MemoryDriver.failedCtx job err queue
  reservation := some MemoryDriver.reservationDriver

def MemoryDriver.worker (options : WorkerOptions) : Worker MemOp.Res :=
  { options with queue := MemoryDriver.driver }

/-- Tokens are not zero, and a refused mutation does not report a panicking hook. -/
def MemOp.Answers : (o : MemOp) → o.Res → Prop
  | .reserveNext _, some (_, t) => t.isZero = false
  | .failReserved _ _ _ _, .error e => e.is .failedHookPanicked = false
  | _, _ => True

def memoryView : LeaseView MemOp.Res Wrapper where
  allowed := MemOp.Answers
  guard _ _ := True
  reserved := MemOp.leases
  removed := MemOp.settles
  rowID v _ := v.ptr
  standsFor _ _ := True
  retries _ _ := True

theorem memoryView_lawful : memoryView.Lawful MemoryDriver.reservationDriver where
  pop := by
    intro ctx queue
    cases ctx with
    | some e => exact fun job t h => by cases h
    | none =>
      rintro (_ | ⟨⟨⟨job, payload, key⟩, ptr⟩, t⟩) hr
      · exact ⟨trivial, fun job t h => by cases h⟩
      · refine ⟨trivial, ?_⟩
        cases job with
        | some job =>
          rintro job' t' ⟨⟩
          exact ⟨hr, _, trivial, rfl⟩
        | none =>
          rintro (cause | job) -
          · refine ⟨trivial, ?_⟩
            rintro (e | u) -
            · exact ⟨trivial, fun job t h => by cases h⟩
            · exact ⟨trivial, fun job t h => by cases h⟩
          · refine ⟨trivial, ?_⟩
            rintro job' t' ⟨⟩
            exact ⟨hr, _, trivial, rfl⟩
  ack := by
    intro ctx v t s ht
    simp only [reservationDriver, ackCtx, ht]
    cases ctx with
    | some e => exact fun h => by cases h
    | none =>
      rintro (e | r) -
      · exact ⟨trivial, fun h => by cases h⟩
      · exact ⟨trivial, fun _ => next_leased rfl⟩
  release := by
    intro ctx v t s job delay ht _ _
    simp only [reservationDriver, releaseCtx, ht]
    cases ctx with
    | some e => rfl
    | none =>
      rintro (e | r) -
      · exact ⟨trivial, rfl⟩
      · exact ⟨trivial, rfl⟩
  fail := by
    intro ctx v t s job err queue ht
    simp only [reservationDriver, failReservedCtx, ht]
    rcases ctx with _ | _ | _
    · rintro (e | r) hr
      · have he : e.is .failedHookPanicked = false := hr
        exact ⟨trivial, fun h => absurd (h e rfl) (by simp [he])⟩
      · refine ⟨trivial, ?_⟩
        rintro res -
        refine ⟨trivial, fun _ => ?_⟩
        exact (congrArg (memoryView.next · _ _) (next_leased rfl)).trans
          (next_finished _ _ _ _ _ _)
    · exact fun h => absurd (h _ rfl) (by decide)
    · exact fun h => absurd (h _ rfl) (by decide)

variable (registry : Registry)

theorem memExec_answers (w : MemWorld) (env : MemEnv)
    (o : MemOp) : o.Answers (memExec registry w env o).1 := by
  cases o with
  | reserveNext queue =>
    simp only [memExec, memStep, MemWorld.reserveNext]
    rcases w.queues.lookup queue with _ | _ | ⟨v, rest⟩
    · trivial
    · trivial
    · rfl
  | failReserved t job errText queue =>
    simp only [memExec, memStep, MemWorld.failReserved, MemWorld.takeReservation]
    cases w.reservations.lookup t.id with
    | none => rfl
    | some r => trivial
  | _ => trivial

def memoryWorkers (registry : Registry) :
    System (WorkerOp.Res MemOp.Res) (WorkerWorld MemWorld) (WorkerEnv MemEnv)
      (WorkerCall WorkerOptions MemCall) Unit :=
  workerSystem (memExec registry) MemoryDriver.worker MemCall.body

theorem memoryWorkers_accounted
    (acts : List (Act (WorkerEnv MemEnv) (WorkerCall WorkerOptions MemCall))) :
    let p := (memoryWorkers registry).run (.start { driver := {} }) acts
    memoryView.Accounted p.log ∧ TokenInv p.world.driver (driverLog p.log) :=
  accounted_run (I := TokenInv) (fun _ => ⟨_, rfl, memoryView_lawful⟩)
    (fun _ _ _ _ _ _ => trivial) (fun _ => Prog.All.of_forall (fun _ _ => trivial) _) .start
    (fun _ _ i e o h => tokenInv_exec registry h i e o)
    (fun w _ e o _ => memExec_answers registry w e o) (fun _ _ h => h.once) acts

/-- A batch is asked to settle a pushed job at most once, by the thread that removed its row. -/
theorem settled_at_most_once (registry : Payload → Except Err Job) :
    (∀ acts, let p := (databaseWorkers registry).run (.start { driver := {} }) acts
      let v := databaseView registry none
      v.Accounted p.log ∧ ∀ id ∈ v.settledRows p.log, p.world.driver.hasRow id = false) ∧
    ∀ acts, let p := (memoryWorkers registry).run (.start { driver := {} }) acts
      memoryView.Accounted p.log ∧ ∀ id ∈ memoryView.settledRows p.log,
        ¬Present Wrapper.ptr p.world.driver.queued.wrappersAt id := by
  constructor
  · intro acts p v
    obtain ⟨hacc, hinv⟩ := databaseWorkers_accounted registry acts
    refine ⟨hacc, fun id hid => ?_⟩
    obtain ⟨i, rec, t, hrem, rfl⟩ := hacc.removed_of_settledRows hid
    obtain ⟨-, x, hx, -, hxt⟩ := hrem.driver
    exact (hinv.removed x hx t (databaseView_removed hxt)).2
  · intro acts p
    obtain ⟨hacc, hinv⟩ := memoryWorkers_accounted registry acts
    refine ⟨hacc, fun id hid => ?_⟩
    obtain ⟨i, w, t, hrem, rfl⟩ := hacc.removed_of_settledRows hid
    obtain ⟨hlease, x, hx, -, hxt⟩ := hrem.driver
    exact (hinv.settled x hx t hxt).2 w t hlease rfl

end Velocity.Queue
