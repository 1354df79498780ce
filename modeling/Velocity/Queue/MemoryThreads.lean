import Velocity.Queue.MemoryPlaces

/-! The memory driver's calls, one by one: what a thread has in its hands while it pops,
and that a call which is turned away changes nothing. -/

namespace Velocity.Queue

open Interleave Prog MemoryDriver

/-- The wrapper a thread is rebuilding, and its last clock reading. -/
structure Hand where
  taken : Option (Wrapper × ReservationToken × String) := none
  read : Option Time := none

namespace Hand

def next (m : Hand) : (o : MemOp) → o.Res → Hand
  | .now, t => { m with read := some t }
  | .popWrapper q, some v => { m with taken := some (v, .zero, q) }
  | .reserveNext q, some (v, t) => { m with taken := some (v, t, q) }
  | .handOut _, _ => { m with taken := none }
  | .quarantine _ _ _ _, _ => { m with taken := none }
  | _, _ => m

def Guard (m : Hand) : MemOp → Prop
  | .enqueue v name => v.dedupeKey = "" ∧ v.payload.queue = name
  | .delay v _ name => v.dedupeKey = "" ∧ v.payload.queue = name
  | .claim v key name => key ≠ "" ∧ v.dedupeKey = key ∧ v.payload.queue = name
  | .popWrapper _ => m.taken = none
  | .reserveNext _ => m.taken = none
  | .handOut v => ∃ q, m.taken = some (v, .zero, q)
  | .quarantine q t v _ => m.taken = some (v, t, q)
  | .recordFailed v _ _ _ => v.dedupeKey = ""
  | .sweepStaleDedupeKeys now => m.read = some now
  | _ => True

def monitor : Monitor MemOp.Res where
  State := Hand
  init := {}
  allowed _ _ := True
  guard m o _ := m.Guard o
  next := next

def Fits (m : Hand) (w : MemWorld) : Prop :=
  ∀ v t q, m.taken = some (v, t, q) → (t.isZero = true → v ∈ w.popping) ∧
    (t.isZero = false → t.id ≤ w.nextReservationID ∧
      ∀ r, w.reservations.lookup t.id = some r → r = ⟨v, q⟩)

theorem admitJob_ok {job : Option Job} {queueName : Option String} {job' : Job} {name : String}
    (h : admitJob job queueName = .ok (job', name)) :
    job = some job' ∧ ∀ n, queueName = some n → n ≠ "" → name = n := by
  cases job with
  | none => cases h
  | some j =>
    cases queueName with
    | none =>
      cases h
      exact ⟨rfl, fun _ hn => by cases hn⟩
    | some given =>
      simp only [admitJob] at h
      split at h
      case isTrue =>
        cases h
        exact ⟨rfl, fun _ hn _ => Option.some.inj hn⟩
      case isFalse hempty =>
        cases h
        refine ⟨rfl, fun n hn hne => absurd ?_ hempty⟩
        rw [Option.some.inj hn]
        exact hne

theorem admitted_wrapper {ctx : Option CtxErr} {job : Option Job} {queueName : Option String}
    {wrapper : JobWrapper} {name : String} (h : admitted ctx job queueName = .ok (wrapper, name)) :
    wrapper.dedupeKey = "" ∧ wrapper.payload.queue = name ∧ wrapper.job = job ∧
      ∀ n, queueName = some n → n ≠ "" → name = n := by
  unfold admitted at h
  cases ctx with
  | some e => simp at h
  | none =>
    cases ha : admitJob job queueName with
    | error e => simp [ha, bind, Except.bind] at h
    | ok a =>
      obtain ⟨job', name'⟩ := a
      cases hw : createJobWrapper job' name' with
      | error e => simp [ha, hw, bind, Except.bind] at h
      | ok jw =>
        obtain ⟨rfl, rfl⟩ : jw = wrapper ∧ name' = name := by
          simpa [ha, hw, bind, Except.bind] using h
        obtain ⟨hq, hk, hjob⟩ := createJobWrapper_job hw
        obtain ⟨rfl, hname⟩ := admitJob_ok ha
        exact ⟨hk, hq, hjob, hname⟩

/-- A call that begins with empty hands keeps to the guards. -/
abbrev Settles {α : Type} (p : MemProg α) : Prop := p.wp monitor ({} : Hand) fun _ _ => True

theorem wp_plain {p : MemProg (Except Err Unit)} (hp : Settles p) : Settles (MemCall.plain p) :=
  wp_bind_of hp fun _ _ _ => trivial

variable (ctx : Option CtxErr) (job : Option Job)

theorem wp_pushCtx (queueName : Option String) : Settles (pushCtx ctx job queueName) := by
  unfold pushCtx
  cases ha : admitted ctx job queueName with
  | error e => trivial
  | ok a => exact fun _ _ => ⟨⟨(admitted_wrapper ha).1, (admitted_wrapper ha).2.1⟩, trivial⟩

theorem wp_pushDelayedCtx (delay : Duration) (queueName : Option String) :
    Settles (pushDelayedCtx ctx job delay queueName) := by
  unfold pushDelayedCtx
  cases ha : admitted ctx job queueName with
  | error e => trivial
  | ok a => exact fun _ _ => ⟨⟨(admitted_wrapper ha).1, (admitted_wrapper ha).2.1⟩, trivial⟩

theorem wp_pushIfNotExistsCtx (key : String) (queueName : Option String) :
    Settles (pushIfNotExistsCtx ctx job key queueName) := by
  unfold pushIfNotExistsCtx
  split
  · exact wp_pushCtx ctx job queueName
  · next hk =>
    cases ha : admitted ctx job queueName with
    | error e => trivial
    | ok a => exact fun _ _ => ⟨⟨hk, rfl, (admitted_wrapper ha).2.1⟩, trivial⟩

theorem wp_popCtx (queueName : String) : Settles (popCtx ctx queueName) := by
  cases ctx with
  | some e => trivial
  | none =>
    rintro (_ | v) -
    · exact ⟨rfl, trivial⟩
    · refine ⟨rfl, fun rebuilt _ => ⟨trivial, ?_⟩⟩
      cases rebuilt with
      | ok job => exact fun _ _ => ⟨⟨queueName, rfl⟩, trivial⟩
      | error cause => rintro (e | u) - <;> exact ⟨rfl, trivial⟩

theorem wp_popCtxReserved (queueName : String) : Settles (popCtxReserved ctx queueName) := by
  cases ctx with
  | some e => trivial
  | none =>
    rintro (_ | ⟨v, -⟩) -
    · exact ⟨rfl, trivial⟩
    · refine ⟨rfl, ?_⟩
      simp only
      cases v.job with
      | some job => trivial
      | none =>
        refine fun rebuilt _ => ⟨trivial, ?_⟩
        cases rebuilt with
        | ok job => trivial
        | error cause => rintro (e | u) - <;> exact ⟨rfl, trivial⟩

variable (token : ReservationToken)

theorem wp_ackCtx : Settles (ackCtx ctx token) := by
  unfold ackCtx
  split
  · trivial
  · cases ctx with
    | some e => trivial
    | none => exact fun _ _ => ⟨trivial, trivial⟩

theorem wp_releaseCtx (delay : Duration) : Settles (releaseCtx ctx token delay) := by
  unfold releaseCtx
  split
  · trivial
  · cases ctx with
    | some e => trivial
    | none => exact fun _ _ => ⟨trivial, trivial⟩

theorem wp_failedCtx (job : Job) (err : Err) (queueName : String) :
    Settles (failedCtx job err queueName) := by
  unfold failedCtx
  cases hw : createJobWrapper job queueName with
  | error e => trivial
  | ok wrapper =>
    exact fun _ _ => ⟨(createJobWrapper_job hw).2.1, fun _ _ => ⟨trivial, trivial⟩⟩

theorem wp_failReservedCtx (job : Job) (err : Err) (queueName : String) :
    Settles (failReservedCtx ctx token job err queueName) := by
  unfold failReservedCtx
  split
  · exact wp_failedCtx job err queueName
  · cases ctx with
    | some e => trivial
    | none =>
      rintro (e | r) -
      · exact ⟨trivial, trivial⟩
      · exact ⟨trivial, fun _ _ => ⟨trivial, trivial⟩⟩

theorem wp_body (c : MemCall) : Settles c.body := by
  cases c with
  | pushCtx ctx job q => exact wp_plain (wp_pushCtx ctx job q)
  | pushDelayedCtx ctx job delay q => exact wp_plain (wp_pushDelayedCtx ctx job delay q)
  | pushIfNotExistsCtx ctx job key q => exact wp_plain (wp_pushIfNotExistsCtx ctx job key q)
  | popCtx ctx q => exact wp_bind_of (wp_popCtx ctx q) fun _ _ _ => trivial
  | popCtxReserved ctx q => exact wp_popCtxReserved ctx q
  | ackCtx ctx t => exact wp_plain (wp_ackCtx ctx t)
  | releaseCtx ctx t delay => exact wp_plain (wp_releaseCtx ctx t delay)
  | failReservedCtx ctx t job e q => exact wp_plain (wp_failReservedCtx ctx t job e q)
  | failedCtx job e q => exact wp_plain (wp_failedCtx job e q)
  | sweep => exact fun _ _ => ⟨trivial, fun _ _ => ⟨rfl, trivial⟩⟩
  | _ => exact fun _ _ => ⟨trivial, trivial⟩

end Hand

def Err.refusal : Err → Bool
  | .canceled => true
  | .deadlineExceeded => true
  | .nilJob => true
  | .leaseLost => true
  | _ => false

def Refuses {α : Type} (registry : Registry) (p : MemProg (Except Err α)) : Prop :=
  ∀ env w e, (p.eval (memExec registry) env w).1 = .error e → e.refusal = true →
    ∃ clock, (p.eval (memExec registry) env w).2 = { w with clock }

section Refuses

variable (registry : Registry) {env : MemEnv}

variable {registry}

theorem refuses_ret {α : Type} {a : Except Err α} : Refuses registry (.ret a) :=
  fun _ w _ _ _ => ⟨w.clock, rfl⟩

attribute [local simp] Except.map

theorem refuses_map {α β : Type} {p : MemProg (Except Err α)} (hp : Refuses registry p)
    (f : α → β) : Refuses registry (p >>= fun r => .ret (r.map f)) := by
  intro env w e h he
  simp only [eval_bind, eval] at h ⊢
  refine hp env w e ?_ he
  cases hr : (p.eval (memExec registry) env w).1 with
  | error e' => simpa [hr] using h
  | ok u => simp [hr] at h

variable (ctx : Option CtxErr)

theorem refuses_popCtx (queue : String) : Refuses registry (popCtx ctx queue) := by
  cases ctx with
  | some e => exact refuses_ret
  | none =>
    intro env w e h he
    simp only [popCtx, eval] at h
    cases hpop : (memExec registry w env (.popWrapper queue)).1 with
    | none => simp [hpop, eval] at h
    | some v =>
      simp only [hpop, eval] at h
      generalize (memExec registry w env (.popWrapper queue)).2 = w₁ at h
      cases hget : (memExec registry w₁ env (.getJobFromWrapper v)).1 with
      | ok job => simp [hget, eval] at h
      | error cause =>
        -- a wrapper that was popped for good is always recorded
        simp only [hget, quarantine, call_bind, eval] at h
        have hq : ∀ w₂ x, (memExec registry w₂ env (.quarantine queue .zero v x)).1 = .ok () :=
          fun _ _ => rfl
        simp only [hq, ret_bind, pure_eq, eval, Except.error.injEq] at h
        subst h
        simp [Err.refusal] at he

variable {w : MemWorld}

theorem reserveNext_reserved {queue : String} {v : Wrapper}
    {t : ReservationToken} (h : (memExec registry w env (.reserveNext queue)).1 = some (v, t)) :
    t.isZero = false ∧
      (memExec registry w env (.reserveNext queue)).2.reservations.lookup t.id = some ⟨v, queue⟩ := by
  simp only [memExec, memStep, MemWorld.reserveNext] at h ⊢
  rcases hl : w.queues.lookup queue with _ | _ | ⟨u, rest⟩
  · simp [hl] at h
  · simp [hl] at h
  · simp only [hl, Option.some.injEq, Prod.mk.injEq] at h ⊢
    obtain ⟨rfl, rfl⟩ := h
    exact ⟨rfl, AList.lookup_insert _⟩

variable (registry) in
theorem getJobFromWrapper_reservations (w : MemWorld) (env : MemEnv) (v : Wrapper) :
    (memExec registry w env (.getJobFromWrapper v)).2.reservations = w.reservations := by
  simp only [memExec, memStep]
  split <;> rfl

theorem quarantine_reserved {t : ReservationToken} {r : MemReservation}
    (ht : t.isZero = false) (hl : w.reservations.lookup t.id = some r) (env : MemEnv)
    (queue : String) (v : Wrapper) (exception : String) :
    (memExec registry w env (.quarantine queue t v exception)).1 = .ok () := by
  simp [memExec, memStep, MemWorld.quarantine, ht, hl]

theorem refuses_popCtxReserved (queue : String) : Refuses registry (popCtxReserved ctx queue) := by
  cases ctx with
  | some e => exact refuses_ret
  | none =>
    intro env w e h he
    simp only [popCtxReserved, eval] at h
    cases hres : (memExec registry w env (.reserveNext queue)).1 with
    | none => simp [hres, eval] at h
    | some vt =>
      obtain ⟨v, t⟩ := vt
      obtain ⟨ht, hl⟩ := reserveNext_reserved hres
      simp only [hres] at h
      generalize (memExec registry w env (.reserveNext queue)).2 = w₁ at h hl
      cases hj : v.job with
      | some job => simp [hj, eval] at h
      | none =>
        simp only [hj, eval] at h
        cases hget : (memExec registry w₁ env (.getJobFromWrapper v)).1 with
        | ok job => simp [hget, eval] at h
        | error cause =>
          -- nothing has run in between, so the reservation still stands
          rw [← getJobFromWrapper_reservations registry w₁ env v] at hl
          simp only [hget, quarantine, call_bind, eval,
            quarantine_reserved ht hl, ret_bind, pure_eq,
            Except.error.injEq] at h
          subst h
          simp [Err.refusal] at he

variable (registry) in
theorem runFailedHook_error {job : Job} {err e : Err}
    (h : (memExec registry w env (.runFailedHook job err)).1 = .error e) : e.refusal = false := by
  simp only [memExec, memStep] at h
  cases hp : env.hookPanics with
  | none => simp [hp] at h
  | some x =>
    obtain rfl : Err.pair .failedHookPanicked x = e := by simpa [hp] using h
    rfl

theorem refuses_failedCtx (job : Job) (err : Err) (queue : String) :
    Refuses registry (failedCtx job err queue) := by
  unfold failedCtx
  cases createJobWrapper job queue with
  | error e => exact refuses_ret
  | ok wrapper =>
    intro env w e h he
    rw [runFailedHook_error registry h] at he
    cases he

variable (t : ReservationToken)

theorem refuses_failReservedCtx (job : Job) (err : Err)
    (queue : String) : Refuses registry (failReservedCtx ctx t job err queue) := by
  unfold failReservedCtx
  split
  · exact refuses_failedCtx job err queue
  · cases ctx with
    | some e => exact refuses_ret
    | none =>
      intro env w e h he
      cases hr : (memExec registry w env (.failReserved t job err.message queue)).1 with
      | error e' =>
        simp only [eval, hr]
        exact ⟨_, memExec_of_quiet registry (by rw [hr]; rfl)⟩
      | ok r =>
        simp only [eval, hr] at h
        rw [runFailedHook_error registry h] at he
        cases he

theorem refuses_section {o : MemOp} {f : o.Res → Except Err Unit}
    (hf : ∀ r e, f r = .error e → o.quiet r = true) :
    Refuses registry (.call o fun r => .ret (f r)) := by
  intro env w e h _
  exact ⟨_, memExec_of_quiet registry (hf _ e h)⟩

theorem refuses_ackCtx : Refuses registry (ackCtx ctx t) := by
  unfold ackCtx
  split
  · exact refuses_ret
  · cases ctx with
    | some e => exact refuses_ret
    | none =>
      refine refuses_section fun r e h => ?_
      cases r with
      | error e' => rfl
      | ok res => simp at h

theorem refuses_releaseCtx (delay : Duration) : Refuses registry (releaseCtx ctx t delay) := by
  unfold releaseCtx
  split
  · exact refuses_ret
  · cases ctx with
    | some e => exact refuses_ret
    | none =>
      refine refuses_section fun r e h => ?_
      cases r with
      | error e' => rfl
      | ok res => simp at h

variable (job : Option Job)

theorem refuses_pushCtx (queueName : Option String) :
    Refuses registry (pushCtx ctx job queueName) := by
  unfold pushCtx
  cases admitted ctx job queueName with
  | error e => exact refuses_ret
  | ok a => exact refuses_section fun r e h => by simp at h

theorem refuses_pushDelayedCtx (delay : Duration) (queueName : Option String) :
    Refuses registry (pushDelayedCtx ctx job delay queueName) := by
  unfold pushDelayedCtx
  cases admitted ctx job queueName with
  | error e => exact refuses_ret
  | ok a => exact refuses_section fun r e h => by simp at h

theorem refuses_pushIfNotExistsCtx (key : String) (queueName : Option String) :
    Refuses registry (pushIfNotExistsCtx ctx job key queueName) := by
  unfold pushIfNotExistsCtx
  split
  · exact refuses_pushCtx ctx job queueName
  · cases admitted ctx job queueName with
    | error e => exact refuses_ret
    | ok a => exact refuses_section fun r e h => by simp at h

variable (registry) in
theorem refuses_body (c : MemCall) : Refuses registry c.body := by
  cases c with
  | pushCtx ctx job q => exact refuses_map (refuses_pushCtx ctx job q) _
  | pushDelayedCtx ctx job delay q =>
    exact refuses_map (refuses_pushDelayedCtx ctx job delay q) _
  | pushIfNotExistsCtx ctx job key q =>
    exact refuses_map (refuses_pushIfNotExistsCtx ctx job key q) _
  | popCtx ctx q => exact refuses_map (refuses_popCtx ctx q) _
  | popCtxReserved ctx q => exact refuses_popCtxReserved ctx q
  | ackCtx ctx t => exact refuses_map (refuses_ackCtx ctx t) _
  | releaseCtx ctx t delay => exact refuses_map (refuses_releaseCtx ctx t delay) _
  | failReservedCtx ctx t job e q =>
    exact refuses_map (refuses_failReservedCtx ctx t job e q) _
  | failedCtx job e q => exact refuses_map (refuses_failedCtx job e q) _
  | clear q => exact refuses_map (refuses_section fun r e h => by simp at h) _
  | moveReadyJobs =>
    exact refuses_map (refuses_section fun r e h => by simp at h) _
  | sweep => rintro env w e ⟨⟩
  | forgetJob ptr => rintro env w e ⟨⟩

end Refuses

end Velocity.Queue
