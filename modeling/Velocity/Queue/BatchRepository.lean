import Velocity.Lib.Map
import Velocity.Lib.Steps
import Velocity.Queue.Types

/-! Batches and the in-memory batch repository. Each of the repository's counter updates is
one critical section of the batch. -/

namespace Velocity.Queue

open Steps List

structure Batch where
  id : BatchID
  totalJobs : Nat
  pendingJobs : Int
  completedJobs : Int := 0
  failedJobs : Int := 0
  allowFailures : Bool := false
  cancelled : Bool := false
  finished : Bool := false
  finishedAt : Option Time := none
  queue : String := ""
  lastError : String := ""
  thenName : String := ""
  catchName : String := ""
  finallyName : String := ""
  deriving DecidableEq, Repr

namespace Batch

def hasFailures (b : Batch) : Bool := 0 < b.failedJobs

def settleSlot (b : Batch) (completed failed : Int) (errText : Option String) (now : Time) :
    Bool × Batch :=
  if b.pendingJobs ≤ 0 then (false, b)
  else
    let settled := { b with
      pendingJobs := b.pendingJobs - 1
      completedJobs := b.completedJobs + completed
      failedJobs := b.failedJobs + failed
      lastError := errText.getD b.lastError }
    if settled.pendingJobs = 0 && !settled.finished then
      (true, { settled with finished := true, finishedAt := some now })
    else (false, settled)

end Batch

/-- A batch being built. Of the closures only their presence matters. -/
structure PendingBatch where
  jobs : List (Option Job)
  thenFn : Bool := false
  catchFn : Bool := false
  finallyFn : Bool := false
  thenName : String := ""
  catchName : String := ""
  finallyName : String := ""
  allowFailures : Bool := false
  queue : String := "default"
  deriving DecidableEq, Repr

def PendingBatch.batch (pb : PendingBatch) (id : BatchID) : Batch where
  id := id
  totalJobs := pb.jobs.length
  pendingJobs := pb.jobs.length
  allowFailures := pb.allowFailures
  queue := pb.queue
  thenName := pb.thenName
  catchName := pb.catchName
  finallyName := pb.finallyName

/-- The batch as a call leaves it, and `justFinished`. -/
abbrev RepoAnswer := Except Err (Option Batch × Bool)

structure InMemoryBatchRepository where
  batches : FMap BatchID Batch := ∅

namespace InMemoryBatchRepository

variable (r : InMemoryBatchRepository) (ctx : Polled) (id : BatchID)

def find (ctx : Option CtxErr) (id : BatchID) : Except Err (Option Batch) :=
  match ctx with
  | some e => .error e.toErr
  | none => .ok (r.batches.lookup id)

def save (ctx : Option CtxErr) (batch : Batch) : Except Err Unit × InMemoryBatchRepository :=
  match ctx with
  | some e => (.error e.toErr, r)
  | none => (.ok (), { r with batches := r.batches.insert batch.id batch })

/-- A context may end between a method's check and the one in `Find`. -/
structure Polled where
  ctx : Option CtxErr := none
  ctxFind : Option CtxErr := ctx
  deriving DecidableEq, Repr

/-- The common part of the counter updates and of `Cancel`; `Find`'s error is dropped. -/
def update
    (f : Batch → Bool × Batch) : RepoAnswer × InMemoryBatchRepository :=
  match ctx.ctx with
  | some e => (.error e.toErr, r)
  | none =>
    match r.find ctx.ctxFind id with
    | .ok (some b) =>
      let out := f b
      (.ok (some out.2, out.1), { r with batches := r.batches.insert id out.2 })
    | _ => (.ok (none, false), r)

def incrementSuccess (now : Time) : RepoAnswer × InMemoryBatchRepository :=
  r.update ctx id fun b => b.settleSlot 1 0 none now

def incrementFailure
    (jobErr : Option Err) (now : Time) :
    RepoAnswer × InMemoryBatchRepository :=
  r.update ctx id fun b => b.settleSlot 0 1 (jobErr.map Err.message) now

def decrementPending (now : Time) : RepoAnswer × InMemoryBatchRepository :=
  r.update ctx id fun b => b.settleSlot 0 0 none now

-- `Cancel` has no `justFinished`; the flag is false.
def cancel : RepoAnswer × InMemoryBatchRepository :=
  r.update ctx id fun b => (false, { b with cancelled := true })

end InMemoryBatchRepository

inductive RepoOp
  | incrementSuccess
  | incrementFailure (jobErr : Option Err)
  | decrementPending
  | cancel
  deriving DecidableEq, Repr

def RepoOp.on (op : RepoOp) (now : Time) (b : Batch) : Bool × Batch :=
  match op with
  | .incrementSuccess => b.settleSlot 1 0 none now
  | .incrementFailure jobErr => b.settleSlot 0 1 (jobErr.map Err.message) now
  | .decrementPending => b.settleSlot 0 0 none now
  | .cancel => (false, { b with cancelled := true })

structure RepoCall where
  ctx : InMemoryBatchRepository.Polled := {}
  id : BatchID
  op : RepoOp
  now : Time := 0
  deriving DecidableEq, Repr

namespace InMemoryBatchRepository

variable (r : InMemoryBatchRepository) (c : RepoCall)

def call : RepoAnswer × InMemoryBatchRepository :=
  match c.op with
  | .incrementSuccess => r.incrementSuccess c.ctx c.id c.now
  | .incrementFailure jobErr => r.incrementFailure c.ctx c.id jobErr c.now
  | .decrementPending => r.decrementPending c.ctx c.id c.now
  | .cancel => r.cancel c.ctx c.id

theorem call_eq_update : r.call c = r.update c.ctx c.id (c.op.on c.now) := by
  rcases c with ⟨-, -, _ | _ | _ | _, -⟩ <;> rfl

def step : InMemoryBatchRepository := (r.call c).2

def finishes (id : BatchID) (x : InMemoryBatchRepository × RepoCall) : Bool :=
  x.2.id = id &&
    match (x.1.call x.2).1 with
    | .ok (_, justFinished) => justFinished
    | .error _ => false

def pending (id : BatchID) : Option Int :=
  (r.batches.lookup id).map Batch.pendingJobs

def takesSlot (id : BatchID) (x : InMemoryBatchRepository × RepoCall) : Bool :=
  (x.1.step x.2).pending id ≠ x.1.pending id

def skipsSlot (id : BatchID) (x : InMemoryBatchRepository × RepoCall) : Bool :=
  x.2.op = .decrementPending && takesSlot id x

end InMemoryBatchRepository

/-- Batch `b` of `n` jobs after `skips` taken slots and `reports` reports of `justFinished`. -/
structure Batch.Accounts (b : Batch) (n skips reports : Nat) : Prop where
  pending : 0 ≤ b.pendingJobs
  completed : 0 ≤ b.completedJobs
  failed : 0 ≤ b.failedJobs
  slots : b.pendingJobs + b.completedJobs + b.failedJobs + skips = n
  finished : b.finished = true ↔ b.pendingJobs = 0
  reports : reports = b.finished.toNat

/-- The pending, completed and failed jobs after a call that found a slot to take. -/
def RepoOp.Moves (op : RepoOp) (b b' : Batch) : Prop :=
  (b'.pendingJobs, b'.completedJobs, b'.failedJobs) =
    match op with
    | .incrementSuccess => (b.pendingJobs - 1, b.completedJobs + 1, b.failedJobs)
    | .incrementFailure _ => (b.pendingJobs - 1, b.completedJobs, b.failedJobs + 1)
    | .decrementPending => (b.pendingJobs - 1, b.completedJobs, b.failedJobs)
    | .cancel => (b.pendingJobs, b.completedJobs, b.failedJobs)

variable {b : Batch} {n skips reports : Nat} {pb : PendingBatch}

theorem Batch.settleSlot_of_pending (h : 0 < b.pendingJobs) (completed failed : Int)
    (errText : Option String) (now : Time) : let out := b.settleSlot completed failed errText now
    out.2.pendingJobs = b.pendingJobs - 1 ∧ out.2.completedJobs = b.completedJobs + completed ∧
    out.2.failedJobs = b.failedJobs + failed ∧ out.1 = (b.pendingJobs = 1 && !b.finished) ∧
    out.2.finished = (b.finished || b.pendingJobs = 1) := by
  have hp : ¬ b.pendingJobs ≤ 0 := by omega
  have hone : b.pendingJobs - 1 = 0 ↔ b.pendingJobs = 1 := by omega
  unfold settleSlot
  rw [if_neg hp]
  by_cases h1 : b.pendingJobs = 1 <;> cases b.finished <;> simp [hone, h1]

theorem Batch.settleSlot_of_empty (h : b.pendingJobs ≤ 0) (completed failed : Int)
    (errText : Option String) (now : Time) :
    b.settleSlot completed failed errText now = (false, b) := if_pos h

theorem Batch.Accounts.settleSlot (h : b.Accounts n skips reports) (completed failed skip : Nat)
    (hc : completed + failed + skip = 1) (errText : Option String) (now : Time) :
    let out := b.settleSlot completed failed errText now
    out.2.Accounts n (skips + if out.2.pendingJobs ≠ b.pendingJobs then skip else 0)
      (reports + out.1.toNat) := by
  by_cases hp : 0 < b.pendingJobs
  · obtain ⟨hpending, hcompleted, hfailed, hreport, hfinished⟩ :=
      settleSlot_of_pending hp completed failed errText now
    have hslots := h.slots
    have hc0 := h.completed
    have hf0 := h.failed
    have hopen : b.finished = false := Bool.eq_false_iff.mpr fun hf => by
      have hh := h.finished.mp hf
      omega
    have htaken : b.pendingJobs - 1 ≠ b.pendingJobs := by omega
    constructor
    case pending => omega
    case completed => omega
    case failed => omega
    case slots =>
      rw [hpending, if_pos htaken]
      omega
    case finished =>
      rw [hfinished, hopen]
      simp
      omega
    case reports => rw [hfinished, hreport, h.reports, hopen]; simp
  · have hout := settleSlot_of_empty (Int.not_lt.mp hp) completed failed errText now
    simp only [hout]
    simpa using h

theorem Batch.Accounts.on (h : b.Accounts n skips reports)
    (op : RepoOp) (now : Time) : (op.on now b).2.Accounts n
      (skips + if op = .decrementPending ∧ (op.on now b).2.pendingJobs ≠ b.pendingJobs
        then 1 else 0) (reports + (op.on now b).1.toNat) := by
  cases op with
  | incrementSuccess =>
    simpa [RepoOp.on] using h.settleSlot 1 0 0 rfl none now
  | incrementFailure jobErr =>
    simpa [RepoOp.on] using h.settleSlot 0 1 0 rfl (jobErr.map Err.message) now
  | decrementPending =>
    simpa [RepoOp.on] using h.settleSlot 0 0 1 rfl none now
  | cancel => exact ⟨h.pending, h.completed, h.failed, by simpa [RepoOp.on] using h.slots,
      h.finished, by simpa [RepoOp.on] using h.reports⟩

theorem PendingBatch.batch_accounts (h : pb.jobs ≠ []) (id : BatchID) :
    (pb.batch id).Accounts pb.jobs.length 0 0 := by
  constructor <;> simp [PendingBatch.batch, h]

theorem RepoOp.last_of_reports {op : RepoOp} {now : Time}
    (h : (op.on now b).1 = true) : b.pendingJobs = 1 ∧ (op.on now b).2.pendingJobs = 0 := by
  have hlast : ∀ {completed failed : Int} {errText : Option String},
      (b.settleSlot completed failed errText now).1 = true → b.pendingJobs = 1 ∧
        (b.settleSlot completed failed errText now).2.pendingJobs = 0 := by
    intro completed failed errText hreport
    by_cases hp : 0 < b.pendingJobs
    · obtain ⟨hpending, -, -, hout, -⟩ :=
        Batch.settleSlot_of_pending hp completed failed errText now
      rw [hout] at hreport
      have h1 : b.pendingJobs = 1 := by simpa using (Bool.and_eq_true_iff.mp hreport).1
      exact ⟨h1, by omega⟩
    · rw [Batch.settleSlot_of_empty (Int.not_lt.mp hp)] at hreport
      cases hreport
  cases op with
  | cancel => cases h
  | _ => exact hlast h

theorem RepoOp.moves_on (op : RepoOp) (now : Time) (h : 0 < b.pendingJobs) :
    op.Moves b (op.on now b).2 := by
  have hmoved := Batch.settleSlot_of_pending h
  cases op with
  | incrementSuccess => simp [Moves, RepoOp.on, hmoved 1 0 none now]
  | incrementFailure jobErr => simp [Moves, RepoOp.on, hmoved 0 1 (jobErr.map Err.message) now]
  | decrementPending => simp [Moves, RepoOp.on, hmoved 0 0 none now]
  | cancel => rfl

theorem RepoOp.on_of_finished (op : RepoOp) (now : Time) (h : b.pendingJobs = 0) :
    (op.on now b).2 = { b with cancelled := (op.on now b).2.cancelled } := by
  have hkept := fun completed failed errText =>
    Batch.settleSlot_of_empty h.le completed failed errText now
  cases op <;> simp [RepoOp.on, hkept]

namespace InMemoryBatchRepository

theorem call_cases (r : InMemoryBatchRepository) (c : RepoCall) :
    ((r.call c).2 = r ∧ ∀ b justFinished, (r.call c).1 = .ok (b, justFinished) →
      b = none ∧ justFinished = false) ∨ ∃ b, r.batches.lookup c.id = some b ∧
      r.call c = (.ok (some (c.op.on c.now b).2, (c.op.on c.now b).1),
        ⟨r.batches.insert c.id (c.op.on c.now b).2⟩) := by
  rw [call_eq_update]
  rcases c with ⟨⟨ctx, ctxFind⟩, id, -⟩
  cases ctx with
  | some e => exact Or.inl ⟨rfl, fun b justFinished h => by cases h⟩
  | none =>
    cases ctxFind with
    | some e =>
      refine Or.inl ⟨rfl, fun b justFinished h => ?_⟩
      cases h
      exact ⟨rfl, rfl⟩
    | none =>
      cases hb : r.batches.lookup id with
      | none =>
        refine Or.inl ⟨by simp [update, find, hb], fun b justFinished h => ?_⟩
        simp only [update, find, hb] at h
        cases h
        exact ⟨rfl, rfl⟩
      | some b => exact Or.inr ⟨b, rfl, by simp [update, find, hb]⟩

theorem step_cases (r : InMemoryBatchRepository) (c : RepoCall) (id : BatchID) :
    ((r.step c).batches.lookup id = r.batches.lookup id ∧ finishes id (r, c) = false) ∨
    ∃ b, r.batches.lookup id = some b ∧ (r.step c).batches.lookup id = some (c.op.on c.now b).2 ∧
      finishes id (r, c) = (c.op.on c.now b).1 := by
  rcases r.call_cases c with ⟨hsame, hans⟩ | ⟨b, hb, hcall⟩
  · refine Or.inl ⟨by rw [step, hsame], ?_⟩
    cases hres : (r.call c).1 with
    | error e => simp [finishes, hres]
    | ok out => simp [finishes, hres, (hans out.1 out.2 hres).2]
  · by_cases hid : c.id = id
    · subst hid
      exact Or.inr ⟨b, hb, by simp [step, hcall], by simp [finishes, hcall]⟩
    · have hid' : id ≠ c.id := fun he => hid he.symm
      exact Or.inl ⟨by simp [step, hcall, AList.lookup_insert_ne hid'], by simp [finishes, hid]⟩

theorem moves_step {r : InMemoryBatchRepository} {c : RepoCall} (hlive : c.ctx = {})
    (hb : r.batches.lookup c.id = some b) (h : 0 < b.pendingJobs) :
    ∃ b', (r.step c).batches.lookup c.id = some b' ∧ c.op.Moves b b' := by
  refine ⟨_, ?_, c.op.moves_on c.now h⟩
  simp [step, call_eq_update, update, find, hlive, hb]

def Accounted (id : BatchID) (n : Nat) (r : InMemoryBatchRepository)
    (past : List (InMemoryBatchRepository × RepoCall)) : Prop :=
  ∃ b, r.batches.lookup id = some b ∧
    b.Accounts n (past.countP (skipsSlot id)) (past.countP (finishes id)) ∧
    ∀ x ∈ past, finishes id x = true → x.1.pending id = some 1 ∧
      ∃ b', (x.1.step x.2).batches.lookup id = some b' ∧ b'.pendingJobs = 0 ∧
        b = { b' with cancelled := b.cancelled }

theorem Accounted.step {id : BatchID} {r : InMemoryBatchRepository}
    {past : List (InMemoryBatchRepository × RepoCall)} (h : Accounted id n r past)
    (c : RepoCall) : Accounted id n (r.step c) (past ++ [(r, c)]) := by
  obtain ⟨b, hb, haccounts, hlast⟩ := h
  rcases r.step_cases c id with ⟨hsame, hquiet⟩ | ⟨b', hb', hnext, hreport⟩
  · have hskip : skipsSlot id (r, c) = false := by simp [skipsSlot, takesSlot, pending, hsame]
    refine ⟨b, by rw [hsame, hb], by simpa [hskip, hquiet] using haccounts, ?_⟩
    intro x hx hfin
    rcases mem_append.mp hx with hx | hx
    · exact hlast x hx hfin
    · rw [mem_singleton.mp hx, hquiet] at hfin
      cases hfin
  · obtain rfl : b = b' := Option.some.inj (hb.symm.trans hb')
    refine ⟨(c.op.on c.now b).2, hnext, ?_, ?_⟩
    · have hskip : skipsSlot id (r, c) = true ↔ c.op = .decrementPending ∧
          (c.op.on c.now b).2.pendingJobs ≠ b.pendingJobs := by
        simp [skipsSlot, takesSlot, pending, hnext, hb]
      have hh := haccounts.on c.op c.now
      simpa [countP_append, countP_singleton, hskip, hreport, Bool.toNat, Bool.cond_eq_ite] using hh
    · intro x hx hfin
      rcases mem_append.mp hx with hx | hx
      · obtain ⟨hone, b', hb', hzero, heq⟩ := hlast x hx hfin
        have hb0 : b.pendingJobs = 0 := by rw [heq]; exact hzero
        refine ⟨hone, b', hb', hzero, ?_⟩
        rw [RepoOp.on_of_finished c.op c.now hb0, heq]
      · obtain rfl := mem_singleton.mp hx
        obtain ⟨hone, hzero⟩ := RepoOp.last_of_reports (hreport ▸ hfin)
        exact ⟨by simp [pending, hb, hone], _, hnext, hzero, rfl⟩

theorem Accounted.initial (h : pb.jobs ≠ []) (id : BatchID)
    (r : InMemoryBatchRepository) : Accounted id pb.jobs.length (r.save none (pb.batch id)).2 [] :=
  ⟨pb.batch id, by simp [save, PendingBatch.batch], PendingBatch.batch_accounts h id, by simp⟩

/-- The batch is saved and then called in any way, among calls to other batches. -/
theorem batch_accounting (pb : PendingBatch) (h : pb.jobs ≠ []) (id : BatchID)
    (r : InMemoryBatchRepository) (calls : List RepoCall) :
    let start := (r.save none (pb.batch id)).2
    let past := steps step start calls
    ∃ b, (run step start calls).batches.lookup id = some b ∧
      b.pendingJobs + b.completedJobs + b.failedJobs + past.countP (skipsSlot id) = pb.jobs.length ∧
      (0 ≤ b.pendingJobs ∧ b.pendingJobs ≤ pb.jobs.length) ∧
      (0 ≤ b.completedJobs ∧ b.completedJobs ≤ pb.jobs.length) ∧
      (0 ≤ b.failedJobs ∧ b.failedJobs ≤ pb.jobs.length) ∧
      past.countP (skipsSlot id) ≤ pb.jobs.length ∧
      (b.finished = true ↔ b.pendingJobs = 0) ∧
      past.countP (finishes id) = (if b.finished then 1 else 0) ∧
      (∀ x ∈ past, x.2.id = id → x.2.ctx = {} → ∀ b, x.1.batches.lookup id = some b →
        0 < b.pendingJobs →
          ∃ b', (x.1.step x.2).batches.lookup id = some b' ∧ x.2.op.Moves b b') ∧
      ∀ x ∈ past, finishes id x = true → x.1.pending id = some 1 ∧
        ∃ b', (x.1.step x.2).batches.lookup id = some b' ∧ b'.pendingJobs = 0 ∧
          b = { b' with cancelled := b.cancelled } := by
  intro start past
  have hrun : Accounted id pb.jobs.length (run step start calls) past :=
    invariant (P := fun _ _ => True) (fun r past c hr _ => hr.step c)
      (Accounted.initial h id r) (fun _ _ => trivial)
  obtain ⟨b, hb, haccounts, hlast⟩ := hrun
  have hp := haccounts.pending
  have hc := haccounts.completed
  have hf := haccounts.failed
  have hslots := haccounts.slots
  refine ⟨b, hb, hslots, ⟨hp, by omega⟩, ⟨hc, by omega⟩, ⟨hf, by omega⟩, by omega,
    haccounts.finished, ?_, ?_, hlast⟩
  · rw [haccounts.reports]
    cases b.finished <;> rfl
  · rintro x - rfl hlive b
    exact moves_step hlive

def twoJobs : PendingBatch where
  jobs := [some { type := "T", data := some "{}", batch := .id "" },
    some { type := "T", data := some "{}", batch := .id "" }]

def surplusCalls : List RepoCall :=
  [{ id := "b", op := .decrementPending }, { id := "b", op := .cancel },
    { id := "b", op := .incrementFailure (some .leaseLost) }, { id := "b", op := .incrementSuccess }]

theorem batch_accounting_surplus :
    twoJobs.jobs ≠ [] ∧
    let start := (({} : InMemoryBatchRepository).save none (twoJobs.batch "b")).2
    let past := steps step start surplusCalls
    ∃ b, (run step start surplusCalls).batches.lookup "b" = some b ∧
      b.pendingJobs + b.completedJobs + b.failedJobs + past.countP (skipsSlot "b") = 2 ∧
      past.countP (finishes "b") = (if b.finished then 1 else 0) := by
  have h : twoJobs.jobs ≠ [] := by decide
  obtain ⟨b, hb, hslots, -, -, -, -, -, hreports, -, -⟩ :=
    batch_accounting twoJobs h "b" {} surplusCalls
  exact ⟨h, b, hb, hslots, hreports⟩

end InMemoryBatchRepository

end Velocity.Queue
