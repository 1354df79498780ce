import Velocity.Queue.BatchCallbacks

/-! Then against Catch. `settleSlot` ignores an outcome for which no slot is pending, and so do
`recordSuccess` and `recordSkip`; `recordFailure` does not look whether its failure took a slot, so
the two callbacks exclude each other only if every recorded failure did. -/

namespace Velocity.Queue

open Interleave Prog Batch All BatchOp Pool

namespace BatchOp

def firesCatch (id : BatchID) : BatchOp → Bool
  | .go .callbackCatch id' => id' = id
  | .pushCallback job => job.kind = .callbackCatch && job.batchID = id
  | _ => false

def touches (id : BatchID) : BatchOp → Bool
  | .go _ id' => id' = id
  | .pushCallback job => job.batchID = id
  | .swapCancelled id' => id' = id
  | .repo id' .cancel => id' = id
  | _ => false

def settles : BatchOp → Bool
  | .repo _ op => op ≠ .cancel
  | _ => false

def isFailure : BatchOp → Bool
  | .repo _ (.incrementFailure _) => true
  | _ => false

def recordsFailure (id : BatchID) : (o : BatchOp) → o.Res → Bool
  | .repo id' (.incrementFailure _), .ok (some _, _) => id' = id
  | _, _ => false

/-- An outcome of batch `id` was recorded while no slot was pending. -/
def surplus (id : BatchID) : (o : BatchOp) → o.Res → Bool
  | .repo id' op, .ok (some b, justFinished) =>
    op ≠ .cancel && id' = id && !justFinished && b.pendingJobs ≤ 0
  | _, _ => false

def Closing (o : BatchOp) : Prop := o.settles = false ∧ ∀ id, o.firesCatch id = false

abbrev CatchFree (o : BatchOp) : Prop := ∀ id, o.firesCatch id = false

abbrev Failing (id : BatchID) (o : BatchOp) : Prop :=
  o.settles = false ∧ ∀ id', o.firesCatch id' = true → id' = id

variable {o : BatchOp}

theorem surplus_of_not_settles (h : o.settles = false) (id : BatchID) (r : o.Res) :
    o.surplus id r = false := by
  cases o with
  | repo id' op =>
    have hop : op = .cancel := by simpa [settles] using h
    subst hop
    rcases r with e | ⟨_ | b, -⟩ <;> rfl
  | _ => rfl

theorem isFailure_of_records {id : BatchID} {r : o.Res}
    (h : o.recordsFailure id r = true) : o.isFailure = true := by
  cases o with
  | repo id' op =>
    cases op with
    | incrementFailure jobErr => rfl
    | _ => cases h
  | _ => cases h

end BatchOp

variable {n skips reports : Nat}

theorem RepoOp.on_pending {op : RepoOp} (hop : op ≠ .cancel) {b : Batch}
    (h : b.Accounts n skips reports) (now : Time) (hp : 0 < b.pendingJobs) :
    (op.on now b).2.pendingJobs = b.pendingJobs - 1 ∧ (op.on now b).1 = decide (b.pendingJobs = 1) := by
  have hopen : b.finished = false := Bool.eq_false_iff.mpr fun hf => by
    have hh := h.finished.mp hf
    omega
  have hsettle : ∀ completed failed errText,
      (b.settleSlot completed failed errText now).2.pendingJobs = b.pendingJobs - 1 ∧
        (b.settleSlot completed failed errText now).1 = decide (b.pendingJobs = 1) := by
    intro completed failed errText
    obtain ⟨hpending, -, -, hreport, -⟩ :=
      settleSlot_of_pending hp completed failed errText now
    exact ⟨hpending, hreport.trans (by simp [hopen])⟩
  cases op with
  | cancel => exact absurd rfl hop
  | _ => exact hsettle _ _ _

theorem BatchOp.surplus_iff {b : Batch} (h : b.Accounts n skips reports)
    (id : BatchID) (op : RepoOp) (hop : op ≠ .cancel) (now : Time) :
    surplus id (.repo id op) (.ok (some (op.on now b).2, (op.on now b).1)) = true ↔
      b.pendingJobs ≤ 0 := by
  by_cases hp : 0 < b.pendingJobs
  · obtain ⟨hpending, hreport⟩ := RepoOp.on_pending hop h now hp
    simp [surplus, hop, hpending, hreport]
    omega
  · have hkept := fun completed failed errText =>
      settleSlot_of_empty (Int.not_lt.mp hp) completed failed errText now
    cases op with
    | cancel => exact absurd rfl hop
    | _ => simp [surplus, RepoOp.on, hkept]

/-- The id a thread minted, and the batches it recorded a failure of, or an outcome without a slot.
-/
structure OutcomeThread where
  dispatches : Bool := false
  failed : BatchID → Bool := fun _ => false
  quiet : BatchID → Bool := fun _ => false

namespace OutcomeThread

def next (m : OutcomeThread) (o : BatchOp) (r : o.Res) : OutcomeThread where
  dispatches := m.dispatches || o = .newBatchID
  failed id := m.failed id || o.recordsFailure id r
  quiet id := m.quiet id || (!o.isFailure && o.surplus id r)

structure Guard (m : OutcomeThread) (o : BatchOp) : Prop where
  catches : ∀ id, o.firesCatch id = true → m.failed id = true
  touches : ∀ id, o.touches id = true → m.quiet id = true → m.dispatches = true

def monitor : Monitor BatchOp.Res where
  State := OutcomeThread
  init := {}
  allowed _ _ := True
  guard m o _ := m.Guard o
  next := next

def Loud (m : OutcomeThread) : Prop := ∀ id, m.quiet id = false

variable {m : OutcomeThread} {b : Batch} {id : BatchID} {α : Type} {o : BatchOp}
  {f : o.Res → BatchProg α} {p : BatchProg Unit}

theorem wp_op {Q : α → OutcomeThread → Prop}
    (hg : m.Guard o) (hf : ∀ r, (f r).wp monitor (m.next o r) Q) : (op o >>= f).wp monitor m Q :=
  fun r _ => ⟨hg, hf r⟩

theorem guard_of_loud (hm : m.Loud)
    (hcatch : ∀ id, o.firesCatch id = true → m.failed id = true) : m.Guard o where
  catches := hcatch
  touches id _ hq := by rw [hm id] at hq; cases hq

theorem next_loud (hm : m.Loud) (ho : o.settles = false) (r : o.Res) : (m.next o r).Loud := by
  intro id
  simp [next, hm id, surplus_of_not_settles ho]

theorem next_loud_of_failure (hm : m.Loud) (ho : o.isFailure = true) (r : o.Res) :
    (m.next o r).Loud := by
  intro id
  simp [next, hm id, ho]

theorem closing_op (ho : o.settles = false)
    (hcatch : ∀ id, o.firesCatch id = false) (hf : ∀ r, (f r).All Closing) :
    (op o >>= f).All Closing :=
  perform_bind ⟨ho, hcatch⟩ hf

theorem closing_last (ho : o.settles = false)
    (hcatch : ∀ id, o.firesCatch id = false) : (op o).All Closing :=
  ⟨⟨ho, hcatch⟩, fun _ => trivial⟩

theorem dispatchBatchCallbackJob_closing {name : String} {kind : CallbackKind} {errMsg : String}
    (hkind : kind ≠ .callbackCatch) :
    (Batch.dispatchBatchCallbackJob name kind id errMsg).All Closing := by
  apply closing_op rfl fun _ => rfl
  intro wired
  apply All.when
  intro _
  exact closing_last rfl fun _ => by simp [firesCatch, hkind]

theorem fireFinished_closing (entry : Option CallbackEntry) :
    (Batch.fireFinished entry id).All Closing := by
  cases entry with
  | none => trivial
  | some e =>
    apply closing_op rfl fun _ => rfl
    intro first
    apply All.when
    intro _
    apply closing_op rfl fun _ => rfl
    intro now
    apply All.bind
    · exact when fun _ => closing_last rfl fun _ => rfl
    · intro _
      exact when fun _ => closing_last rfl fun _ => rfl

theorem fireTerminalCallbacks_closing (updated : Option Batch) :
    (b.fireTerminalCallbacks updated).All Closing := by
  apply closing_op rfl fun _ => rfl
  intro entry
  apply bind (fireFinished_closing entry)
  intro _
  apply closing_op rfl fun _ => rfl
  intro now
  apply All.bind (All.when fun _ => dispatchBatchCallbackJob_closing (by decide))
  intro _
  have hsnapshot : (updated.elim (pure "") lastErrorSnapshot).All Closing := by
    cases updated with
    | none => trivial
    | some u => exact closing_op rfl (fun _ => rfl) fun _ => trivial
  apply All.bind (All.when fun _ => All.bind hsnapshot fun errMsg =>
    dispatchBatchCallbackJob_closing (by decide))
  intro _
  apply closing_op rfl (fun _ => rfl) fun completed => ?_
  apply closing_op rfl (fun _ => rfl) fun failed => ?_
  exact closing_op rfl (fun _ => rfl) fun failures => closing_last rfl fun _ => rfl

theorem cancelCtx_closing : b.cancelCtx.All Closing := by
  apply closing_op rfl fun _ => rfl
  intro first
  apply All.when
  intro _
  apply closing_op rfl (fun _ => rfl) fun res => ?_
  exact closing_op rfl (fun _ => rfl) fun now => closing_last rfl fun _ => rfl

theorem wp_closing (hp : p.All Closing) (hm : m.Loud) : p.wp monitor m fun _ _ => True := by
  refine wp_mono (wp_of_kept monitor (hp.mono ?_) hm) fun _ _ _ => trivial
  rintro o ⟨hsettles, hcatch⟩ m' r hm'
  have hnever : ∀ id, o.firesCatch id = true → m'.failed id = true := by
    intro id h
    rw [hcatch id] at h
    cases h
  exact ⟨guard_of_loud hm' hnever, next_loud hm' hsettles r⟩

theorem next_loud_of_finished (hm : m.Loud) {op : RepoOp} {out : Option Batch} :
    (m.next (.repo id op) (.ok (out, true))).Loud := by
  intro id'
  cases out <;> simp [next, hm id', surplus]

theorem guard_repo (hm : m.Loud) (op : RepoOp) : m.Guard (.repo id op) :=
  guard_of_loud hm nofun

theorem guard_plain (hcatch : ∀ id, o.firesCatch id = false)
    (htouch : ∀ id, o.touches id = false) : m.Guard o where
  catches id h := by rw [hcatch id] at h; cases h
  touches id h := by rw [htouch id] at h; cases h

theorem wp_recordSuccess (hm : m.Loud) : b.recordSuccess.wp monitor m fun _ _ => True := by
  refine wp_op (guard_repo hm _) fun res => ?_
  rcases res with e | ⟨_ | updated, -⟩
  · trivial
  · trivial
  · refine wp_op (guard_plain (fun _ => rfl) fun _ => rfl) fun now => ?_
    refine wp_op (guard_plain (fun _ => rfl) fun _ => rfl) fun _ => ?_
    refine wp_when (fun hj => ?_) fun _ => trivial
    subst hj
    exact wp_closing (fireTerminalCallbacks_closing _)
      (next_loud (next_loud (next_loud_of_finished hm) rfl _) rfl _)

theorem wp_recordSkip (hm : m.Loud) : b.recordSkip.wp monitor m fun _ _ => True := by
  refine wp_op (guard_repo hm _) fun res => ?_
  rcases res with e | ⟨_ | updated, -⟩
  · trivial
  · trivial
  · refine wp_when (fun hj => ?_) fun _ => trivial
    subst hj
    exact wp_closing (fireTerminalCallbacks_closing _) (next_loud_of_finished hm)

theorem wp_afterFailure (id : BatchID) (hm : m.Loud)
    (hfailed : m.failed id = true) (hp : p.All (Failing id)) : p.wp monitor m fun _ _ => True := by
  have hkept := wp_of_kept monitor (p := p)
    (J := fun m' : OutcomeThread => m'.Loud ∧ m'.failed id = true)
  refine wp_mono (hkept (hp.mono ?_) ⟨hm, hfailed⟩) fun _ _ _ => trivial
  rintro o ⟨hsettles, hcatch⟩ m' r ⟨hloud, hfail⟩
  refine ⟨guard_of_loud hloud fun id' h => ?_, next_loud hloud hsettles r, ?_⟩
  · rw [hcatch id' h]
    exact hfail
  · show (m'.failed id || o.recordsFailure id r) = true
    rw [hfail, Bool.true_or]

theorem wp_recordFailure (hm : m.Loud) {jobErr : Option Err} :
    (b.recordFailure jobErr).wp monitor m fun _ _ => True := by
  refine wp_op (guard_repo hm _) fun res => ?_
  have hloud : (m.next (.repo b.id (.incrementFailure jobErr)) res).Loud :=
    next_loud_of_failure hm rfl res
  rcases res with e | ⟨_ | updated, justFinished⟩
  · trivial
  · trivial
  · refine wp_afterFailure b.id hloud (by simp [next, recordsFailure]) ?_
    have hclosing : ∀ {p : BatchProg Unit}, p.All Closing → p.All (Failing b.id) := by
      intro p hp
      refine hp.mono fun o ho => ⟨ho.1, fun id' h => ?_⟩
      rw [ho.2 id'] at h
      cases h
    apply perform_bind ⟨rfl, nofun⟩
    intro now
    apply perform_bind ⟨rfl, nofun⟩
    intro _
    apply perform_bind ⟨rfl, nofun⟩
    intro entry
    have hfire : (fireCatch entry b.id).All (Failing b.id) := by
      cases entry with
      | none => trivial
      | some e =>
        apply perform_bind ⟨rfl, nofun⟩
        intro first
        apply All.when
        intro _
        refine ⟨⟨rfl, fun id' h => ?_⟩, fun _ => trivial⟩
        exact (of_decide_eq_true h).symm
    apply bind hfire
    intro _
    apply All.bind
    · apply All.when
      intro _
      apply perform_bind ⟨rfl, nofun⟩
      intro wired
      apply All.when
      intro _
      refine ⟨⟨rfl, fun id' h => ?_⟩, fun _ => trivial⟩
      simpa [firesCatch, eq_comm] using h
    intro _
    apply bind (when fun _ => hclosing cancelCtx_closing)
    intro _
    exact when fun _ => hclosing (fireTerminalCallbacks_closing _)

theorem wp_dispatching {p : BatchProg α} (hp : p.All CatchFree) (hm : m.dispatches = true) :
    p.wp monitor m fun _ _ => True := by
  have hkept := wp_of_kept monitor (p := p)
    (J := fun m' : OutcomeThread => m'.dispatches = true)
  refine wp_mono (hkept (hp.mono ?_) hm) fun _ _ _ => trivial
  intro o hcatch m' r hm'
  refine ⟨⟨fun id h => ?_, fun _ _ _ => hm'⟩, ?_⟩
  · rw [hcatch id] at h
    cases h
  · show (m'.dispatches || decide (o = .newBatchID)) = true
    rw [hm', Bool.true_or]

theorem settleUnpushed_all (unpushed : Nat) :
    (PendingBatch.settleUnpushed b unpushed).All CatchFree := by
  have hdrain : ∀ anyFinished, (PendingBatch.drain b.id unpushed anyFinished).All CatchFree := by
    induction unpushed with
    | zero => exact fun _ => trivial
    | succ unpushed ih =>
      intro anyFinished
      apply perform_bind fun _ => rfl
      intro res
      rcases res with e | ⟨-, _ | _⟩
      · exact ih anyFinished
      · exact ih anyFinished
      · exact ih true
  apply bind (hdrain false)
  intro any
  apply perform_bind fun _ => rfl
  intro found
  apply bind (cancelCtx_closing.mono fun _ ho => ho.2)
  intro _
  exact when fun _ => (fireTerminalCallbacks_closing _).mono fun _ ho => ho.2

theorem pushAll_all (pushed : Nat) (jobs : List (Job × String)) :
    (PendingBatch.pushAll b pushed jobs).All CatchFree := by
  induction jobs generalizing pushed with
  | nil => trivial
  | cons job jobs ih =>
    apply perform_bind fun _ => rfl
    intro res
    cases res with
    | error e => exact bind (settleUnpushed_all _) fun _ => trivial
    | ok _ => exact ih (pushed + 1)

theorem bindBatchJobs_all (queue : String) (n i : Nat) (jobs : List Job) :
    (bindBatchJobs id queue n i jobs).All CatchFree := by
  induction jobs generalizing i with
  | nil => trivial
  | cons job jobs ih =>
    apply perform_bind fun _ => rfl
    intro panicked
    cases panicked with
    | some msg => trivial
    | none => exact bind (ih (i + 1)) fun _ => trivial

theorem wp_dispatch (pb : PendingBatch) : pb.dispatch.wp monitor {} fun _ _ => True := by
  unfold PendingBatch.dispatch
  split
  · trivial
  · cases admitBatch pb.jobs with
    | error e => trivial
    | ok jobs =>
      refine wp_op (guard_plain (fun _ => rfl) fun _ => rfl) fun id => wp_dispatching ?_ rfl
      apply bind (bindBatchJobs_all pb.queue jobs.length 0 jobs)
      intro bound
      cases bound with
      | error e => trivial
      | ok bound =>
        apply perform_bind fun _ => rfl
        intro _
        apply perform_bind fun _ => rfl
        intro saved
        cases saved with
        | error e => exact perform_bind (fun _ => rfl) fun _ => trivial
        | ok _ =>
          apply bind (pushAll_all 0 bound)
          intro failed
          cases failed with
          | some e => trivial
          | none => exact perform_bind (fun _ => rfl) fun _ => trivial

theorem wp_onBatch {f : Batch → BatchProg Unit}
    (hf : ∀ b m, Loud m → (f b).wp monitor m fun _ _ => True) :
    (onBatch id f).wp monitor {} fun _ _ => True := by
  refine wp_op (guard_plain (fun _ => rfl) fun _ => rfl) fun found => ?_
  have hloud : Loud (next {} (.findBatch id) found) := next_loud (fun _ => rfl) rfl found
  cases found with
  | none => trivial
  | some b => exact hf b _ hloud

theorem wp_body (c : BatchCall) : c.body.wp monitor {} fun _ _ => True := by
  cases c with
  | dispatch pb => exact wp_bind_of (wp_dispatch pb) fun _ _ _ => trivial
  | recordSuccess id => exact wp_onBatch fun _ _ => wp_recordSuccess
  | recordFailure id jobErr => exact wp_onBatch fun _ _ hm => wp_recordFailure hm
  | recordSkip id => exact wp_onBatch fun _ _ => wp_recordSkip
  | cancelCtx id => exact wp_onBatch fun _ _ => wp_closing cancelCtx_closing

end OutcomeThread

theorem outcomes_guarded (ids : ℕ ↪ BatchID) (acts : List (Act BatchEnv BatchCall)) (id : BatchID) :
    EachAfter (fun pre ev =>
      (ev.op.firesCatch id = true → ∃ x ∈ pre, x.tid = ev.tid ∧ x.op.recordsFailure id x.res = true) ∧
      (ev.op.touches id = true → ∀ x ∈ pre, x.tid = ev.tid → x.op.isFailure = false →
        x.op.surplus id x.res = true → ∃ y ∈ pre, y.tid = ev.tid ∧ y.op = .newBatchID))
      ((batchSystem ids).run (start {}) acts).log := by
  have hguard := (batchSystem ids).each_guarded OutcomeThread.monitor (w := {})
    OutcomeThread.wp_body (fun _ _ _ => trivial) acts
  intro pre ev post hlog
  have hg : (OutcomeThread.monitor.stateOf pre ev.tid : OutcomeThread).Guard ev.op :=
    hguard pre ev post hlog
  have hdispatches := OutcomeThread.monitor.stateOf_any (f := OutcomeThread.dispatches)
    rfl (fun _ _ _ => rfl) pre ev.tid
  have hfailed := OutcomeThread.monitor.stateOf_any (f := fun m : OutcomeThread => m.failed id)
    rfl (fun _ _ _ => rfl) pre ev.tid
  have hquiet := OutcomeThread.monitor.stateOf_any (f := fun m : OutcomeThread => m.quiet id)
    rfl (fun _ _ _ => rfl) pre ev.tid
  constructor
  · intro hcatch
    have hh := hg.catches id hcatch
    rw [hfailed] at hh
    simpa using hh
  · intro htouch x hx hi hnot hsurplus
    have hq : (OutcomeThread.monitor.stateOf pre ev.tid : OutcomeThread).quiet id = true := by
      rw [hquiet]
      exact List.any_eq_true.mpr ⟨x, hx, by simp [hi, hnot, hsurplus]⟩
    have hh := hg.touches id htouch hq
    rw [hdispatches] at hh
    simpa using hh

theorem RepoOp.failedJobs_on (op : RepoOp) (now : Time) (b : Batch) :
    b.failedJobs ≤ (op.on now b).2.failedJobs := by
  have hsettle : ∀ (completed failed : Int) errText, 0 ≤ failed →
      b.failedJobs ≤ (b.settleSlot completed failed errText now).2.failedJobs := by
    intro completed failed errText hfailed
    by_cases hp : 0 < b.pendingJobs
    · obtain ⟨-, -, hout, -, -⟩ := settleSlot_of_pending hp completed failed errText now
      omega
    · rw [settleSlot_of_empty (Int.not_lt.mp hp)]
  cases op with
  | cancel => exact Int.le_refl _
  | _ => exact hsettle _ _ _ (by decide)

def FailuresCounted (w : BatchWorld) (log : Log BatchOp.Res) : Prop :=
  ∀ ev ∈ log, ∀ id, ev.op.recordsFailure id ev.res = true → ev.op.surplus id ev.res = false →
    ∃ b, w.repo.batches.lookup id = some b ∧ 0 < b.failedJobs

namespace FailuresCounted

variable {ids : ℕ ↪ BatchID} {w : BatchWorld} {log : Log BatchOp.Res} {i : Nat}
  {env : BatchEnv} {o : BatchOp}

theorem counted (hl : BatchLedger ids w log) {id : BatchID}
    (hrecords : o.recordsFailure id (w.exec ids env o).1 = true)
    (hslot : o.surplus id (w.exec ids env o).1 = false) :
    ∃ b, (w.exec ids env o).2.repo.batches.lookup id = some b ∧ 0 < b.failedJobs := by
  cases o with
  | repo id' op =>
    cases op with
    | incrementFailure jobErr =>
      have hans : (w.exec ids env (.repo id' (.incrementFailure jobErr))).1 =
          (w.repo.call ⟨env.ctx, id', .incrementFailure jobErr, env.now⟩).1 := rfl
      rcases w.repo.call_cases ⟨env.ctx, id', .incrementFailure jobErr, env.now⟩ with
        ⟨-, hnone⟩ | ⟨b, hb, hcall⟩
      · rw [hans] at hrecords
        generalize (w.repo.call ⟨env.ctx, id', .incrementFailure jobErr, env.now⟩).1 = res at *
        rcases res with e | ⟨_ | b, justFinished⟩
        · cases hrecords
        · cases hrecords
        · cases (hnone _ _ rfl).1
      · rw [hans, hcall] at hrecords hslot
        obtain rfl : id' = id := of_decide_eq_true hrecords
        obtain ⟨reports, hacc⟩ := hl.accounts id' b hb
        have hiff := surplus_iff hacc id' (.incrementFailure jobErr) (by simp) env.now
        have hp : 0 < b.pendingJobs := Int.not_le.mp fun hle => by simp [hiff.mpr hle] at hslot
        obtain ⟨-, -, hfailed, -, -⟩ :=
          settleSlot_of_pending hp 0 1 (jobErr.map Err.message) env.now
        have hnonneg := hacc.failed
        refine ⟨(b.settleSlot 0 1 (jobErr.map Err.message) env.now).2, ?_, by omega⟩
        show (w.repo.call ⟨env.ctx, id', .incrementFailure jobErr, env.now⟩).2.batches.lookup id' = _
        rw [hcall]
        exact AList.lookup_insert _
    | _ => cases hrecords
  | _ => cases hrecords

theorem step (h : FailuresCounted w log) (hl : BatchLedger ids w log)
    (hg : (threadOf log i).Guard o) :
    FailuresCounted (w.exec ids env o).2 (log ++ [⟨i, o, (w.exec ids env o).1⟩]) := by
  intro ev hev id hrecords hslot
  rcases mem_concat.mp hev with hev | rfl
  · obtain ⟨b, hb, hfailed⟩ := h ev hev id hrecords hslot
    rcases hl.becomes (w.exec_effect ids env o) hg hb with hsame | ⟨op, now, hnext⟩
    · exact ⟨b, hsame, hfailed⟩
    · exact ⟨(op.on now b).2, hnext, hfailed.trans_le (op.failedJobs_on now b)⟩
  · exact counted hl hrecords hslot

end FailuresCounted

theorem failures_counted (ids : ℕ ↪ BatchID) (acts : List (Act BatchEnv BatchCall)) :
    let p := (batchSystem ids).run (start {}) acts
    FailuresCounted p.world p.log := by
  have hrun := (batchSystem ids).invariant BatchThread.monitor
    (I := fun w log => BatchLedger ids w log ∧ FailuresCounted w log)
    BatchThread.wp_body ⟨BatchLedger.start, fun ev h => by simp at h⟩
    (fun _ _ _ _ _ => trivial) ?_ acts
  · exact hrun.2
  · rintro w log i env o ⟨hl, h⟩ hg
    exact ⟨hl.step (w.exec_effect ids env o) hg, h.step hl hg⟩

/-- If no failure was recorded without a slot, not both Then and Catch were fired, and after another
outcome without a slot its thread leaves the batch alone, its own `Dispatch` apart. -/
theorem then_catch_exclusive (ids : ℕ ↪ BatchID) (acts : List (Act BatchEnv BatchCall))
    (id : BatchID)
    (h : ∀ ev ∈ ((batchSystem ids).run (Pool.start {}) acts).log, ev.op.isFailure = true →
      ev.op.surplus id ev.res = false) :
    let log := ((batchSystem ids).run (start {}) acts).log
    ¬(log.any (fun ev => ev.op.firesThen id) = true ∧ log.any (fun ev => ev.op.firesCatch id) = true) ∧
    EachAfter (fun pre ev => ev.op.touches id = true → ∀ x ∈ pre, x.tid = ev.tid →
      x.op.surplus id x.res = true → ∃ y ∈ pre, y.tid = ev.tid ∧ y.op = .newBatchID) log := by
  intro log
  have hguarded := outcomes_guarded ids acts id
  constructor
  · rintro ⟨hthen, hcatch⟩
    obtain ⟨ev, hev, hfires⟩ := List.any_eq_true.mp hthen
    obtain ⟨b, hb, -, hzero⟩ := (batch_run ids acts).2.fired ev hev id hfires
    obtain ⟨c, hc, hcatches⟩ := List.any_eq_true.mp hcatch
    obtain ⟨pre, post, hlog⟩ := List.append_of_mem hc
    obtain ⟨x, hx, -, hrecords⟩ := (hguarded pre c post hlog).1 hcatches
    have hxlog : x ∈ log := by simp [log, hlog, hx]
    have hslot := h x hxlog (isFailure_of_records hrecords)
    obtain ⟨b', hb', hpos⟩ := failures_counted ids acts x hxlog id hrecords hslot
    obtain rfl : b = b' := Option.some.inj (hb.symm.trans hb')
    omega
  · intro pre ev post hlog htouch x hx hi hsurplus
    have hnot : x.op.isFailure = false := by
      cases hf : x.op.isFailure with
      | false => rfl
      | true => rw [h x (by simp [log] at hlog; simp [hlog, hx]) hf] at hsurplus; cases hsurplus
    exact (hguarded pre ev post hlog).2 htouch x hx hi hnot hsurplus

def guardedJob : PendingBatch := { oneJob with catchFn := true, catchName := "alert" }

/-- The batch's only job succeeds and is delivered once more, and then fails. -/
def surplusFailureRun : List (Act BatchEnv BatchCall) :=
  .spawn (.dispatch guardedJob) :: runs 0 6 ++ .spawn (.recordSuccess "b") :: runs 1 16 ++
    .spawn (.recordFailure "b" (some (.text "boom"))) :: runs 2 12

def surplusSuccessRun : List (Act BatchEnv BatchCall) :=
  .spawn (.dispatch guardedJob) :: runs 0 6 ++ .spawn (.recordSuccess "b") :: runs 1 16 ++
    .spawn (.recordSuccess "b") :: runs 2 12

theorem then_catch_exclusive_surplusSuccessRun :
    let log := ((batchSystem batchIDs).run (start {}) surplusSuccessRun).log
    (∀ ev ∈ log, ev.op.isFailure = true → ev.op.surplus "b" ev.res = false) ∧
    log.any (fun ev => ev.op.firesThen "b") = true ∧
    log.any (fun ev => ev.op.surplus "b" ev.res) = true ∧
    ¬(log.any (fun ev => ev.op.firesThen "b") = true ∧
      log.any (fun ev => ev.op.firesCatch "b") = true) := by
  have h : ∀ ev ∈ ((batchSystem batchIDs).run (start {}) surplusSuccessRun).log,
      ev.op.isFailure = true → ev.op.surplus "b" ev.res = false := by decide
  exact ⟨h, by decide, by decide, (then_catch_exclusive batchIDs surplusSuccessRun "b" h).1⟩

/-- Then and Catch are both fired, as closures and as jobs, and the finished batch is
cancelled. -/
theorem surplusFailureRun_fires_both :
    let p := (batchSystem batchIDs).run (start {}) surplusFailureRun
    p.log.any (fun ev => ev.op = .go .callbackThen "b") = true ∧
    p.log.any (fun ev => ev.op = .go .callbackCatch "b") = true ∧
    p.log.any (fun ev => ev.op = .pushCallback ⟨"b", "report", .callbackThen, ""⟩) = true ∧
    p.log.any (fun ev => ev.op = .pushCallback ⟨"b", "alert", .callbackCatch, "boom"⟩) = true ∧
    p.log.any (fun ev => ev.tid = 2 && ev.op.surplus "b" ev.res) = true ∧
    (p.world.repo.batches.lookup "b").map (fun b => (b.failedJobs, b.finished, b.cancelled)) =
      some (0, true, true) := by
  decide

end Velocity.Queue
