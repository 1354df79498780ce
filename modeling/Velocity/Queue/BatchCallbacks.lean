import Velocity.Queue.Batch

/-! When the Then callback of a batch fires. `fireTerminalCallbacks` asks only whether a job
failed, so a batch whose slots were skipped or drained fires it too: all jobs completed if
and only if no slot was. -/

namespace Velocity.Queue

open Interleave Prog RepoOp Option

def BatchOp.firesThen (id : BatchID) : BatchOp → Bool
  | .go .callbackThen id' => id' = id
  | .pushCallback job => job.kind = .callbackThen && job.batchID = id
  | _ => false

/-- A slot of batch `id` was taken for a job that did not run. -/
def BatchOp.skips (id : BatchID) : (o : BatchOp) → o.Res → Bool
  | .repo id' .decrementPending, .ok (some b, justFinished) =>
    id' = id && (justFinished || 0 < b.pendingJobs)
  | _, _ => false

def skips (id : BatchID) (log : Log BatchOp.Res) : Nat :=
  log.countP fun ev => ev.op.skips id ev.res

structure BatchThread where
  owned : Option BatchID := none
  finished : Option BatchID := none
  clean : Bool := false

namespace BatchThread

def next (m : BatchThread) : (o : BatchOp) → o.Res → BatchThread
  | .newBatchID, id => { m with owned := some id }
  | .save _, .ok _ => { m with owned := none }
  | .repo id _, .ok (_, true) => { m with finished := some id, clean := false }
  | .load id, b => { m with clean := m.clean || (m.finished = some id && !b.hasFailures) }
  | _, _ => m

def Guard (m : BatchThread) : BatchOp → Prop
  | .save b => m.owned = some b.id ∧ ∃ pb : PendingBatch, pb.jobs ≠ [] ∧ b = pb.batch b.id
  | .go .callbackThen id => m.finished = some id ∧ m.clean = true
  | .pushCallback job =>
    job.kind = .callbackThen → m.finished = some job.batchID ∧ m.clean = true
  | _ => True

def monitor : Monitor BatchOp.Res where
  State := BatchThread
  init := {}
  allowed _ _ := True
  guard m o _ := m.Guard o
  next := next

variable {m : BatchThread} {b : Batch} {id : BatchID} {α : Type} {entry : Option CallbackEntry}
  {justFinished : Bool}

theorem wp_op {o : BatchOp} {f : o.Res → BatchProg α} {Q : α → BatchThread → Prop}
    (hg : m.Guard o) (hf : ∀ r, (f r).wp monitor (m.next o r) Q) :
    (Batch.op o >>= f).wp monitor m Q :=
  fun r _ => ⟨hg, hf r⟩

def Keeps (id : BatchID) (m m' : BatchThread) : Prop :=
  m.finished = some id → m'.finished = some id

theorem keeps_load (id id' : BatchID) (b : Batch) : Keeps id m (m.next (.load id') b) := fun h => h

theorem keeps_repo (op : RepoOp) (res : RepoAnswer) :
    Keeps id m (m.next (.repo id op) res) := by
  intro h
  rcases res with e | ⟨-, _ | _⟩
  · exact h
  · exact h
  · rfl

theorem clean_of_load (h : m.finished = some id) (hb : b.hasFailures = false) :
    (m.next (.load id) b).finished = some id ∧ (m.next (.load id) b).clean = true := by
  simp [next, h, hb]

theorem wp_dispatchBatchCallbackJob {name : String} {kind : CallbackKind} {errMsg : String}
    (hkind : kind = .callbackThen → m.finished = some id ∧ m.clean = true) :
    (Batch.dispatchBatchCallbackJob name kind id errMsg).wp monitor m fun _ m' => m' = m := by
  refine wp_op trivial fun wired => wp_when (fun _ => ?_) (fun _ => rfl)
  exact wp_op hkind fun _ => rfl

theorem wp_fireCatch : (Batch.fireCatch entry id).wp monitor m fun _ m' => m' = m := by
  cases entry with
  | none => rfl
  | some e =>
    refine wp_op trivial fun first => wp_when (fun _ => ?_) (fun _ => rfl)
    exact wp_op trivial fun _ => rfl

theorem wp_fireFinished (h : m.finished = some id) :
    (Batch.fireFinished entry id).wp monitor m fun _ m' => m'.finished = some id := by
  cases entry with
  | none => exact h
  | some e =>
    refine wp_op trivial fun first => wp_when (fun _ => ?_) (fun _ => h)
    refine wp_op trivial fun b => ?_
    refine wp_bind_of (P := fun _ (m' : BatchThread) => m'.finished = some id) ?_ ?_
    · refine wp_when (fun hc => ?_) (fun _ => h)
      have hb : b.hasFailures = false := by simp_all
      have hclean := clean_of_load h hb
      exact wp_op hclean fun _ => hclean.1
    · intro _ m' h'
      refine wp_when (fun _ => ?_) (fun _ => h')
      exact wp_op trivial fun _ => h'

variable {updated : Option Batch}

theorem wp_lastErrorSnapshot (id : BatchID) :
    (updated.elim (pure "") Batch.lastErrorSnapshot).wp monitor m fun _ m' => Keeps id m m' := by
  cases updated with
  | none => exact fun h => h
  | some u => exact wp_op trivial fun b => keeps_load id u.id b

theorem wp_fireTerminalCallbacks (h : m.finished = some b.id) :
    (b.fireTerminalCallbacks updated).wp monitor m fun _ m' => m'.finished = some b.id := by
  refine wp_op trivial fun entry => ?_
  refine wp_bind_of (wp_fireFinished h) fun _ m₁ h₁ => ?_
  refine wp_op trivial fun now => ?_
  have h₂ := keeps_load b.id b.id now h₁
  refine wp_bind_of (P := fun _ (m' : BatchThread) => m'.finished = some b.id) ?_ fun _ m₃ h₃ => ?_
  · refine wp_when (fun hc => ?_) (fun _ => h₂)
    have hnow : now.hasFailures = false := by simp_all
    refine wp_mono (wp_dispatchBatchCallbackJob fun _ => clean_of_load h₁ hnow) ?_
    rintro _ m' rfl
    exact h₂
  refine wp_bind_of (P := fun _ (m' : BatchThread) => m'.finished = some b.id) ?_ fun _ m₄ h₄ => ?_
  · refine wp_when (fun _ => ?_) (fun _ => h₃)
    refine wp_bind_of (wp_lastErrorSnapshot b.id) fun errMsg m' hkeep => ?_
    refine wp_mono (wp_dispatchBatchCallbackJob (by simp)) ?_
    rintro _ m'' rfl
    exact hkeep h₃
  refine wp_op trivial fun completed => wp_op trivial fun failed => wp_op trivial fun failures => ?_
  exact wp_op trivial fun _ => h₄

theorem wp_cancelCtx : (b.cancelCtx).wp monitor m fun _ m' => Keeps b.id m m' := by
  refine wp_op trivial fun first => wp_when (fun _ => ?_) (fun _ h => h)
  refine wp_op trivial fun res => wp_op trivial fun now => wp_op trivial fun _ => ?_
  exact keeps_repo .cancel res

theorem wp_whenFinished (h : justFinished = true → m.finished = some b.id) :
    (Prog.when justFinished (b.fireTerminalCallbacks updated)).wp monitor m fun _ _ => True :=
  wp_when (fun hj => wp_mono (wp_fireTerminalCallbacks (h hj)) fun _ _ _ => trivial)
    fun _ => trivial

theorem finished_of_repo {op : RepoOp} {out : Option Batch} (h : justFinished = true) :
    (m.next (.repo id op) (.ok (out, justFinished))).finished = some id := by
  subst h
  rfl

theorem wp_recordSuccess : b.recordSuccess.wp monitor m fun _ _ => True := by
  refine wp_op trivial fun res => ?_
  rcases res with e | ⟨_ | updated, -⟩
  · trivial
  · trivial
  · refine wp_op trivial fun now => wp_op trivial fun _ => wp_whenFinished fun hj => ?_
    exact finished_of_repo hj

theorem wp_recordFailure {jobErr : Option Err} :
    (b.recordFailure jobErr).wp monitor m fun _ _ => True := by
  refine wp_op trivial fun res => ?_
  rcases res with e | ⟨_ | updated, -⟩
  · trivial
  · trivial
  · refine wp_op trivial fun now => wp_op trivial fun _ => wp_op trivial fun entry => ?_
    refine wp_bind_of wp_fireCatch ?_
    rintro _ m₁ rfl
    refine wp_bind_of (wp_when (fun _ => wp_dispatchBatchCallbackJob (by simp))
      fun _ => rfl) ?_
    rintro _ m₂ rfl
    refine wp_bind_of (wp_when (fun _ => wp_cancelCtx) fun _ h => h) ?_
    intro _ m₃ hkeep
    exact wp_whenFinished fun hj => hkeep (finished_of_repo hj)

theorem wp_recordSkip : b.recordSkip.wp monitor m fun _ _ => True := by
  refine wp_op trivial fun res => ?_
  rcases res with e | ⟨_ | updated, -⟩
  · trivial
  · trivial
  · exact wp_whenFinished finished_of_repo

theorem wp_drain (unpushed : Nat) {anyFinished : Bool}
    (h : anyFinished = true → m.finished = some id) :
    (PendingBatch.drain id unpushed anyFinished).wp monitor m
      fun any m' => any = true → m'.finished = some id := by
  induction unpushed generalizing m anyFinished with
  | zero => exact h
  | succ unpushed ih =>
    refine wp_op trivial fun res => ?_
    have hkeep : anyFinished = true → (m.next (.repo id .decrementPending) res).finished = some id :=
      fun ha => keeps_repo .decrementPending res (h ha)
    rcases res with e | ⟨out, _ | _⟩
    · exact ih hkeep
    · exact ih hkeep
    · exact ih fun _ => rfl

theorem wp_settleUnpushed (unpushed : Nat) :
    (PendingBatch.settleUnpushed b unpushed).wp monitor m fun _ _ => True := by
  refine wp_bind_of (wp_drain unpushed (by simp)) fun any m₁ h₁ => ?_
  refine wp_op trivial fun found => ?_
  refine wp_bind_of wp_cancelCtx fun _ m₂ hkeep => ?_
  exact wp_whenFinished fun hany => hkeep (h₁ hany)

theorem wp_pushAll (pushed : Nat) (jobs : List (Job × String)) :
    (PendingBatch.pushAll b pushed jobs).wp monitor m fun _ _ => True := by
  induction jobs generalizing m pushed with
  | nil => trivial
  | cons job jobs ih =>
    refine wp_op trivial fun res => ?_
    rcases res with e | _
    · exact wp_bind_of (wp_settleUnpushed _) fun _ _ _ => trivial
    · exact ih (pushed + 1)

theorem wp_bindBatchJobs (queue : String) (n i : Nat) (jobs : List Job) :
    (bindBatchJobs id queue n i jobs).wp monitor m fun _ m' => m' = m := by
  induction jobs generalizing i with
  | nil => rfl
  | cons job jobs ih =>
    refine wp_op trivial fun panicked => ?_
    cases panicked with
    | some msg => rfl
    | none => exact wp_bind_of (ih (i + 1)) fun _ m' h => h

theorem wp_dispatch (pb : PendingBatch) : pb.dispatch.wp monitor m fun _ _ => True := by
  unfold PendingBatch.dispatch
  split
  · trivial
  · next hjobs =>
    cases admitBatch pb.jobs with
    | error e => trivial
    | ok jobs =>
      refine wp_op trivial fun id => ?_
      refine wp_bind_of (wp_bindBatchJobs pb.queue jobs.length 0 jobs) ?_
      rintro bound m' rfl
      cases bound with
      | error e => trivial
      | ok bound =>
        refine wp_op trivial fun _ => wp_op ⟨rfl, pb, hjobs, rfl⟩ fun saved => ?_
        cases saved with
        | error e => exact wp_op trivial fun _ => trivial
        | ok _ =>
          refine wp_bind_of (wp_pushAll 0 bound) fun failed _ _ => ?_
          cases failed with
          | some e => trivial
          | none => exact wp_op trivial fun _ => trivial

theorem wp_onBatch {f : Batch → BatchProg Unit} (hf : ∀ b m, (f b).wp monitor m fun _ _ => True) :
    (onBatch id f).wp monitor m fun _ _ => True := by
  refine wp_op trivial fun found => ?_
  cases found with
  | none => trivial
  | some b => exact hf b _

theorem wp_body (c : BatchCall) : c.body.wp monitor m fun _ _ => True := by
  cases c with
  | dispatch pb => exact wp_bind_of (wp_dispatch pb) fun _ _ _ => trivial
  | recordSuccess id => exact wp_onBatch fun _ _ => wp_recordSuccess
  | recordFailure id jobErr => exact wp_onBatch fun _ _ => wp_recordFailure
  | recordSkip id => exact wp_onBatch fun _ _ => wp_recordSkip
  | cancelCtx id => exact wp_onBatch fun _ _ => wp_mono wp_cancelCtx fun _ _ _ => trivial

end BatchThread

/-- `still` is every operation that leaves batches and minted ids alone. -/
inductive BatchEffect (ids : ℕ ↪ BatchID) (w w' : BatchWorld) : (o : BatchOp) → o.Res → Prop
  | mint (hr : w'.repo = w.repo) (hm : w'.minted = w.minted + 1) :
      BatchEffect ids w w' .newBatchID (ids w.minted)
  | save (b : Batch) (hr : w'.repo.batches = w.repo.batches.insert b.id b)
      (hm : w'.minted = w.minted) : BatchEffect ids w w' (.save b) (.ok ())
  | settle (id : BatchID) (op : RepoOp) (now : Time) (b : Batch)
      (hb : w.repo.batches.lookup id = some b)
      (hr : w'.repo.batches = w.repo.batches.insert id (op.on now b).2)
      (hm : w'.minted = w.minted) :
      BatchEffect ids w w' (.repo id op) (.ok (some (op.on now b).2, (op.on now b).1))
  | cancel (id : BatchID) (b : Batch) (first : Bool) (hb : w.repo.batches.lookup id = some b)
      (hr : w'.repo.batches = w.repo.batches.insert id { b with cancelled := true })
      (hm : w'.minted = w.minted) : BatchEffect ids w w' (.swapCancelled id) first
  | load (id : BatchID) (hw : w' = w) : BatchEffect ids w w' (.load id) (w.batch id)
  | still (o : BatchOp) (r : o.Res) (hr : w'.repo = w.repo) (hm : w'.minted = w.minted)
      (hnext : ∀ m : BatchThread, m.next o r = m) (hskips : ∀ id, o.skips id r = false) :
      BatchEffect ids w w' o r

theorem BatchWorld.setEntry_repo (w : BatchWorld) (id : BatchID)
    (f : CallbackEntry → CallbackEntry) :
    (w.setEntry id f).repo = w.repo ∧ (w.setEntry id f).minted = w.minted := by
  unfold setEntry
  cases w.callbacks.lookup id with
  | none => exact ⟨rfl, rfl⟩
  | some e => exact ⟨rfl, rfl⟩

theorem BatchWorld.exec_effect (ids : ℕ ↪ BatchID) (w : BatchWorld) (env : BatchEnv)
    (o : BatchOp) : BatchEffect ids w (w.exec ids env o).2 o (w.exec ids env o).1 := by
  have hstill : ∀ {o : BatchOp} {r : o.Res} {w' : BatchWorld}, w'.repo = w.repo →
      w'.minted = w.minted → (∀ m : BatchThread, m.next o r = m) →
      (∀ id, o.skips id r = false) → BatchEffect ids w w' o r :=
    .still _ _
  cases o with
  | newBatchID => exact .mint rfl rfl
  | save b =>
    cases hctx : env.ctx.ctx with
    | some e =>
      simp only [exec, InMemoryBatchRepository.save, hctx]
      exact hstill rfl rfl (fun _ => rfl) fun _ => rfl
    | none =>
      simp only [exec, InMemoryBatchRepository.save, hctx]
      exact .save b rfl rfl
  | repo id op =>
    rcases w.repo.call_cases ⟨env.ctx, id, op, env.now⟩ with ⟨hsame, hans⟩ | ⟨b, hb, hcall⟩
    · suffices h : (∀ m : BatchThread, m.next _ (w.exec ids env (.repo id op)).1 = m) ∧
          ∀ id', BatchOp.skips id' _ (w.exec ids env (.repo id op)).1 = false from
        hstill hsame rfl h.1 h.2
      cases hres : (w.repo.call ⟨env.ctx, id, op, env.now⟩).1 with
      | error e => cases op <;> simp [exec, hres, BatchThread.next, BatchOp.skips]
      | ok out =>
        obtain ⟨found, justFinished⟩ := out
        obtain ⟨rfl, rfl⟩ := hans found justFinished hres
        cases op <;> simp [exec, hres, BatchThread.next, BatchOp.skips]
    · simp only [exec, hcall]
      exact .settle id op env.now b hb rfl rfl
  | swapCancelled id =>
    cases hb : w.repo.batches.lookup id with
    | none =>
      simp only [exec, setBatch, hb]
      exact hstill rfl rfl (fun _ => rfl) fun _ => rfl
    | some b =>
      simp only [exec, setBatch, hb]
      exact .cancel id b _ hb rfl rfl
  | load id => exact .load id rfl
  | catchOnce id =>
    have hh := w.setEntry_repo id fun e => { e with catchOnce := true }
    exact hstill hh.1 hh.2 (fun _ => rfl) fun _ => rfl
  | swapFinishedFired id =>
    have hh := w.setEntry_repo id fun e => { e with finishedFired := true }
    exact hstill hh.1 hh.2 (fun _ => rfl) fun _ => rfl
  | _ => exact hstill rfl rfl (fun _ => rfl) fun _ => rfl

theorem RepoOp.on_totalJobs (op : RepoOp) (now : Time) (b : Batch) :
    (op.on now b).2.totalJobs = b.totalJobs := by
  have hsettle : ∀ completed failed errText,
      (b.settleSlot completed failed errText now).2.totalJobs = b.totalJobs := by
    intro completed failed errText
    unfold Batch.settleSlot
    split
    · rfl
    · dsimp only
      split <;> rfl
  cases op with
  | cancel => rfl
  | _ => exact hsettle _ _ _

variable {n reports : Nat}

theorem Batch.Accounts.skips_iff {b : Batch} {skips : Nat}
    (h : b.Accounts n skips reports) (now : Time) :
    ((RepoOp.decrementPending.on now b).1 || 0 < (RepoOp.decrementPending.on now b).2.pendingJobs)
      = true ↔ (RepoOp.decrementPending.on now b).2.pendingJobs ≠ b.pendingJobs := by
  set out := decrementPending.on now b
  have hp := h.pending
  rcases hp.lt_or_eq with hpos | hzero
  · obtain ⟨hpending, -, -, hreport, -⟩ := settleSlot_of_pending hpos 0 0 none now
    have hopen : b.finished = false := Bool.eq_false_iff.mpr fun hf => by
      have hh := h.finished.mp hf
      omega
    have hout1 : out.1 = decide (b.pendingJobs = 1) := hreport.trans (by simp [hopen])
    have hout2 : out.2.pendingJobs = b.pendingJobs - 1 := hpending
    simp [hout1, hout2]
    omega
  · have hout : out = (false, b) := settleSlot_of_empty hzero.ge 0 0 none now
    simp [hout, ← hzero]

def threadOf (log : Log BatchOp.Res) (i : Nat) : BatchThread :=
  BatchThread.monitor.stateOf log i

theorem threadOf_concat (log : Log BatchOp.Res) (i : Nat) (o : BatchOp) (r : o.Res)
    (j : Nat) : threadOf (log ++ [⟨i, o, r⟩]) j =
      if i = j then (threadOf log j).next o r else threadOf log j :=
  BatchThread.monitor.stateOf_concat log ⟨i, o, r⟩ j

theorem skips_concat (id : BatchID) (log : Log BatchOp.Res) (i : Nat) (o : BatchOp) (r : o.Res) :
    skips id (log ++ [⟨i, o, r⟩]) = skips id log + if o.skips id r = true then 1 else 0 := by
  simp [skips, List.countP_append, List.countP_singleton]

/-- Saved batches account for their slots, and a minted id that is not saved has one owner. -/
structure BatchLedger (ids : ℕ ↪ BatchID) (w : BatchWorld) (log : Log BatchOp.Res) :
    Prop where
  minted : ∀ id b, w.repo.batches.lookup id = some b → ∃ k < w.minted, ids k = id
  unsaved : ∀ id, w.repo.batches.lookup id = none → skips id log = 0
  accounts : ∀ id b, w.repo.batches.lookup id = some b →
    ∃ reports, b.Accounts b.totalJobs (skips id log) reports
  owned : ∀ i id, (threadOf log i).owned = some id →
    w.repo.batches.lookup id = none ∧ ∃ k < w.minted, ids k = id
  apart : ∀ i j id, (threadOf log i).owned = some id → (threadOf log j).owned = some id → i = j

namespace BatchLedger

variable {ids : ℕ ↪ BatchID} {w w' : BatchWorld} {log log' : Log BatchOp.Res} {i : Nat}

theorem start : BatchLedger ids {} [] where
  minted _ _ h := by simp at h
  unsaved _ _ := rfl
  accounts _ _ h := by simp at h
  owned i id h := by simp [threadOf, BatchThread.monitor] at h
  apart i j id h := by simp [threadOf, BatchThread.monitor] at h

theorem same (h : BatchLedger ids w log) (hr : w'.repo = w.repo) (hm : w'.minted = w.minted)
    (hskips : ∀ id, skips id log' = skips id log)
    (howned : ∀ j, (threadOf log' j).owned = (threadOf log j).owned) : BatchLedger ids w' log' where
  minted := by rw [hr, hm]; exact h.minted
  unsaved := by simp only [hr, hskips]; exact h.unsaved
  accounts := by simp only [hr, hskips]; exact h.accounts
  owned := by simp only [hr, hm, howned]; exact h.owned
  apart := by simp only [howned]; exact h.apart

variable {b : Batch} {id : BatchID}

section

variable (h : BatchLedger ids w log)

include h

/-- A batch is put under an id that nobody owns any more. -/
theorem put (hr : w'.repo.batches = w.repo.batches.insert id b)
    (hm : w'.minted = w.minted) (hid : ∃ k < w.minted, ids k = id)
    (hskips : ∀ id', id' ≠ id → skips id' log' = skips id' log)
    (hacc : ∃ reports, b.Accounts b.totalJobs (skips id log') reports)
    (howned : ∀ j id', (threadOf log' j).owned = some id' →
      id' ≠ id ∧ (threadOf log j).owned = some id') : BatchLedger ids w' log' := by
  constructor
  case minted =>
    intro id' b' hb'
    rw [hr] at hb'
    rw [hm]
    rcases FMap.lookup_of_insert hb' with ⟨rfl, -⟩ | ⟨-, hb'⟩
    · exact hid
    · exact h.minted id' b' hb'
  case unsaved =>
    intro id' hb'
    rw [hr, FMap.lookup_insert_ite] at hb'
    split at hb'
    · cases hb'
    · next hne =>
      rw [hskips id' hne]
      exact h.unsaved id' hb'
  case accounts =>
    intro id' b' hb'
    rw [hr] at hb'
    rcases FMap.lookup_of_insert hb' with ⟨rfl, rfl⟩ | ⟨hne, hb'⟩
    · exact hacc
    · rw [hskips id' hne]
      exact h.accounts id' b' hb'
  case owned =>
    intro j id' hj
    obtain ⟨hne, hj⟩ := howned j id' hj
    rw [hr, AList.lookup_insert_ne hne, hm]
    exact h.owned j id' hj
  case apart =>
    intro j k id' hj hk
    exact h.apart j k id' (howned j id' hj).2 (howned k id' hk).2

theorem update (op : RepoOp) (now : Time) (hb : w.repo.batches.lookup id = some b)
    (hr : w'.repo.batches = w.repo.batches.insert id (op.on now b).2) (hm : w'.minted = w.minted)
    (hskips : ∀ id', skips id' log' = skips id' log + if id' = id ∧ op = .decrementPending ∧
      (op.on now b).2.pendingJobs ≠ b.pendingJobs then 1 else 0)
    (howned : ∀ j, (threadOf log' j).owned = (threadOf log j).owned) : BatchLedger ids w' log' := by
  obtain ⟨reports, hacc⟩ := h.accounts id b hb
  refine h.put hr hm (h.minted id b hb) (fun id' hne => by simp [hskips, hne])
    ⟨reports + (op.on now b).1.toNat, ?_⟩ fun j id' hj => ?_
  · rw [on_totalJobs, hskips]
    simpa using hacc.on op now
  · rw [howned] at hj
    refine ⟨?_, hj⟩
    rintro rfl
    rw [(h.owned j id' hj).1] at hb
    cases hb

theorem mint_step (hr : w'.repo = w.repo) (hm : w'.minted = w.minted + 1) :
    BatchLedger ids w' (log ++ [⟨i, .newBatchID, ids w.minted⟩]) := by
  have hskips : ∀ id, skips id (log ++ [⟨i, .newBatchID, ids w.minted⟩]) = skips id log :=
    fun id => skips_concat id log i .newBatchID (ids w.minted)
  have hnew : ∀ k < w.minted, ids k ≠ ids w.minted :=
    fun k hk he => Nat.ne_of_lt hk (ids.injective he)
  have hlater : ∀ id, (∃ k < w.minted, ids k = id) → ∃ k < w'.minted, ids k = id := by
    rintro id ⟨k, hk, rfl⟩
    exact ⟨k, by omega, rfl⟩
  have howned : ∀ j id, (threadOf (log ++ [⟨i, .newBatchID, ids w.minted⟩]) j).owned = some id →
      i = j ∧ id = ids w.minted ∨ (threadOf log j).owned = some id := by
    intro j id hj
    rw [threadOf_concat] at hj
    split at hj
    · next he => exact Or.inl ⟨he, (some.inj hj).symm⟩
    · exact Or.inr hj
  have hunowned : ∀ j, (threadOf log j).owned ≠ some (ids w.minted) := by
    intro j hj
    obtain ⟨k, hk, he⟩ := (h.owned j _ hj).2
    exact hnew k hk he
  constructor
  case minted =>
    intro id b hb
    rw [hr] at hb
    exact hlater id (h.minted id b hb)
  case unsaved => simp only [hr, hskips]; exact h.unsaved
  case accounts => simp only [hr, hskips]; exact h.accounts
  case owned =>
    intro j id hj
    rw [hr]
    rcases howned j id hj with ⟨-, rfl⟩ | hj
    · refine ⟨?_, w.minted, by omega, rfl⟩
      cases hb : w.repo.batches.lookup (ids w.minted) with
      | none => rfl
      | some b =>
        obtain ⟨k, hk, he⟩ := h.minted _ b hb
        exact absurd he (hnew k hk)
    · exact ⟨(h.owned j id hj).1, hlater id (h.owned j id hj).2⟩
  case apart =>
    intro j k id hj hk
    rcases howned j id hj with ⟨rfl, rfl⟩ | hj <;> rcases howned k _ hk with ⟨rfl, he⟩ | hk
    · rfl
    · exact absurd hk (hunowned k)
    · exact absurd (he ▸ hj) (hunowned j)
    · exact h.apart j k id hj hk

theorem save_step {pb : PendingBatch}
    (hown : (threadOf log i).owned = some b.id) (hjobs : pb.jobs ≠ []) (hpb : b = pb.batch b.id)
    (hr : w'.repo.batches = w.repo.batches.insert b.id b) (hm : w'.minted = w.minted) :
    BatchLedger ids w' (log ++ [⟨i, .save b, .ok ()⟩]) := by
  have hskips : ∀ id, skips id (log ++ [⟨i, .save b, .ok ()⟩]) = skips id log :=
    fun id => skips_concat id log i (.save b) (.ok ())
  obtain ⟨hfresh, hminted⟩ := h.owned i b.id hown
  refine h.put hr hm hminted (fun id _ => hskips id) ⟨0, ?_⟩ fun j id hj => ?_
  · rw [hskips, h.unsaved b.id hfresh, hpb]
    exact PendingBatch.batch_accounts hjobs b.id
  · rw [threadOf_concat] at hj
    split at hj
    · cases hj
    · next hne => exact ⟨fun he => hne (h.apart i j b.id hown (he ▸ hj)), hj⟩

end

variable {o : BatchOp} {r : o.Res}

theorem owned_concat (hnext : ∀ m : BatchThread, (m.next o r).owned = m.owned) (j : Nat) :
    (threadOf (log ++ [⟨i, o, r⟩]) j).owned = (threadOf log j).owned := by
  rw [threadOf_concat]
  split
  · exact hnext _
  · rfl

theorem owned_repo (m : BatchThread) (id : BatchID) (op : RepoOp)
    (res : RepoAnswer) : (m.next (.repo id op) res).owned = m.owned := by
  rcases res with e | ⟨-, _ | _⟩ <;> rfl

theorem skips_settle {k : Nat} (h : b.Accounts n k reports)
    (id id' : BatchID) (op : RepoOp) (now : Time) :
    BatchOp.skips id' (.repo id op) (.ok (some (op.on now b).2, (op.on now b).1)) = true ↔
      id' = id ∧ op = .decrementPending ∧ (op.on now b).2.pendingJobs ≠ b.pendingJobs := by
  cases op with
  | decrementPending =>
    rw [← h.skips_iff now]
    simp only [BatchOp.skips, Bool.and_eq_true, decide_eq_true_eq, true_and, eq_comm (a := id')]
  | _ => simp [BatchOp.skips]

section

variable (h : BatchLedger ids w log) (he : BatchEffect ids w w' o r) (hg : (threadOf log i).Guard o)

include h he hg

theorem step : BatchLedger ids w' (log ++ [⟨i, o, r⟩]) := by
  cases he with
  | mint hr hm => exact h.mint_step hr hm
  | save b hr hm =>
    obtain ⟨hown, pb, hjobs, hpb⟩ := hg
    exact h.save_step hown hjobs hpb hr hm
  | settle id op now b hb hr hm =>
    refine h.update op now hb hr hm (fun id' => ?_) (owned_concat fun m => owned_repo m id op _)
    obtain ⟨reports, hacc⟩ := h.accounts id b hb
    simp only [skips_concat, skips_settle hacc]
  | cancel id b first hb hr hm =>
    refine h.update .cancel 0 hb hr hm (fun id' => ?_) (owned_concat fun _ => rfl)
    simp [skips_concat, BatchOp.skips]
  | load id hw =>
    subst hw
    exact h.same rfl rfl (fun id' => by simp [skips_concat, BatchOp.skips])
      (owned_concat fun _ => rfl)
  | still o r hr hm hnext hskips =>
    exact h.same hr hm (fun id => by simp [skips_concat, hskips])
      (owned_concat fun m => by rw [hnext])

theorem becomes (hb : w.repo.batches.lookup id = some b) : w'.repo.batches.lookup id = some b ∨
      ∃ op now, w'.repo.batches.lookup id = some (RepoOp.on op now b).2 := by
  have hupdate : ∀ id' op now b₀, w.repo.batches.lookup id' = some b₀ →
      w'.repo.batches = w.repo.batches.insert id' (on op now b₀).2 →
      w'.repo.batches.lookup id = some b ∨
        ∃ op now, w'.repo.batches.lookup id = some (on op now b).2 := by
    intro id' op now b₀ hb₀ hr
    by_cases hid : id = id'
    · subst hid
      obtain rfl : b = b₀ := some.inj (hb.symm.trans hb₀)
      exact Or.inr ⟨op, now, by simp [hr]⟩
    · exact Or.inl (by rw [hr, AList.lookup_insert_ne hid, hb])
  cases he with
  | mint hr hm | still o r hr hm hnext hskips => exact Or.inl (by rw [hr, hb])
  | save b' hr hm =>
    have hnone := (h.owned i b'.id hg.1).1
    have hid : id ≠ b'.id := by
      rintro rfl
      rw [hb] at hnone
      cases hnone
    exact Or.inl (by rw [hr, AList.lookup_insert_ne hid, hb])
  | settle id' op now b₀ hb₀ hr hm => exact hupdate id' op now b₀ hb₀ hr
  | cancel id' b₀ first hb₀ hr hm => exact hupdate id' .cancel 0 b₀ hb₀ hr
  | load id' hw => exact Or.inl (by rw [hw, hb])

theorem terminal (hb : w.repo.batches.lookup id = some b) (hfin : b.finished = true) :
    ∃ b', w'.repo.batches.lookup id = some b' ∧ b'.finished = true ∧ b'.failedJobs = b.failedJobs := by
  obtain ⟨reports, hacc⟩ := h.accounts id b hb
  rcases h.becomes he hg hb with hsame | ⟨op, now, hnext⟩
  · exact ⟨b, hsame, hfin, rfl⟩
  · have hout := on_of_finished op now (hacc.finished.mp hfin)
    exact ⟨(op.on now b).2, hnext, by rw [hout]; exact hfin, by rw [hout]⟩

end

end BatchLedger

/-- What threads were told about finished batches holds. -/
structure BatchOutcomes (w : BatchWorld) (log : Log BatchOp.Res) : Prop where
  finished : ∀ i id, (threadOf log i).finished = some id →
    ∃ b, w.repo.batches.lookup id = some b ∧ b.finished = true ∧
      ((threadOf log i).clean = true → b.failedJobs = 0)
  fired : ∀ ev ∈ log, ∀ id, ev.op.firesThen id = true →
    ∃ b, w.repo.batches.lookup id = some b ∧ b.finished = true ∧ b.failedJobs = 0

namespace BatchOutcomes

variable {ids : ℕ ↪ BatchID} {w w' : BatchWorld} {log : Log BatchOp.Res} {i : Nat}
  {o : BatchOp} {r : o.Res}

theorem start : BatchOutcomes {} [] where
  finished i id h := by simp [threadOf, BatchThread.monitor] at h
  fired ev h := by simp at h

section

variable (h : BatchOutcomes w log) (hl : BatchLedger ids w log) (he : BatchEffect ids w w' o r)
  (hg : (threadOf log i).Guard o) {id : BatchID}

include h hl he hg

theorem kept {j : Nat} (hold : (threadOf log j).finished = some id) {c : Prop}
    (hclean : c → (threadOf log j).clean = true) :
    ∃ b, w'.repo.batches.lookup id = some b ∧ b.finished = true ∧ (c → b.failedJobs = 0) := by
  obtain ⟨b, hb, hf, hzero⟩ := h.finished j id hold
  obtain ⟨b', hb', hf', hfailed⟩ := hl.terminal he hg hb hf
  exact ⟨b', hb', hf', fun hc => hfailed.trans (hzero (hclean hc))⟩

theorem acting (hfin : ((threadOf log i).next o r).finished = some id) :
    ∃ b, w'.repo.batches.lookup id = some b ∧ b.finished = true ∧
      (((threadOf log i).next o r).clean = true → b.failedJobs = 0) := by
  have hkept := fun hold : (threadOf log i).finished = some id =>
    h.kept hl he hg hold (c := ((threadOf log i).next o r).clean = true)
  set m := threadOf log i
  cases he with
  | still o r hr hm hnext hskips =>
    rw [hnext] at hfin hkept ⊢
    exact hkept hfin fun hc => hc
  | settle id' op now b hb hr hm =>
    obtain ⟨reports, hacc⟩ := hl.accounts id' b hb
    cases hj : (op.on now b).1 with
    | false =>
      rw [hj] at hfin hkept
      exact hkept hfin fun hc => hc
    | true =>
      rw [hj] at hfin
      obtain rfl : id' = id := some.inj hfin
      have hdone := (hacc.on op now).finished.mpr (last_of_reports hj).2
      exact ⟨(op.on now b).2, by simp [hr], hdone, nofun⟩
  | load id' hw =>
    subst hw
    obtain ⟨b, hb, hf, hzero⟩ := h.finished i id hfin
    refine ⟨b, hb, hf, fun hc => ?_⟩
    rcases Bool.or_eq_true_iff.mp hc with hold | hnew
    · exact hzero hold
    · obtain ⟨hid, hclean⟩ : m.finished = some id' ∧
          (w'.batch id').hasFailures = false := by simpa using hnew
      obtain rfl : id = id' := some.inj (hfin.symm.trans hid)
      obtain ⟨reports, hacc⟩ := hl.accounts id b hb
      have hnonneg := hacc.failed
      simp only [BatchWorld.batch, hb, getD_some, Batch.hasFailures,
        decide_eq_false_iff_not] at hclean
      omega
  | _ => exact hkept hfin fun hc => hc

end

attribute [local simp] BatchOp.firesThen

theorem guarded {m : BatchThread} (hg : m.Guard o) {id : BatchID} (h : o.firesThen id = true) :
    m.finished = some id ∧ m.clean = true := by
  cases o with
  | go kind id' =>
    cases kind with
    | callbackThen =>
      obtain rfl : id' = id := by simpa using h
      exact hg
    | _ => simp at h
  | pushCallback job =>
    obtain ⟨hkind, rfl⟩ : job.kind = .callbackThen ∧ job.batchID = id := by
      simpa using h
    exact hg hkind
  | _ => simp at h

theorem step (h : BatchOutcomes w log) (hl : BatchLedger ids w log)
    (he : BatchEffect ids w w' o r) (hg : (threadOf log i).Guard o) :
    BatchOutcomes w' (log ++ [⟨i, o, r⟩]) := by
  have hstays : ∀ {id b}, w.repo.batches.lookup id = some b → b.finished = true →
      b.failedJobs = 0 → ∃ b', w'.repo.batches.lookup id = some b' ∧ b'.finished = true ∧
        b'.failedJobs = 0 := by
    intro id b hb hf hzero
    obtain ⟨b', hb', hf', hfailed⟩ := hl.terminal he hg hb hf
    exact ⟨b', hb', hf', hfailed.trans hzero⟩
  constructor
  case finished =>
    intro j id hj
    rw [threadOf_concat] at hj ⊢
    split at hj
    · next hij =>
      subst hij
      simpa using h.acting hl he hg hj
    · next hij => exact h.kept hl he hg hj fun hc => by simpa [hij] using hc
  case fired =>
    intro ev hev id hfires
    rcases mem_concat.mp hev with hev | rfl
    · obtain ⟨b, hb, hf, hzero⟩ := h.fired ev hev id hfires
      exact hstays hb hf hzero
    · obtain ⟨hfin, hclean⟩ := guarded hg hfires
      obtain ⟨b, hb, hf, hzero⟩ := h.finished i id hfin
      exact hstays hb hf (hzero hclean)

end BatchOutcomes

theorem batch_run (ids : ℕ ↪ BatchID) (acts : List (Act BatchEnv BatchCall)) :
    let p := (batchSystem ids).run (Pool.start {}) acts
    BatchLedger ids p.world p.log ∧ BatchOutcomes p.world p.log := by
  refine (batchSystem ids).invariant BatchThread.monitor
    (I := fun w log => BatchLedger ids w log ∧ BatchOutcomes w log)
    BatchThread.wp_body ⟨BatchLedger.start, BatchOutcomes.start⟩
    (fun _ _ _ _ _ => trivial) ?_ acts
  rintro w log i env o ⟨hl, h⟩ hg
  have he := w.exec_effect ids env o
  exact ⟨hl.step he hg, h.step hl he hg⟩

/-- A batch whose Then callback was fired has finished without a failed job, and all its jobs
completed if and only if no slot was skipped or drained. -/
theorem then_fired (ids : ℕ ↪ BatchID) (acts : List (Act BatchEnv BatchCall)) (id : BatchID)
    (h : ((batchSystem ids).run (Pool.start {}) acts).log.any (fun ev => ev.op.firesThen id) = true) :
    let p := (batchSystem ids).run (Pool.start {}) acts
    ∃ b, p.world.repo.batches.lookup id = some b ∧ b.finished = true ∧ b.failedJobs = 0 ∧
      (b.completedJobs = b.totalJobs ↔ skips id p.log = 0) := by
  intro p
  obtain ⟨hl, hout⟩ := batch_run ids acts
  obtain ⟨ev, hev, hfires⟩ := List.any_eq_true.mp h
  obtain ⟨b, hb, hfin, hfailed⟩ := hout.fired ev hev id hfires
  obtain ⟨reports, hacc⟩ := hl.accounts id b hb
  have hpending := hacc.finished.mp hfin
  have hslots : b.pendingJobs + b.completedJobs + b.failedJobs + skips id p.log = b.totalJobs :=
    hacc.slots
  refine ⟨b, hb, hfin, hfailed, ?_⟩
  constructor
  · intro hall
    omega
  · intro hskips
    omega

def batchIDs : ℕ ↪ BatchID where
  toFun n := String.ofList ('b' :: List.replicate n 'b')
  inj' m n h := by
    have hh := congrArg List.length (String.ofList_injective h)
    simpa using hh

def oneJob : PendingBatch where
  jobs := [some { type := "T", data := some "{}", batch := .id "" }]
  thenFn := true
  thenName := "report"

def runs (tid steps : Nat) (env : BatchEnv := {}) : List (Act BatchEnv BatchCall) :=
  List.replicate steps (.run tid env)

def successRun : List (Act BatchEnv BatchCall) :=
  .spawn (.dispatch oneJob) :: runs 0 6 ++ .spawn (.recordSuccess "b") :: runs 1 16

theorem then_fired_successRun :
    let p := (batchSystem batchIDs).run (Pool.start {}) successRun
    p.log.any (fun ev => ev.op.firesThen "b") = true ∧ skips "b" p.log = 0 ∧
      ∃ b, p.world.repo.batches.lookup "b" = some b ∧ b.finished = true ∧
        b.completedJobs = b.totalJobs := by
  intro p
  have h : p.log.any (fun ev => ev.op.firesThen "b") = true := by decide
  have hskips : skips "b" p.log = 0 := by decide
  obtain ⟨b, hb, hfin, -, hall⟩ := then_fired batchIDs successRun "b" h
  exact ⟨h, hskips, b, hb, hfin, hall.mpr hskips⟩

def skipRun : List (Act BatchEnv BatchCall) :=
  .spawn (.dispatch oneJob) :: runs 0 6 ++ .spawn (.cancelCtx "b") :: runs 1 5 ++
    .spawn (.recordSkip "b") :: runs 2 14

def drainRun : List (Act BatchEnv BatchCall) :=
  .spawn (.dispatch oneJob) :: runs 0 4 ++ runs 0 18 { pushErr := some (.text "connection refused") }

def firesUncompleted (acts : List (Act BatchEnv BatchCall)) : Bool :=
  let p := (batchSystem batchIDs).run (Pool.start {}) acts
  p.log.any (fun ev => ev.op = .go .callbackThen "b") &&
    p.log.any (fun ev => ev.op = .pushCallback ⟨"b", "report", .callbackThen, ""⟩) &&
    (p.world.repo.batches.lookup "b").any fun b =>
      b.finished && b.completedJobs = 0 && b.totalJobs = 1

theorem then_fires_uncompleted :
    firesUncompleted skipRun = true ∧ firesUncompleted drainRun = true := by
  decide

end Velocity.Queue
