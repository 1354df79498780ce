import Velocity.Queue.DeleteOnPop

/-! Attempt counters that jobs share. The pumps of one worker are followed through the queue, the
state of each pump, the starts of each job and the counters. Counters only fall when one is dropped,
and a drop is harmless to the jobs that were not started yet. -/

namespace Velocity.Queue

open Interleave Function Attempt WorkerOp

def Attempt.Holds (m : Attempt) (job : Job) : Prop :=
  m.job = some job ∧ m.dropped = false ∧ m.pushed = false

structure Pumps where
  queue : List Job
  pump : Nat → Attempt
  starts : Nat → Nat
  counter : JobKey → Nat

def Pumps.Outstanding (p : Pumps) (job : Job) : Prop :=
  job ∈ p.queue ∨ ∃ i, (p.pump i).Holds job

section

variable (jobs : List Job) (key : Job → JobKey) (budget : Job → Int)

def Pumps.Waits (p : Pumps) (job : Job) : Prop :=
  p.starts job.uid = 0 ∨ p.starts job.uid ≤ p.counter (key job) ∧ (p.starts job.uid : Int) < budget job

def Pumps.Runs (p : Pumps) (job : Job) : Option Nat → Prop
  | none => p.starts job.uid ≤ p.counter (key job) + 1
  | some n => p.starts job.uid ≤ n ∧ p.starts job.uid ≤ p.counter (key job)

structure Pumps.Inv (p : Pumps) : Prop where
  nodup : (p.queue.map (·.uid)).Nodup
  queued : ∀ j ∈ p.queue, j ∈ jobs
  popped : ∀ i j, (p.pump i).job = some j → j ∈ jobs
  apart : ∀ i j, (p.pump i).Holds j → ∀ j' ∈ p.queue, j'.uid ≠ j.uid
  single : ∀ i i' j j', (p.pump i).Holds j → (p.pump i').Holds j' → j.uid = j'.uid → i = i'
  waits : ∀ j ∈ p.queue, p.Waits key budget j
  ready : ∀ i j, (p.pump i).Holds j → (p.pump i).started = false → p.Waits key budget j
  runs : ∀ i j, (p.pump i).Holds j → (p.pump i).started = true →
    1 ≤ p.starts j.uid ∧ p.Runs key j (p.pump i).counted
  bounded : ∀ j ∈ jobs, (p.starts j.uid : Int) ≤ max 1 (budget j)
  done : ∀ i j, (p.pump i).job = some j → (p.pump i).dropped = true →
    ∀ j', p.Outstanding j' → j'.uid ≠ j.uid

end

variable {m : Attempt}

namespace Pumps.Inv

variable {jobs : List Job} {key : Job → JobKey} {budget : Job → Int} {p : Pumps} {i : Nat}
  {job : Job} (h : p.Inv jobs key budget) {s : Bool}

include h

theorem mem_jobs (ho : p.Outstanding job) : job ∈ jobs := by
  rcases ho with hq | ⟨i, hj⟩
  · exact h.queued job hq
  · exact h.popped i job hj.1

theorem alone (hold : (p.pump i).Holds job) :
    ∀ i' j, i' ≠ i → (p.pump i').Holds j → j.uid ≠ job.uid := fun i' j hii hj he =>
  hii (h.single i' i j job hj hold he)

theorem of_update {p' : Pumps} (hpump : p'.pump = update p.pump i m) (hm : m.job = some job)
    (hjob : p.Outstanding job) (halone : ∀ i' j, i' ≠ i → (p.pump i').Holds j → j.uid ≠ job.uid)
    (hnodup : (p'.queue.map (·.uid)).Nodup)
    (hqueue : ∀ j ∈ p'.queue, j = job ∨ j ∈ p.queue ∧ j.uid ≠ job.uid)
    (hapart : m.Holds job ∨ m.dropped = true → job ∉ p'.queue)
    (hwait : job ∈ p'.queue ∨ m.Holds job ∧ m.started = false → p'.Waits key budget job)
    (hrun : m.Holds job → m.started = true → 1 ≤ p'.starts job.uid ∧ p'.Runs key job m.counted)
    (hwaits : ∀ j, p.Outstanding j → j.uid ≠ job.uid → p.Waits key budget j → p'.Waits key budget j)
    (hruns : ∀ j c, p.Outstanding j → j.uid ≠ job.uid → 1 ≤ p.starts j.uid ∧ p.Runs key j c →
      1 ≤ p'.starts j.uid ∧ p'.Runs key j c)
    (bounded : ∀ j ∈ jobs, (p'.starts j.uid : Int) ≤ max 1 (budget j)) : p'.Inv jobs key budget := by
  have hself : p'.pump i = m := by rw [hpump, update_self]
  have hother : ∀ i', i' ≠ i → p'.pump i' = p.pump i' := fun i' hii => by
    rw [hpump, update_of_ne hii]
  have hholds : ∀ i' j, (p'.pump i').Holds j →
      i' = i ∧ j = job ∧ m.Holds job ∨ i' ≠ i ∧ (p.pump i').Holds j := by
    intro i' j hj
    rcases eq_or_ne i' i with rfl | hii
    · rw [hself] at hj
      obtain rfl : j = job := Option.some.inj (hj.1.symm.trans hm)
      exact .inl ⟨rfl, rfl, hj⟩
    · exact .inr ⟨hii, hother i' hii ▸ hj⟩
  have hout : ∀ j, p'.Outstanding j → p.Outstanding j := by
    rintro j (hj | ⟨i', hj⟩)
    · rcases hqueue j hj with rfl | ⟨hj, -⟩
      · exact hjob
      · exact .inl hj
    · rcases hholds i' j hj with ⟨-, rfl, -⟩ | ⟨-, hj⟩
      · exact hjob
      · exact .inr ⟨i', hj⟩
  have hoff : m.Holds job ∨ m.dropped = true → ∀ j ∈ p'.queue, j.uid ≠ job.uid := by
    intro hm j hj
    rcases hqueue j hj with rfl | ⟨-, hu⟩
    · exact absurd hj (hapart hm)
    · exact hu
  refine ⟨hnodup, fun j hj => h.mem_jobs (hout j (.inl hj)), fun i' j hj => ?_,
    fun i' j hj j' hj' => ?_, fun i₁ i₂ j₁ j₂ hj₁ hj₂ he => ?_, fun j hj => ?_,
    fun i' j hj hs => ?_, fun i' j hj hs => ?_, bounded, fun i' j hj hd j' hj' => ?_⟩
  · rcases eq_or_ne i' i with rfl | hii
    · obtain rfl : job = j := Option.some.inj (hm.symm.trans (hself ▸ hj))
      exact h.mem_jobs hjob
    · exact h.popped i' j (hother i' hii ▸ hj)
  · rcases hholds i' j hj with ⟨-, rfl, hm⟩ | ⟨hii, hj⟩
    · exact hoff (.inl hm) j' hj'
    · rcases hqueue j' hj' with rfl | ⟨hj', -⟩
      · exact (halone i' j hii hj).symm
      · exact h.apart i' j hj j' hj'
  · rcases hholds i₁ j₁ hj₁ with ⟨rfl, rfl, -⟩ | ⟨hi₁, hj₁⟩
    · rcases hholds i₂ j₂ hj₂ with ⟨rfl, -⟩ | ⟨hi₂, hj₂⟩
      · rfl
      · exact absurd he.symm (halone i₂ j₂ hi₂ hj₂)
    · rcases hholds i₂ j₂ hj₂ with ⟨-, rfl, -⟩ | ⟨-, hj₂⟩
      · exact absurd he (halone i₁ j₁ hi₁ hj₁)
      · exact h.single i₁ i₂ j₁ j₂ hj₁ hj₂ he
  · rcases hqueue j hj with rfl | ⟨hj, hu⟩
    · exact hwait (.inl hj)
    · exact hwaits j (.inl hj) hu (h.waits j hj)
  · rcases hholds i' j hj with ⟨rfl, rfl, hm⟩ | ⟨hii, hj⟩
    · exact hwait (.inr ⟨hm, hself ▸ hs⟩)
    · exact hwaits j (.inr ⟨i', hj⟩) (halone i' j hii hj) (h.ready i' j hj (hother i' hii ▸ hs))
  · rcases hholds i' j hj with ⟨rfl, rfl, hm⟩ | ⟨hii, hj⟩
    · rw [hself] at hs ⊢
      exact hrun hm hs
    · rw [hother i' hii] at hs ⊢
      exact hruns j _ (.inr ⟨i', hj⟩) (halone i' j hii hj) (h.runs i' j hj hs)
  · rcases eq_or_ne i' i with rfl | hii
    · obtain rfl : job = j := Option.some.inj (hm.symm.trans (hself ▸ hj))
      rw [hself] at hd
      rcases hj' with hj' | ⟨i'', hj'⟩
      · exact hoff (.inr hd) j' hj'
      · rcases hholds i'' j' hj' with ⟨-, -, hm⟩ | ⟨hii, hj'⟩
        · exact absurd hd (by simp [hm.2.1])
        · exact halone i'' j' hii hj'
    · rw [hother i' hii] at hj hd
      exact h.done i' j hj hd j' (hout j' hj')

theorem start_step (hnd : (jobs.map (·.uid)).Nodup)
    (hi : p.pump i = ⟨some job, false, none, false, false⟩) : ({ p with
        pump := update p.pump i ⟨some job, true, none, false, false⟩
        starts := update p.starts job.uid (p.starts job.uid + 1) } : Pumps).Inv
      jobs key budget := by
  have hold : (p.pump i).Holds job := by rw [hi]; exact ⟨rfl, rfl, rfl⟩
  have hwait := h.ready i job hold (by rw [hi])
  have hoff : job ∉ p.queue := fun hq => h.apart i job hold job hq rfl
  refine h.of_update rfl rfl (.inr ⟨i, hold⟩) (h.alone hold) h.nodup
    (fun j hj => .inr ⟨hj, h.apart i job hold j hj⟩) (fun _ => hoff) (by simp [hoff])
    (fun _ _ => ?_) (fun j _ hu hj => ?_) (fun j c _ hu hj => ?_) fun j hj => ?_
  · simp only [update_self, Runs]
    rcases hwait with h0 | ⟨hle, -⟩
    · omega
    · omega
  · simpa [Waits, update_of_ne hu] using hj
  · cases c <;> simpa [Runs, update_of_ne hu] using hj
  · by_cases hu : j.uid = job.uid
    · obtain rfl : j = job := List.inj_on_of_nodup_map hnd hj (h.popped i job hold.1) hu
      simp only [update_self]
      rcases hwait with h0 | ⟨-, hlt⟩
      · omega
      · omega
    · simp only [update_of_ne hu]
      exact h.bounded j hj

theorem count_step (hi : p.pump i = ⟨some job, s, none, false, false⟩) :
    let n := p.counter (key job) + 1
    ({ p with
        pump := update p.pump i ⟨some job, s, some n, false, false⟩
        counter := update p.counter (key job) n } : Pumps).Inv jobs key budget := by
  intro n
  have hold : (p.pump i).Holds job := by rw [hi]; exact ⟨rfl, rfl, rfl⟩
  have hoff : job ∉ p.queue := fun hq => h.apart i job hold job hq rfl
  have hmono : ∀ k, p.counter k ≤ update p.counter (key job) n k := by
    intro k
    by_cases hk : k = key job
    · subst hk
      simp [n]
    · simp [update_of_ne hk]
  have hwaits : ∀ j, p.Waits key budget j → ({ p with
      counter := update p.counter (key job) n } : Pumps).Waits key budget j := by
    intro j hj
    rcases hj with h0 | ⟨hle, hlt⟩
    · exact .inl h0
    · exact .inr ⟨hle.trans (hmono _), hlt⟩
  refine h.of_update rfl rfl (.inr ⟨i, hold⟩) (h.alone hold) h.nodup
    (fun j hj => .inr ⟨hj, h.apart i job hold j hj⟩) (fun _ => hoff) ?_
    (fun _ hs => ?_) (fun j _ _ => hwaits j) (fun j c _ _ hj => ⟨hj.1, ?_⟩) h.bounded
  · rintro (hq | ⟨-, hs⟩)
    · exact absurd hq hoff
    · exact hwaits job (h.ready i job hold (by rw [hi]; exact hs))
  · have hr := h.runs i job hold (by rw [hi]; exact hs)
    simp only [update_self, Runs, hi] at hr ⊢
    exact ⟨hr.1, by omega, by omega⟩
  · have hr := hj.2
    have hle := hmono (key j)
    cases c with
    | none | some c =>
      simp only [Runs] at hr ⊢
      omega

theorem pop_step {k : Nat} (hk : p.queue[k]? = some job) : ({ p with
        queue := p.queue.eraseIdx k
        pump := update p.pump i ⟨some job, false, none, false, false⟩ } : Pumps).Inv
      jobs key budget := by
  obtain ⟨hlt, hjob⟩ := List.getElem?_eq_some_iff.mp hk
  have hperm : (job :: p.queue.eraseIdx k).Perm p.queue := hjob ▸ List.getElem_cons_eraseIdx_perm hlt
  have hmem : job ∈ p.queue := hperm.subset (by simp)
  obtain ⟨hout, hnd⟩ := List.nodup_cons.mp ((hperm.map (·.uid)).nodup_iff.mpr h.nodup)
  have hapart : ∀ j ∈ p.queue.eraseIdx k, j.uid ≠ job.uid := fun j hj he =>
    hout (List.mem_map.mpr ⟨j, hj, he⟩)
  exact h.of_update rfl rfl (.inl hmem) (fun i' j _ hj => (h.apart i' j hj job hmem).symm) hnd
    (fun j hj => .inr ⟨hperm.subset (by simp [hj]), hapart j hj⟩) (fun _ hq => hapart job hq rfl)
    (fun _ => h.waits job hmem) (by simp) (fun _ _ _ hj => hj) (fun _ _ _ _ hj => hj) h.bounded

attribute [local simp] Attempt.Holds

theorem push_step {n : Nat}
    (hi : p.pump i = ⟨some job, true, some n, false, false⟩) (hn : (n : Int) < budget job) :
    ({ p with
        queue := p.queue ++ [job]
        pump := update p.pump i ⟨some job, true, some n, false, true⟩ } : Pumps).Inv
      jobs key budget := by
  have hold : (p.pump i).Holds job := by rw [hi]; exact ⟨rfl, rfl, rfl⟩
  have hruns := (h.runs i job hold (by rw [hi])).2
  rw [hi] at hruns
  have hwait : p.Waits key budget job := by
    obtain ⟨hle, hc⟩ := hruns
    exact .inr ⟨hc, by omega⟩
  refine h.of_update rfl rfl (.inr ⟨i, hold⟩) (h.alone hold) ?_ (fun j hj => ?_)
    (by simp) (fun _ => hwait) (by simp) (fun _ _ _ hj => hj)
    (fun _ _ _ _ hj => hj) h.bounded
  · rw [List.map_append]
    refine List.nodup_append.mpr ⟨h.nodup, by simp, ?_⟩
    rintro u hu _ hlast rfl
    obtain ⟨j, hj, rfl⟩ := List.mem_map.mp hu
    exact h.apart i job hold j hj (by simpa using hlast)
  · rcases List.mem_append.mp hj with hj | hj
    · exact .inr ⟨hj, h.apart i job hold j hj⟩
    · exact .inl (List.mem_singleton.mp hj)

theorem drop_step {n : Option Nat} (hi : p.pump i = ⟨some job, s, n, false, false⟩)
    (hother : ∀ j, p.Outstanding j → j.uid ≠ job.uid → key j = key job → p.starts j.uid = 0) :
    ({ p with
        pump := update p.pump i ⟨some job, s, n, true, false⟩
        counter := update p.counter (key job) 0 } : Pumps).Inv jobs key budget := by
  have hold : (p.pump i).Holds job := by rw [hi]; exact ⟨rfl, rfl, rfl⟩
  have hoff : job ∉ p.queue := fun hq => h.apart i job hold job hq rfl
  refine h.of_update rfl rfl (.inr ⟨i, hold⟩) (h.alone hold) h.nodup
    (fun j hj => .inr ⟨hj, h.apart i job hold j hj⟩) (fun _ => hoff) (by simp [hoff])
    (by simp) (fun j ho hu hj => ?_) (fun j c ho hu hj => ?_) h.bounded
  · by_cases hk : key j = key job
    · exact .inl (hother j ho hu hk)
    · simpa [Waits, update_of_ne hk] using hj
  · by_cases hk : key j = key job
    · have h0 := hother j ho hu hk
      omega
    · cases c <;> simpa [Runs, update_of_ne hk] using hj

end Pumps.Inv

def WorkerOp.startsJob {Op : Type} (uid : Nat) : WorkerOp Op → Bool
  | .startHandler job => job.uid = uid
  | _ => false

def WorkerOp.drops {Op : Type} : WorkerOp Op → Bool
  | .removeAttempts _ _ => true
  | _ => false

def startsOf (log : WorkerLog QueueOp.Res) (uid : Nat) : Nat :=
  (log.filter fun ev => ev.op.startsJob uid).length

def startedBy (log : WorkerLog QueueOp.Res) (i uid : Nat) : Bool :=
  log.any fun ev => ev.tid = i && ev.op.startsJob uid

/-- A pump that started the job has dropped its counter since. -/
def finished (log : WorkerLog QueueOp.Res) (uid : Nat) : Bool :=
  log.any fun ev => ev.op.drops && startedBy log ev.tid uid

/-- When a counter is dropped, the other jobs of its key are not started yet or finished. -/
def DropsAlone (opts : WorkerOptions) (jobs : List Job) : WorkerLog QueueOp.Res → Prop :=
  EachAfter fun pre ev => ∀ job ∈ jobs,
    ev.op = .removeAttempts opts.name ((deleteOnPopWorker opts).jobKey job) →
    startedBy pre ev.tid job.uid = true ∨ startsOf pre job.uid = 0 ∨ finished pre job.uid = true

instance (opts : WorkerOptions) (jobs : List Job) (log : WorkerLog QueueOp.Res) :
    Decidable (DropsAlone opts jobs log) :=
  inferInstanceAs (Decidable (EachAfter _ log))

def attemptOf (opts : WorkerOptions) (log : WorkerLog QueueOp.Res) : Nat → Attempt :=
  (Attempt.monitor opts).stateOf log

def pumpsOf (opts : WorkerOptions) (w : WorkerWorld (List Job))
    (log : WorkerLog QueueOp.Res) : Pumps where
  queue := w.driver
  pump := attemptOf opts log
  starts := startsOf log
  counter := w.attempts opts.name

abbrev Tallied (opts : WorkerOptions) (jobs : List Job) (w : WorkerWorld (List Job))
    (log : WorkerLog QueueOp.Res) : Prop :=
  (pumpsOf opts w log).Inv jobs (deleteOnPopWorker opts).jobKey (deleteOnPopWorker opts).maxAttempts

section Runs

variable {opts : WorkerOptions} {jobs : List Job} {w : WorkerWorld (List Job)}
  {log : WorkerLog QueueOp.Res} {i : Nat} {job : Job}

theorem attemptOf_update (o : WorkerOp QueueOp) (r : WorkerOp.Res QueueOp.Res o) :
    attemptOf opts (log ++ [⟨i, o, r⟩]) = update (attemptOf opts log) i
        (next (attemptOf opts log i) o r) := by
  funext i'
  refine (Monitor.stateOf_concat (monitor opts) log ⟨i, o, r⟩ i').trans ?_
  by_cases hii : i' = i
  · subst hii
    rfl
  · exact (if_neg (Ne.symm hii)).trans (update_of_ne hii _ _).symm

theorem startsOf_concat (o : WorkerOp QueueOp) (r : WorkerOp.Res QueueOp.Res o) (uid : Nat) :
    startsOf (log ++ [⟨i, o, r⟩]) uid = startsOf log uid + if o.startsJob uid then 1 else 0 := by
  by_cases h : o.startsJob uid = true <;> simp [startsOf, h]

theorem startsOf_update (job : Job) (r : Unit) : startsOf (log ++ [⟨i, .startHandler job, r⟩]) =
      update (startsOf log) job.uid (startsOf log job.uid + 1) := by
  funext uid
  rw [startsOf_concat]
  by_cases hu : uid = job.uid
  · subst hu
    simp [startsJob]
  · simp [startsJob, update_of_ne hu, Ne.symm hu]

theorem setAttempts_update (key : JobKey) (n : Nat) :
    (w.setAttempts opts.name key n).attempts opts.name =
      update (w.attempts opts.name) key n := by
  funext k
  by_cases hk : k = key
  · subst hk
    simp [WorkerWorld.setAttempts]
  · simp [WorkerWorld.setAttempts, hk]

variable {o : WorkerOp QueueOp}

theorem pumpsOf_concat {r : WorkerOp.Res QueueOp.Res o}
    (hn : next (attemptOf opts log i) o r = m) (hs : ∀ uid, o.startsJob uid = false) :
    pumpsOf opts w (log ++ [⟨i, o, r⟩]) =
      { pumpsOf opts w log with pump := update (attemptOf opts log) i m } := by
  have hst : startsOf (log ++ [⟨i, _, r⟩]) = startsOf log := by
    funext uid
    simp [startsOf_concat, hs uid]
  simp only [pumpsOf, attemptOf_update, hn, hst]

theorem next_job (hg : m.Guard opts o)
    (hj : m.job = some job) (r : WorkerOp.Res QueueOp.Res o) : (m.next o r).job = some job := by
  cases o with
  | driver o =>
    cases o with
    | pop q =>
      obtain rfl : m = {} := hg
      simp at hj
    | pushDelayed j d q => rcases r with e | u <;> exact hj
    | recordFailed j e q => exact hj
  | _ => exact hj

def Starters (opts : WorkerOptions) (log : WorkerLog QueueOp.Res) : Prop :=
  ∀ i uid, startedBy log i uid = true → ∃ job, (attemptOf opts log i).job = some job ∧ job.uid = uid

theorem Starters.concat (h : Starters opts log) (hg : Attempt.Guard opts (attemptOf opts log i) o)
    (r : WorkerOp.Res QueueOp.Res o) : Starters opts (log ++ [⟨i, o, r⟩]) := by
  intro i' uid hst
  rw [attemptOf_update]
  rw [startedBy, List.any_append, Bool.or_eq_true] at hst
  rcases hst with hst | hst
  · obtain ⟨job, hj, hu⟩ := h i' uid hst
    by_cases hii : i' = i
    · subst hii
      exact ⟨job, by simpa using next_job hg hj r, hu⟩
    · exact ⟨job, by simpa [update_of_ne hii] using hj, hu⟩
  · simp only [List.any_cons, List.any_nil, Bool.or_false, Bool.and_eq_true,
      decide_eq_true_eq] at hst
    obtain ⟨rfl, hs⟩ := hst
    cases o <;> simp only [startsJob, decide_eq_true_eq, reduceCtorEq] at hs
    next job =>
      refine ⟨job, ?_, hs⟩
      have hm : attemptOf opts log i = ⟨some job, _, _, _, _⟩ := hg
      simp [hm, next]

theorem dropped_of_mem {ev : Event (WorkerOp.Res QueueOp.Res)} (h : ev ∈ log)
    (hd : ev.op.drops = true) : (attemptOf opts log ev.tid).dropped = true := by
  refine Monitor.stateOf_of_mem (monitor opts) (f := fun m : Attempt => m.dropped = true)
    (P := fun o => o.drops = true) (fun m o r hm => ?_) (fun m o r ho => ?_) h hd
  · cases o with
    | driver o => cases o <;> rcases r with e | _ | _ <;> exact hm
    | removeAttempts v key => rfl
    | _ => exact hm
  · cases o <;> simp [drops] at ho
    rfl

theorem finished_iff {uid : Nat} : finished log uid = true ↔
    ∃ ev ∈ log, ev.op.drops = true ∧ startedBy log ev.tid uid = true := by
  simp [finished]

theorem starts_eq_zero_of_drop
    (h : Tallied opts jobs w log) (hst : Starters opts log) (hi : (attemptOf opts log i).job = some job)
    (hd : ∀ j ∈ jobs, (deleteOnPopWorker opts).jobKey j = (deleteOnPopWorker opts).jobKey job →
      startedBy log i j.uid = true ∨ startsOf log j.uid = 0 ∨ finished log j.uid = true)
    {j : Job} (ho : (pumpsOf opts w log).Outstanding j) (hu : j.uid ≠ job.uid)
    (hk : (deleteOnPopWorker opts).jobKey j = (deleteOnPopWorker opts).jobKey job) :
    startsOf log j.uid = 0 := by
  rcases hd j (h.mem_jobs ho) hk with hs | h0 | hf
  · obtain ⟨job', hj', hu'⟩ := hst i j.uid hs
    obtain rfl : job = job' := Option.some.inj (hi.symm.trans hj')
    exact absurd hu'.symm hu
  · exact h0
  · obtain ⟨ev, hev, hdrop, hs⟩ := finished_iff.mp hf
    obtain ⟨job', hj', hu'⟩ := hst ev.tid j.uid hs
    exact absurd hu'.symm (h.done ev.tid job' hj' (dropped_of_mem hev hdrop) j ho)

section

variable (hnd : (jobs.map (·.uid)).Nodup)

include hnd

theorem pumps_step (hst : Starters opts log) (h : Tallied opts jobs w log) (e : WorkerEnv QueueEnv)
    (hg : Attempt.Guard opts (attemptOf opts log i) o)
    (hd : ∀ job ∈ jobs, o = .removeAttempts opts.name ((deleteOnPopWorker opts).jobKey job) →
      startedBy log i job.uid = true ∨ startsOf log job.uid = 0 ∨ finished log job.uid = true) :
    Tallied opts jobs (workerExec queueExec w e o).2
      (log ++ [⟨i, o, (workerExec queueExec w e o).1⟩]) := by
  have hplain : ∀ (o' : WorkerOp QueueOp) (r : Res QueueOp.Res o'),
      next (attemptOf opts log i) o' r = attemptOf opts log i →
      (∀ uid, o'.startsJob uid = false) → Tallied opts jobs w (log ++ [⟨i, o', r⟩]) := by
    intro o' r hn hs
    rw [Tallied, pumpsOf_concat hn hs, update_eq_self]
    exact h
  cases o with
  | driver o =>
    cases hf : e.driver.fault with
    | some err =>
      cases o <;> simp only [workerExec, queueExec, hf] <;> exact hplain _ _ rfl fun _ => rfl
    | none =>
      cases o with
      | pop q =>
        have hi : attemptOf opts log i = {} := hg
        cases hp : e.driver.pick with
        | none =>
          simp only [workerExec, queueExec, hf, hp]
          exact hplain _ _ rfl fun _ => rfl
        | some k =>
          simp only [workerExec, queueExec, hf, hp]
          cases hk : w.driver[k]? with
          | none =>
            rw [List.eraseIdx_of_length_le (List.getElem?_eq_none_iff.mp hk)]
            exact hplain _ _ rfl fun _ => rfl
          | some job =>
            rw [Tallied, pumpsOf_concat (congrArg (next · _ _) hi) fun _ => rfl]
            exact h.pop_step hk
      | pushDelayed job d q =>
        obtain ⟨n, hi, hn⟩ := hg
        simp only [workerExec, queueExec, hf]
        rw [Tallied, pumpsOf_concat (congrArg (next · _ _) hi) fun _ => rfl]
        exact h.push_step hi hn
      | recordFailed job err q =>
        simp only [workerExec, queueExec, hf]
        exact hplain _ _ rfl fun _ => rfl
  | startHandler job =>
    have hi : attemptOf opts log i = ⟨some job, _, _, _, _⟩ := hg
    have hstep := h.start_step hnd hi
    simp only [Tallied, workerExec, pumpsOf, attemptOf_update, hi, next, startsOf_update]
    exact hstep
  | incrementAttempts v key =>
    obtain ⟨job, s, hi, rfl, rfl⟩ := hg
    simp only [workerExec]
    rw [Tallied, pumpsOf_concat (congrArg (next · _ _) hi) fun _ => rfl, pumpsOf, setAttempts_update]
    exact h.count_step hi
  | removeAttempts v key =>
    obtain ⟨job, s, n, hi, rfl, rfl⟩ := hg
    have hstep := h.drop_step hi fun j ho hu hk =>
      starts_eq_zero_of_drop h hst (by rw [hi]) (fun j hj hk => hd j hj (by rw [hk])) ho hu hk
    simp only [workerExec]
    rw [Tallied, pumpsOf_concat (congrArg (next · _ _) hi) fun _ => rfl, pumpsOf, setAttempts_update]
    exact hstep
  | _ => exact hplain _ _ rfl fun _ => rfl

theorem pumps_start : Tallied opts jobs { driver := jobs } [] where
  nodup := hnd
  queued _ hj := hj
  popped := nofun
  apart _ _ h := nomatch h.1
  single _ _ _ _ h := nomatch h.1
  waits _ _ := .inl rfl
  ready _ _ h := nomatch h.1
  runs _ _ h := nomatch h.1
  bounded j _ := by
    show ((0 : Nat) : Int) ≤ _
    omega
  done := nofun

abbrev WorkerActs := List (Act (WorkerEnv QueueEnv) (WorkerCall Unit Empty))

theorem pumps_run (acts : WorkerActs) :
    let p := (deleteOnPopWorkers opts).run (.start { driver := jobs }) acts
    DropsAlone opts jobs p.log → Tallied opts jobs p.world p.log := by
  refine (System.invariant (deleteOnPopWorkers opts) (monitor opts)
    (I := fun w l => Starters opts l ∧ (DropsAlone opts jobs l → Tallied opts jobs w l))
    (fun c => ?_) ⟨fun i uid h => by simp [startedBy] at h, fun _ => pumps_start hnd⟩
    (fun _ _ _ _ _ => trivial) (fun w l i e o ⟨hst, hinv⟩ hg => ⟨hst.concat hg _, fun hd => ?_⟩)
    acts).2
  · cases c with
    | process v => exact Prog.wp_bind_of wp_processJob fun _ _ _ => trivial
    | client c => exact c.elim
  · obtain ⟨hl, hlast⟩ := eachAfter_concat.mp hd
    exact pumps_step hnd hst (hinv hl) e hg hlast

end

end Runs

def twinJob (uid : Nat) : Job :=
  { uid, type := "report", data := some "x", maxAttempts := some 2 }

def twinOptions : WorkerOptions := { name := "w", queueName := "default" }

/-- A pump that pops the job at position `pick` and whose handler ends as `ended`. -/
def pumpActs (tid pick : Nat) (ended : HandlerEnd) (steps : Nat) : WorkerActs :=
  .spawn (.process ()) ::
    List.replicate steps (.run tid { driver := { pick := some pick }, handler := ended })

def failing : HandlerEnd := .done (some (.text "boom"))

/-- The first job fails twice. The second was never started when the counter is dropped. -/
def failTwiceRun : WorkerActs :=
  pumpActs 0 0 failing 10 ++ pumpActs 1 1 failing 10

/-- The twin of a failing job succeeds and drops the counter both share. -/
def twinRun : WorkerActs :=
  pumpActs 0 0 failing 10 ++ pumpActs 1 0 (.done none) 7 ++ pumpActs 2 0 failing 10 ++
    pumpActs 3 0 failing 4

end Velocity.Queue
