import Velocity.Queue.DatabaseWorkers

/-! The attempt budget on the database driver. A reservation raises `attempts`, and the worker
compares the raised count with the budget when a handler has failed. So a row that is given back has
attempts left; one whose lease expired is reserved again whatever its count is. -/

namespace Velocity.Queue

open Interleave List

inductive Producer
  | pushCtx (ctx : Option CtxErr) (job : Option Job) (queueName : Option String)
  | pushDelayedCtx (ctx : Option CtxErr) (job : Option Job) (delay : Duration)
      (queueName : Option String)
  | pushIfNotExistsCtx (ctx : Option CtxErr) (job : Option Job) (dedupeKey : String)
      (queueName : Option String)
  | clear (dedupeTable : Bool) (queueName : String)

def Producer.call : Producer → DbCall
  | pushCtx ctx job q => .pushCtx ctx job q
  | pushDelayedCtx ctx job delay q => .pushDelayedCtx ctx job delay q
  | pushIfNotExistsCtx ctx job key q => .pushIfNotExistsCtx ctx job key q
  | clear dedupeTable q => .clear dedupeTable q

def DbOp.isRelease : DbOp → Bool
  | .releaseReserved _ _ => true
  | _ => false

section

variable (ctx : Option CtxErr) (job : Option Job) (q : Option String)

theorem pushDelayedCtx_all (delay : Duration) :
    (DatabaseDriver.pushDelayedCtx ctx job delay q).All fun o => o.isRelease = false := by
  unfold DatabaseDriver.pushDelayedCtx
  split
  · trivial
  · split
    · trivial
    · split
      · trivial
      · refine ⟨rfl, fun res => ?_⟩
        cases res <;> trivial

theorem pushIfNotExistsCtx_all (key : String) :
    (DatabaseDriver.pushIfNotExistsCtx ctx job key q).All fun o => o.isRelease = false := by
  unfold DatabaseDriver.pushIfNotExistsCtx
  split
  · exact pushDelayedCtx_all ctx job q 0
  · split
    · trivial
    · split
      · trivial
      · split
        · trivial
        · refine ⟨rfl, fun res => ?_⟩
          cases res <;> trivial

end

theorem Producer.all (c : Producer) : c.call.body.All fun o => o.isRelease = false := by
  cases c with
  | pushCtx ctx job q => exact (pushDelayedCtx_all ctx job q 0).bind fun _ => trivial
  | pushDelayedCtx ctx job delay q =>
    exact (pushDelayedCtx_all ctx job q delay).bind fun _ => trivial
  | pushIfNotExistsCtx ctx job key q =>
    exact (pushIfNotExistsCtx_all ctx job q key).bind fun _ => trivial
  | clear dedupeTable q =>
    refine ⟨rfl, fun res => ?_⟩
    cases res with
    | error e => trivial
    | ok u =>
      cases dedupeTable with
      | false => trivial
      | true => exact ⟨rfl, fun _ => trivial⟩

section Budget

variable (registry : Registry) (maxRetries : Int)

def attemptBudget (rec : JobRecord) : Int :=
  match registry rec.payload.payload with
  | .ok job => job.maxAttempts.getD maxRetries
  | .error _ => maxRetries

def retryWorkers :
    System (WorkerOp.Res DbOp.Res) (WorkerWorld Database) (WorkerEnv DbEnv)
      (WorkerCall (WorkerOptions × DatabaseDriver) Producer) Unit :=
  workerSystem (dbExec registry)
    (fun c => DatabaseDriver.worker ({ c.1 with maxRetries := maxRetries }, c.2))
    fun c => c.call.body

def reservesRow (id : Nat) (ev : Event DbOp.Res) : Bool :=
  match jobsEffect ev with
  | .reserves rec _ => rec.id = id
  | _ => false

/-- A reclaimed row's job has an attempt left. -/
def withinBudget (ev : Event DbOp.Res) : Bool :=
  match jobsEffect ev with
  | .reserves rec _ => rec.reservedAt.isNone ||
      decide ((rec.attempts : Int) < max 1 (attemptBudget registry maxRetries rec))
  | _ => true

def ReclaimsWithinBudget (log : Log DbOp.Res) : Prop :=
  ∀ ev ∈ log, withinBudget registry maxRetries ev = true

instance (log : Log DbOp.Res) : Decidable (ReclaimsWithinBudget registry maxRetries log) :=
  inferInstanceAs (Decidable (∀ ev ∈ log, withinBudget registry maxRetries ev = true))

end Budget

variable {registry : Registry} {maxRetries : Int} {t : ReservationToken} {o : DbOp}

theorem reservesRow_iff {id : Nat} {ev : Event DbOp.Res} :
    reservesRow id ev = true ↔ ∃ rec t, jobsEffect ev = .reserves rec t ∧ rec.id = id := by
  unfold reservesRow
  split <;> simp_all

theorem attemptBudget_congr {r s : JobRecord} (h : r.payload = s.payload) :
    attemptBudget registry maxRetries r = attemptBudget registry maxRetries s := by
  simp only [attemptBudget, h]

variable {db db' : Database} {log : Log DbOp.Res} {ev : Event DbOp.Res}

theorem countP_reserves {rec : JobRecord} (h : jobsEffect ev = .reserves rec t) (id : Nat) :
    (log ++ [ev]).countP (reservesRow id) =
      log.countP (reservesRow id) + if rec.id = id then 1 else 0 := by
  simp [countP_append, countP_singleton, reservesRow, h]

theorem countP_keeps (h : ∀ rec t, jobsEffect ev ≠ .reserves rec t) (id : Nat) :
    (log ++ [ev]).countP (reservesRow id) = log.countP (reservesRow id) := by
  have hno : ¬reservesRow id ev = true := by
    intro hres
    obtain ⟨rec, t, hev, -⟩ := reservesRow_iff.mp hres
    exact h rec t hev
  simp [countP_append, hno]

/-- How an operation leaves the rows: it reserves one of them, or it keeps the counts of all and may
add one that was never reserved. -/
inductive RowStep (db db' : Database) : JobsEffect → Prop
  | reserves {rec : JobRecord} {t : ReservationToken} : rec ∈ db.jobs → t.id = rec.id →
    t.attempts = rec.attempts + 1 → db'.nextID = db.nextID →
    (∀ r' ∈ db'.jobs, r'.id = rec.id ∧ r'.payload = rec.payload ∧ r'.attempts = rec.attempts + 1 ∧
      r'.reservedAt.isSome = true ∨ r'.id ≠ rec.id ∧ r' ∈ db.jobs) → RowStep db db' (.reserves rec t)
  | keeps {effect : JobsEffect} : (∀ rec t, effect ≠ .reserves rec t) → db.nextID ≤ db'.nextID →
    (∀ r' ∈ db'.jobs, (∃ r ∈ db.jobs, r'.id = r.id ∧ r'.payload = r.payload ∧
        r'.attempts = r.attempts ∧ (r'.reservedAt = none → r.reservedAt = none ∨
          ∃ t, effect = .releases t ∧ r.fencedBy t = true)) ∨
      r'.id = db.nextID ∧ r'.attempts = 0) → RowStep db db' effect

theorem JobsEffect.On.rowStep {effect : JobsEffect} (h : effect.On db db') (hwf : db.WellFormed) :
    RowStep db db' effect := by
  cases effect with
  | reserves rec t =>
    obtain ⟨hrec, hid, hat, hn, now, hj⟩ := h
    refine .reserves hrec hid hat hn fun r' hr' => ?_
    rw [hj] at hr'
    obtain ⟨r, hr, rfl⟩ := mem_map.mp hr'
    by_cases hid : r.id = rec.id
    · simp only [hid, if_true]
      exact .inl ⟨trivial, by rw [hwf.eq_of_id hr hrec hid], hat, rfl⟩
    · simp only [hid, if_false]
      exact .inr ⟨hid, hr⟩
  | keeps =>
    exact .keeps (by simp) h.2.ge fun r' hr' => .inl ⟨r', h.1 ▸ hr', rfl, rfl, rfl, .inl⟩
  | inserts =>
    obtain ⟨r₀, hid, hat, -, -, hj, hn⟩ := h
    refine .keeps (by simp) (by omega) fun r' hr' => ?_
    rw [hj, mem_append, mem_singleton] at hr'
    rcases hr' with hr' | rfl
    · exact .inl ⟨r', hr', rfl, rfl, rfl, .inl⟩
    · exact .inr ⟨hid, hat⟩
  | removes t =>
    refine .keeps (by simp) h.2.1.ge fun r' hr' => ?_
    rw [h.2.2] at hr'
    exact .inl ⟨r', (mem_filter.mp hr').1, rfl, rfl, rfl, .inl⟩
  | clears queue =>
    refine .keeps (by simp) h.1.ge fun r' hr' => ?_
    rw [h.2] at hr'
    exact .inl ⟨r', (mem_filter.mp hr').1, rfl, rfl, rfl, .inl⟩
  | releases t =>
    obtain ⟨-, hn, now, at_, hj⟩ := h
    refine .keeps (by simp) hn.ge fun r' hr' => ?_
    rw [hj] at hr'
    obtain ⟨r, hr, rfl⟩ := mem_map.mp hr'
    refine .inl ⟨r, hr, ?_⟩
    by_cases hf : r.fencedBy t = true
    · simp only [hf, if_true]
      exact ⟨trivial, trivial, trivial, fun _ => .inr ⟨t, rfl, hf⟩⟩
    · simp only [hf]
      exact ⟨rfl, rfl, rfl, .inl⟩

/-- The token of a reservation numbers it among those of its row. -/
def Numbered (before : Log DbOp.Res) (ev : Event DbOp.Res) : Prop :=
  ∀ rec t, jobsEffect ev = .reserves rec t → t.attempts = before.countP (reservesRow t.id) + 1

structure Counted (db : Database) (log : Log DbOp.Res) : Prop where
  wf : db.WellFormed
  rows : ∀ r ∈ db.jobs, r.attempts = log.countP (reservesRow r.id)
  fresh : ∀ id, db.nextID ≤ id → log.countP (reservesRow id) = 0
  tokens : EachAfter Numbered log

theorem counted_start : Counted {} [] :=
  ⟨Database.wellFormed_empty, by simp, fun _ _ => rfl, eachAfter_nil _⟩

theorem Counted.step (h : Counted db log) (heff : (jobsEffect ev).On db db') :
    Counted db' (log ++ [ev]) := by
  have hwf := h.wf.step (heff.jobsStep h.wf.nodup)
  have hstep := heff.rowStep h.wf
  generalize hev : jobsEffect ev = effect at hstep
  cases hstep with
  | @reserves rec t hrec hid hat hn hrows =>
    have hlt := (h.wf.bounds rec hrec).2
    refine ⟨hwf, fun r' hr' => ?_, fun id hle => ?_, eachAfter_concat.mpr ⟨h.tokens, ?_⟩⟩
    · rw [countP_reserves hev]
      rcases hrows r' hr' with ⟨hid', -, hat', -⟩ | ⟨hne, hr⟩
      · rw [if_pos hid'.symm, hid', hat', h.rows rec hrec]
      · rw [if_neg (Ne.symm hne), h.rows r' hr]
        rfl
    · rw [countP_reserves hev, if_neg (by omega), h.fresh id (by omega)]
    · intro rec' t' hev'
      obtain ⟨rfl, rfl⟩ : rec = rec' ∧ t = t' := by simpa [hev] using hev'
      rw [hid, hat, h.rows rec hrec]
  | keeps hno hn hrows =>
    have hsame : ∀ id, _ = log.countP (reservesRow id) := countP_keeps (hev ▸ hno)
    refine ⟨hwf, fun r' hr' => ?_, fun id hle => ?_, eachAfter_concat.mpr ⟨h.tokens, ?_⟩⟩
    · rw [hsame]
      rcases hrows r' hr' with ⟨r, hr, hid, -, hat, -⟩ | ⟨hid, hat⟩
      · rw [hat, hid, h.rows r hr]
      · rw [hat, hid, h.fresh _ le_rfl]
    · rw [hsame, h.fresh id (hn.trans hle)]
    · exact fun rec t hev' => absurd (hev.symm.trans hev') (hno rec t)

structure BudgetInv (registry : Registry) (maxRetries : Int) (db : Database)
    (log : Log DbOp.Res) : Prop where
  counted : Counted db log
  idle : ∀ r ∈ db.jobs, r.reservedAt = none →
    r.attempts = 0 ∨ (r.attempts : Int) < attemptBudget registry maxRetries r
  leased : ∀ ev ∈ log, ∀ rec t, jobsEffect ev = .reserves rec t → t.id = rec.id ∧
    rec.id < db.nextID ∧ (∀ r ∈ db.jobs, r.id = rec.id → r.payload = rec.payload) ∧
    (log.countP (reservesRow rec.id) : Int) ≤ max 1 (attemptBudget registry maxRetries rec)

theorem budgetInv_start : BudgetInv registry maxRetries {} [] :=
  ⟨counted_start, by simp, by simp⟩

theorem BudgetInv.step (h : BudgetInv registry maxRetries db log) (heff : (jobsEffect ev).On db db')
    (hcond : ∀ rec t, jobsEffect ev = .reserves rec t → rec.reservedAt.isSome = true →
      (rec.attempts : Int) < max 1 (attemptBudget registry maxRetries rec))
    (hrel : ∀ t, jobsEffect ev = .releases t → ∀ r ∈ db.jobs, r.fencedBy t = true →
      (r.attempts : Int) < attemptBudget registry maxRetries r) :
    BudgetInv registry maxRetries db' (log ++ [ev]) := by
  have hcounted := h.counted.step heff
  have hstep := heff.rowStep h.counted.wf
  generalize hev : jobsEffect ev = effect at hstep
  cases hstep with
  | @reserves rec t hrec htid hat hn hrows =>
    have hcount := h.counted.rows rec hrec
    have hlt : (rec.attempts : Int) < max 1 (attemptBudget registry maxRetries rec) := by
      cases hr : rec.reservedAt with
      | some at_ => exact hcond rec t hev (by simp [hr])
      | none =>
        rcases h.idle rec hrec hr with h0 | hlt
        · omega
        · omega
    refine ⟨hcounted, fun r' hr' hnone => ?_, fun x hx rec' t' ht' => ?_⟩
    · rcases hrows r' hr' with ⟨-, -, -, hsome⟩ | ⟨-, hr⟩
      · simp [hnone] at hsome
      · exact h.idle r' hr hnone
    · rcases mem_concat.mp hx with hx | rfl
      · obtain ⟨htid', hlt', hpay, hle⟩ := h.leased x hx rec' t' ht'
        refine ⟨htid', by omega, fun r' hr' hid => ?_, ?_⟩
        · rcases hrows r' hr' with ⟨hid', hp, -⟩ | ⟨-, hr⟩
          · exact hp.trans (hpay rec hrec (hid'.symm.trans hid))
          · exact hpay r' hr hid
        · rw [countP_reserves hev]
          by_cases hid : rec.id = rec'.id
          · rw [if_pos hid, ← hid, ← attemptBudget_congr (hpay rec hrec hid)]
            omega
          · rw [if_neg hid]
            exact hle
      · obtain ⟨rfl, rfl⟩ : rec = rec' ∧ t = t' := by simpa [hev] using ht'
        refine ⟨htid, hn ▸ (h.counted.wf.bounds rec hrec).2, fun r' hr' hid => ?_, ?_⟩
        · rcases hrows r' hr' with ⟨-, hp, -⟩ | ⟨hne, -⟩
          · exact hp
          · exact absurd hid hne
        · rw [countP_reserves hev, if_pos rfl]
          omega
  | keeps hno hn hrows =>
    refine ⟨hcounted, fun r' hr' hnone => ?_, fun x hx rec t ht => ?_⟩
    · rcases hrows r' hr' with ⟨r, hr, -, hp, hat, hres⟩ | ⟨-, hat⟩
      · rw [hat, attemptBudget_congr hp]
        rcases hres hnone with hnone | ⟨t, ht, hf⟩
        · exact h.idle r hr hnone
        · exact .inr (hrel t (hev.trans ht) r hr hf)
      · exact .inl hat
    · rcases mem_concat.mp hx with hx | rfl
      · obtain ⟨htid, hlt, hpay, hle⟩ := h.leased x hx rec t ht
        refine ⟨htid, hlt.trans_le hn, fun r' hr' hid => ?_, ?_⟩
        · rcases hrows r' hr' with ⟨r, hr, hid', hp, -⟩ | ⟨hid', -⟩
          · exact hp.trans (hpay r hr (hid'.symm.trans hid))
          · omega
        · rw [countP_keeps (hev ▸ hno)]
          exact hle
      · exact absurd (hev.symm.trans ht) (hno rec t)

theorem DbOp.effect_releases {r : o.Res}
    (h : o.effect r = .releases t) : ∃ delay, o = .releaseReserved t delay := by
  cases o with
  | releaseReserved t' delay =>
    cases r with
    | error e => simp [effect] at h
    | ok u =>
      obtain rfl : t' = t := by simpa [effect] using h
      exact ⟨delay, rfl⟩
  | reserveNext d queue => rcases r with e | _ | ⟨rec, t⟩ <;> simp [effect] at h
  | claimAndInsert key queue payload => rcases r with e | _ | _ <;> simp [effect] at h
  | hydrateRecord rec => simp [effect] at h
  | _ => cases r <;> simp [effect] at h

theorem BudgetInv.released {db : Database} {log : WorkerLog DbOp.Res}
    (h : BudgetInv registry maxRetries db (driverLog log)) {i : Nat} {a : o.Res}
    (ht : o.effect a = .releases t) (hg : (databaseView registry (some maxRetries)).guard
      ((databaseView registry (some maxRetries)).leaseOf log i) o) {r : JobRecord}
    (hr : r ∈ db.jobs) (hf : r.fencedBy t = true) :
    (r.attempts : Int) < attemptBudget registry maxRetries r := by
  obtain ⟨delay, rfl⟩ := DbOp.effect_releases ht
  obtain ⟨rec, job, hlease, hreg, hretry⟩ := hg.resolve_left (by simp)
  obtain ⟨o', a', hmem, hres⟩ := LeaseView.exists_of_leaseOf hlease
  obtain ⟨hid, -, hpay, -⟩ := h.leased _ hmem rec t (databaseView_reserved.mp hres)
  obtain ⟨hrid, hat, -⟩ := JobRecord.fencedBy_iff.mp hf
  have hlt := hretry maxRetries rfl
  rw [attemptBudget_congr (hpay r hr (hrid.trans hid)), attemptBudget, hreg, hat]
  exact hlt

theorem retryWorkers_inv (registry : Registry) (maxRetries : Int)
    (acts : List (Act (WorkerEnv DbEnv) (WorkerCall (WorkerOptions × DatabaseDriver) Producer))) :
    let v := databaseView registry (some maxRetries)
    let p := (retryWorkers registry maxRetries).run (.start { driver := {} }) acts
    LeaseInv p.world.driver (driverLog p.log) ∧ v.Started p.log ∧
      (ReclaimsWithinBudget registry maxRetries (driverLog p.log) →
        BudgetInv registry maxRetries p.world.driver (driverLog p.log)) := by
  intro v
  refine v.invariant (K := fun w l => LeaseInv w.driver (driverLog l) ∧ v.Started l ∧
      (ReclaimsWithinBudget registry maxRetries (driverLog l) →
        BudgetInv registry maxRetries w.driver (driverLog l)))
    (fun c => ⟨_, rfl, databaseView_lawful registry _ c.2⟩) ?_ ?_
    ⟨leaseInv_start, ⟨by simp, by simp⟩, fun _ => budgetInv_start⟩
    (fun w l e o hK => dbExec_answers registry hK.1.wf e o) ?_ acts
  · intro c job t n hn hlt m hm
    obtain rfl : maxRetries = m := by simpa using hm
    rcases Nat.eq_zero_or_pos t.attempts with h0 | hpos
    · exact lt_of_le_of_lt (by omega) hlt
    · rw [← hn hpos]
      exact hlt
  · intro c
    refine c.all.mono fun o ho l => ?_
    cases o <;> trivial
  · rintro ⟨world, attempts⟩ l i e o ⟨hL, hS, hB⟩ hg
    rw [driverLog_append]
    refine ⟨?_, hS.concat hg, ?_⟩
    · cases o with
      | driver o => exact hL.step registry i e.driver o
      | _ => exact (append_nil (driverLog l)).symm ▸ hL
    · cases o with
      | driver o =>
        intro hcond
        have hB' := hB fun ev hev => hcond ev (mem_append_left _ hev)
        refine hB'.step (dbExec_effect registry world e.driver o i) ?_ ?_
        · intro rec t ht hsome
          have hin := hcond _ mem_concat_self
          rw [withinBudget, show jobsEffect _ = .reserves rec t from ht] at hin
          cases hr : rec.reservedAt with
          | none => simp [hr] at hsome
          | some at_ => simpa [hr] using hin
        intro t ht r hr hf
        have hg' : v.guard (v.monitor.stateOf l i : Accounting JobRecord).lease o := hg
        rw [v.lease_stateOf] at hg'
        exact hB'.released ht hg' hr hf
      | _ => exact (append_nil (driverLog l)).symm ▸ hB

/-- With every reclaim inside the budget a job is started at most as often as the budget, or once.
-/
theorem handlerStarts_le_budget (acts : List (Act (WorkerEnv DbEnv)
    (WorkerCall (WorkerOptions × DatabaseDriver) Producer)))
    (h : ReclaimsWithinBudget registry maxRetries
      (driverLog ((retryWorkers registry maxRetries).run (.start { driver := {} }) acts).log)) :
    let v := databaseView registry (some maxRetries)
    let p := (retryWorkers registry maxRetries).run (.start { driver := {} }) acts
    ∀ ev ∈ driverLog p.log, ∀ rec t, jobsEffect ev = .reserves rec t →
      ((v.handlerStarts p.log rec.id).length : Int) ≤ max 1 (attemptBudget registry maxRetries rec) := by
  intro v p ev hev rec t hres
  obtain ⟨-, hS, hB⟩ := retryWorkers_inv registry maxRetries acts
  obtain ⟨-, -, -, hle⟩ := (hB h).leased ev hev rec t hres
  have hstart : (v.handlerStarts p.log rec.id).length ≤
      (driverLog p.log).countP (reservesRow rec.id) := by
    rw [countP_eq_length_filter]
    refine hS.length_le fun i o r rec' t' hmem hr hid => ?_
    have hr' : jobsEffect ⟨i, _, _⟩ = .reserves rec' t' := databaseView_reserved.mp hr
    have hid' := ((hB h).leased _ hmem rec' t' hr').1
    exact reservesRow_iff.mpr ⟨rec', t', hr', hid'.symm.trans hid⟩
  exact (Int.ofNat_le.mpr hstart).trans hle

def limitedJob (n : Int) : Job := { type := "T", data := some "{}", maxAttempts := some n }

/-- A worker dies in the handler; its lease expires and the row is popped again. -/
def crashRun (n : Int) :
    List (Act (WorkerEnv DbEnv) (WorkerCall (WorkerOptions × DatabaseDriver) Producer)) :=
  let worker := WorkerCall.process (⟨"w", "default", 3, fun _ => 0, id⟩, ⟨"a", .sqlite, 5⟩)
  let early : WorkerEnv DbEnv := { driver := {} }
  let late : WorkerEnv DbEnv := { driver := { now := 10 } }
  [.spawn (.client (.pushCtx none (some (limitedJob n)) none)), .run 0 early, .spawn worker,
    .run 1 early, .run 1 early, .run 1 early, .run 1 early, .run 1 early, .crash 1, .spawn worker,
    .run 2 late, .run 2 late, .run 2 late, .run 2 late, .run 2 late]

theorem handlerStarts_le_budget_crashRun :
    let registry := fun _ => .ok (limitedJob 2)
    let p := (retryWorkers registry 3).run (.start { driver := {} }) (crashRun 2)
    ReclaimsWithinBudget registry 3 (driverLog p.log) ∧
      ∀ ev ∈ driverLog p.log, ∀ rec t, jobsEffect ev = .reserves rec t →
        (((databaseView registry (some 3)).handlerStarts p.log rec.id).length : Int) ≤ 2 := by
  intro registry p
  have hr : ReclaimsWithinBudget registry 3 (driverLog p.log) := by decide
  exact ⟨hr, handlerStarts_le_budget (crashRun 2) hr⟩

theorem crashRun_starts_twice :
    let registry := fun _ => .ok (limitedJob 1)
    let p := (retryWorkers registry 3).run (.start { driver := {} }) (crashRun 1)
    ((databaseView registry (some 3)).handlerStarts p.log 1).length = 2 ∧
      ∀ rec, max 1 (attemptBudget registry 3 rec) = 1 :=
  ⟨by decide, fun _ => rfl⟩

/-- In every run the k-th reservation of a row, whoever makes it and however the others ended, hands
out attempt k, and the row counts its reservations. -/
theorem attempts_counted (registry : Payload → Except Err Job) (acts : List (Act DbEnv DbCall)) :
    let p := (databaseSystem registry).run (.start {}) acts
    EachAfter Numbered p.log ∧ ∀ r ∈ p.world.jobs, r.attempts = p.log.countP (reservesRow r.id) := by
  intro p
  have h : Counted p.world p.log := System.invariant_world _ counted_start
    (fun _ _ i env o h => h.step (dbExec_effect registry _ env o i)) acts
  exact ⟨h.tokens, h.rows⟩

end Velocity.Queue
