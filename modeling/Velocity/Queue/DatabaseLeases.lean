import Velocity.Queue.Database

/-! Lease fencing of the database driver. A row is owned through the triple
(id, attempts, reserved_by). Only a reservation writes `attempts`, and it always
increases it, so a triple that has stopped matching its row never matches again. -/

namespace Velocity.Queue

open Interleave List

def Database.hasRow (db : Database) (id : Nat) : Bool := db.jobs.any fun r => r.id = id

variable {id : Nat} {db : Database} {queue : String}

theorem Database.hasRow_iff : db.hasRow id = true ↔ ∃ r ∈ db.jobs, r.id = id := by
  simp [hasRow]

theorem Database.not_hasRow_iff : db.hasRow id = false ↔ ∀ r ∈ db.jobs, r.id ≠ id := by
  simp [hasRow]

variable {t : ReservationToken} {r : JobRecord}

theorem JobRecord.fencedBy_iff : r.fencedBy t = true ↔
      r.id = t.id ∧ r.attempts = t.attempts ∧ r.reservedBy = some t.reservedBy := by
  simp [fencedBy, and_assoc]

theorem firstRow_mem {rows : List JobRecord} (h : firstRow rows = some r) : r ∈ rows := by
  induction rows generalizing r with
  | nil => simp [firstRow] at h
  | cons x rows ih =>
    cases hf : firstRow rows with
    | none =>
      simp only [firstRow, hf, Option.some.injEq] at h
      simp [h]
    | some s =>
      simp only [firstRow, hf] at h
      split at h
      · simp only [Option.some.injEq] at h
        exact mem_cons_of_mem _ (ih (h ▸ hf))
      · simp only [Option.some.injEq] at h
        simp [h]

variable {rec : JobRecord}

theorem Database.selectNext_mem {d : DatabaseDriver} {now : Time}
    {locked : List Nat} (h : db.selectNext d queue now locked = some rec) :
    rec ∈ db.jobs ∧ rec.poppable queue now (now - d.retryAfter) = true := by
  have hm := mem_filter.mp (firstRow_mem h)
  simp only [Bool.and_eq_true] at hm
  exact ⟨hm.1, hm.2.1⟩

theorem Database.assertFenced_eq :
    db.assertFenced t = .ok () ∧ (∃ r ∈ db.jobs, r.fencedBy t = true) ∨
      db.assertFenced t = .error .leaseLost ∧ ∀ r ∈ db.jobs, r.fencedBy t = false := by
  unfold assertFenced
  split
  · next h => exact .inl ⟨rfl, any_eq_true.mp h⟩
  · next h => exact .inr ⟨rfl, by simpa using h⟩

inductive JobsEffect
  | keeps
  | inserts
  | reserves (rec : JobRecord) (token : ReservationToken)
  | removes (token : ReservationToken)
  | releases (token : ReservationToken)
  | clears (queue : String)

def DbOp.effect : (o : DbOp) → o.Res → JobsEffect
  | .insertJob _ _ _, .ok _ => .inserts
  | .claimAndInsert _ _ _, .ok true => .inserts
  | .reserveNext _ _, .ok (some (rec, t)) => .reserves rec t
  | .deleteReserved t _, .ok _ => .removes t
  | .commitFailedReservation t _ _ _, .ok _ => .removes t
  | .quarantineReserved t _ _ _, .ok _ => .removes t
  | .releaseReserved t _, .ok _ => .releases t
  | .clearJobs queue, .ok _ => .clears queue
  | _, _ => .keeps

def jobsEffect (ev : Event DbOp.Res) : JobsEffect := ev.op.effect ev.res

def JobsEffect.On (db db' : Database) : JobsEffect → Prop
  | keeps => db'.jobs = db.jobs ∧ db'.nextID = db.nextID
  | inserts => ∃ r : JobRecord, r.id = db.nextID ∧ r.attempts = 0 ∧ r.reservedAt = none ∧
      r.reservedBy = none ∧ db'.jobs = db.jobs ++ [r] ∧ db'.nextID = db.nextID + 1
  | reserves rec t => rec ∈ db.jobs ∧ t.id = rec.id ∧ t.attempts = rec.attempts + 1 ∧
      db'.nextID = db.nextID ∧ ∃ now : Time, db'.jobs = db.jobs.map fun r =>
        if r.id = rec.id then
          { r with reservedAt := some now, reservedBy := some t.reservedBy,
                   attempts := t.attempts, updatedAt := now }
        else r
  | removes t => (∃ r ∈ db.jobs, r.fencedBy t = true) ∧ db'.nextID = db.nextID ∧
      db'.jobs = db.jobs.filter fun r => !r.fencedBy t
  | releases t => (∃ r ∈ db.jobs, r.fencedBy t = true) ∧ db'.nextID = db.nextID ∧
      ∃ now scheduledAt : Time, db'.jobs = db.jobs.map fun r =>
        if r.fencedBy t then
          { r with reservedAt := none, reservedBy := none, scheduledAt := scheduledAt, updatedAt := now }
        else r
  | clears queue => db'.nextID = db.nextID ∧ db'.jobs = db.jobs.filter fun r => r.queue ≠ queue

theorem Database.map_unfenced (h : ∀ r ∈ db.jobs, r.fencedBy t = false)
    (f : JobRecord → JobRecord) : (db.jobs.map fun r => if r.fencedBy t then f r else r) = db.jobs :=
  (map_congr_left fun r hr => by simp [h r hr]).trans (map_id _)

theorem Database.deleteFenced_jobs
    (h : ∀ r ∈ db.jobs, r.fencedBy t = false) : db.deleteFenced t = db := by
  have hk : db.jobs.filter (fun r => !r.fencedBy t) = db.jobs :=
    filter_eq_self.mpr fun r hr => by simp [h r hr]
  simp [deleteFenced, hk]

theorem Database.moveToFailed_eq (db : Database) (t : ReservationToken) (queue : String)
    (payload : JobWrapper) (exception : String) (now : Time) :
    (∃ r ∈ db.jobs, r.fencedBy t = true) ∧ db.moveToFailed t queue payload exception now =
        (.ok (), (db.deleteFenced t).recordFailed queue payload exception now) ∨
    (∀ r ∈ db.jobs, r.fencedBy t = false) ∧
      db.moveToFailed t queue payload exception now = (.error .leaseLost, db) := by
  rcases db.assertFenced_eq with ⟨ha, hr⟩ | ⟨ha, hr⟩
  · exact .inl ⟨hr, by simp [moveToFailed, ha]⟩
  · exact .inr ⟨hr, by simp [moveToFailed, ha]⟩

variable (registry : Registry)

theorem dbExec_effect (db : Database) (env : DbEnv) (o : DbOp) (i : Nat) :
    (jobsEffect ⟨i, o, (dbExec registry db env o).1⟩).On db (dbExec registry db env o).2 := by
  cases hf : env.fault with
  | some f =>
    cases o with
    | runFailedHook job err =>
      simp only [dbExec]
      cases env.hookPanics <;> exact ⟨rfl, rfl⟩
    | _ =>
      simp only [dbExec, Database.claimAndInsert, Database.reserveNext, hf]
      exact ⟨rfl, rfl⟩
  | none =>
    cases o with
    | insertJob queue payload delay =>
      simp only [dbExec, hf]
      exact ⟨_, rfl, rfl, rfl, rfl, rfl, rfl⟩
    | claimAndInsert key queue payload =>
      simp only [dbExec, Database.claimAndInsert, hf]
      by_cases hk : db.jobDedupe.any (·.dedupeKey = key) = true
      · simp only [hk, if_true]
        exact ⟨rfl, rfl⟩
      · simp only [hk]
        exact ⟨_, rfl, rfl, rfl, rfl, rfl, rfl⟩
    | reserveNext d queue =>
      simp only [dbExec, Database.reserveNext, hf]
      cases hsel : db.selectNext d queue env.now env.locked with
      | none => exact ⟨rfl, rfl⟩
      | some rec =>
        dsimp only
        split
        · exact ⟨rfl, rfl⟩
        · exact ⟨(Database.selectNext_mem hsel).1, rfl, rfl, rfl, env.now, rfl⟩
    | deleteReserved t op =>
      rcases db.assertFenced_eq (t := t) with ⟨ha, hr⟩ | ⟨ha, hr⟩
      · simp only [dbExec, hf, ha]
        exact ⟨hr, rfl, rfl⟩
      · simp only [dbExec, hf, ha, Database.deleteFenced_jobs hr]
        exact ⟨rfl, rfl⟩
    | releaseReserved t delay =>
      rcases db.assertFenced_eq (t := t) with ⟨ha, hr⟩ | ⟨ha, hr⟩
      · simp only [dbExec, hf, ha]
        exact ⟨hr, rfl, env.now, env.now + delay, rfl⟩
      · simp only [dbExec, hf, ha]
        exact ⟨Database.map_unfenced hr _, rfl⟩
    | commitFailedReservation t exception queue payload =>
      rcases db.moveToFailed_eq t queue payload exception env.now with ⟨hr, hm⟩ | ⟨-, hm⟩
      · simp only [dbExec, hf, hm]
        exact ⟨hr, rfl, rfl⟩
      · simp only [dbExec, hf, hm]
        exact ⟨rfl, rfl⟩
    | quarantineReserved t rec queue exception =>
      rcases db.moveToFailed_eq t queue rec.payload exception env.now with ⟨hr, hm⟩ | ⟨-, hm⟩
      · simp only [dbExec, hf, hm]
        exact ⟨hr, rfl, rfl⟩
      · simp only [dbExec, hf, hm]
        exact ⟨rfl, rfl⟩
    | runFailedHook job err =>
      simp only [dbExec]
      cases env.hookPanics <;> exact ⟨rfl, rfl⟩
    | _ =>
      simp only [dbExec, hf]
      exact ⟨rfl, rfl⟩

structure JobRecord.Evolves (r r' : JobRecord) : Prop where
  id : r'.id = r.id
  queue : r'.queue = r.queue
  payload : r'.payload = r.payload
  lease : r.attempts < r'.attempts ∨
    r'.attempts = r.attempts ∧ (r'.reservedBy = r.reservedBy ∨ r'.reservedBy = none)

theorem JobRecord.Evolves.refl (r : JobRecord) : r.Evolves r :=
  ⟨rfl, rfl, rfl, .inr ⟨rfl, .inl rfl⟩⟩

theorem JobRecord.Evolves.attempts_le {r r' : JobRecord} (h : r.Evolves r') :
    r.attempts ≤ r'.attempts := by
  rcases h.lease with h | h <;> omega

/-- An operation keeps some rows, in order and evolved, and may append one with the next id. -/
structure Database.JobsStep (db db' : Database) : Prop where
  nextID : db.nextID ≤ db'.nextID
  rows : ∀ r' ∈ db'.jobs, (∃ r ∈ db.jobs, r.Evolves r') ∨
    r'.id = db.nextID ∧ db'.nextID = db.nextID + 1 ∧ r'.attempts = 0 ∧ r'.reservedBy = none
  ids : (db'.jobs.map (·.id)).Sublist (db.jobs.map (·.id) ++ [db.nextID])

variable {db' : Database}

theorem Database.JobsStep.of_map (f : JobRecord → JobRecord)
    (hj : db'.jobs = db.jobs.map f) (hn : db'.nextID = db.nextID)
    (hf : ∀ r ∈ db.jobs, r.Evolves (f r)) : db.JobsStep db' := by
  refine ⟨hn.ge, ?_, ?_⟩
  · intro r' hr'
    rw [hj] at hr'
    obtain ⟨r, hr, rfl⟩ := mem_map.mp hr'
    exact .inl ⟨r, hr, hf r hr⟩
  · have hids : db'.jobs.map (·.id) = db.jobs.map (·.id) := by
      rw [hj, map_map]
      exact map_congr_left fun r hr => (hf r hr).id
    rw [hids]
    exact sublist_append_left _ _

theorem Database.JobsStep.of_filter (keep : JobRecord → Bool)
    (hj : db'.jobs = db.jobs.filter keep) (hn : db'.nextID = db.nextID) : db.JobsStep db' := by
  refine ⟨hn.ge, ?_, ?_⟩
  · intro r' hr'
    rw [hj] at hr'
    exact .inl ⟨r', (mem_filter.mp hr').1, .refl r'⟩
  · rw [hj]
    exact (filter_sublist.map _).trans (sublist_append_left _ _)

theorem Database.JobsStep.of_eq (hj : db'.jobs = db.jobs)
    (hn : db'.nextID = db.nextID) : db.JobsStep db' :=
  .of_filter (fun _ => true) (by simp [hj]) hn

variable {f : JobsEffect}

theorem JobsEffect.On.jobsStep (h : f.On db db')
    (hnd : (db.jobs.map (·.id)).Nodup) : db.JobsStep db' := by
  cases f with
  | keeps => exact .of_eq h.1 h.2
  | inserts =>
    obtain ⟨x, hid, ha, -, hby, hj, hn⟩ := h
    refine ⟨by omega, fun r' hr' => ?_, by simp [hj, hid]⟩
    simp only [hj, mem_append, mem_singleton] at hr'
    rcases hr' with hr' | rfl
    · exact .inl ⟨r', hr', .refl r'⟩
    · exact .inr ⟨hid, hn, ha, hby⟩
  | reserves rec t =>
    obtain ⟨hrec, -, hat, hn, now, hj⟩ := h
    refine .of_map _ hj hn fun r hr => ?_
    split
    · next he =>
      have : r = rec := inj_on_of_nodup_map hnd hr hrec he
      subst this
      exact ⟨rfl, rfl, rfl, .inl (by simp only; omega)⟩
    · exact .refl r
  | removes t => exact .of_filter _ h.2.2 h.2.1
  | releases t =>
    obtain ⟨-, hn, now, at_, hj⟩ := h
    refine .of_map _ hj hn fun r _ => ?_
    split
    · exact ⟨rfl, rfl, rfl, .inr ⟨rfl, .inr rfl⟩⟩
    · exact .refl r
  | clears queue => exact .of_filter _ h.2 h.1

structure Database.WellFormed (db : Database) : Prop where
  pos : 0 < db.nextID
  nodup : (db.jobs.map (·.id)).Nodup
  bounds : ∀ r ∈ db.jobs, 0 < r.id ∧ r.id < db.nextID

theorem Database.wellFormed_empty : ({} : Database).WellFormed :=
  ⟨by decide, by simp, by simp⟩

theorem Database.WellFormed.step (h : db.WellFormed) (hs : db.JobsStep db') : db'.WellFormed := by
  refine ⟨h.pos.trans_le hs.nextID, ?_, ?_⟩
  · refine hs.ids.nodup (nodup_append.mpr ⟨h.nodup, by simp, ?_⟩)
    intro a ha b hb
    obtain ⟨r, hr, rfl⟩ := mem_map.mp ha
    have := (h.bounds r hr).2
    simp only [mem_singleton] at hb
    omega
  · intro r' hr'
    rcases hs.rows r' hr' with ⟨r, hr, he⟩ | ⟨hid, hn, -, -⟩
    · have := h.bounds r hr
      have := hs.nextID
      rw [he.id]
      omega
    · have := h.pos
      omega

theorem Database.JobsStep.not_hasRow (hs : db.JobsStep db')
    (hlt : id < db.nextID) (h : db.hasRow id = false) : db'.hasRow id = false := by
  rw [not_hasRow_iff] at h ⊢
  intro r' hr' hid
  rcases hs.rows r' hr' with ⟨r, hr, he⟩ | ⟨hid', -⟩
  · exact h r hr (he.id ▸ hid)
  · omega

theorem Database.WellFormed.eq_of_id (h : db.WellFormed) {r s : JobRecord}
    (hr : r ∈ db.jobs) (hs : s ∈ db.jobs) (hid : r.id = s.id) : r = s :=
  inj_on_of_nodup_map h.nodup hr hs hid

theorem JobsEffect.On.removes_row (h : (JobsEffect.removes t).On db db') (hwf : db.WellFormed) :
    db.hasRow t.id = true ∧ t.id < db.nextID ∧ db'.hasRow t.id = false := by
  obtain ⟨⟨r, hr, hfr⟩, -, hj⟩ := h
  have hid := (JobRecord.fencedBy_iff.mp hfr).1
  refine ⟨Database.hasRow_iff.mpr ⟨r, hr, hid⟩, hid ▸ (hwf.bounds r hr).2, ?_⟩
  rw [Database.not_hasRow_iff, hj]
  intro s hs hsid
  obtain ⟨hs, hfs⟩ := mem_filter.mp hs
  rw [hwf.eq_of_id hs hr (hsid.trans hid.symm), hfr] at hfs
  simp at hfs

def removesRow (id : Nat) (ev : Event DbOp.Res) : Bool :=
  match jobsEffect ev with
  | .removes t => t.id = id
  | _ => false

def clearsQueue (queue : String) (ev : Event DbOp.Res) : Bool :=
  match jobsEffect ev with
  | .clears q => q = queue
  | _ => false

variable {ev : Event DbOp.Res}

theorem removesRow_iff : removesRow id ev = true ↔ ∃ t, jobsEffect ev = .removes t ∧ t.id = id := by
  unfold removesRow
  split <;> simp_all

theorem clearsQueue_iff : clearsQueue queue ev = true ↔ jobsEffect ev = .clears queue := by
  unfold clearsQueue
  split <;> simp_all

theorem JobsEffect.On.row_lost (h : f.On db db') (hr : r ∈ db.jobs) (h' : db'.hasRow r.id = false) :
    (∃ t, f = .removes t ∧ t.id = r.id) ∨ f = .clears r.queue := by
  rw [Database.not_hasRow_iff] at h'
  cases f with
  | keeps => exact absurd rfl (h' r (h.1 ▸ hr))
  | inserts =>
    obtain ⟨x, -, -, -, -, hj, -⟩ := h
    exact absurd rfl (h' r (by simp [hj, hr]))
  | reserves rec t =>
    obtain ⟨-, -, -, -, now, hj⟩ := h
    refine absurd ?_ (h' _ (hj ▸ mem_map_of_mem hr))
    split <;> rfl
  | removes t =>
    refine .inl ⟨t, rfl, ?_⟩
    by_contra hid
    have hf : r.fencedBy t = false := by
      by_contra hf
      exact hid (JobRecord.fencedBy_iff.mp (by simpa using hf)).1.symm
    exact h' r (by simp [h.2.2, hr, hf]) rfl
  | releases t =>
    obtain ⟨-, -, now, at_, hj⟩ := h
    refine absurd ?_ (h' _ (hj ▸ mem_map_of_mem hr))
    split <;> rfl
  | clears queue =>
    by_cases hq : r.queue = queue
    · exact .inr (by rw [hq])
    · exact absurd rfl (h' r (by simp [h.2, hr, hq]))

/-- The row is reserved anew, given back, removed, or cleared with its queue. -/
def EndsLease (rec : JobRecord) (t : ReservationToken) (ev : Event DbOp.Res) : Prop :=
  match jobsEffect ev with
  | .reserves rec' _ => rec'.id = t.id
  | .releases t' => t'.id = t.id
  | .removes t' => t'.id = t.id
  | .clears queue => queue = rec.queue
  | _ => False

def LeaseLost (t : ReservationToken) (log : Log DbOp.Res) : Prop :=
  ∃ pre ev post rec, log = pre ++ ev :: post ∧ (∃ x ∈ pre, jobsEffect x = .reserves rec t) ∧
    EndsLease rec t ev

variable {log : Log DbOp.Res}

theorem leaseLost_concat (h : LeaseLost t (log ++ [ev])) : LeaseLost t log ∨
      ∃ rec, (∃ x ∈ log, jobsEffect x = .reserves rec t) ∧ EndsLease rec t ev := by
  by_contra hn
  rw [not_or] at hn
  have hlog : EachAfter (fun pre x => ¬∃ rec, (∃ y ∈ pre, jobsEffect y = .reserves rec t) ∧
      EndsLease rec t x) log := fun pre x post hl ⟨rec, hy, hx⟩ =>
    hn.1 ⟨pre, x, post, rec, hl, hy, hx⟩
  obtain ⟨pre, x, post, rec, hl, hy, hx⟩ := h
  exact eachAfter_concat.mpr ⟨hlog, hn.2⟩ pre x post hl ⟨rec, hy, hx⟩

def Database.Lapsed (db : Database) (t : ReservationToken) : Prop :=
  t.id < db.nextID ∧ ∀ r ∈ db.jobs, r.id = t.id →
    t.attempts < r.attempts ∨ t.attempts = r.attempts ∧ r.reservedBy = none

theorem Database.Lapsed.not_fenced (h : db.Lapsed t) : ∀ r ∈ db.jobs, r.fencedBy t = false := by
  intro r hr
  by_contra hf
  obtain ⟨hid, hat, hby⟩ := JobRecord.fencedBy_iff.mp (by simpa using hf)
  rcases h.2 r hr hid with hlt | ⟨-, hnone⟩
  · omega
  · simp [hnone] at hby

theorem Database.Lapsed.step (h : db.Lapsed t) (hs : db.JobsStep db') : db'.Lapsed t := by
  refine ⟨h.1.trans_le hs.nextID, ?_⟩
  intro r' hr' hid
  rcases hs.rows r' hr' with ⟨r, hr, he⟩ | ⟨hnew, -⟩
  · have hle := he.attempts_le
    rcases h.2 r hr (he.id ▸ hid) with hlt | ⟨heq, hnone⟩
    · exact .inl (by omega)
    · rcases he.lease with hlt | ⟨hat, hby | hby⟩
      · exact .inl (by omega)
      · exact .inr ⟨by omega, hby.trans hnone⟩
      · exact .inr ⟨by omega, hby⟩
  · have := h.1
    omega

def Database.Issued (db : Database) (rec : JobRecord) (t : ReservationToken) : Prop :=
  0 < t.id ∧ t.id < db.nextID ∧
    ∀ r ∈ db.jobs, r.id = t.id → t.attempts ≤ r.attempts ∧ r.queue = rec.queue

theorem Database.Issued.step (h : db.Issued rec t) (hs : db.JobsStep db') : db'.Issued rec t := by
  refine ⟨h.1, h.2.1.trans_le hs.nextID, ?_⟩
  intro r' hr' hid
  rcases hs.rows r' hr' with ⟨r, hr, he⟩ | ⟨hnew, -⟩
  · have hh := h.2.2 r hr (he.id ▸ hid)
    exact ⟨hh.1.trans he.attempts_le, he.queue.trans hh.2⟩
  · have := h.2.1
    omega

theorem JobsEffect.On.reserved_row (h : (JobsEffect.reserves rec t).On db db') (hwf : db.WellFormed)
    (hr : r ∈ db'.jobs) (hid : r.id = rec.id) : r.attempts = t.attempts ∧ r.queue = rec.queue := by
  obtain ⟨hrec, -, -, -, now, hj⟩ := h
  rw [hj] at hr
  obtain ⟨s, hs, rfl⟩ := mem_map.mp hr
  by_cases he : s.id = rec.id
  · simp only [he, if_true]
    exact ⟨trivial, by rw [hwf.eq_of_id hs hrec he]⟩
  · simp only [he, if_false] at hid

theorem JobsEffect.On.issued
    (h : (JobsEffect.reserves rec t).On db db') (hwf : db.WellFormed) : db'.Issued rec t := by
  have hrow := fun r hr => h.reserved_row hwf (r := r) hr
  obtain ⟨hrec, hid, -, hn, -⟩ := h
  have hb := hwf.bounds rec hrec
  refine ⟨by omega, by omega, ?_⟩
  intro r' hr' hid'
  obtain ⟨hat, hq⟩ := hrow r' hr' (hid'.trans hid)
  exact ⟨hat.ge, hq⟩

theorem JobsEffect.On.lapsed {i : Nat} {o : DbOp} {a : o.Res} (h : (jobsEffect ⟨i, o, a⟩).On db db')
    (hwf : db.WellFormed) (hi : db.Issued rec t) (he : EndsLease rec t ⟨i, o, a⟩) :
    db'.Lapsed t := by
  have hs := h.jobsStep hwf.nodup
  refine ⟨hi.2.1.trans_le hs.nextID, ?_⟩
  unfold EndsLease at he
  cases hf : jobsEffect ⟨i, o, a⟩ with
  | keeps => simp [hf] at he
  | inserts => simp [hf] at he
  | reserves rec' t' =>
    -- the new reservation finds an attempts value that is already at least the token's
    rw [hf] at h
    simp only [hf] at he
    have hle := (hi.2.2 rec' h.1 he).1
    have hat := h.2.2.1
    intro r' hr' hid'
    have hnew := (h.reserved_row hwf hr' (hid'.trans he.symm)).1
    exact .inl (by omega)
  | releases t' =>
    rw [hf] at h
    simp only [hf] at he
    obtain ⟨⟨r₀, hr₀, hf₀⟩, -, now, at_, hj⟩ := h
    have hid₀ := (JobRecord.fencedBy_iff.mp hf₀).1
    intro r' hr' hid'
    rw [hj] at hr'
    obtain ⟨r, hr, rfl⟩ := mem_map.mp hr'
    by_cases hfr : r.fencedBy t' = true
    · simp only [hfr, if_true] at hid' ⊢
      have hle := (hi.2.2 r hr hid').1
      rcases Nat.lt_or_eq_of_le hle with hlt | heq
      · exact .inl hlt
      · exact .inr ⟨heq, trivial⟩
    · simp only [hfr] at hid'
      have : r = r₀ := hwf.eq_of_id hr hr₀ (by simpa [hid₀, he] using hid')
      exact absurd (this ▸ hf₀) hfr
  | removes t' =>
    rw [hf] at h
    simp only [hf] at he
    have hgone := Database.not_hasRow_iff.mp (h.removes_row hwf).2.2
    exact fun r' hr' hid' => absurd (hid'.trans he.symm) (hgone r' hr')
  | clears queue =>
    rw [hf] at h
    simp only [hf] at he
    intro r' hr' hid'
    rw [h.2, mem_filter] at hr'
    have hq := (hi.2.2 r' hr'.1 hid').2
    simp [hq, he] at hr'

theorem filter_removesRow_concat (id : Nat) (log : Log DbOp.Res) (ev : Event DbOp.Res) :
    (log ++ [ev]).filter (removesRow id) =
      log.filter (removesRow id) ++ if removesRow id ev then [ev] else [] := by
  by_cases h : removesRow id ev = true <;> simp [h]

structure LeaseInv (db : Database) (log : Log DbOp.Res) : Prop where
  wf : db.WellFormed
  issued : ∀ ev ∈ log, ∀ rec t, jobsEffect ev = .reserves rec t → db.Issued rec t
  lapsed : ∀ t, LeaseLost t log → 0 < t.id ∧ db.Lapsed t
  removed : ∀ ev ∈ log, ∀ t, jobsEffect ev = .removes t → t.id < db.nextID ∧ db.hasRow t.id = false
  once : ∀ id, (log.filter (removesRow id)).length ≤ 1

theorem leaseInv_start : LeaseInv {} [] where
  wf := Database.wellFormed_empty
  issued := by simp
  lapsed := by simp [LeaseLost]
  removed := by simp
  once := by simp

theorem LeaseInv.filter_eq_nil (h : LeaseInv db log)
    (hrow : db.hasRow id = true) : log.filter (removesRow id) = [] := by
  rw [filter_eq_nil_iff]
  intro ev hev hrem
  obtain ⟨t, ht, rfl⟩ := removesRow_iff.mp hrem
  rw [(h.removed ev hev t ht).2] at hrow
  simp at hrow

theorem LeaseInv.step (h : LeaseInv db log) (i : Nat) (env : DbEnv) (o : DbOp) :
    LeaseInv (dbExec registry db env o).2 (log ++ [⟨i, o, (dbExec registry db env o).1⟩]) := by
  have heff := dbExec_effect registry db env o i
  have hs := heff.jobsStep h.wf.nodup
  refine ⟨h.wf.step hs, ?_, ?_, ?_, ?_⟩
  · intro ev hev rec t hres
    rcases mem_concat.mp hev with hev | rfl
    · exact (h.issued ev hev rec t hres).step hs
    · rw [hres] at heff
      exact heff.issued h.wf
  · intro t hlost
    rcases leaseLost_concat hlost with hlost | ⟨rec, ⟨x, hx, hres⟩, hends⟩
    · exact ⟨(h.lapsed t hlost).1, (h.lapsed t hlost).2.step hs⟩
    · have hiss := h.issued x hx rec t hres
      exact ⟨hiss.1, heff.lapsed h.wf hiss hends⟩
  · intro ev hev t hrem
    rcases mem_concat.mp hev with hev | rfl
    · obtain ⟨hlt, hgone⟩ := h.removed ev hev t hrem
      exact ⟨hlt.trans_le hs.nextID, hs.not_hasRow hlt hgone⟩
    · rw [hrem] at heff
      exact ⟨(heff.removes_row h.wf).2.1.trans_le hs.nextID, (heff.removes_row h.wf).2.2⟩
  · intro id
    rw [filter_removesRow_concat]
    split
    · next hrem =>
      obtain ⟨t, ht, rfl⟩ := removesRow_iff.mp hrem
      rw [ht] at heff
      rw [h.filter_eq_nil (heff.removes_row h.wf).1]
      simp
    · simpa using h.once id

variable (acts : List (Act DbEnv DbCall))

theorem leaseInv_run : LeaseInv ((databaseSystem registry).run (.start {}) acts).world
      ((databaseSystem registry).run (.start {}) acts).log :=
  System.invariant_world _ leaseInv_start (fun _ _ i env o h => h.step registry i env o) acts

inductive Mutator
  | ackCtx (ctx : Option CtxErr)
  | releaseCtx (ctx : Option CtxErr) (delay : Duration)
  | failReservedCtx (ctx : Option CtxErr) (job : Job) (jobErr : Err) (queueName : String)
  | quarantineReserved (rec : JobRecord) (queueName : String) (poisonErr : Err)
  | deletePop

def Mutator.body (t : ReservationToken) : Mutator → DbProg (Except Err Unit)
  | ackCtx ctx => DatabaseDriver.ackCtx ctx t
  | releaseCtx ctx delay => DatabaseDriver.releaseCtx ctx t delay
  | failReservedCtx ctx job jobErr queueName =>
    DatabaseDriver.failReservedCtx ctx t job jobErr queueName
  | quarantineReserved rec queueName poisonErr =>
    DatabaseDriver.quarantine t rec queueName poisonErr >>= fun e => .ret (.error e)
  | deletePop => .perform (DbOp.deleteReserved t "pop")

/-- The call gets as far as its fenced statement. -/
def Mutator.admitted : Mutator → Bool
  | ackCtx ctx => ctx.isNone
  | releaseCtx ctx _ => ctx.isNone
  | failReservedCtx ctx job _ _ => ctx.isNone && job.data.isSome
  | quarantineReserved _ _ _ => true
  | deletePop => true

section Refused

variable (h : ∀ r ∈ db.jobs, r.fencedBy t = false)

include h

theorem Database.assertFenced_refused : db.assertFenced t = .error .leaseLost := by
  rcases db.assertFenced_eq (t := t) with ⟨-, r, hr, hf⟩ | ⟨ha, -⟩
  · simp [h r hr] at hf
  · exact ha

theorem dbExec_deleteReserved_refused (env : DbEnv) (op : String) :
    (dbExec registry db env (.deleteReserved t op)).2 = db ∧
      (env.fault = none → (dbExec registry db env (.deleteReserved t op)).1 = .error .leaseLost) := by
  cases hf : env.fault <;>
    simp [dbExec, hf, Database.assertFenced_refused h, Database.deleteFenced_jobs h]

theorem dbExec_releaseReserved_refused (env : DbEnv) (delay : Duration) :
    (dbExec registry db env (.releaseReserved t delay)).2 = db ∧ (env.fault = none →
        (dbExec registry db env (.releaseReserved t delay)).1 = .error .leaseLost) := by
  cases hf : env.fault with
  | some f => simp [dbExec, hf]
  | none =>
    simp only [dbExec, hf, Database.assertFenced_refused h, implies_true, and_true]
    rw [Database.map_unfenced h]

theorem Database.moveToFailed_refused (queue : String) (payload : JobWrapper) (exception : String)
    (now : Time) : db.moveToFailed t queue payload exception now = (.error .leaseLost, db) := by
  rcases db.moveToFailed_eq t queue payload exception now with ⟨⟨r, hr, hf⟩, -⟩ | ⟨-, hm⟩
  · simp [h r hr] at hf
  · exact hm

attribute [local simp] DatabaseDriver.failReservedCtx Prog.eval

theorem Mutator.refused (hid : 0 < t.id) (env : DbEnv) (m : Mutator) :
    ((m.body t).eval (dbExec registry) env db).2 = db ∧
      (m.admitted = true → env.fault = none →
        ∃ e, ((m.body t).eval (dbExec registry) env db).1 = .error e ∧ e.is .leaseLost = true) := by
  have hz : t.isZero = false := by simp [ReservationToken.isZero]; omega
  cases m with
  | ackCtx ctx =>
    cases ctx with
    | some e => simp [body, DatabaseDriver.ackCtx, hz, admitted]
    | none =>
      have hh := dbExec_deleteReserved_refused registry h env "ack"
      simp only [body, DatabaseDriver.ackCtx, hz, Prog.perform]
      exact ⟨hh.1, fun _ hf => ⟨_, hh.2 hf, rfl⟩⟩
  | releaseCtx ctx delay =>
    cases ctx with
    | some e => simp [body, DatabaseDriver.releaseCtx, hz, admitted]
    | none =>
      have hh := dbExec_releaseReserved_refused registry h env (if delay < 0 then 0 else delay)
      simp only [body, DatabaseDriver.releaseCtx, hz, Prog.perform]
      exact ⟨hh.1, fun _ hf => ⟨_, hh.2 hf, rfl⟩⟩
  | failReservedCtx ctx job jobErr queueName =>
    cases ctx with
    | some e => simp [body, admitted]
    | none =>
      cases hd : job.data with
      | none =>
        simp [body, hz, createJobWrapper, marshalJob, hd, admitted]
      | some data =>
        cases hf : env.fault <;>
          simp [body, hz, createJobWrapper, marshalJob, hd, dbExec, hf,
            Database.moveToFailed_refused h, Err.is]
  | quarantineReserved rec queueName poisonErr =>
    cases hf : env.fault <;>
      simp [body, DatabaseDriver.quarantine, dbExec, hf, Database.moveToFailed_refused h, Err.is]
  | deletePop =>
    have hh := dbExec_deleteReserved_refused registry h env "pop"
    exact ⟨hh.1, fun _ hf => ⟨_, hh.2 hf, rfl⟩⟩

end Refused

def RowFate (db : Database) (removals lost : Log DbOp.Res) (id : Nat) : Prop :=
  db.hasRow id = true ∧ lost = [] ∧ removals = [] ∨
    db.hasRow id = false ∧ ∃ ev, lost = [ev] ∧
      (removesRow id ev = true ∧ removals = [ev] ∨
        (∃ queue, clearsQueue queue ev = true) ∧ removals = [])

theorem JobsEffect.On.hasRow_nextID (h : f.On db db') (hlt : db.nextID < db'.nextID) :
    db'.nextID = db.nextID + 1 ∧ db'.hasRow db.nextID = true := by
  cases f with
  | inserts =>
    obtain ⟨r, hid, -, -, -, hj, hn⟩ := h
    exact ⟨hn, Database.hasRow_iff.mpr ⟨r, by simp [hj], hid⟩⟩
  | keeps => have := h.2; omega
  | reserves rec t => have := h.2.2.2.1; omega
  | removes t => have := h.2.1; omega
  | releases t => have := h.2.1; omega
  | clears queue => have := h.1; omega

theorem rowFate_step {removals lost : Log DbOp.Res} (hwf : db.WellFormed)
    (heff : (jobsEffect ev).On db db') (h : (id = 0 ∨ db.nextID ≤ id) ∧ removals = [] ∧ lost = [] ∨
      0 < id ∧ id < db.nextID ∧ RowFate db removals lost id) :
    let removals' := removals ++ if removesRow id ev then [ev] else []
    let lost' := lost ++ if db.hasRow id && !db'.hasRow id then [ev] else []
    (id = 0 ∨ db'.nextID ≤ id) ∧ removals' = [] ∧ lost' = [] ∨
      0 < id ∧ id < db'.nextID ∧ RowFate db' removals' lost' id := by
  intro removals' lost'
  have hs := heff.jobsStep hwf.nodup
  have hnext := hs.nextID
  have hrow : removesRow id ev = true → db.hasRow id = true ∧ db'.hasRow id = false := by
    intro hrem
    obtain ⟨t, ht, rfl⟩ := removesRow_iff.mp hrem
    rw [ht] at heff
    exact ⟨(heff.removes_row hwf).1, (heff.removes_row hwf).2.2⟩
  have hkept : db.hasRow id = false → removals' = removals ∧ lost' = lost := by
    intro hno
    have hrem : ¬removesRow id ev = true := fun hrem => by simp [hno] at hrow; simp [hrow] at hrem
    simp [removals', lost', hno, hrem]
  rcases h with ⟨hid, rfl, rfl⟩ | ⟨hpos, hlt, ⟨hin, rfl, rfl⟩ | ⟨hout, ev₀, rfl, hfate⟩⟩
  · -- the row is not there yet; it can only be the one this event inserts
    have hno : db.hasRow id = false := Database.not_hasRow_iff.mpr fun r hr hr' => by
      have := hwf.bounds r hr
      omega
    obtain ⟨hrem, hlost⟩ := hkept hno
    rw [hrem, hlost]
    by_cases hnew : id = 0 ∨ db'.nextID ≤ id
    · exact .inl ⟨hnew, rfl, rfl⟩
    · obtain ⟨hn, hin⟩ := heff.hasRow_nextID (by omega)
      obtain rfl : id = db.nextID := by omega
      exact .inr ⟨by omega, by omega, .inl ⟨hin, rfl, rfl⟩⟩
  · refine .inr ⟨hpos, by omega, ?_⟩
    by_cases hin' : db'.hasRow id = true
    · have hrem : ¬removesRow id ev = true := fun hrem => by simp [hin'] at hrow; simp [hrow] at hrem
      exact .inl ⟨hin', by simp [lost', hin'], by simp [removals', hrem]⟩
    · have hout : db'.hasRow id = false := by simpa using hin'
      obtain ⟨r, hr, rfl⟩ := Database.hasRow_iff.mp hin
      refine .inr ⟨hout, ev, by simp [lost', hin, hout], ?_⟩
      rcases heff.row_lost hr hout with ⟨t, ht, hid⟩ | hcl
      · have hrem := removesRow_iff.mpr ⟨_, ht, hid⟩
        exact .inl ⟨hrem, by simp [removals', hrem]⟩
      · have hrem : removesRow r.id ev = false := by simp [removesRow, hcl]
        exact .inr ⟨⟨r.queue, clearsQueue_iff.mpr hcl⟩, by simp [removals', hrem]⟩
  · obtain ⟨hrem, hlost⟩ := hkept hout
    rw [hrem, hlost]
    exact .inr ⟨hpos, by omega, .inr ⟨hs.not_hasRow hlt hout, ev₀, rfl, hfate⟩⟩

theorem rowFate_run (id : Nat) : let sys := databaseSystem registry
    let p := sys.run (.start {}) acts
    let removals := p.log.filter (removesRow id)
    let lost := sys.falls (·.hasRow id) (.start {}) acts
    (id = 0 ∨ p.world.nextID ≤ id) ∧ removals = [] ∧ lost = [] ∨
      0 < id ∧ id < p.world.nextID ∧ RowFate p.world removals lost id := by
  intro sys
  induction acts using reverseRecOn with
  | nil =>
    refine .inl ⟨?_, rfl, rfl⟩
    change id = 0 ∨ 1 ≤ id
    omega
  | append_singleton acts a ih =>
    have hinv := leaseInv_run registry acts
    simp only [System.run_concat, System.falls_concat] at ih ⊢
    generalize sys.run (.start {}) acts = p at ih hinv ⊢
    rcases sys.falls_step p a (·.hasRow id) with ⟨hf, hw, hl⟩ | ⟨i, e, o, hw, hl, hf⟩
    · rw [hf, hw, hl, append_nil]
      exact ih
    · rw [hw, hl, hf, filter_removesRow_concat]
      have heff := dbExec_effect registry p.world e o i
      exact rowFate_step hinv.wf heff ih

def recordsFailed : Event DbOp.Res → Bool
  | ⟨_, .commitFailedReservation _ _ _ _, .ok _⟩ => true
  | ⟨_, .quarantineReserved _ _ _ _, .ok _⟩ => true
  | ⟨_, .insertFailed _ _ _, .ok _⟩ => true
  | _ => false

attribute [local simp] recordsFailed

theorem dbExec_failedJobs_length (db : Database) (env : DbEnv) (o : DbOp) (i : Nat) :
    (dbExec registry db env o).2.failedJobs.length = db.failedJobs.length +
      if recordsFailed ⟨i, o, (dbExec registry db env o).1⟩ then 1 else 0 := by
  cases o with
  | commitFailedReservation t exception queue payload =>
    cases hf : env.fault with
    | some f => simp [dbExec, hf]
    | none =>
      rcases db.moveToFailed_eq t queue payload exception env.now with ⟨-, hm⟩ | ⟨-, hm⟩ <;>
        simp [dbExec, hf, hm, Database.recordFailed, Database.deleteFenced]
  | quarantineReserved t rec queue exception =>
    cases hf : env.fault with
    | some f => simp [dbExec, hf]
    | none =>
      rcases db.moveToFailed_eq t queue rec.payload exception env.now with ⟨-, hm⟩ | ⟨-, hm⟩ <;>
        simp [dbExec, hf, hm, Database.recordFailed, Database.deleteFenced]
  | insertFailed queue payload exception =>
    cases hf : env.fault <;> simp [dbExec, hf, Database.recordFailed]
  | claimAndInsert key queue payload =>
    cases hf : env.fault with
    | some f => simp [dbExec, Database.claimAndInsert, hf]
    | none =>
      by_cases hk : db.jobDedupe.any (·.dedupeKey = key) = true <;>
        simp [dbExec, Database.claimAndInsert, hf, hk, Database.insertRow]
  | reserveNext d queue =>
    cases hf : env.fault with
    | some f => simp [dbExec, Database.reserveNext, hf]
    | none =>
      cases hsel : db.selectNext d queue env.now env.locked with
      | none => simp [dbExec, Database.reserveNext, hf, hsel]
      | some rec =>
        simp only [dbExec, Database.reserveNext, hf, hsel]
        split <;> simp
  | runFailedHook job err => cases hp : env.hookPanics <;> simp [dbExec, hp]
  | hydrateRecord rec => simp [dbExec]
  | _ =>
    cases hf : env.fault <;>
      simp [dbExec, hf, Database.insertRow, Database.deleteFenced]

theorem failedJobs_run : ((databaseSystem registry).run (.start {}) acts).world.failedJobs.length =
      (((databaseSystem registry).run (.start {}) acts).log.filter recordsFailed).length := by
  refine System.invariant_world (databaseSystem registry)
    (I := fun db log => db.failedJobs.length = (log.filter recordsFailed).length) rfl ?_ acts
  intro db log i env o ih
  have hh := dbExec_failedJobs_length registry db env o i
  rw [filter_append, length_append, ← ih]
  refine hh.trans (congrArg _ ?_)
  by_cases hr : recordsFailed ⟨i, o, (dbExec registry db env o).1⟩ = true
  · rw [if_pos hr, filter_cons_of_pos (by exact hr)]
    rfl
  · rw [if_neg hr, filter_cons_of_neg (by exact hr)]
    rfl

/-- A row is removed through a token at most once, a token whose lease has ended changes nothing and
is told so, and an inserted row is in the table until exactly one event takes it out. -/
theorem lease_fencing (registry : Payload → Except Err Job) (acts : List (Act DbEnv DbCall)) :
    let sys := databaseSystem registry
    let p := sys.run (.start {}) acts
    (∀ id, (p.log.filter (removesRow id)).length ≤ 1) ∧
    (∀ t, LeaseLost t p.log → ∀ (m : Mutator) (env : DbEnv),
      ((m.body t).eval sys.exec env p.world).2 = p.world ∧
      (m.admitted = true → env.fault = none →
        ∃ e, ((m.body t).eval sys.exec env p.world).1 = .error e ∧ e.is .leaseLost = true)) ∧
    (∀ id, 0 < id → id < p.world.nextID →
      RowFate p.world (p.log.filter (removesRow id))
        (sys.falls (·.hasRow id) (.start {}) acts) id) ∧
    p.world.failedJobs.length = (p.log.filter recordsFailed).length := by
  intro sys p
  have hinv : LeaseInv p.world p.log := leaseInv_run registry acts
  refine ⟨hinv.once, fun t hlost m env => ?_, fun id hpos hlt => ?_, failedJobs_run registry acts⟩
  · obtain ⟨hid, hlapsed⟩ := hinv.lapsed t hlost
    exact Mutator.refused registry hlapsed.not_fenced hid env m
  · rcases rowFate_run registry acts id with ⟨hid, -⟩ | ⟨-, -, hfate⟩
    · exact absurd hid (by change ¬(id = 0 ∨ p.world.nextID ≤ id); omega)
    · exact hfate

/-- Two drivers pop one row, the second after the first one's lease has expired. -/
def reclaimRun : List (Act DbEnv DbCall) :=
  [.spawn (.pushCtx none (some { type := "T", data := some "{}" }) none), .run 0 {},
    .spawn (.popCtxReserved ⟨"a", .sqlite, 5⟩ none "default"), .run 1 {},
    .spawn (.popCtxReserved ⟨"b", .sqlite, 5⟩ none "default"), .run 2 { now := 10 }]

def reclaimRow (attempts : Nat) (reservedAt : Option Time) (reservedBy : Option String) :
    JobRecord :=
  { id := 1, queue := "default", payload := ⟨none, ⟨"T", "{}", "default", 0, ""⟩, ""⟩, attempts,
    scheduledAt := 0, reservedAt, reservedBy, failedAt := none, failedReason := none,
    createdAt := 0, updatedAt := 0 }

theorem leaseLost_reclaimRun :
    LeaseLost ⟨1, 1, "a"⟩ ((databaseSystem registry).run (.start {}) reclaimRun).log := by
  refine ⟨((databaseSystem registry).run (.start {}) reclaimRun).log.take 2,
    ⟨2, .reserveNext ⟨"b", .sqlite, 5⟩ "default",
      .ok (some (reclaimRow 1 (some 0) (some "a"), ⟨1, 2, "b"⟩))⟩, [], reclaimRow 0 none none, rfl,
    ⟨⟨1, .reserveNext ⟨"a", .sqlite, 5⟩ "default",
      .ok (some (reclaimRow 0 none none, ⟨1, 1, "a"⟩))⟩, ?_, rfl⟩, rfl⟩
  exact mem_of_getElem? (i := 1) rfl

theorem lease_fencing_reclaimed :
    let sys := databaseSystem fun _ => .error .jobNotFound
    let p := sys.run (.start {}) reclaimRun
    let late := (DatabaseDriver.ackCtx none ⟨1, 1, "a"⟩).eval sys.exec {} p.world
    LeaseLost ⟨1, 1, "a"⟩ p.log ∧ late.2 = p.world ∧
      ∃ e, late.1 = .error e ∧ e.is .leaseLost = true := by
  have hlost := leaseLost_reclaimRun fun _ => .error .jobNotFound
  have hh := (lease_fencing (fun _ => .error .jobNotFound) reclaimRun).2.1 _ hlost (.ackCtx none) {}
  exact ⟨hlost, hh.1, hh.2 rfl rfl⟩

end Velocity.Queue
