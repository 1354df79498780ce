import Velocity.Queue.Database
import Velocity.Queue.MemoryDedupe

/-! The memory and the database driver side by side. Both are given the same calls, one
after the other; they enqueue the same pushes as long as every `Clear` finds the keys of
its queue on live jobs. -/

namespace Velocity.Queue

open Interleave MemoryDriver Database Prog List

structure Drivers where
  mem : MemWorld := {}
  db : Database := {}

/-- One call, made to both drivers. A lease has a token of either driver. -/
inductive DedupeCall
  | pushIfNotExistsCtx (job : Option Job) (dedupeKey : String) (queueName : Option String)
  | popCtxReserved (queueName : String)
  | ackCtx (memToken dbToken : ReservationToken)
  | failReservedCtx (memToken dbToken : ReservationToken) (job : Job) (jobErr : Err)
      (queueName : String)
  | clear (queueName : String)

def DedupeCall.memory : DedupeCall → MemCall
  | .pushIfNotExistsCtx job key queue => .pushIfNotExistsCtx none job key queue
  | .popCtxReserved queue => .popCtxReserved none queue
  | .ackCtx token _ => .ackCtx none token
  | .failReservedCtx token _ job err queue => .failReservedCtx none token job err queue
  | .clear queue => .clear queue

def DedupeCall.database (d : DatabaseDriver) : DedupeCall → DbCall
  | .pushIfNotExistsCtx job key queue => .pushIfNotExistsCtx none job key queue
  | .popCtxReserved queue => .popCtxReserved d none queue
  | .ackCtx _ token => .ackCtx none token
  | .failReservedCtx _ token job err queue => .failReservedCtx none token job err queue
  | .clear queue => .clear true queue

structure CallEnv where
  mem : MemEnv := {}
  db : DbEnv := {}

abbrev Served := CallEnv × DedupeCall

namespace Drivers

variable (registry : Registry) (d : DatabaseDriver)

variable (before : List Served) (c : Served)

def memCall (w : MemWorld) (c : Served) : MemAnswer × MemWorld :=
  c.2.memory.body.eval (memExec registry) c.1.mem w

/-- No statement of the database fails. -/
def dbCall (db : Database) (c : Served) : DbAnswer × Database :=
  (c.2.database d).body.eval (dbExec registry) { c.1.db with fault := none } db

def call (s : Drivers) (c : Served) : Drivers :=
  ⟨(memCall registry s.mem c).2, (dbCall registry d s.db c).2⟩

def run (calls : List Served) : Drivers :=
  calls.foldl (call registry d) {}

def succeeds : Bool :=
  let s := run registry d before
  (memCall registry s.mem c).1.isOk && (dbCall registry d s.db c).1.isOk

def agrees : Bool :=
  let s := run registry d before
  let s' := s.call registry d c
  match c.2 with
  | .pushIfNotExistsCtx _ _ _ => (s.mem.nextPtr < s'.mem.nextPtr) == (s.db.nextID < s'.db.nextID)
  | _ => true

/-- Every key that was claimed for a cleared queue is on a live job. -/
def clearsLive : Bool :=
  let s := run registry d before
  match c.2 with
  | .clear queue => s.db.jobDedupe.all fun row =>
      row.queue ≠ queue || (s.mem.keysOfQueue queue).contains row.dedupeKey
  | _ => true

end Drivers

/-- The drivers hold the same keys, one row each, and a live wrapper's row names its queue. -/
structure Matched (w : MemWorld) (db : Database) : Prop where
  issued : w.ReservationsIssued
  held : ∀ k, (w.dedupeKeys.lookup k).isSome = true ↔ ∃ row ∈ db.jobDedupe, row.dedupeKey = k
  live : ∀ q v, w.Live q v → v.dedupeKey ≠ "" → ⟨v.dedupeKey, q⟩ ∈ db.jobDedupe
  one : ∀ row ∈ db.jobDedupe, ∀ row' ∈ db.jobDedupe, row.dedupeKey = row'.dedupeKey → row = row'

def MemOp.unkeyed : MemOp → Prop
  | .enqueue wrapper _ => wrapper.dedupeKey = ""
  | .delay wrapper _ _ => wrapper.dedupeKey = ""
  | .claim _ _ _ => False
  | .clear _ => False
  | .sweepStaleDedupeKeys _ => False
  | _ => True

def DbOp.keepsDedupe : DbOp → Prop
  | .claimAndInsert _ _ _ => False
  | .clearDedupe _ => False
  | _ => True

theorem dbExec_jobDedupe (registry : Registry) (db : Database) (env : DbEnv)
    {o : DbOp} (ho : o.keepsDedupe) : (dbExec registry db env o).2.jobDedupe = db.jobDedupe := by
  have hmove : ∀ token queue payload exception now,
      (db.moveToFailed token queue payload exception now).2.jobDedupe = db.jobDedupe := by
    intro token queue payload exception now
    unfold moveToFailed
    split <;> rfl
  cases o with
  | claimAndInsert key queue payload => exact absurd ho id
  | clearDedupe queue => exact absurd ho id
  | hydrateRecord rec => rfl
  | reserveNext drv queue =>
    simp only [dbExec, reserveNext]
    split
    · rfl
    · split
      · rfl
      · split <;> rfl
  | commitFailedReservation token exception queue payload
  | quarantineReserved token rec queue exception =>
    simp only [dbExec]
    split
    · rfl
    · exact hmove _ _ _ _ _
  | _ =>
    simp only [dbExec]
    split <;> rfl

namespace Matched

variable {w w' : MemWorld} {db db' : Database}

theorem start : Matched {} {} where
  issued id r h := by simp at h
  held k := by simp
  live q v hv := by simp [MemWorld.live_iff, MemWorld.heapItems] at hv
  one row h := by simp at h

theorem congr (h : Matched w db) (hdb : db'.jobDedupe = db.jobDedupe) : Matched w db' := by
  refine ⟨h.issued, ?_, ?_, ?_⟩ <;> rw [hdb]
  · exact h.held
  · exact h.live
  · exact h.one

theorem tick (h : Matched w db) (t : Time) : Matched { w with clock := t } db :=
  ⟨h.issued, h.held, h.live, h.one⟩

theorem unkeyed {o : MemOp} {r : o.Res} (h : Matched w db) (hp : w.Performs o r w')
    (ho : o.unkeyed) : Matched w' db := by
  have hl : ∀ k, w'.dedupeKeys.lookup k = w.dedupeKeys.lookup k := by
    intro k
    rcases hp.lookup_key k with hl | ⟨jw, name, rfl, -⟩ | ⟨queue, rfl, -⟩ | ⟨now, -, rfl, -⟩
    · exact hl
    · exact absurd ho id
    · exact absurd ho id
    · exact absurd ho id
  refine ⟨h.issued.step hp, fun k => by rw [hl]; exact h.held k, fun q v hv hk => ?_, h.one⟩
  rcases (hp.queuedStep h.issued).origin q v hv with ⟨jw, hb, rfl⟩ | ⟨u, hu, hcore⟩
  · exfalso
    cases o with
    | enqueue jw' name | delay jw' delay name =>
      obtain ⟨rfl, -⟩ := Prod.mk.inj (Option.some.inj hb)
      exact hk ho
    | claim jw' key name => exact ho
    | _ => cases hb
  · rw [← Wrapper.key_of_core hcore] at hk ⊢
    exact h.live q u hu hk

end Matched

theorem Matched.eval {α β : Type} {p : MemProg α} {q : DbProg β}
    (hp : p.All MemOp.unkeyed) (hq : q.All DbOp.keepsDedupe) (registry : Registry)
    (env : MemEnv) (denv : DbEnv) {w : MemWorld} {db : Database} (h : Matched w db) :
    Matched (p.eval (memExec registry) env w).2 (q.eval (dbExec registry) denv db).2 := by
  have hdb : (q.eval (dbExec registry) denv db).2.jobDedupe = db.jobDedupe :=
    hq.eval
      (fun db' o ho he => (dbExec_jobDedupe registry db' denv ho).trans he) rfl
  refine congr ?_ hdb
  refine hp.eval (I := fun w => Matched w db) (fun w o ho hw => ?_) h
  exact (hw.tick _).unkeyed (memStep_performs registry _ env o) ho

theorem MemCall.plain_all {p : MemProg (Except Err Unit)} (hp : p.All MemOp.unkeyed) :
    (plain p).All MemOp.unkeyed :=
  hp.bind fun _ => trivial

theorem popCtxReserved_unkeyed (queue : String) :
    (popCtxReserved none queue).All MemOp.unkeyed := by
  refine ⟨trivial, fun reserved => ?_⟩
  rcases reserved with _ | ⟨⟨⟨job, -⟩, -⟩, -⟩
  · trivial
  · cases job with
    | some job => trivial
    | none =>
      refine ⟨trivial, fun rebuilt => ?_⟩
      cases rebuilt with
      | ok job => trivial
      | error cause =>
        refine ⟨trivial, fun res => ?_⟩
        cases res <;> trivial

theorem ackCtx_unkeyed (token : ReservationToken) : (ackCtx none token).All MemOp.unkeyed := by
  unfold ackCtx
  split
  · trivial
  · exact ⟨trivial, fun _ => trivial⟩

theorem failedCtx_unkeyed (job : Job) (err : Err) (queue : String) :
    (failedCtx job err queue).All MemOp.unkeyed := by
  unfold failedCtx
  cases createJobWrapper job queue with
  | error e => trivial
  | ok wrapper => exact ⟨trivial, fun _ => ⟨trivial, fun _ => trivial⟩⟩

theorem failReservedCtx_unkeyed (token : ReservationToken) (job : Job) (err : Err)
    (queue : String) : (failReservedCtx none token job err queue).All MemOp.unkeyed := by
  unfold failReservedCtx
  split
  · exact failedCtx_unkeyed job err queue
  · refine ⟨trivial, fun res => ?_⟩
    cases res with
    | error e => trivial
    | ok r => exact ⟨trivial, fun _ => trivial⟩

theorem DbCall.plain_all {p : DbProg (Except Err Unit)} (hp : p.All DbOp.keepsDedupe) :
    (plain p).All DbOp.keepsDedupe :=
  hp.bind fun _ => trivial

namespace DatabaseDriver

theorem popCtxReserved_keepsDedupe (d : DatabaseDriver) (queue : String) :
    (d.popCtxReserved none queue).All DbOp.keepsDedupe := by
  refine ⟨trivial, fun reserved => ?_⟩
  rcases reserved with e | _ | ⟨-, -⟩
  · trivial
  · trivial
  · refine ⟨trivial, fun rebuilt => ?_⟩
    cases rebuilt with
    | ok job => trivial
    | error poisonErr =>
      refine ⟨trivial, fun res => ?_⟩
      cases res <;> trivial

theorem ackCtx_keepsDedupe (token : ReservationToken) :
    (ackCtx none token).All DbOp.keepsDedupe := by
  unfold ackCtx
  split
  · trivial
  · exact ⟨trivial, fun _ => trivial⟩

theorem failReservedCtx_keepsDedupe (token : ReservationToken) (job : Job) (err : Err)
    (queue : String) : (failReservedCtx none token job err queue).All DbOp.keepsDedupe := by
  unfold failReservedCtx failedCtx
  cases createJobWrapper job queue with
  | error e => by_cases ht : token.isZero = true <;> simp [ht, All]
  | ok wrapper =>
    by_cases ht : token.isZero = true
    all_goals
      simp only [ht, if_true]
      refine ⟨trivial, fun res => ?_⟩
      cases res with
      | error e => trivial
      | ok u => exact ⟨trivial, fun _ => trivial⟩

end DatabaseDriver

namespace Matched

variable {w w' : MemWorld} {db db' : Database}

theorem fresh {key : String} (h : Matched w db) (hnone : w.dedupeKeys.lookup key = none) :
    ∀ row ∈ db.jobDedupe, row.dedupeKey ≠ key := by
  intro row hrow he
  have hh := (h.held key).mpr ⟨row, hrow, he⟩
  rw [hnone] at hh
  cases hh

theorem claim {jw : JobWrapper} {key name : String} (h : Matched w db)
    (hkey : jw.dedupeKey = key) (hnone : w.dedupeKeys.lookup key = none)
    (hdb : db'.jobDedupe = db.jobDedupe ++ [⟨key, name⟩]) : Matched (w.claim jw key name).2 db' := by
  have hp : w.Performs (.claim jw key name) (some w.clock) (w.claim jw key name).2 := by
    simp only [MemWorld.claim, hnone]
    exact .claim jw name hnone
  have hl : ∀ k, (w.claim jw key name).2.dedupeKeys.lookup k =
      if k = key then some w.clock else w.dedupeKeys.lookup k := by
    intro k
    simp only [MemWorld.claim, hnone]
    exact FMap.lookup_insert_ite _ _ _ _
  have hnew := h.fresh hnone
  refine ⟨h.issued.step hp, fun k => ?_, fun q v hv hk => ?_, fun row hrow row' hrow' he => ?_⟩
  · rw [hl, hdb]
    by_cases hk : k = key
    · simp [hk]
    · rw [if_neg hk, h.held k]
      simp [Ne.symm hk]
  · rw [hdb]
    rcases (hp.queuedStep h.issued).origin q v hv with ⟨jw', hb, rfl⟩ | ⟨u, hu, hcore⟩
    · obtain ⟨rfl, rfl⟩ := Prod.mk.inj (Option.some.inj hb)
      exact mem_append_right _ (by simp [MemWorld.publish, hkey])
    · rw [← Wrapper.key_of_core hcore] at hk ⊢
      exact mem_append_left _ (h.live q u hu hk)
  · rw [hdb] at hrow hrow'
    rcases mem_concat.mp hrow with hrow | rfl
    · rcases mem_concat.mp hrow' with hrow' | rfl
      · exact h.one row hrow row' hrow' he
      · exact absurd he (hnew row hrow)
    · rcases mem_append.mp hrow' with hrow' | hrow'
      · exact absurd he.symm (hnew row' hrow')
      · exact (mem_singleton.mp hrow').symm

theorem clear (queue : String) (h : Matched w db)
    (hlive : ∀ row ∈ db.jobDedupe, row.queue = queue → row.dedupeKey ∈ w.keysOfQueue queue)
    (hdb : db'.jobDedupe = db.jobDedupe.filter fun row => row.queue ≠ queue) :
    Matched (w.clear queue) db' := by
  have hp : w.Performs (.clear queue) () (w.clear queue) := .clear queue
  have hl : ∀ k, (w.clear queue).dedupeKeys.lookup k =
      if k ∈ w.keysOfQueue queue then none else w.dedupeKeys.lookup k :=
    FMap.lookup_eraseAll _ _
  have hmem : ∀ row, row ∈ db'.jobDedupe ↔ row ∈ db.jobDedupe ∧ row.queue ≠ queue := by
    intro row
    rw [hdb, mem_filter, decide_eq_true_eq]
  refine ⟨h.issued.step hp, fun k => ?_, fun q v hv hk => ?_, fun row hrow row' hrow' => ?_⟩
  · rw [hl]
    constructor
    · intro hk
      have hout : k ∉ w.keysOfQueue queue := fun hin => by simp [hin] at hk
      rw [if_neg hout, h.held k] at hk
      obtain ⟨row, hrow, rfl⟩ := hk
      exact ⟨row, (hmem row).mpr ⟨hrow, fun hq => hout (hlive row hrow hq)⟩, rfl⟩
    · rintro ⟨row, hrow, rfl⟩
      obtain ⟨hrow, hq⟩ := (hmem row).mp hrow
      have hout : row.dedupeKey ∉ w.keysOfQueue queue := by
        intro hin
        -- the live wrapper with this key has its row in the cleared queue
        obtain ⟨hk, v, hv, hvk⟩ := MemWorld.mem_keysOfQueue.mp hin
        have hh := h.one row hrow _ (h.live queue v hv (hvk ▸ hk)) hvk.symm
        exact hq (by rw [hh])
      rw [if_neg hout]
      exact (h.held _).mpr ⟨row, hrow, rfl⟩
  · obtain ⟨hq, hv⟩ := MemWorld.live_clear hv
    exact (hmem _).mpr ⟨h.live q v hv hk, hq⟩
  · exact h.one row ((hmem row).mp hrow).1 row' ((hmem row').mp hrow').1

end Matched

theorem admitted_cases (job : Option Job) (queueName : Option String) :
    (∃ e, admitted none job queueName = .error e ∧
      ((∃ e, admitJob job queueName = .error e) ∨ ∃ job' name e,
        admitJob job queueName = .ok (job', name) ∧ createJobWrapper job' name = .error e)) ∨
    ∃ job' name wrapper, admitted none job queueName = .ok (wrapper, name) ∧
      admitJob job queueName = .ok (job', name) ∧ createJobWrapper job' name = .ok wrapper := by
  cases ha : admitJob job queueName with
  | error e => exact .inl ⟨e, by simp [admitted, ha, bind, Except.bind], .inl ⟨e, rfl⟩⟩
  | ok a =>
    obtain ⟨job', name⟩ := a
    cases hw : createJobWrapper job' name with
    | error e =>
      exact .inl ⟨e, by simp [admitted, ha, hw, bind, Except.bind], .inr ⟨job', name, e, rfl, hw⟩⟩
    | ok wrapper =>
      exact .inr ⟨job', name, wrapper, by simp [admitted, ha, hw, bind, Except.bind], rfl, hw⟩

namespace Drivers

variable (registry : Registry) (d : DatabaseDriver)

theorem memCall_push (w : MemWorld) (env : CallEnv) (job : Option Job) (key : String)
    (queue : Option String) : (memCall registry w (env, .pushIfNotExistsCtx job key queue)).2 =
      match admitted none job queue with
      | .error _ => w
      | .ok (wrapper, name) =>
        let w' := { w with clock := w.clock + env.mem.elapsed }
        if key = "" then w'.pushBack wrapper name
        else (w'.claim { wrapper with dedupeKey := key } key name).2 := by
  simp only [memCall, DedupeCall.memory, MemCall.body, MemCall.plain,
    pushIfNotExistsCtx, pushCtx, eval_bind]
  by_cases hk : key = ""
  · simp only [hk, if_true]
    cases admitted none job queue <;> rfl
  · simp only [hk, if_false]
    cases admitted none job queue <;> rfl

attribute [local simp] DatabaseDriver.pushIfNotExistsCtx DatabaseDriver.pushDelayedCtx
  DatabaseDriver.pushCtx dbCall DedupeCall.database DbCall.body DbCall.plain eval

theorem dbCall_push (db : Database) (env : CallEnv) (job : Option Job) (key : String)
    (queue : Option String) : (dbCall registry d db (env, .pushIfNotExistsCtx job key queue)).2 =
      match admitted none job queue with
      | .error _ => db
      | .ok (wrapper, name) =>
        if key = "" then db.insertRow name wrapper.wire env.db.now env.db.now
        else
          let keyed : JobWrapper :=
            ⟨wrapper.job, { wrapper.payload with dedupeKey := key }, key⟩
          (db.claimAndInsert { env.db with fault := none } key name keyed.wire).2 := by
  rcases admitted_cases job queue with ⟨e, ha, ⟨e', hj⟩ | ⟨job', name, e', hj, hw⟩⟩ |
    ⟨job', name, wrapper, ha, hj, hw⟩
  · by_cases hk : key = "" <;> simp [ha, hj, hk]
  · by_cases hk : key = "" <;> simp [ha, hj, hw, hk]
  · by_cases hk : key = ""
    · simp [ha, hj, hw, hk, dbExec]
    · simp only [ha, hj, hw, hk, dbExec, dbCall, DedupeCall.database, DbCall.body, DbCall.plain,
        DatabaseDriver.pushIfNotExistsCtx, if_false, eval_bind, eval]
      split <;> rfl

theorem push_step {s : Drivers} (h : Matched s.mem s.db) (env : CallEnv) (job : Option Job)
    (key : String) (queue : Option String) :
    let s' := s.call registry d (env, .pushIfNotExistsCtx job key queue)
    Matched s'.mem s'.db ∧ (s.mem.nextPtr < s'.mem.nextPtr ↔ s.db.nextID < s'.db.nextID) := by
  simp only [call, memCall_push, dbCall_push]
  have htick := h.tick (s.mem.clock + env.mem.elapsed)
  cases ha : admitted none job queue with
  | error e => exact ⟨h, by simp⟩
  | ok a =>
    obtain ⟨wrapper, name⟩ := a
    by_cases hk : key = ""
    · simp only [hk, if_true]
      refine ⟨(htick.unkeyed (.enqueue wrapper name) (Hand.admitted_wrapper ha).1).congr rfl, ?_⟩
      simp [MemWorld.pushBack, insertRow]
    · simp only [hk, if_false]
      cases hl : s.mem.dedupeKeys.lookup key with
      | some t =>
        -- the key is held on both sides
        obtain ⟨row, hrow, hrk⟩ := (h.held key).mp (by simp [hl])
        have hany : (s.db.jobDedupe.any fun row => row.dedupeKey = key) = true :=
          any_eq_true.mpr ⟨row, hrow, by simpa using hrk⟩
        simp only [MemWorld.claim, hl, claimAndInsert, hany, if_true]
        exact ⟨htick, by simp⟩
      | none =>
        have hany : (s.db.jobDedupe.any fun row => row.dedupeKey = key) = false := by
          simpa using h.fresh hl
        constructor
        · refine htick.claim rfl hl ?_
          simp [claimAndInsert, hany, insertRow]
        · simp [MemWorld.claim, hl, MemWorld.pushBack, claimAndInsert, hany, insertRow]

variable {registry d} {before : List Served}

theorem call_step {c : Served} (h : Matched (run registry d before).mem (run registry d before).db)
    (hclear : clearsLive registry d before c = true) :
    Matched ((run registry d before).call registry d c).mem
      ((run registry d before).call registry d c).db := by
  set x := run registry d before
  obtain ⟨env, c⟩ := c
  cases c with
  | pushIfNotExistsCtx job key queue => exact (push_step registry d h env job key queue).1
  | popCtxReserved queue =>
    exact h.eval (popCtxReserved_unkeyed queue) (d.popCtxReserved_keepsDedupe queue) registry _ _
  | ackCtx token token' =>
    exact h.eval (MemCall.plain_all (ackCtx_unkeyed token))
      (DbCall.plain_all (DatabaseDriver.ackCtx_keepsDedupe token')) registry _ _
  | failReservedCtx token token' job err queue =>
    exact h.eval (MemCall.plain_all (failReservedCtx_unkeyed token job err queue))
      (DbCall.plain_all (DatabaseDriver.failReservedCtx_keepsDedupe token' job err queue))
      registry _ _
  | clear queue =>
    refine (h.tick _).clear queue (fun row hrow hq => ?_) rfl
    have hh := all_eq_true.mp hclear row hrow
    have hin : row.dedupeKey ∈ x.mem.keysOfQueue queue := by
      simpa [hq] using hh
    exact hin

theorem run_concat (before : List Served) (c : Served) :
    run registry d (before ++ [c]) = (run registry d before).call registry d c := by
  simp [run]

theorem matched_run {calls : List Served}
    (h : EachAfter (fun before c => clearsLive registry d before c = true) calls) :
    Matched (run registry d calls).mem (run registry d calls).db := by
  induction calls using reverseRecOn with
  | nil => exact .start
  | append_singleton calls c ih =>
    obtain ⟨hcalls, hc⟩ := eachAfter_concat.mp h
    rw [run_concat]
    exact call_step (ih hcalls) hc

theorem agrees_of_matched (c : Served)
    (h : Matched (run registry d before).mem (run registry d before).db) :
    agrees registry d before c = true := by
  obtain ⟨env, c⟩ := c
  cases c with
  | pushIfNotExistsCtx job key queue =>
    have hh := (push_step registry d h env job key queue).2
    simp [agrees, hh]
  | _ => rfl

end Drivers

open Drivers in
/-- When no `Clear` comes after a job of its queue was consumed with its key still held. On MySQL
`job_dedupe` compares keys by the collation of its column, and not byte by byte. -/
theorem enqueues_agree (registry : Payload → Except Err Job) (d : DatabaseDriver)
    (_ : d.dbDriver ≠ .mysql) (calls : List (CallEnv × DedupeCall))
    (h : EachAfter (fun before c => clearsLive registry d before c = true) calls) :
    EachAfter (fun before c => agrees registry d before c = true) calls := by
  induction calls using reverseRecOn with
  | nil => exact eachAfter_nil _
  | append_singleton calls c ih =>
    obtain ⟨hcalls, -⟩ := eachAfter_concat.mp h
    exact eachAfter_concat.mpr ⟨ih hcalls, agrees_of_matched c (matched_run hcalls)⟩

def dedupeJob : Job := { type := "T", data := some "{}" }

def dedupeDriver : DatabaseDriver := ⟨"w", .sqlite, 60⟩

def pushKey : Served := ({}, .pushIfNotExistsCtx (some dedupeJob) "k" none)

def clearLeased : List Served :=
  [pushKey, ({}, .popCtxReserved "default"), ({}, .clear "default"), pushKey]

open Drivers in
theorem enqueues_agree_clearLeased :
    let registry := fun _ => Except.ok dedupeJob
    EachAfter (fun before c => clearsLive registry dedupeDriver before c = true) clearLeased ∧
      EachAfter (fun before c => agrees registry dedupeDriver before c = true) clearLeased := by
  intro registry
  have h : EachAfter (fun before c => clearsLive registry dedupeDriver before c = true)
      clearLeased := by decide
  exact ⟨h, enqueues_agree registry dedupeDriver (by decide) clearLeased h⟩

/-- The table loses the key of an acknowledged job, the memory driver keeps it. -/
def clearConsumed : List Served :=
  [pushKey, ({}, .popCtxReserved "default"), ({}, .ackCtx ⟨1, 1, ""⟩ ⟨1, 1, "w"⟩),
    ({}, .clear "default"), pushKey]

open Drivers in
theorem clearConsumed_disagrees :
    let registry := fun _ => Except.ok dedupeJob
    EachAfter (fun before c => succeeds registry dedupeDriver before c = true) clearConsumed ∧
      ¬EachAfter (fun before c => agrees registry dedupeDriver before c = true) clearConsumed := by
  decide

end Velocity.Queue
