import Velocity.Queue.DatabaseBatches

/-! The database batch repository against the in-memory one: the SET list means the same on
every engine, the two statements do to a row what `settleSlot` does to its batch, and the
repositories report alike along any calls. -/

namespace Velocity.Queue

open SetList Option Prod Steps Batch DatabaseBatchRepository

/-- The flags and texts `incrementCounter` is called with. -/
inductive Counter
  | success
  | failure (errText : String)
  | skip
  deriving DecidableEq, Repr

namespace Counter

def isSuccess : Counter → Bool
  | .success => true
  | _ => false

def isFailure : Counter → Bool
  | .failure _ => true
  | _ => false

def errText : Counter → Option String
  | .failure text => some text
  | _ => none

def settle (k : Counter) (now : Time) (b : Batch) : Bool × Batch :=
  b.settleSlot k.isSuccess.toNat k.isFailure.toNat k.errText now

end Counter

theorem buildIncrementUpdate_pairwise (success failure : Bool) (errText : Option String)
    (now : Time) : (buildIncrementUpdate success failure errText now).Pairwise
      fun a b => a.target ∉ b.rhs.reads := by
  cases success <;> cases failure <;> cases errText <;>
    simp [buildIncrementUpdate, whenPending, pendingPositive, Expr.reads]

variable (d : Dialect)

theorem Dialect.assign_eq_preUpdate {set : List (Assignment BatchCol.Val)}
    (h : set.Pairwise fun a b => a.target ∉ b.rhs.reads) (row : BatchRow) :
    d.assign set row = preUpdate set row := by
  cases d with
  | mysql => exact leftToRight_eq_preUpdate h row
  | _ => rfl

attribute [local simp] Assignment.write Function.update scanBatchRow buildIncrementUpdate
  whenPending Counter.isSuccess Counter.isFailure Counter.errText preUpdate Expr.eval

theorem scan_update (k : Counter) (now : Time) (row : BatchRow) :
    scanBatchRow (preUpdate (buildIncrementUpdate k.isSuccess k.isFailure k.errText now) row) =
      if 0 < row .pendingJobs then { scanBatchRow row with
          pendingJobs := row .pendingJobs - 1
          completedJobs := row .completedJobs + k.isSuccess.toNat
          failedJobs := row .failedJobs + k.isFailure.toNat
          lastError := k.errText.getD ((row .lastError).getD "") }
      else scanBatchRow row := by
  by_cases hp : 0 < row .pendingJobs <;> cases k <;>
    simp [pendingPositive, hp]

theorem update_completedAt (k : Counter) (now : Time) (row : BatchRow) :
    preUpdate (buildIncrementUpdate k.isSuccess k.isFailure k.errText now) row .completedAt =
      row .completedAt := by
  cases k <;> simp

theorem Dialect.rowsAffected_of_ne {old new : BatchRow} (c : BatchCol)
    (h : old c ≠ new c) : d.rowsAffected old new = 1 := by
  have hmem : c ∈ BatchCol.all := by cases c <;> decide
  have hall : BatchCol.all.all (fun c => old c = new c) = false :=
    List.all_eq_false.mpr ⟨c, hmem, by simpa using h⟩
  simp [rowsAffected, hall]

theorem stamped_pairwise {c : BatchCol} (v : c.Val) (now : Time) :
    [(⟨c, .const v⟩ : Assignment BatchCol.Val), ⟨.updatedAt, .const now⟩].Pairwise
      fun a b => a.target ∉ b.rhs.reads := by
  simp [Expr.reads]

theorem scan_completionCAS (now : Time) (row : BatchRow) :
    ((d.completionCAS now row).1 == 1, scanBatchRow (d.completionCAS now row).2) =
      if row .pendingJobs = 0 ∧ row .completedAt = none then
        (true, { scanBatchRow row with finished := true, finishedAt := some now })
      else (false, scanBatchRow row) := by
  by_cases hcas : row .pendingJobs = 0 ∧ row .completedAt = none
  · have hchanged : row .completedAt ≠ preUpdate
        [⟨.completedAt, .const (some now)⟩, ⟨.updatedAt, .const now⟩] row .completedAt := by
      simp [hcas.2]
    have hone := d.rowsAffected_of_ne .completedAt hchanged
    simp only [Dialect.completionCAS, if_pos hcas, d.assign_eq_preUpdate (stamped_pairwise _ _), hone]
    simp
  · simp [Dialect.completionCAS, hcas]

theorem scan_cancelRow (now : Time) (row : BatchRow) :
    scanBatchRow (cancelRow d now row) = { scanBatchRow row with cancelled := true } := by
  unfold cancelRow
  by_cases hc : row .cancelledAt = none
  · rw [if_pos hc, d.assign_eq_preUpdate (stamped_pairwise _ _)]
    simp
  · obtain ⟨t, ht⟩ := ne_none_iff_exists'.mp hc
    simp [ht]

theorem scan_updateAndCAS (k : Counter) (now : Time) {row : BatchRow}
    (h : 0 < row .pendingJobs ∨ row .completedAt ≠ none) :
    let out := updateAndCAS d k.isSuccess k.isFailure k.errText now row
    (out.1, scanBatchRow out.2) = k.settle now (scanBatchRow row) := by
  have hscan := scan_update k now row
  have hdone := update_completedAt k now row
  simp only [updateAndCAS, d.assign_eq_preUpdate (buildIncrementUpdate_pairwise _ _ _ _)]
  set updated := preUpdate (buildIncrementUpdate k.isSuccess k.isFailure k.errText now) row
  rw [scan_completionCAS d now updated, hdone]
  have hpending : updated .pendingJobs = (scanBatchRow updated).pendingJobs := rfl
  rw [hpending, hscan]
  by_cases hp : 0 < row .pendingJobs
  · have hle : ¬ row .pendingJobs ≤ 0 := Int.not_le.mpr hp
    simp only [if_pos hp, Counter.settle, settleSlot, scanBatchRow, hle, if_false]
    by_cases hopen : row .completedAt = none
    · by_cases hlast : row .pendingJobs - 1 = 0 <;> simp [hopen, hlast]
    · obtain ⟨t, ht⟩ := ne_none_iff_exists'.mp hopen
      simp [ht]
  · have hne : row .completedAt ≠ none := h.resolve_left hp
    have hle : (scanBatchRow row).pendingJobs ≤ 0 := Int.not_lt.mp hp
    rw [Counter.settle, settleSlot_of_empty hle]
    simp [hp, hne]

/-- The database truncates the last error, and overwrites it even with none. -/
def Batch.withoutError (b : Batch) : Batch := { b with lastError := "" }

theorem Batch.settleSlot_withoutError (b : Batch) (completed failed : Int)
    (errText : Option String) (now : Time) : b.withoutError.settleSlot completed failed none now =
      ((b.settleSlot completed failed errText now).1,
        (b.settleSlot completed failed errText now).2.withoutError) := by
  unfold settleSlot
  by_cases hp : b.pendingJobs ≤ 0
  · simp [withoutError, hp]
  · by_cases hlast : b.pendingJobs - 1 = 0 <;> cases hf : b.finished <;>
      simp [withoutError, hp, hlast, hf]

def Batch.Settled (b : Batch) : Prop := 0 < b.pendingJobs ∨ b.finished = true

theorem Batch.Settled.on {b : Batch} (h : b.Settled) (op : RepoOp) (now : Time) :
    (op.on now b).2.Settled := by
  have hsettle : ∀ completed failed errText, (b.settleSlot completed failed errText now).2.Settled := by
    intro completed failed errText
    by_cases hp : 0 < b.pendingJobs
    · obtain ⟨hpending, -, -, -, hfinished⟩ :=
        settleSlot_of_pending hp completed failed errText now
      by_cases hlast : b.pendingJobs = 1
      · exact Or.inr (by simp [hfinished, hlast])
      · exact Or.inl (by omega)
    · rw [settleSlot_of_empty (Int.not_lt.mp hp)]
      exact h
  cases op with
  | cancel => exact h
  | _ => exact hsettle _ _ _

def RepoOp.counter : RepoOp → Option Counter
  | .incrementSuccess => some .success
  | .incrementFailure jobErr =>
    some (.failure ((jobErr.map fun e => truncateErrorText e.message 4096).getD ""))
  | .decrementPending => some .skip
  | .cancel => none

def RepoOp.onRow (d : Dialect) (op : RepoOp) (now : Time) (row : BatchRow) :
    Option (Bool × BatchRow) :=
  match op.counter with
  | some k => settleRow d k.isSuccess k.isFailure k.errText now row
  | none => some (false, cancelRow d now row)

structure RowAgrees (b : Batch) (row : BatchRow) : Prop where
  same : b.withoutError = (scanBatchRow row).withoutError
  settled : b.Settled

namespace RowAgrees

variable {b : Batch} {row : BatchRow} (h : RowAgrees b row)

include h

theorem pending : b.pendingJobs = row .pendingJobs :=
  congrArg pendingJobs h.same

theorem completed : 0 < row .pendingJobs ∨ row .completedAt ≠ none := by
  have hfin : b.finished = (row .completedAt).isSome := congrArg finished h.same
  rcases h.settled with hp | hf
  · exact Or.inl (h.pending ▸ hp)
  · right
    rw [hf] at hfin
    exact isSome_iff_ne_none.mp hfin.symm

theorem settle {op : RepoOp} {k : Counter} (hk : op.counter = some k) (now : Time) :
    (k.settle now (scanBatchRow row)).1 = (op.on now b).1 ∧
      (k.settle now (scanBatchRow row)).2.withoutError = (op.on now b).2.withoutError := by
  have hboth : ∀ completed failed errText errText',
      ((scanBatchRow row).settleSlot completed failed errText now).1 =
          (b.settleSlot completed failed errText' now).1 ∧
        ((scanBatchRow row).settleSlot completed failed errText now).2.withoutError =
          (b.settleSlot completed failed errText' now).2.withoutError := by
    intro completed failed errText errText'
    have hrow := (scanBatchRow row).settleSlot_withoutError completed failed errText now
    have hb := b.settleSlot_withoutError completed failed errText' now
    rw [h.same, hrow] at hb
    exact mk.inj hb
  cases op with
  | cancel => cases hk
  | _ =>
    obtain rfl := some.inj hk
    exact hboth _ _ _ _

theorem cancel (d : Dialect) (now : Time) :
    RowAgrees { b with cancelled := true } (cancelRow d now row) := by
  refine ⟨?_, h.settled⟩
  rw [scan_cancelRow]
  exact congrArg (fun b : Batch => { b with cancelled := true }) h.same

theorem step (d : Dialect) (op : RepoOp) (now : Time) :
    (∃ row', op.onRow d now row = some ((op.on now b).1, row') ∧ RowAgrees (op.on now b).2 row') ∨
    op.onRow d now row = none ∧ d = .mysql ∧ b.pendingJobs ≤ 0 ∧ op.on now b = (false, b) := by
  cases hk : op.counter with
  | none =>
    cases op with
    | cancel => exact Or.inl ⟨_, rfl, h.cancel d now⟩
    | _ => cases hk
  | some k =>
    obtain ⟨hreport, hbatch⟩ := h.settle hk now
    have hsettle := scan_updateAndCAS d k now h.completed
    have hfin := congrArg fst hsettle
    have hscan := congrArg snd hsettle
    simp only at hfin hscan
    by_cases haff : d.rowsAffected row
        (d.assign (buildIncrementUpdate k.isSuccess k.isFailure k.errText now) row) = 0
    · right
      have hnone : op.onRow d now row = none := by
        simp only [RepoOp.onRow, hk, settleRow, haff, if_true]
      have hmysql : d = .mysql := by
        by_contra hne
        simp [Dialect.rowsAffected, hne] at haff
      -- A slot that is taken changes the pending count.
      have hpending : row .pendingJobs ≤ 0 := by
        by_contra hp
        have hpos : 0 < row .pendingJobs := Int.not_le.mp hp
        have hlower := congrArg pendingJobs (scan_update k now row)
        rw [if_pos hpos] at hlower
        have hne : row .pendingJobs ≠ d.assign
            (buildIncrementUpdate k.isSuccess k.isFailure k.errText now) row .pendingJobs := by
          rw [d.assign_eq_preUpdate (buildIncrementUpdate_pairwise ..)]
          intro he
          exact Int.ne_of_gt (Int.sub_one_lt_of_le (Int.le_refl _)) (he.trans hlower)
        rw [d.rowsAffected_of_ne .pendingJobs hne] at haff
        cases haff
      have hb : b.pendingJobs ≤ 0 := h.pending ▸ hpending
      refine ⟨hnone, hmysql, hb, ?_⟩
      cases op with
      | cancel => cases hk
      | _ => exact settleSlot_of_empty hb _ _ _ _
    · left
      refine ⟨(updateAndCAS d k.isSuccess k.isFailure k.errText now row).2, ?_, ?_, h.settled.on op now⟩
      · simp only [RepoOp.onRow, hk, settleRow, haff, if_false, ← hreport]
        rw [← hfin]
      · rw [hscan, hbatch]

end RowAgrees

theorem InMemoryBatchRepository.call_live (r : InMemoryBatchRepository) (id : BatchID)
    (op : RepoOp) (now : Time) : r.call ⟨{}, id, op, now⟩ = match r.batches.lookup id with
      | none => (.ok (none, false), r)
      | some b => (.ok (some (op.on now b).2, (op.on now b).1),
          ⟨r.batches.insert id (op.on now b).2⟩) := by
  rw [call_eq_update]
  cases hb : r.batches.lookup id with
  | none => simp [update, find, hb]
  | some b => simp [update, find, hb]

theorem DatabaseBatchRepository.call_live {r : DatabaseBatchRepository} (h : r.closed = false)
    (id : BatchID) (op : RepoOp) (now : Time) : r.call { now := now } id op =
      match (r.jobBatches.lookup id).bind (op.onRow r.dbDriver now) with
      | none => (.ok (none, false), r)
      | some (justFinished, row) => (.ok (some (scanBatchRow row), justFinished),
          { r with jobBatches := r.jobBatches.insert id row }) := by
  have hcounter : ∀ k : Counter,
      r.incrementCounter { now := now } id k.isSuccess k.isFailure k.errText =
        match (r.jobBatches.lookup id).bind
          (settleRow r.dbDriver k.isSuccess k.isFailure k.errText now) with
        | none => (.ok (none, false), r)
        | some (justFinished, row) => (.ok (some (scanBatchRow row), justFinished),
            { r with jobBatches := r.jobBatches.insert id row }) := by
    intro k
    rw [incrementCounter, h]
    rfl
  cases op with
  | incrementSuccess => exact hcounter .success
  | incrementFailure jobErr => exact hcounter (.failure _)
  | decrementPending => exact hcounter .skip
  | cancel =>
    cases hrow : r.jobBatches.lookup id with
    | none => simp [call, cancel, find, h, CounterEnv.faultAt, hrow, Except.map]
    | some row =>
      simp [call, cancel, find, h, CounterEnv.faultAt, hrow, Except.map, RepoOp.onRow, RepoOp.counter]

structure LiveCall where
  id : BatchID
  op : RepoOp
  now : Time := 0
  deriving DecidableEq, Repr

abbrev Repositories := InMemoryBatchRepository × DatabaseBatchRepository

namespace Repositories

def memoryCall (c : LiveCall) : RepoCall := ⟨{}, c.id, c.op, c.now⟩

def step (p : Repositories) (c : LiveCall) : Repositories :=
  (p.1.step (memoryCall c), (p.2.call { now := c.now } c.id c.op).2)

def finishes (id : BatchID) (x : Repositories × LiveCall) : Bool :=
  x.2.id = id &&
    match (x.1.2.call { now := x.2.now } x.2.id x.2.op).1 with
    | .ok (_, justFinished) => justFinished
    | .error _ => false

/-- The same flag and batch, up to its last error. On MySQL a surplus call may answer without a
batch. -/
def ReportsAgree (x : Repositories × LiveCall) : Prop :=
  ∃ found stored justFinished, (x.1.1.call (memoryCall x.2)).1 = .ok (found, justFinished) ∧
    (x.1.2.call { now := x.2.now } x.2.id x.2.op).1 = .ok (stored, justFinished) ∧
    (stored.map Batch.withoutError = found.map Batch.withoutError ∨
      x.1.2.dbDriver = .mysql ∧ stored = none ∧ justFinished = false ∧
        ∃ b, found = some b ∧ b.pendingJobs ≤ 0)

structure Related (p : Repositories) : Prop where
  live : p.2.closed = false
  rows : ∀ id, Option.Rel RowAgrees (p.1.batches.lookup id) (p.2.jobBatches.lookup id)

theorem Related.insert {m m' : InMemoryBatchRepository} {t t' : DatabaseBatchRepository}
    (h : Related (m, t)) (id : BatchID) {b : Batch} {row : BatchRow} (hrow : RowAgrees b row)
    (hm : m'.batches = m.batches.insert id b)
    (ht : t'.jobBatches = t.jobBatches.insert id row) (hlive : t'.closed = t.closed) :
    Related (m', t') := by
  refine ⟨hlive.trans h.live, fun id' => ?_⟩
  simp only [hm, ht, FMap.lookup_insert_ite]
  split
  · exact Option.Rel.some hrow
  · exact h.rows id'

attribute [local simp] Repositories.step

theorem Related.step {p : Repositories} (h : Related p) (c : LiveCall) :
    Related (p.step c) ∧ ReportsAgree (p, c) := by
  obtain ⟨m, t⟩ := p
  have hmem := m.call_live c.id c.op c.now
  have hdb := call_live h.live c.id c.op c.now
  have hrel := h.rows c.id
  generalize hb : m.batches.lookup c.id = found at hrel hmem
  generalize hrow : t.jobBatches.lookup c.id = stored at hrel hdb
  cases hrel with
  | none =>
    simp only [bind_none] at hdb
    constructor
    · simpa [InMemoryBatchRepository.step, memoryCall, hmem, hdb] using h
    · exact ⟨none, none, false, congrArg fst hmem, congrArg fst hdb, Or.inl rfl⟩
  | @some b row hagree =>
    simp only [bind_some] at hmem hdb
    rcases hagree.step t.dbDriver c.op c.now with
      ⟨row', hon, hagree'⟩ | ⟨hon, hmysql, hpending, hquiet⟩
    · simp only [hon] at hdb
      constructor
      · refine h.insert c.id hagree' ?_ ?_ ?_
        · exact congrArg (fun out => out.2.batches) hmem
        · exact congrArg (fun out => out.2.jobBatches) hdb
        · exact congrArg (fun out => out.2.closed) hdb
      · refine ⟨_, _, _, congrArg fst hmem, congrArg fst hdb, Or.inl ?_⟩
        simp [hagree'.same]
    · simp only [hon] at hdb
      rw [hquiet] at hmem
      constructor
      · refine ⟨?_, fun id => ?_⟩
        · simpa [hdb] using h.live
        · have hkeep : (Repositories.step (m, t) c).1.batches =
              m.batches.insert c.id b := congrArg (fun out => out.2.batches) hmem
          rw [hkeep, FMap.lookup_insert_ite]
          split
          · next hid =>
            subst hid
            simpa [hdb, hrow] using Option.Rel.some hagree
          · simpa [hdb] using h.rows id
      · exact ⟨_, _, false, congrArg fst hmem, congrArg fst hdb,
          Or.inr ⟨hmysql, rfl, rfl, b, rfl, hpending⟩⟩

theorem ReportsAgree.finishes {x : Repositories × LiveCall} (h : ReportsAgree x) (id : BatchID) :
    Repositories.finishes id x = InMemoryBatchRepository.finishes id (x.1.1, memoryCall x.2) := by
  obtain ⟨found, stored, justFinished, hm, ht, -⟩ := h
  simp only [Repositories.finishes, InMemoryBatchRepository.finishes, hm, ht]
  rfl

variable {pb : PendingBatch} {d : Dialect}

def saved (pb : PendingBatch) (d : Dialect) (id : BatchID) (now : Time) : Repositories :=
  ((({} : InMemoryBatchRepository).save none (pb.batch id)).2,
    (({ dbDriver := d } : DatabaseBatchRepository).save { now := now } (pb.batch id)).2)

theorem scan_insertedRow (pb : PendingBatch) (id : BatchID) (now : Time) :
    scanBatchRow (insertedRow (pb.batch id) now) = pb.batch id := by
  have hname : ∀ s, (nullableString s).getD "" = s := by
    intro s
    unfold nullableString
    split
    · next hs => exact hs.symm
    · rfl
  simp [insertedRow, PendingBatch.batch, hname]

theorem related_saved (h : pb.jobs ≠ []) (d : Dialect) (id : BatchID) (now : Time) :
    Related (saved pb d id now) := by
  have hempty : Related (({} : InMemoryBatchRepository), { dbDriver := d }) :=
    ⟨rfl, fun _ => Option.Rel.none⟩
  have hrow : RowAgrees (pb.batch id) (insertedRow (pb.batch id) now) := by
    refine ⟨by rw [scan_insertedRow], Or.inl ?_⟩
    have hlen := List.length_pos_iff.mpr h
    simpa [PendingBatch.batch] using hlen
  exact hempty.insert id hrow rfl rfl rfl

/-- The repositories stay related, have reported alike, and the batch is accounted for. -/
abbrev Tracked (id : BatchID) (n : Nat) (p : Repositories) (past : List (Repositories × LiveCall)) :
    Prop :=
  Related p ∧ (∀ x ∈ past, ReportsAgree x) ∧ InMemoryBatchRepository.Accounted id n p.1
    (past.map fun x => (x.1.1, memoryCall x.2))

theorem reports (h : pb.jobs ≠ []) (d : Dialect) (id : BatchID) (now : Time)
    (calls : List LiveCall) : let past := steps step (saved pb d id now) calls
    (∀ x ∈ past, ReportsAgree x) ∧
      ∃ b, (run step (saved pb d id now) calls).1.batches.lookup id = some b ∧
        past.countP (finishes id) = if b.finished then 1 else 0 := by
  intro past
  have hrun : Tracked id pb.jobs.length (run step (saved pb d id now) calls) past := by
    refine invariant (P := fun _ _ => True) (I := Tracked id pb.jobs.length) ?_ ?_ fun _ _ => trivial
    · rintro p past c ⟨hrel, hpast, hacc⟩ -
      obtain ⟨hrel', hagree⟩ := hrel.step c
      refine ⟨hrel', ?_, ?_⟩
      · intro x hx
        rcases List.mem_append.mp hx with hx | hx
        · exact hpast x hx
        · exact List.mem_singleton.mp hx ▸ hagree
      · simpa using hacc.step (memoryCall c)
    · exact ⟨related_saved h d id now, by simp, InMemoryBatchRepository.Accounted.initial h id {}⟩
  obtain ⟨-, hpast, b, hb, hacc, -⟩ := hrun
  refine ⟨hpast, b, hb, ?_⟩
  have hcount : past.countP (finishes id) =
      (past.map fun x => (x.1.1, memoryCall x.2)).countP
        (InMemoryBatchRepository.finishes id) := by
    rw [List.countP_map]
    exact List.countP_congr fun x hx => by rw [(hpast x hx).finishes id]; rfl
  rw [hcount, hacc.reports]
  cases b.finished <;> rfl

end Repositories

/-- The SET list means the same on every engine, the two statements do what `settleSlot` does, and
from a dispatched batch on the repositories report alike. -/
theorem database_refines_memory (d : Dialect) (success failure : Bool) (errText : Option String)
    (k : Counter) (now : Time) (row : BatchRow)
    (hrow : 0 < row .pendingJobs ∨ row .completedAt ≠ none) (pb : PendingBatch)
    (hjobs : pb.jobs ≠ []) (id : BatchID) (calls : List LiveCall) :
    leftToRight (buildIncrementUpdate success failure errText now) row =
      preUpdate (buildIncrementUpdate success failure errText now) row ∧
    ((updateAndCAS d k.isSuccess k.isFailure k.errText now row).1 = (k.settle now (scanBatchRow row)).1 ∧
      scanBatchRow (updateAndCAS d k.isSuccess k.isFailure k.errText now row).2 =
        (k.settle now (scanBatchRow row)).2) ∧
    let start := Repositories.saved pb d id now
    let past := steps Repositories.step start calls
    (∀ x ∈ past, Repositories.ReportsAgree x) ∧
      ∃ b, (run Repositories.step start calls).1.batches.lookup id = some b ∧
        past.countP (Repositories.finishes id) = if b.finished then 1 else 0 :=
  ⟨leftToRight_eq_preUpdate (buildIncrementUpdate_pairwise success failure errText now) row,
    Prod.ext_iff.mp (scan_updateAndCAS d k now hrow), Repositories.reports hjobs d id now calls⟩

def reportBatch : PendingBatch where
  jobs := [some { type := "T", data := some "{}", batch := .id "" },
    some { type := "T", data := some "{}", batch := .id "" }]
  finallyName := "report"

def reportRow : BatchRow := insertedRow (reportBatch.batch "b") 0

def reportCalls : List LiveCall :=
  [{ id := "b", op := .incrementFailure none }, { id := "b", op := .incrementSuccess },
    { id := "b", op := .decrementPending }]

theorem database_refines_memory_reportCalls :
    0 < reportRow .pendingJobs ∧ reportBatch.jobs ≠ [] ∧
    scanBatchRow (updateAndCAS .mysql false true (some "boom") 0 reportRow).2 =
      ((Counter.failure "boom").settle 0 (scanBatchRow reportRow)).2 ∧
    ∀ x ∈ Steps.steps Repositories.step (Repositories.saved reportBatch .mysql "b" 0) reportCalls,
      Repositories.ReportsAgree x := by
  have hrow : 0 < reportRow .pendingJobs := by decide
  have hjobs : reportBatch.jobs ≠ [] := by decide
  obtain ⟨-, ⟨-, hscan⟩, hreports, -⟩ := database_refines_memory .mysql false true (some "boom")
    (.failure "boom") 0 reportRow (Or.inl hrow) reportBatch hjobs "b" reportCalls
  exact ⟨hrow, hjobs, hscan, hreports⟩

def stuckRow : BatchRow := insertedRow { id := "b", totalJobs := 0, pendingJobs := 0 } 0

def lastCall : LiveCall := { id := "b", op := .incrementSuccess }

/-- The CAS completes the stuck row, where `settleSlot` does nothing; and on MySQL a surplus call
answers without a batch. -/
theorem stuckRow_diverges :
    ((updateAndCAS .postgres false false none 0 stuckRow).1 = true ∧
      (updateAndCAS .postgres false false none 0 stuckRow).2 .completedAt = some 0 ∧
      Counter.skip.settle 0 (scanBatchRow stuckRow) = (false, scanBatchRow stuckRow)) ∧
    let p := run Repositories.step (Repositories.saved reportBatch .mysql "b" 0)
      [lastCall, lastCall]
    (p.2.call {} "b" .decrementPending).1 = .ok (none, false) ∧
      (p.1.call ⟨{}, "b", .decrementPending, 0⟩).1 ≠ .ok (none, false) := by
  decide

end Velocity.Queue
