import Velocity.Queue.BatchRefinement

/-! The dispatcher's own batch, onto which the row states that were read back are mirrored as they
arrive: late, twice, out of order. -/

namespace Velocity.Queue

open List DatabaseBatchRepository Option

/-- `src` is another object than the receiver. -/
def Batch.copyCountersFrom (b src : Batch) : Batch :=
  { b with
    pendingJobs := if src.pendingJobs < b.pendingJobs then src.pendingJobs else b.pendingJobs
    completedJobs :=
      if src.completedJobs > b.completedJobs then src.completedJobs else b.completedJobs
    failedJobs := if src.failedJobs > b.failedJobs then src.failedJobs else b.failedJobs
    cancelled := src.cancelled || b.cancelled
    finished := src.finished || b.finished
    finishedAt := if src.finished && b.finishedAt.isNone then src.finishedAt else b.finishedAt
    lastError := if src.finished && src.lastError ≠ "" then src.lastError else b.lastError
    thenName := if b.thenName = "" then src.thenName else b.thenName
    catchName := if b.catchName = "" then src.catchName else b.catchName
    finallyName := if b.finallyName = "" then src.finallyName else b.finallyName }

/-- In the order of a row's states: pending falls, the others rise. -/
def Batch.counters (b : Batch) : Intᵒᵈ × Int × Int × Bool × Bool :=
  (.toDual b.pendingJobs, b.completedJobs, b.failedJobs, b.cancelled, b.finished)

theorem Batch.counters_copyCountersFrom (b src : Batch) :
    (b.copyCountersFrom src).counters = b.counters ⊔ src.counters := by
  have hmax (x y : Int) : (if y > x then y else x) = x ⊔ y := by omega
  have hmin (x y : Int) : (if y < x then y else x) = x ⊓ y := by omega
  have hor (x y : Bool) : (y || x) = x ⊔ y := Bool.or_comm y x
  simp only [counters, copyCountersFrom, Prod.mk_sup_mk, hmax, hmin, hor, toDual_inf]

/-- The readbacks arrive as `reads` lists them. -/
def mirrored (states : List Batch) (b : Batch) (reads : List Nat) : Batch :=
  reads.foldl (fun b i => (states[i]?).elim b b.copyCountersFrom) b

theorem counters_mirrored {states : List Batch}
    (hchain : states.Pairwise fun s t => s.counters ≤ t.counters) {b : Batch}
    (hfirst : states[0]? = some b) {reads : List Nat} (hreads : ∀ i ∈ reads, i < states.length) :
    (states[reads.foldl max 0]?).map Batch.counters = some (mirrored states b reads).counters := by
  induction reads using reverseRecOn with
  | nil => exact congrArg (Option.map Batch.counters) hfirst
  | append_singleton reads i ih =>
    have hi : i < states.length := hreads i (by simp)
    obtain ⟨s, hs, hcounters⟩ :=
      map_eq_some_iff.mp (ih fun j hj => hreads j (mem_append_left _ hj))
    obtain ⟨hm, rfl⟩ := List.getElem?_eq_some_iff.mp hs
    have hnext : (mirrored states b (reads ++ [i])).counters =
        states[reads.foldl max 0].counters ⊔ states[i].counters := by
      rw [hcounters, ← Batch.counters_copyCountersFrom]
      simp [mirrored, hi]
    have hle := pairwise_iff_getElem.mp hchain
    rw [hnext, foldl_append]
    show (states[max (reads.foldl max 0) i]?).map Batch.counters = _
    rcases Nat.lt_trichotomy (reads.foldl max 0) i with hlt | heq | hgt
    · rw [max_eq_right hlt.le, sup_eq_right.mpr (hle _ _ hm hi hlt)]
      simp [hi]
    · simp [heq, hi]
    · rw [max_eq_left hgt.le, sup_eq_left.mpr (hle _ _ hi hm hgt)]
      simp [hm]

inductive BatchStep
  | save (env : CounterEnv) (batch : Batch)
  | call (env : CounterEnv) (id : BatchID) (op : RepoOp)
  /-- `Delete`, or `PruneStale` at one of its rows. -/
  | delete (id : BatchID)

namespace DatabaseBatchRepository

def step (r : DatabaseBatchRepository) : BatchStep → DatabaseBatchRepository
  | .save env b => (r.save env b).2
  | .call env id op => (r.call env id op).2
  | .delete id => { r with jobBatches := r.jobBatches.erase id }

def history (id : BatchID) : DatabaseBatchRepository → List BatchStep → List Batch
  | r, [] => ((r.jobBatches.lookup id).map scanBatchRow).toList
  | r, step :: steps =>
    (r.jobBatches.lookup id).elim [] fun row => scanBatchRow row :: history id (r.step step) steps

variable {r : DatabaseBatchRepository} {env : CounterEnv} {id : BatchID} {row row' : BatchRow}

theorem history_head? (steps : List BatchStep) :
    (r.history id steps)[0]? = (r.jobBatches.lookup id).map scanBatchRow := by
  cases steps <;> cases hrow : r.jobBatches.lookup id <;> simp [history, hrow]

theorem counters_onRow {d : Dialect} {op : RepoOp} {now : Time} {done : Bool}
    (h : op.onRow d now row = some (done, row')) :
    (scanBatchRow row).counters ≤ (scanBatchRow row').counters := by
  unfold RepoOp.onRow at h
  cases hk : op.counter with
  | none =>
    rw [hk] at h
    cases h
    rw [scan_cancelRow]
    exact ⟨le_rfl, le_rfl, le_rfl, le_top, le_rfl⟩
  | some k =>
    rw [hk] at h
    simp only [settleRow] at h
    split at h
    · cases h
    · cases h
      have hset := buildIncrementUpdate_pairwise k.isSuccess k.isFailure k.errText now
      have hmoves := scan_update k now row
      generalize hset' : SetList.preUpdate _ row = moved at hmoves
      show Batch.counters _ ≤ (scanBatchRow (d.completionCAS now (d.assign _ row)).2).counters
      rw [d.assign_eq_preUpdate hset, hset']
      have hle : (scanBatchRow row).counters ≤ (scanBatchRow moved).counters := by
        rw [hmoves]
        split
        · exact ⟨Int.sub_le_self _ (by decide), Int.le_add_of_nonneg_right (by positivity),
            Int.le_add_of_nonneg_right (by positivity), le_rfl, le_rfl⟩
        · exact le_rfl
      have hcas := congrArg Prod.snd (scan_completionCAS d now moved)
      refine hle.trans ?_
      split at hcas
      · simp only at hcas
        rw [hcas]
        exact ⟨le_rfl, le_rfl, le_rfl, le_rfl, le_top⟩
      · exact (congrArg Batch.counters hcas).ge

theorem call_rows (op : RepoOp) : (r.call env id op).2.jobBatches = r.jobBatches ∨ ∃ row done row',
      r.jobBatches.lookup id = some row ∧ op.onRow r.dbDriver env.now row = some (done, row') ∧
      (r.call env id op).2.jobBatches = r.jobBatches.insert id row' := by
  cases op <;> simp only [call, incrementSuccess, incrementFailure, decrementPending,
    incrementCounter, cancel]
  all_goals
    -- A call that is refused, cannot commit or finds no row leaves the table as it is.
    repeat' split
    all_goals first
      | exact .inl rfl
      | exact .inr ⟨_, _, _, ‹_›, rfl, rfl⟩
      | obtain ⟨row, hlookup, hmoved⟩ := bind_eq_some_iff.mp ‹_›
        exact .inr ⟨row, _, _, hlookup, hmoved, rfl⟩

theorem save_rows (r : DatabaseBatchRepository) (env : CounterEnv) (b : Batch) :
    (r.save env b).1 ≠ .ok () ∧ (r.save env b).2 = r ∨ r.jobBatches.lookup b.id = none ∧
      (r.save env b).2.jobBatches = r.jobBatches.insert b.id (insertedRow b env.now) := by
  unfold save
  split
  · exact .inl ⟨by simp, rfl⟩
  · split <;> first | exact .inl ⟨by simp, rfl⟩ | exact .inr ⟨‹_›, rfl⟩

theorem counters_step {step : BatchStep} (h : r.jobBatches.lookup id = some row)
    (h' : (r.step step).jobBatches.lookup id = some row') :
    (scanBatchRow row).counters ≤ (scanBatchRow row').counters := by
  have hsame {row'} (hrow : r.jobBatches.lookup id = some row') :
      (scanBatchRow row).counters ≤ (scanBatchRow row').counters := by
    obtain rfl := some.inj (h.symm.trans hrow)
    exact le_rfl
  cases step with
  | save env b =>
    rcases save_rows r env b with ⟨-, hkept⟩ | ⟨hnone, hrows⟩
    · exact hsame (hkept ▸ h')
    · rw [step, hrows] at h'
      rcases FMap.lookup_of_insert h' with ⟨rfl, -⟩ | ⟨-, h'⟩
      · rw [hnone] at h
        cases h
      · exact hsame h'
  | call env id' op =>
    rcases call_rows op with hkept | ⟨old, done, new, hold, hmoved, hrows⟩
    · exact hsame (hkept ▸ h')
    · rw [step, hrows] at h'
      rcases FMap.lookup_of_insert h' with ⟨rfl, rfl⟩ | ⟨-, h'⟩
      · obtain rfl := some.inj (h.symm.trans hold)
        exact counters_onRow hmoved
      · exact hsame h'
  | delete id' => exact hsame (FMap.lookup_of_erase h').2

theorem history_pairwise (steps : List BatchStep) :
    (r.history id steps).Pairwise fun s t => s.counters ≤ t.counters := by
  have : IsTrans Batch fun s t => s.counters ≤ t.counters := ⟨fun _ _ _ => le_trans⟩
  rw [← isChain_iff_pairwise]
  induction steps generalizing r with
  | nil => cases hrow : r.jobBatches.lookup id <;> simp [history, hrow]
  | cons step steps ih =>
    cases hrow : r.jobBatches.lookup id with
    | none => simp [history, hrow]
    | some row =>
      rw [history, hrow]
      refine isChain_cons.mpr ⟨?_, ih⟩
      intro b hb
      rw [head?_eq_getElem?, history_head?] at hb
      obtain ⟨row', hrow', rfl⟩ := map_eq_some_iff.mp hb
      exact counters_step hrow hrow'

/-- However its readbacks arrive, the dispatcher's batch shows the latest of them. -/
theorem readbacks_merge {pb : PendingBatch} (hsave : (r.save env (pb.batch id)).1 = .ok ())
    (steps : List BatchStep) {reads : List Nat}
    (hreads : ∀ i ∈ reads, i < ((r.save env (pb.batch id)).2.history id steps).length) :
    let states := (r.save env (pb.batch id)).2.history id steps
    (states.Pairwise fun s t => s.counters ≤ t.counters) ∧ ∀ past, past <+: reads →
      (states[past.foldl max 0]?).map Batch.counters =
        some (mirrored states (pb.batch id) past).counters := by
  intro states
  have hchain : states.Pairwise _ := history_pairwise steps
  refine ⟨hchain, fun past hpast => counters_mirrored hchain ?_ fun i hi => hreads i (hpast.subset hi)⟩
  rcases save_rows r env (pb.batch id) with ⟨hne, -⟩ | ⟨-, hrows⟩
  · exact absurd hsave hne
  · have hown : (pb.batch id).id = id := rfl
    rw [history_head?, hrows, FMap.lookup_insert_ite, hown, if_pos rfl]
    exact congrArg some (Repositories.scan_insertedRow pb id env.now)

/-- Two jobs succeed, and the second readback arrives before the first. -/
theorem readbacks_merge_swapped :
    let r := (save { dbDriver := .mysql } {} (reportBatch.batch "b")).2
    let states := r.history "b" [.call {} "b" .incrementSuccess, .call {} "b" .incrementSuccess]
    (states[2]?).map Batch.counters =
      some (mirrored states (reportBatch.batch "b") [2, 1]).counters := by
  intro r states
  have hsave : (save { dbDriver := .mysql } {} (reportBatch.batch "b")).1 = .ok () := rfl
  have hreads : ∀ i ∈ [2, 1], i < states.length := by decide
  exact (readbacks_merge hsave _ hreads).2 [2, 1] (prefix_refl _)

end DatabaseBatchRepository

end Velocity.Queue
