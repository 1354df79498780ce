import Mathlib.Data.List.Sort
import Velocity.Orm.Migrator

/-! Histories of `Up` and `Down` inside the lock. Statements succeed; the bodies may fail. The recorded
migrations are a stack of batches: `Up` puts one on it, `Down` takes migrations off it. -/

namespace Migrate

open Interleave List Prog Migration
open Bytes (ascii)

inductive Direction
  | up
  | down
deriving DecidableEq

/-- A body that was run, and whether it completed. -/
structure Ran where
  direction : Direction
  version : Bytes
  completed : Bool
deriving DecidableEq

/-- The rows of the migrations table are a version and its batch, in the order of insertion. -/
structure Tables where
  registry : List Migration
  rows : List (Bytes × Int)
  bodies : List Ran

/-- What becomes of each body, by the number of those run before. -/
abbrev Failures := Nat → Option Bytes

namespace Tables

def runBody (w : Tables) (fails : Failures) (direction : Direction) (version : Bytes) :
    Except Bytes Unit × Tables :=
  match fails w.bodies.length with
  | none => (.ok (), { w with bodies := w.bodies ++ [⟨direction, version, true⟩] })
  | some e => (.error e, { w with bodies := w.bodies ++ [⟨direction, version, false⟩] })

def exec (w : Tables) (fails : Failures) : (o : MigrateOp) → MigrateRes o × Tables
  | .selectVersions => (.ok (w.rows.map Prod.fst), w)
  | .selectMaxBatch => (.ok (w.rows.map Prod.snd).max?, w)
  | .selectBatch batch =>
    (.ok (((w.rows.filter fun r => r.2 = batch).map Prod.fst).insertionSort (· ≥ ·)), w)
  | .insertMigration version batch => (.ok (), { w with rows := w.rows ++ [(version, batch)] })
  | .deleteMigration version => (.ok (), { w with rows := w.rows.filter fun r => r.1 ≠ version })
  | .up version => w.runBody fails .up version
  | .down version => w.runBody fails .down version
  | .registryAll => (w.registry.insertionSort fun m m' => m.version ≤ m'.version, w)
  | .registryFind version => (w.registry.find? fun m => m.version = version, w)
  | .lockTableInfo => (.ok true, w)
  | .claimLock _ _ => ((.ok 1, 0), w)
  | .selectTables => (.ok [], w)
  | .now => (0, w)
  | .createLockTable | .addLockedAt | .seedLockRow | .freeLock | .createMigrationsTable | .begin
  | .commit | .rollback | .dropTable _ => (.ok (), w)

/-- `Register` panics on a version that is not valid or is there already. -/
def register (w : Tables) (m : Migration) : Tables :=
  if Migration.validVersion m.version ∧ m.version ∉ w.registry.map Migration.version then
    { w with registry := w.registry ++ [m] }
  else w

def runUp (w : Tables) (useTx : Bool) (fails : Failures) : Tables :=
  ((Migrate.runUp useTx).eval exec fails w).2

def runDown (w : Tables) (useTx : Bool) (steps : Int) (fails : Failures) : Tables :=
  ((Migrate.runDown useTx steps).eval exec fails w).2

def recorded (w : Tables) : List Bytes := w.rows.map Prod.fst

def lastBatch (w : Tables) : Int := (w.rows.map Prod.snd).max?.getD 0

end Tables

inductive MigrateStep
  | register (m : Migration)
  | up (fails : Failures)
  | down (steps : Int) (fails : Failures)

def Tables.step (useTx : Bool) (w : Tables) : MigrateStep → Tables
  | .register m => w.register m
  | .up fails => w.runUp useTx fails
  | .down steps fails => w.runDown useTx steps fails

def Tables.after (useTx : Bool) (history : List MigrateStep) : Tables :=
  history.foldl (Tables.step useTx) ⟨[], [], []⟩

def applied (bodies : List Ran) : List Bytes :=
  bodies.foldl (fun l r => match r.completed, r.direction with
    | false, _ => l
    | true, .up => l.erase r.version ++ [r.version]
    | true, .down => l.erase r.version) []

/-- The bodies of the versions run in turn, up to the first failure. -/
inductive Attempt (direction : Direction) : List Bytes → List Ran → Prop
  | nil : Attempt direction [] []
  | fails (version : Bytes) (rest : List Bytes) :
    Attempt direction (version :: rest) [⟨direction, version, false⟩]
  | runs (version : Bytes) {rest : List Bytes} {ran : List Ran} (h : Attempt direction rest ran) :
    Attempt direction (version :: rest) (⟨direction, version, true⟩ :: ran)

/-! The stack. -/

def rowsOf (batches : List (List Bytes)) : List (Bytes × Int) :=
  batches.zipIdx.flatMap fun b => b.1.map fun version => (version, (b.2 : Int) + 1)

theorem rowsOf_concat (batches : List (List Bytes)) (b : List Bytes) :
    rowsOf (batches ++ [b]) = rowsOf batches ++ b.map fun v => (v, (batches.length : Int) + 1) := by
  simp [rowsOf, zipIdx_append]

theorem map_fst_rowsOf (batches : List (List Bytes)) :
    (rowsOf batches).map Prod.fst = batches.flatten := by
  induction batches using reverseRecOn with
  | nil => rfl
  | append_singleton batches b ih => simp [rowsOf_concat, ih, Function.comp_def]

theorem batch_le {batches : List (List Bytes)} {r : Bytes × Int} (h : r ∈ rowsOf batches) :
    1 ≤ r.2 ∧ r.2 ≤ batches.length := by
  induction batches using reverseRecOn with
  | nil => cases h
  | append_singleton batches b ih =>
    rw [rowsOf_concat] at h
    rcases mem_append.mp h with h | h
    · have hold := ih h
      simp only [length_append, length_singleton]
      omega
    · obtain ⟨-, -, rfl⟩ := mem_map.mp h
      simp only [length_append, length_singleton]
      omega

structure Stacked (w : Tables) (batches : List (List Bytes)) : Prop where
  rows : w.rows = rowsOf batches
  applied : applied w.bodies = batches.flatten
  ascending : ∀ b ∈ batches, b.Pairwise (· < ·)
  nodup : batches.flatten.Nodup
  registered : ∀ v ∈ batches.flatten, v ∈ w.registry.map Migration.version
  distinct : (w.registry.map Migration.version).Nodup
  hasDown : ∀ m ∈ w.registry, m.hasDown = true

theorem applied_concat (l : List Ran) (direction : Direction) (v : Bytes) (completed : Bool) :
    applied (l ++ [⟨direction, v, completed⟩]) = match completed, direction with
      | false, _ => applied l
      | true, .up => (applied l).erase v ++ [v]
      | true, .down => (applied l).erase v := by
  simp [applied]

variable {w : Tables} {batches : List (List Bytes)} {useTx : Bool} {fails : Failures}
  {b : List Bytes}

theorem Stacked.empty_top (h : Stacked w (batches ++ [[]])) : Stacked w batches := by
  obtain ⟨hrows, happlied, hasc, hnodup, hreg, hdistinct, hdown⟩ := h
  simp only [rowsOf_concat, map_nil, append_nil] at hrows
  simp only [flatten_append, flatten_singleton, append_nil] at happlied hnodup hreg
  exact ⟨hrows, happlied, fun b hb => hasc b (by simp [hb]), hnodup, hreg, hdistinct, hdown⟩

def Filled (batches : List (List Bytes)) : Prop := ∀ b ∈ batches, b ≠ []

theorem Filled.concat (h : Filled batches) (hb : b ≠ []) : Filled (batches ++ [b]) := by
  intro b' hb'
  rcases mem_concat.mp hb' with hold | rfl
  · exact h b' hold
  · exact hb

variable {v : Bytes}

open Tables

/-- Where the statements succeed a transaction makes no difference. -/
theorem runInTx_eval (beginText commitText : String) {direction : Direction}
    {body bookkeeping : Migrating} {f : Tables → Tables}
    (hbody : body.eval exec fails w = w.runBody fails direction v)
    (hbook : ∀ w, bookkeeping.eval exec fails w = (.ok (), f w)) :
    (runInTx useTx beginText commitText v body bookkeeping).eval exec fails w =
      match fails w.bodies.length with
      | none => (.ok (), f { w with bodies := w.bodies ++ [⟨direction, v, true⟩] })
      | some e => (.error e, { w with bodies := w.bodies ++ [⟨direction, v, false⟩] }) := by
  have hbegin : (MigrateOp.begin.run.mapError
      (ascii beginText ++ v ++ ascii " tx: " ++ ·)).eval exec fails w =
        (.ok (), w) := rfl
  unfold runInTx
  cases hf : fails w.bodies.length with
  | none | some e =>
    cases useTx with
    | false => simp [eval_andThen, hbody, runBody, hf, hbook]
    | true =>
      simp only [Bool.not_true, Bool.false_eq_true, if_false]
      simp only [eval_andThen, hbegin, eval_bind, hbody, runBody, hf, hbook]
      rfl

theorem runMigrationUp_eval (m : Migration) (batch : Int) :
    (runMigrationUp useTx m batch).eval exec fails w = match fails w.bodies.length with
      | none => (.ok (), { w with rows := w.rows ++ [(m.version, batch)]
                                  bodies := w.bodies ++ [⟨.up, m.version, true⟩] })
      | some e => (.error e, { w with bodies := w.bodies ++ [⟨.up, m.version, false⟩] }) :=
  runInTx_eval _ _ (f := fun w => { w with rows := w.rows ++ [(m.version, batch)] }) rfl fun _ => rfl

theorem find_registered {registry : List Migration} (h : v ∈ registry.map version) :
    ∃ m ∈ registry, registry.find? (fun m => m.version = v) = some m := by
  obtain ⟨m, hm, hv⟩ := mem_map.mp h
  obtain ⟨m', hfound⟩ := Option.isSome_iff_exists.mp
    (find?_isSome.mpr ⟨m, hm, decide_eq_true hv⟩ : (registry.find? fun m => m.version = v).isSome)
  exact ⟨m', mem_of_find?_eq_some hfound, hfound⟩

theorem Stacked.rollBack_top (h : Stacked w (batches ++ [b ++ [v]]))
    (useTx : Bool) (fails : Failures) :
    (∃ w', (rollBack useTx v).eval Tables.exec fails w = (.ok (), w') ∧
      w'.bodies = w.bodies ++ [⟨.down, v, true⟩] ∧ Stacked w' (batches ++ [b])) ∨
    ∃ e w', (rollBack useTx v).eval Tables.exec fails w = (.error e, w') ∧
      w'.bodies = w.bodies ++ [⟨.down, v, false⟩] ∧ Stacked w' (batches ++ [b ++ [v]]) := by
  obtain ⟨m, hm, hfind⟩ := find_registered (h.registered v (by simp))
  have hrun : (rollBack useTx v).eval Tables.exec fails w =
      (runMigrationDown useTx v).eval Tables.exec fails w := by
    have hexec : Tables.exec w fails (.registryFind v) = (some m, w) := by rw [Tables.exec, hfind]
    have hstep (k) : (call (.registryFind v) k : Migrating).eval
        Tables.exec fails w = (k (some m)).eval Tables.exec fails w := by
      rw [eval, hexec]
    refine (hstep _).trans ?_
    simp [Prog.bind, h.hasDown m hm]
  have heval : (runMigrationDown useTx v).eval Tables.exec fails w = _ :=
    runInTx_eval _ _ (f := fun w => { w with rows := w.rows.filter fun r => r.1 ≠ v }) rfl fun _ => rfl
  rw [hrun, heval]
  cases fails w.bodies.length with
  | some e =>
    exact .inr ⟨e, _, rfl, rfl, { h with applied := (applied_concat ..).trans h.applied }⟩
  | none =>
    obtain ⟨hrows, happlied, hasc, hnodup, hreg, hdistinct, hdown⟩ := h
    have hflat : (batches ++ [b ++ [v]]).flatten = (batches ++ [b]).flatten ++ [v] := by simp
    rw [hflat] at happlied hnodup hreg
    have hnot : v ∉ (batches ++ [b]).flatten := by
      intro hv
      exact (nodup_append.mp hnodup).2.2 v hv v (by simp) rfl
    refine .inl ⟨_, rfl, rfl, ?_, ?_, ?_, (nodup_append.mp hnodup).1, ?_, hdistinct, hdown⟩
    · have hsplit : rowsOf (batches ++ [b ++ [v]]) =
          rowsOf (batches ++ [b]) ++ [(v, (batches.length : Int) + 1)] := by
        simp [rowsOf_concat]
      have hkeep : (rowsOf (batches ++ [b])).filter (fun r => decide (r.1 ≠ v)) =
          rowsOf (batches ++ [b]) := by
        rw [filter_eq_self]
        intro r hr
        refine decide_eq_true ?_
        rintro rfl
        apply hnot
        rw [← map_fst_rowsOf]
        exact mem_map_of_mem hr
      rw [hrows, hsplit, filter_append, hkeep]
      simp
    · rw [applied_concat, happlied]
      rw [erase_append_right _ hnot]
      simp
    · intro b' hb'
      rcases mem_concat.mp hb' with hold | rfl
      · exact hasc b' (mem_append_left _ hold)
      · exact (pairwise_append.mp (hasc (b' ++ [v]) (by simp))).1
    · intro u hu
      exact hreg u (mem_append_left _ hu)

theorem Stacked.rollBack_batch (h : Stacked w (batches ++ [b])) (useTx : Bool)
    (fails : Failures) :
    ∃ r w' kept ran, (eachOf (rollBack useTx) b.reverse).eval exec fails w = (r, w') ∧
      w'.bodies = w.bodies ++ ran ∧ Stacked w' (batches ++ [kept]) ∧
      (r = .ok () ∧ kept = [] ∧ (∀ vs ran', Attempt .down vs ran' →
          Attempt .down (b.reverse ++ vs) (ran ++ ran')) ∨
        (∃ e, r = .error e) ∧ kept ≠ [] ∧ ∀ vs, Attempt .down (b.reverse ++ vs) ran) := by
  induction b using reverseRecOn generalizing w with
  | nil => exact ⟨.ok (), w, [], [], rfl, by simp, h, .inl ⟨rfl, rfl, fun vs ran' hran => hran⟩⟩
  | append_singleton b v ih =>
    rw [reverse_append, reverse_singleton, singleton_append, eachOf, eval_andThen]
    rcases h.rollBack_top useTx fails with
      ⟨w₁, hrun, hbodies, hstacked⟩ | ⟨e, w₁, hrun, hbodies, hstacked⟩
    · obtain ⟨r, w', kept, ran, hrest, hbodies', hstacked', hcases⟩ := ih hstacked
      rw [hrun]
      refine ⟨r, w', kept, ⟨.down, v, true⟩ :: ran, hrest, by simp [hbodies', hbodies], hstacked', ?_⟩
      rcases hcases with ⟨hr, hkept, hran⟩ | ⟨hr, hkept, hran⟩
      · exact .inl ⟨hr, hkept, fun vs ran' h => (hran vs ran' h).runs v⟩
      · exact .inr ⟨hr, hkept, fun vs => (hran vs).runs v⟩
    · rw [hrun]
      exact ⟨.error e, w₁, b ++ [v], _, rfl, hbodies, hstacked,
        .inr ⟨⟨e, rfl⟩, by simp, fun vs => .fails v _⟩⟩

/-- Newest first. -/
theorem Stacked.selectBatch_top (h : Stacked w (batches ++ [b])) :
    (getMigrationsByBatch ((batches ++ [b]).length : Int)).eval exec fails w = (.ok b.reverse, w) := by
  have hrows : (w.rows.filter fun r => r.2 = ((batches ++ [b]).length : Int)).map Prod.fst = b := by
    have hold :
        (rowsOf batches).filter (fun r => decide (r.2 = ((batches ++ [b]).length : Int))) = [] := by
      rw [filter_eq_nil_iff]
      intro r hr
      have hle := (batch_le hr).2
      simp only [decide_eq_true_eq, length_append, length_singleton]
      omega
    rw [h.rows, rowsOf_concat, filter_append, hold]
    simp [filter_map, Function.comp_def]
  have hsorted : b.insertionSort (· ≥ ·) = b.reverse := by
    refine List.Perm.eq_of_pairwise (fun x y _ _ hxy hyx => le_antisymm hyx hxy)
      (pairwise_insertionSort (· ≥ ·) b) ?_ ?_
    · rw [pairwise_reverse]
      exact (h.ascending b (by simp)).imp le_of_lt
    · exact (perm_insertionSort _ b).trans b.reverse_perm.symm
  show (Except.ok (((w.rows.filter fun r => r.2 = ((batches ++ [b]).length : Int)).map
    Prod.fst).insertionSort (· ≥ ·)), w) = _
  rw [hrows, hsorted]

def lastBatches (n : Nat) (batches : List (List Bytes)) : List (List Bytes) :=
  batches.drop (batches.length - n)

theorem lastBatches_concat (n : Nat) (batches : List (List Bytes)) (b : List Bytes) :
    lastBatches (n + 1) (batches ++ [b]) = lastBatches n batches ++ [b] := by
  have hlen : (batches ++ [b]).length - (n + 1) = batches.length - n := by simp
  rw [lastBatches, lastBatches, hlen, drop_append_of_le_length (by omega)]

attribute [local simp] lastBatches

theorem eachOf_up (useTx : Bool) (fails : Failures) (batch : Int) (pending : List Migration)
    (hnew : (applied w.bodies ++ pending.map version).Nodup) :
    ∃ done rest ran, ((eachOf (fun m => runMigrationUp useTx m batch) pending).eval exec
        fails w).2 = { w with rows := w.rows ++ done.map (·, batch), bodies := w.bodies ++ ran } ∧
      pending.map version = done ++ rest ∧
      applied (w.bodies ++ ran) = applied w.bodies ++ done ∧ Attempt .up (pending.map version) ran := by
  induction pending generalizing w with
  | nil => exact ⟨[], [], [], by simp [eachOf, eval], rfl, by simp, .nil⟩
  | cons m pending ih =>
    rw [eachOf, eval_andThen, runMigrationUp_eval]
    cases fails w.bodies.length with
    | some e =>
      refine ⟨[], _, [⟨.up, m.version, false⟩], by simp, rfl, ?_, .fails _ _⟩
      rw [applied_concat, append_nil]
    | none =>
      have hnot : m.version ∉ applied w.bodies := by
        intro hm
        exact (nodup_append.mp hnew).2.2 _ hm _ mem_cons_self rfl
      have happlied :
          applied (w.bodies ++ [⟨.up, m.version, true⟩]) = applied w.bodies ++ [m.version] := by
        rw [applied_concat]
        rw [erase_of_not_mem hnot]
      obtain ⟨done, rest, ran, hrun, hsplit, hdone, hran⟩ :=
        ih (w := { w with rows := w.rows ++ [(m.version, batch)]
                          bodies := w.bodies ++ [⟨.up, m.version, true⟩] })
          (by rw [happlied]; simpa using hnew)
      refine ⟨m.version :: done, rest, ⟨.up, m.version, true⟩ :: ran, by simp [hrun],
        by simp [hsplit], ?_, hran.runs m.version⟩
      rw [append_cons, hdone, happlied]
      simp

def pendingOf (w : Tables) : List Migration :=
  (w.registry.insertionSort fun m m' => m.version ≤ m'.version).filter fun m => m.version ∉ w.recorded

theorem mem_pending : v ∈ (pendingOf w).map version ↔
    v ∈ w.registry.map version ∧ v ∉ w.recorded := by
  simp only [pendingOf, mem_map, mem_filter, mem_insertionSort, decide_eq_true_eq]
  constructor
  · rintro ⟨m, ⟨hm, hv⟩, rfl⟩
    exact ⟨⟨m, hm, rfl⟩, hv⟩
  · rintro ⟨⟨m, hm, rfl⟩, hv⟩
    exact ⟨m, ⟨hm, hv⟩, rfl⟩

theorem pending_ascending (h : (w.registry.map version).Nodup) :
    ((pendingOf w).map version).Pairwise (· < ·) := by
  let le : Migration → Migration → Prop := fun m m' => m.version ≤ m'.version
  have hsorted : (w.registry.insertionSort le).Pairwise le := pairwise_insertionSort le _
  have hdistinct : ((w.registry.insertionSort le).map version).Nodup :=
    ((perm_insertionSort le w.registry).map version).nodup_iff.mpr h
  have hlt : ((w.registry.insertionSort le).map version).Pairwise (· < ·) := by
    have hle : ((w.registry.insertionSort le).map version).Pairwise (· ≤ ·) :=
      pairwise_map.mpr hsorted
    exact hle.imp₂ (fun _ _ => lt_of_le_of_ne) hdistinct
  exact hlt.sublist (filter_sublist.map _)

theorem runUp_eval (w : Tables) : (runUp useTx).eval exec fails w =
    (if pendingOf w = [] then ret (.ok ()) else getLastBatch.andThen fun lastBatch =>
      eachOf (fun m => runMigrationUp useTx m (lastBatch + 1)) (pendingOf w)).eval exec fails w :=
  rfl

theorem filter_lastBatches (n : Nat) (batches : List (List Bytes)) :
    ((rowsOf batches).filter fun r => (batches.length : Int) - n < r.2).map Prod.fst =
      (lastBatches n batches).flatten := by
  induction batches using reverseRecOn generalizing n with
  | nil => simp [rowsOf]
  | append_singleton batches b ih =>
    cases n with
    | zero =>
      have hnone : (rowsOf (batches ++ [b])).filter
          (fun r => decide (((batches ++ [b]).length : Int) - ((0 : Nat) : Int) < r.2)) = [] := by
        rw [filter_eq_nil_iff]
        intro r hr
        have hle := (batch_le hr).2
        simp only [decide_eq_true_eq]
        omega
      rw [hnone]
      simp
    | succ n =>
      have hbound : ((batches ++ [b]).length : Int) - ((n + 1 : Nat) : Int) = batches.length - n := by
        simp
      have htop : (batches.length : Int) - n < batches.length + 1 := by omega
      rw [lastBatches_concat, hbound, rowsOf_concat, filter_append, map_append, ih n]
      simp [filter_map, Function.comp_def, htop]

/-- What the tables record is what the completed bodies left applied, in batches numbered from 1;
`Up` goes through the other versions from the lowest on, and `Down` back through those of the last
batches, at least one. -/
structure Reversible (useTx : Bool) (w : Tables) : Prop where
  recorded : w.recorded = applied w.bodies
  batches : ∃ k : Nat, ∀ b : Int, b ∈ w.rows.map Prod.snd ↔ 1 ≤ b ∧ b ≤ k
  up : ∀ fails, ∃ pending ran, (w.runUp useTx fails).bodies = w.bodies ++ ran ∧
    pending.Pairwise (· < ·) ∧
    (∀ v, v ∈ pending ↔ v ∈ w.registry.map Migration.version ∧ v ∉ w.recorded) ∧
    Attempt .up pending ran
  down : ∀ steps fails, ∃ ran, (w.runDown useTx steps fails).bodies = w.bodies ++ ran ∧
    Attempt .down ((w.rows.filter fun r => w.lastBatch - max steps 1 < r.2).map Prod.fst).reverse ran

theorem batch_iff {batches : List (List Bytes)} (hne : Filled batches) (k : Int) :
    k ∈ (rowsOf batches).map Prod.snd ↔ 1 ≤ k ∧ k ≤ batches.length := by
  constructor
  · intro hk
    obtain ⟨r, hr, rfl⟩ := mem_map.mp hk
    exact batch_le hr
  · induction batches using reverseRecOn with
    | nil =>
      rintro ⟨hpos, hle⟩
      have hzero : k ≤ 0 := hle
      omega
    | append_singleton batches b ih =>
      rintro ⟨hpos, hle⟩
      rw [rowsOf_concat, map_append, mem_append]
      rw [length_append, length_singleton] at hle
      by_cases hk : k ≤ batches.length
      · exact .inl (ih (fun b hb => hne b (mem_append_left _ hb)) ⟨hpos, hk⟩)
      · obtain ⟨v, hv⟩ := exists_mem_of_ne_nil b (hne b (by simp))
        have htop : (batches.length : Int) + 1 = k := by omega
        exact .inr (mem_map.mpr ⟨(v, batches.length + 1), mem_map.mpr ⟨v, hv, rfl⟩, htop⟩)

/-- The bodies of the versions are run as far as they go, and a stack is left. -/
def Moves (w w' : Tables) (direction : Direction) (versions : List Bytes) : Prop :=
  ∃ batches ran, w'.bodies = w.bodies ++ ran ∧ Stacked w' batches ∧ Filled batches ∧
    Attempt direction versions ran

section

variable (h : Stacked w batches) (hne : Filled batches)

include h hne

theorem Stacked.lastBatch_eq : w.lastBatch = batches.length := by
  rw [lastBatch, h.rows]
  by_cases hnil : batches = []
  · rw [hnil]
    rfl
  · have hpos := length_pos_iff.mpr hnil
    have hmax : ((rowsOf batches).map Prod.snd).max? = some (batches.length : Int) :=
      max?_eq_some_iff.mpr
        ⟨(batch_iff hne _).mpr (by omega), fun k hk => ((batch_iff hne k).mp hk).2⟩
    rw [hmax]
    rfl

theorem Stacked.rollBackBatches (steps : Nat) :
    Moves w ((rollBackBatches useTx steps batches.length).eval exec fails w).2 .down
      (lastBatches steps batches).flatten.reverse := by
  induction steps generalizing w batches with
  | zero => exact ⟨batches, [], (append_nil _).symm, h, hne, by simpa using .nil⟩
  | succ steps ih =>
    rcases eq_nil_or_concat batches with rfl | ⟨rest, b, rfl⟩
    · exact ⟨[], [], (append_nil _).symm, h, hne, by simpa using .nil⟩
    · rw [concat_eq_append] at *
      have hrest : Filled rest := fun b hb => hne b (mem_append_left _ hb)
      have hpos : ((rest ++ [b]).length : Int) > 0 := by simp
      have hnext : ((rest ++ [b]).length : Int) - 1 = rest.length := by simp
      obtain ⟨r, w₁, kept, ran, hrun, hbodies, hstacked, hcases⟩ := h.rollBack_batch useTx fails
      rw [rollBackBatches, if_pos hpos, eval_andThen, h.selectBatch_top, hnext]
      simp only
      rw [eval_andThen, hrun, lastBatches_concat, flatten_append, reverse_append, flatten_singleton]
      rcases hcases with ⟨rfl, rfl, hran⟩ | ⟨⟨-, rfl⟩, hkept, hran⟩
      · obtain ⟨batches', ran', hbodies', hrest', hne', hran'⟩ := ih hstacked.empty_top hrest
        exact ⟨batches', ran ++ ran', by simp [hbodies', hbodies], hrest', hne', hran _ _ hran'⟩
      · exact ⟨rest ++ [kept], ran, hbodies, hstacked, hrest.concat hkept, hran _⟩

theorem Stacked.runUp (useTx : Bool) (fails : Failures) :
    Moves w (w.runUp useTx fails) .up ((pendingOf w).map Migration.version) := by
  rw [Tables.runUp, runUp_eval]
  by_cases hnone : pendingOf w = []
  · rw [hnone]
    exact ⟨batches, [], by simp [eval], h, hne, .nil⟩
  · have hlast : getLastBatch.eval Tables.exec fails w = (.ok w.lastBatch, w) := rfl
    have hasc := pending_ascending h.distinct
    have hrecorded : w.recorded = batches.flatten := by rw [Tables.recorded, h.rows, map_fst_rowsOf]
    have hnew : (Migrate.applied w.bodies ++ (pendingOf w).map version).Nodup := by
      refine nodup_append.mpr ⟨h.applied ▸ h.nodup, hasc.imp ne_of_lt, ?_⟩
      rintro v hv _ hp rfl
      rw [h.applied, ← hrecorded] at hv
      exact (mem_pending.mp hp).2 hv
    obtain ⟨done, rest, ran, hrun, hsplit, hdone, hran⟩ :=
      eachOf_up useTx fails (w.lastBatch + 1) (pendingOf w) hnew
    rw [if_neg hnone, eval_andThen, hlast]
    simp only [hrun]
    have hstacked : Stacked { w with rows := w.rows ++ done.map (·, w.lastBatch + 1)
                                     bodies := w.bodies ++ ran } (batches ++ [done]) := by
      refine ⟨?_, by simpa [h.applied] using hdone, ?_, ?_, ?_, h.distinct, h.hasDown⟩
      · rw [rowsOf_concat, ← h.lastBatch_eq hne, ← h.rows]
      · intro b hb
        rcases mem_concat.mp hb with hold | rfl
        · exact h.ascending b hold
        · exact (pairwise_append.mp (hsplit ▸ hasc)).1
      · rw [h.applied, hsplit, ← append_assoc] at hnew
        simpa using (nodup_append.mp hnew).1
      · intro v hv
        rw [flatten_append, flatten_singleton] at hv
        rcases mem_append.mp hv with hold | htop
        · exact h.registered v hold
        · have hv : v ∈ (pendingOf w).map version := by
            rw [hsplit]
            exact mem_append_left rest htop
          exact (mem_pending.mp hv).1
    by_cases hempty : done = []
    · rw [hempty] at hstacked
      exact ⟨batches, ran, rfl, hempty ▸ hstacked.empty_top, hne, hran⟩
    · exact ⟨batches ++ [done], ran, rfl, hstacked, hne.concat hempty, hran⟩

theorem Stacked.runDown (useTx : Bool) (steps : Int) (fails : Failures) :
    Moves w (w.runDown useTx steps fails) .down
      (lastBatches (max steps 1).toNat batches).flatten.reverse := by
  have hlast : getLastBatch.eval Tables.exec fails w = (.ok w.lastBatch, w) := rfl
  have hsteps : (if steps ≤ 0 then 1 else steps) = max steps 1 := by
    split <;> omega
  rw [Tables.runDown, Migrate.runDown, eval_andThen, hlast, hsteps, h.lastBatch_eq hne]
  simp only
  split
  case isTrue hzero =>
    obtain rfl : batches = [] := length_eq_zero_iff.mp (by exact_mod_cast hzero)
    exact ⟨[], [], by simp [eval], h, hne, by simpa using .nil⟩
  case isFalse => exact h.rollBackBatches hne (max steps 1).toNat

theorem Stacked.reversible : Reversible useTx w := by
  refine ⟨?_, ⟨batches.length, ?_⟩, ?_, ?_⟩
  · rw [recorded, h.rows, map_fst_rowsOf, h.applied]
  · rw [h.rows]
    exact batch_iff hne
  · intro fails
    obtain ⟨-, ran, hbodies, -, -, hran⟩ := h.runUp hne useTx fails
    exact ⟨_, ran, hbodies, pending_ascending h.distinct, fun v => mem_pending, hran⟩
  · intro steps fails
    obtain ⟨-, ran, hbodies, -, -, hran⟩ := h.runDown hne useTx steps fails
    have hcount : max steps 1 = (((max steps 1).toNat : Nat) : Int) := by omega
    refine ⟨ran, hbodies, ?_⟩
    rwa [h.lastBatch_eq hne, hcount, h.rows, filter_lastBatches]

theorem Stacked.step (s : MigrateStep) (hdown : ∀ m, s = .register m → m.hasDown = true) :
    ∃ batches', Stacked (w.step useTx s) batches' ∧ Filled batches' := by
  cases s with
  | register m =>
    refine ⟨batches, ?_, hne⟩
    show Stacked (w.register m) batches
    unfold register
    split
    case isFalse => exact h
    case isTrue hm =>
      refine ⟨h.rows, h.applied, h.ascending, h.nodup, ?_, ?_, ?_⟩
      · intro v hv
        rw [map_append]
        exact mem_append_left _ (h.registered v hv)
      · rw [map_append, nodup_append]
        refine ⟨h.distinct, by simp, ?_⟩
        rintro v hv _ hm' rfl
        obtain rfl := mem_singleton.mp hm'
        exact hm.2 hv
      · intro m' hm'
        rcases mem_concat.mp hm' with hold | rfl
        · exact h.hasDown m' hold
        · exact hdown m' rfl
  | up fails =>
    obtain ⟨batches', -, -, hstacked, hne', -⟩ := h.runUp hne useTx fails
    exact ⟨batches', hstacked, hne'⟩
  | down steps fails =>
    obtain ⟨batches', -, -, hstacked, hne', -⟩ := h.runDown hne useTx steps fails
    exact ⟨batches', hstacked, hne'⟩

end

theorem down_undoes_up (useTx : Bool) (history : List MigrateStep)
    (hdown : ∀ m, .register m ∈ history → m.hasDown = true) :
    Reversible useTx (Tables.after useTx history) := by
  have hstacked : ∃ batches, Stacked (Tables.after useTx history) batches ∧ Filled batches := by
    induction history using reverseRecOn with
    | nil =>
      exact ⟨[], ⟨rfl, rfl, by simp, by simp, by simp, nodup_nil, by simp [Tables.after]⟩,
        by simp [Filled]⟩
    | append_singleton history s ih =>
      obtain ⟨batches, hstacked, hne⟩ := ih fun m hm => hdown m (mem_append_left _ hm)
      rw [Tables.after, foldl_append]
      exact hstacked.step hne s fun m hm => hdown m (by simp [hm])
  obtain ⟨batches, hstacked, hne⟩ := hstacked
  exact hstacked.reversible hne

namespace Steps

def users : Migration := ⟨ascii "20240101000000", true⟩

def applies : List MigrateStep := [.register users, .up fun _ => none]

def roles : Migration := ⟨ascii "20230101000000", true⟩

def posts : Migration := ⟨ascii "20250101000000", true⟩

/-- The second `Up` applies a lower version than the first, and the next body fails. -/
def stops : List MigrateStep := applies ++ [.register posts, .register roles,
  .up fun n => if n = 2 then some (ascii "no such table") else none]

end Steps

theorem applies_reversible :
    (Tables.after false Steps.stops).rows = [(Steps.users.version, 1), (Steps.roles.version, 2)] ∧
      (Tables.after false Steps.stops).bodies.map (·.completed) = [true, true, false] ∧
        Reversible false (Tables.after false Steps.stops) := by
  refine ⟨by decide +kernel, by decide +kernel, down_undoes_up false Steps.stops ?_⟩
  intro m hm
  obtain rfl | rfl | rfl : m = Steps.users ∨ m = Steps.posts ∨ m = Steps.roles := by
    simpa [Steps.stops, Steps.applies] using hm
  all_goals rfl

/-- `Down(0)` rolls one batch back. -/
theorem down_zero_runs :
    ((Tables.after false Steps.applies).runDown false 0 fun _ => none).bodies =
        (Tables.after false Steps.applies).bodies ++ [⟨.down, Steps.users.version, true⟩] ∧
      (Tables.after false Steps.applies).rows.filter
        (fun r => (Tables.after false Steps.applies).lastBatch - 0 < r.2) = [] := by
  decide

end Migrate
