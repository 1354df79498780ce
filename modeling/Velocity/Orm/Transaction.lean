import Mathlib.Logic.Function.Basic
import Velocity.Lib.Bytes

/-! `Manager.Transaction` with no transaction around it, and the callbacks registered on it. -/

namespace Tx

open List

inductive TxList
  | commit
  | rollback
  | commitFailure
deriving DecidableEq

/-- Joined errors are a list. -/
inductive Ending
  | ok
  | error (errs : List Bytes)
  | panic (value : Bytes)

/-- A run of user code: the callbacks it registers, by number, and how it ends. -/
structure UserCode where
  registers : List (TxList × Nat)
  ending : Ending

structure TxEnv where
  body : UserCode
  commit : Option Bytes
  rollback : Option Bytes
  buffered : List UserCode
  tasks : List UserCode
  callback : Nat → UserCode

/-- Of its three flags the one is set whose list was drained. -/
structure TxCallbacks where
  lists : TxList → List Nat
  drained : Option TxList

/-- `OnCommit`, `OnRollback` and `OnCommitFailure`. -/
def TxCallbacks.on (c : TxCallbacks) (list : TxList) (fn : Nat) : TxCallbacks :=
  if c.drained.isSome then c
  else { c with lists := Function.update c.lists list (c.lists list ++ [fn]) }

structure TxWorld where
  callbacks : TxCallbacks
  /-- The registrations that returned nil. -/
  registered : List (TxList × Nat)
  ran : List (TxList × Nat)
  /-- What `Commit` and `Rollback` returned, once they were called. -/
  commit : Option (Option Bytes)
  rollback : Option (Option Bytes)

namespace TxWorld

def new : TxWorld := ⟨⟨fun _ => [], none⟩, [], [], none, none⟩

def register (w : TxWorld) (x : TxList × Nat) : TxWorld :=
  { w with callbacks := w.callbacks.on x.1 x.2, registered := w.registered ++ [x] }

def registerAll (w : TxWorld) (regs : List (TxList × Nat)) : TxWorld := regs.foldl register w

variable {w : TxWorld} {regs : List (TxList × Nat)}

theorem registerAll_of_drained (h : w.callbacks.drained.isSome) :
    w.registerAll regs = { w with registered := w.registered ++ regs } := by
  induction regs generalizing w with
  | nil => simp [registerAll]
  | cons x regs ih =>
    have hon : w.register x = { w with registered := w.registered ++ [x] } := by
      rw [register, TxCallbacks.on, if_pos h]
    rw [registerAll, foldl_cons, hon]
    have hrest := ih (w := { w with registered := w.registered ++ [x] }) h
    rw [registerAll] at hrest
    rw [hrest, append_assoc, singleton_append]

theorem registerAll_of_open (h : w.callbacks.drained = none) : w.registerAll regs = { w with
      callbacks := ⟨fun k => w.callbacks.lists k ++ (regs.filter (·.1 = k)).map Prod.snd, none⟩
      registered := w.registered ++ regs } := by
  induction regs generalizing w with
  | nil =>
    obtain ⟨⟨lists, drained⟩, registered, ran, commit, rollback⟩ := w
    obtain rfl : drained = none := h
    simp [registerAll]
  | cons x regs ih =>
    have hopen : (w.register x).callbacks.drained = none := by
      simp [register, TxCallbacks.on, h]
    have hlists : ∀ k, (w.register x).callbacks.lists k =
        w.callbacks.lists k ++ if x.1 = k then [x.2] else [] := by
      intro k
      by_cases hk : x.1 = k
      · subst hk
        simp [register, TxCallbacks.on, h]
      · simp [register, TxCallbacks.on, h, hk, Function.update_of_ne (Ne.symm hk)]
    have hrest := ih hopen
    rw [registerAll] at hrest
    rw [registerAll, foldl_cons, hrest]
    have hfilter : ∀ k, ((x :: regs).filter (·.1 = k)).map Prod.snd =
        (if x.1 = k then [x.2] else []) ++ (regs.filter (·.1 = k)).map Prod.snd := by
      intro k
      by_cases hk : x.1 = k <;> simp [hk]
    simp only [hlists, hfilter, append_assoc]
    simp [register]

def call (w : TxWorld) (callback : Nat → UserCode) (list : TxList) (fn : Nat) : TxWorld :=
  registerAll { w with ran := w.ran ++ [(list, fn)] } (callback fn).registers

theorem call_of_drained (h : w.callbacks.drained.isSome) (callback : Nat → UserCode) (list : TxList)
    (fn : Nat) : w.call callback list fn = { w with
      registered := w.registered ++ (callback fn).registers, ran := w.ran ++ [(list, fn)] } :=
  registerAll_of_drained h

/-- The loop reads the list again on every step. -/
def drainFrom (callback : Nat → UserCode) (list : TxList) (w : TxWorld)
    (h : w.callbacks.drained.isSome) (i : Nat) : TxWorld :=
  if hi : i < (w.callbacks.lists list).length then
    drainFrom callback list (w.call callback list (w.callbacks.lists list)[i])
      (by rw [call_of_drained h]; exact h) (i + 1)
  else w
termination_by (w.callbacks.lists list).length - i
decreasing_by
  rw [call_of_drained h]
  simp only
  omega

/-- `runCommit`, `runRollback` and `runCommitFailure`. -/
def drain (w : TxWorld) (callback : Nat → UserCode) (list : TxList) : TxWorld :=
  if w.callbacks.drained.isSome then w
  else
    let w' := drainFrom callback list { w with callbacks.drained := some list } rfl 0
    { w' with callbacks.lists := fun _ => [] }

variable {callback : Nat → UserCode} {list : TxList}

theorem drainFrom_eq (h : w.callbacks.drained.isSome) (i : Nat) :
    drainFrom callback list w h i = { w with
      registered := w.registered ++
        ((w.callbacks.lists list).drop i).flatMap fun fn => (callback fn).registers
      ran := w.ran ++ ((w.callbacks.lists list).drop i).map (Prod.mk list) } := by
  fun_induction drainFrom with
  | case1 w h i hi ih =>
    have hdrop := drop_eq_getElem_cons hi
    rw [ih, call_of_drained h]
    simp only [hdrop, flatMap_cons, map_cons, append_assoc, singleton_append]
  | case2 w h i hi =>
    rw [drop_eq_nil_of_le (by omega)]
    simp

theorem drain_eq (h : w.callbacks.drained = none) : w.drain callback list = { w with
      callbacks := ⟨fun _ => [], some list⟩
      registered := w.registered ++ (w.callbacks.lists list).flatMap fun fn => (callback fn).registers
      ran := w.ran ++ (w.callbacks.lists list).map (Prod.mk list) } := by
  simp [drain, h, drainFrom_eq]

end TxWorld

def Ending.errs : Ending → List Bytes
  | .ok => []
  | .error errs => errs
  | .panic value => [value]

def flush : List UserCode → UserCode
  | [] => ⟨[], .ok⟩
  | entry :: rest =>
    match entry.ending with
    | .ok => ⟨entry.registers ++ (flush rest).registers, (flush rest).ending⟩
    | _ => entry

def errTxDone : Bytes := Bytes.ascii "sql: transaction has already been committed or rolled back"

def transaction (env : TxEnv) : Ending × TxWorld :=
  let w := TxWorld.new.registerAll env.body.registers
  match env.body.ending, env.commit with
  | .ok, some e =>
    (.error [e], { w with commit := some (some e) }.drain env.callback .commitFailure)
  | .ok, none =>
    let flushed := flush env.buffered
    let w := TxWorld.registerAll { w with commit := some none } flushed.registers
    match flushed.ending with
    | .panic value =>
      -- The deferred recover also covers the flush. `Rollback` then finds the transaction done.
      (.panic value, { w with rollback := some (some errTxDone) }.drain env.callback .rollback)
    | ending =>
      -- A panic of an after-commit listener is an error.
      let errs := ending.errs ++ env.tasks.flatMap fun task => task.ending.errs
      (if errs = [] then .ok else .error errs,
        (w.registerAll (env.tasks.flatMap UserCode.registers)).drain env.callback .commit)
  | ending, _ => (ending, { w with rollback := some env.rollback }.drain env.callback .rollback)

/-- The outcome a list is for. -/
def TxWorld.Calls (w : TxWorld) : TxList → Prop
  | .commit => w.commit = some none
  | .rollback => w.commit ≠ some none ∧ w.rollback = some none
  | .commitFailure => ∃ e, w.commit = some (some e)

/-- The callbacks of the outcome's list run, all of them in the order of their registrations, and no
others. -/
structure MatchesOutcome (w : TxWorld) : Prop where
  outcome : ∀ list fn, (list, fn) ∈ w.ran → w.Calls list
  all : ∀ list, w.Calls list → w.ran = w.registered.filter (·.1 = list)

/-- Of the callbacks registered for a list there is none, or none registers another for it. -/
def Quiet (callback : Nat → UserCode) (list : TxList) (regs : List (TxList × Nat)) : Prop :=
  ∀ fn, (list, fn) ∈ regs → ∀ fn', (list, fn') ∉ (callback fn).registers

theorem matches_drain {w : TxWorld} (hopen : w.callbacks.drained = none) (hran : w.ran = [])
    (callback : Nat → UserCode) (list : TxList)
    (hlist : w.callbacks.lists list = (w.registered.filter (·.1 = list)).map Prod.snd) :
    MatchesOutcome (w.drain callback list) ↔
      ((∃ fn, (list, fn) ∈ w.registered) → w.Calls list) ∧ Quiet callback list w.registered ∧
        ∀ l ≠ list, w.Calls l → ∀ fn, (list, fn) ∉ w.registered ∧ (l, fn) ∉ w.registered := by
  have hmem : ∀ fn, (list, fn) ∈ w.registered ↔ fn ∈ w.callbacks.lists list := by
    simp [hlist]
  have hfilter : w.registered.filter (·.1 = list) = (w.callbacks.lists list).map (Prod.mk list) := by
    have hsame : ∀ x ∈ w.registered.filter (·.1 = list), (list, x.2) = id x := by
      intro x hx
      rw [← of_decide_eq_true (mem_filter.mp hx).2]
      rfl
    rw [hlist, map_map]
    exact (map_id _).symm.trans (map_congr_left hsame).symm
  have hcalls : ∀ l, (w.drain callback list).Calls l ↔ w.Calls l := by
    intro l
    rw [TxWorld.drain_eq hopen]
    cases l <;> rfl
  have hran : (w.drain callback list).ran = w.registered.filter (·.1 = list) := by
    rw [TxWorld.drain_eq hopen, hran, hfilter]
    rfl
  have hregs : (w.drain callback list).registered = w.registered ++
      (w.callbacks.lists list).flatMap fun fn => (callback fn).registers := by
    rw [TxWorld.drain_eq hopen]
  have hquiet : Quiet callback list w.registered ↔ w.registered.filter (·.1 = list) =
      (w.drain callback list).registered.filter (·.1 = list) := by
    rw [hregs, filter_append, self_eq_append_right, filter_eq_nil_iff]
    simp only [Quiet, hmem, mem_flatMap, Prod.forall, decide_eq_true_eq]
    refine ⟨fun h k fn' ⟨fn, hfn, hreg⟩ hk => h fn hfn fn' (hk ▸ hreg), ?_⟩
    exact fun h fn hfn fn' hreg => h list fn' ⟨fn, hfn, hreg⟩ rfl
  constructor
  · intro h
    have hone : (∃ fn, (list, fn) ∈ w.registered) → w.Calls list := by
      rintro ⟨fn, hfn⟩
      refine (hcalls list).mp (h.outcome list fn ?_)
      rw [hran]
      simpa using hfn
    refine ⟨hone, ?_, ?_⟩
    · by_cases hlisted : ∃ fn, (list, fn) ∈ w.registered
      · rw [hquiet, ← hran]
        exact h.all list ((hcalls list).mpr (hone hlisted))
      · exact fun fn hfn => absurd ⟨fn, hfn⟩ hlisted
    · intro l hl hother fn
      have hall := h.all l ((hcalls l).mpr hother)
      rw [hran] at hall
      refine ⟨fun hfn => ?_, fun hfn => ?_⟩
      · have hin : (list, fn) ∈ w.registered.filter (·.1 = list) := by simpa using hfn
        rw [hall] at hin
        exact hl (of_decide_eq_true (mem_filter.mp hin).2).symm
      · have hin : (l, fn) ∈ (w.drain callback list).registered.filter (·.1 = l) := by
          simp [hregs, hfn]
        rw [← hall] at hin
        exact hl (of_decide_eq_true (mem_filter.mp hin).2)
  · rintro ⟨hone, hq, hother⟩
    refine ⟨?_, ?_⟩
    · intro k fn hfn
      rw [hran, mem_filter] at hfn
      obtain rfl : k = list := of_decide_eq_true hfn.2
      exact (hcalls k).mpr (hone ⟨fn, hfn.1⟩)
    · intro l hl
      rw [hcalls] at hl
      rw [hran]
      by_cases heq : l = list
      · rw [heq]
        exact hquiet.mp hq
      · have hempty : w.callbacks.lists list = [] := by
          rw [eq_nil_iff_forall_not_mem]
          exact fun fn hfn => (hother l heq hl fn).1 ((hmem fn).mpr hfn)
        rw [hfilter, hregs, hempty, map_nil, flatMap_nil, append_nil, eq_comm, filter_eq_nil_iff]
        rintro ⟨k, fn⟩ hk hkl
        obtain rfl : k = l := by simpa using hkl
        exact (hother k heq hl fn).2 hk

/-- No callback registers another for its list; with callbacks for a rollback a failed body is
rolled back; and the flush does not panic with callbacks for a commit or a rollback. -/
def Undisturbed (env : TxEnv) : Prop :=
  match env.body.ending, env.commit with
  | .ok, some _ => Quiet env.callback .commitFailure env.body.registers
  | .ok, none =>
    match (flush env.buffered).ending with
    | .panic _ => ∀ fn, (.rollback, fn) ∉ env.body.registers ++ (flush env.buffered).registers ∧
        (.commit, fn) ∉ env.body.registers ++ (flush env.buffered).registers
    | _ => Quiet env.callback .commit (env.body.registers ++ (flush env.buffered).registers ++
        env.tasks.flatMap UserCode.registers)
  | _, _ => ((∃ fn, (.rollback, fn) ∈ env.body.registers) → env.rollback = none) ∧
      Quiet env.callback .rollback env.body.registers

theorem TxList.forall {P : TxList → Prop} :
    (∀ list, P list) ↔ P .commit ∧ P .rollback ∧ P .commitFailure :=
  ⟨fun h => ⟨h _, h _, h _⟩, fun h list => by cases list <;> simp [h]⟩

attribute [local simp] TxWorld.new

theorem callbacks_match_outcome (env : TxEnv) :
    MatchesOutcome (transaction env).2 ↔ Undisturbed env := by
  unfold transaction Undisturbed
  have hnew : TxWorld.new.callbacks.drained = none := rfl
  simp only [TxWorld.registerAll_of_open hnew]
  split
  · rw [matches_drain rfl rfl _ _ rfl]
    simp [TxWorld.Calls, TxList.forall]
  · simp only [TxWorld.registerAll_of_open]
    split
    · rw [matches_drain rfl rfl _ _ (by simp)]
      simp only [TxWorld.Calls, TxList.forall]
      constructor
      · rintro ⟨-, -, hother, -⟩
        exact hother nofun trivial
      · intro hnone
        simp_all [Quiet]
    · rw [matches_drain rfl rfl _ _ (by simp)]
      simp [TxWorld.Calls, TxList.forall]
  · rw [matches_drain rfl rfl _ _ rfl]
    simp [TxWorld.Calls, TxList.forall]

/-- The dispatch of an event behind the commit panics. -/
def flushPanics : TxEnv where
  body := ⟨[(.rollback, 0)], .ok⟩
  commit := none
  rollback := none
  buffered := [⟨[], .panic []⟩]
  tasks := []
  callback _ := ⟨[], .ok⟩

theorem rollback_runs_after_commit : (transaction flushPanics).2.commit = some none ∧
    (transaction flushPanics).2.ran = [(.rollback, 0)] := by
  simp [transaction, flushPanics, flush, TxWorld.registerAll_of_open, TxWorld.drain_eq]

end Tx
