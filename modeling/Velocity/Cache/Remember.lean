import Velocity.Lib.Bytes
import Velocity.Lib.Map
import Velocity.Lib.Pool

/-! Remember: the callers of one key check it, elect one of them by adding a lock key, and the
elected one computes the value, writes it and drops the lock, while the others poll. -/

namespace Cache

open Interleave List FMap

variable {V : Type}

inductive RememberErr
  | store
  | callback
  | cancelled
  deriving DecidableEq

inductive RememberOp (V : Type)
  | get (key : Bytes)
  | add (key : Bytes) (value : V)
  | put (key : Bytes) (value : V)
  | forget (key : Bytes)
  | callback
  | ctxErr
  | ctxDone
  /-- The callback after polling in vain. -/
  | fallback

@[reducible] def RememberOp.Res : RememberOp V → Type
  | .get _ => Option V
  | .add _ _ => Except RememberErr Bool
  | .put _ _ => Except RememberErr Unit
  | .forget _ => Unit
  | .callback | .fallback => Except RememberErr V
  | .ctxErr | .ctxDone => Bool

structure RememberEnv (V : Type) where
  result : Except RememberErr V
  failed : Bool
  cancelled : Bool

namespace RememberOp

def exec (s : FMap Bytes V) (env : RememberEnv V) : (o : RememberOp V) → o.Res × FMap Bytes V
  | .get key => (s.lookup key, s)
  | .add key value =>
    if env.failed then (.error .store, s)
    else if (s.lookup key).isSome then (.ok false, s)
    else (.ok true, s.insert key value)
  | .put key value => if env.failed then (.error .store, s) else (.ok (), s.insert key value)
  | .forget key => ((), if env.failed then s else s.erase key)
  | .callback => (env.result, s)
  | .fallback => (env.result, s)
  | .ctxErr => (env.cancelled, s)
  | .ctxDone => (env.cancelled, s)

end RememberOp

def rememberLockKeyPrefix : Bytes := Bytes.ascii "\x00velocity/cache:remember-lock\x00"

def rememberLockKey (key : Bytes) : Bytes := rememberLockKeyPrefix ++ key

theorem rememberLockKey_ne (key : Bytes) : rememberLockKey key ≠ key := by
  intro h
  have hlength := congrArg length h
  rw [rememberLockKey, length_append] at hlength
  have hpos : 0 < rememberLockKeyPrefix.length := by decide
  omega

abbrev RememberProg (V : Type) := Prog (RememberOp.Res (V := V))

def rememberLoserPollAttempts : Nat := 50

/-- The loser's polls, and the callback when they are exhausted. -/
def pollRemembered (key : Bytes) : Nat → RememberProg V (Except RememberErr V)
  | 0 => Prog.perform (.fallback : RememberOp V)
  | attempts + 1 => do
    let cancelled ← Prog.perform (.ctxErr : RememberOp V)
    if cancelled then pure (.error .cancelled)
    else
      let found ← Prog.perform (.get key : RememberOp V)
      match found with
      | some value => pure (.ok value)
      | none =>
        let cancelled ← Prog.perform (.ctxDone : RememberOp V)
        if cancelled then pure (.error .cancelled) else pollRemembered key attempts

/-- The lock is dropped however the callback and the write end. -/
def rememberPopulate (key : Bytes) : RememberProg V (Except RememberErr V) := do
  let computed ← Prog.perform (.callback : RememberOp V)
  match computed with
  | .error e =>
    Prog.perform (.forget (rememberLockKey key) : RememberOp V)
    pure (.error e)
  | .ok value =>
    let written ← Prog.perform (.put key value : RememberOp V)
    Prog.perform (.forget (rememberLockKey key) : RememberOp V)
    pure (written.map fun _ => value)

/-- `one` is the value stored under the lock key. -/
def rememberWith (key : Bytes) (one : V) : RememberProg V (Except RememberErr V) := do
  let found ← Prog.perform (.get key : RememberOp V)
  match found with
  | some value => pure (.ok value)
  | none =>
    let won ← Prog.perform (.add (rememberLockKey key) one : RememberOp V)
    match won with
    | .error e => pure (.error e)
    | .ok true => rememberPopulate key
    | .ok false => pollRemembered key rememberLoserPollAttempts

/-- No failures and no cancelled context; the environment is what the callback computes. -/
def rememberSystem (key : Bytes) (one : V) :
    System (RememberOp.Res (V := V)) (FMap Bytes V) V Unit (Except RememberErr V) :=
  ⟨fun _ => rememberWith key one, fun s value => RememberOp.exec s ⟨.ok value, false, false⟩⟩

abbrev RememberEvent (V : Type) := Event (RememberOp.Res (V := V))

def computed : RememberEvent V → Option V
  | ⟨_, .callback, .ok value⟩ => some value
  | ⟨_, .fallback, .ok value⟩ => some value
  | _ => none

def elects : RememberEvent V → Bool
  | ⟨_, .add _ _, .ok true⟩ => true
  | _ => false

def writes : RememberEvent V → Bool
  | ⟨_, .put _ _, _⟩ => true
  | _ => false

def exhausts : RememberEvent V → Bool
  | ⟨_, .fallback, _⟩ => true
  | _ => false

def ElectsBeforeWrite (log : List (RememberEvent V)) : Prop :=
  EachAfter (fun pre ev => elects ev = true → ∀ x ∈ pre, writes x = false) log

section Caller

inductive Phase (V : Type)
  | fresh
  | missed
  | polling
  | elected
  | computed (value : V)
  | written (value : V)
  | done (value : V)
  | fellBack

def Phase.next : Phase V → (o : RememberOp V) → o.Res → Phase V
  | .fresh, .get _, some value => .done value
  | .fresh, .get _, none => .missed
  | .missed, .add _ _, .ok true => .elected
  | .missed, .add _ _, _ => .polling
  | .elected, .callback, .ok value => .computed value
  | .computed value, .put _ _, _ => .written value
  | .written value, .forget _, _ => .done value
  | .polling, .get _, some value => .done value
  | .polling, .fallback, _ => .fellBack
  | phase, _, _ => phase

def Phase.Permits (key : Bytes) : Phase V → RememberOp V → Prop
  | .fresh, .get key' => key' = key
  | .missed, .add key' _ => key' = rememberLockKey key
  | .elected, .callback => True
  | .computed value, .put key' value' => key' = key ∧ value' = value
  | .written _, .forget key' => key' = rememberLockKey key
  | .polling, .get key' => key' = key
  | .polling, .ctxErr | .polling, .ctxDone | .polling, .fallback => True
  | _, _ => False

structure Caller (V : Type) where
  phase : Phase V
  won : Bool
  called : Bool
  wrote : Bool

def Caller.next (m : Caller V) (o : RememberOp V) (r : o.Res) : Caller V where
  phase := m.phase.next o r
  won := m.won || elects ⟨0, o, r⟩
  called := m.called || (computed ⟨0, o, r⟩).isSome
  wrote := m.wrote || writes ⟨0, o, r⟩

structure Caller.Guard (key : Bytes) (m : Caller V) (o : RememberOp V) (r : o.Res) : Prop where
  permits : m.phase.Permits key o
  called : writes ⟨0, o, r⟩ = true → m.called = true
  fresh : elects ⟨0, o, r⟩ = true → m.wrote = false

def Granted : (o : RememberOp V) → o.Res → Prop
  | .add _ _, r => ∃ won, r = .ok won
  | .put _ _, r => r = .ok ()
  | .callback, r | .fallback, r => ∃ value, r = .ok value
  | .ctxErr, r | .ctxDone, r => r = false
  | _, _ => True

def callerMonitor (key : Bytes) : Monitor (RememberOp.Res (V := V)) where
  State := Caller V
  init := ⟨.fresh, false, false, false⟩
  allowed := Granted
  guard := Caller.Guard key
  next := Caller.next

def Caller.Ends (result : Except RememberErr V) (m : Caller V) : Prop :=
  ((∃ value, result = .ok value ∧ m.phase = .done value) ∨ m.phase = .fellBack) ∧
    (m.won = true → m.called = true)

attribute [local simp] callerMonitor Caller.next Phase.next Phase.Permits elects writes

theorem wp_pollRemembered (key : Bytes) (attempts : Nat) (m : Caller V)
    (hphase : m.phase = .polling) (hwon : m.won = false) :
    (pollRemembered key attempts).wp (callerMonitor key) m fun r m' => m'.Ends r := by
  induction attempts generalizing m with
  | zero =>
    rintro r ⟨value, rfl⟩
    refine ⟨⟨by simp [hphase], by simp, by simp⟩, ?_⟩
    refine ⟨.inr ?_, ?_⟩
    · simp [hphase]
    · simp [hwon]
  | succ attempts ih =>
    rintro r rfl
    refine ⟨⟨by simp [hphase], by simp, by simp⟩, ?_⟩
    intro found _
    refine ⟨⟨?_, by simp, by simp⟩, ?_⟩
    · simp [hphase]
    cases found with
    | some value =>
      refine ⟨.inl ⟨value, rfl, ?_⟩, ?_⟩
      · simp [hphase]
      · simp [hwon]
    | none =>
      rintro r rfl
      refine ⟨⟨?_, by simp, by simp⟩, ?_⟩
      · simp [hphase]
      apply ih
      · simp [hphase]
      · simp [hwon]

theorem wp_rememberPopulate (key : Bytes) (m : Caller V) (hphase : m.phase = .elected) :
    (rememberPopulate key).wp (callerMonitor key) m fun r m' => m'.Ends r := by
  rintro r ⟨value, rfl⟩
  refine ⟨⟨by simp [hphase], by simp, by simp⟩, ?_⟩
  rintro r rfl
  refine ⟨⟨?_, ?_, by simp⟩, ?_⟩
  · simp [hphase]
  · simp [computed]
  intro r _
  refine ⟨⟨?_, by simp, by simp⟩, ?_⟩
  · simp [hphase]
  refine ⟨.inl ⟨value, rfl, ?_⟩, ?_⟩
  · simp [hphase]
  · simp [computed]

theorem wp_rememberWith (key : Bytes) (one : V) :
    (rememberWith key one).wp (callerMonitor key) (callerMonitor key).init
      fun r m => Caller.Ends r m := by
  intro found _
  refine ⟨⟨by simp, by simp, by simp⟩, ?_⟩
  cases found with
  | some value =>
    refine ⟨.inl ⟨value, rfl, ?_⟩, ?_⟩
    · simp
    · simp
  | none =>
    rintro r ⟨won, rfl⟩
    refine ⟨⟨?_, by simp, ?_⟩, ?_⟩
    · simp
    · simp
    cases won with
    | true =>
      apply wp_rememberPopulate
      simp
    | false =>
      apply wp_pollRemembered
      · simp
      · simp

theorem granted_exec (s : FMap Bytes V) (value : V) (o : RememberOp V) :
    Granted o (RememberOp.exec s ⟨.ok value, false, false⟩ o).1 := by
  cases o with
  | add key value' =>
    simp only [RememberOp.exec, Granted]
    cases (s.lookup key).isSome <;> exact ⟨_, rfl⟩
  | callback => exact ⟨value, rfl⟩
  | fallback => exact ⟨value, rfl⟩
  | _ => trivial

end Caller

section Stages

inductive Stage (V : Type)
  | cold
  | elected (i : Nat)
  | computed (i : Nat) (value : V)
  | written (i : Nat) (value : V)
  | done (value : V)

variable {phase : Phase V}

namespace Stage

def value : Stage V → Option V
  | .written _ value | .done value => some value
  | _ => none

def locked : Stage V → Bool
  | .elected _ | .computed _ _ | .written _ _ => true
  | _ => false

def ran : Stage V → List V
  | .computed _ value | .written _ value | .done value => [value]
  | _ => []

def Allows (stage : Stage V) (i : Nat) : Phase V → Prop
  | .fresh | .missed | .polling => True
  | .elected => stage = .elected i
  | .computed value => stage = .computed i value
  | .written value => stage = .written i value
  | .done value => stage.value = some value
  | .fellBack => False

theorem Allows.other {stage stage' : Stage V} {i j : Nat} (hij : j ≠ i)
    (hown : stage.locked = true → stage = .elected i ∨ (∃ v, stage = .computed i v) ∨
      ∃ v, stage = .written i v) (hvalue : ∀ v, stage.value = some v → stage'.value = some v)
    (h : stage.Allows j phase) : stage'.Allows j phase := by
  cases phase with
  | done value => exact hvalue value h
  | fellBack => exact h
  | elected | computed value | written value =>
    obtain rfl : stage = _ := h
    rcases hown rfl with he | ⟨v, he⟩ | ⟨v, he⟩ <;> cases he
    exact absurd rfl hij
  | _ => trivial

end Stage

variable {key : Bytes} {w : FMap Bytes V} {log : List (RememberEvent V)} {i : Nat}

def phaseOf (key : Bytes) (log : List (RememberEvent V)) (i : Nat) : Phase V :=
  ((callerMonitor key).stateOf log i : Caller V).phase

theorem phaseOf_concat (key : Bytes) (log : List (RememberEvent V)) (ev : RememberEvent V)
    (i : Nat) : phaseOf key (log ++ [ev]) i =
      if ev.tid = i then (phaseOf key log i).next ev.op ev.res else phaseOf key log i := by
  simp only [phaseOf, Monitor.stateOf_concat]
  split <;> rfl

structure Populating (key : Bytes) (w : FMap Bytes V) (log : List (RememberEvent V))
    (stage : Stage V) : Prop where
  value : w.lookup key = stage.value
  lock : (w.lookup (rememberLockKey key)).isSome = stage.locked
  ran : log.filterMap computed = stage.ran
  written : stage.value ≠ none → ∃ ev ∈ log, writes ev = true
  phases : ∀ i, stage.Allows i (phaseOf key log i)

namespace Populating

variable {stage stage' : Stage V} {ev : RememberEvent V}

theorem move (h : Populating key w log stage) {w' : FMap Bytes V}
    (hothers : ∀ j phase, j ≠ ev.tid → stage.Allows j phase → stage'.Allows j phase)
    (hvalue : w'.lookup key = stage'.value)
    (hlock : (w'.lookup (rememberLockKey key)).isSome = stage'.locked)
    (hran : stage'.ran = stage.ran ++ (computed ev).toList)
    (hwritten : stage.value = none → stage'.value ≠ none → writes ev = true)
    (hphase : phaseOf key log ev.tid = phase) (hnext : stage'.Allows ev.tid (phase.next ev.op ev.res)) :
    Populating key w' (log ++ [ev]) stage' := by
  refine ⟨hvalue, hlock, ?_, ?_, ?_⟩
  · rw [filterMap_append, h.ran, hran]
    cases hev : computed ev <;> simp [hev]
  · intro hne
    by_cases hnone : stage.value = none
    · exact ⟨ev, by simp, hwritten hnone hne⟩
    · obtain ⟨x, hx, hwrites⟩ := h.written hnone
      exact ⟨x, mem_append_left _ hx, hwrites⟩
  · intro j
    rw [phaseOf_concat]
    by_cases hj : ev.tid = j
    · rw [if_pos hj, ← hj, hphase]
      exact hnext
    · rw [if_neg hj]
      exact hothers j _ (Ne.symm hj) (h.phases j)

theorem quiet (h : Populating key w log stage) (hcomputed : computed ev = none)
    (hphase : phaseOf key log ev.tid = phase) (hnext : stage.Allows ev.tid (phase.next ev.op ev.res)) :
    Populating key w (log ++ [ev]) stage :=
  h.move (fun _ _ _ ha => ha) h.value h.lock (by simp [hcomputed]) absurd hphase hnext

variable {value : V} {o : RememberOp V}

def answered (w : FMap Bytes V) (value : V) (i : Nat) (o : RememberOp V) : RememberEvent V :=
  ⟨i, o, (RememberOp.exec w ⟨.ok value, false, false⟩ o).1⟩

variable (h : Populating key w log stage)

include h

variable (i : Nat)

theorem allows (hphase : phaseOf key log i = phase) : stage.Allows i phase :=
  hphase ▸ h.phases i

theorem get_step (value : V) (hphase : phaseOf key log i = phase)
    (hget : phase = .fresh ∨ phase = .polling) :
    Populating key w (log ++ [answered w value i (.get key)]) stage := by
  refine h.quiet rfl hphase ?_
  show stage.Allows i (phase.next (.get key) (w.lookup key))
  rw [h.value]
  rcases hget with rfl | rfl
  all_goals
    cases hvalue : stage.value with
    | none => trivial
    | some v => exact hvalue

theorem add_step (value one : V) (hphase : phaseOf key log i = .missed)
    (hlate : elects (answered w value i (.add (rememberLockKey key) one)) = true →
      ∀ x ∈ log, writes x = false) : ∃ stage', Populating key
      (RememberOp.exec w ⟨.ok value, false, false⟩ (.add (rememberLockKey key) one)).2
      (log ++ [answered w value i (.add (rememberLockKey key) one)]) stage' := by
  set k := rememberLockKey key
  cases hlock : (w.lookup k).isSome with
  | true =>
    have hout : RememberOp.exec w ⟨.ok value, false, false⟩ (.add k one) =
        (.ok false, w) := by simp [RememberOp.exec, hlock]
    simp only [answered, hout]
    exact ⟨stage, h.quiet rfl hphase trivial⟩
  | false =>
    have hout : RememberOp.exec w ⟨.ok value, false, false⟩ (.add k one) =
        (.ok true, w.insert k one) := by simp [RememberOp.exec, hlock]
    simp only [answered, hout] at hlate ⊢
    have hfree : stage.locked = false := h.lock.symm.trans hlock
    -- The value is not there yet, since a caller is elected only before it is written.
    have hnone : stage.value = none := by
      by_contra hne
      obtain ⟨x, hx, hwrites⟩ := h.written hne
      rw [hlate rfl x hx] at hwrites
      cases hwrites
    have hran : stage.ran = [] := by
      cases stage with
      | cold => rfl
      | elected j => rfl
      | computed j v => cases hfree
      | written j v => cases hnone
      | done v => cases hnone
    refine ⟨.elected i, h.move ?_ ?_ ?_ ?_ ?_ hphase rfl⟩
    · refine fun j phase hj => .other hj (fun hlocked => ?_) fun v hv => ?_
      · rw [hfree] at hlocked
        cases hlocked
      · rw [hnone] at hv
        cases hv
    · rw [lookup_insert_ite, if_neg (rememberLockKey_ne key).symm, h.value, hnone]
      rfl
    · rw [lookup_insert_ite, if_pos rfl]
      rfl
    · rw [hran]
      rfl
    · intro _ hne
      exact absurd rfl hne

theorem callback_step (value : V) (hphase : phaseOf key log i = .elected) :
    ∃ stage', Populating key w (log ++ [answered w value i .callback]) stage' := by
  obtain rfl : stage = .elected i := h.allows i hphase
  refine ⟨.computed i value, h.move ?_ h.value h.lock rfl ?_ hphase rfl⟩
  · exact fun j _ hj => .other hj (fun _ => .inl rfl) fun v hv => hv
  · intro _ hne
    exact absurd rfl hne

theorem put_step (value v : V) (hphase : phaseOf key log i = .computed v) :
    ∃ stage', Populating key (w.insert key v) (log ++ [answered w value i (.put key v)]) stage' := by
  obtain rfl : stage = .computed i v := h.allows i hphase
  refine ⟨.written i v, h.move ?_ ?_ ?_ rfl ?_ hphase rfl⟩
  · exact fun j _ hj => .other hj (fun _ => .inr (.inl ⟨v, rfl⟩)) nofun
  · rw [lookup_insert_ite, if_pos rfl]
    rfl
  · rw [lookup_insert_ite, if_neg (rememberLockKey_ne key), h.lock]
    rfl
  · exact fun _ _ => rfl

theorem forget_step (value v : V) (hphase : phaseOf key log i = .written v) :
    ∃ stage', Populating key (w.erase (rememberLockKey key))
      (log ++ [answered w value i (.forget (rememberLockKey key))]) stage' := by
  obtain rfl : stage = .written i v := h.allows i hphase
  refine ⟨.done v, h.move ?_ ?_ ?_ rfl ?_ hphase rfl⟩
  · exact fun j _ hj => .other hj (fun _ => .inr (.inr ⟨v, rfl⟩)) fun v' hv' => hv'
  · rw [lookup_erase_ite, if_neg (rememberLockKey_ne key).symm, h.value]
    rfl
  · rw [lookup_erase_ite, if_pos rfl]
    rfl
  · exact nofun

theorem step (value : V) (hpermits : (phaseOf key log i).Permits key o)
    (hfall : exhausts (answered w value i o) = false)
    (hlate : elects (answered w value i o) = true → ∀ x ∈ log, writes x = false) :
    ∃ stage', Populating key (RememberOp.exec w ⟨.ok value, false, false⟩ o).2
      (log ++ [answered w value i o]) stage' := by
  cases hphase : phaseOf key log i <;> rw [hphase] at hpermits <;>
    cases o <;> first | exact hpermits.elim | skip
  case fresh.get key' =>
    obtain rfl : key' = key := hpermits
    exact ⟨stage, h.get_step i value hphase (.inl rfl)⟩
  case missed.add key' one =>
    obtain rfl : key' = rememberLockKey key := hpermits
    exact h.add_step i value one hphase hlate
  case polling.get key' =>
    obtain rfl : key' = key := hpermits
    exact ⟨stage, h.get_step i value hphase (.inr rfl)⟩
  case polling.ctxErr | polling.ctxDone => exact ⟨stage, h.quiet rfl hphase trivial⟩
  case polling.fallback => cases hfall
  case elected.callback => exact h.callback_step i value hphase
  case computed.put v key' value' =>
    obtain ⟨rfl, rfl⟩ : key' = key ∧ value' = v := hpermits
    exact h.put_step i value value' hphase
  case written.forget v key' =>
    obtain rfl : key' = rememberLockKey key := hpermits
    exact h.forget_step i value v hphase

end Populating

end Stages

section Runs

variable {key : Bytes} {one v : V} {acts : List (Act V Unit)}

abbrev remembered (key : Bytes) (one : V) (acts : List (Act V Unit)) :=
  (rememberSystem key one).run (Pool.start ∅) acts

theorem populating_run (key : Bytes) (one : V) (acts : List (Act V Unit)) :
    ElectsBeforeWrite (remembered key one acts).log →
    (∀ ev ∈ (remembered key one acts).log, exhausts ev = false) →
    ∃ stage, Populating key (remembered key one acts).world
      (remembered key one acts).log stage := by
  refine (rememberSystem key one).invariant (callerMonitor key)
    (I := fun w log => ElectsBeforeWrite log → (∀ ev ∈ log, exhausts ev = false) →
      ∃ stage, Populating key w log stage) ?_ ?_ ?_ ?_ acts
  · intro c
    exact Prog.wp_mono (wp_rememberWith key one) fun _ _ _ => trivial
  · intro _ _
    exact ⟨.cold, rfl, rfl, rfl, absurd rfl, fun i => trivial⟩
  · exact fun w log value o _ => granted_exec w value o
  · intro w log i value o h hguard hlate hfall
    obtain ⟨hbefore, hhere⟩ := eachAfter_concat.mp hlate
    obtain ⟨stage, hstage⟩ := h hbefore fun ev hev => hfall ev (mem_append_left _ hev)
    exact hstage.step i value hguard.permits
      (hfall _ (mem_append_right _ mem_cons_self)) hhere

theorem returned_ends {i : Nat} {r : Except RememberErr V}
    (h : (remembered key one acts).threads[i]? = some ⟨(), some (.ret r)⟩) : Caller.Ends r
      ((callerMonitor key).stateOf (remembered key one acts).log i) :=
  (rememberSystem key one).returned (callerMonitor key)
    (Q := fun _ => Caller.Ends) (fun _ => wp_rememberWith key one)
    granted_exec h

theorem of_anyone (ev : RememberEvent V) :
    computed ⟨0, ev.op, ev.res⟩ = computed ev ∧ elects ⟨0, ev.op, ev.res⟩ = elects ev ∧
      writes ⟨0, ev.op, ev.res⟩ = writes ev := by
  obtain ⟨-, o, r⟩ := ev
  cases o with
  | add key value =>
    rcases r with _ | _ | _ <;> exact ⟨rfl, rfl, rfl⟩
  | callback | fallback => cases r <;> exact ⟨rfl, rfl, rfl⟩
  | _ => exact ⟨rfl, rfl, rfl⟩

theorem stateOf_flag {f : Caller V → Bool} {g : RememberEvent V → Bool}
    (hinit : f (callerMonitor key).init = false)
    (hnext : ∀ m o r, f (Caller.next m o r) = (f m || g ⟨0, o, r⟩))
    (hg : ∀ ev, g ⟨0, ev.op, ev.res⟩ = g ev) (log : List (RememberEvent V)) (i : Nat) :
    f ((callerMonitor key).stateOf log i) = log.any fun ev => ev.tid = i && g ev := by
  rw [(callerMonitor key).stateOf_any hinit hnext log i]
  simp only [hg]

theorem stateOf_flags (key : Bytes) (log : List (RememberEvent V)) (i : Nat) :
    (((callerMonitor key).stateOf log i : Caller V).called =
      log.any fun ev => ev.tid = i && (computed ev).isSome) ∧
    (((callerMonitor key).stateOf log i : Caller V).won = log.any fun ev => ev.tid = i && elects ev) ∧
    ((callerMonitor key).stateOf log i : Caller V).wrote =
      log.any fun ev => ev.tid = i && writes ev := by
  have hcalled : ∀ ev : RememberEvent V, (computed ⟨0, ev.op, ev.res⟩).isSome = (computed ev).isSome :=
    fun ev => by rw [(of_anyone ev).1]
  exact ⟨stateOf_flag (f := Caller.called) rfl (fun _ _ _ => rfl) hcalled log i,
    stateOf_flag (f := Caller.won) rfl (fun _ _ _ => rfl) (fun ev => (of_anyone ev).2.1) log i,
    stateOf_flag (f := Caller.wrote) rfl (fun _ _ _ => rfl) (fun ev => (of_anyone ev).2.2) log i⟩

theorem eq_of_computed_once {log : List (RememberEvent V)}
    (h : log.filterMap computed = [v]) {x y : RememberEvent V} (hx : x ∈ log) (hy : y ∈ log)
    (hx' : (computed x).isSome = true) (hy' : (computed y).isSome = true) : x = y := by
  have hlength : (log.filter fun ev => (computed ev).isSome).length = 1 := by
    rw [← countP_eq_length_filter, ← length_filterMap_eq_countP, h]
    rfl
  exact eq_of_length_le_one (le_of_eq hlength) (mem_filter.mpr ⟨hx, hx'⟩)
    (mem_filter.mpr ⟨hy, hy'⟩)

theorem electsBeforeWrite_of_once
    (hall : ∀ t ∈ (remembered key one acts).threads, ∃ r, t.rest = some (.ret r))
    (honce : (remembered key one acts).log.filterMap computed = [v]) :
    ElectsBeforeWrite (remembered key one acts).log := by
  have hguarded := (rememberSystem key one).each_guarded (callerMonitor key) (w := ∅)
    (fun _ => Prog.wp_mono (wp_rememberWith key one) fun _ _ _ => trivial)
    granted_exec acts
  have htids := ((rememberSystem key one).monitored_run (callerMonitor key) (w := ∅)
    (fun _ => wp_rememberWith key one)
    granted_exec acts).2
  intro pre ev post hlog helects x hx
  by_contra hwrites
  rw [Bool.not_eq_false] at hwrites
  -- The writer called back before it wrote.
  obtain ⟨pre₁, mid, rfl⟩ := append_of_mem hx
  have hwriter := hguarded pre₁ x (mid ++ ev :: post) (by simp [hlog])
  have hcalled := hwriter.called ((of_anyone x).2.2.trans hwrites)
  rw [(stateOf_flags key pre₁ x.tid).1, any_eq_true] at hcalled
  obtain ⟨y, hy, hy'⟩ := hcalled
  simp only [Bool.and_eq_true, decide_eq_true_eq] at hy'
  -- The elected caller is another one, and has called back before it returned.
  have hfresh := (hguarded _ ev post hlog).fresh ((of_anyone ev).2.1.trans helects)
  rw [(stateOf_flags key _ ev.tid).2.2, any_eq_false] at hfresh
  have hother : x.tid ≠ ev.tid := by
    intro he
    exact hfresh x (by simp) (by simp [he, hwrites])
  have hmem : ev ∈ (remembered key one acts).log := by
    rw [hlog]
    simp
  have hthread := getElem?_eq_getElem (htids ev hmem)
  obtain ⟨r, hr⟩ := hall _ (getElem_mem (htids ev hmem))
  have hends : Caller.Ends r ((callerMonitor key).stateOf (remembered key one acts).log ev.tid) :=
    returned_ends (hthread.trans (by rw [← hr]))
  have hwon := hends.2 (by
    rw [(stateOf_flags key _ ev.tid).2.1, any_eq_true]
    exact ⟨ev, hmem, by simp [helects]⟩)
  rw [(stateOf_flags key _ ev.tid).1, any_eq_true] at hwon
  obtain ⟨z, hz, hz'⟩ := hwon
  simp only [Bool.and_eq_true, decide_eq_true_eq] at hz'
  have hyz := eq_of_computed_once honce (by rw [hlog]; simp [hy]) hz hy'.2 hz'.2
  apply hother
  rw [← hy'.1, ← hz'.1, hyz]

/-- Of callers that have all returned and not polled in vain, the callback has run once exactly if
none was elected after the value had been written. -/
theorem remember_once_iff (key : Bytes) (one : V) (acts : List (Act V Unit))
    (hsome : ((rememberSystem key one).run (Pool.start ∅) acts).threads ≠ [])
    (hall : ∀ t ∈ ((rememberSystem key one).run (Pool.start ∅) acts).threads,
      ∃ r, t.rest = some (.ret r))
    (hpolls : ∀ ev ∈ ((rememberSystem key one).run (Pool.start ∅) acts).log, exhausts ev = false) :
    (∃ v, ((rememberSystem key one).run (Pool.start ∅) acts).log.filterMap computed = [v] ∧
      ∀ t ∈ ((rememberSystem key one).run (Pool.start ∅) acts).threads, t.rest = some (.ret (.ok v))) ↔
    ElectsBeforeWrite ((rememberSystem key one).run (Pool.start ∅) acts).log := by
  constructor
  · rintro ⟨v, honce, -⟩
    exact electsBeforeWrite_of_once hall honce
  · intro hbefore
    obtain ⟨stage, hstage⟩ := populating_run key one acts hbefore hpolls
    -- Every caller has returned the value of the stage.
    have hvalue : ∀ t ∈ (remembered key one acts).threads,
        ∃ v, stage.value = some v ∧ t.rest = some (.ret (.ok v)) := by
      intro t ht
      obtain ⟨i, hi⟩ := mem_iff_getElem?.mp ht
      obtain ⟨r, hr⟩ := hall t ht
      have hallows := hstage.phases i
      rcases (returned_ends (hi.trans (by rw [← hr]))).1 with ⟨v, rfl, hphase⟩ | hphase
      · rw [phaseOf, hphase] at hallows
        exact ⟨v, hallows, hr⟩
      · rw [phaseOf, hphase] at hallows
        exact hallows.elim
    obtain ⟨t, ht⟩ := exists_mem_of_ne_nil _ hsome
    obtain ⟨v, hv, -⟩ := hvalue t ht
    refine ⟨v, ?_, ?_⟩
    · rw [hstage.ran]
      cases stage with
      | written i v' | done v' =>
        obtain rfl : v' = v := Option.some.inj hv
        rfl
      | _ => cases hv
    · intro t' ht'
      obtain ⟨v', hv', hrest⟩ := hvalue t' ht'
      obtain rfl : v = v' := Option.some.inj (hv.symm.trans hv')
      exact hrest

/-- The caller that is not elected polls until the value is written. -/
def sharedMiss : List (Act Nat Unit) :=
  [.spawn (), .spawn (), .run 0 0, .run 1 0, .run 0 0, .run 1 0, .run 1 0, .run 1 0, .run 1 0,
    .run 0 7, .run 0 0, .run 0 0, .run 1 0, .run 1 0]

theorem remember_once_sharedMiss :
    ElectsBeforeWrite ((rememberSystem [1] 1).run (Pool.start ∅) sharedMiss).log := by
  have hthreads : ((rememberSystem [1] 1).run (Pool.start ∅) sharedMiss).threads =
      [⟨(), some (.ret (.ok 7))⟩, ⟨(), some (.ret (.ok 7))⟩] := rfl
  have hlog : ((rememberSystem [1] 1).run (Pool.start ∅) sharedMiss).log.filterMap computed = [7] := rfl
  refine (remember_once_iff [1] 1 sharedMiss ?_ ?_ ?_).mp ⟨7, hlog, ?_⟩
  · simp [hthreads]
  · simp [hthreads]
  · decide +kernel
  · simp [hthreads]

/-- The second caller is held up until the first has dropped the lock, and is then elected as well.
-/
theorem held_up_caller_runs_callback :
    let p := (rememberSystem [1] 1).run (Pool.start ∅)
      [.spawn (), .spawn (), .run 0 0, .run 1 0, .run 0 0, .run 0 7, .run 0 0, .run 0 0,
        .run 1 0, .run 1 8, .run 1 0, .run 1 0]
    p.log.filterMap computed = [7, 8] ∧ p.log.any exhausts = false ∧
      p.threads = [⟨(), some (.ret (.ok 7))⟩, ⟨(), some (.ret (.ok 8))⟩] :=
  ⟨rfl, rfl, rfl⟩

end Runs

end Cache
