import Velocity.Lib.Pool
import Velocity.Lib.SortedSet
import Velocity.Queue.Types

/-! The delayed jobs of one queue of the Redis driver: `PushDelayedCtx`, and the loop with
which every `PopCtx` moves the ready ones to the main list. Each Redis command is atomic; the
readiness check of the loop and its pop are two commands. -/

namespace Velocity.Queue

open Interleave List SortedSet Prog Pool

/-- `serialize` is everything from `SerializeJob` to `MarshalSigned`. -/
inductive RedisOp
  | ctxErr
  | now
  | serialize (job : Job) (queueName : String)
  | zadd (member : String) (score : Int)
  | zrange
  | zpopmin
  | rpush (member : String)
  | blpop
  deriving DecidableEq, Repr

@[reducible] def RedisOp.Res : RedisOp → Type
  | .ctxErr => Option CtxErr
  | .now => Time
  | .serialize .. => Except Err String
  | .zadd .. => Except Err Bool
  | .zrange => Except Err (Option (String × Int))
  | .zpopmin => Except Err (Option (String × Int))
  | .rpush _ => Except Err Unit
  | .blpop => Except Err (Option String)

/-- A command that answers an error may still have been executed. -/
structure RedisFault where
  err : Err
  landed : Bool
  deriving DecidableEq, Repr

structure RedisEnv where
  now : Time := 0
  ctx : Option CtxErr := none
  payload : Except Err String := .ok ""
  fault : Option RedisFault := none

structure RedisQueue where
  delayed : SortedSet String := ∅
  main : List String := []

namespace RedisQueue

def command {α : Type} (q : RedisQueue) (fault : Option RedisFault) (out : α × RedisQueue) :
    Except Err α × RedisQueue :=
  match fault with
  | none => (.ok out.1, out.2)
  | some f => (.error f.err, if f.landed then out.2 else q)

-- `ZADD` answers whether the member is new; one that is not gets the new score.
def exec (q : RedisQueue) (env : RedisEnv) : (o : RedisOp) → o.Res × RedisQueue
  | .ctxErr => (env.ctx, q)
  | .now => (env.now, q)
  | .serialize _ _ => (env.payload, q)
  | .zadd member score =>
    q.command env.fault
      ((q.delayed.lookup member).isNone, { q with delayed := q.delayed.insert member score })
  | .zrange => q.command env.fault (SortedSet.first q.delayed, q)
  | .zpopmin =>
    q.command env.fault
      ((SortedSet.popMin q.delayed).1, { q with delayed := (SortedSet.popMin q.delayed).2 })
  | .rpush member => q.command env.fault ((), { q with main := q.main ++ [member] })
  | .blpop => q.command env.fault (q.main.head?, { q with main := q.main.tail })

end RedisQueue

abbrev RedisProg := Prog RedisOp.Res

namespace RedisDriver

def op (o : RedisOp) : RedisProg o.Res := .perform o

/-- `Time.Unix`. -/
def unix (t : Time) : Int := t / 1000000000

def pushDelayedCtx (job : Option Job) (delay : Duration) (queueName : Option String) :
    RedisProg (Option Err) := do
  let ended ← op .ctxErr
  match ended with
  | some e => pure (some e.toErr)
  | none =>
    match admitJob job queueName with
    | .error e => pure (some e)
    | .ok (job, name) =>
      let data ← op (.serialize job name)
      match data with
      | .error e => pure (some e)
      | .ok data =>
        let now ← op .now
        let added ← op (.zadd data (unix (now + delay)))
        match added with
        | .error e => pure (some e)
        | .ok _ => pure none

/-- What follows a pop: the entry goes to the main list, or back. -/
def deliver (member : String) (score : Int) (next : RedisProg (Option Err)) :
    RedisProg (Option Err) := do
  let pushed ← op (.rpush member)
  match pushed with
  | .ok _ => next
  | .error rpushErr =>
    let restored ← op (.zadd member score)
    match restored with
    | .ok _ => pure (some rpushErr)
    | .error zaddErr => pure (some (.join rpushErr zaddErr))

/-- The loop of `moveDelayedJobs`, for at most `rounds` rounds. -/
def moveReady (now : Int) : Nat → RedisProg (Option Err)
  | 0 => pure none
  | rounds + 1 => do
    let ended ← op .ctxErr
    match ended with
    | some e => pure (some e.toErr)
    | none =>
      let minScore ← op .zrange
      match minScore with
      | .ok (some (_, score)) =>
        if now < score then pure none
        else do
          let result ← op .zpopmin
          match result with
          | .ok (some (member, score)) => deliver member score (moveReady now rounds)
          | _ => pure none
      | _ => pure none

def moveDelayedJobs (rounds : Nat) : RedisProg (Option Err) := do
  let ended ← op .ctxErr
  match ended with
  | some e => pure (some e.toErr)
  | none =>
    let now ← op .now
    moveReady (unix now) rounds

/-- `PopCtx` up to the raw payload. -/
def popCtx (rounds : Nat) : RedisProg (Except Err (Option String)) := do
  let ended ← op .ctxErr
  match ended with
  | some e => pure (.error e.toErr)
  | none =>
    let moved ← moveDelayedJobs rounds
    match moved with
    | some e => pure (.error e)
    | none => op .blpop

end RedisDriver

inductive RedisCall
  | pushDelayed (job : Option Job) (delay : Duration) (queueName : Option String)
  | moveDelayedJobs (rounds : Nat)
  | popCtx (rounds : Nat)
  deriving DecidableEq, Repr

def RedisCall.body : RedisCall → RedisProg Unit
  | .pushDelayed job delay queueName => do
    let _ ← RedisDriver.pushDelayedCtx job delay queueName
    pure ()
  | .moveDelayedJobs rounds => do
    let _ ← RedisDriver.moveDelayedJobs rounds
    pure ()
  | .popCtx rounds => do
    let _ ← RedisDriver.popCtx rounds
    pure ()

def redisSystem : System RedisOp.Res RedisQueue RedisEnv RedisCall Unit where
  body := RedisCall.body
  exec := RedisQueue.exec

namespace RedisOp

def failed : (o : RedisOp) → o.Res → Bool
  | .zadd .., .error _ => true
  | .zrange, .error _ => true
  | .zpopmin, .error _ => true
  | .rpush _, .error _ => true
  | .blpop, .error _ => true
  | _, _ => false

def merges : (o : RedisOp) → o.Res → Bool
  | .zadd .., .ok false => true
  | _, _ => false

def adds (member : String) : (o : RedisOp) → o.Res → Bool
  | .zadd member' _, .ok _ => member' = member
  | _, _ => false

def pops (member : String) : (o : RedisOp) → o.Res → Bool
  | .zpopmin, .ok (some e) => e.1 = member
  | _, _ => false

def delivers (member : String) : (o : RedisOp) → o.Res → Bool
  | .rpush member', .ok _ => member' = member
  | _, _ => false

/-- A pop, or a `ZADD` not known to be of a new member, may take the minimum another has seen. -/
def disturbs : (o : RedisOp) → o.Res → Bool
  | .zpopmin, _ => true
  | .zadd .., .ok true => false
  | .zadd .., _ => true
  | _, _ => false

end RedisOp

/-- Back through the events, the last `ZRANGE` of thread `i` comes before any that disturbs it. -/
def undisturbed (i : Nat) : Log RedisOp.Res → Bool
  | [] => false
  | ev :: before =>
    if ev.tid = i && ev.op = .zrange then true
    else !ev.op.disturbs ev.res && undisturbed i before

/-- What thread `i` saw with its last `ZRANGE` still stands. -/
def checkStands (i : Nat) (log : Log RedisOp.Res) : Bool := undisturbed i log.reverse

theorem checkStands_concat (log : Log RedisOp.Res) (i : Nat) (o : RedisOp) (r : o.Res)
    (j : Nat) : checkStands j (log ++ [⟨i, o, r⟩]) =
      if i = j && o = .zrange then true else !o.disturbs r && checkStands j log := by
  unfold checkStands
  rw [reverse_append, reverse_singleton, singleton_append, undisturbed]

def PopsChecked (log : Log RedisOp.Res) : Prop :=
  EachAfter (fun pre ev => ev.op = .zpopmin → checkStands ev.tid pre = true) log

instance (log : Log RedisOp.Res) : Decidable (PopsChecked log) :=
  inferInstanceAs (Decidable (EachAfter _ _))

structure Mover where
  now : Option Int := none
  seen : Option Int := none
  hand : Option (String × Int) := none
  failed : Bool := false

variable {member : String} {score : Int}

namespace Mover

def next (m : Mover) (o : RedisOp) (r : o.Res) : Mover where
  now := match o, r with
    | .now, t => some (RedisDriver.unix t)
    | _, _ => m.now
  seen := match o, r with
    | .zrange, .ok e => e.map Prod.snd
    | .zrange, _ => none
    | _, _ => m.seen
  hand := match o, r with
    | .zpopmin, .ok e => e
    | .rpush _, .ok _ => none
    | _, _ => m.hand
  failed := m.failed || o.failed r

def Guard (m : Mover) : RedisOp → Prop
  | .now => m.hand = none
  | .zpopmin => m.hand = none ∧ ∃ now score, m.now = some now ∧ m.seen = some score ∧ score ≤ now
  | .rpush member => ∃ score, m.hand = some (member, score)
  | _ => True

def monitor : Monitor RedisOp.Res where
  State := Mover
  init := {}
  allowed _ _ := True
  guard m o _ := m.Guard o
  next := next

variable {m : Mover} {α : Type} {now : Int}

theorem wp_op {o : RedisOp} {f : o.Res → RedisProg α} {Q : α → Mover → Prop}
    (hg : m.Guard o) (hf : ∀ r, (f r).wp monitor (m.next o r) Q) :
    (RedisDriver.op o >>= f).wp monitor m Q :=
  fun r _ => ⟨hg, hf r⟩

def Empty (m : Mover) : Prop := m.hand = none ∨ m.failed = true

theorem wp_pushDelayedCtx {job : Option Job} {delay : Duration} {queueName : Option String}
    (hm : m.hand = none) :
    (RedisDriver.pushDelayedCtx job delay queueName).wp monitor m fun _ m' => m'.Empty := by
  refine wp_op trivial fun ended => ?_
  cases ended with
  | some e => exact .inl hm
  | none =>
    cases admitJob job queueName with
    | error e => exact .inl hm
    | ok admitted =>
      refine wp_op trivial fun data => ?_
      cases data with
      | error e => exact .inl hm
      | ok data =>
        refine wp_op hm fun now => wp_op trivial fun added => ?_
        cases added with
        | error e => exact .inl hm
        | ok _ => exact .inl hm

theorem wp_deliver {next : RedisProg (Option Err)}
    (hnow : m.now = some now) (hm : m.hand = some (member, score))
    (hnext : ∀ m' : Mover, m'.now = some now → m'.hand = none →
      next.wp monitor m' fun _ m'' => m''.Empty) :
    (RedisDriver.deliver member score next).wp monitor m fun _ m' => m'.Empty := by
  refine wp_op ⟨score, hm⟩ fun pushed => ?_
  cases pushed with
  | ok _ => exact hnext _ hnow rfl
  | error rpushErr =>
    refine wp_op trivial fun restored => ?_
    have hfailed : ∀ r, ((m.next (.rpush member) (.error rpushErr)).next
        (.zadd member score) r).failed = true := by
      simp [Mover.next, RedisOp.failed]
    cases restored with
    | ok _ | error zaddErr => exact .inr (hfailed _)

theorem wp_moveReady (rounds : Nat) (hnow : m.now = some now) (hm : m.hand = none) :
    (RedisDriver.moveReady now rounds).wp monitor m fun _ m' => m'.Empty := by
  induction rounds generalizing m with
  | zero => exact .inl hm
  | succ rounds ih =>
    refine wp_op trivial fun ended => ?_
    cases ended with
    | some e => exact .inl hm
    | none =>
      refine wp_op trivial fun minScore => ?_
      rcases minScore with e | _ | ⟨member, score⟩
      · exact .inl hm
      · exact .inl hm
      · dsimp only
        by_cases hready : now < score
        · rw [if_pos hready]
          exact .inl hm
        · rw [if_neg hready]
          have hle : score ≤ now := by omega
          refine wp_op ⟨hm, now, score, hnow, rfl, hle⟩ fun result => ?_
          rcases result with e | _ | ⟨-, -⟩
          · exact .inl hm
          · exact .inl rfl
          · exact wp_deliver hnow rfl fun m' => ih

theorem wp_moveDelayedJobs (rounds : Nat) (hm : m.hand = none) :
    (RedisDriver.moveDelayedJobs rounds).wp monitor m fun _ m' => m'.Empty := by
  refine wp_op trivial fun ended => ?_
  cases ended with
  | some e => exact .inl hm
  | none => exact wp_op hm fun now => wp_moveReady rounds rfl hm

theorem wp_popCtx (rounds : Nat) (hm : m.hand = none) :
    (RedisDriver.popCtx rounds).wp monitor m fun _ m' => m'.Empty := by
  refine wp_op trivial fun ended => ?_
  cases ended with
  | some e => exact .inl hm
  | none =>
    refine wp_bind_of (wp_moveDelayedJobs rounds hm) fun moved m' hempty => ?_
    cases moved with
    | some e => exact hempty
    | none =>
      intro r _
      refine ⟨trivial, ?_⟩
      rcases hempty with hhand | hfailed
      · exact .inl hhand
      · exact .inr (by simp [monitor, next, hfailed])

theorem wp_body (c : RedisCall) : c.body.wp monitor {} fun _ (m' : Mover) => m'.Empty := by
  cases c with
  | pushDelayed job delay queueName =>
    exact wp_bind_of (wp_pushDelayedCtx rfl) fun _ _ h => h
  | moveDelayedJobs rounds => exact wp_bind_of (wp_moveDelayedJobs rounds rfl) fun _ _ h => h
  | popCtx rounds => exact wp_bind_of (wp_popCtx rounds rfl) fun _ _ h => h

end Mover

def moverOf (log : Log RedisOp.Res) (i : Nat) : Mover := Mover.monitor.stateOf log i

theorem moverOf_concat (log : Log RedisOp.Res) (i : Nat) (o : RedisOp) (r : o.Res)
    (j : Nat) : moverOf (log ++ [⟨i, o, r⟩]) j =
      if i = j then (moverOf log j).next o r else moverOf log j :=
  Mover.monitor.stateOf_concat log ⟨i, o, r⟩ j

namespace RedisQueue

variable {q : RedisQueue} {env : RedisEnv}

theorem command_ok {α : Type} {fault : Option RedisFault} {out : α × RedisQueue} {a : α}
    (h : (q.command fault out).1 = .ok a) : a = out.1 ∧ (q.command fault out).2 = out.2 := by
  cases fault with
  | none => exact ⟨(Except.ok.inj h).symm, rfl⟩
  | some f => cases h

theorem exec_delayed {o : RedisOp} (hadd : ∀ member score, o ≠ .zadd member score)
    (hpop : o ≠ .zpopmin) : (q.exec env o).2.delayed = q.delayed := by
  have hlanded : ∀ {α : Type} (a : α) (q' : RedisQueue), q'.delayed = q.delayed →
      (q.command env.fault (a, q')).2.delayed = q.delayed := by
    intro α a q' h
    cases hf : env.fault with
    | none => exact h
    | some f =>
      by_cases hl : f.landed = true
      · simpa [command, hl] using h
      · simp [command, hl]
  cases o with
  | zadd member score => exact absurd rfl (hadd member score)
  | zpopmin => exact absurd rfl hpop
  | zrange | rpush member | blpop => exact hlanded _ _ rfl
  | _ => rfl

theorem exec_zadd {new : Bool}
    (h : (q.exec env (.zadd member score)).1 = .ok new) : new = (q.delayed.lookup member).isNone ∧
      (q.exec env (.zadd member score)).2.delayed = q.delayed.insert member score := by
  obtain ⟨hnew, hq⟩ := command_ok h
  exact ⟨hnew, congrArg delayed hq⟩

theorem exec_zpopmin {e : Option (String × Int)} (h : (q.exec env .zpopmin).1 = .ok e) :
    e = first q.delayed ∧
      (q.exec env .zpopmin).2.delayed = e.elim q.delayed fun x => q.delayed.erase x.1 := by
  obtain ⟨he, hq⟩ := command_ok h
  have hdelayed : (q.exec env .zpopmin).2.delayed = (popMin q.delayed).2 :=
    congrArg delayed hq
  rw [hdelayed, he]
  unfold popMin
  cases first q.delayed with
  | none => exact ⟨rfl, rfl⟩
  | some x => exact ⟨rfl, rfl⟩

end RedisQueue

/-- A thread appends the entry it popped, whose score its clock reading has reached. -/
def DeliversReady (pre : Log RedisOp.Res) (ev : Event RedisOp.Res) : Prop :=
  ∀ member, ev.op = .rpush member → ∃ score now, (moverOf pre ev.tid).hand = some (member, score) ∧
    (moverOf pre ev.tid).now = some now ∧ score ≤ now

structure MoversInv (q : RedisQueue) (log : Log RedisOp.Res) : Prop where
  seen : ∀ i score, checkStands i log = true → (moverOf log i).seen = some score →
    ∃ member score', q.delayed.lookup member = some score' ∧ score' ≤ score
  ready : PopsChecked log → ∀ i e, (moverOf log i).hand = some e →
    ∃ now, (moverOf log i).now = some now ∧ e.2 ≤ now
  delivered : PopsChecked log → EachAfter DeliversReady log

namespace MoversInv

variable {q : RedisQueue} {log : Log RedisOp.Res} {i : Nat} {env : RedisEnv} {o : RedisOp}

theorem start (q : RedisQueue) : MoversInv q [] where
  seen _ _ h := by cases h
  ready _ i e h := by cases h
  delivered _ := eachAfter_nil _

open RedisQueue

theorem lookup_of_quiet {r : o.Res} (hr : (q.exec env o).1 = r) (hquiet : o.disturbs r = false)
    (h : q.delayed.lookup member = some score) :
    (q.exec env o).2.delayed.lookup member = some score := by
  cases o with
  | zpopmin => cases hquiet
  | zadd member' score' =>
    rcases r with e | _ | _
    · cases hquiet
    · cases hquiet
    · obtain ⟨hnew, hdelayed⟩ := exec_zadd hr
      have hne : member ≠ member' := by
        intro he
        rw [← he, h] at hnew
        cases hnew
      rw [hdelayed, AList.lookup_insert_ne hne, h]
  | _ => rw [exec_delayed (by simp) (by simp), h]

theorem seen_step (h : MoversInv q log) {j : Nat}
    (hu : checkStands j (log ++ [⟨i, o, (q.exec env o).1⟩]) = true)
    (hseen : (moverOf (log ++ [⟨i, o, (q.exec env o).1⟩]) j).seen = some score) :
    ∃ member score', (q.exec env o).2.delayed.lookup member = some score' ∧ score' ≤ score := by
  rw [checkStands_concat] at hu
  rw [moverOf_concat] at hseen
  by_cases hz : i = j ∧ o = .zrange
  · obtain ⟨rfl, rfl⟩ := hz
    rw [if_pos rfl] at hseen
    cases hans : (q.exec env .zrange).1 with
    | error e => rw [hans] at hseen; cases hseen
    | ok e =>
      rw [hans] at hseen
      obtain ⟨x, hx, hscore⟩ := Option.map_eq_some_iff.mp hseen
      have hmem := first_mem ((command_ok hans).1.symm.trans hx)
      exact ⟨x.1, x.2, lookup_of_quiet rfl rfl hmem, hscore.le⟩
  · have hquiet : o.disturbs (q.exec env o).1 = false ∧ checkStands j log = true := by
      simpa [hz] using hu
    have hold : (moverOf log j).seen = some score := by
      split at hseen
      case isTrue hij =>
        cases o with
        | zrange => exact absurd ⟨hij, rfl⟩ hz
        | _ => exact hseen
      case isFalse => exact hseen
    obtain ⟨member, score', hlookup, hle⟩ := h.seen j score hquiet.2 hold
    exact ⟨member, score', lookup_of_quiet rfl hquiet.1 hlookup, hle⟩

theorem ready_step (h : MoversInv q log) (hg : (moverOf log i).Guard o)
    (hcond : PopsChecked (log ++ [⟨i, o, (q.exec env o).1⟩])) {e : String × Int}
    (hhand : ((moverOf log i).next o (q.exec env o).1).hand = some e) :
    ∃ now, ((moverOf log i).next o (q.exec env o).1).now = some now ∧ e.2 ≤ now := by
  obtain ⟨hbefore, hpop⟩ := eachAfter_concat.mp hcond
  cases o with
  | now => cases hg.symm.trans hhand
  | zpopmin =>
    obtain ⟨-, now, score, hnow, hseen, hle⟩ := hg
    cases hans : (q.exec env .zpopmin).1 with
    | error e' =>
      rw [hans] at hhand
      exact h.ready hbefore i e hhand
    | ok popped =>
      rw [hans] at hhand
      obtain ⟨member, score', hlookup, hle'⟩ := h.seen i score (hpop rfl) hseen
      obtain ⟨a, ha, hale⟩ := first_le hlookup
      have hpopped : popped = some e := hhand
      have he := (exec_zpopmin hans).1
      rw [hpopped, ha] at he
      cases he
      exact ⟨now, hnow, by omega⟩
  | rpush member =>
    cases hans : (q.exec env (.rpush member)).1 with
    | error e' =>
      rw [hans] at hhand
      exact h.ready hbefore i e hhand
    | ok _ => rw [hans] at hhand; cases hhand
  | _ => exact h.ready hbefore i e hhand

theorem step (h : MoversInv q log) (hg : (moverOf log i).Guard o) :
    MoversInv (q.exec env o).2 (log ++ [⟨i, o, (q.exec env o).1⟩]) where
  seen j score hu hseen := h.seen_step hu hseen
  ready hcond j e hhand := by
    rw [moverOf_concat] at hhand ⊢
    by_cases hij : i = j
    · subst hij
      simp only [if_true] at hhand ⊢
      exact h.ready_step hg hcond hhand
    · simp only [hij, if_false] at hhand ⊢
      exact h.ready (eachAfter_concat.mp hcond).1 j e hhand
  delivered hcond := by
    have hbefore := (eachAfter_concat.mp hcond).1
    refine eachAfter_concat.mpr ⟨h.delivered hbefore, ?_⟩
    intro member ho
    subst ho
    obtain ⟨score, hhand⟩ := hg
    obtain ⟨now, hnow, hle⟩ := h.ready hbefore i _ hhand
    exact ⟨score, now, hhand, hnow, hle⟩

end MoversInv

def RedisQueue.holds (q : RedisQueue) (member : String) : Nat :=
  if (q.delayed.lookup member).isSome then 1 else 0

/-- The entry that thread `i` has popped and not delivered, if it is `member`. -/
def held (log : Log RedisOp.Res) (i : Nat) (member : String) : Nat :=
  if (moverOf log i).hand.map Prod.fst = some member then 1 else 0

variable {o : RedisOp}

attribute [local simp] RedisOp.pops

theorem holds_step {q : RedisQueue} {env : RedisEnv}
    (hok : o.failed (q.exec env o).1 = false) (hnew : o.merges (q.exec env o).1 = false)
    (member : String) : q.holds member + (if o.adds member (q.exec env o).1 = true then 1 else 0) =
      (q.exec env o).2.holds member + if o.pops member (q.exec env o).1 = true then 1 else 0 := by
  cases o with
  | zadd member' score =>
    generalize hans : (q.exec env (.zadd member' score)).1 = r at hok hnew ⊢
    rcases r with e | _ | _
    · cases hok
    · cases hnew
    · obtain ⟨hnew', hdelayed⟩ := RedisQueue.exec_zadd hans
      have hfresh : q.delayed.lookup member' = none := by simpa using hnew'.symm
      unfold RedisQueue.holds
      rw [hdelayed]
      by_cases hm : member = member'
      · subst hm
        simp [RedisOp.adds, hfresh]
      · have hm' : ¬member' = member := fun he => hm he.symm
        simp [RedisOp.adds, hm, hm']
  | zpopmin =>
    cases hans : (q.exec env .zpopmin).1 with
    | error e => rw [hans] at hok; cases hok
    | ok popped =>
      obtain ⟨hfirst, hdelayed⟩ := RedisQueue.exec_zpopmin hans
      unfold RedisQueue.holds
      rw [hdelayed]
      cases popped with
      | none => rfl
      | some x =>
        have hmem := first_mem hfirst.symm
        by_cases hm : member = x.1
        · subst hm
          simp [RedisOp.adds, hmem]
        · have hm' : ¬x.1 = member := fun he => hm he.symm
          simp [RedisOp.adds, hm, hm']
  | _ =>
    unfold RedisQueue.holds
    rw [RedisQueue.exec_delayed (by simp) (by simp)]
    rfl

theorem held_step {log : Log RedisOp.Res} {i : Nat}
    {r : o.Res} (hg : (moverOf log i).Guard o) (member : String) :
    held log i member + (if o.pops member r = true then 1 else 0) =
      held (log ++ [⟨i, o, r⟩]) i member + if o.delivers member r = true then 1 else 0 := by
  unfold held
  rw [moverOf_concat, if_pos rfl]
  cases o with
  | zpopmin =>
    have hnone : (moverOf log i).hand = none := hg.1
    rcases r with e | _ | x
    · rfl
    · simp [Mover.next, RedisOp.delivers, hnone]
    · simp [Mover.next, RedisOp.delivers, hnone]
  | rpush member' =>
    obtain ⟨score, hhand⟩ := hg
    cases r with
    | error e => rfl
    | ok _ => simp [Mover.next, RedisOp.delivers, hhand]
  | _ => rfl

structure EntriesKept (q₀ q : RedisQueue) (log : Log RedisOp.Res) : Prop where
  added : (∀ ev ∈ log, ev.op.failed ev.res = false ∧ ev.op.merges ev.res = false) →
    ∀ member, q₀.holds member + log.countP (fun ev => ev.op.adds member ev.res) =
      q.holds member + log.countP fun ev => ev.op.pops member ev.res
  popped : ∀ i member, log.countP (fun ev => ev.tid = i && ev.op.pops member ev.res) =
    log.countP (fun ev => ev.tid = i && ev.op.delivers member ev.res) + held log i member

theorem EntriesKept.step {q₀ q : RedisQueue} {log : Log RedisOp.Res} {i : Nat}
    {env : RedisEnv} (h : EntriesKept q₀ q log) (hg : (moverOf log i).Guard o) :
    EntriesKept q₀ (q.exec env o).2 (log ++ [⟨i, o, (q.exec env o).1⟩]) := by
  constructor
  case added =>
    intro hall member
    have hbefore := h.added (fun ev hev => hall ev (mem_append_left _ hev)) member
    obtain ⟨hok, hnew⟩ := hall ⟨i, o, (q.exec env o).1⟩ (by simp)
    have hstep := holds_step (o := o) hok hnew member
    rw [countP_append, countP_append, countP_singleton, countP_singleton]
    dsimp only
    omega
  case popped =>
    intro j member
    have hbefore := h.popped j member
    rw [countP_append, countP_append, countP_singleton, countP_singleton]
    by_cases hij : i = j
    · subst hij
      have hstep := held_step (r := (q.exec env o).1) hg member
      simp only [decide_true, Bool.true_and]
      omega
    · have hsame : held (log ++ [⟨i, _, (q.exec env o).1⟩]) j member = held log j member := by
        unfold held
        rw [moverOf_concat, if_neg hij]
      simp only [hij, decide_false, Bool.false_and, Bool.false_eq_true, if_false, hsame]
      omega

theorem movers_run (q₀ : RedisQueue) (acts : List (Act RedisEnv RedisCall)) :
    let p := redisSystem.run (start q₀) acts
    MoversInv p.world p.log ∧ EntriesKept q₀ p.world p.log := by
  have hbody : ∀ c, (redisSystem.body c).wp Mover.monitor Mover.monitor.init fun _ _ => True :=
    fun c => wp_mono (Mover.wp_body c) fun _ _ _ => trivial
  have hkept : EntriesKept q₀ q₀ [] := ⟨fun _ _ => rfl, fun _ _ => rfl⟩
  refine redisSystem.invariant Mover.monitor
    (I := fun q log => MoversInv q log ∧ EntriesKept q₀ q log) hbody
    ⟨MoversInv.start q₀, hkept⟩ (fun _ _ _ _ _ => trivial) ?_ acts
  rintro q log i env o ⟨hmovers, hentries⟩ hg
  exact ⟨hmovers.step hg, hentries.step hg⟩

/-- If at each `ZPOPMIN` the mover's check still stands, what it appends is ready by its own clock.
If every command succeeds and every `ZADD` adds a new member, no entry is lost. -/
theorem delayed_delivery (q₀ : RedisQueue) (acts : List (Act RedisEnv RedisCall))
    (h : PopsChecked (redisSystem.run (Pool.start q₀) acts).log) :
    let p := redisSystem.run (start q₀) acts
    EachAfter DeliversReady p.log ∧
    ((∀ ev ∈ p.log, ev.op.failed ev.res = false ∧ ev.op.merges ev.res = false) → ∀ member,
      q₀.holds member + p.log.countP (fun ev => ev.op.adds member ev.res) =
        p.world.holds member + p.log.countP (fun ev => ev.op.pops member ev.res) ∧
      ∀ i, p.log.countP (fun ev => ev.tid = i && ev.op.pops member ev.res) =
          p.log.countP (fun ev => ev.tid = i && ev.op.delivers member ev.res) + held p.log i member ∧
        ∀ c a, p.threads[i]? = some ⟨c, some (.ret a)⟩ → held p.log i member = 0) := by
  intro p
  constructor
  · exact (movers_run q₀ acts).1.delivered h
  · intro hall member
    have hkept := (movers_run q₀ acts).2
    refine ⟨hkept.added hall member, fun i => ⟨hkept.popped i member, fun c a hret => ?_⟩⟩
    have hempty : (moverOf p.log i).Empty := redisSystem.returned Mover.monitor
      Mover.wp_body (fun _ _ _ => trivial) hret
    have hfailed := Mover.monitor.stateOf_any (f := Mover.failed) rfl
      (fun _ _ _ => rfl) p.log i
    have hhand : (moverOf p.log i).hand = none := by
      rcases hempty with hnone | hf
      · exact hnone
      · have hany : (p.log.any fun ev => ev.tid = i && ev.op.failed ev.res) = true :=
          hfailed.symm.trans hf
        obtain ⟨ev, hev, hh⟩ := any_eq_true.mp hany
        rw [(hall ev hev).1, Bool.and_false] at hh
        cases hh
    simp [held, hhand]

def pushAt0 (tid : Nat) (seconds : Duration) (payload : String) : List (Act RedisEnv RedisCall) :=
  .spawn (.pushDelayed (some { type := "T", data := some "{}" }) (seconds * 1000000000) none) ::
    List.replicate 4 (.run tid { payload := .ok payload })

def at50 (tid steps : Nat) : List (Act RedisEnv RedisCall) :=
  List.replicate steps (.run tid { now := 50000000000 })

/-- Two jobs, due at 10 s and at 100 s, and two movers that start at 50 s. -/
def twoMovers : List (Act RedisEnv RedisCall) :=
  pushAt0 0 10 "a" ++ pushAt0 1 100 "b" ++ [.spawn (.moveDelayedJobs 2), .spawn (.moveDelayedJobs 2)]

def serialMovers : List (Act RedisEnv RedisCall) := twoMovers ++ at50 2 8 ++ at50 3 4

theorem delayed_delivery_serialMovers :
    let p := redisSystem.run (start {}) serialMovers
    PopsChecked p.log ∧ p.world.main = ["a"] ∧ EachAfter DeliversReady p.log := by
  have h : PopsChecked (redisSystem.run (start {}) serialMovers).log := by decide
  exact ⟨h, by decide, (delayed_delivery {} serialMovers h).1⟩

def racingMovers : List (Act RedisEnv RedisCall) :=
  twoMovers ++ at50 2 4 ++ at50 3 4 ++ at50 2 2 ++ at50 3 2

/-- At 50 s, with every command succeeding, the second mover delivers the job due at 100 s. -/
theorem racingMovers_deliver_early :
    let p := redisSystem.run (start {}) racingMovers
    (∀ ev ∈ p.log, ev.op.failed ev.res = false ∧ ev.op.merges ev.res = false) ∧
      p.log.any (fun ev => ev.tid = 1 && ev.op = .zadd "b" 100) = true ∧
      p.log.any (fun ev => ev.tid = 3 && ev.op = .rpush "b") = true ∧
      (moverOf p.log 3).now = some 50 ∧ p.world.main = ["a", "b"] := by
  decide

end Velocity.Queue
