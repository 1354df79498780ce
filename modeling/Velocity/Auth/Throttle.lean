import Velocity.Cache.Store
import Velocity.Lib.Rely

/-! The login throttle: attempts counted in a cache store, one counter a key, each in a window that
ends `decay` after the count that opened it. -/

namespace Auth.Throttle

open Interleave List Prog System Option Cache

def orDefault (value default : Int) : Int := if value ≤ 0 then default else value

theorem orDefault_pos {default : Int} (h : 0 < default) (value : Int) :
    0 < orDefault value default := by
  unfold orDefault
  split <;> omega

/-- Times are nanoseconds. -/
def second : Int := 10 ^ 9

structure Throttler where
  maxAttempts : Int
  identifierMaxAttempts : Int
  ipMaxAttempts : Int
  decay : Int
  delayBase : Int
  delayMax : Int
  maxAttempts_pos : 0 < maxAttempts
  identifierMaxAttempts_pos : 0 < identifierMaxAttempts
  ipMaxAttempts_pos : 0 < ipMaxAttempts
  decay_pos : 0 < decay

def newCacheLoginThrottler (maxAttempts identifierMaxAttempts ipMaxAttempts decay : Int) :
    Throttler where
  maxAttempts := orDefault maxAttempts 5
  identifierMaxAttempts := orDefault identifierMaxAttempts 20
  ipMaxAttempts := orDefault ipMaxAttempts 50
  decay := orDefault decay (60 * second)
  delayBase := second
  delayMax := 30 * second
  maxAttempts_pos := orDefault_pos (by decide) _
  identifierMaxAttempts_pos := orDefault_pos (by decide) _
  ipMaxAttempts_pos := orDefault_pos (by decide) _
  decay_pos := orDefault_pos (by decide) _

variable (t : Throttler)

def Throttler.withDelay (base ceiling : Int) : Throttler :=
  { t with delayBase := max base 0, delayMax := max (orDefault ceiling (30 * second)) (max base 0) }

def Throttler.limitFor (key : Bytes) : Int :=
  if (Bytes.ascii "login:id:").isPrefixOf key then t.identifierMaxAttempts
  else if (Bytes.ascii "login:ip:").isPrefixOf key then t.ipMaxAttempts
  else t.maxAttempts

theorem Throttler.limitFor_pos (key : Bytes) : 0 < t.limitFor key := by
  unfold limitFor
  split
  · exact t.identifierMaxAttempts_pos
  · split
    · exact t.ipMaxAttempts_pos
    · exact t.maxAttempts_pos

/-- The shifted base wraps at 64 bits, which the ceiling catches. -/
def progressiveDelay (excess base ceiling : Int) : Int :=
  if excess < 1 ∨ base ≤ 0 then 0
  else
    let ceiling := orDefault ceiling (30 * second)
    if ceiling ≤ base ∨ 40 < excess - 1 then ceiling
    else
      let d := Int.bmod (base * 2 ^ (excess - 1).toNat) (2 ^ 64)
      if d ≤ 0 ∨ ceiling < d then ceiling else d

def Throttler.delayFor (excess : Int) : Int :=
  if t.delayBase ≤ 0 then 0 else progressiveDelay excess t.delayBase t.delayMax

def cacheKey (key : Bytes) : Bytes := Bytes.ascii "velocity:auth:login:" ++ key

def trialKey (key : Bytes) : Bytes := cacheKey key ++ Bytes.ascii ":trial"

/-! The store. -/

structure Counter where
  count : Int
  deadline : Option Int
deriving DecidableEq

structure Store where
  now : Int
  counters : FMap Bytes Counter

def Store.live (s : Store) (key : Bytes) : Option Counter :=
  (s.counters.lookup key).filter fun c => Cache.before s.now c.deadline

def Store.set (s : Store) (key : Bytes) (c : Counter) : Store :=
  { s with counters := s.counters.insert key c }

inductive Op
  | add (key : Bytes) (value ttl : Int)
  | increment (key : Bytes) (delta : Int)
  | put (key : Bytes) (value ttl : Int)
  | forget (key : Bytes)
  | pass (d : Nat)
deriving DecidableEq

abbrev Res : Op → Type
  | .add .. => Bool
  | .increment .. => Int
  | .put .. | .forget _ | .pass _ => Unit

def Store.exec (s : Store) (_ : Unit) : (o : Op) → Res o × Store
  | .add key value ttl =>
    match s.live key with
    | some _ => (false, s)
    | none => (true, s.set key ⟨value, Cache.expirationFor s.now ttl⟩)
  | .increment key delta =>
    match s.live key with
    | some c =>
      let n := Int.bmod (c.count + delta) (2 ^ 64)
      (n, s.set key ⟨n, c.deadline⟩)
    | none => (0 + delta, s.set key ⟨0 + delta, none⟩)
  | .put key value ttl => ((), s.set key ⟨value, Cache.expirationFor s.now ttl⟩)
  | .forget key => ((), { s with counters := s.counters.erase key })
  | .pass d => ((), { s with now := s.now + d })

abbrev Op.run (o : Op) : Prog Res (Res o) := Prog.perform o

def countAttempt (key : Bytes) : Prog Res Int := do
  let added ← (Op.add (cacheKey key) 1 t.decay).run
  if added then
    return 1
  else
    let count ← (Op.increment (cacheKey key) 1).run
    Prog.when (count = 1) (Op.put (cacheKey key) 1 t.decay).run
    return count

inductive Reply
  | reserved (within : Bool) (delay : Int)
  | done
deriving DecidableEq

def reserve (key : Bytes) : Prog Res Reply := do
  let count ← countAttempt t key
  if count ≤ t.limitFor key then
    return .reserved true 0
  else
    return .reserved false (t.delayFor (count - t.limitFor key))

def recordFailure (key : Bytes) : Prog Res Reply := do
  let _ ← countAttempt t key
  return .done

def recordSuccess (key : Bytes) : Prog Res Reply := do
  (Op.forget (cacheKey key)).run
  (Op.forget (trialKey key)).run
  return .done

inductive Call
  | reserve (key : Bytes)
  | recordFailure (key : Bytes)
  | recordSuccess (key : Bytes)
  | pass (d : Nat)
deriving DecidableEq

def system : System Res Store Unit Call Reply where
  body
    | .reserve key => reserve t key
    | .recordFailure key => recordFailure t key
    | .recordSuccess key => recordSuccess key
    | .pass d => do
      (Op.pass d).run
      return .done
  exec := Store.exec

abbrev Throttled := Pool Res Store Call Reply

abbrev Acts := List (Act Unit Call)

def reached (start : Int) (acts : Acts) : Throttled :=
  (system t).run (Pool.start ⟨start, ∅⟩) acts

def counted (key : Bytes) (ev : Event Res) : Option Int :=
  match ev with
  | ⟨_, .add k value _, true⟩ => if k = key then some value else none
  | ⟨_, .increment k _, n⟩ => if k = key then some n else none
  | _ => none

def rewrites (key : Bytes) (ev : Event Res) : Bool :=
  match ev.op with
  | .put k _ _ => k = key
  | _ => false

/-- An attempt is counted under the cache key, or its count written again. -/
def writes (key : Bytes) (ev : Event Res) : Bool := (counted key ev).isSome || rewrites key ev

def Throttled.since (p : Throttled) (n : Nat) : Log Res := p.log.drop n

def reportsWithin (p : Throttled) (key : Bytes) (i : Nat) : Bool :=
  match p.threads[i]? with
  | some ⟨.reserve k, some (.ret (.reserved true _))⟩ => k = key
  | _ => false

variable {key : Bytes} {i : Nat} {e : Unit} {o : Op}

theorem reportsWithin_iff {p : Throttled} : reportsWithin p key i = true ↔
      ∃ delay, p.threads[i]? = some ⟨.reserve key, some (.ret (.reserved true delay))⟩ := by
  constructor
  · intro h
    unfold reportsWithin at h
    split at h
    case h_1 k delay hth =>
      obtain rfl : k = key := by simpa using h
      exact ⟨delay, hth⟩
    case h_2 => cases h
  · rintro ⟨delay, h⟩
    simp [reportsWithin, h]

def hasReturned : Thread Res Call Reply → Bool
  | ⟨_, some (.ret _)⟩ => true
  | _ => false

def AllReturned (p : Throttled) : Prop := ∀ th ∈ p.threads, hasReturned th = true

instance (p : Throttled) : Decidable (AllReturned p) :=
  inferInstanceAs (Decidable (∀ th ∈ p.threads, _))

/-! What one call does: it counts once at most, and a count that opened a window without a deadline
is followed by the put that gives it one. -/

structure Watch where
  seen : List (Bytes × Int)
  owes : Option Bytes

def watch : Monitor Res where
  State := Watch
  init := ⟨[], none⟩
  allowed := fun _ _ => True
  guard := fun m o _ =>
    match o with
    | .add _ value ttl => value = 1 ∧ ttl = t.decay
    | .increment _ delta => delta = 1 ∧ m.owes = none
    | .put k value ttl => value = 1 ∧ ttl = t.decay ∧ m.owes = some k
    | _ => True
  next := fun m o r =>
    match o, r with
    | .add k value _, true => { m with seen := m.seen ++ [(k, value)] }
    | .increment k _, n => ⟨m.seen ++ [(k, n)], if n = 1 then some k else m.owes⟩
    | .put _ _ _, _ => { m with owes := none }
    | _, _ => m

def Settled (c : Call) (r : Reply) (m : Watch) : Prop :=
  m.owes = none ∧ ∀ key delay, c = .reserve key → r = .reserved true delay →
    ∃ n, m.seen = [(cacheKey key, n)] ∧ n ≤ t.limitFor key

theorem countAttempt_wp (key : Bytes) :
    (countAttempt t key).wp (watch t) (watch t).init fun n m => m = ⟨[(cacheKey key, n)], none⟩ := by
  intro added _
  refine ⟨⟨rfl, rfl⟩, ?_⟩
  cases added with
  | true => rfl
  | false =>
    intro count _
    refine ⟨⟨rfl, rfl⟩, ?_⟩
    show ((when (decide (count = 1)) _ : Prog Res Unit) >>= fun _ => pure count).wp _ _ _
    apply wp_bind_of (P := fun _ m => m = (⟨[(cacheKey key, count)], none⟩ : Watch))
    · apply wp_when
      · intro h _ _
        have hone : count = 1 := by simpa using h
        subst hone
        exact ⟨⟨rfl, rfl, rfl⟩, rfl⟩
      · intro h
        have hne : count ≠ 1 := by simpa using h
        show Watch.mk _ (if count = 1 then _ else none) = _
        rw [if_neg hne]
        rfl
    · intro _ m hm
      exact hm

theorem body_settled (c : Call) :
    ((system t).body c).wp (watch t) (watch t).init (Settled t c) := by
  cases c with
  | reserve key =>
    refine wp_bind_of (countAttempt_wp t key) ?_
    rintro n m rfl
    split
    case isTrue hn =>
      refine ⟨rfl, ?_⟩
      rintro _ _ ⟨rfl⟩ _
      exact ⟨n, rfl, hn⟩
    case isFalse =>
      refine ⟨rfl, ?_⟩
      intro _ _ _ h
      simp at h
  | recordFailure key =>
    refine wp_bind_of (countAttempt_wp t key) ?_
    rintro n m rfl
    exact ⟨rfl, nofun⟩
  | recordSuccess key =>
    intro _ _
    refine ⟨trivial, ?_⟩
    intro _ _
    exact ⟨trivial, rfl, nofun⟩
  | pass d =>
    intro _ _
    exact ⟨trivial, rfl, nofun⟩

variable {l : Log Res} {t} {ev : Event Res}

theorem seen_next (m : Watch) (ev : Event Res) : ∃ new,
    ((watch t).next m ev.op ev.res).seen = m.seen ++ new ∧
      ∀ key n, counted key ev = some n → (key, n) ∈ new := by
  obtain ⟨i, o, r⟩ := ev
  cases o with
  | add k value ttl =>
    cases r with
    | true => exact ⟨[(k, value)], rfl, by simp [counted, eq_comm]⟩
    | false => exact ⟨[], (append_nil _).symm, by simp [counted]⟩
  | increment k delta => exact ⟨[(k, r)], rfl, by simp [counted, eq_comm]⟩
  | _ => exact ⟨[], (append_nil _).symm, by simp [counted]⟩

theorem mem_seen_of_counted {n : Int} (hmem : ev ∈ l) (hn : counted key ev = some n) :
    (key, n) ∈ ((watch t).stateOf l ev.tid).seen := by
  induction l using reverseRecOn with
  | nil => simp at hmem
  | append_singleton l x ih =>
    rw [Monitor.stateOf_concat]
    obtain ⟨new, hseen, hnew⟩ := seen_next (t := t) ((watch t).stateOf l ev.tid) x
    rcases mem_concat.mp hmem with hmem | rfl
    · split
      · rw [hseen]
        exact mem_append_left _ (ih hmem)
      · exact ih hmem
    · rw [if_pos rfl, hseen]
      exact mem_append_right _ (hnew key n hn)

variable {c : Counter} {s : Store}

theorem Store.live_eq_some :
    s.live key = some c ↔ s.counters.lookup key = some c ∧ before s.now c.deadline = true := by
  rw [live, filter_eq_some_iff]

theorem Store.lookup_set (s : Store) (k key : Bytes) (c : Counter) :
    (s.set k c).counters.lookup key = if key = k then some c else s.counters.lookup key :=
  FMap.lookup_insert_ite _ _ _ _

theorem Store.live_set_of_ne (s : Store) {k key : Bytes} (h : key ≠ k) (c : Counter) :
    (s.set k c).live key = s.live key := by
  rw [live, lookup_set, if_neg h]
  rfl

theorem Store.live_set_self (s : Store) (k : Bytes)
    (h : before s.now c.deadline = true) : (s.set k c).live k = some c := by
  rw [live_eq_some, lookup_set, if_pos rfl]
  exact ⟨rfl, h⟩

def Kept (t : Throttler) (l : Log Res) (now : Int) (key : Bytes) (c : Counter) : Prop :=
  1 ≤ c.count ∧ c.count ≤ l.length ∧
    match c.deadline with
    | some d => d ≤ now + t.decay
    | none => ∃ i, ((watch t).stateOf l i).owes = some key

/-- Until the counts may wrap. -/
def Sound (t : Throttler) (s : Store) (l : Log Res) : Prop :=
  l.length < 2 ^ 63 → ∀ key c, s.counters.lookup key = some c → Kept t l s.now key c

theorem owes_concat (hguard : (watch t).guard ((watch t).stateOf l ev.tid) ev.op ev.res)
    (hput : rewrites key ev = false) (h : ∃ i, ((watch t).stateOf l i).owes = some key) :
    ∃ i, ((watch t).stateOf (l ++ [ev]) i).owes = some key := by
  obtain ⟨i, hi⟩ := h
  refine ⟨i, ?_⟩
  rw [Monitor.stateOf_concat]
  split
  case isFalse => exact hi
  case isTrue he =>
    obtain ⟨j, o, r⟩ := ev
    obtain rfl : j = i := he
    cases o with
    | add k value ttl =>
      cases r with
      | true => exact hi
      | false => exact hi
    | increment k delta =>
      have hnone : ((watch t).stateOf l j).owes = none := hguard.2
      rw [hnone] at hi
      cases hi
    | put k value ttl =>
      have hk : ((watch t).stateOf l j).owes = some k := hguard.2.2
      rw [hk] at hi
      obtain rfl : k = key := by simpa using hi
      simp [rewrites] at hput
    | forget k => exact hi
    | pass d => exact hi

theorem Kept.concat {now now' : Int} (h : Kept t l now key c)
    (hguard : (watch t).guard ((watch t).stateOf l ev.tid) ev.op ev.res)
    (hquiet : writes key ev = false) (hnow : now ≤ now') : Kept t (l ++ [ev]) now' key c := by
  obtain ⟨hpos, hle, hend⟩ := h
  refine ⟨hpos, by rw [length_append]; omega, ?_⟩
  cases hd : c.deadline with
  | some d =>
    rw [hd] at hend
    omega
  | none =>
    rw [hd] at hend
    exact owes_concat hguard (Bool.or_eq_false_iff.mp hquiet).2 hend

theorem expirationFor_decay (t : Throttler) (now : Int) :
    expirationFor now t.decay = some (now + t.decay) := by
  have hn : ¬t.decay ≤ 0 := by have := t.decay_pos; omega
  simp only [expirationFor, if_neg hn]

/-- The event writes the counter of the key `k`, which it leaves as `c`. -/
structure Written (t : Throttler) (s : Store) (l : Log Res) (ev : Event Res) (k : Bytes)
    (c : Counter) : Prop where
  writes : ∀ key, writes key ev = decide (k = key)
  rises : rewrites k ev = false →
    counted k ev = some c.count ∧ ∀ c₀, s.live k = some c₀ → c₀.count < c.count
  alive : Cache.before s.now c.deadline = true
  kept : Kept t (l ++ [ev]) s.now k c

open Store

section

variable (hs : Sound t s l) (hlen : l.length + 1 < 2 ^ 63)
  (hguard : (watch t).guard ((watch t).stateOf l i) o (s.exec e o).1)

include hs hlen hguard

theorem exec_cases :
    (∃ k c, (s.exec e o).2 = s.set k c ∧ Written t s l ⟨i, o, (s.exec e o).1⟩ k c) ∨
      (∀ key, writes key ⟨i, o, (s.exec e o).1⟩ = false) ∧ s.now ≤ (s.exec e o).2.now ∧
        ∀ key c, (s.exec e o).2.counters.lookup key = some c → s.counters.lookup key = some c := by
  have halive : before s.now (some (s.now + t.decay)) = true := by
    have hpos := t.decay_pos
    simp only [before, decide_eq_true_eq]
    omega
  cases o with
  | add k value ttl =>
    obtain ⟨rfl, rfl⟩ : value = 1 ∧ ttl = t.decay := hguard
    cases hl : s.live k with
    | some c =>
      have he : s.exec e (.add k 1 t.decay) = (false, s) := by simp only [Store.exec, hl]
      rw [he]
      exact .inr ⟨fun _ => rfl, le_rfl, fun _ _ h => h⟩
    | none =>
      have he : s.exec e (.add k 1 t.decay) = (true, s.set k ⟨1, some (s.now + t.decay)⟩) := by
        simp only [Store.exec, hl, expirationFor_decay]
      rw [he]
      refine .inl ⟨k, _, rfl, ?_, fun _ => ⟨by simp [counted], ?_⟩, halive, le_rfl, ?_, le_rfl⟩
      · intro key
        by_cases hk : k = key <;> simp [writes, counted, rewrites, hk]
      · simp [hl]
      · simp
  | increment k delta =>
    obtain ⟨rfl, howes⟩ : delta = 1 ∧ ((watch t).stateOf l i).owes = none := hguard
    have hwrites : ∀ (n : Int) key, writes key ⟨i, .increment k 1, n⟩ = decide (k = key) := by
      intro n key
      by_cases hk : k = key <;> simp [writes, counted, rewrites, hk]
    cases hl : s.live k with
    | some c =>
      obtain ⟨hlookup, hbefore⟩ := Store.live_eq_some.mp hl
      obtain ⟨hpos, hle, hend⟩ := hs (by omega) k c hlookup
      have hcount : Int.bmod (c.count + 1) (2 ^ 64) = c.count + 1 :=
        Int.bmod_eq_of_le (by omega) (by omega)
      have he : s.exec e (.increment k 1) = (c.count + 1, s.set k ⟨c.count + 1, c.deadline⟩) := by
        simp only [Store.exec, hl, hcount]
      rw [he]
      refine .inl ⟨k, _, rfl, hwrites _, fun _ => ⟨by simp [counted], by simp [hl]⟩, hbefore, ?_, ?_, ?_⟩
      · show 1 ≤ c.count + 1
        omega
      · simpa using hle
      · cases hd : c.deadline with
        | some d =>
          rw [hd] at hend
          exact hend
        | none =>
          rw [hd] at hend
          exact owes_concat (by exact ⟨rfl, howes⟩) rfl hend
    | none =>
      have he : s.exec e (.increment k 1) = (0 + 1, s.set k ⟨0 + 1, none⟩) := by
        simp only [Store.exec, hl]
      rw [he]
      refine .inl ⟨k, _, rfl, hwrites _, fun _ => ⟨by simp [counted], by simp [hl]⟩, rfl, by decide,
        by simp, i, ?_⟩
      rw [Monitor.stateOf_concat, if_pos rfl]
      rfl
  | put k value ttl =>
    obtain ⟨rfl, rfl, -⟩ :
        value = 1 ∧ ttl = t.decay ∧ ((watch t).stateOf l i).owes = some k := hguard
    refine .inl ⟨k, ⟨1, some (s.now + t.decay)⟩, ?_, ?_, ?_, halive, le_rfl, by simp, le_rfl⟩
    · simp only [Store.exec, expirationFor_decay]
    · exact fun key => rfl
    · simp [rewrites]
  | forget k => exact .inr ⟨fun _ => rfl, le_rfl, fun key c h => (FMap.lookup_of_erase h).2⟩
  | pass d =>
    refine .inr ⟨fun _ => rfl, ?_, fun _ _ h => h⟩
    show s.now ≤ s.now + d
    omega

theorem exec_kept (h : (s.exec e o).2.counters.lookup key = some c) :
    Kept t (l ++ [⟨i, o, (s.exec e o).1⟩]) (s.exec e o).2.now key c := by
  have hkept := hs (by omega) key
  rcases exec_cases hs hlen hguard with ⟨k, c', he, hw⟩ | ⟨hquiet, hnow, hless⟩
  · rw [he] at h ⊢
    rcases FMap.lookup_of_insert h with ⟨rfl, rfl⟩ | ⟨hk, h⟩
    · exact hw.kept
    · have hquiet := (hw.writes key).trans (decide_eq_false (Ne.symm hk))
      exact (hkept c h).concat hguard hquiet le_rfl
  · exact (hkept c (hless key c h)).concat hguard (hquiet key) hnow

theorem exec_window
    (hstays : (s.live key).isSome = true → ((s.exec e o).2.live key).isSome = true)
    (hput : rewrites key ⟨i, o, (s.exec e o).1⟩ = false) :
    (∃ n d, counted key ⟨i, o, (s.exec e o).1⟩ = some n ∧ 1 ≤ n ∧
      (∀ c, s.live key = some c → c.count < n) ∧ (s.exec e o).2.live key = some ⟨n, d⟩) ∨
    counted key ⟨i, o, (s.exec e o).1⟩ = none ∧
      ∀ c, s.live key = some c → (s.exec e o).2.live key = some c := by
  rcases exec_cases hs hlen hguard with ⟨k, c, he, hw⟩ | ⟨hquiet, -, hless⟩
  · by_cases hk : k = key
    · subst hk
      obtain ⟨hcounted, habove⟩ := hw.rises hput
      refine .inl ⟨c.count, c.deadline, hcounted, hw.kept.1, habove, ?_⟩
      rw [he]
      exact live_set_self s k hw.alive
    · right
      have hquiet := hw.writes key
      simp only [writes, hk, decide_false, Bool.or_eq_false_iff, isSome_eq_false_iff,
        isNone_iff_eq_none] at hquiet
      rw [he]
      exact ⟨hquiet.1, fun c hc => (live_set_of_ne s (Ne.symm hk) _).trans hc⟩
  · right
    have hquiet := hquiet key
    simp only [writes, Bool.or_eq_false_iff, isSome_eq_false_iff, isNone_iff_eq_none] at hquiet
    refine ⟨hquiet.1, ?_⟩
    intro c hc
    obtain ⟨c', hc'⟩ := isSome_iff_exists.mp (hstays (by rw [hc]; rfl))
    have hlookup := hless key c' (live_eq_some.mp hc').1
    rw [(live_eq_some.mp hc).1] at hlookup
    rw [hc', hlookup]

theorem lookup_of_not_writes
    (hquiet : writes key ⟨i, o, (s.exec e o).1⟩ = false)
    (h : (s.exec e o).2.counters.lookup key = some c) : s.counters.lookup key = some c := by
  rcases exec_cases hs hlen hguard with ⟨k, c', he, hw⟩ | ⟨-, -, hless⟩
  · rw [hw.writes, decide_eq_false_iff_not] at hquiet
    rwa [he, lookup_set, if_neg (Ne.symm hquiet)] at h
  · exact hless key c h

end

theorem reached_sound (t : Throttler) (start : Int) (acts : Acts) :
    Sound t (reached t start acts).world (reached t start acts).log := by
  refine (system t).invariant (watch t) ?_ ?_ ?_ ?_ acts
  · intro c
    exact wp_mono (body_settled t c) fun _ _ _ => trivial
  · exact fun _ => nofun
  · intro _ _ _ _ _
    trivial
  · intro s l i e o hs hguard hlen key c
    exact exec_kept (e := e) hs (by simpa using hlen) hguard

/-! A window: a stretch of a run in which the counter, once there, stays. -/

def present (key : Bytes) (s : Store) : Bool := (s.live key).isSome

def Rising (key : Bytes) (s : Store) (l : Log Res) : Prop :=
  (l.filterMap (counted key)).Pairwise (· < ·) ∧
    ∀ n ∈ l.filterMap (counted key), 1 ≤ n ∧ ∃ c, s.live key = some c ∧ n ≤ c.count

theorem rising_step {s s' : Store} (h : Rising key s l)
    (hstep : (∃ n d, counted key ev = some n ∧ 1 ≤ n ∧ (∀ c, s.live key = some c → c.count < n) ∧
        s'.live key = some ⟨n, d⟩) ∨
      counted key ev = none ∧ ∀ c, s.live key = some c → s'.live key = some c) :
    Rising key s' (l ++ [ev]) := by
  obtain ⟨hpair, hall⟩ := h
  rcases hstep with ⟨n, d, hcounted, hpos, habove, hlive⟩ | ⟨hcounted, hkeep⟩
  · have hlist : (l ++ [ev]).filterMap (counted key) = l.filterMap (counted key) ++ [n] := by
      simp [hcounted]
    rw [Rising, hlist]
    constructor
    · refine pairwise_append.mpr ⟨hpair, pairwise_singleton _ _, ?_⟩
      intro m hm n' hn'
      obtain ⟨-, c, hc, hle⟩ := hall m hm
      have hlt := habove c hc
      rw [mem_singleton] at hn'
      omega
    · intro m hm
      rcases mem_append.mp hm with hm | hm
      · obtain ⟨hm1, c, hc, hle⟩ := hall m hm
        have hlt := habove c hc
        exact ⟨hm1, _, hlive, by show m ≤ n; omega⟩
      · rw [mem_singleton] at hm
        exact ⟨by omega, _, hlive, by show m ≤ n; omega⟩
  · have hlist : (l ++ [ev]).filterMap (counted key) = l.filterMap (counted key) := by
      simp [hcounted]
    rw [Rising, hlist]
    refine ⟨hpair, ?_⟩
    intro m hm
    obtain ⟨hm1, c, hc, hle⟩ := hall m hm
    exact ⟨hm1, c, hkeep c hc, hle⟩

/-- The Reserve calls of a key that count in a window and report within. -/
def AdmittedIn (p : Throttled) (n : Nat) (key : Bytes) (i : Nat) : Prop :=
  reportsWithin p key i = true ∧ ∃ ev ∈ p.since n, ev.tid = i ∧ (counted (cacheKey key) ev).isSome = true

instance (p : Throttled) (n : Nat) (key : Bytes) (i : Nat) : Decidable (AdmittedIn p n key i) :=
  inferInstanceAs (Decidable (_ ∧ ∃ ev ∈ p.since n, _))

section

variable (t) (start : Int) (acts before window : Acts) (key)

theorem reached_append (acts' : Acts) :
    reached t start (acts ++ acts') = (system t).run (reached t start acts) acts' :=
  (system t).run_append _ _ _

theorem length_log_le :
    (reached t start before).log.length ≤ (reached t start (before ++ window)).log.length := by
  obtain ⟨l, hl⟩ : ∃ l, _ = (reached t start before).log ++ l := (system t).log_run _ window
  rw [reached_append, hl, length_append]
  omega

theorem reached_monitored : System.Monitored (watch t) (Settled t) (reached t start acts) :=
  (system t).monitored_run (watch t) (body_settled t) (fun _ _ _ => trivial) acts

theorem window_step (a : Act Unit Call) : let n := (reached t start before).log.length
    let p := reached t start (before ++ window)
    let p' := reached t start (before ++ (window ++ [a]))
    (p'.world = p.world ∧ p'.since n = p.since n ∧ p'.log.length = p.log.length) ∨
      ∃ i e o, p'.log.length = p.log.length + 1 ∧
        (watch t).guard ((watch t).stateOf p.log i) o (p.world.exec e o).1 ∧
        p'.world = (p.world.exec e o).2 ∧ p'.since n = p.since n ++ [⟨i, o, (p.world.exec e o).1⟩] ∧
        ((system t).falls (present key) p [a] = [] → (p.world.live key).isSome = true →
          ((p.world.exec e o).2.live key).isSome = true) := by
  intro n p p'
  have hnext : p' = (system t).step p a := by
    show reached t start (before ++ (window ++ [a])) = _
    rw [← append_assoc, reached_append]
    rfl
  have hlen : n ≤ p.log.length := length_log_le t start before window
  rw [hnext]
  rcases (system t).world_step p a with ⟨hw, hl⟩ | ⟨i, e, c, o, k, hi, hw, hl⟩
  · exact .inl ⟨hw, congrArg (drop n) hl, congrArg length hl⟩
  · have hguard := ((reached_monitored t start (before ++ window)).1 i c _ hi
      (p.world.exec e o).1 trivial).1
    refine .inr ⟨i, e, o, by rw [hl, length_append]; rfl, hguard, hw,
      (congrArg (drop n) hl).trans (drop_append_of_le_length hlen), ?_⟩
    intro hfall hsome
    simp only [falls, hw, hl, drop_left, append_nil] at hfall
    by_contra hnot
    rw [if_pos (by simpa [present, hsome] using! hnot)] at hfall
    cases hfall

theorem window_rising (hlen : (reached t start (before ++ window)).log.length < 2 ^ 63)
    (hstays : (system t).falls (present key) (reached t start before) window = [])
    (hput : ∀ ev ∈ (reached t start (before ++ window)).since (reached t start before).log.length,
      rewrites key ev = false) : Rising key (reached t start (before ++ window)).world
      ((reached t start (before ++ window)).since (reached t start before).log.length) := by
  induction window using reverseRecOn with
  | nil =>
    simp [Rising, Throttled.since]
  | append_singleton window a ih =>
    rw [falls_concat, append_eq_nil_iff, ← reached_append] at hstays
    rcases window_step t key start before window a with
      ⟨hw, hl, hlog⟩ | ⟨i, e, o, hlog, hguard, hw, hl, hkeep⟩
    · rw [hl] at hput ⊢
      rw [hw]
      exact ih (hlog ▸ hlen) hstays.1 hput
    · rw [hl] at hput ⊢
      rw [hlog] at hlen
      rw [hw]
      have hrising := ih (by omega) hstays.1 fun ev hev => hput ev (mem_append_left _ hev)
      exact rising_step hrising (exec_window (reached_sound t start _) hlen hguard (hkeep hstays.2)
        (hput _ mem_concat_self))

theorem admittedIn_count {n : Nat} (h : AdmittedIn (reached t start acts) n key i) :
    ∃ ev ∈ (reached t start acts).since n, ev.tid = i ∧
      ∃ m ≤ t.limitFor key, counted (cacheKey key) ev = some m := by
  obtain ⟨hwithin, ev, hev, rfl, hcounted⟩ := h
  obtain ⟨delay, hret⟩ := reportsWithin_iff.mp hwithin
  obtain ⟨m, hm⟩ := isSome_iff_exists.mp hcounted
  have hsettled := (reached_monitored t start acts).1 _ _ _ hret
  obtain ⟨m', hseen, hle⟩ := hsettled.2 key delay rfl rfl
  have hmem := mem_seen_of_counted (t := t) (mem_of_mem_drop hev) hm
  rw [hseen, mem_singleton, Prod.mk.injEq] at hmem
  exact ⟨ev, hev, rfl, m, by omega, hm⟩

theorem admitted_le_limit (hlen : (reached t start (before ++ window)).log.length < 2 ^ 63)
    (hstays : (system t).falls (present (cacheKey key)) (reached t start before) window = [])
    (hput : ∀ ev ∈ (reached t start (before ++ window)).since (reached t start before).log.length,
      rewrites (cacheKey key) ev = false) (tids : Finset Nat)
    (htids : ∀ i ∈ tids, AdmittedIn (reached t start (before ++ window))
      (reached t start before).log.length key i) : (tids.card : Int) ≤ t.limitFor key := by
  obtain ⟨hpair, hpos⟩ := window_rising t (cacheKey key) start before window hlen hstays hput
  have hcounts : ∀ i ∈ tids, ∃ m, m ≤ t.limitFor key ∧
      ∃ ev ∈ (reached t start (before ++ window)).since (reached t start before).log.length,
        ev.tid = i ∧ counted (cacheKey key) ev = some m := by
    intro i hi
    obtain ⟨ev, hev, htid, m, hm, hcounted⟩ := admittedIn_count _ _ _ _ (htids i hi)
    exact ⟨m, hm, ev, hev, htid, hcounted⟩
  choose! count hle hcount using hcounts
  have hmaps : ∀ i ∈ tids, count i ∈ Finset.Icc 1 (t.limitFor key) := by
    intro i hi
    obtain ⟨ev, hev, -, hcounted⟩ := hcount i hi
    have hone := (hpos _ (mem_filterMap.mpr ⟨ev, hev, hcounted⟩)).1
    exact Finset.mem_Icc.mpr ⟨hone, hle i hi⟩
  -- Two calls are two events of the window, and the counts of a window differ.
  have hinj : Set.InjOn count tids := by
    intro i hi j hj heq
    obtain ⟨ev, hev, rfl, hcounted⟩ := hcount i hi
    obtain ⟨ev', hev', rfl, hcounted'⟩ := hcount j hj
    by_contra hne
    have hevents : ev ≠ ev' := fun he => hne (by rw [he])
    have hdiffer := (pairwise_filterMap.mp hpair).imp
      fun h m hm m' hm' => (h m hm m' hm').ne
    have hsymm : Std.Symm fun a b : Event Res =>
        ∀ m ∈ counted (cacheKey key) a, ∀ m' ∈ counted (cacheKey key) b, m ≠ m' :=
      ⟨fun a b h m hm m' hm' => (h m' hm' m hm).symm⟩
    exact hdiffer.forall hev hev' hevents _ hcounted _ hcounted' heq
  have hcard := Finset.card_le_card_of_injOn count hmaps hinj
  rw [Int.card_Icc] at hcard
  have hlimit := t.limitFor_pos key
  omega

end

variable {acts : Acts}

theorem lookup_of_quiet {start : Int} {before : Acts}
    (hlen : (reached t start (before ++ acts)).log.length < 2 ^ 63)
    (hquiet : ∀ ev ∈ (reached t start (before ++ acts)).since (reached t start before).log.length,
      writes key ev = false)
    (h : (reached t start (before ++ acts)).world.counters.lookup key = some c) :
    (reached t start before).world.counters.lookup key = some c := by
  induction acts using reverseRecOn with
  | nil =>
    rw [append_nil] at h
    exact h
  | append_singleton acts a ih =>
    rcases window_step t key start before acts a with
      ⟨hw, hl, hlog⟩ | ⟨i, e, o, hlog, hguard, hw, hl, -⟩
    · rw [hl] at hquiet
      rw [hw] at h
      exact ih (hlog ▸ hlen) hquiet h
    · rw [hl] at hquiet
      rw [hlog] at hlen
      rw [hw] at h
      refine ih (by omega) (fun ev hev => hquiet ev (mem_append_left _ hev)) ?_
      exact lookup_of_not_writes (reached_sound t start _) hlen hguard (hquiet _ mem_concat_self) h

theorem deadline_of_returned {start : Int}
    (hlen : (reached t start acts).log.length < 2 ^ 63) (hreturned : AllReturned (reached t start acts))
    (h : (reached t start acts).world.counters.lookup key = some c) : c.deadline ≠ none := by
  intro hnone
  obtain ⟨-, -, hend⟩ := reached_sound t start acts hlen key c h
  rw [hnone] at hend
  obtain ⟨i, hi⟩ : ∃ i, ((watch t).stateOf (reached t start acts).log i).owes = some key := hend
  obtain ⟨hwp, htid⟩ := reached_monitored t start acts
  cases hth : (reached t start acts).threads[i]? with
  | none =>
    have hlen := getElem?_eq_none_iff.mp hth
    rw [stateOf_eq_init_of_le (fun ev hev => lt_of_lt_of_le (htid ev hev) hlen)] at hi
    cases hi
  | some th =>
    have hr := hreturned th (mem_of_getElem? hth)
    match th, hr with
    | ⟨c', some (.ret r)⟩, _ =>
      have hsettled := hwp i c' _ hth
      rw [hsettled.1] at hi
      cases hi

theorem reserve_alone (t : Throttler) (h : s.live (cacheKey key) = none) :
    ((reserve t key).eval Store.exec () s).1 = .reserved true 0 := by
  set k := cacheKey key
  have hadd : s.exec () (.add k 1 t.decay) = (true, s.set k ⟨1, expirationFor s.now t.decay⟩) := by
    simp only [Store.exec, h]
  have hcount : (countAttempt t key).eval Store.exec () s =
      (1, s.set k ⟨1, expirationFor s.now t.decay⟩) := by
    show eval Store.exec () ((if (s.exec () (.add k 1 t.decay)).1 = true then
      pure 1 else _ : Prog Res Int)) (s.exec () (.add k 1 t.decay)).2 = _
    rw [hadd]
    rfl
  have hlimit : (1 : Int) ≤ t.limitFor key := t.limitFor_pos key
  rw [reserve, eval_bind, hcount]
  rw [if_pos hlimit]
  rfl

/-- While a key's counter stays and its count is not put again, no more calls than the limit report
within; once all have returned, the counter ends within `decay` of the last count. -/
theorem admits_limit_and_recovers (t : Throttler) (start : Int) (before window : List (Act Unit Call))
    (key : Bytes) (hcount : (reached t start (before ++ window)).log.length < 2 ^ 63) :
    ((system t).falls (present (cacheKey key)) (reached t start before) window = [] →
      (∀ ev ∈ (reached t start (before ++ window)).since (reached t start before).log.length,
        rewrites (cacheKey key) ev = false) →
      ∀ tids : Finset Nat,
        (∀ i ∈ tids, AdmittedIn (reached t start (before ++ window))
          (reached t start before).log.length key i) →
        (tids.card : Int) ≤ t.limitFor key) ∧
    (AllReturned (reached t start (before ++ window)) →
      (∀ ev ∈ (reached t start (before ++ window)).since (reached t start before).log.length,
        writes (cacheKey key) ev = false) →
      (∀ c, (reached t start (before ++ window)).world.counters.lookup (cacheKey key) = some c →
        ∃ d, c.deadline = some d ∧ d ≤ (reached t start before).world.now + t.decay) ∧
      ((reached t start before).world.now + t.decay ≤ (reached t start (before ++ window)).world.now →
        ((reserve t key).eval Store.exec () (reached t start (before ++ window)).world).1 =
          .reserved true 0)) := by
  have hle := length_log_le t start before window
  set p := reached t start (before ++ window)
  refine ⟨admitted_le_limit t key start before window hcount, ?_⟩
  intro hreturned hquiet
  have hends : ∀ c,
      p.world.counters.lookup (cacheKey key) = some c →
        ∃ d, c.deadline = some d ∧ d ≤ (reached t start before).world.now + t.decay := by
    intro c hc
    obtain ⟨d, hd⟩ := ne_none_iff_exists'.mp (deadline_of_returned hcount hreturned hc)
    have hearlier := lookup_of_quiet hcount hquiet hc
    obtain ⟨-, -, hend⟩ := reached_sound t start before (by omega) _ _ hearlier
    rw [hd] at hend
    exact ⟨d, hd, hend⟩
  refine ⟨hends, ?_⟩
  intro hlater
  apply reserve_alone
  cases hlive : p.world.live (cacheKey key) with
  | none => rfl
  | some c =>
    obtain ⟨hlookup, hbefore⟩ := Store.live_eq_some.mp hlive
    obtain ⟨d, hd, hle⟩ := hends c hlookup
    rw [hd] at hbefore
    have hlt : p.world.now < d := by
      simpa [Cache.before] using hbefore
    omega

def twoAttempts : Acts :=
  [.spawn (.reserve []), .run 0 (), .spawn (.reserve []), .run 1 (), .run 1 ()]

def pause : Acts := [.spawn (.pass 10), .run 2 ()]

theorem two_attempts_then_a_pause :
    ((({0, 1} : Finset Nat).card : Int) ≤ (newCacheLoginThrottler 2 0 0 10).limitFor []) ∧
      ((reserve (newCacheLoginThrottler 2 0 0 10) []).eval Store.exec ()
        (reached (newCacheLoginThrottler 2 0 0 10) 0 (twoAttempts ++ pause)).world).1 =
          .reserved true 0 := by
  constructor
  · refine (admits_limit_and_recovers (newCacheLoginThrottler 2 0 0 10) 0 [] twoAttempts []
      (by decide +kernel)).1 rfl ?_ _ ?_
    · decide +kernel
    · decide +kernel
  · refine ((admits_limit_and_recovers (newCacheLoginThrottler 2 0 0 10) 0 twoAttempts pause []
      (by decide +kernel)).2 ?_ ?_).2 ?_
    · decide +kernel
    · decide +kernel
    · decide +kernel

/-- Two attempts find the counter there, and it expires before they increment it. -/
def expiringAttempts : Acts :=
  [.spawn (.reserve []), .run 0 (), .spawn (.reserve []), .run 1 (), .spawn (.reserve []),
    .run 2 (), .spawn (.pass 10), .run 3 ()]

/-- The first puts its count again over that of the second, and a third attempt takes the lost one.
-/
def lostCount : Acts :=
  [.run 1 (), .run 2 (), .run 1 (), .spawn (.reserve []), .run 4 (), .run 4 ()]

theorem lost_count_admits_one_more :
    (newCacheLoginThrottler 2 0 0 10).limitFor [] = 2 ∧
      (system (newCacheLoginThrottler 2 0 0 10)).falls (present (cacheKey []))
        (reached (newCacheLoginThrottler 2 0 0 10) 0 expiringAttempts) lostCount = [] ∧
      ∀ i ∈ ({1, 2, 4} : Finset Nat),
        AdmittedIn (reached (newCacheLoginThrottler 2 0 0 10) 0 (expiringAttempts ++ lostCount))
          (reached (newCacheLoginThrottler 2 0 0 10) 0 expiringAttempts).log.length [] i := by
  decide +kernel

end Auth.Throttle
