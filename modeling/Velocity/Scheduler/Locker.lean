import Velocity.Lib.Lease
import Velocity.Lib.Map

/-! The in-memory locker. A call reads the clock before it takes the mutex, and a lock object
carries its own flag for the first `Release`; a critical section of the mutex is one operation. -/

namespace Scheduling

open Interleave Option

structure InMemoryLock where
  name : String
  token : Nat
  expires : Int
  released : Bool
  deriving DecidableEq, Repr

/-- `locks` holds pointers into `heap`, the lock objects made so far. -/
structure InMemoryLocker where
  token : Nat
  locks : FMap String Nat
  heap : List InMemoryLock

def InMemoryLocker.new : InMemoryLocker := ⟨0, ∅, []⟩

/-- Reported as "velocity/scheduler: lock" and the name, around "lock already held". -/
structure ErrLockHeld where
  name : String
  deriving DecidableEq, Repr

inductive LockOp
  | nowFn
  | acquire (name : String) (now ttl : Int)
  | swapReleased (lock : Nat)
  | release (lock : Nat)
  deriving DecidableEq, Repr

/-- An acquired lock is its pointer and its fencing token. -/
@[reducible] def LockOp.Res : LockOp → Type
  | .nowFn => Int
  | .acquire .. => Except ErrLockHeld (Nat × Nat)
  | .swapReleased _ => Bool
  | .release _ => Unit

variable {name : String} {now ttl : Int} {lock n : Nat}

namespace InMemoryLocker

variable (l : InMemoryLocker)

def existing (name : String) : Option InMemoryLock := (l.locks.lookup name).bind fun p => l.heap[p]?

/-- The section of `Acquire`; the token counter has 64 bits. -/
def acquire (name : String) (now ttl : Int) : Except ErrLockHeld (Nat × Nat) × InMemoryLocker :=
  if (l.existing name).any fun lk => now < lk.expires then (.error ⟨name⟩, l)
  else
    let tok := (l.token + 1) % 2 ^ 64
    let lk := l.heap.length
    (.ok (lk, tok), ⟨tok, l.locks.insert name lk, l.heap ++ [⟨name, tok, now + ttl, false⟩]⟩)

theorem acquire_of_free {l : InMemoryLocker}
    (h : ((l.existing name).any fun lk => now < lk.expires) = false) :
    l.acquire name now ttl = (.ok (l.heap.length, (l.token + 1) % 2 ^ 64),
      ⟨(l.token + 1) % 2 ^ 64, l.locks.insert name l.heap.length,
        l.heap ++ [⟨name, (l.token + 1) % 2 ^ 64, now + ttl, false⟩]⟩) := by
  simp [acquire, h]

/-- There is no call on an object that was never made. -/
def swapReleased (lock : Nat) : Bool × InMemoryLocker :=
  (l.heap[lock]?.elim true fun lk => lk.released,
    { l with heap := l.heap.modify lock fun lk => { lk with released := true } })

/-- The section of `Release`. -/
def release (lock : Nat) : InMemoryLocker :=
  match l.heap[lock]? with
  | none => l
  | some lk =>
    match l.existing lk.name with
    | none => l
    | some ex => if ex.token = lk.token then { l with locks := l.locks.erase lk.name } else l

/-- The environment is what the clock shows. -/
def exec (l : InMemoryLocker) (clock : Int) : (o : LockOp) → o.Res × InMemoryLocker
  | .nowFn => (clock, l)
  | .acquire name now ttl => l.acquire name now ttl
  | .swapReleased lock => l.swapReleased lock
  | .release lock => ((), l.release lock)

end InMemoryLocker

abbrev LockProg := Prog LockOp.Res

inductive LockCall
  | acquire (name : String) (ttl : Int)
  | release (lock : Nat)

def acquireBody (name : String) (ttl : Int) : LockProg (Except ErrLockHeld (Nat × Nat)) := do
  let now ← Prog.perform (.nowFn : LockOp)
  Prog.perform (.acquire name now ttl : LockOp)

def releaseBody (lock : Nat) : LockProg Unit := do
  let released ← Prog.perform (.swapReleased lock : LockOp)
  if released then pure () else Prog.perform (.release lock : LockOp)

def LockCall.body : LockCall → LockProg Unit
  | .acquire name ttl => do
    let _ ← acquireBody name ttl
    pure ()
  | .release lock => releaseBody lock

def lockSystem : System LockOp.Res InMemoryLocker Int LockCall Unit :=
  ⟨LockCall.body, InMemoryLocker.exec⟩

structure Acquisition where
  name : String
  now : Int
  ttl : Int
  lock : Nat
  token : Nat
  deriving DecidableEq, Repr

def acquisition : Event LockOp.Res → Option Acquisition
  | ⟨_, .acquire name now ttl, .ok (lock, token)⟩ => some ⟨name, now, ttl, lock, token⟩
  | _ => none

def releases (lock : Nat) (ev : Event LockOp.Res) : Bool := ev.op = .release lock

def acquisitions (log : Log LockOp.Res) : List Acquisition := log.filterMap acquisition

def lease : Event LockOp.Res → Option (Lease.Event String Nat Int)
  | ⟨_, .acquire name now ttl, .ok (lock, _)⟩ => some (.taken name lock now (now + ttl))
  | ⟨_, .release lock, _⟩ => some (.left lock)
  | _ => none

def leases (log : Log LockOp.Res) : List (Lease.Event String Nat Int) :=
  log.filterMap lease

theorem acquisitions_concat (log : Log LockOp.Res) (ev : Event LockOp.Res) :
    acquisitions (log ++ [ev]) = acquisitions log ++ (acquisition ev).toList := by
  cases h : acquisition ev <;> simp [acquisitions, h]

theorem leases_concat (log : Log LockOp.Res) (ev : Event LockOp.Res) :
    leases (log ++ [ev]) = leases log ++ (lease ev).toList := by
  cases h : lease ev <;> simp [leases, h]

/-- The map names, for every lock, who took it last and has not given it back. -/
structure LockerInv (l : InMemoryLocker) (log : Log LockOp.Res) : Prop where
  heap : l.heap.length = (acquisitions log).length
  counter : l.token = (acquisitions log).length % 2 ^ 64
  tokens : ∀ p lk, l.heap[p]? = some lk → lk.token = (p + 1) % 2 ^ 64
  names : ∀ name p, l.locks.lookup name = some p → ∃ lk, l.heap[p]? = some lk ∧ lk.name = name
  holder : ∀ name, ((l.locks.lookup name).bind fun p => l.heap[p]?.map fun lk => (p, lk.expires)) =
    Lease.holder name (leases log)
  guarded : Lease.Guarded (· < ·) (leases log)
  issued : EachAfter (fun pre ev => ∀ a, acquisition ev = some a →
    a.lock = (acquisitions pre).length ∧ a.token = (a.lock + 1) % 2 ^ 64) log

namespace LockerInv

variable {l l' : InMemoryLocker} {log : Log LockOp.Res} {ev : Event LockOp.Res}

open InMemoryLocker

theorem start : LockerInv .new [] := by
  constructor
  · rfl
  · rfl
  · simp [new]
  · simp [new]
  · simp [new, leases]
  · exact eachAfter_nil _
  · exact eachAfter_nil _

variable (h : LockerInv l log)

include h

attribute [local simp] acquisitions_concat

theorem quiet (hlease : lease ev = none) (hacq : acquisition ev = none)
    (htoken : l'.token = l.token) (hlocks : l'.locks = l.locks) {f : Nat → InMemoryLock → InMemoryLock}
    (hf : ∀ p lk, (f p lk).name = lk.name ∧ (f p lk).token = lk.token ∧ (f p lk).expires = lk.expires)
    (hlength : l'.heap.length = l.heap.length) (hheap : ∀ p, l'.heap[p]? = l.heap[p]?.map (f p)) :
    LockerInv l' (log ++ [ev]) := by
  have hacqs : acquisitions (log ++ [ev]) = acquisitions log := by simp [hacq]
  have hleases : leases (log ++ [ev]) = leases log := by simp [leases_concat, hlease]
  constructor
  · rw [hacqs, hlength, h.heap]
  · rw [hacqs, htoken, h.counter]
  · intro p lk hlk
    rw [hheap] at hlk
    obtain ⟨lk', hlk', rfl⟩ := map_eq_some_iff.mp hlk
    rw [(hf p lk').2.1]
    exact h.tokens p lk' hlk'
  · intro name p hp
    rw [hlocks] at hp
    obtain ⟨lk, hlk, hname⟩ := h.names name p hp
    exact ⟨f p lk, by rw [hheap, hlk]; rfl, by rw [(hf p lk).1, hname]⟩
  · intro name
    rw [hleases, ← h.holder name, hlocks]
    congr 1
    funext p
    rw [hheap, map_map]
    congr 1
    funext lk
    simp [(hf p lk).2.2]
  · rw [hleases]
    exact h.guarded
  · exact eachAfter_concat.mpr ⟨h.issued, fun a ha => by simp [hacq] at ha⟩

theorem existing_expires {e : Int} (hh : Lease.holder name (leases log) = some (lock, e)) :
    ∃ lk, l.existing name = some lk ∧ lk.expires = e := by
  rw [← h.holder name] at hh
  obtain ⟨p, hp, hmap⟩ := bind_eq_some_iff.mp hh
  obtain ⟨lk, hlk, hpair⟩ := map_eq_some_iff.mp hmap
  exact ⟨lk, by simp [existing, hp, hlk], congrArg Prod.snd hpair⟩

theorem acquired (i : Nat) (hfree : ((l.existing name).any fun lk => now < lk.expires) = false) :
    LockerInv (l.acquire name now ttl).2
      (log ++ [⟨i, .acquire name now ttl, (l.acquire name now ttl).1⟩]) := by
  have hlen := h.heap
  have hcounter := h.counter
  have htok : (l.token + 1) % 2 ^ 64 = (l.heap.length + 1) % 2 ^ 64 := by omega
  rw [acquire_of_free hfree, htok]
  have hbelow : ∀ name' p, l.locks.lookup name' = some p → p < l.heap.length := by
    intro name' p hp
    obtain ⟨lk, hlk, -⟩ := h.names name' p hp
    exact (List.getElem?_eq_some_iff.mp hlk).1
  constructor
  · simp [acquisition, hlen]
  · simp [acquisition, hlen]
  · intro p lk hlk
    rcases Nat.lt_trichotomy p l.heap.length with hp | hp | hp
    · rw [List.getElem?_append_left hp] at hlk
      exact h.tokens p lk hlk
    · subst hp
      simp only [List.getElem?_concat_length, some.injEq] at hlk
      rw [← hlk]
    · rw [List.getElem?_eq_none (by simp; omega)] at hlk
      cases hlk
  · intro name' p hp
    rcases FMap.lookup_of_insert hp with ⟨rfl, rfl⟩ | ⟨-, hp⟩
    · exact ⟨_, List.getElem?_concat_length, rfl⟩
    · obtain ⟨lk, hlk, hlkname⟩ := h.names name' p hp
      exact ⟨lk, by rw [List.getElem?_append_left (hbelow name' p hp), hlk], hlkname⟩
  · intro name'
    rw [leases_concat, lease, toList_some, Lease.holder_concat, ← h.holder name', FMap.lookup_insert_ite]
    by_cases hname : name' = name
    · subst hname
      simp [Lease.after]
    · rw [if_neg hname, Lease.after, if_neg fun he => hname he.symm]
      cases hp : l.locks.lookup name' with
      | none => rfl
      | some p =>
        simp only [bind_some]
        rw [List.getElem?_append_left (hbelow name' p hp)]
  · rw [leases_concat]
    refine eachAfter_concat.mpr ⟨h.guarded, ?_⟩
    intro k lock n e lock' e' htaken hholder hlive
    obtain ⟨rfl, -, rfl, -⟩ := Lease.Event.taken.inj htaken
    obtain ⟨lk, hlk, rfl⟩ := h.existing_expires hholder
    simp [hlk, hlive] at hfree
  · refine eachAfter_concat.mpr ⟨h.issued, ?_⟩
    intro a ha
    obtain rfl : _ = a := by simpa [acquisition] using ha
    exact ⟨hlen, rfl⟩

variable (hcount : (acquisitions log).length < 2 ^ 64)

include hcount

theorem lookup_release (lock : Nat) (name : String) : (l.release lock).locks.lookup name =
      if l.locks.lookup name = some lock then none else l.locks.lookup name := by
  have hlen := h.heap
  cases hlock : l.heap[lock]? with
  | none =>
    have hno : l.locks.lookup name ≠ some lock := by
      intro hp
      obtain ⟨lk, hlk, -⟩ := h.names name lock hp
      rw [hlock] at hlk
      cases hlk
    simp [release, hlock, hno]
  | some lk =>
    have hbound : lock < l.heap.length := (List.getElem?_eq_some_iff.mp hlock).1
    have htoken := h.tokens lock lk hlock
    have howner (hp' : l.locks.lookup name = some lock) : lk.name = name := by
      obtain ⟨lk', hlk', hname⟩ := h.names name lock hp'
      obtain rfl : lk = lk' := by simpa [hlock] using hlk'
      exact hname
    -- The entry of the lock's own name decides; another name's entry is another lock.
    cases hp : l.locks.lookup lk.name with
    | none =>
      have hex : l.existing lk.name = none := by simp [existing, hp]
      have hno : l.locks.lookup name ≠ some lock := by
        intro hp'
        rw [← howner hp', hp] at hp'
        cases hp'
      simp [release, hlock, hex, hno]
    | some p =>
      obtain ⟨ex, hex, -⟩ := h.names lk.name p hp
      have hpbound : p < l.heap.length := (List.getElem?_eq_some_iff.mp hex).1
      have hextoken := h.tokens p ex hex
      have hexisting : l.existing lk.name = some ex := by simp [existing, hp, hex]
      have hsame : ex.token = lk.token ↔ p = lock := by
        rw [hextoken, htoken]
        omega
      simp only [release, hlock, hexisting, hsame]
      by_cases hpl : p = lock
      · rw [if_pos hpl, FMap.lookup_erase_ite]
        by_cases hname : name = lk.name
        · rw [if_pos hname, hname, hp, hpl, if_pos rfl]
        · rw [if_neg hname, if_neg fun hp' => hname (howner hp').symm]
      · have hno : l.locks.lookup name ≠ some lock := by
          intro hp'
          rw [← howner hp', hp] at hp'
          exact hpl (by simpa using hp')
        rw [if_neg hpl, if_neg hno]

theorem released (i lock : Nat) : LockerInv (l.release lock) (log ++ [⟨i, .release lock, ()⟩]) := by
  have hsame : (l.release lock).token = l.token ∧ (l.release lock).heap = l.heap := by
    unfold release
    split
    · exact ⟨rfl, rfl⟩
    · split
      · exact ⟨rfl, rfl⟩
      · split <;> exact ⟨rfl, rfl⟩
  have hlookup := h.lookup_release hcount lock
  have hacqs : acquisitions (log ++ [⟨i, .release lock, ()⟩]) = acquisitions log := by
    simp [acquisition]
  constructor
  · rw [hacqs, hsame.2, h.heap]
  · rw [hacqs, hsame.1, h.counter]
  · rw [hsame.2]
    exact h.tokens
  · intro name p hp
    rw [hlookup] at hp
    split at hp
    · cases hp
    · rw [hsame.2]
      exact h.names name p hp
  · intro name
    rw [leases_concat, lease, toList_some, Lease.holder_concat, ← h.holder name, hlookup, hsame.2]
    cases hp : l.locks.lookup name with
    | none => rfl
    | some p =>
      obtain ⟨lk, hlk, -⟩ := h.names name p hp
      by_cases hpl : p = lock
      · simp [hpl, Lease.after, hpl ▸ hlk]
      · simp [hpl, Lease.after, hlk]
  · rw [leases_concat]
    refine eachAfter_concat.mpr ⟨h.guarded, ?_⟩
    intro k lock' n e lock'' e' htaken
    cases htaken
  · refine eachAfter_concat.mpr ⟨h.issued, ?_⟩
    intro a ha
    simp [acquisition] at ha

theorem step (i : Nat) (clock : Int) (o : LockOp) :
    LockerInv (l.exec clock o).2 (log ++ [⟨i, o, (l.exec clock o).1⟩]) := by
  have hid : ∀ p : Nat, l.heap[p]? = l.heap[p]?.map fun lk => lk := by simp
  cases o with
  | nowFn => exact h.quiet rfl rfl rfl rfl (fun _ _ => ⟨rfl, rfl, rfl⟩) rfl hid
  | acquire name now ttl =>
    cases hheld : (l.existing name).any fun lk => now < lk.expires with
    | false => exact h.acquired i hheld
    | true =>
      have hout : l.acquire name now ttl = (.error ⟨name⟩, l) := by
        simp [acquire, hheld]
      simp only [exec, hout]
      exact h.quiet rfl rfl rfl rfl (fun _ _ => ⟨rfl, rfl, rfl⟩) rfl hid
  | swapReleased lock =>
    have hheap : ∀ p, (l.heap.modify lock fun lk => { lk with released := true })[p]? =
        l.heap[p]?.map (if lock = p then fun lk => { lk with released := true } else id) := by
      intro p
      rw [List.getElem?_modify]
      split <;> rfl
    refine h.quiet rfl rfl rfl rfl ?_ (List.length_modify _ _ _) hheap
    intro p lk
    split <;> exact ⟨rfl, rfl, rfl⟩
  | release lock => exact h.released hcount i lock

end LockerInv

theorem locker_run (acts : List (Act Int LockCall)) : let p := lockSystem.run (Pool.start .new) acts
    (acquisitions p.log).length < 2 ^ 64 → LockerInv p.world p.log := by
  refine lockSystem.invariant_world
    (I := fun l log => (acquisitions log).length < 2 ^ 64 → LockerInv l log)
    (fun _ => LockerInv.start) ?_ acts
  intro l log i clock o h hcount
  have hbefore : (acquisitions log).length < 2 ^ 64 := by
    rw [acquisitions_concat, List.length_append] at hcount
    omega
  exact (h hbefore).step hbefore i clock o

theorem lease_of_acquisition {ev : Event LockOp.Res} {x : Acquisition}
    (h : acquisition ev = some x) : lease ev = some (.taken x.name x.lock x.now (x.now + x.ttl)) := by
  obtain ⟨i, o, r⟩ := ev
  cases o with
  | acquire name now ttl =>
    cases r with
    | error e => cases h
    | ok r =>
      obtain rfl : _ = x := by simpa [acquisition] using h
      rfl
  | _ => cases h

theorem lease_keeps {mid : Log LockOp.Res} (hrelease : ∀ ev ∈ mid, releases lock ev = false)
    (hacquire : ∀ z ∈ acquisitions mid, z.name ≠ name) {x : Lease.Event String Nat Int}
    (hx : x ∈ leases mid) : x.Keeps name lock ∧ ¬x.Takes name := by
  obtain ⟨ev, hev, hlease⟩ := List.mem_filterMap.mp hx
  obtain ⟨i, o, r⟩ := ev
  cases o with
  | nowFn => cases hlease
  | swapReleased lock' => cases hlease
  | release lock' =>
    obtain rfl : _ = x := by simpa [lease] using hlease
    have hno := hrelease _ hev
    refine ⟨?_, fun ht => ht⟩
    intro he
    simp [releases, he] at hno
  | acquire name' now ttl =>
    cases r with
    | error e => cases hlease
    | ok r =>
      obtain rfl : _ = x := by simpa [lease] using hlease
      exact ⟨trivial, hacquire ⟨name', now, ttl, r.1, r.2⟩ (List.mem_filterMap.mpr ⟨_, hev, rfl⟩)⟩

/-- Of two acquisitions the later has the larger token; if the first was not released and none came
between, the second reads a clock at which it has expired; and a release leaves every other lock. -/
theorem locker_excludes_and_fences (acts : List (Act Int LockCall))
    (hcount : (acquisitions (lockSystem.run (Pool.start .new) acts).log).length < 2 ^ 64) :
    (∀ pre a mid b post x y,
      (lockSystem.run (Pool.start .new) acts).log = pre ++ a :: (mid ++ b :: post) →
      acquisition a = some x → acquisition b = some y → y.name = x.name →
      x.token < y.token ∧
        ((∀ ev ∈ mid, releases x.lock ev = false) → (∀ z ∈ acquisitions mid, z.name ≠ x.name) →
          x.now + x.ttl ≤ y.now)) ∧
    ∀ act ev lock name lock',
      (lockSystem.step (lockSystem.run (Pool.start .new) acts) act).log =
        (lockSystem.run (Pool.start .new) acts).log ++ [ev] →
      releases lock ev = true →
      (lockSystem.run (Pool.start .new) acts).world.locks.lookup name = some lock' → lock' ≠ lock →
      (lockSystem.step (lockSystem.run (Pool.start .new) acts) act).world.locks.lookup name =
        some lock' := by
  have hinv := locker_run acts hcount
  generalize lockSystem.run (Pool.start .new) acts = p at hinv hcount
  constructor
  · intro pre a mid b post x y hlog ha hb hname
    have hx := hinv.issued pre a (mid ++ b :: post) hlog x ha
    have hy := hinv.issued (pre ++ a :: mid) b post (by simp [hlog]) y hb
    have hall : (acquisitions p.log).length =
        (acquisitions pre).length + 1 + (acquisitions mid).length + 1 + (acquisitions post).length := by
      simp [hlog, acquisitions, ha, hb]
      omega
    have hbetween : (acquisitions (pre ++ a :: mid)).length =
        (acquisitions pre).length + 1 + (acquisitions mid).length := by
      simp [acquisitions, ha]
      omega
    refine ⟨by omega, ?_⟩
    intro hrelease hacquire
    have hleases : leases p.log = leases pre ++ .taken x.name x.lock x.now (x.now + x.ttl) ::
        (leases mid ++ .taken x.name y.lock y.now (y.now + y.ttl) :: leases post) := by
      simp [hlog, leases, lease_of_acquisition ha, lease_of_acquisition hb, hname]
    have hguarded := hinv.guarded
    rw [hleases] at hguarded
    have hexpired := hguarded.next (fun z hz => (lease_keeps hrelease hacquire hz).1)
      (fun z hz => (lease_keeps hrelease hacquire hz).2)
    omega
  · intro act ev lock name lock' hlog hrelease hlookup hne
    rcases lockSystem.world_step p act with ⟨-, hl⟩ | ⟨i, clock, -, o, -, -, hw, hl⟩
    · simp [hl] at hlog
    · rw [hl] at hlog
      rw [hw]
      obtain rfl : _ = ev := by simpa using hlog
      obtain rfl : o = .release lock := by simpa [releases] using hrelease
      show (p.world.release lock).locks.lookup name = some lock'
      rw [hinv.lookup_release hcount, if_neg (by simpa [hlookup] using hne), hlookup]

/-- Three calls for one lock of ten seconds. The second finds the first expired and releases;
the third has read its clock before that. -/
def overtaken : List (Act Int LockCall) :=
  [.spawn (.acquire "job" 10), .spawn (.acquire "job" 10), .spawn (.acquire "job" 10),
    .run 0 0, .run 0 0, .run 2 9, .run 1 11, .run 1 11, .spawn (.release 1), .run 3 12, .run 3 12,
    .run 2 12]

theorem locker_excludes_and_fences_overtaken :
    (acquisitions (lockSystem.run (Pool.start .new) overtaken).log).length < 2 ^ 64 ∧
    ∀ pre a mid b post x y,
      (lockSystem.run (Pool.start .new) overtaken).log = pre ++ a :: (mid ++ b :: post) →
      acquisition a = some x → acquisition b = some y → y.name = x.name → x.token < y.token := by
  have hcount : (acquisitions (lockSystem.run (Pool.start .new) overtaken).log).length < 2 ^ 64 := by
    decide
  refine ⟨hcount, ?_⟩
  intro pre a mid b post x y hlog ha hb hname
  exact ((locker_excludes_and_fences overtaken hcount).1 pre a mid b post x y hlog ha hb hname).1

/-- Calls that each find the lock expired at once. -/
def lapsing : Nat → List (Act Int LockCall)
  | 0 => []
  | n + 1 => lapsing n ++ [.spawn (.acquire "job" 0), .run n 0, .run n 0]

/-- After `n` such calls the counter has gone round with the tokens, and the lock is free. -/
structure Lapsed (n : Nat) (p : Pool LockOp.Res InMemoryLocker LockCall Unit) : Prop where
  tokens : (acquisitions p.log).map Acquisition.token = (List.range n).map fun k => (k + 1) % 2 ^ 64
  token : p.world.token = n % 2 ^ 64
  threads : p.threads.length = n
  expired : ∀ lk, p.world.existing "job" = some lk → lk.expires = 0

theorem Lapsed.round {p : Pool LockOp.Res InMemoryLocker LockCall Unit} (h : Lapsed n p) :
    Lapsed (n + 1) (lockSystem.run p [.spawn (.acquire "job" 0), .run n 0, .run n 0]) := by
  have hfree : ((p.world.existing "job").any fun lk => (0 : Int) < lk.expires) = false := by
    cases hex : p.world.existing "job" with
    | none => rfl
    | some lk => simp [h.expired lk hex]
  have hmod : (p.world.token + 1) % 2 ^ 64 = (n + 1) % 2 ^ 64 := by
    rw [h.token]
    omega
  have hrun : lockSystem.run p [.spawn (.acquire "job" 0), .run n 0, .run n 0] =
      ⟨(p.world.acquire "job" 0 0).2, p.threads ++ [⟨.acquire "job" 0, some (.ret ())⟩],
        p.log ++ [⟨n, .nowFn, 0⟩, ⟨n, .acquire "job" 0 0, (p.world.acquire "job" 0 0).1⟩]⟩ := by
    rw [← h.threads]
    simp [System.run, System.step, lockSystem, LockCall.body, acquireBody, Prog.perform,
      InMemoryLocker.exec]
  rw [hrun, InMemoryLocker.acquire_of_free hfree, hmod]
  constructor
  · rw [acquisitions, List.filterMap_append, List.map_append, List.range_succ, List.map_append,
      ← h.tokens]
    rfl
  · rfl
  · simp [h.threads]
  · intro lk hlk
    obtain rfl : _ = lk := by simpa [InMemoryLocker.existing] using hlk
    rfl

theorem lapsing_run (n : Nat) : Lapsed n (lockSystem.run (Pool.start .new) (lapsing n)) := by
  induction n with
  | zero =>
    exact ⟨rfl, rfl, rfl, by simp [lapsing, Pool.start, InMemoryLocker.existing, InMemoryLocker.new]⟩
  | succ n ih =>
    rw [lapsing, System.run_append]
    exact ih.round

theorem lapsing_wraps (hn : 2 ^ 64 ≤ n) :
    ¬((acquisitions (lockSystem.run (Pool.start .new) (lapsing n)).log).map
      Acquisition.token).Pairwise (· < ·) := by
  intro h
  rw [(lapsing_run n).tokens, List.pairwise_iff_getElem] at h
  have hlt := h 0 (2 ^ 64 - 1) (by simp; omega) (by simp; omega) (by omega)
  simp at hlt

/-- The third call acquires at a clock reading at which the first has not expired; and the tokens
start again after 2^64 acquisitions. -/
theorem overtaken_acquires_early :
    ((lockSystem.run (Pool.start .new) overtaken).log.any (releases 0) = false ∧
      acquisitions (lockSystem.run (Pool.start .new) overtaken).log =
        [⟨"job", 0, 10, 0, 1⟩, ⟨"job", 11, 10, 1, 2⟩, ⟨"job", 9, 10, 2, 3⟩]) ∧
    ¬((acquisitions (lockSystem.run (Pool.start .new) (lapsing (2 ^ 64))).log).map
      Acquisition.token).Pairwise (· < ·) :=
  ⟨⟨by decide, by decide⟩, lapsing_wraps (Nat.le_refl _)⟩

end Scheduling
