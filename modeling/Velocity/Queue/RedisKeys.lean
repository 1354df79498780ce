import Velocity.Lib.Bytes

/-! The keys of the Redis driver. Four families share one Redis keyspace, and the names they are
made of are any byte strings. -/

namespace Velocity.Queue

open List

def getQueueKey (name : Bytes) : Bytes := .ascii "velocity:queue:" ++ name

def getDelayedKey (name : Bytes) : Bytes :=
  .ascii "velocity:queue:" ++ name ++ .ascii ":delayed"

def getFailedKey (name : Bytes) : Bytes :=
  .ascii "velocity:queue:" ++ name ++ .ascii ":failed"

def getDedupeKey (dedupeKey : Bytes) : Bytes := .ascii "velocity:queue:dedupe:" ++ dedupeKey

/-- What the driver keeps in Redis. -/
inductive RedisSlot
  | list (name : Bytes)
  | delayed (name : Bytes)
  | failed (name : Bytes)
  | sentinel (dedupeKey : Bytes)
  deriving DecidableEq

def RedisSlot.key : RedisSlot → Bytes
  | .list name => getQueueKey name
  | .delayed name => getDelayedKey name
  | .failed name => getFailedKey name
  | .sentinel dedupeKey => getDedupeKey dedupeKey

inductive KeyedCall
  | pushCtx (name : Bytes)
  | pushDelayedCtx (name : Bytes)
  | popCtx (name : Bytes)
  | size (name : Bytes)
  | clear (name : Bytes)
  | failedCtx (name : Bytes)
  | pushIfNotExistsCtx (dedupeKey name : Bytes)

/-- What a call's commands are issued on. A pop moves delayed jobs first, and keeps a poisoned
payload. -/
def KeyedCall.slots : KeyedCall → List RedisSlot
  | .pushCtx name => [.list name]
  | .pushDelayedCtx name => [.delayed name]
  | .popCtx name => [.delayed name, .list name, .failed name]
  | .size name => [.list name, .delayed name]
  | .clear name => [.list name, .delayed name, .failed name]
  | .failedCtx name => [.failed name]
  | .pushIfNotExistsCtx dedupeKey name =>
    if dedupeKey = [] then [.list name] else [.sentinel dedupeKey, .list name]

def KeyedCall.keys (c : KeyedCall) : List Bytes := c.slots.map RedisSlot.key

/-- The slots of the queues `Names` and of the dedupe keys `Keys`. -/
def InUse (Names Keys : Set Bytes) : RedisSlot → Prop
  | .list name | .delayed name | .failed name => name ∈ Names
  | .sentinel dedupeKey => dedupeKey ∈ Keys

/-- No two slots have one key, and a call names no key of a slot that is not its own. -/
structure Separate (Names Keys : Set Bytes) : Prop where
  keys : ∀ s s', InUse Names Keys s → InUse Names Keys s' → s.key = s'.key → s = s'
  calls : ∀ c : KeyedCall, (∀ s ∈ c.slots, InUse Names Keys s) → ∀ s, InUse Names Keys s →
    s.key ∈ c.keys → s ∈ c.slots

/-- No name is another with a family's ending, or looks like a dedupe key in use. -/
structure Unambiguous (Names Keys : Set Bytes) : Prop where
  delayed : ∀ n ∈ Names, ∀ m ∈ Names, n ≠ m ++ .ascii ":delayed"
  failed : ∀ n ∈ Names, ∀ m ∈ Names, n ≠ m ++ .ascii ":failed"
  sentinel : ∀ n ∈ Names, ∀ k ∈ Keys, n ≠ .ascii "dedupe:" ++ k ∧
    n ++ .ascii ":delayed" ≠ .ascii "dedupe:" ++ k ∧ n ++ .ascii ":failed" ≠ .ascii "dedupe:" ++ k

def RedisSlot.rest : RedisSlot → Bytes
  | .list name => name
  | .delayed name => name ++ .ascii ":delayed"
  | .failed name => name ++ .ascii ":failed"
  | .sentinel dedupeKey => .ascii "dedupe:" ++ dedupeKey

theorem RedisSlot.key_eq (s : RedisSlot) : s.key = .ascii "velocity:queue:" ++ s.rest := by
  cases s with
  | sentinel dedupeKey => rfl
  | _ => simp only [key, getQueueKey, getDelayedKey, getFailedKey, rest, append_assoc]

theorem delayed_ne_failed (n m : Bytes) : n ++ .ascii ":delayed" ≠ m ++ .ascii ":failed" := by
  intro h
  have hsplit : Bytes.ascii ":delayed" = .ascii ":" ++ .ascii "delayed" := rfl
  rw [hsplit, ← append_assoc] at h
  exact absurd (append_inj_right' h rfl) (by decide)

theorem separate_iff (Names Keys : Set Bytes) : Separate Names Keys ↔ Unambiguous Names Keys := by
  constructor
  · intro h
    have hrest (s s' : RedisSlot) (hs : InUse Names Keys s) (hs' : InUse Names Keys s')
        (hne : s ≠ s') : s.rest ≠ s'.rest := by
      intro hsame
      apply hne
      apply h.keys s s' hs hs'
      rw [s.key_eq, s'.key_eq, hsame]
    exact {
      delayed n hn m hm := hrest (.list n) (.delayed m) hn hm (by simp)
      failed n hn m hm := hrest (.list n) (.failed m) hn hm (by simp)
      sentinel n hn k hk := ⟨hrest (.list n) (.sentinel k) hn hk (by simp),
        hrest (.delayed n) (.sentinel k) hn hk (by simp),
        hrest (.failed n) (.sentinel k) hn hk (by simp)⟩ }
  · intro h
    have hkeys : ∀ s s', InUse Names Keys s → InUse Names Keys s' → s.key = s'.key → s = s' := by
      intro s s' hs hs' hkey
      rw [s.key_eq, s'.key_eq, append_cancel_left_eq] at hkey
      have hdelayed := h.delayed
      have hfailed := h.failed
      have hsentinel := h.sentinel
      cases s <;> cases s' <;> simp only [RedisSlot.rest, InUse, append_cancel_left_eq,
        append_cancel_right_eq] at hkey hs hs'
      all_goals grind [delayed_ne_failed]
    refine ⟨hkeys, ?_⟩
    intro c hc s hs hmem
    obtain ⟨s', hs', hkey⟩ := mem_map.mp hmem
    rwa [hkeys s s' hs (hc s' hs') hkey.symm]

/-- Clearing the queue "a" deletes the queue "a:failed", and a queue takes a sentinel's key. -/
theorem queues_share_keys :
    getQueueKey (.ascii "a:failed") ∈ (KeyedCall.clear (.ascii "a")).keys ∧
      getQueueKey (.ascii "a:delayed") = getDelayedKey (.ascii "a") ∧
      getQueueKey (.ascii "dedupe:k") = getDedupeKey (.ascii "k") := by
  decide

end Velocity.Queue
