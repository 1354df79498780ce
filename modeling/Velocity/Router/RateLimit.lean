import Velocity.Lib.Bytes
import Velocity.Lib.Steps
import Mathlib.Data.List.MinMax

/-! The limiters of the keyed rate limiter, one for each key, and the eviction that bounds them. -/

namespace Router

/-- The last access of another key says nothing. -/
structure Limiters where
  keys : Finset Bytes
  lastAccess : Bytes → Int

def maxRateLimitEntries : Nat := 100000

namespace Limiters

open Finset

/-- The keys in the order of one iteration over the map, which is any. -/
def iteration (m : Limiters) (order : List Bytes) : List Bytes :=
  if order.Nodup ∧ order.toFinset = m.keys then order else m.keys.sort (· ≤ ·)

/-- The first key, and then each that was accessed earlier than the one so far. -/
def oldest (m : Limiters) (keys : List Bytes) : Option Bytes :=
  keys.foldl (List.argAux fun key old => m.lastAccess key < m.lastAccess old) none

/-- The empty key stands for none. -/
def evictOldest (m : Limiters) (order : List Bytes) : Limiters :=
  let oldestKey := (m.oldest (m.iteration order)).getD []
  if oldestKey ≠ [] then { m with keys := m.keys.erase oldestKey } else m

def store (m : Limiters) (key : Bytes) (now : Int) : Limiters :=
  ⟨insert key m.keys, Function.update m.lastAccess key now⟩

def getLimiter (m : Limiters) (now : Int) (order : List Bytes) (key : Bytes) : Limiters :=
  if key ∈ m.keys then m.store key now
  else if maxRateLimitEntries ≤ m.keys.card then (m.evictOldest order).store key now
  else m.store key now

def cleanup (m : Limiters) (window now : Int) : Limiters :=
  { m with keys := m.keys.filter fun key => now - m.lastAccess key ≤ window * 2 }

inductive Call
  | getLimiter (now : Int) (order : List Bytes) (key : Bytes)
  | cleanup (now : Int)

def step (window : Int) (m : Limiters) : Call → Limiters
  | .getLimiter now order key => m.getLimiter now order key
  | .cleanup now => m.cleanup window now

/-- A new key that comes to a full map does not find the empty key the oldest. -/
def Evictable (m : Limiters) : Call → Prop
  | .getLimiter _ _ key => key ∉ m.keys → maxRateLimitEntries ≤ m.keys.card → [] ∈ m.keys →
    ∃ k ∈ m.keys, m.lastAccess k < m.lastAccess []
  | .cleanup _ => True

variable {m : Limiters} {window : Int}

theorem exists_oldest (hne : m.keys.Nonempty) (order : List Bytes) :
    ∃ k ∈ m.keys, m.oldest (m.iteration order) = some k ∧
      ∀ k' ∈ m.keys, m.lastAccess k ≤ m.lastAccess k' := by
  have hmem : ∀ k, k ∈ m.iteration order ↔ k ∈ m.keys := by
    intro k
    unfold iteration
    split
    case isTrue horder => rw [← horder.2, List.mem_toFinset]
    case isFalse => exact mem_sort _
  have hargmin : m.oldest (m.iteration order) = (m.iteration order).argmin m.lastAccess := rfl
  rw [hargmin]
  cases hscan : (m.iteration order).argmin m.lastAccess with
  | none =>
    obtain ⟨k, hk⟩ := hne
    rw [← hmem, List.argmin_eq_none.mp hscan] at hk
    cases hk
  | some k =>
    refine ⟨k, (hmem k).mp (List.argmin_mem hscan), rfl, ?_⟩
    intro k' hk'
    exact List.le_of_mem_argmin ((hmem k').mpr hk') hscan

theorem card_evictOldest (hne : m.keys.Nonempty) (order : List Bytes)
    (h : [] ∈ m.keys → ∃ k ∈ m.keys, m.lastAccess k < m.lastAccess []) :
    (m.evictOldest order).keys.card + 1 = m.keys.card := by
  obtain ⟨k, hk, hscan, hleast⟩ := exists_oldest hne order
  have hsome : k ≠ [] := by
    rintro rfl
    obtain ⟨k', hk', hlt⟩ := h hk
    have hle := hleast k' hk'
    omega
  simp only [evictOldest, hscan, Option.getD_some, if_pos hsome]
  exact card_erase_add_one hk

theorem mem_getLimiter (m : Limiters) (now : Int) (order : List Bytes) (key : Bytes) :
    key ∈ (m.getLimiter now order key).keys := by
  unfold getLimiter
  split
  · exact mem_insert_self _ _
  · split <;> exact mem_insert_self _ _

theorem step_bounded {c : Call} (h : m.keys.card ≤ maxRateLimitEntries) (hc : Evictable m c) :
    (step window m c).keys.card ≤ maxRateLimitEntries := by
  cases c with
  | cleanup now => exact (card_filter_le _ _).trans h
  | getLimiter now order key =>
    simp only [step, getLimiter]
    split
    case isTrue hkey =>
      simp only [store, insert_eq_of_mem hkey]
      exact h
    case isFalse hkey =>
      split
      case isTrue hfull =>
        have hne : m.keys.Nonempty := card_pos.mp (lt_of_lt_of_le (by decide) hfull)
        have hevict := card_evictOldest hne order (hc hkey hfull)
        have hadded := card_insert_le key (m.evictOldest order).keys
        simp only [store]
        omega
      case isFalse hroom =>
        have hadded := card_insert_le key m.keys
        simp only [store]
        omega

/-- As long as a full map does not find the empty key the oldest. -/
theorem limiters_bounded (window : Int) (lastAccess : Bytes → Int) (calls : List Call)
    (h : ∀ x ∈ Steps.steps (step window) ⟨∅, lastAccess⟩ calls, Evictable x.1 x.2) :
    (Steps.run (step window) ⟨∅, lastAccess⟩ calls).keys.card ≤ maxRateLimitEntries ∧
      ∀ (m : Limiters) now order key, key ∈ (m.getLimiter now order key).keys := by
  have hrun := Steps.invariant (I := fun (m : Limiters) _ => m.keys.card ≤ maxRateLimitEntries)
    (fun _ _ _ hm hc => step_bounded hm hc) (Nat.zero_le _) h
  exact ⟨hrun, mem_getLimiter⟩

variable {key : Nat → Bytes} {n : Nat}

/-- A new key at each time. -/
def visit (key : Nat → Bytes) (i : Nat) : Call := .getLimiter i [] (key i)

structure Visited (key : Nat → Bytes) (m : Limiters) (n : Nat) : Prop where
  keys : m.keys = (range n).image key
  last : ∀ i < n, m.lastAccess (key i) = i

theorem Visited.card (hkey : key.Injective) (h : Visited key m n) : m.keys.card = n := by
  rw [h.keys, card_image_of_injective _ hkey, card_range]

theorem Visited.next (hkey : key.Injective) (h : Visited key m n)
    (hroom : n < maxRateLimitEntries ∨ m.evictOldest [] = m) :
    Visited key (step window m (visit key n)) (n + 1) := by
  have hnew : ∀ i < n, key i ≠ key n := fun i hi heq => by
    have hsame := hkey heq
    omega
  have hstored : step window m (visit key n) = m.store (key n) n := by
    have hfresh : key n ∉ m.keys := by
      rw [h.keys]
      simpa using hnew
    simp only [step, visit, getLimiter, if_neg hfresh, h.card hkey]
    split
    case isTrue hfull => rw [hroom.resolve_left (by omega)]
    case isFalse => rfl
  rw [hstored]
  constructor
  · simp only [store, h.keys, range_add_one, image_insert]
  · intro i hi
    by_cases hin : i = n
    · simp [store, hin]
    · have hlt : i < n := by omega
      simp only [store, Function.update_of_ne (hnew i hlt), h.last i hlt]

theorem visited_run (window : Int) (hkey : key.Injective) (hn : n ≤ maxRateLimitEntries) :
    Visited key (Steps.run (step window) ⟨∅, fun _ => 0⟩ ((List.range n).map (visit key))) n := by
  induction n with
  | zero => exact ⟨rfl, nofun⟩
  | succ n ih =>
    rw [List.range_succ, List.map_append, List.map_singleton, Steps.run_concat]
    exact (ih (by omega)).next hkey (.inl hn)

/-- "a" comes first, then "", "aa", "aaa" and so on. -/
def fromA (i : Nat) : Bytes := List.replicate (Equiv.swap 0 1 i) 97

theorem fromA_injective : fromA.Injective :=
  (List.replicate_left_injective 97).comp (Equiv.swap 0 1).injective

/-- The last key finds the map full, and "a" gives way to it. -/
theorem limiters_bounded_full : (Steps.run (step 60) ⟨∅, fun _ => 0⟩
    ((List.range (maxRateLimitEntries + 1)).map (visit fromA))).keys.card ≤ maxRateLimitEntries := by
  refine (limiters_bounded 60 _ _ ?_).1
  suffices hall : ∀ n ≤ maxRateLimitEntries + 1, ∀ x ∈ Steps.steps (step 60) ⟨∅, fun _ => 0⟩
      ((List.range n).map (visit fromA)), Evictable x.1 x.2 from hall _ le_rfl
  intro n
  induction n with
  | zero => exact nofun
  | succ n ih =>
    intro hn x hx
    rw [List.range_succ, List.map_append, List.map_singleton, Steps.steps_concat] at hx
    rcases List.mem_append.mp hx with hx | hx
    · exact ih (by omega) x hx
    · have hvisited := visited_run 60 fromA_injective (Nat.le_of_succ_le_succ hn)
      rw [List.mem_singleton.mp hx]
      intro _ hfull _
      rw [hvisited.card fromA_injective, maxRateLimitEntries] at hfull
      refine ⟨fromA 0, ?_, ?_⟩
      · rw [hvisited.keys]
        exact mem_image_of_mem _ (mem_range.mpr (by omega))
      · rw [hvisited.last 0 (by omega), show ([] : Bytes) = fromA 1 from rfl,
          hvisited.last 1 (by omega)]
        decide

/-- The empty key, the oldest, is what `oldestKey` starts from. -/
theorem Visited.evictOldest (h : Visited (List.replicate · 97) m n) (hn : 0 < n) :
    m.evictOldest [] = m := by
  have hmem : [] ∈ m.keys := by
    rw [h.keys]
    exact mem_image.mpr ⟨0, mem_range.mpr hn, rfl⟩
  obtain ⟨k, hk, hscan, hleast⟩ := exists_oldest ⟨[], hmem⟩ []
  have hle := hleast [] hmem
  rw [h.keys] at hk
  obtain ⟨i, hi, rfl⟩ := mem_image.mp hk
  rw [h.last i (mem_range.mp hi), show m.lastAccess [] = 0 from h.last 0 hn] at hle
  obtain rfl : i = 0 := by omega
  simp [Limiters.evictOldest, hscan]

/-- The keys are "", "a", "aa" and so on. The empty key is the oldest of the 100000, so that no entry
goes for the next key. -/
theorem empty_key_not_evicted : (Steps.run (step 60) ⟨∅, fun _ => 0⟩
    ((List.range (maxRateLimitEntries + 1)).map (visit (List.replicate · 97)))).keys.card =
      maxRateLimitEntries + 1 := by
  have hkey := List.replicate_left_injective (97 : Byte)
  rw [List.range_succ, List.map_append, List.map_singleton, Steps.run_concat]
  have hvisited := visited_run 60 hkey le_rfl
  exact (hvisited.next hkey (.inr (hvisited.evictOldest (Nat.succ_pos _)))).card hkey

end Limiters

end Router
