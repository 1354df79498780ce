import Velocity.Lib.Steps

/-! Deliveries that wait on timers, at most one for each key (`events/keyed_timers.go`). A section of
the mutex is one step. A timer that has fired is not stopped any more, and claims only the entry of
its own generation. -/

namespace Events

open List

structure Timer (K : Type) where
  gen : Nat
  key : K
  fired : Bool
  deriving DecidableEq

/-- `timers` are armed, or fired and yet to claim; `delivered` is what they claimed, by generation. -/
structure KeyedTimers (K V : Type) where
  gen : Nat := 0
  pending : K → Option (Nat × V) := fun _ => none
  timers : List (Timer K) := []
  delivered : List (Nat × V) := []

inductive Act (K V : Type)
  | schedule (key : K) (update : V → Bool → V)
  | fired (gen : Nat)
  | claim (gen : Nat)
  | cancel (key : K)
  | stopAll

variable {K V : Type}

namespace KeyedTimers

/-- `Stop` of the timers of entries. -/
def stop (s : KeyedTimers K V) [DecidableEq K] (entries : K → Option (Nat × V)) : List (Timer K) :=
  s.timers.filter fun t => t.fired || (entries t.key).map Prod.fst ≠ some t.gen

variable [DecidableEq K]

def only (s : KeyedTimers K V) (key : K) : K → Option (Nat × V) :=
  fun k => if k = key then s.pending k else none

def schedule [Inhabited V] (s : KeyedTimers K V) (key : K) (update : V → Bool → V) : KeyedTimers K V :=
  let prev := s.pending key
  let value := update (prev.elim default Prod.snd) prev.isSome
  let gen := (s.gen + 1) % 2 ^ 64
  { s with
    gen
    pending := Function.update s.pending key (some (gen, value))
    timers := ⟨gen, key, false⟩ :: s.stop (s.only key) }

/-- The callback of a timer, up to `fire`. -/
def claim (s : KeyedTimers K V) (t : Timer K) : KeyedTimers K V :=
  let timers := s.timers.erase t
  match s.pending t.key with
  | none => { s with timers }
  | some (gen, value) =>
    if gen ≠ t.gen then { s with timers }
    else { s with
      pending := Function.update s.pending t.key none
      timers
      delivered := s.delivered ++ [(gen, value)] }

def step [Inhabited V] (s : KeyedTimers K V) : Act K V → KeyedTimers K V
  | .schedule key update => s.schedule key update
  | .fired gen =>
    { s with timers := s.timers.map fun t => if t.gen = gen then { t with fired := true } else t }
  | .claim gen => (s.timers.find? fun t => t.fired && t.gen = gen).elim s s.claim
  | .cancel key =>
    { s with pending := Function.update s.pending key none, timers := s.stop (s.only key) }
  | .stopAll => { s with pending := fun _ => none, timers := s.stop s.pending }

/-- The generations of the timers and of what was delivered. -/
def gens (s : KeyedTimers K V) : List Nat := s.timers.map Timer.gen ++ s.delivered.map Prod.fst

theorem stop_gens (s : KeyedTimers K V) (entries : K → Option (Nat × V)) :
    ((s.stop entries).map Timer.gen ++ s.delivered.map Prod.fst).Sublist s.gens :=
  (filter_sublist.map _).append_right _

/-- What a claim takes is the pending entry of the timer's generation, if there is one. -/
theorem claim_cases (s : KeyedTimers K V) (t : Timer K) :
    (∃ value, s.pending t.key = some (t.gen, value) ∧ s.claim t = { s with
      pending := Function.update s.pending t.key none, timers := s.timers.erase t
      delivered := s.delivered ++ [(t.gen, value)] }) ∨
    (∀ value, s.pending t.key ≠ some (t.gen, value)) ∧
      s.claim t = { s with timers := s.timers.erase t } := by
  cases hp : s.pending t.key with
  | none => exact .inr ⟨nofun, by simp [claim, hp]⟩
  | some e =>
    obtain ⟨gen, value⟩ := e
    by_cases hgen : gen = t.gen
    · exact .inl ⟨value, by rw [hgen], by simp [claim, hp, hgen]⟩
    · exact .inr ⟨by simp [hgen], by simp [claim, hp, hgen]⟩

end KeyedTimers

variable [DecidableEq K] [Inhabited V]

def Act.affects (key : K) : Act K V → Prop
  | .schedule k _ | .cancel k => k = key
  | .stopAll => True
  | _ => False

abbrev run (acts : List (Act K V)) : KeyedTimers K V := Steps.run KeyedTimers.step {} acts

/-- What the update of a call makes of the value that waits for its key. -/
def updated (acts : List (Act K V)) (key : K) (update : V → Bool → V) : V :=
  match (run acts).pending key with
  | none => update default false
  | some (_, old) => update old true

/-- The value of the call that took the generation, with nothing behind it that concerns its key. -/
def Latest (acts : List (Act K V)) (key : K) (gen : Nat) (value : V) : Prop :=
  ∃ before update later, acts = before ++ .schedule key update :: later ∧
    gen = (run before).gen + 1 ∧ value = updated before key update ∧ ∀ a ∈ later, ¬a.affects key

variable {acts : List (Act K V)} {s s' : KeyedTimers K V} {key k : K} {gen : Nat} {value : V}
  {a : Act K V} {t : Timer K}

theorem Latest.concat (h : Latest acts key gen value) (ha : ¬a.affects key) :
    Latest (acts ++ [a]) key gen value := by
  obtain ⟨before, update, later, rfl, hgen, hvalue, hlater⟩ := h
  refine ⟨before, update, later ++ [a], by simp, hgen, hvalue, ?_⟩
  intro b hb
  rcases mem_append.mp hb with hb | hb
  · exact hlater b hb
  · exact mem_singleton.mp hb ▸ ha

structure Inv (acts : List (Act K V)) (s : KeyedTimers K V) : Prop where
  entry : ∀ key gen value, s.pending key = some (gen, value) →
    Latest acts key gen value ∧ ∃ t ∈ s.timers, t.gen = gen ∧ t.key = key
  nodup : s.gens.Nodup
  le : ∀ n ∈ s.gens, n ≤ s.gen
  count : s.gen ≤ acts.length

/-- Entries go, and each that stays keeps its timer. -/
theorem Inv.shrink (h : Inv acts s) (hgen : s'.gen = s.gen) (hgens : s'.gens.Subperm s.gens)
    (hentry : ∀ key gen value, s'.pending key = some (gen, value) → ¬a.affects key ∧
      s.pending key = some (gen, value) ∧ ∃ t ∈ s'.timers, t.gen = gen ∧ t.key = key) :
    Inv (acts ++ [a]) s' := by
  obtain ⟨l, hperm, hsub⟩ := hgens
  constructor
  · intro key gen value hp
    obtain ⟨ha, hs, ht⟩ := hentry key gen value hp
    exact ⟨(h.entry key gen value hs).1.concat ha, ht⟩
  · exact hperm.nodup_iff.mp (hsub.nodup h.nodup)
  · intro n hn
    rw [hgen]
    exact h.le n (hsub.subset (hperm.symm.subset hn))
  · rw [hgen, length_append]
    exact h.count.trans (Nat.le_add_right _ _)

theorem Inv.timer_stop (h : Inv acts s) (hp : s.pending k = some (gen, value)) (hk : k ≠ key) :
    ∃ t ∈ s.stop (s.only key), t.gen = gen ∧ t.key = k := by
  obtain ⟨-, t, ht, hgen, rfl⟩ := h.entry k gen value hp
  have hnone : s.only key t.key = none := if_neg hk
  exact ⟨t, mem_filter.mpr ⟨ht, by simp [hnone]⟩, hgen, rfl⟩

theorem schedule_eq (hlt : (run acts).gen + 1 < 2 ^ 64) (key : K) (update : V → Bool → V) :
    (run acts).schedule key update = { run acts with
      gen := (run acts).gen + 1
      pending := Function.update (run acts).pending key
        (some ((run acts).gen + 1, updated acts key update))
      timers := ⟨(run acts).gen + 1, key, false⟩ :: (run acts).stop ((run acts).only key) } := by
  simp only [KeyedTimers.schedule, Nat.mod_eq_of_lt hlt, updated]
  cases (run acts).pending key <;> rfl

theorem Inv.schedule (h : Inv acts (run acts)) (hacts : acts.length + 1 < 2 ^ 64) (key : K)
    (update : V → Bool → V) :
    Inv (acts ++ [.schedule key update]) ((run acts).schedule key update) := by
  have hsub := (run acts).stop_gens ((run acts).only key)
  have hle := fun n hn => h.le n (hsub.subset hn)
  have hcount := h.count
  rw [schedule_eq (by omega)]
  refine ⟨?_, nodup_cons.mpr ⟨fun hmem => ?_, hsub.nodup h.nodup⟩, fun n hn => ?_, ?_⟩
  · intro k gen value hp
    simp only [Function.update_apply] at hp
    split at hp
    case isTrue hk =>
      obtain ⟨rfl, rfl⟩ := Prod.mk.inj (Option.some.inj hp)
      subst hk
      exact ⟨⟨acts, update, [], rfl, rfl, rfl, nofun⟩, _, mem_cons_self, rfl, rfl⟩
    case isFalse hk =>
      obtain ⟨t, ht, htimer⟩ := h.timer_stop hp hk
      exact ⟨(h.entry k gen value hp).1.concat (Ne.symm hk), t, mem_cons_of_mem _ ht, htimer⟩
  · have hbound : (run acts).gen + 1 ≤ (run acts).gen := hle _ hmem
    omega
  · rcases mem_cons.mp hn with rfl | hn
    · exact Nat.le_refl _
    · exact (hle n hn).trans (Nat.le_succ _)
  · rw [length_append]
    exact Nat.succ_le_succ hcount

theorem Inv.claim (h : Inv acts s) (ht : t ∈ s.timers) (n : Nat) :
    Inv (acts ++ [.claim n]) (s.claim t) := by
  have hperm := perm_cons_erase ht
  have hkeep : ∀ k gen value, s.pending k = some (gen, value) → (k = t.key → gen ≠ t.gen) →
      ∃ u ∈ s.timers.erase t, u.gen = gen ∧ u.key = k := by
    intro k gen value hp hne
    obtain ⟨-, u, hu, hgen, hkey⟩ := h.entry k gen value hp
    refine ⟨u, (mem_erase_of_ne ?_).mpr hu, hgen, hkey⟩
    rintro rfl
    exact hne hkey.symm hgen.symm
  rcases s.claim_cases t with ⟨value, hp, hs⟩ | ⟨hnone, hs⟩
  · rw [hs]
    refine h.shrink rfl (Perm.subperm ?_) fun k gen v hk => ?_
    · -- the generation goes from the timers to what was delivered
      have hmoved := perm_append_singleton t.gen ((s.timers.erase t).map Timer.gen ++
        s.delivered.map Prod.fst)
      have hback := ((hperm.map Timer.gen).append_right (s.delivered.map Prod.fst)).symm
      simpa [KeyedTimers.gens] using hmoved.trans hback
    · simp only [Function.update_apply] at hk
      split at hk
      · cases hk
      case isFalse hne => exact ⟨fun ha => ha, hk, hkeep k gen v hk fun he => absurd he hne⟩
  · rw [hs]
    refine h.shrink rfl ?_ fun k gen v hk => ⟨fun ha => ha, hk, hkeep k gen v hk ?_⟩
    · exact ((erase_sublist.map _).append_right _).subperm
    · rintro rfl rfl
      exact hnone v hk

theorem inv_run (hacts : acts.length < 2 ^ 64) : Inv acts (run acts) := by
  induction acts using reverseRecOn with
  | nil => exact ⟨nofun, nodup_nil, nofun, Nat.le_refl 0⟩
  | append_singleton acts a ih =>
    rw [length_append, length_singleton] at hacts
    have ih := ih (by omega)
    rw [run, Steps.run_concat]
    cases a with
    | schedule key update => exact ih.schedule hacts key update
    | fired gen =>
      have hsame : ∀ t : Timer K, (if t.gen = gen then { t with fired := true } else t).gen = t.gen ∧
          (if t.gen = gen then { t with fired := true } else t).key = t.key := by
        intro t
        split <;> exact ⟨rfl, rfl⟩
      refine ih.shrink rfl ?_ fun k gen' value hp => ?_
      · simp [KeyedTimers.step, KeyedTimers.gens, Function.comp_def, hsame, Subperm.refl]
      · obtain ⟨-, t, ht, rfl, rfl⟩ := ih.entry k gen' value hp
        exact ⟨fun ha => ha, hp, _, mem_map_of_mem ht, hsame t⟩
    | claim gen =>
      simp only [KeyedTimers.step]
      cases hfind : (run acts).timers.find? fun t => t.fired && t.gen = gen with
      | none =>
        exact ih.shrink rfl (Subperm.refl _) fun k g v hp => ⟨fun ha => ha, hp, (ih.entry k g v hp).2⟩
      | some t => exact ih.claim (mem_of_find?_eq_some hfind) gen
    | cancel key =>
      refine ih.shrink rfl ((run acts).stop_gens ((run acts).only key)).subperm fun k gen value hp => ?_
      simp only [KeyedTimers.step, Function.update_apply] at hp
      split at hp
      · cases hp
      case isFalse hne => exact ⟨Ne.symm hne, hp, ih.timer_stop hp hne⟩
    | stopAll => exact ih.shrink rfl ((run acts).stop_gens (run acts).pending).subperm nofun

/-- Each scheduled value is delivered at most once, only by a claim before which nothing else
concerned its key since; and every pending entry has one timer of its own generation, armed or fired,
whose claim delivers it once it has fired. -/
theorem keyedTimers_deliver (acts : List (Act K V)) (hacts : acts.length < 2 ^ 64) :
    ((run acts).delivered.map Prod.fst).Nodup ∧
    (∀ past n later gen value, acts = past ++ .claim n :: later →
      (run (past ++ [.claim n])).delivered = (run past).delivered ++ [(gen, value)] →
      ∃ key, Latest past key gen value) ∧
    (∀ past key update later, acts = past ++ .schedule key update :: later →
      (run (past ++ [.schedule key update])).pending key =
        some ((run past).gen + 1, updated past key update)) ∧
    ∀ key gen value, (run acts).pending key = some (gen, value) →
      ∃ fired, (run acts).timers.filter (·.gen = gen) = [⟨gen, key, fired⟩] ∧
        (fired = true →
          (run (acts ++ [.claim gen])).delivered = (run acts).delivered ++ [(gen, value)] ∧
          (run (acts ++ [.claim gen])).pending key = none) := by
  have hinv := inv_run hacts
  obtain ⟨hunique, honce, -⟩ := nodup_append.mp hinv.nodup
  refine ⟨honce, ?_, ?_, ?_⟩
  · intro past n later gen value hpast hclaim
    have hinv : Inv past (run past) := inv_run (by rw [hpast, length_append] at hacts; omega)
    rw [run, Steps.run_concat] at hclaim
    simp only [KeyedTimers.step] at hclaim
    cases hfind : (run past).timers.find? fun t => t.fired && t.gen = n with
    | none => simp [hfind] at hclaim
    | some t =>
      rw [hfind, Option.elim_some] at hclaim
      rcases (run past).claim_cases t with ⟨v, hp, hs⟩ | ⟨-, hs⟩
      · rw [hs] at hclaim
        obtain ⟨rfl, rfl⟩ : t.gen = gen ∧ v = value := by simpa using hclaim
        exact ⟨t.key, (hinv.entry _ _ _ hp).1⟩
      · simp [hs] at hclaim
  · intro past key update later hpast
    rw [hpast, length_append, length_cons] at hacts
    have hcount := Inv.count (inv_run (show past.length < _ by omega))
    rw [run, Steps.run_concat, KeyedTimers.step, schedule_eq (by omega)]
    exact Function.update_self ..
  · intro key gen value hp
    obtain ⟨-, t, ht, rfl, rfl⟩ := hinv.entry key gen value hp
    have hone : (run acts).timers.filter (·.gen = t.gen) = [t] := ?_
    refine ⟨t.fired, hone, fun hfired => ?_⟩
    · have hfind : (run acts).timers.find? (fun u => u.fired && u.gen = t.gen) = some t := by
        rw [← head?_filter, ← filter_filter, hone, filter_cons_of_pos hfired]
        rfl
      rw [run, Steps.run_concat, KeyedTimers.step, hfind, Option.elim_some]
      rcases (run acts).claim_cases t with ⟨v, hv, hs⟩ | ⟨hnone, -⟩
      · rw [hp] at hv
        cases hv
        simp [hs]
      · exact absurd hp (hnone value)
    obtain ⟨front, back, hsplit⟩ := append_of_mem ht
    rw [hsplit, map_append, map_cons, nodup_middle, ← map_append] at hunique
    have hother : ∀ u ∈ front ++ back, ¬u.gen = t.gen := by
      intro u hu hgen
      exact (nodup_cons.mp hunique).1 (hgen ▸ mem_map_of_mem hu)
    have hnone : (front ++ back).filter (·.gen = t.gen) = [] := by
      rw [filter_eq_nil_iff]
      intro u hu
      simpa using hother u hu
    rw [filter_append, append_eq_nil_iff] at hnone
    rw [hsplit, filter_append, filter_cons_of_pos (by simp), hnone.1, hnone.2]
    rfl

/-- The first timer has fired when its entry is replaced, and claims nothing. -/
def burst : List (Act Nat Nat) :=
  [.schedule 1 fun _ _ => 7, .fired 1, .schedule 1 fun old _ => old + 1, .claim 1, .fired 2]

theorem keyedTimers_deliver_burst :
    ∃ fired, (run burst).timers.filter (·.gen = 2) = [⟨2, 1, fired⟩] ∧ (fired = true →
      (run (burst ++ [.claim 2])).delivered = (run burst).delivered ++ [(2, 8)] ∧
      (run (burst ++ [.claim 2])).pending 1 = none) :=
  (keyedTimers_deliver burst (by decide)).2.2.2 1 2 8 rfl

end Events
