import Velocity.Lib.Steps
import Velocity.Scheduler.Expression

/-! The ticks of the scheduler: which jobs each of them dispatches, and the wall clock minute
that a job remembers between them. -/

namespace Scheduling

open List

/-- The minute on the wall clock, counted from 1970-01-01T00:00. -/
def localMinute (zone : Int → Int) (t : Int) : Int := (t + zone t) / 60

variable {zone : Int → Int}

theorem wallTime_congr {t t' : Int}
    (h : localMinute zone t = localMinute zone t') : wallTime zone t = wallTime zone t' := by
  unfold localMinute at h
  have hday : (t + zone t) / 86400 = (t' + zone t') / 86400 := by omega
  have hhour : (t + zone t) % 86400 / 3600 = (t' + zone t') % 86400 / 3600 := by omega
  have hminute : (t + zone t) % 86400 % 3600 / 60 = (t' + zone t') % 86400 % 3600 / 60 := by omega
  simp only [wallTime, hday, hhour, hminute]

def pad (width : Nat) (x : Int) : Bytes :=
  let digits := Decimal.formatNat x.natAbs
  (if x < 0 then [Byte.of '-'] else []) ++ List.replicate (width - digits.length) (Byte.of '0') ++ digits

def wallMinuteKey (t : WallTime) : Bytes :=
  pad 4 t.year ++ [Byte.of '-'] ++ pad 2 t.month ++ [Byte.of '-'] ++ pad 2 t.day ++
    [Byte.of 'T'] ++ pad 2 t.hour ++ [Byte.of ':'] ++ pad 2 t.minute

theorem wallMinuteKey_ne_nil (t : WallTime) : wallMinuteKey t ≠ [] := by
  simp [wallMinuteKey]

structure Job where
  schedule : Schedule
  withoutOverlapping : Bool
  onOneServer : Bool
  evenInMaintenanceMode : Bool
  hasWhen : Bool
  hasSkip : Bool
  between : Bytes × Bytes
  unlessBetween : Bytes × Bytes
  environments : List Bytes
  lastFiredWallMinute : Bytes

structure Conditions where
  running : Bool
  /-- What the `When` callback returns, nothing if it panics. -/
  when : Option Bool
  /-- What the `Skip` callback returns, nothing if it panics. -/
  skip : Option Bool
  /-- Hours and minutes in the job's own zone. -/
  clock : Bytes
  env : Bytes
  oneServerLock : Bool
  overlapLock : Bool

structure Tick where
  /-- A run that is stopping admits no tick. -/
  admitted : Bool
  now : Int
  maintenance : Bool
  conditions : Nat → Conditions

def withinDailyRange (now start stop : Bytes) : Bool :=
  if start ≤ stop then start ≤ now ∧ now ≤ stop else start ≤ now ∨ now ≤ stop

def Job.isDue (job : Job) (t : WallTime) : Bool := job.schedule.isDue t

def Job.shouldRun (job : Job) (c : Conditions) : Bool :=
  if job.withoutOverlapping && c.running then false
  else if job.hasWhen && c.when != some true then false
  else if job.hasSkip && c.skip != some false then false
  else if (job.between.1 ≠ [] ∧ job.between.2 ≠ []) ∧
      withinDailyRange c.clock job.between.1 job.between.2 = false then false
  else if (job.unlessBetween.1 ≠ [] ∧ job.unlessBetween.2 ≠ []) ∧
      withinDailyRange c.clock job.unlessBetween.1 job.unlessBetween.2 = true then false
  else if job.environments ≠ [] ∧ c.env ∉ job.environments then false
  else true

def Job.alreadyFiredAt (job : Job) (t : WallTime) : Bool :=
  job.lastFiredWallMinute ≠ [] ∧ job.lastFiredWallMinute = wallMinuteKey t

def Job.markFired (job : Job) (t : WallTime) : Job :=
  { job with lastFiredWallMinute := wallMinuteKey t }

/-- One round of the loop over the jobs, and whether it dispatches the job. -/
def Job.tick (zone : Int → Int) (locker : Bool) (t : Tick) (i : Nat) (job : Job) : Job × Bool :=
  let now := wallTime zone t.now
  let c := t.conditions i
  if !(job.isDue now && job.shouldRun c) then (job, false)
  else if job.alreadyFiredAt now then (job, false)
  else
    let job := job.markFired now
    if t.maintenance && !job.evenInMaintenanceMode then (job, false)
    else if job.onOneServer && locker && !c.oneServerLock then (job, false)
    else if job.withoutOverlapping && locker && !c.overlapLock then (job, false)
    else (job, true)

structure Scheduler where
  zone : Int → Int
  locker : Bool
  jobs : List Job

/-- The loop from a position on: the jobs after it, and the positions of those dispatched. -/
def Scheduler.tickJobs (s : Scheduler) (t : Tick) : Nat → List Job → List Job × List Nat
  | _, [] => ([], [])
  | i, job :: jobs =>
    let r := job.tick s.zone s.locker t i
    let rest := s.tickJobs t (i + 1) jobs
    (r.1 :: rest.1, if r.2 then i :: rest.2 else rest.2)

def Scheduler.tick (s : Scheduler) (t : Tick) : Scheduler × List Nat :=
  if t.admitted then
    let r := s.tickJobs t 0 s.jobs
    ({ s with jobs := r.1 }, r.2)
  else (s, [])

/-- A tick after others, with the dispatches so far and their instants. -/
def Scheduler.step (st : Scheduler × List (Nat × Int)) (t : Tick) : Scheduler × List (Nat × Int) :=
  let r := st.1.tick t
  (r.1, st.2 ++ r.2.map fun i => (i, t.now))

def Scheduler.run (s : Scheduler) (ticks : List Tick) : Scheduler × List (Nat × Int) :=
  Steps.run Scheduler.step (s, []) ticks

def Scheduler.dispatchedMinutes (s : Scheduler) (i : Nat) (ticks : List Tick) : List Int :=
  ((s.run ticks).2.filter fun d => d.1 = i).map fun d => localMinute s.zone d.2

/-- Whether a tick finds the job due and free to run, whatever it remembers. -/
def Job.passes (zone : Int → Int) (i : Nat) (job : Job) (t : Tick) : Bool :=
  t.admitted && (job.isDue (wallTime zone t.now) && job.shouldRun (t.conditions i))

def Job.dueMinutes (zone : Int → Int) (i : Nat) (job : Job) (ticks : List Tick) : List Int :=
  (ticks.filter (job.passes zone i)).map fun t => localMinute zone t.now

theorem Job.dueMinutes_concat (zone : Int → Int) (i : Nat) (job : Job) (ticks : List Tick)
    (t : Tick) : job.dueMinutes zone i (ticks ++ [t]) = job.dueMinutes zone i ticks ++
        if job.passes zone i t then [localMinute zone t.now] else [] := by
  by_cases h : job.passes zone i t <;> simp [dueMinutes, h]

theorem Job.tick_cases (zone : Int → Int) (locker : Bool) (t : Tick) (i : Nat) (job : Job)
    (hadm : t.admitted = true) :
    (job.passes zone i t = false ∧ job.tick zone locker t i = (job, false)) ∨
    (job.passes zone i t = true ∧ job.lastFiredWallMinute = wallMinuteKey (wallTime zone t.now) ∧
      job.tick zone locker t i = (job, false)) ∨ (job.passes zone i t = true ∧
      job.lastFiredWallMinute ≠ wallMinuteKey (wallTime zone t.now) ∧
      ∃ fired, job.tick zone locker t i = (job.markFired (wallTime zone t.now), fired)) := by
  by_cases hpass : (job.isDue (wallTime zone t.now) && job.shouldRun (t.conditions i)) = true
  · right
    have hp : job.passes zone i t = true := by simp only [passes, hadm, hpass, Bool.and_self]
    by_cases hlast : job.lastFiredWallMinute = wallMinuteKey (wallTime zone t.now)
    · left
      have hfired : job.alreadyFiredAt (wallTime zone t.now) = true := by
        simp [alreadyFiredAt, hlast, wallMinuteKey_ne_nil]
      exact ⟨hp, hlast, by simp [tick, hpass, hfired]⟩
    · right
      have hfired : job.alreadyFiredAt (wallTime zone t.now) = false := by
        simp [alreadyFiredAt, hlast]
      simp only [tick, hpass, hfired]
      -- The gates after the mark only decide whether the job is dispatched.
      split_ifs <;> simp_all
  · left
    have hp : job.passes zone i t = false := by simp [passes, hadm, hpass]
    exact ⟨hp, by simp [tick, hpass]⟩

variable (s : Scheduler) {jobs : List Job}

attribute [local simp] Scheduler.tickJobs

theorem Scheduler.tickJobs_getElem? (t : Tick) (n k : Nat) (jobs : List Job) :
    (s.tickJobs t n jobs).1[k]? = jobs[k]?.map fun job => (job.tick s.zone s.locker t (n + k)).1 := by
  induction jobs generalizing n k with
  | nil => simp
  | cons job jobs ih =>
    cases k with
    | zero => simp
    | succ k =>
      have hk : n + 1 + k = n + (k + 1) := by omega
      simp [ih, hk]

theorem Scheduler.le_of_mem_tickJobs (t : Tick) {n m : Nat}
    (h : m ∈ (s.tickJobs t n jobs).2) : n ≤ m := by
  induction jobs generalizing n with
  | nil => simp at h
  | cons job jobs ih =>
    by_cases hfired : (job.tick s.zone s.locker t n).2 = true
    · simp only [tickJobs, hfired, if_true, mem_cons] at h
      rcases h with h | h
      · omega
      · have hh := ih h
        omega
    · simp only [tickJobs, hfired] at h
      have hh := ih h
      omega

variable {job : Job}

theorem Scheduler.filter_tickJobs (t : Tick) (n k : Nat)
    (hjob : jobs[k]? = some job) : ((s.tickJobs t n jobs).2.filter fun m => m = n + k) =
      if (job.tick s.zone s.locker t (n + k)).2 then [n + k] else [] := by
  induction jobs generalizing n k with
  | nil => simp at hjob
  | cons first jobs ih =>
    cases k with
    | zero =>
      have hfirst : first = job := by simpa using hjob
      -- The later positions are all larger.
      have hrest : ((s.tickJobs t (n + 1) jobs).2.filter fun m => m = n) = [] := by
        apply filter_eq_nil_iff.mpr
        intro m hm
        have hle := s.le_of_mem_tickJobs t hm
        simp only [decide_eq_true_eq]
        omega
      subst hfirst
      by_cases hfired : (first.tick s.zone s.locker t n).2 = true <;>
        simp [hfired, hrest]
    | succ k =>
      have hk : n + 1 + k = n + (k + 1) := by omega
      have hh := ih (n + 1) k (by simpa using hjob)
      rw [hk] at hh
      by_cases hfired : (first.tick s.zone s.locker t n).2 = true <;>
        simp [hfired, hh]

variable (ticks : List Tick)

theorem Scheduler.run_concat (t : Tick) : s.run (ticks ++ [t]) = step (s.run ticks) t :=
  Steps.run_concat _ _ _

variable {t : Tick}

attribute [local simp] Scheduler.tick Scheduler.step

theorem Scheduler.run_concat_jobs (hadm : t.admitted = true) :
    (s.run (ticks ++ [t])).1.jobs = ((s.run ticks).1.tickJobs t 0 (s.run ticks).1.jobs).1 := by
  simp [run_concat, hadm]

theorem Scheduler.zone_run : (s.run ticks).1.zone = s.zone := by
  induction ticks using reverseRecOn with
  | nil => rfl
  | append_singleton ticks t ih =>
    rw [run_concat, ← ih]
    by_cases hadm : t.admitted = true <;> simp [hadm]

variable {i : Nat}

attribute [local simp] Scheduler.dispatchedMinutes

theorem Scheduler.dispatchedMinutes_concat
    (hadm : t.admitted = true) (hjob : (s.run ticks).1.jobs[i]? = some job) :
    s.dispatchedMinutes i (ticks ++ [t]) = s.dispatchedMinutes i ticks ++
      if (job.tick s.zone (s.run ticks).1.locker t i).2 then [localMinute s.zone t.now] else [] := by
  have hfilter := (s.run ticks).1.filter_tickJobs t 0 i hjob
  rw [Nat.zero_add, s.zone_run] at hfilter
  have hnew (fired : List Nat) : ((fired.map fun m => (m, t.now)).filter fun d => d.1 = i) =
      (fired.filter fun m => m = i).map fun m => (m, t.now) := by
    rw [filter_map]
    rfl
  have hlog : (s.run (ticks ++ [t])).2 = (s.run ticks).2 ++
      ((s.run ticks).1.tickJobs t 0 (s.run ticks).1.jobs).2.map fun m => (m, t.now) := by
    simp [run_concat, hadm]
  rw [dispatchedMinutes, hlog, filter_append, hnew, hfilter]
  by_cases hfired : (job.tick s.zone (s.run ticks).1.locker t i).2 = true <;>
    simp [hfired]

theorem Scheduler.run_concat_of_not_admitted
    (hadm : t.admitted = false) : s.run (ticks ++ [t]) = s.run ticks := by
  simp [run_concat, hadm]

theorem Job.dueTicks_concat_of_not_passes (h : job.passes zone i t = false) :
    (ticks ++ [t]).filter (job.passes zone i) = ticks.filter (job.passes zone i) := by
  simp [h]

variable {s : Scheduler}

theorem Scheduler.job_run (hjob : s.jobs[i]? = some job) (ticks : List Tick) :
    ∃ last, (s.run ticks).1.jobs[i]? = some { job with lastFiredWallMinute := last } ∧
      ∀ t ∈ (ticks.filter (job.passes s.zone i)).getLast?,
        last = wallMinuteKey (wallTime s.zone t.now) := by
  induction ticks using reverseRecOn with
  | nil => exact ⟨job.lastFiredWallMinute, hjob, by simp⟩
  | append_singleton ticks t ih =>
    obtain ⟨last, hnow, hlast⟩ := ih
    by_cases hadm : t.admitted = true
    · have hnext : (s.run (ticks ++ [t])).1.jobs[i]? = some (Job.tick s.zone (s.run ticks).1.locker
          t i { job with lastFiredWallMinute := last }).1 := by
        rw [s.run_concat_jobs ticks hadm, tickJobs_getElem?, hnow, s.zone_run, Nat.zero_add]
        rfl
      have hcases := Job.tick_cases s.zone (s.run ticks).1.locker t i
        { job with lastFiredWallMinute := last } hadm
      have hsame : ({ job with lastFiredWallMinute := last } : Job).passes s.zone i t =
          job.passes s.zone i t := rfl
      rw [hsame] at hcases
      rcases hcases with ⟨hpass, htick⟩ | ⟨hpass, hkey, htick⟩ | ⟨hpass, -, fired, htick⟩
      · rw [htick] at hnext
        rw [Job.dueTicks_concat_of_not_passes ticks hpass]
        exact ⟨last, hnext, hlast⟩
      · rw [htick] at hnext
        refine ⟨last, hnext, ?_⟩
        simpa [hpass] using hkey
      · rw [htick] at hnext
        refine ⟨wallMinuteKey (wallTime s.zone t.now), hnext, ?_⟩
        simp [hpass]
    · have hpass : job.passes s.zone i t = false := by simp [Job.passes, hadm]
      rw [s.run_concat_of_not_admitted ticks (by simpa using hadm),
        Job.dueTicks_concat_of_not_passes ticks hpass]
      exact ⟨last, hnow, hlast⟩

theorem Scheduler.dispatchedMinutes_cases
    (hjob : s.jobs[i]? = some job) (ticks : List Tick) (t : Tick) :
    s.dispatchedMinutes i (ticks ++ [t]) = s.dispatchedMinutes i ticks ∨
    (job.passes s.zone i t = true ∧ localMinute s.zone t.now ∉ (job.dueMinutes s.zone i ticks).getLast? ∧
      s.dispatchedMinutes i (ticks ++ [t]) =
        s.dispatchedMinutes i ticks ++ [localMinute s.zone t.now]) := by
  by_cases hadm : t.admitted = true
  · obtain ⟨last, hnow, hlast⟩ := job_run hjob ticks
    have hnext := s.dispatchedMinutes_concat ticks hadm hnow
    have hcases := Job.tick_cases s.zone (s.run ticks).1.locker t i
      { job with lastFiredWallMinute := last } hadm
    rcases hcases with ⟨-, htick⟩ | ⟨-, -, htick⟩ | ⟨hpass, hkey, fired, htick⟩
    · left
      simpa [htick] using hnext
    · left
      simpa [htick] using hnext
    · cases fired with
      | false =>
        left
        simpa [htick] using hnext
      | true =>
        right
        refine ⟨hpass, ?_, by simpa [htick] using hnext⟩
        intro hmem
        rw [Job.dueMinutes, getLast?_map] at hmem
        obtain ⟨t', ht', hminute⟩ := Option.mem_map.mp hmem
        have hremembered := hlast t' ht'
        rw [wallTime_congr hminute] at hremembered
        exact hkey hremembered
  · left
    simp [s.run_concat_of_not_admitted ticks (by simpa using hadm)]

theorem Scheduler.dispatchedMinutes_subset (hjob : s.jobs[i]? = some job) (ticks : List Tick) :
    s.dispatchedMinutes i ticks ⊆ job.dueMinutes s.zone i ticks := by
  induction ticks using reverseRecOn with
  | nil => simp [run]
  | append_singleton ticks t ih =>
    rw [Job.dueMinutes_concat]
    rcases dispatchedMinutes_cases hjob ticks t with h | ⟨hpass, -, h⟩
    · rw [h]
      exact subset_append_of_subset_left _ ih
    · rw [h, if_pos hpass]
      exact append_subset.mpr ⟨subset_append_of_subset_left _ ih, by simp⟩

/-- Provided that no minute at which a job is due comes back after another one at which it is due.
-/
theorem dispatched_once_per_minute {s : Scheduler} {i : Nat} {job : Job}
    (hjob : s.jobs[i]? = some job) (ticks : List Tick)
    (hdue : ∀ w x, [w, x, w].Sublist (job.dueMinutes s.zone i ticks) → x = w) :
    (s.dispatchedMinutes i ticks).Nodup := by
  induction ticks using reverseRecOn with
  | nil => simp [Scheduler.run]
  | append_singleton ticks t ih =>
    rw [Job.dueMinutes_concat] at hdue
    have hbefore := ih fun w x h => hdue w x (h.trans (sublist_append_left _ _))
    rcases Scheduler.dispatchedMinutes_cases hjob ticks t with h | ⟨hpass, hother, h⟩
    · rw [h]
      exact hbefore
    · rw [h]
      rw [← concat_eq_append]
      apply List.Nodup.concat _ hbefore
      intro hw
      rw [if_pos hpass] at hdue
      have hmem := Scheduler.dispatchedMinutes_subset hjob ticks hw
      -- The minute was due before; the last due minute since then is the one in between.
      obtain ⟨front, last, hsplit⟩ : ∃ front last, job.dueMinutes s.zone i ticks = front ++ [last] :=
        ⟨_, _, (dropLast_append_getLast (ne_nil_of_mem hmem)).symm⟩
      rw [hsplit] at hmem hother hdue
      have hne : last ≠ localMinute s.zone t.now := by
        intro heq
        apply hother
        simp [heq]
      have hfront : localMinute s.zone t.now ∈ front := by
        rcases mem_append.mp hmem with hm | hm
        · exact hm
        · exact absurd (mem_singleton.mp hm).symm hne
      have hsub : [localMinute s.zone t.now, last, localMinute s.zone t.now].Sublist
          (front ++ [last] ++ [localMinute s.zone t.now]) := by
        have hhead := singleton_sublist.mpr hfront
        exact (hhead.append (List.Sublist.refl [last])).append (List.Sublist.refl _)
      exact hne (hdue _ _ hsub)

/-- Around the end of daylight saving time, on 2026-11-01 at 06:00 UTC. -/
def newYork (t : Int) : Int := if t < 1793512800 then -14400 else -18000

def cronJob (expression : Bytes) : Job :=
  ⟨⟨expression, [], [], [], [], [], false⟩, false, false, false, false, false, ([], []), ([], []),
    [], []⟩

/-- Ticks once a minute from an instant on, with nothing in the way of a job. -/
def minuteTicks (start : Int) (n : Nat) : List Tick :=
  (List.range n).map fun k =>
    ⟨true, start + 60 * k, false, fun _ => ⟨false, none, none, [], [], false, false⟩⟩

/-- A job due once in the repeated hour: its minute comes back with nothing in between. -/
theorem dispatched_once_per_minute_half_past_one :
    (Scheduler.dispatchedMinutes ⟨newYork, false, [cronJob (Bytes.ascii "30 1 * * *")]⟩ 0
      (minuteTicks 1793509200 120)).Nodup := by
  set e := Bytes.ascii "30 1 * * *"
  have hjob : [cronJob e][0]? = some (cronJob e) := rfl
  apply dispatched_once_per_minute hjob
  intro w x h
  have hminutes : (cronJob e).dueMinutes newYork 0
      (minuteTicks 1793509200 120) = [29891610, 29891610] := by
    decide +kernel
  have hlength := h.length_le
  simp [hminutes] at hlength

theorem half_hours_dispatched_twice :
    ((minuteTicks 1793509200 120).map fun t => t.now).Pairwise (· < ·) ∧
    Scheduler.dispatchedMinutes ⟨newYork, false, [cronJob (Bytes.ascii "0,30 1 * * *")]⟩ 0
      (minuteTicks 1793509200 120) = [29891580, 29891610, 29891580, 29891610] ∧
    ¬ (Scheduler.dispatchedMinutes ⟨newYork, false, [cronJob (Bytes.ascii "0,30 1 * * *")]⟩ 0
      (minuteTicks 1793509200 120)).Nodup := by
  have hminutes : Scheduler.dispatchedMinutes
      ⟨newYork, false, [cronJob (Bytes.ascii "0,30 1 * * *")]⟩ 0 (minuteTicks 1793509200 120) =
      [29891580, 29891610, 29891580, 29891610] := by
    decide +kernel
  rw [hminutes]
  decide

end Scheduling
