import Velocity.Lib.Placement
import Velocity.Queue.Memory

/-! Where the memory driver's wrappers are: the places, and what each section of the
driver does to them. -/

namespace Velocity.Queue

open Interleave Placement List FMap Wrapper MemWorld

inductive Place
  | ready (queue : String)
  | delayed (queue : String)
  | reserved (queue : String) (id : Nat)
  | failed (queue : String)
  | popping
  deriving DecidableEq, Repr

def Place.queue : Place → Option String
  | .ready q => some q
  | .delayed q => some q
  | .reserved q _ => some q
  | .failed _ => none
  | .popping => none

def MemWorld.wrappersAt (w : MemWorld) : Place → List Wrapper
  | .ready q => FMap.items w.queues q
  | .delayed q => w.heapItems q
  | .reserved q id => ((w.reservations.lookup id).toList.filter fun r => r.queue = q).map (·.wrapper)
  | .failed q => (FMap.items w.failed q).map (·.wrapper)
  | .popping => w.popping

def JobWrapper.core (v : JobWrapper) : JobWrapper :=
  { v with job := none, payload := { v.payload with attempts := 0 } }

def Wrapper.core (v : Wrapper) : Nat × JobWrapper := (v.ptr, v.toJobWrapper.core)

namespace Wrapper

variable {v u : Wrapper}

theorem ptr_of_core (h : v.core = u.core) : v.ptr = u.ptr := congrArg (·.1) h

theorem key_of_core (h : v.core = u.core) : v.dedupeKey = u.dedupeKey :=
  congrArg (fun c => c.2.dedupeKey) h

theorem queue_of_core (h : v.core = u.core) : v.payload.queue = u.payload.queue :=
  congrArg (fun c => c.2.payload.queue) h

end Wrapper

/-- A section keeps every wrapper: it moves some within a queue or out of the live places, or
changes them. -/
inductive Shift : MemWorld → MemWorld → Prop
  | same {w w' : MemWorld} (h : ∀ z, w'.wrappersAt z = w.wrappersAt z) : Shift w w'
  | moved {w w' : MemWorld} {ws : List Wrapper} {x y : Place} {f : Wrapper → Wrapper}
      (h : Moved Wrapper.ptr w.wrappersAt w'.wrappersAt ws x y f) (hf : ∀ v, (f v).core = v.core)
      (hq : ∀ q, y.queue = some q → x.queue = some q) : Shift w w'
  | mapped {w w' : MemWorld} {f : Place → Wrapper → Wrapper} (hf : ∀ z v, (f z v).core = v.core)
      (h : ∀ z, w'.wrappersAt z = (w.wrappersAt z).map (f z)) : Shift w w'
  | trans {w u w' : MemWorld} (h : Shift w u) (h' : Shift u w') : Shift w w'

namespace Shift

variable {w w' : MemWorld}

theorem origin (h : Shift w w') {z : Place} {v : Wrapper} (hv : v ∈ w'.wrappersAt z) :
    ∃ x u, u ∈ w.wrappersAt x ∧ u.core = v.core ∧ ∀ q, z.queue = some q → x.queue = some q := by
  induction h generalizing z v with
  | same h => exact ⟨z, v, h z ▸ hv, rfl, fun _ hq => hq⟩
  | @moved w w' ws x y f h hf hq =>
    rcases h.mem hv with hv | ⟨rfl, u, hu, rfl⟩
    · exact ⟨z, v, hv, rfl, fun _ hz => hz⟩
    · exact ⟨x, u, hu, (hf u).symm, hq⟩
  | mapped hf h =>
    rw [h] at hv
    obtain ⟨u, hu, rfl⟩ := mem_map.mp hv
    exact ⟨z, u, hu, (hf z u).symm, fun _ hq => hq⟩
  | trans _ _ ih ih' =>
    obtain ⟨y, u, hu, hcore, hq⟩ := ih' hv
    obtain ⟨x, t, ht, hcore', hq'⟩ := ih hu
    exact ⟨x, t, ht, hcore'.trans hcore, fun q hz => hq' q (hq q hz)⟩

theorem present (h : Shift w w') (n : Nat) :
    Present ptr w'.wrappersAt n ↔ Present ptr w.wrappersAt n := by
  induction h with
  | same h => simp only [Present, h]
  | moved h hf hq => exact h.present n
  | mapped hf h =>
    constructor
    · rintro ⟨z, v, hv, rfl⟩
      rw [h] at hv
      obtain ⟨u, hu, rfl⟩ := mem_map.mp hv
      exact ⟨z, u, hu, (ptr_of_core (hf z u)).symm⟩
    · rintro ⟨z, v, hv, rfl⟩
      exact ⟨z, _, h z ▸ mem_map_of_mem hv, ptr_of_core (hf z v)⟩
  | trans _ _ ih ih' => exact ih'.trans ih

theorem exclusive (h : Shift w w') (he : Exclusive ptr w.wrappersAt) :
    Exclusive ptr w'.wrappersAt := by
  induction h with
  | same h => exact he.sublist fun z => (h z).symm ▸ List.Sublist.refl _
  | moved h hf hq => exact he.moved h
  | mapped hf h => exact he.map (fun z v => ptr_of_core (hf z v)) h
  | trans _ _ ih ih' => exact ih' (ih he)

end Shift

namespace MemWorld

theorem heapItems_heapPush (w : MemWorld) (name : String) (job : DelayedJob) :
    (({ w with delayed := w.heapPush name job } : MemWorld).heapItems name).Perm
      (job.wrapper :: w.heapItems name) := by
  have hh := (BinaryHeap.push_perm DelayedJob.less
    ((w.delayed.lookup name).getD #[]) job).map (·.wrapper)
  simpa [heapItems, heapPush] using hh

variable {w : MemWorld} {q : String}

theorem heapItems_heapPush_ne {name : String} (h : q ≠ name) (job : DelayedJob) :
    ({ w with delayed := w.heapPush name job } : MemWorld).heapItems q = w.heapItems q := by
  simp [heapItems, heapPush, AList.lookup_insert_ne h]

attribute [local simp] items_insert

theorem pushBack_added (w : MemWorld) (wrapper : JobWrapper) (name : String) :
    Added w.wrappersAt (w.pushBack wrapper name).wrappersAt (w.publish wrapper) (.ready name) where
  target := by
    simp only [wrappersAt, pushBack, items_insert, if_true]
    exact perm_append_singleton _ _
  rest := by
    intro z hz
    cases z with
    | ready q =>
      have hq : q ≠ name := fun h => hz (by rw [h])
      simp [wrappersAt, pushBack, hq]
    | _ => rfl

theorem heapPush_added (w : MemWorld) (job : DelayedJob) (name : String) (n : Nat) :
    Added w.wrappersAt
      ({ w with delayed := w.heapPush name job, nextPtr := n } : MemWorld).wrappersAt
      job.wrapper (.delayed name) where
  target := w.heapItems_heapPush name job
  rest := by
    intro z hz
    cases z with
    | delayed q => exact heapItems_heapPush_ne (fun h => hz (by rw [h])) job
    | _ => rfl

theorem addFailed_added (w : MemWorld) (job : FailedJob) (queue : String) (n : Nat) :
    Added w.wrappersAt
      ({ w with failed := w.addFailed queue job, nextPtr := n } : MemWorld).wrappersAt
      job.wrapper (.failed queue) where
  target := by
    simp only [wrappersAt, addFailed, items_insert, if_true, map_append, map_cons, map_nil]
    exact perm_append_singleton _ _
  rest := by
    intro z hz
    cases z with
    | failed q =>
      have hq : q ≠ queue := fun h => hz (by rw [h])
      simp [wrappersAt, addFailed, hq]
    | _ => rfl

variable {queue : String}

theorem items_of_lookup {l : List Wrapper}
    (h : w.queues.lookup queue = some l) : items w.queues queue = l := by
  simp [items, h]

theorem popWrapper_moved {v : Wrapper} {rest : List Wrapper}
    (h : w.queues.lookup queue = some (v :: rest)) :
    Moved ptr w.wrappersAt
      ({ w with queues := w.queues.insert queue rest,
                popping := w.popping ++ [v] } : MemWorld).wrappersAt
      [v] (.ready queue) .popping fun v => v where
  ne := by simp
  name_eq _ := rfl
  source := by
    simp [wrappersAt, items_of_lookup h]
  target := perm_append_singleton _ _
  rest := by
    intro z hx hy
    cases z with
    | ready q =>
      have hq : q ≠ queue := fun h => hx (by rw [h])
      simp [wrappersAt, hq]
    | popping => exact absurd rfl hy
    | _ => rfl

theorem wrappersAt_reserved_insert (w : MemWorld) (id : Nat) (r : MemReservation) (q : String)
    (id' : Nat) (w' : MemWorld) (h : w'.reservations = w.reservations.insert id r) :
    w'.wrappersAt (.reserved q id') = if id' = id then if r.queue = q then [r.wrapper] else []
      else w.wrappersAt (.reserved q id') := by
  simp only [wrappersAt, h, lookup_insert_ite]
  by_cases hid : id' = id
  · by_cases hq : r.queue = q <;> simp [hid, hq]
  · simp [hid]

theorem wrappersAt_reserved_erase (w : MemWorld) (id : Nat) (q : String) (id' : Nat)
    (w' : MemWorld) (h : w'.reservations = w.reservations.erase id) :
    w'.wrappersAt (.reserved q id') = if id' = id then [] else w.wrappersAt (.reserved q id') := by
  simp only [wrappersAt, h, lookup_erase_ite]
  by_cases hid : id' = id <;> simp [hid]

def ReservationsIssued (w : MemWorld) : Prop :=
  ∀ id r, w.reservations.lookup id = some r → 0 < id ∧ id ≤ w.nextReservationID

theorem ReservationsIssued.lookup_next (hid : w.ReservationsIssued) :
    w.reservations.lookup (w.nextReservationID + 1) = none := by
  cases hl : w.reservations.lookup (w.nextReservationID + 1) with
  | none => rfl
  | some r =>
    have := (hid _ r hl).2
    omega

theorem reserveNext_moved {v : Wrapper} {rest : List Wrapper}
    (hid : w.ReservationsIssued) (h : w.queues.lookup queue = some (v :: rest)) :
    Moved ptr w.wrappersAt
      ({ w with queues := w.queues.insert queue rest,
                reservations := w.reservations.insert (w.nextReservationID + 1)
                  ⟨countAttempt v, queue⟩,
                nextReservationID := w.nextReservationID + 1 } : MemWorld).wrappersAt
      [v] (.ready queue) (.reserved queue (w.nextReservationID + 1)) countAttempt where
  ne := by simp
  name_eq _ := rfl
  source := by
    simp [wrappersAt, items_of_lookup h]
  target := by
    simp [wrappersAt, hid.lookup_next]
  rest := by
    intro z hx hy
    cases z with
    | ready q =>
      have hq : q ≠ queue := fun h => hx (by rw [h])
      simp [wrappersAt, hq]
    | reserved q id =>
      rw [wrappersAt_reserved_insert w _ _ q id _ rfl]
      by_cases hii : id = w.nextReservationID + 1
      · have hq : queue ≠ q := fun h => hy (by rw [hii, h])
        subst hii
        rw [if_neg hq]
        simp [wrappersAt, hid.lookup_next]
      · rw [if_neg hii]
    | _ => rfl

variable {r : MemReservation}

theorem wrappersAt_reserved {id : Nat}
    (h : w.reservations.lookup id = some r) : w.wrappersAt (.reserved r.queue id) = [r.wrapper] := by
  simp [wrappersAt, h]

theorem wrappersAt_erase {w w' : MemWorld} {id : Nat}
    (h : w.reservations.lookup id = some r) (he : w'.reservations = w.reservations.erase id)
    {id' : Nat} (hz : Place.reserved q id' ≠ .reserved r.queue id) :
    w'.wrappersAt (.reserved q id') = w.wrappersAt (.reserved q id') := by
  rw [wrappersAt_reserved_erase w id q id' w' he]
  by_cases hid : id' = id
  · have hq : r.queue ≠ q := fun hq => hz (by rw [hid, hq])
    subst hid
    simp [wrappersAt, h, hq]
  · rw [if_neg hid]

theorem letGo_moved (queue : String) (job : FailedJob)
    (hnd : (w.popping.map (·.ptr)).Nodup) (hv : job.wrapper ∈ w.popping) :
    Moved ptr w.wrappersAt
      ({ w with failed := w.addFailed queue job, popping := w.letGo job.wrapper } : MemWorld).wrappersAt
      [job.wrapper] .popping (.failed queue) id where
  ne := by simp
  name_eq _ := rfl
  source := perm_cons_filter hnd hv
  target := (w.addFailed_added job queue w.nextPtr).target
  rest := by
    intro z hx hy
    cases z with
    | popping => exact absurd rfl hx
    | failed q => exact (w.addFailed_added job queue w.nextPtr).rest _ hy
    | _ => rfl

theorem failReserved_moved (queue : String) (job : FailedJob) {id : Nat}
    (h : w.reservations.lookup id = some r) (hj : job.wrapper = r.wrapper) :
    Moved ptr w.wrappersAt
      ({ w with reservations := w.reservations.erase id,
                failed := w.addFailed queue job } : MemWorld).wrappersAt
      [r.wrapper] (.reserved r.queue id) (.failed queue) (fun v => v) where
  ne := by simp
  name_eq _ := rfl
  source := by
    rw [wrappersAt_reserved h, wrappersAt_reserved_erase w id _ id _ rfl]
    simp
  target := by
    have hh := (w.addFailed_added job queue w.nextPtr).target
    rw [hj] at hh
    exact hh
  rest := by
    intro z hx hy
    cases z with
    | reserved q id' => exact wrappersAt_erase h rfl hx
    | failed q => exact (w.addFailed_added job queue w.nextPtr).rest _ hy
    | _ => rfl

theorem release_moved {id : Nat} (runAt : Time) (h : w.reservations.lookup id = some r) :
    Moved ptr w.wrappersAt
      ({ w with reservations := w.reservations.erase id,
                delayed := w.heapPush r.queue ⟨r.wrapper, runAt⟩ } : MemWorld).wrappersAt
      [r.wrapper] (.reserved r.queue id) (.delayed r.queue) (fun v => v) where
  ne := by simp
  name_eq _ := rfl
  source := by
    rw [wrappersAt_reserved h, wrappersAt_reserved_erase w id _ id _ rfl]
    simp
  target := w.heapItems_heapPush r.queue ⟨r.wrapper, runAt⟩
  rest := by
    intro z hx hy
    cases z with
    | reserved q id' => exact wrappersAt_erase h rfl hx
    | delayed q => exact heapItems_heapPush_ne (fun h => hy (by rw [h])) _
    | _ => rfl

theorem ack_sublist (id : Nat) (z : Place) :
    (({ w with reservations := w.reservations.erase id } : MemWorld).wrappersAt z).Sublist
      (w.wrappersAt z) := by
  cases z with
  | reserved q id' =>
    rw [wrappersAt_reserved_erase w id q id' _ rfl]
    split
    · exact nil_sublist _
    · exact List.Sublist.refl _
  | _ => exact List.Sublist.refl _

theorem wrappersAt_clear (w : MemWorld) (queue : String) (z : Place) :
    (w.clear queue).wrappersAt z = if z.queue = some queue then [] else w.wrappersAt z := by
  cases z with
  | ready q => by_cases hq : q = queue <;> simp [wrappersAt, clear, items_erase, Place.queue, hq]
  | delayed q =>
    by_cases hq : q = queue <;>
      simp [wrappersAt, clear, heapItems, lookup_erase_ite, Place.queue, hq]
  | reserved q id =>
    simp only [wrappersAt, clear, lookup_filter, Place.queue, Option.some.injEq]
    cases hl : w.reservations.lookup id with
    | none => simp
    | some r =>
      by_cases hr : r.queue = q
      · by_cases hq : q = queue <;> simp [Option.filter, hr, hq]
      · by_cases hrq : r.queue = queue
        · have hr' : ¬queue = q := hrq ▸ hr
          simp [Option.filter, hrq, hr']
        · simp [Option.filter, hr, hrq]
  | failed q => rfl
  | popping => rfl

theorem drain_perm (now : Time) (h : Array DelayedJob) :
    (h.toList.map (·.wrapper)).Perm
      ((drain now h).1 ++ (drain now h).2.toList.map (·.wrapper)) := by
  induction h using drain.induct now with
  | case1 h hnone =>
    rw [drain, hnone]
    exact List.Perm.refl _
  | case2 h top htop hlt =>
    rw [drain, htop]
    simp only [if_pos hlt]
    exact List.Perm.refl _
  | case3 h top htop hlt hpop =>
    rw [drain, htop]
    simp only [if_neg hlt]
    split
    · exact List.Perm.refl _
    · next hp => simp [hpop] at hp
  | case4 h top htop hlt job rest hpop ready left hd ih =>
    rw [drain, htop]
    simp only [if_neg hlt]
    split
    · next hp => simp [hpop] at hp
    · next job' rest' hp =>
      obtain ⟨rfl, rfl⟩ : job = job' ∧ rest = rest' := by simpa [hpop] using hp
      have hh := (BinaryHeap.pop_perm hpop).map (·.wrapper)
      exact hh.trans (ih.cons job.wrapper)

theorem heapItems_of_lookup {h : Array DelayedJob}
    (hl : w.delayed.lookup queue = some h) : w.heapItems queue = h.toList.map (·.wrapper) := by
  simp [heapItems, hl]

section Promote

variable {h : Array DelayedJob}
  (hl : w.delayed.lookup queue = some h)

include hl

theorem heapItems_promote (q : String) : (w.promote queue).heapItems q =
    if q = queue then (drain w.clock h).2.toList.map (·.wrapper) else w.heapItems q := by
  by_cases he : (drain w.clock h).2.isEmpty = true
  · have hnil : (drain w.clock h).2 = #[] := by simpa using he
    by_cases hq : q = queue <;> simp [heapItems, promote, hl, hnil, lookup_erase_ite, hq]
  · by_cases hq : q = queue <;> simp [heapItems, promote, hl, he, lookup_insert_ite, hq]

theorem items_promote (q : String) : items (w.promote queue).queues q =
    if q = queue then items w.queues queue ++ (drain w.clock h).1
    else items w.queues q := by
  by_cases he : (drain w.clock h).1 = []
  · by_cases hq : q = queue <;> simp [promote, hl, he, hq]
  · by_cases hq : q = queue <;> simp [promote, hl, he, hq]

theorem promote_moved : Moved ptr w.wrappersAt (w.promote queue).wrappersAt
    (drain w.clock h).1 (.delayed queue) (.ready queue) fun v => v where
  ne := by simp
  name_eq _ := rfl
  source := by
    have hperm := drain_perm w.clock h
    rw [← heapItems_of_lookup hl] at hperm
    simpa only [wrappersAt, heapItems_promote hl, if_true] using hperm
  target := by
    simp only [wrappersAt, items_promote hl, if_true, map_id']
    exact perm_append_comm
  rest := by
    intro z hx hy
    cases z with
    | ready q =>
      have hq : q ≠ queue := fun h => hy (by rw [h])
      simp [wrappersAt, items_promote hl, hq]
    | delayed q =>
      have hq : q ≠ queue := fun h => hx (by rw [h])
      simp [wrappersAt, heapItems_promote hl, hq]
    | _ => simp [wrappersAt, promote, hl]

end Promote

theorem promote_shift (w : MemWorld) (queue : String) : Shift w (w.promote queue) := by
  cases hl : w.delayed.lookup queue with
  | none => exact .same fun z => by simp [promote, hl]
  | some h => exact .moved (promote_moved hl) (fun _ => rfl) fun _ hq => hq

theorem moveReadyJobs_shift (w : MemWorld) : Shift w w.moveReadyJobs := by
  unfold moveReadyJobs
  generalize w.delayed.keys = queues
  induction queues generalizing w with
  | nil => exact .same fun _ => rfl
  | cons queue queues ih => exact (w.promote_shift queue).trans (ih _)

theorem moveReadyJobs_frame (w : MemWorld) :
    ∃ qs ds, w.moveReadyJobs = { w with queues := qs, delayed := ds } := by
  unfold moveReadyJobs
  generalize w.delayed.keys = queues
  induction queues generalizing w with
  | nil => exact ⟨w.queues, w.delayed, rfl⟩
  | cons queue queues ih =>
    obtain ⟨qs, ds, hh⟩ := ih (w.promote queue)
    refine ⟨qs, ds, hh.trans ?_⟩
    unfold promote
    split <;> rfl

theorem forget_core (ptr : Nat) (v : Wrapper) : (forget ptr v).core = v.core := by
  unfold forget
  split <;> rfl

theorem forgetJob_shift (w : MemWorld) (ptr : Nat) : Shift w (w.forgetJob ptr) := by
  refine .mapped (f := fun
    | .ready _ => forget ptr
    | _ => id) (fun z v => ?_) fun z => ?_
  · cases z <;> first | exact forget_core ptr v | rfl
  · cases z with
    | ready q =>
      simp only [wrappersAt, forgetJob, items, lookup_mapValues]
      cases w.queues.lookup q <;> rfl
    | _ => simp [wrappersAt, forgetJob, heapItems]

def Live (w : MemWorld) (q : String) (v : Wrapper) : Prop :=
  ∃ z, z.queue = some q ∧ v ∈ w.wrappersAt z

theorem live_iff {v : Wrapper} : w.Live q v ↔
    v ∈ items w.queues q ∨ v ∈ w.heapItems q ∨
      ∃ id r, w.reservations.lookup id = some r ∧ r.queue = q ∧ r.wrapper = v := by
  constructor
  · rintro ⟨z, hz, hv⟩
    cases z with
    | ready q' =>
      obtain rfl : q' = q := Option.some.inj hz
      exact .inl hv
    | delayed q' =>
      obtain rfl : q' = q := Option.some.inj hz
      exact .inr (.inl hv)
    | reserved q' id =>
      obtain rfl : q' = q := Option.some.inj hz
      obtain ⟨r, hr, rfl⟩ := mem_map.mp hv
      obtain ⟨hr, hq⟩ := mem_filter.mp hr
      exact .inr (.inr ⟨id, r, by simpa using hr, by simpa using hq, rfl⟩)
    | failed q' => cases hz
    | popping => cases hz
  · rintro (hv | hv | ⟨id, r, hl, rfl, rfl⟩)
    · exact ⟨.ready q, rfl, hv⟩
    · exact ⟨.delayed q, rfl, hv⟩
    · exact ⟨.reserved r.queue id, rfl, by simp [wrappersAt_reserved hl]⟩

end MemWorld

def MemOp.quiet : (o : MemOp) → o.Res → Bool
  | .claim _ _ _, none => true
  | .popWrapper _, none => true
  | .reserveNext _, none => true
  | .getJobFromWrapper _, _ => true
  | .quarantine _ t _ _, .error _ => !t.isZero
  | .ack _, .error _ => true
  | .release _ _, .error _ => true
  | .failReserved _ _ _ _, .error _ => true
  | .runFailedHook _ _, _ => true
  | _, _ => false

inductive MemWorld.Performs (w : MemWorld) : (o : MemOp) → o.Res → MemWorld → Prop
  | quiet {o : MemOp} {r : o.Res} (h : o.quiet r = true) : w.Performs o r w
  | now : w.Performs .now w.clock w
  | enqueue (jw : JobWrapper) (name : String) :
      w.Performs (.enqueue jw name) () (w.pushBack jw name)
  | delay (jw : JobWrapper) (delay : Duration) (name : String) :
      w.Performs (.delay jw delay name) () { w with
        delayed := w.heapPush name ⟨w.publish jw, w.clock + delay⟩
        nextPtr := w.nextPtr + 1 }
  | claim (jw : JobWrapper) {key : String} (name : String) (h : w.dedupeKeys.lookup key = none) :
      w.Performs (.claim jw key name) (some w.clock) { w.pushBack jw name with
        dedupeKeys := w.dedupeKeys.insert key w.clock }
  | popWrapper {queue : String} {v : Wrapper} {rest : List Wrapper}
      (h : w.queues.lookup queue = some (v :: rest)) :
      w.Performs (.popWrapper queue) (some v) { w with
        queues := w.queues.insert queue rest
        popping := w.popping ++ [v] }
  | reserveNext {queue : String} {v : Wrapper} {rest : List Wrapper}
      (h : w.queues.lookup queue = some (v :: rest)) :
      w.Performs (.reserveNext queue)
        (some (countAttempt v, ⟨w.nextReservationID + 1, (countAttempt v).payload.attempts, ""⟩))
        { w with
          queues := w.queues.insert queue rest
          reservations := w.reservations.insert (w.nextReservationID + 1) ⟨countAttempt v, queue⟩
          nextReservationID := w.nextReservationID + 1 }
  | handOut (v : Wrapper) : w.Performs (.handOut v) () { w with popping := w.letGo v }
  | quarantinePopped (queue : String) {t : ReservationToken} (v : Wrapper) (exception : String)
      (ht : t.isZero = true) :
      w.Performs (.quarantine queue t v exception) (.ok ()) { w with
        failed := w.addFailed queue ⟨v, none, exception, w.clock⟩
        popping := w.letGo v }
  | quarantineReserved (queue : String) {t : ReservationToken} (v : Wrapper) (exception : String)
      {r : MemReservation} (ht : t.isZero = false) (h : w.reservations.lookup t.id = some r) :
      w.Performs (.quarantine queue t v exception) (.ok ()) { w with
        reservations := w.reservations.erase t.id
        failed := w.addFailed queue ⟨v, none, exception, w.clock⟩ }
  | ack {t : ReservationToken} {r : MemReservation} (h : w.reservations.lookup t.id = some r) :
      w.Performs (.ack t) (.ok r) { w with reservations := w.reservations.erase t.id }
  | release {t : ReservationToken} (delay : Duration) {r : MemReservation}
      (h : w.reservations.lookup t.id = some r) :
      w.Performs (.release t delay) (.ok r) { w with
        reservations := w.reservations.erase t.id
        delayed := w.heapPush r.queue ⟨r.wrapper, w.clock + delay⟩ }
  | failReserved {t : ReservationToken} (job : Job) (errText queue : String) {r : MemReservation}
      (h : w.reservations.lookup t.id = some r) :
      w.Performs (.failReserved t job errText queue) (.ok r) { w with
        reservations := w.reservations.erase t.id
        failed := w.addFailed queue ⟨r.wrapper, some job, errText, w.clock⟩ }
  | recordFailed (jw : JobWrapper) (job : Job) (errText queue : String) :
      w.Performs (.recordFailed jw job errText queue) () { w with
        failed := w.addFailed queue ⟨w.publish jw, some job, errText, w.clock⟩
        nextPtr := w.nextPtr + 1 }
  | clear (queue : String) : w.Performs (.clear queue) () (w.clear queue)
  | moveReadyJobs : w.Performs .moveReadyJobs () w.moveReadyJobs
  | sweep (now : Time) :
      w.Performs (.sweepStaleDedupeKeys now) () (w.sweepStaleDedupeKeys now)
  | forgetJob (ptr : Nat) : w.Performs (.forgetJob ptr) () (w.forgetJob ptr)

variable (registry : Registry) {o : MemOp}

theorem memStep_performs (w : MemWorld) (env : MemEnv)
    (o : MemOp) : w.Performs o (memStep registry w env o).1 (memStep registry w env o).2 := by
  cases o with
  | now => exact .now
  | enqueue jw name => exact .enqueue jw name
  | delay jw delay name => exact .delay jw delay name
  | claim jw key name =>
    simp only [memStep, claim]
    cases hk : w.dedupeKeys.lookup key with
    | some t => exact .quiet rfl
    | none => exact .claim jw name hk
  | popWrapper queue =>
    simp only [memStep, popWrapper]
    rcases hl : w.queues.lookup queue with _ | _ | ⟨v, rest⟩
    · exact .quiet rfl
    · exact .quiet rfl
    · exact .popWrapper hl
  | reserveNext queue =>
    simp only [memStep, reserveNext]
    rcases hl : w.queues.lookup queue with _ | _ | ⟨v, rest⟩
    · exact .quiet rfl
    · exact .quiet rfl
    · exact .reserveNext hl
  | handOut v => exact .handOut v
  | quarantine queue t v exception =>
    simp only [memStep, quarantine]
    by_cases hz : t.isZero = true
    · simp only [hz, if_true]
      exact .quarantinePopped queue v exception hz
    · simp only [hz]
      cases hl : w.reservations.lookup t.id with
      | none => exact .quiet (by simp [MemOp.quiet, hz])
      | some r => exact .quarantineReserved queue v exception (by simpa using hz) hl
  | ack t =>
    simp only [memStep, MemWorld.ack, takeReservation]
    cases hl : w.reservations.lookup t.id with
    | none => exact .quiet rfl
    | some r => exact .ack hl
  | release t delay =>
    simp only [memStep, release, takeReservation]
    cases hl : w.reservations.lookup t.id with
    | none => exact .quiet rfl
    | some r => exact .release delay hl
  | failReserved t job errText queue =>
    simp only [memStep, failReserved, takeReservation]
    cases hl : w.reservations.lookup t.id with
    | none => exact .quiet rfl
    | some r => exact .failReserved job errText queue hl
  | recordFailed jw job errText queue => exact .recordFailed jw job errText queue
  | clear queue => exact .clear queue
  | moveReadyJobs => exact .moveReadyJobs
  | sweepStaleDedupeKeys now => exact .sweep now
  | forgetJob ptr => exact .forgetJob ptr
  | _ =>
    simp only [memStep]
    split <;> exact .quiet rfl

theorem MemWorld.Performs.eq_of_quiet {w w' : MemWorld} {r : o.Res}
    (h : w.Performs o r w') (hq : o.quiet r = true) : w' = w := by
  cases h with
  | quiet h => rfl
  | _ => simp [MemOp.quiet] at hq

theorem memExec_of_quiet {w : MemWorld} {env : MemEnv}
    (h : o.quiet (memExec registry w env o).1 = true) :
    (memExec registry w env o).2 = { w with clock := w.clock + env.elapsed } :=
  (memStep_performs registry { w with clock := w.clock + env.elapsed } env o).eq_of_quiet h

namespace MemWorld

variable {w' w : MemWorld} {r : o.Res}

theorem Performs.reservations (h : w.Performs o r w') :
    w.nextReservationID ≤ w'.nextReservationID ∧
      ∀ id res, w'.reservations.lookup id = some res → w.reservations.lookup id = some res ∨
        id = w.nextReservationID + 1 ∧ w'.nextReservationID = w.nextReservationID + 1 := by
  cases h with
  | reserveNext h =>
    refine ⟨Nat.le_succ _, fun id res hl => ?_⟩
    by_cases hid : id = w.nextReservationID + 1
    · exact .inr ⟨hid, rfl⟩
    · exact .inl (by simpa [hid] using hl)
  | quarantineReserved queue v exception ht h | failReserved job errText queue h =>
    exact ⟨Nat.le_refl _, fun _ _ hl => .inl (lookup_of_erase hl).2⟩
  | ack h | release delay h => exact ⟨Nat.le_refl _, fun _ _ hl => .inl (lookup_of_erase hl).2⟩
  | clear queue =>
    refine ⟨Nat.le_refl _, fun id res hl => .inl ?_⟩
    simp only [MemWorld.clear, lookup_filter] at hl
    exact (Option.filter_eq_some_iff.mp hl).1
  | moveReadyJobs =>
    obtain ⟨qs, ds, hw⟩ := w.moveReadyJobs_frame
    rw [hw]
    exact ⟨Nat.le_refl _, fun _ _ => .inl⟩
  | _ => exact ⟨Nat.le_refl _, fun _ _ => .inl⟩

theorem ReservationsIssued.step
    (hid : w.ReservationsIssued) (h : w.Performs o r w') : w'.ReservationsIssued := by
  intro id res hl
  obtain ⟨hle, hres⟩ := h.reservations
  rcases hres id res hl with hl | ⟨hnew, hnext⟩
  · have := hid id res hl
    omega
  · omega

end MemWorld

end Velocity.Queue
