import Velocity.Queue.MemoryThreads

/-! Conservation of wrappers in the memory driver. A published wrapper is in one of the driver's
containers, or with a `PopCtx` that is rebuilding its job, until one event takes it out for good;
those of a queue only hold wrappers pushed to it. -/

namespace Velocity.Queue

open Interleave Placement Option MemOp List MemWorld AList Hand

def MemOp.publishes : (o : MemOp) → o.Res → Option JobWrapper
  | .enqueue wrapper _, _ => some wrapper
  | .delay wrapper _ _, _ => some wrapper
  | .claim wrapper _ _, some _ => some wrapper
  | .recordFailed wrapper _ _ _, _ => some wrapper
  | _, _ => none

/-- The job of a push, its dedupe key and the queue it names. -/
def MemCall.pushes : MemCall → Option (Option Job × String × Option String)
  | .pushCtx _ job queueName => some (job, "", queueName)
  | .pushDelayedCtx _ job _ queueName => some (job, "", queueName)
  | .pushIfNotExistsCtx _ job key queueName => some (job, key, queueName)
  | _ => none

/-- The operation publishes the job, or answers that its key is held. -/
def MemOp.accepts (job : Option Job) (key : String) (queueName : Option String) :
    (o : MemOp) → o.Res → Bool
  | .claim _ key' _, none => key' = key
  | o, r => (o.publishes r).any fun jw => jw.job = job && jw.dedupeKey = key &&
      queueName.all fun n => n = "" || jw.payload.queue = n

def MemOp.takesOut (w : MemWorld) : (o : MemOp) → o.Res → Nat → Prop
  | .handOut wrapper, _, n => wrapper.ptr = n
  | .ack _, .ok r, n => r.wrapper.ptr = n
  | .clear queue, _, n => ∃ z v, v ∈ w.wrappersAt z ∧ z.queue = some queue ∧ v.ptr = n
  | _, _, _ => False

structure Effect (w w' : MemWorld) (born : Option JobWrapper) (gone : Nat → Prop) : Prop where
  nextPtr : w'.nextPtr = w.nextPtr + born.toList.length
  exclusive : Exclusive Wrapper.ptr w.wrappersAt → ¬Present Wrapper.ptr w.wrappersAt w.nextPtr →
    Exclusive Wrapper.ptr w'.wrappersAt
  origin : ∀ z v, v ∈ w'.wrappersAt z →
    (∃ jw, born = some jw ∧ v = w.publish jw ∧ ∀ q, z.queue = some q → jw.payload.queue = q) ∨
      ∃ x u, u ∈ w.wrappersAt x ∧ u.core = v.core ∧ ∀ q, z.queue = some q → x.queue = some q
  newborn : ∀ jw, born = some jw → Present Wrapper.ptr w'.wrappersAt w.nextPtr
  kept : ∀ n, Present Wrapper.ptr w.wrappersAt n → ¬gone n → Present Wrapper.ptr w'.wrappersAt n

variable {w w' : MemWorld} {jw : JobWrapper} {m : Hand} {t : ReservationToken} {q : String}
  {n : Nat}

namespace Effect

variable {gone : Nat → Prop}

theorem of_shift (h : Shift w w') (hn : w'.nextPtr = w.nextPtr) : Effect w w' none gone where
  nextPtr := hn
  exclusive he _ := h.exclusive he
  origin z v hv := .inr (h.origin hv)
  newborn jw hj := by simp at hj
  kept n hn _ := (h.present n).mpr hn

theorem of_added {y : Place} (h : Added w.wrappersAt w'.wrappersAt (w.publish jw) y)
    (hn : w'.nextPtr = w.nextPtr + 1) (hq : ∀ q, y.queue = some q → jw.payload.queue = q) :
    Effect w w' (some jw) gone where
  nextPtr := hn
  exclusive he hfresh := he.added h hfresh
  origin z v hv := by
    rcases h.mem.mp hv with hv | ⟨rfl, rfl⟩
    · exact .inr ⟨z, v, hv, rfl, fun _ hz => hz⟩
    · exact .inl ⟨jw, rfl, rfl, hq⟩
  newborn jw' hj := by
    exact ⟨y, _, h.mem.mpr (.inr ⟨rfl, rfl⟩), rfl⟩
  kept n hp _ := by
    obtain ⟨z, v, hv, rfl⟩ := hp
    exact ⟨z, v, h.mem.mpr (.inl hv), rfl⟩

theorem of_dropped (h : ∀ z, (w'.wrappersAt z).Sublist (w.wrappersAt z))
    (hn : w'.nextPtr = w.nextPtr)
    (hk : ∀ z v, v ∈ w.wrappersAt z → ¬gone v.ptr → v ∈ w'.wrappersAt z) :
    Effect w w' none gone where
  nextPtr := hn
  exclusive he _ := he.sublist h
  origin z v hv := .inr ⟨z, v, (h z).subset hv, rfl, fun _ hz => hz⟩
  newborn jw hj := by simp at hj
  kept n hp hg := by
    obtain ⟨z, v, hv, rfl⟩ := hp
    exact ⟨z, v, hk z v hv hg, rfl⟩

theorem same (h : ∀ z, w'.wrappersAt z = w.wrappersAt z) (hn : w'.nextPtr = w.nextPtr) :
    Effect w w' none gone :=
  of_shift (.same h) hn

end Effect

variable {o : MemOp} {r : o.Res}

theorem MemOp.publishes_of_quiet (h : o.quiet r = true) : o.publishes r = none := by
  cases o with
  | claim jw key name =>
    cases r with
    | none => rfl
    | some t => simp [quiet] at h
  | _ => first | rfl | simp [quiet] at h

namespace MemWorld

theorem handOut_effect (w : MemWorld) (v : Wrapper) :
    Effect w { w with popping := w.letGo v } none fun n => v.ptr = n := by
  refine .of_dropped (fun z => ?_) rfl fun z u hu hne => ?_
  · cases z with
    | popping => exact filter_sublist
    | _ => exact Sublist.refl _
  · cases z with
    | popping => exact mem_filter.mpr ⟨hu, by simpa using Ne.symm hne⟩
    | _ => exact hu

theorem ack_effect {id : Nat} {r : MemReservation} (h : w.reservations.lookup id = some r) :
    Effect w { w with reservations := w.reservations.erase id } none fun n => r.wrapper.ptr = n := by
  refine .of_dropped (ack_sublist id) rfl fun z u hu hne => ?_
  by_cases hz : z = .reserved r.queue id
  · subst hz
    rw [wrappersAt_reserved h, mem_singleton] at hu
    exact absurd (by rw [hu]) hne
  · cases z with
    | reserved q id' => rwa [wrappersAt_erase h rfl hz]
    | _ => exact hu

theorem clear_effect (w : MemWorld) (queue : String) : Effect w (w.clear queue) none
      fun n => ∃ z v, v ∈ w.wrappersAt z ∧ z.queue = some queue ∧ v.ptr = n := by
  refine .of_dropped (fun z => ?_) rfl fun z u hu hne => ?_
  · rw [wrappersAt_clear]
    split
    · exact nil_sublist _
    · exact Sublist.refl _
  · rw [wrappersAt_clear, if_neg fun hz => hne ⟨z, u, hu, hz, rfl⟩]
    exact hu

theorem Performs.effect (h : w.Performs o r w') (hid : w.ReservationsIssued)
    (hnd : (w.popping.map (·.ptr)).Nodup)
    (hg : m.Guard o) (hf : m.Fits w) : Effect w w' (o.publishes r) (o.takesOut w r) := by
  cases h with
  | quiet h =>
    rw [publishes_of_quiet h]
    exact .same (fun _ => rfl) rfl
  | now | sweep now => exact .same (fun _ => rfl) rfl
  | enqueue jw name =>
    refine .of_added (w.pushBack_added jw name) rfl fun q hq => ?_
    rw [hg.2]
    exact some.inj hq
  | delay jw delay name =>
    refine .of_added (w.heapPush_added ⟨w.publish jw, w.clock + delay⟩ name (w.nextPtr + 1)) rfl
      fun q hq => ?_
    rw [hg.2]
    exact some.inj hq
  | claim jw name h =>
    have hadd := w.pushBack_added jw name
    refine .of_added (y := .ready name) ⟨hadd.target, hadd.rest⟩ rfl fun q hq => ?_
    rw [hg.2.2]
    exact some.inj hq
  | popWrapper h =>
    exact .of_shift (.moved (popWrapper_moved h) (fun _ => rfl) nofun) rfl
  | reserveNext h =>
    exact .of_shift (.moved (reserveNext_moved hid h) (fun _ => rfl) fun _ hq => hq) rfl
  | handOut v => exact w.handOut_effect v
  | quarantinePopped queue v exception ht =>
    have hv := (hf _ _ _ hg).1 ht
    exact .of_shift (.moved (letGo_moved queue ⟨v, none, exception, w.clock⟩ hnd hv)
      (fun _ => rfl) nofun) rfl
  | quarantineReserved queue v exception ht h =>
    obtain rfl := ((hf _ _ _ hg).2 ht).2 _ h
    exact .of_shift (.moved (failReserved_moved queue ⟨v, none, exception, w.clock⟩ h rfl)
      (fun _ => rfl) nofun) rfl
  | ack h => exact ack_effect h
  | release delay h => exact .of_shift (.moved (release_moved _ h) (fun _ => rfl) fun _ hq => hq) rfl
  | failReserved job errText queue h =>
    exact .of_shift
      (.moved (failReserved_moved queue _ h rfl) (fun _ => rfl) nofun) rfl
  | recordFailed jw job errText queue =>
    exact .of_added (w.addFailed_added ⟨w.publish jw, some job, errText, w.clock⟩ queue
      (w.nextPtr + 1)) rfl nofun
  | clear queue => exact w.clear_effect queue
  | moveReadyJobs =>
    obtain ⟨qs, ds, hw⟩ := w.moveReadyJobs_frame
    exact .of_shift w.moveReadyJobs_shift (by rw [hw])
  | forgetJob ptr => exact .of_shift (w.forgetJob_shift ptr) rfl

end MemWorld

def MemOp.letsGo : MemOp → Option Nat
  | .handOut v => some v.ptr
  | .quarantine _ t v _ => if t.isZero then some v.ptr else none
  | _ => none

namespace MemWorld

variable {v : Wrapper}

theorem Performs.popping (h : w.Performs o r w') (hv : v ∈ w.popping) (ho : o.letsGo ≠ some v.ptr) :
    v ∈ w'.popping := by
  have hletGo : ∀ u : Wrapper, u.ptr ≠ v.ptr → v ∈ w.letGo u := fun u hu =>
    mem_filter.mpr ⟨hv, by simpa using Ne.symm hu⟩
  cases h with
  | popWrapper h => exact mem_append_left _ hv
  | handOut u => exact hletGo u (by simpa [letsGo] using ho)
  | quarantinePopped queue u exception ht => exact hletGo u (by simpa [letsGo, ht] using ho)
  | moveReadyJobs =>
    obtain ⟨qs, ds, hw⟩ := w.moveReadyJobs_frame
    simpa only [hw] using hv
  | _ => exact hv

theorem Performs.popping_cases (h : w.Performs o r w') (hv : v ∈ w'.popping) :
    v ∈ w.popping ∧ o.letsGo ≠ some v.ptr ∨
      ∃ q, ∀ m : Hand, (m.next o r).taken = some (v, .zero, q) := by
  have hletGo : ∀ u : Wrapper, v ∈ w.letGo u → v ∈ w.popping ∧ some u.ptr ≠ some v.ptr := by
    intro u hu
    obtain ⟨hmem, hne⟩ := mem_filter.mp hu
    exact ⟨hmem, by simpa using Ne.symm (by simpa using hne)⟩
  cases h with
  | quiet h =>
    refine .inl ⟨hv, ?_⟩
    cases o with
    | quarantine q t u e =>
      rcases r with e | u
      · have hz : t.isZero = false := by simpa [MemOp.quiet] using h
        simp [letsGo, hz]
      · simp [MemOp.quiet] at h
    | handOut u => simp [MemOp.quiet] at h
    | _ => simp [letsGo]
  | @popWrapper q u rest h =>
    rcases mem_concat.mp hv with hv | rfl
    · exact .inl ⟨hv, by simp [letsGo]⟩
    · exact .inr ⟨q, fun _ => rfl⟩
  | handOut u => exact .inl (hletGo u hv)
  | quarantinePopped q u e ht =>
    have hh := hletGo u hv
    exact .inl ⟨hh.1, by simpa [letsGo, ht] using hh.2⟩
  | quarantineReserved q u e ht h => exact .inl ⟨hv, by simp [letsGo, ht]⟩
  | moveReadyJobs =>
    obtain ⟨qs, ds, hw⟩ := w.moveReadyJobs_frame
    rw [hw] at hv
    exact .inl ⟨hv, by simp [letsGo]⟩
  | _ => exact .inl ⟨hv, by simp [letsGo]⟩

end MemWorld

theorem Hand.next_cases (h : w.Performs o r w') {v : Wrapper}
    (hm : (m.next o r).taken = some (v, t, q)) :
    m.taken = some (v, t, q) ∧ o.letsGo = none ∨
    t = .zero ∧ w'.popping = w.popping ++ [v] ∧ (∃ rest, w.queues.lookup q = some (v :: rest)) ∨
    t.id = w.nextReservationID + 1 ∧ w'.reservations.lookup t.id = some ⟨v, q⟩ ∧
      w'.nextReservationID = w.nextReservationID + 1 := by
  cases h with
  | quiet h =>
    cases o with
    | quarantine q t v e => cases hm
    | popWrapper q | reserveNext q =>
      cases r with
      | none => exact .inl ⟨hm, rfl⟩
      | some v => simp [quiet] at h
    | handOut v => simp [quiet] at h
    | _ => exact .inl ⟨hm, rfl⟩
  | @popWrapper q v rest h =>
    cases hm
    exact .inr (.inl ⟨rfl, rfl, rest, h⟩)
  | reserveNext h =>
    cases hm
    exact .inr (.inr ⟨rfl, lookup_insert _, rfl⟩)
  | handOut v | quarantinePopped q v e ht | quarantineReserved q v e ht h => cases hm
  | _ => exact .inl ⟨hm, rfl⟩

theorem Hand.Fits.keep (hf : m.Fits w) (h : w.Performs o r w')
    (hlet : ∀ v t q, m.taken = some (v, t, q) → t.isZero = true → o.letsGo ≠ some v.ptr) :
    m.Fits w' := by
  intro v t q hm
  obtain ⟨hzero, hres⟩ := hf v t q hm
  refine ⟨fun hz => h.popping (hzero hz) (hlet v t q hm hz), fun hz => ?_⟩
  obtain ⟨hid, hr⟩ := hres hz
  obtain ⟨hle, hnew⟩ := h.reservations
  refine ⟨hid.trans hle, fun res hl => ?_⟩
  rcases hnew t.id res hl with hl | ⟨hn, -⟩
  · exact hr res hl
  · omega

def handOf (log : Log MemOp.Res) (i : Nat) : Hand := Hand.monitor.stateOf log i

theorem handOf_concat (log : Log MemOp.Res) (i : Nat) (o : MemOp) (r : o.Res) (j : Nat) :
    handOf (log ++ [⟨i, o, r⟩]) j = if i = j then (handOf log j).next o r else handOf log j :=
  monitor.stateOf_concat log ⟨i, o, r⟩ j

def published (log : Log MemOp.Res) : List JobWrapper :=
  log.filterMap fun ev => ev.op.publishes ev.res

theorem published_concat (log : Log MemOp.Res) (i : Nat) (o : MemOp) (r : o.Res) :
    published (log ++ [⟨i, o, r⟩]) = published log ++ (o.publishes r).toList := by
  cases h : o.publishes r <;> simp [published, h]

structure MemInv (w : MemWorld) (log : Log MemOp.Res) : Prop where
  exclusive : Exclusive Wrapper.ptr w.wrappersAt
  issued : w.ReservationsIssued
  count : (published log).length = w.nextPtr
  content : ∀ z v, v ∈ w.wrappersAt z →
    ∃ jw, (published log)[v.ptr]? = some jw ∧ jw.core = v.toJobWrapper.core
  queue : ∀ z v q, v ∈ w.wrappersAt z → z.queue = some q → v.payload.queue = q
  fits : ∀ i, (handOf log i).Fits w
  apart : ∀ i j v v' t t' q q', (handOf log i).taken = some (v, t, q) →
    (handOf log j).taken = some (v', t', q') → t.isZero = true → t'.isZero = true →
    v.ptr = v'.ptr → i = j
  held : ∀ v ∈ w.popping, ∃ i t q, (handOf log i).taken = some (v, t, q) ∧ t.isZero = true

namespace MemInv

variable {log : Log MemOp.Res} {i j : Nat}

attribute [local simp] MemWorld.wrappersAt MemWorld.heapItems

theorem start : MemInv {} [] where
  exclusive := ⟨fun z => by cases z <;> simp,
    fun z _ v _ hv => by cases z <;> simp at hv⟩
  issued id r h := by simp at h
  count := rfl
  content z v hv := by cases z <;> simp at hv
  queue z v q hv := by cases z <;> simp at hv
  fits i v t q h := by cases h
  apart i j v v' t t' q q' h := by cases h
  held v hv := by cases hv

variable {v : Wrapper}

theorem taken_cases (hp : w.Performs o r w')
    (hm : (handOf (log ++ [⟨i, o, r⟩]) j).taken = some (v, t, q)) (ht : t.isZero = true) :
    (handOf log j).taken = some (v, t, q) ∨ j = i ∧ v ∈ w.wrappersAt (.ready q) := by
  rw [handOf_concat] at hm
  by_cases hij : i = j
  · subst hij
    rw [if_pos rfl] at hm
    rcases next_cases hp hm with ⟨hm, -⟩ | ⟨-, -, rest, hl⟩ | ⟨hid, -⟩
    · exact .inl hm
    · exact .inr ⟨rfl, by simp [items_of_lookup hl]⟩
    · have : t.id = 0 := by simpa [ReservationToken.isZero] using ht
      omega
  · rw [if_neg hij] at hm
    exact .inl hm

variable (h : MemInv w log)

include h

theorem tick (clock : Time) : MemInv { w with clock } log :=
  ⟨h.exclusive, h.issued, h.count, h.content, h.queue, h.fits, h.apart, h.held⟩

theorem ptr_lt {z : Place} (hv : v ∈ w.wrappersAt z) : v.ptr < w.nextPtr := by
  obtain ⟨jw, hj, -⟩ := h.content z v hv
  rw [← h.count]
  exact (List.getElem?_eq_some_iff.mp hj).1

theorem fresh : ¬Present Wrapper.ptr w.wrappersAt w.nextPtr := by
  rintro ⟨z, v, hv, hn⟩
  exact (h.ptr_lt hv).ne hn

theorem letsGo_ne (hg : (handOf log i).Guard o) (hij : j ≠ i)
    (hj : (handOf log j).taken = some (v, t, q)) (ht : t.isZero = true) : o.letsGo ≠ some v.ptr := by
  intro hlet
  cases o with
  | handOut u =>
    obtain ⟨q', hi⟩ := hg
    have hp : v.ptr = u.ptr := by simpa [letsGo] using hlet.symm
    exact hij (h.apart j i v u t .zero q q' hj hi ht rfl hp)
  | quarantine q' t' u e =>
    by_cases hz : t'.isZero = true
    · have hp : v.ptr = u.ptr := by simpa [letsGo, hz] using hlet.symm
      exact hij (h.apart j i v u t t' q q' hj hg ht hz hp)
    · simp [letsGo, hz] at hlet
  | _ => simp [letsGo] at hlet

theorem fits_step (hg : (handOf log i).Guard o) (hp : w.Performs o r w')
    (j : Nat) : (handOf (log ++ [⟨i, o, r⟩]) j).Fits w' := by
  rw [handOf_concat]
  by_cases hij : i = j
  · subst hij
    rw [if_pos rfl]
    intro v t q hm
    rcases next_cases hp hm with ⟨hm, hlet⟩ | ⟨rfl, hpop, -⟩ | ⟨hid, hl, hnext⟩
    · exact (h.fits i).keep hp (fun _ _ _ _ _ => by simp [hlet]) v t q hm
    · exact ⟨fun _ => by simp [hpop], nofun⟩
    · refine ⟨fun hz => ?_, fun _ => ⟨by omega, fun res hl' => ?_⟩⟩
      · have : t.id = 0 := by simpa [ReservationToken.isZero] using hz
        omega
      · exact some.inj (hl'.symm.trans hl)
  · rw [if_neg hij]
    exact (h.fits j).keep hp fun v t q hm ht => h.letsGo_ne hg (Ne.symm hij) hm ht

theorem apart_step (hp : w.Performs o r w') {k : Nat} {v u : Wrapper}
    {t' : ReservationToken} {q' : String}
    (hj : (handOf (log ++ [⟨i, o, r⟩]) j).taken = some (v, t, q))
    (hk : (handOf (log ++ [⟨i, o, r⟩]) k).taken = some (u, t', q')) (ht : t.isZero = true)
    (ht' : t'.isZero = true) (hvu : v.ptr = u.ptr) : j = k := by
  -- a wrapper still in a queue is not with a `PopCtx` call
  have hout : ∀ {n : Nat} {a b : Wrapper} {s : ReservationToken} {p p' : String},
      (handOf log n).taken = some (a, s, p) → s.isZero = true → b ∈ w.wrappersAt (.ready p') →
      a.ptr ≠ b.ptr := by
    intro n a b s p p' ha hs hb hab
    have hmem := (h.fits n a s p ha).1 hs
    have hh := h.exclusive.2 .popping (.ready p') a b hmem hb hab
    cases hh
  rcases taken_cases hp hj ht with hold | ⟨rfl, hv⟩
  · rcases taken_cases hp hk ht' with hold' | ⟨rfl, hu⟩
    · exact h.apart j k v u t t' q q' hold hold' ht ht' hvu
    · exact absurd hvu (hout hold ht hu)
  · rcases taken_cases hp hk ht' with hold' | ⟨rfl, -⟩
    · exact absurd hvu.symm (hout hold' ht' hv)
    · rfl

variable (hg : (handOf log i).Guard o) (hp : w.Performs o r w')

include hg hp

theorem held_step (hv : v ∈ w'.popping) :
    ∃ j t q, (handOf (log ++ [⟨i, o, r⟩]) j).taken = some (v, t, q) ∧ t.isZero = true := by
  rcases hp.popping_cases hv with ⟨hv, hlet⟩ | ⟨q, hnew⟩
  · obtain ⟨j, t, q, hj, ht⟩ := h.held v hv
    refine ⟨j, t, q, ?_, ht⟩
    rw [handOf_concat]
    by_cases hij : i = j
    · subst hij
      rw [if_pos rfl]
      cases o with
      | handOut u =>
        obtain ⟨q', hi⟩ := hg
        rw [hj] at hi
        cases hi
        simp [letsGo] at hlet
      | quarantine q' t' u e =>
        have hi : (handOf log i).taken = some (u, t', q') := hg
        rw [hj] at hi
        cases hi
        simp [letsGo, ht] at hlet
      | popWrapper q' | reserveNext q' =>
        have hi : (handOf log i).taken = none := hg
        simp [hj] at hi
      | _ => exact hj
    · rw [if_neg hij]
      exact hj
  · refine ⟨i, .zero, q, ?_, rfl⟩
    rw [handOf_concat, if_pos rfl]
    exact hnew _

theorem step : MemInv w' (log ++ [⟨i, o, r⟩]) := by
  have heff := hp.effect h.issued (h.exclusive.1 .popping) hg (h.fits i)
  refine ⟨heff.exclusive h.exclusive h.fresh, h.issued.step hp, ?_, fun z v hv => ?_,
    fun z v q hv hz => ?_, h.fits_step hg hp, fun j k v u t t' q q' => h.apart_step hp,
    fun v => h.held_step hg hp⟩
  · rw [published_concat, length_append, h.count, heff.nextPtr]
  · rw [published_concat]
    rcases heff.origin z v hv with ⟨jw, hborn, rfl, -⟩ | ⟨x, u, hu, hcore, -⟩
    · refine ⟨jw, ?_, rfl⟩
      rw [hborn]
      simp [publish, ← h.count]
    · obtain ⟨jw, hj, hjc⟩ := h.content x u hu
      have hlt := (List.getElem?_eq_some_iff.mp hj).1
      refine ⟨jw, ?_, hjc.trans (congrArg (·.2) hcore)⟩
      rw [← Wrapper.ptr_of_core hcore, getElem?_append_left hlt]
      exact hj
  · rcases heff.origin z v hv with ⟨jw, -, rfl, hq⟩ | ⟨x, u, hu, hcore, hq⟩
    · exact hq q hz
    · rw [← Wrapper.queue_of_core hcore]
      exact h.queue x u q hu (hq q hz)

end MemInv

def MemWorld.holds (w : MemWorld) (n : Nat) : Bool :=
  w.queues.entries.any (fun e => e.2.any fun v => v.ptr = n) ||
    w.delayed.entries.any (fun e => e.2.toList.any fun j => j.wrapper.ptr = n) ||
    w.reservations.entries.any (fun e => e.2.wrapper.ptr = n) ||
    w.failed.entries.any (fun e => e.2.any fun j => j.wrapper.ptr = n) ||
    w.popping.any fun v => v.ptr = n

theorem MemWorld.holds_iff : w.holds n = true ↔ Present Wrapper.ptr w.wrappersAt n := by
  simp only [holds, Bool.or_eq_true, List.any_eq_true, decide_eq_true_eq]
  constructor
  · rintro ((((⟨⟨q, l⟩, he, v, hv, hn⟩ | ⟨⟨q, h⟩, he, j, hj, hn⟩) | ⟨⟨id, r⟩, he, hn⟩) |
      ⟨⟨q, l⟩, he, j, hj, hn⟩) | ⟨v, hv, hn⟩)
    · exact ⟨.ready q, v, FMap.mem_items_iff.mpr ⟨l, he, hv⟩, hn⟩
    · have hl : w.delayed.lookup q = some h := mem_lookup_iff.mpr he
      refine ⟨.delayed q, j.wrapper, ?_, hn⟩
      rw [wrappersAt, heapItems_of_lookup hl]
      exact mem_map_of_mem hj
    · have hl : w.reservations.lookup id = some r := mem_lookup_iff.mpr he
      exact ⟨.reserved r.queue id, r.wrapper, by simp [wrappersAt_reserved hl], hn⟩
    · exact ⟨.failed q, j.wrapper, mem_map_of_mem (FMap.mem_items_iff.mpr ⟨l, he, hj⟩), hn⟩
    · exact ⟨.popping, v, hv, hn⟩
  · rintro ⟨z, v, hv, hn⟩
    cases z with
    | ready q =>
      obtain ⟨l, he, hv⟩ := FMap.mem_items_iff.mp hv
      exact .inl (.inl (.inl (.inl ⟨⟨q, l⟩, he, v, hv, hn⟩)))
    | delayed q =>
      cases hl : w.delayed.lookup q with
      | none => simp [wrappersAt, heapItems, hl] at hv
      | some h =>
        rw [wrappersAt, heapItems_of_lookup hl] at hv
        obtain ⟨j, hj, rfl⟩ := mem_map.mp hv
        exact .inl (.inl (.inl (.inr ⟨⟨q, h⟩, mem_lookup_iff.mp hl, j, hj, hn⟩)))
    | reserved q id =>
      cases hl : w.reservations.lookup id with
      | none => simp [wrappersAt, hl] at hv
      | some r =>
        have hr : v = r.wrapper := by
          by_cases hq : r.queue = q <;> simp [wrappersAt, hl, hq] at hv
          exact hv
        exact .inl (.inl (.inr ⟨⟨id, r⟩, mem_lookup_iff.mp hl, hr ▸ hn⟩))
    | failed q =>
      obtain ⟨j, hj, rfl⟩ := mem_map.mp hv
      obtain ⟨l, he, hj⟩ := FMap.mem_items_iff.mp hj
      exact .inl (.inr ⟨⟨q, l⟩, he, j, hj, hn⟩)
    | popping => exact .inr ⟨v, hv, hn⟩

def takesOut (n : Nat) (jw : JobWrapper) : Event MemOp.Res → Prop
  | ⟨_, .handOut v, _⟩ => v.ptr = n
  | ⟨_, .ack _, .ok r⟩ => r.wrapper.ptr = n
  | ⟨_, .clear queue, _⟩ => jw.payload.queue = queue
  | _ => False

def WrapperFate (n : Nat) (w : MemWorld) (log exits : Log MemOp.Res) : Prop :=
  System.Fate (n < w.nextPtr) (w.holds n = true)
    (fun ev => ∀ jw, (published log)[n]? = some jw → takesOut n jw ev) exits

theorem MemInv.takesOut_of_lost {log : Log MemOp.Res} {i : Nat}
    (h : MemInv w log) (hn : (published log)[n]? = some jw) (ht : o.takesOut w r n) :
    takesOut n jw ⟨i, o, r⟩ := by
  cases o with
  | handOut v => exact ht
  | ack t =>
    cases r with
    | error e => exact ht
    | ok res => exact ht
  | clear queue =>
    obtain ⟨z, v, hv, hz, rfl⟩ := ht
    obtain ⟨jw', hj, hcore⟩ := h.content z v hv
    obtain rfl : jw = jw' := some.inj (hn.symm.trans hj)
    exact (congrArg (fun c => c.payload.queue) hcore).trans (h.queue z v queue hv hz)
  | _ => exact ht

theorem WrapperFate.step {log exits : Log MemOp.Res} {i : Nat}
    (hf : WrapperFate n w log exits) (h : MemInv w log)
    (hg : (handOf log i).Guard o) (hp : w.Performs o r w') : WrapperFate n w' (log ++ [⟨i, o, r⟩])
      (exits ++ if w.holds n = true ∧ ¬w'.holds n = true then [⟨i, o, r⟩] else []) := by
  have heff := hp.effect h.issued (h.exclusive.1 .popping) hg (h.fits i)
  have h' := h.step hg hp
  have hnext := heff.nextPtr
  have hcount := h.count
  have hpub : n < w.nextPtr → (published (log ++ [⟨i, o, r⟩]))[n]? = (published log)[n]? := by
    intro hlt
    rw [published_concat, getElem?_append_left (by omega)]
  have hlt' : w'.holds n = true → n < w'.nextPtr := by
    intro hh
    obtain ⟨z, v, hv, rfl⟩ := holds_iff.mp hh
    exact h'.ptr_lt hv
  refine System.Fate.step hf (fun hb => by omega) (fun hb => ⟨fun hb' => ?_, hlt'⟩)
    (fun hb ht ht' => ?_) (fun ht ht' jw hj => ?_) fun hb ev he jw hj => he jw (hpub hb ▸ hj)
  · cases hborn : o.publishes r with
    | none =>
      rw [hborn] at hnext
      simp only [toList_none, length_nil] at hnext
      omega
    | some jw =>
      rw [hborn] at hnext
      simp only [toList_some, length_singleton] at hnext
      obtain rfl : n = w.nextPtr := by omega
      exact holds_iff.mpr (heff.newborn jw hborn)
  · obtain ⟨z, v, hv, hn⟩ := holds_iff.mp ht'
    rcases heff.origin z v hv with ⟨jw, -, rfl, -⟩ | ⟨x, u, hu, hcore, -⟩
    · have : w.nextPtr = n := hn
      omega
    · exact ht (holds_iff.mpr ⟨x, u, hu, (Wrapper.ptr_of_core hcore).trans hn⟩)
  · have hpres := holds_iff.mp ht
    have hlost : o.takesOut w r n := by
      by_contra hno
      exact ht' (holds_iff.mpr (heff.kept n hpres hno))
    have hlt : n < w.nextPtr := by
      obtain ⟨z, v, hv, rfl⟩ := hpres
      exact h.ptr_lt hv
    exact h.takesOut_of_lost (hpub hlt ▸ hj) hlost

theorem memory_run (registry : Registry) (acts : List (Act MemEnv MemCall))
    (n : Nat) : let sys := memorySystem registry
    let p := sys.run (.start {}) acts
    MemInv p.world p.log ∧ WrapperFate n p.world p.log (sys.falls (·.holds n) (.start {}) acts) := by
  refine System.invariant_falls (memorySystem registry) monitor wp_body (·.holds n)
    (I := fun w l f => MemInv w l ∧ WrapperFate n w l f)
    ⟨.start, .inl ⟨Nat.not_lt_zero n, by simp [holds], rfl⟩⟩
    (fun _ _ _ _ _ _ => trivial) ?_ acts
  rintro w l f i e o ⟨hinv, hfate⟩ hg
  have hp := memStep_performs registry { w with clock := w.clock + e.elapsed } e o
  refine ⟨(hinv.tick _).step hg hp, ?_⟩
  have hstep := WrapperFate.step (w := { w with clock := w.clock + e.elapsed })
    hfate (hinv.tick _) hg hp
  simp only [Bool.and_eq_true, Bool.not_eq_true']
  simp only [Bool.not_eq_true] at hstep
  exact hstep

section

variable {ctx : Option CtxErr} {job : Option Job} {queueName : Option String}

theorem MemCall.accepts_push {key : String} {op : JobWrapper → String → MemOp}
    (hop : ∀ jw name, jw.job = job → jw.dedupeKey = "" →
      (queueName.all fun n => n = "" || jw.payload.queue = n) = true →
        ∀ r, (op jw name).accepts job key queueName r = true) :
    (plain (match admitted ctx job queueName with
      | .error e => .ret (.error e)
      | .ok (wrapper, name) => .call (op wrapper name) fun _ => .ret (.ok ()))).wp
        (.flag (MemOp.accepts job key queueName)) false fun a m => (∃ v, a = .ok v) → m = true := by
  cases ha : admitted ctx job queueName with
  | error e =>
    rintro ⟨v, hv⟩
    cases hv
  | ok a =>
    obtain ⟨hkey, hqueue, hjob, hname⟩ := admitted_wrapper ha
    refine fun r _ => ⟨trivial, fun _ => hop a.1 a.2 hjob hkey ?_ r⟩
    cases queueName with
    | none => rfl
    | some n =>
      by_cases hn : n = ""
      · simp [hn]
      · simp [hqueue, hname n rfl hn]

theorem MemCall.accepts_body {c : MemCall} {key : String}
    (h : c.pushes = some (job, key, queueName)) :
    c.body.wp (.flag (MemOp.accepts job key queueName)) false fun a m =>
      (∃ v, a = .ok v) → m = true := by
  have hplain := fun ctx => @accepts_push ctx job queueName "" MemOp.enqueue
    fun jw name hjob hkey hqueue _ => by simp [accepts, publishes, hjob, hkey, hqueue]
  cases c with
  | pushCtx ctx job q =>
    cases h
    exact hplain ctx
  | pushDelayedCtx ctx job delay q =>
    cases h
    exact @accepts_push ctx _ _ _ (.delay · delay) fun jw name hjob hkey hqueue _ => by
      simp [accepts, publishes, hjob, hkey, hqueue]
  | pushIfNotExistsCtx ctx job key q =>
    cases h
    show (plain (MemoryDriver.pushIfNotExistsCtx ctx job key queueName)).wp _ _ _
    unfold MemoryDriver.pushIfNotExistsCtx
    split
    case isTrue hkey =>
      subst hkey
      exact hplain ctx
    case isFalse =>
      refine @accepts_push ctx _ _ _ (fun jw => .claim { jw with dedupeKey := key } key)
        fun jw name hjob _ hqueue r => ?_
      cases r with
      | none => simp [accepts]
      | some t => simp [accepts, publishes, hjob, hqueue]
  | _ => cases h

end

theorem memory_conservation (registry : Payload → Except Err Job)
    (acts : List (Act MemEnv MemCall)) :
    let sys := memorySystem registry
    let p := sys.run (.start {}) acts
    (∀ z, ((p.world.wrappersAt z).map (·.ptr)).Nodup) ∧
    (∀ y z v u, v ∈ p.world.wrappersAt y → u ∈ p.world.wrappersAt z → v.ptr = u.ptr → y = z) ∧
    (∀ z v, v ∈ p.world.wrappersAt z → ∃ jw, (published p.log)[v.ptr]? = some jw ∧
      jw.core = v.toJobWrapper.core ∧ ∀ q, z.queue = some q → jw.payload.queue = q) ∧
    (∀ v ∈ p.world.popping, ∃ i t q, (handOf p.log i).taken = some (v, t, q) ∧ t.isZero = true) ∧
    (∀ n jw, (published p.log)[n]? = some jw →
      let exits := sys.falls (·.holds n) (.start {}) acts
      p.world.holds n = true ∧ exits = [] ∨
        p.world.holds n = false ∧ ∃ ev, exits = [ev] ∧ takesOut n jw ev) ∧
    (∀ i c v job key queueName, p.threads[i]? = some ⟨c, some (.ret (.ok v))⟩ →
      c.pushes = some (job, key, queueName) →
      ∃ ev ∈ p.log, ev.tid = i ∧ ev.op.accepts job key queueName ev.res = true) ∧
    (∀ env jw key name, (sys.exec p.world env (.claim jw key name)).1 = none →
      (p.world.dedupeKeys.lookup key).isSome = true) ∧
    (∀ (c : MemCall) env e, (c.body.eval sys.exec env p.world).1 = .error e → e.refusal = true →
      ∃ clock, (c.body.eval sys.exec env p.world).2 = { p.world with clock }) := by
  intro sys p
  have hinv := (memory_run registry acts 0).1
  refine ⟨hinv.exclusive.1, hinv.exclusive.2,
    fun z v hv => ?_, hinv.held, fun n jw hj => ?_, fun i c v job key queueName hret hpush => ?_,
    fun env jw key name hnone => ?_, fun c env => refuses_body registry c env p.world⟩
  · obtain ⟨jw, hj, hcore⟩ := hinv.content z v hv
    refine ⟨jw, hj, hcore, fun q hz => ?_⟩
    exact (congrArg (fun c => c.payload.queue) hcore).trans (hinv.queue z v q hv hz)
  · have hlt : n < p.world.nextPtr := by
      rw [← hinv.count]
      exact (List.getElem?_eq_some_iff.mp hj).1
    rcases (memory_run registry acts n).2 with ⟨hb, -⟩ | ⟨-, ht, hf⟩ | ⟨-, ht, ev, hf, he⟩
    · exact absurd hlt hb
    · exact .inl ⟨ht, hf⟩
    · exact .inr ⟨by simpa using ht, ev, hf, he jw hj⟩
  · exact sys.performed (MemCall.accepts_body hpush) hret ⟨v, rfl⟩
  · simp only [sys, memorySystem, memExec, memStep, MemWorld.claim] at hnone
    cases hkey : p.world.dedupeKeys.lookup key with
    | none => simp [hkey] at hnone
    | some t => rfl

end Velocity.Queue
