import Velocity.Queue.MemoryPlaces

/-! Leases of the memory driver. Among the queues, heaps and reservations a wrapper stands
once, and a wrapper whose reservation was settled does not come back there, whatever calls
are made with whatever tokens. -/

namespace Velocity.Queue

open Interleave Placement MemWorld Option

namespace MemWorld

/-- The driver without the wrappers that have left its queues. -/
def queued (w : MemWorld) : MemWorld := { w with failed := ∅, popping := [] }

theorem live_queued {w : MemWorld} {q : String} {v : Wrapper} : w.queued.Live q v ↔ w.Live q v := by
  simp only [live_iff]
  rfl

theorem present_queued {w : MemWorld} {n : Nat} :
    Present Wrapper.ptr w.queued.wrappersAt n ↔ ∃ q v, w.Live q v ∧ v.ptr = n := by
  constructor
  · rintro ⟨z, v, hv, hn⟩
    cases hz : z.queue with
    | some q => exact ⟨q, v, live_queued.mp ⟨z, hz, hv⟩, hn⟩
    | none => cases z <;> simp [Place.queue, wrappersAt, queued] at hz hv
  · rintro ⟨q, v, hv, hn⟩
    obtain ⟨z, -, hv⟩ := live_queued.mpr hv
    exact ⟨z, v, hv, hn⟩

structure QueuedStep (w w' : MemWorld) (born : Option (JobWrapper × String)) : Prop where
  nextPtr : w.nextPtr + born.toList.length ≤ w'.nextPtr
  exclusive : Exclusive Wrapper.ptr w.queued.wrappersAt →
    ¬Present Wrapper.ptr w.queued.wrappersAt w.nextPtr → Exclusive Wrapper.ptr w'.queued.wrappersAt
  origin : ∀ q v, w'.Live q v →
    (∃ jw, born = some (jw, q) ∧ v = w.publish jw) ∨ ∃ u, w.Live q u ∧ u.core = v.core

namespace QueuedStep

variable {w w' : MemWorld}

theorem of_shift (h : Shift w.queued w'.queued) (hn : w'.nextPtr = w.nextPtr) :
    QueuedStep w w' none where
  nextPtr := hn.ge
  exclusive he _ := h.exclusive he
  origin q v hv := by
    obtain ⟨z, hz, hv⟩ := live_queued.mpr hv
    obtain ⟨x, u, hu, hcore, hq⟩ := h.origin hv
    exact .inr ⟨u, live_queued.mp ⟨x, hq q hz, hu⟩, hcore⟩

theorem of_added {jw : JobWrapper} {name : String} {y : Place}
    (h : Added w.queued.wrappersAt w'.queued.wrappersAt (w.publish jw) y)
    (hy : y.queue = some name) (hn : w'.nextPtr = w.nextPtr + 1) :
    QueuedStep w w' (some (jw, name)) where
  nextPtr := hn.ge
  exclusive he hfresh := he.added h hfresh
  origin q v hv := by
    obtain ⟨z, hz, hv⟩ := live_queued.mpr hv
    rcases h.mem.mp hv with hv | ⟨rfl, rfl⟩
    · exact .inr ⟨v, live_queued.mp ⟨z, hz, hv⟩, rfl⟩
    · obtain rfl : name = q := some.inj (hy.symm.trans hz)
      exact .inl ⟨jw, rfl, rfl⟩

theorem of_dropped (h : ∀ z, (w'.queued.wrappersAt z).Sublist (w.queued.wrappersAt z))
    (hn : w.nextPtr ≤ w'.nextPtr) : QueuedStep w w' none where
  nextPtr := hn
  exclusive he _ := he.sublist h
  origin q v hv := by
    obtain ⟨z, hz, hv⟩ := live_queued.mpr hv
    exact .inr ⟨v, live_queued.mp ⟨z, hz, (h z).subset hv⟩, rfl⟩

theorem same (h : ∀ z, w'.queued.wrappersAt z = w.queued.wrappersAt z)
    (hn : w.nextPtr ≤ w'.nextPtr) : QueuedStep w w' none :=
  of_dropped (fun z => by rw [h z]) hn

theorem present {born : Option (JobWrapper × String)} (h : QueuedStep w w' born) {n : Nat}
    (hp : Present Wrapper.ptr w'.queued.wrappersAt n) :
    Present Wrapper.ptr w.queued.wrappersAt n ∨ n = w.nextPtr ∧ n < w'.nextPtr := by
  obtain ⟨q, v, hv, rfl⟩ := present_queued.mp hp
  rcases h.origin q v hv with ⟨jw, rfl, rfl⟩ | ⟨u, hu, hcore⟩
  · exact .inr ⟨rfl, h.nextPtr⟩
  · exact .inl (present_queued.mpr ⟨q, u, hu, Wrapper.ptr_of_core hcore⟩)

end QueuedStep

theorem queued_promote (w : MemWorld) (queue : String) :
    (w.promote queue).queued = w.queued.promote queue := by
  simp only [promote, queued]
  split <;> rfl

theorem queued_moveReadyJobs (w : MemWorld) : w.moveReadyJobs.queued = w.queued.moveReadyJobs := by
  change _ = w.delayed.keys.foldl promote w.queued
  unfold moveReadyJobs
  generalize w.delayed.keys = queues
  induction queues generalizing w with
  | nil => rfl
  | cons queue queues ih =>
    rw [List.foldl_cons, List.foldl_cons, ih, queued_promote]

end MemWorld

def MemOp.queues : (o : MemOp) → o.Res → Option (JobWrapper × String)
  | .enqueue wrapper name, _ => some (wrapper, name)
  | .delay wrapper _ name, _ => some (wrapper, name)
  | .claim wrapper _ name, some _ => some (wrapper, name)
  | _, _ => none

theorem MemOp.queues_of_quiet {o : MemOp} {r : o.Res} (h : o.quiet r = true) :
    o.queues r = none := by
  cases o with
  | claim jw key name =>
    cases r with
    | none => rfl
    | some t => cases h
  | enqueue jw name => cases h
  | delay jw delay name => cases h
  | _ => rfl

namespace MemWorld

theorem Performs.queuedStep {w w' : MemWorld} {o : MemOp} {r : o.Res} (h : w.Performs o r w')
    (hid : w.ReservationsIssued) : QueuedStep w w' (o.queues r) := by
  cases h with
  | quiet hq =>
    rw [MemOp.queues_of_quiet hq]
    exact .same (fun _ => rfl) le_rfl
  | enqueue jw name => exact .of_added (w.queued.pushBack_added jw name) rfl rfl
  | delay jw delay name =>
    exact .of_added (w.queued.heapPush_added ⟨w.publish jw, w.clock + delay⟩ name (w.nextPtr + 1))
      rfl rfl
  | claim jw name h =>
    have hadd := w.queued.pushBack_added jw name
    exact .of_added (y := .ready name) ⟨hadd.target, hadd.rest⟩ rfl rfl
  | @popWrapper queue v rest h =>
    refine .of_dropped (fun z => ?_) le_rfl
    cases z with
    | ready q =>
      by_cases hq : q = queue
      · subst hq
        simp [wrappersAt, queued, items_of_lookup h, FMap.items_insert]
      · simp [wrappersAt, queued, FMap.items_insert, hq]
    | _ => exact List.Sublist.refl _
  | reserveNext h =>
    exact .of_shift (.moved (reserveNext_moved hid h) (fun _ => rfl)
      fun _ hq => hq) rfl
  | quarantineReserved queue v exception ht h | failReserved job errText queue h =>
    exact .of_dropped (ack_sublist (w := w.queued) _) le_rfl
  | ack h => exact .of_dropped (ack_sublist (w := w.queued) _) le_rfl
  | release delay h =>
    exact .of_shift (.moved (release_moved _ h) (fun _ => rfl) fun _ hq => hq) rfl
  | clear queue =>
    refine .of_dropped (fun z => ?_) le_rfl
    change ((w.queued.clear queue).wrappersAt z).Sublist _
    rw [wrappersAt_clear]
    split
    · exact List.nil_sublist _
    · exact List.Sublist.refl _
  | moveReadyJobs =>
    obtain ⟨qs, ds, hw⟩ := w.moveReadyJobs_frame
    refine .of_shift ?_ (by rw [hw])
    rw [queued_moveReadyJobs]
    exact w.queued.moveReadyJobs_shift
  | recordFailed jw job errText queue =>
    exact .same (fun z => by cases z <;> rfl) (Nat.le_succ _)
  | forgetJob ptr => exact .of_shift (w.queued.forgetJob_shift ptr) rfl
  | _ => exact .same (fun z => by cases z <;> rfl) le_rfl

end MemWorld

def MemOp.leases : (o : MemOp) → o.Res → Option (Wrapper × ReservationToken)
  | .reserveNext _, lease => lease
  | _, _ => none

def MemOp.settles : (o : MemOp) → o.Res → Option ReservationToken
  | .ack t, .ok _ => some t
  | .failReserved t _ _ _, .ok _ => some t
  | .quarantine _ t _ _, .ok _ => if t.isZero then none else some t
  | _, _ => none

theorem MemOp.settles_of_quiet {o : MemOp} {r : o.Res} (h : o.quiet r = true) :
    o.settles r = none := by
  cases o with
  | ack t | failReserved t job errText queue =>
    cases r with
    | error e => rfl
    | ok res => cases h
  | quarantine queue t v exception =>
    cases r with
    | error e => rfl
    | ok u => cases h
  | _ => rfl

namespace MemWorld

variable {w w' : MemWorld} {o : MemOp} {r : o.Res} {t : ReservationToken}

theorem Performs.leases (h : w.Performs o r w') {v : Wrapper} (hl : o.leases r = some (v, t)) :
    t.id = w.nextReservationID + 1 ∧ w'.nextReservationID = w.nextReservationID + 1 ∧
      Present Wrapper.ptr w.queued.wrappersAt v.ptr ∧
      ∃ q, w'.reservations.lookup t.id = some ⟨v, q⟩ := by
  cases h with
  | quiet hq =>
    cases o with
    | reserveNext q =>
      cases r with
      | none => cases hl
      | some l => cases hq
    | _ => cases hl
  | @reserveNext queue v rest h =>
    obtain ⟨rfl, rfl⟩ := Prod.mk.inj (some.inj hl)
    refine ⟨rfl, rfl, ⟨.ready queue, v, ?_, rfl⟩, queue, AList.lookup_insert _⟩
    simp [wrappersAt, queued, items_of_lookup h]
  | _ => cases hl

theorem Performs.settles (h : w.Performs o r w') (hs : o.settles r = some t) :
    o.leases r = none ∧ (∃ res, w.reservations.lookup t.id = some res) ∧
      (∀ q, w'.queued.wrappersAt (.reserved q t.id) = []) ∧
      ∀ z, (w'.queued.wrappersAt z).Sublist (w.queued.wrappersAt z) := by
  have hgone : ∀ (u : ReservationToken) (q : String), ({ w.queued with
      reservations := w.reservations.erase u.id } : MemWorld).wrappersAt (.reserved q u.id) = [] := by
    intro u q
    rw [wrappersAt_reserved_erase w.queued u.id q u.id _ rfl, if_pos rfl]
  cases h with
  | quiet hq =>
    rw [MemOp.settles_of_quiet hq] at hs
    cases hs
  | quarantinePopped queue v exception ht => simp [MemOp.settles, ht] at hs
  | quarantineReserved queue v exception ht h =>
    obtain rfl : _ = t := by simpa [MemOp.settles, ht] using hs
    exact ⟨rfl, ⟨_, h⟩, hgone _, ack_sublist (w := w.queued) _⟩
  | ack h | failReserved job errText queue h =>
    obtain rfl := some.inj hs
    exact ⟨rfl, ⟨_, h⟩, hgone _, ack_sublist (w := w.queued) _⟩
  | _ => cases hs

end MemWorld

def Leased (log : Log MemOp.Res) (v : Wrapper) (t : ReservationToken) : Prop :=
  ∃ ev ∈ log, ev.op.leases ev.res = some (v, t)

structure TokenInv (w : MemWorld) (log : Log MemOp.Res) : Prop where
  exclusive : Exclusive Wrapper.ptr w.queued.wrappersAt
  born : ∀ n, Present Wrapper.ptr w.queued.wrappersAt n → n < w.nextPtr
  issued : w.ReservationsIssued
  leased : ∀ v t, Leased log v t → t.id ≤ w.nextReservationID ∧ v.ptr < w.nextPtr ∧
    ∀ r, w.reservations.lookup t.id = some r → r.wrapper.ptr = v.ptr
  settled : ∀ ev ∈ log, ∀ t, ev.op.settles ev.res = some t → t.id ≤ w.nextReservationID ∧
    ∀ v u, Leased log v u → u.id = t.id → ¬Present Wrapper.ptr w.queued.wrappersAt v.ptr
  once : ∀ x ∈ log, ∀ y ∈ log, ∀ v v' t u, x.op.settles x.res = some t →
    y.op.settles y.res = some u → Leased log v t → Leased log v' u → v.ptr = v'.ptr → x.tid = y.tid

variable {ev : Event MemOp.Res}

theorem leased_concat {log : Log MemOp.Res} {v : Wrapper}
    {t : ReservationToken} (h : Leased (log ++ [ev]) v t) :
    Leased log v t ∨ ev.op.leases ev.res = some (v, t) := by
  obtain ⟨x, hx, hl⟩ := h
  rcases mem_concat.mp hx with hx | rfl
  · exact .inl ⟨x, hx, hl⟩
  · exact .inr hl

namespace TokenInv

variable {w w' : MemWorld} {log : Log MemOp.Res} {i : Nat} {o : MemOp} {r : o.Res}
  {u : ReservationToken} {x : Event MemOp.Res}

theorem start : TokenInv {} [] where
  exclusive := ⟨fun z => by cases z <;> simp [wrappersAt, heapItems, queued],
    fun z _ v _ hv => by
      cases z <;> simp [wrappersAt, heapItems, queued] at hv⟩
  born n hp := by
    obtain ⟨z, v, hv, -⟩ := hp
    cases z <;> simp [wrappersAt, heapItems, queued] at hv
  issued id r h := by simp at h
  leased v t h := by
    obtain ⟨ev, hev, -⟩ := h
    cases hev
  settled ev hev := by cases hev
  once x hx := by cases hx

theorem tick (h : TokenInv w log) (clock : Time) : TokenInv { w with clock } log :=
  ⟨h.exclusive, h.born, h.issued, h.leased, h.settled, h.once⟩

theorem present_of_lookup {id : Nat} {res : MemReservation}
    (hl : w.reservations.lookup id = some res) :
    res.wrapper ∈ w.queued.wrappersAt (.reserved res.queue id) := by
  rw [wrappersAt_reserved (w := w.queued) hl]
  exact List.mem_singleton.mpr rfl

variable {t : ReservationToken} {v : Wrapper} (h : TokenInv w log) (hp : w.Performs o r w')

include h hp

theorem leased_step (hl : Leased (log ++ [⟨i, o, r⟩]) v t) :
    t.id ≤ w'.nextReservationID ∧ v.ptr < w'.nextPtr ∧
      ∀ res, w'.reservations.lookup t.id = some res → res.wrapper.ptr = v.ptr := by
  have hnext := (Nat.le_add_right _ _).trans (hp.queuedStep h.issued).nextPtr
  obtain ⟨hle, hres⟩ := hp.reservations
  rcases leased_concat hl with hl | hl
  · obtain ⟨hid, hptr, hsame⟩ := h.leased v t hl
    refine ⟨hid.trans hle, hptr.trans_le hnext, fun res hlook => ?_⟩
    rcases hres t.id res hlook with hold | ⟨hnew, -⟩
    · exact hsame res hold
    · omega
  · obtain ⟨hid, hid', hpres, q, hlook⟩ := hp.leases hl
    refine ⟨by omega, (h.born _ hpres).trans_le hnext, fun res hlook' => ?_⟩
    obtain rfl := some.inj (hlook'.symm.trans hlook)
    rfl

theorem not_present (hs : o.settles r = some t) (hl : Leased log v u)
    (hid : u.id = t.id) : ¬Present Wrapper.ptr w'.queued.wrappersAt v.ptr := by
  rintro ⟨z, x, hx, hxv⟩
  obtain ⟨-, ⟨res, hlook⟩, hgone, hsub⟩ := hp.settles hs
  have hres : res.wrapper.ptr = v.ptr := (h.leased v u hl).2.2 res (hid ▸ hlook)
  have hz := h.exclusive.2 z _ x res.wrapper ((hsub z).subset hx) (present_of_lookup hlook)
    (hxv.trans hres.symm)
  rw [hz, hgone] at hx
  cases hx

theorem settled_step (hev : ev ∈ log ++ [⟨i, o, r⟩]) (hs : ev.op.settles ev.res = some t) :
    t.id ≤ w'.nextReservationID ∧ ∀ v u, Leased (log ++ [⟨i, o, r⟩]) v u → u.id = t.id →
      ¬Present Wrapper.ptr w'.queued.wrappersAt v.ptr := by
  have hle := hp.reservations.1
  rcases mem_concat.mp hev with hev | rfl
  · obtain ⟨hid, hgone⟩ := h.settled ev hev t hs
    refine ⟨hid.trans hle, fun v u hl hut hpres => ?_⟩
    rcases leased_concat hl with hl | hl
    · have hptr := (h.leased v u hl).2.1
      rcases (hp.queuedStep h.issued).present hpres with hold | ⟨hnew, -⟩
      · exact hgone v u hl hut hold
      · omega
    · have hnew := (hp.leases hl).1
      omega
  · obtain ⟨hnone, ⟨res, hlook⟩, -⟩ := hp.settles hs
    refine ⟨(h.issued _ res hlook).2.trans hle, fun v u hl hut => ?_⟩
    rcases leased_concat hl with hl | hl
    · exact h.not_present hp hs hl hut
    · rw [show o.leases r = some (v, u) from hl] at hnone
      cases hnone

theorem leased_before (hx : x ∈ log ++ [⟨i, o, r⟩]) (hs : x.op.settles x.res = some t)
    (hl : Leased (log ++ [⟨i, o, r⟩]) v t) : Leased log v t := by
  rcases leased_concat hl with hl | hl
  · exact hl
  · exfalso
    rcases mem_concat.mp hx with hx | rfl
    · have hid := (h.settled x hx t hs).1
      have hnew := (hp.leases hl).1
      omega
    · have hnone := (hp.settles hs).1
      rw [show o.leases r = some (v, t) from hl] at hnone
      cases hnone

theorem not_settled_twice (hx : x ∈ log) {t : ReservationToken} (hs : x.op.settles x.res = some t)
    (hs' : o.settles r = some u) {v v' : Wrapper} (hl : Leased log v t) (hl' : Leased log v' u) :
    v.ptr ≠ v'.ptr := by
  intro hv
  obtain ⟨-, ⟨res, hlook⟩, -⟩ := hp.settles hs'
  have hres : res.wrapper.ptr = v'.ptr := (h.leased v' u hl').2.2 res hlook
  exact (h.settled x hx t hs).2 v t hl rfl ⟨_, _, present_of_lookup hlook, hres.trans hv.symm⟩

theorem step : TokenInv w' (log ++ [⟨i, o, r⟩]) := by
  have hq := hp.queuedStep h.issued
  have hfresh : ¬Present Wrapper.ptr w.queued.wrappersAt w.nextPtr := fun hpres =>
    absurd (h.born _ hpres) (Nat.lt_irrefl _)
  refine ⟨hq.exclusive h.exclusive hfresh, fun n hpres => ?_, h.issued.step hp,
    fun v t => h.leased_step hp, fun ev hev t => h.settled_step hp hev,
    fun x hx y hy v v' t u hs hs' hl hl' hv => ?_⟩
  · have hnext := hq.nextPtr
    rcases hq.present hpres with hold | ⟨-, hlt⟩
    · have := h.born n hold
      omega
    · exact hlt
  · have hl₀ := h.leased_before hp hx hs hl
    have hl₀' := h.leased_before hp hy hs' hl'
    rcases mem_concat.mp hx with hx | rfl
    · rcases mem_concat.mp hy with hy | rfl
      · exact h.once x hx y hy v v' t u hs hs' hl₀ hl₀' hv
      · exact absurd hv (h.not_settled_twice hp hx hs hs' hl₀ hl₀')
    · rcases mem_concat.mp hy with hy | rfl
      · exact absurd hv.symm (h.not_settled_twice hp hy hs' hs hl₀' hl₀)
      · rfl

end TokenInv

theorem tokenInv_exec (registry : Registry) {w : MemWorld}
    {log : Log MemOp.Res} (h : TokenInv w log) (i : Nat) (e : MemEnv) (o : MemOp) :
    TokenInv (memExec registry w e o).2 (log ++ [⟨i, o, (memExec registry w e o).1⟩]) :=
  (h.tick _).step (memStep_performs registry { w with clock := w.clock + e.elapsed } e o)

end Velocity.Queue
