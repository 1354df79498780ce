import Velocity.Queue.MemoryConservation
import Velocity.Queue.MemoryLeases

/-! Dedupe keys of the memory driver. A key is on one live wrapper at most and stays in
the key set while its wrapper lives; without a `Clear` of the wrapper's queue it gates
pushes for the whole retention period. -/

namespace Velocity.Queue

open Interleave Placement List Wrapper AList MemWorld

variable {q : String} {v : Wrapper}

namespace MemWorld

variable {w : MemWorld} {k : String}

theorem mem_keysOf {l : List Wrapper} : k ∈ keysOf l ↔ k ≠ "" ∧ ∃ v ∈ l, v.dedupeKey = k := by
  simp only [keysOf, mem_filter, mem_map, decide_eq_true_eq]
  exact and_comm

theorem mem_keysOfQueue : k ∈ w.keysOfQueue q ↔ k ≠ "" ∧ ∃ v, w.Live q v ∧ v.dedupeKey = k := by
  have hres : ∀ v, v ∈ (w.reservations.entries.filter fun e => e.2.queue = q).map
      (fun e => e.2.wrapper) ↔ ∃ id r, w.reservations.lookup id = some r ∧ r.queue = q ∧
        r.wrapper = v := by
    intro v
    simp only [mem_map, mem_filter, decide_eq_true_eq]
    constructor
    · rintro ⟨⟨id, r⟩, ⟨he, hq⟩, hv⟩
      exact ⟨id, r, mem_lookup_iff.mpr he, hq, hv⟩
    · rintro ⟨id, r, hl, hq, hv⟩
      exact ⟨⟨id, r⟩, ⟨mem_lookup_iff.mp hl, hq⟩, hv⟩
  simp only [keysOfQueue, mem_append, mem_keysOf, live_iff, hres]
  constructor
  · rintro ((⟨hk, v, hv, he⟩ | ⟨hk, v, hv, he⟩) | ⟨hk, v, hv, he⟩)
    · exact ⟨hk, v, .inl hv, he⟩
    · exact ⟨hk, v, .inr (.inl hv), he⟩
    · exact ⟨hk, v, .inr (.inr hv), he⟩
  · rintro ⟨hk, v, hv | hv | hv, he⟩
    · exact .inl (.inl ⟨hk, v, hv, he⟩)
    · exact .inl (.inr ⟨hk, v, hv, he⟩)
    · exact .inr ⟨hk, v, hv, he⟩

theorem mem_liveDedupeKeysLocked (hv : w.Live q v)
    (hk : v.dedupeKey ≠ "") : v.dedupeKey ∈ w.liveDedupeKeysLocked := by
  simp only [liveDedupeKeysLocked, mem_append, mem_keysOf]
  rcases live_iff.mp hv with hv | hv | ⟨id, r, hl, -, rfl⟩
  · obtain ⟨l, he, hv⟩ := FMap.mem_items_iff.mp hv
    exact .inl (.inl ⟨hk, v, mem_flatMap.mpr ⟨⟨q, l⟩, he, hv⟩, rfl⟩)
  · cases hl : w.delayed.lookup q with
    | none => simp [heapItems, hl] at hv
    | some h =>
      rw [heapItems_of_lookup hl] at hv
      exact .inl (.inr ⟨hk, v, mem_flatMap.mpr ⟨⟨q, h⟩, mem_lookup_iff.mp hl, hv⟩, rfl⟩)
  · exact .inr ⟨hk, r.wrapper, mem_map.mpr ⟨⟨id, r⟩, mem_lookup_iff.mp hl, rfl⟩, rfl⟩

end MemWorld

/-- Live wrappers' keys have one wrapper each, and are in the key set. -/
structure DedupeInv (w : MemWorld) : Prop where
  unique : ∀ q q' v u, w.Live q v → w.Live q' u → v.dedupeKey = u.dedupeKey →
    v.dedupeKey ≠ "" → v.ptr = u.ptr
  present : ∀ q v, w.Live q v → v.dedupeKey ≠ "" → (w.dedupeKeys.lookup v.dedupeKey).isSome = true

variable {o : MemOp} {r : o.Res} {jw : JobWrapper} {t now : Time}

theorem MemOp.queues_key {m : Hand}
    (hg : m.Guard o) (hb : o.queues r = some (jw, q)) (hk : jw.dedupeKey ≠ "") :
    o = .claim jw jw.dedupeKey q := by
  cases o with
  | enqueue jw' name | delay jw' d name =>
    obtain ⟨rfl, rfl⟩ := Prod.mk.inj (Option.some.inj hb)
    exact absurd hg.1 hk
  | claim jw' key name =>
    cases r with
    | none => cases hb
    | some t =>
      obtain ⟨rfl, rfl⟩ := Prod.mk.inj (Option.some.inj hb)
      rw [hg.2.1]
  | _ => cases hb

namespace MemWorld

theorem Performs.lookup_key {w w' : MemWorld} {o : MemOp} {r : o.Res} (h : w.Performs o r w')
    (k : String) : w'.dedupeKeys.lookup k = w.dedupeKeys.lookup k ∨
    (∃ jw name, o = .claim jw k name ∧ w.dedupeKeys.lookup k = none ∧
      w'.dedupeKeys.lookup k = some w.clock) ∨ (∃ q, o = .clear q ∧ k ∈ w.keysOfQueue q) ∨
    ∃ now t, o = .sweepStaleDedupeKeys now ∧ w.dedupeKeys.lookup k = some t ∧
      k ∉ w.liveDedupeKeysLocked ∧ dedupeKeyRetention ≤ now - t := by
  cases h with
  | @claim jw key name h =>
    by_cases hk : k = key
    · subst hk
      exact .inr (.inl ⟨jw, name, rfl, h, lookup_insert _⟩)
    · exact .inl (lookup_insert_ne hk)
  | clear q =>
    by_cases hk : k ∈ w.keysOfQueue q
    · exact .inr (.inr (.inl ⟨q, rfl, hk⟩))
    · exact .inl ((FMap.lookup_eraseAll _ _ k).trans (if_neg hk))
  | sweep now =>
    have hf : (w.sweepStaleDedupeKeys now).dedupeKeys.lookup k =
        (w.dedupeKeys.lookup k).filter fun inserted =>
          w.liveDedupeKeysLocked.contains k || now - inserted < dedupeKeyRetention :=
      FMap.lookup_filter _ _ k
    cases hl : w.dedupeKeys.lookup k with
    | none => exact .inl (by rw [hf, hl]; rfl)
    | some t =>
      by_cases hkeep : (w.liveDedupeKeysLocked.contains k ||
          decide (now - t < dedupeKeyRetention)) = true
      · exact .inl (by rw [hf, hl, Option.filter_some, if_pos hkeep])
      · simp only [Bool.or_eq_true, contains_iff_mem, decide_eq_true_eq, not_or, not_lt] at hkeep
        exact .inr (.inr (.inr ⟨now, t, rfl, rfl, hkeep.1, hkeep.2⟩))
  | moveReadyJobs =>
    obtain ⟨qs, ds, hw⟩ := w.moveReadyJobs_frame
    exact .inl (by rw [hw])
  | _ => exact .inl rfl

theorem Performs.claims {w w' : MemWorld} {o : MemOp} {r : o.Res} {m : Hand}
    (h : w.Performs o r w') (hg : m.Guard o) (hb : o.queues r = some (jw, q))
    (hk : jw.dedupeKey ≠ "") : w.dedupeKeys.lookup jw.dedupeKey = none ∧
      w'.dedupeKeys.lookup jw.dedupeKey = some w.clock := by
  obtain rfl := MemOp.queues_key hg hb hk
  cases h with
  | quiet h =>
    rw [MemOp.queues_of_quiet h] at hb
    cases hb
  | claim jw name h => exact ⟨h, lookup_insert _⟩

theorem live_clear {w : MemWorld} {queue : String}
    (h : (w.clear queue).Live q v) : q ≠ queue ∧ w.Live q v := by
  obtain ⟨z, hz, hv⟩ := h
  rw [wrappersAt_clear] at hv
  by_cases hq : z.queue = some queue
  · simp [hq] at hv
  · rw [if_neg hq] at hv
    exact ⟨fun he => hq (by rw [hz, he]), z, hz, hv⟩

end MemWorld

namespace DedupeInv

variable {w w' : MemWorld} {m : Hand} {q' : String} {u : Wrapper}

theorem queue_eq (h : DedupeInv w) (he : Exclusive Wrapper.ptr w.wrappersAt)
    (hv : w.Live q v) (hu : w.Live q' u) (hk : v.dedupeKey = u.dedupeKey)
    (hne : v.dedupeKey ≠ "") : q = q' := by
  have hp := h.unique q q' v u hv hu hk hne
  obtain ⟨z, hz, hv⟩ := hv
  obtain ⟨z', hz', hu⟩ := hu
  obtain rfl := he.2 z z' v u hv hu hp
  exact Option.some.inj (hz.symm.trans hz')

theorem start : DedupeInv {} := by
  have hno : ∀ q v, ¬({} : MemWorld).Live q v := by
    intro q v h
    simp [live_iff, heapItems] at h
  exact ⟨fun q _ v _ hv => absurd hv (hno q v), fun q v hv => absurd hv (hno q v)⟩

theorem ne_newborn (h : DedupeInv w) (hp : w.Performs o r w') (hg : m.Guard o)
    (hb : o.queues r = some (jw, q')) (hk : jw.dedupeKey ≠ "")
    (hu : w.Live q u) : u.dedupeKey ≠ jw.dedupeKey := by
  intro he
  have hin := h.present q u hu (he ▸ hk)
  rw [he, (hp.claims hg hb hk).1] at hin
  cases hin

theorem step (h : DedupeInv w) (he : Exclusive Wrapper.ptr w.wrappersAt) (hp : w.Performs o r w')
    (hg : m.Guard o) (hq : w.QueuedStep w' (o.queues r)) : DedupeInv w' := by
  constructor
  · intro q q' v u hv hu hkey hne
    rcases hq.origin q v hv with ⟨jw, hb, rfl⟩ | ⟨v₀, hv₀, hcore⟩
    · rcases hq.origin q' u hu with ⟨jw', hb', rfl⟩ | ⟨u₀, hu₀, hcore'⟩
      · rfl
      · have hh := h.ne_newborn hp hg hb hne hu₀
        exact absurd ((key_of_core hcore').trans hkey.symm) hh
    · rcases hq.origin q' u hu with ⟨jw', hb', rfl⟩ | ⟨u₀, hu₀, hcore'⟩
      · have hh := h.ne_newborn hp hg hb' (hkey ▸ hne) hv₀
        exact absurd ((key_of_core hcore).trans hkey) hh
      · rw [← ptr_of_core hcore, ← ptr_of_core hcore']
        rw [← key_of_core hcore] at hkey hne
        rw [← key_of_core hcore'] at hkey
        exact h.unique q q' v₀ u₀ hv₀ hu₀ hkey hne
  · intro q v hv hne
    rcases hq.origin q v hv with ⟨jw, hb, rfl⟩ | ⟨u, hu, hcore⟩
    · have hnew := (hp.claims hg hb hne).2
      exact Option.isSome_of_eq_some hnew
    · have hk := key_of_core hcore
      have hin := h.present q u hu (hk ▸ hne)
      rw [hk] at hin
      rcases hp.lookup_key v.dedupeKey with hl | ⟨-, -, -, -, hl⟩ | ⟨queue, rfl, hmem⟩ |
        ⟨now, t, rfl, -, hlive, -⟩
      · rwa [hl]
      · simp [hl]
      · -- the cleared queue held another wrapper with this key
        obtain ⟨-, u', hu', hk'⟩ := mem_keysOfQueue.mp hmem
        have hw' : w' = w.clear queue := by
          cases hp with
          | quiet h => cases h
          | clear queue => rfl
        subst hw'
        obtain ⟨hqq, hv⟩ := live_clear hv
        exact absurd (h.queue_eq he hv hu' hk'.symm hne) hqq
      · rw [← hk] at hlive
        exact absurd (mem_liveDedupeKeysLocked hu (hk ▸ hne)) hlive

end DedupeInv

/-- The key was claimed for the queue at time `t`, and the queue has not been cleared since. -/
def Claimed (log : Log MemOp.Res) (k q : String) (t : Time) : Prop :=
  ∃ pre i jw post, log = pre ++ ⟨i, .claim jw k q, some t⟩ :: post ∧ ∀ ev ∈ post, ev.op ≠ .clear q

theorem claimed_concat {log : Log MemOp.Res} {ev : Event MemOp.Res} {k : String}
    (h : Claimed (log ++ [ev]) k q t) :
    Claimed log k q t ∧ ev.op ≠ .clear q ∨ ∃ i jw, ev = ⟨i, .claim jw k q, some t⟩ := by
  obtain ⟨pre, i, jw, post, hlog, hpost⟩ := h
  rcases eq_nil_or_concat post with rfl | ⟨post, last, rfl⟩
  · have hev := (append_inj' hlog rfl).2
    exact .inr ⟨i, jw, singleton_inj.mp hev⟩
  · rw [concat_eq_append] at hlog hpost
    rw [← cons_append, ← append_assoc] at hlog
    obtain ⟨hinit, hlast⟩ := append_inj' hlog rfl
    obtain rfl := singleton_inj.mp hlast
    refine .inl ⟨⟨pre, i, jw, post, hinit, fun x hx => hpost x ?_⟩, hpost ev ?_⟩
    · exact mem_append_left _ hx
    · exact mem_concat_self

variable {w w' : MemWorld}

theorem MemWorld.Performs.clock (h : w.Performs o r w') : w'.clock = w.clock := by
  cases h with
  | moveReadyJobs =>
    obtain ⟨qs, ds, hw⟩ := w.moveReadyJobs_frame
    rw [hw]
  | _ => rfl

theorem Hand.read_next (h : w.Performs o r w') (m : Hand) (hm : (m.next o r).read = some now) :
    m.read = some now ∨ now = w.clock := by
  cases h with
  | now => exact .inr (Option.some.inj hm).symm
  | @quiet o r h => cases o <;> cases r <;> first | exact .inl hm | cases h
  | _ => exact .inl hm

/-- Until its retention is over a claimed key's entry stays, and only its queue holds wrappers with
it. -/
structure RetentionInv (w : MemWorld) (log : Log MemOp.Res) : Prop where
  read : ∀ i now, (handOf log i).read = some now → now ≤ w.clock
  gated : ∀ k q t, Claimed log k q t →
    k ≠ "" ∧ (t + dedupeKeyRetention ≤ w.clock ∨
      w.dedupeKeys.lookup k = some t ∧ ∀ q' v, w.Live q' v → v.dedupeKey = k → q' = q)

namespace RetentionInv

variable {log : Log MemOp.Res} {i : Nat}

theorem start : RetentionInv {} [] where
  read i now h := by cases h
  gated k q t h := by
    obtain ⟨pre, i, jw, post, hlog, -⟩ := h
    simp at hlog

theorem tick (h : RetentionInv w log) {clock : Time} (hle : w.clock ≤ clock) :
    RetentionInv { w with clock } log := by
  refine ⟨fun i now hm => (h.read i now hm).trans hle, fun k q t hc => ?_⟩
  obtain ⟨hk, hover | hheld⟩ := h.gated k q t hc
  · exact ⟨hk, .inl (hover.trans hle)⟩
  · exact ⟨hk, .inr hheld⟩

theorem read_step (h : RetentionInv w log) (hp : w.Performs o r w') (j : Nat)
    (hm : (handOf (log ++ [⟨i, o, r⟩]) j).read = some now) : now ≤ w.clock := by
  rw [handOf_concat] at hm
  by_cases hij : i = j
  · rw [if_pos hij] at hm
    rcases Hand.read_next hp _ hm with hold | rfl
    · exact h.read j now hold
    · exact le_rfl
  · rw [if_neg hij] at hm
    exact h.read j now hm

theorem held_step (h : RetentionInv w log) (hp : w.Performs o r w')
    (hg : (handOf log i).Guard o) (hs : w.QueuedStep w' (o.queues r)) (hk : k ≠ "")
    (hq : o ≠ .clear q) (hl : w.dedupeKeys.lookup k = some t)
    (honly : ∀ q' v, w.Live q' v → v.dedupeKey = k → q' = q) : t + dedupeKeyRetention ≤ w.clock ∨
      w'.dedupeKeys.lookup k = some t ∧ ∀ q' v, w'.Live q' v → v.dedupeKey = k → q' = q := by
  have hlive : ∀ q' v, w'.Live q' v → v.dedupeKey = k → q' = q := by
    intro q' v hv hvk
    rcases hs.origin q' v hv with ⟨jw, hb, rfl⟩ | ⟨u, hu, hcore⟩
    · -- a newborn wrapper with this key would have found no entry for it
      have hnone := (hp.claims hg hb (hvk ▸ hk)).1
      rw [show jw.dedupeKey = k from hvk, hl] at hnone
      cases hnone
    · exact honly q' u hu ((key_of_core hcore).trans hvk)
  rcases hp.lookup_key k with hsame | ⟨-, -, -, hnone, -⟩ | ⟨queue, rfl, hmem⟩ |
    ⟨now, t', rfl, hl', -, hold⟩
  · exact .inr ⟨hsame.trans hl, hlive⟩
  · rw [hl] at hnone
    cases hnone
  · obtain ⟨-, v, hv, hvk⟩ := mem_keysOfQueue.mp hmem
    obtain rfl := honly queue v hv hvk
    exact absurd rfl hq
  · obtain rfl : t = t' := Option.some.inj (hl.symm.trans hl')
    have hnow := h.read i now hg
    exact .inl ((le_sub_iff_add_le'.mp hold).trans hnow)

theorem claim_step (hd : DedupeInv w) {k : String} {m : Hand}
    (hp : w.Performs (.claim jw k q) (some t) w') (hg : m.Guard (.claim jw k q))
    (hs : w.QueuedStep w' (some (jw, q))) : t = w.clock ∧ w'.dedupeKeys.lookup k = some t ∧
      ∀ q' v, w'.Live q' v → v.dedupeKey = k → q' = q := by
  have hne : jw.dedupeKey ≠ "" := hg.2.1 ▸ hg.1
  have ht : t = w.clock := by
    cases hp with
    | quiet h => cases h
    | claim => rfl
  have hnew := (hp.claims hg rfl hne).2
  rw [hg.2.1, ← ht] at hnew
  refine ⟨ht, hnew, fun q' v hv hvk => ?_⟩
  rcases hs.origin q' v hv with ⟨jw', hb, rfl⟩ | ⟨u, hu, hcore⟩
  · exact (Prod.mk.inj (Option.some.inj hb)).2.symm
  · have hh := hd.ne_newborn hp hg rfl hne hu
    exact absurd ((key_of_core hcore).trans (hvk.trans hg.2.1.symm)) hh

theorem step (h : RetentionInv w log) (hd : DedupeInv w) (hp : w.Performs o r w')
    (hg : (handOf log i).Guard o) (hs : w.QueuedStep w' (o.queues r)) :
    RetentionInv w' (log ++ [⟨i, o, r⟩]) := by
  have hclock := hp.clock
  refine ⟨fun j now hm => ?_, fun k q t hc => ?_⟩
  · rw [hclock]
    exact h.read_step hp j hm
  · rw [hclock]
    rcases claimed_concat hc with ⟨hc, hq⟩ | ⟨i', jw, hev⟩
    · obtain ⟨hk, hover | ⟨hl, honly⟩⟩ := h.gated k q t hc
      · exact ⟨hk, .inl hover⟩
      · exact ⟨hk, h.held_step hp hg hs hk hq hl honly⟩
    · cases hev
      exact ⟨hg.1, .inr (claim_step hd hp hg hs).2⟩

end RetentionInv

/-- An enqueuing claim comes a retention period after the standing ones of its key. -/
def Spaced (before : Log MemOp.Res) : Event MemOp.Res → Prop
  | ⟨_, .claim _ k _, some t'⟩ => ∀ q t, Claimed before k q t → dedupeKeyRetention ≤ t' - t
  | _ => True

theorem RetentionInv.spaced {log : Log MemOp.Res} {i : Nat}
    (h : RetentionInv w log) (hp : w.Performs o r w') : Spaced log ⟨i, o, r⟩ := by
  cases hp with
  | quiet hq =>
    cases o with
    | claim jw k name =>
      cases r with
      | none => trivial
      | some t => cases hq
    | _ => trivial
  | claim jw name hnone =>
    intro q t hc
    obtain ⟨-, hover | ⟨hl, -⟩⟩ := h.gated _ q t hc
    · exact le_sub_iff_add_le'.mpr hover
    · rw [hnone] at hl
      cases hl
  | _ => trivial

structure DedupeRun (w : MemWorld) (log : Log MemOp.Res) : Prop where
  mem : MemInv w log
  dedupe : DedupeInv w
  retention : RetentionInv w log
  spaced : EachAfter Spaced log

theorem memory_dedupe_run (registry : Registry) (acts : List (Act MemEnv MemCall)) :
    let p := (memorySystem registry).run (.start {}) acts
    DedupeRun p.world p.log := by
  refine System.invariant (memorySystem registry) Hand.monitor Hand.wp_body
    ⟨.start, .start, .start, eachAfter_nil _⟩ (fun _ _ _ _ _ => trivial) ?_ acts
  intro w l i e o hinv hg
  have hp := memStep_performs registry { w with clock := w.clock + e.elapsed } e o
  have hmem := hinv.mem.tick (w.clock + e.elapsed)
  have hdedupe : DedupeInv { w with clock := w.clock + e.elapsed } :=
    ⟨hinv.dedupe.unique, hinv.dedupe.present⟩
  have hret := hinv.retention.tick (show w.clock ≤ w.clock + e.elapsed by
    exact le_add_of_nonneg_right (Int.natCast_nonneg _))
  have hq := hp.queuedStep hmem.issued
  exact ⟨hmem.step hg hp, hdedupe.step hmem.exclusive hp hg hq, hret.step hdedupe hp hg hq,
    eachAfter_concat.mpr ⟨hinv.spaced, hret.spaced hp⟩⟩

theorem memory_dedupe (registry : Payload → Except Err Job) (acts : List (Act MemEnv MemCall)) :
    let p := (memorySystem registry).run (.start {}) acts
    (∀ y z q q' v u, y.queue = some q → z.queue = some q' → v ∈ p.world.wrappersAt y →
      u ∈ p.world.wrappersAt z → v.dedupeKey = u.dedupeKey → v.dedupeKey ≠ "" → y = z ∧ v = u) ∧
    (∀ z, (p.world.wrappersAt z).Nodup) ∧
    (∀ z q v, z.queue = some q → v ∈ p.world.wrappersAt z → v.dedupeKey ≠ "" →
      (p.world.dedupeKeys.lookup v.dedupeKey).isSome = true) ∧
    EachAfter Spaced p.log := by
  obtain ⟨hmem, hdedupe, -, hspaced⟩ := memory_dedupe_run registry acts
  refine ⟨fun y z q q' v u hy hz hv hu hk hne => ?_, fun z => .of_map _ (hmem.exclusive.1 z),
    fun z q v hz hv => hdedupe.present q v ⟨z, hz, hv⟩, hspaced⟩
  have hp := hdedupe.unique q q' v u ⟨y, hy, hv⟩ ⟨z, hz, hu⟩ hk hne
  obtain rfl := hmem.exclusive.2 y z v u hv hu hp
  exact ⟨rfl, inj_on_of_nodup_map (hmem.exclusive.1 y) hv hu hp⟩

end Velocity.Queue
