import Velocity.Session.Transitions

/-! A flash value is delivered at most once. Where it can still be delivered from is one place: the bag
of the request that set it, the save that is on its way with it, or the record. -/

namespace Session

open Interleave Json FMap SessionStep Option Phase AList

namespace ServerSession

theorem dropFlash_eq (s : ServerSession) (key : Bytes) : s.dropFlash key =
    { s with flash := s.flash.erase key, modified := s.modified || (s.flash.lookup key).isSome } := by
  unfold dropFlash
  cases h : s.flash.lookup key with
  | some v => simp
  | none =>
    have hkeys : key ∉ s.flash.entries.keys := lookup_eq_none.mp h
    have hsame : s.flash.erase key = s.flash := by
      apply AList.ext
      exact List.kerase_of_notMem_keys hkeys
    simp [hsame]

theorem dropAllFlash_eq (s : ServerSession) : s.dropAllFlash =
    { s with flash := ∅, modified := s.modified || s.flash.entries ≠ [] } := by
  unfold dropAllFlash
  split
  case isTrue h =>
    have hempty : s.flash = ∅ := ext h
    simp [h, ← hempty]
  case isFalse h => simp [h]

theorem persistedLocked_of_settled {s : ServerSession} (h : s.settled = true) :
    s.persistedLocked s.id = true := by
  obtain ⟨-, hsaved, hne, base, hbase⟩ := settled_iff.mp h
  simp [persistedLocked, hsaved, hne, hbase]

structure Good (s : ServerSession) : Prop where
  settled : s.settled = true
  counted : ∀ k n, s.flashLocal.lookup k = some n → n ≤ s.seq
  /-- A flash that the request did not set stands in the base, as it is read back. -/
  based : ∀ k v, s.flash.lookup k = some v → s.flashLocal.lookup k = none →
    ∃ v', s.loadedFlash.lookup k = some v' ∧ v.reread = some v'
  valid : ∀ k v, s.flash.lookup k = some v → Utf8.repair k = k

/-- The steps of other goroutines since a save took its snapshot. -/
structure InFlight (s₀ s : ServerSession) : Prop where
  good : s₀.Good
  base : s.loaded = s₀.loaded
  id : s.id = s₀.id
  seq : s₀.seq ≤ s.seq
  own : ∀ k n, s.flashLocal.lookup k = some n → n ≤ s₀.seq →
    s₀.flashLocal.lookup k = some n ∧ s.flash.lookup k = s₀.flash.lookup k
  rest : ∀ k v, s.flashLocal.lookup k = none → s.flash.lookup k = some v → s₀.flash.lookup k = some v

theorem InFlight.refl {s : ServerSession} (h : s.Good) : InFlight s s :=
  ⟨h, rfl, rfl, le_rfl, fun _ _ h _ => ⟨h, rfl⟩, fun _ _ _ h => h⟩

section Steps

variable {s₀ s : ServerSession}

theorem Good.flash (hs : s.Good) {key : Bytes} (hkey : Utf8.repair key = key) (v : Flashed) :
    (apply s (.flash key v)).Good := by
  refine ⟨hs.settled, ?_, ?_, ?_⟩
  · intro k n hn
    rcases lookup_of_insert hn with ⟨-, rfl⟩ | ⟨-, hn⟩
    · exact le_rfl
    · exact (hs.counted k n hn).trans (Nat.le_succ _)
  · intro k v' hv hown
    rcases lookup_of_insert hv with ⟨rfl, -⟩ | ⟨hk, hv⟩
    · simp [apply] at hown
    · exact hs.based k v' hv ((lookup_insert_ne hk).symm.trans hown)
  · intro k v' hv
    rcases lookup_of_insert hv with ⟨rfl, -⟩ | ⟨-, hv⟩
    · exact hkey
    · exact hs.valid k v' hv

theorem InFlight.flash (hs : InFlight s₀ s) (key : Bytes) (v : Flashed) :
    InFlight s₀ (apply s (.flash key v)) := by
  have hseq := hs.seq
  refine ⟨hs.good, hs.base, hs.id, ?_, ?_, ?_⟩
  · show s₀.seq ≤ s.seq + 1
    omega
  · intro k n hn hle
    rcases lookup_of_insert hn with ⟨-, rfl⟩ | ⟨hk, hn⟩
    · omega
    · obtain ⟨hset, hsame⟩ := hs.own k n hn hle
      exact ⟨hset, (lookup_insert_ne hk).trans hsame⟩
  · intro k v' hown hv
    rcases lookup_of_insert hv with ⟨rfl, -⟩ | ⟨hk, hv⟩
    · simp [apply] at hown
    · exact hs.rest k v' ((lookup_insert_ne hk).symm.trans hown) hv

/-- A session that has lost flash, together with the marks on it. -/
structure Fewer (s s' : ServerSession) : Prop where
  loaded : s'.loaded = s.loaded
  seq : s'.seq = s.seq
  settled : s'.settled = s.settled
  id : s'.id = s.id
  flash : ∀ k, s'.flash.lookup k = s.flash.lookup k ∧ s'.flashLocal.lookup k = s.flashLocal.lookup k ∨
    s'.flash.lookup k = none ∧ s'.flashLocal.lookup k = none

theorem Fewer.refl (s : ServerSession) : Fewer s s := ⟨rfl, rfl, rfl, rfl, fun _ => .inl ⟨rfl, rfl⟩⟩

theorem Fewer.alike {s s' : ServerSession} (hflash : s'.flash = s.flash)
    (hown : s'.flashLocal = s.flashLocal)
    (hrest : (s'.loaded, s'.seq, s'.settled, s'.id) = (s.loaded, s.seq, s.settled, s.id)) :
    Fewer s s' := by
  obtain ⟨hloaded, hseq, hsettled, hid⟩ := by simpa only [Prod.mk.injEq] using hrest
  exact ⟨hloaded, hseq, hsettled, hid, fun _ => .inl ⟨by rw [hflash], by rw [hown]⟩⟩

section

variable {s' : ServerSession} (h : Fewer s s') {k : Bytes}

include h

theorem Fewer.own {n : Nat} (hn : s'.flashLocal.lookup k = some n) :
    s.flashLocal.lookup k = some n ∧ s'.flash.lookup k = s.flash.lookup k := by
  rcases h.flash k with ⟨hflash, hown⟩ | ⟨-, hown⟩
  · exact ⟨hown.symm.trans hn, hflash⟩
  · rw [hown] at hn
    cases hn

theorem Fewer.held {v : Flashed} (hv : s'.flash.lookup k = some v) :
    s.flash.lookup k = some v ∧ s'.flashLocal.lookup k = s.flashLocal.lookup k := by
  rcases h.flash k with ⟨hflash, hown⟩ | ⟨hflash, -⟩
  · exact ⟨hflash.symm.trans hv, hown⟩
  · rw [hflash] at hv
    cases hv

theorem Fewer.good (hs : s.Good) : s'.Good := by
  have hbase : s'.loadedFlash = s.loadedFlash := by rw [loadedFlash, h.loaded, loadedFlash]
  refine ⟨h.settled.trans hs.settled, ?_, ?_, ?_⟩
  · intro k n hn
    rw [h.seq]
    exact hs.counted k n (h.own hn).1
  · intro k v hv hn
    rw [hbase]
    obtain ⟨hheld, hown⟩ := h.held hv
    exact hs.based k v hheld (hown.symm.trans hn)
  · exact fun k v hv => hs.valid k v (h.held hv).1

theorem Fewer.inFlight (hs : InFlight s₀ s) : InFlight s₀ s' := by
  refine ⟨hs.good, h.loaded.trans hs.base, h.id.trans hs.id, ?_, ?_, ?_⟩
  · rw [h.seq]
    exact hs.seq
  · intro k n hn hle
    obtain ⟨hown, hflash⟩ := h.own hn
    rw [hflash]
    exact hs.own k n hown hle
  · intro k v hn hv
    obtain ⟨hheld, hown⟩ := h.held hv
    exact hs.rest k v (hown.symm.trans hn) hheld

end

theorem fewer_takeFlash (s : ServerSession) (id : Option Bytes) (key : Bytes) :
    Fewer s (apply s (.takeFlash id key)) := by
  simp only [apply]
  split
  · rw [dropFlash_eq]
    refine ⟨rfl, rfl, rfl, rfl, ?_⟩
    intro k
    simp only [lookup_erase_ite]
    split
    · exact .inr ⟨rfl, rfl⟩
    · exact .inl ⟨rfl, rfl⟩
  · exact Fewer.refl s

theorem fewer_flushFlash (s : ServerSession) (id : Option Bytes) :
    Fewer s (apply s (.flushFlash id)) := by
  simp only [apply]
  split
  · exact Fewer.refl s
  · rw [dropAllFlash_eq]
    exact ⟨rfl, rfl, rfl, rfl, fun _ => .inr ⟨rfl, rfl⟩⟩

theorem fewer_clear (s : ServerSession) : Fewer s (apply s .clear) :=
  ⟨rfl, rfl, rfl, rfl, fun _ => .inr ⟨rfl, rfl⟩⟩

/-- The session after its base has lost what a flash read took out of the record. -/
structure Rebased (s s' : ServerSession) (consume : Bag Flashed → Bag Flashed) : Prop where
  settled : s'.settled = true
  flash : s'.flash = s.flash
  flashLocal : s'.flashLocal = s.flashLocal
  seq : s'.seq = s.seq
  id : s'.id = s.id
  busy : s'.busy = s.busy
  base : s'.loadedFlash = consume s.loadedFlash

theorem Good.rebase (hs : s.Good) (consume : Bag Flashed → Bag Flashed) :
    Rebased s (s.rebase s.id consume) consume := by
  obtain ⟨hlive, hsaved, hne, base, hbase⟩ := settled_iff.mp hs.settled
  rw [ServerSession.rebase, if_pos (persistedLocked_of_settled hs.settled)]
  refine ⟨settled_iff.mpr ⟨hlive, hsaved, hne, ?_⟩, rfl, rfl, rfl, rfl, rfl, ?_⟩
  · simp [hbase]
  · simp [loadedFlash, hbase]

/-- The key that was taken stays in the bag only as the request's own. -/
theorem Good.adoptTaken_eq (hs : s.Good) (key : Bytes) : ∃ flash modified,
    apply s (.adoptTaken s.id key) = { s.rebase s.id (erase key) with flash, modified } ∧
      ∀ k v, flash.lookup k = some v → s.flash.lookup k = some v ∧
        (s.flashLocal.lookup k = none → k ≠ key) := by
  have hflash := (hs.rebase (erase key)).flash
  simp only [apply]
  split
  case isTrue hset =>
    refine ⟨(s.rebase s.id (erase key)).flash, _, rfl, ?_⟩
    rw [hflash]
    intro k v hv
    refine ⟨hv, ?_⟩
    rintro hn rfl
    rw [hn] at hset
    cases hset
  case isFalse =>
    rw [dropFlash_eq]
    refine ⟨(s.rebase s.id (erase key)).flash.erase key, _, rfl, ?_⟩
    rw [hflash]
    intro k v hv
    obtain ⟨hk, hv⟩ := lookup_of_erase hv
    exact ⟨hv, fun _ => hk⟩

theorem Good.adoptTaken (hs : s.Good) (key : Bytes) :
    (apply s (.adoptTaken s.id key)).Good ∧
      (apply s (.adoptTaken s.id key)).id = s.id ∧
      (apply s (.adoptTaken s.id key)).busy = s.busy := by
  obtain ⟨hsettled, -, hown, hseq, hid, hbusy, hbase⟩ := hs.rebase (erase key)
  obtain ⟨flash, modified, heq, hflash⟩ := hs.adoptTaken_eq key
  rw [heq]
  refine ⟨⟨hsettled, ?_, ?_, ?_⟩, hid, hbusy⟩
  · rw [hown, hseq]
    exact hs.counted
  · rw [hown]
    intro k v hv hn
    obtain ⟨hv, hk⟩ := hflash k v hv
    obtain ⟨v', hv', hread⟩ := hs.based k v hv hn
    refine ⟨v', ?_, hread⟩
    exact (congrArg (lookup k) hbase).trans ((lookup_erase_ne (hk hn)).trans hv')
  · exact fun k v hv => hs.valid k v (hflash k v hv).1

theorem Good.adoptFlushed (hs : s.Good) : (apply s (.adoptFlushed s.id)).Good ∧
    (apply s (.adoptFlushed s.id)).id = s.id ∧
    (apply s (.adoptFlushed s.id)).busy = s.busy ∧
    (apply s (.adoptFlushed s.id)).flash = ∅ ∧
    (apply s (.adoptFlushed s.id)).flashLocal = ∅ := by
  have hfewer : Fewer s { s.dropAllFlash with flashLocal := ∅ } := by
    rw [dropAllFlash_eq]
    exact ⟨rfl, rfl, rfl, rfl, fun _ => .inr ⟨rfl, rfl⟩⟩
  have hempty : ({ s.dropAllFlash with flashLocal := ∅ } : ServerSession).flash = ∅ := by
    rw [dropAllFlash_eq]
  have hbusy : ({ s.dropAllFlash with flashLocal := ∅ } : ServerSession).busy = s.busy := by
    rw [dropAllFlash_eq]
  have hrebased := (hfewer.good hs).rebase fun _ => ∅
  rw [hfewer.id] at hrebased
  have hflash := hrebased.flash.trans hempty
  have hown := hrebased.flashLocal
  show (({ s.dropAllFlash with flashLocal := ∅ } : ServerSession).rebase s.id fun _ => ∅).Good ∧ _
  refine ⟨⟨hrebased.settled, ?_, ?_, ?_⟩, hrebased.id.trans hfewer.id, hrebased.busy.trans hbusy, hflash,
    hown⟩
  · rw [hown]
    exact nofun
  · rw [hflash]
    exact nofun
  · rw [hflash]
    exact nofun

theorem InFlight.finishSave (hs : InFlight s₀ s) (hgood : s.Good) {payload : RecordPayload}
    (hflash : rereadMap Flashed.reread s₀.flash = some payload.flash) (createdAt now : Int) :
    (apply s (.finishSave s₀.saveBase s.id createdAt now payload)).Good := by
  obtain ⟨hlive, -, hne, -⟩ := settled_iff.mp hgood.settled
  have hread : ∀ k v, s₀.flash.lookup k = some v →
      ∃ v', payload.flash.lookup k = some v' ∧ v.reread = some v' := by
    intro k v hv
    have halone : ∀ k₀ v, s₀.flash.lookup k₀ = some v → Utf8.repair k₀ = k → k₀ = k := by
      intro k₀ v₀ hv₀ hk₀
      exact (hs.good.valid k₀ v₀ hv₀).symm.trans hk₀
    have hlookup := lookup_rereadMap_of_alone hflash (hs.good.valid k v hv) halone
    obtain ⟨v', hv'⟩ := isSome_iff_exists.mp (isSome_of_rereadMap hflash hv)
    rw [hv, bind_some, hv'] at hlookup
    exact ⟨v', hlookup, hv'⟩
  refine ⟨settled_iff.mpr ⟨hlive, rfl, hne, payload, rfl⟩, ?_, ?_, hgood.valid⟩
  · intro k n hn
    simp only [apply, lookup_filter, filter_eq_some_iff] at hn
    exact hgood.counted k n hn.1
  · intro k v hv hn
    simp only [apply, lookup_filter] at hn
    apply hread
    cases hown : s.flashLocal.lookup k with
    | none => exact hs.rest k v hown hv
    | some n =>
      rw [hown] at hn
      have hle : n ≤ s₀.seq := by
        by_contra hlt
        simp [saveBase, hlt] at hn
      exact (hs.own k n hown hle).2.symm.trans hv

end Steps

end ServerSession

namespace Phase

def snapshot : Phase → Option ServerSession
  | .snapped _ s | .wrote _ s _ => some s
  | _ => none

def Fits (s : ServerSession) : Phase → Prop
  | .idle => True
  | .astray => False
  | .turn id => s.busy = true ∧ s.id = id
  | .snapped id s₀ => s.busy = true ∧ s.id = id ∧ s₀.InFlight s
  | .wrote id s₀ _ => s.busy = true ∧ s.id = id ∧ s₀.InFlight s
  | .took id _ => s.busy = true ∧ s.id = id

theorem Fits.keep {s s' : ServerSession} {p : Phase} (h : Fits s p)
    (hbusy : s.busy = true → s'.busy = true) (hid : s'.id = s.id)
    (hflight : ∀ s₀ : ServerSession, s₀.InFlight s → s₀.InFlight s') : Fits s' p := by
  cases p with
  | idle => exact trivial
  | astray => exact h
  | snapped id s₀ | wrote id s₀ update => exact ⟨hbusy h.1, hid.trans h.2.1, hflight s₀ h.2.2⟩
  | _ => exact ⟨hbusy h.1, hid.trans h.2⟩

end Phase

def Permitted (p : Phase) (o : RequestOp) : Prop := Phase.free o ∨ p.may o

section SessionStep

variable {s s' : ServerSession} {p : Phase}

theorem fits_of_fewer (hp : p.Fits s) (h : s.Fewer s') (hbusy : s'.busy = s.busy) : p.Fits s' :=
  hp.keep hbusy.trans h.id fun _ => h.inFlight

/-- What the phase is when a step is permitted. -/
def Permits (s : ServerSession) (p : Phase) : SessionStep → Prop
  | .endTurn => (∃ id, p = .turn id) ∨ ∃ id s₀, p = .snapped id s₀
  | .saveBase => ∃ id, p = .turn id ∧ s.id = id
  | .finishSave snap id _ _ payload => ∃ s₀ update, p = .wrote id s₀ update ∧ s.busy = true ∧ s.id = id ∧
      s₀.InFlight s ∧ snap = s₀.saveBase ∧ rereadMap Flashed.reread s₀.flash = some payload.flash
  | .takeFlash id _ | .flushFlash id => id.getD s.id = s.id
  | .adoptTaken id _ | .adoptFlushed id => ∃ update, p = .took id update ∧ s.busy = true ∧ s.id = id
  | .dropSavedID | .regenerate _ | .restartLifetime | .disown | .invalidate _ => False
  | _ => True

variable {step : SessionStep}

theorem permits (hp : p.Fits s) (h : Permitted p (.session step)) : Permits s p step := by
  rcases h with h | h
  · cases step with
    | takeFlash id key | flushFlash id =>
      cases id with
      | none => rfl
      | some id => exact h.elim
    | _ => first | exact trivial | exact h.elim
  · cases p with
    | astray => exact hp.elim
    | idle => exact h.elim
    | turn id =>
      cases step with
      | endTurn => exact .inl ⟨id, rfl⟩
      | saveBase => exact ⟨id, rfl, hp.2⟩
      | takeFlash id' key | flushFlash id' =>
        obtain rfl : id' = some id := h
        exact hp.2.symm
      | _ => first | exact trivial | exact h.elim
    | snapped id s₀ =>
      cases step with
      | endTurn => exact .inr ⟨id, s₀, rfl⟩
      | _ => first | exact trivial | exact h.elim
    | wrote id s₀ update =>
      cases step with
      | finishSave snap id' createdAt now payload =>
        obtain ⟨rfl, rfl, hflash, -⟩ := h
        exact ⟨s₀, update, rfl, hp.1, hp.2.1, hp.2.2, rfl, hflash⟩
      | _ => first | exact trivial | exact h.elim
    | took id update =>
      cases step with
      | adoptTaken id' key | adoptFlushed id' =>
        obtain ⟨rfl, -⟩ := h
        exact ⟨update, rfl, hp⟩
      | _ => first | exact trivial | exact h.elim

theorem seen_of_fits (hs : s.Good) (hp : p.Fits s) : p.next (.session .look) s = p := by
  cases p with
  | turn id =>
    show (turn id).seen id s = _
    rw [seen, if_pos ⟨hs.settled, hp.2⟩]
  | snapped id s₀ =>
    show (snapped id s₀).seen id s = _
    rw [seen, if_pos ⟨hs.settled, hp.2.1⟩]
  | _ => rfl

/-- A step that only takes flash away and leaves the phase. -/
theorem step_of_fewer (hs : s.Good) (hp : p.Fits s) (h : s.Fewer (step.apply s))
    (hbusy : (step.apply s).busy = s.busy) (hphase : p.next (.session step) s = p) :
    (step.apply s).Good ∧ (p.next (.session step) s).Fits (step.apply s) := by
  rw [hphase]
  exact ⟨h.good hs, fits_of_fewer hp h hbusy⟩

theorem session_step (hs : s.Good) (hp : p.Fits s)
    (hlaw : Permitted p (.session step)) (hkey : ∀ key v, step = .flash key v → Utf8.repair key = key) :
    (step.apply s).Good ∧ (p.next (.session step) s).Fits (step.apply s) := by
  have hpermits := permits hp hlaw
  cases step with
  | takeTurn =>
    have hfewer : s.Fewer { s with busy := true } := .alike rfl rfl rfl
    refine ⟨hfewer.good hs, ?_⟩
    cases p with
    | idle =>
      have hseen : (turn s.id).seen s.id s = .turn s.id := if_pos ⟨hs.settled, rfl⟩
      show Phase.Fits _ (if s.busy then idle else (turn s.id).seen s.id s)
      rw [hseen]
      split
      · exact trivial
      · exact ⟨rfl, rfl⟩
    | _ => exact hp.keep (fun _ => rfl) rfl fun _ => hfewer.inFlight
  | endTurn =>
    have hfewer : s.Fewer { s with busy := false } := .alike rfl rfl rfl
    refine ⟨hfewer.good hs, ?_⟩
    rcases hpermits with ⟨id, rfl⟩ | ⟨id, s₀, rfl⟩ <;> exact trivial
  | look =>
    refine ⟨hs, ?_⟩
    rw [seen_of_fits hs hp]
    exact hp
  | saveBase =>
    obtain ⟨id, rfl, hid⟩ := hpermits
    refine ⟨hs, ?_⟩
    show Phase.Fits s ((snapped id s).seen id s)
    rw [seen, if_pos ⟨hs.settled, hid⟩]
    exact ⟨hp.1, hid, .refl hs⟩
  | finishSave snap id createdAt now payload =>
    obtain ⟨s₀, update, rfl, hbusy, rfl, hflight, rfl, hflash⟩ := hpermits
    exact ⟨hflight.finishSave hs hflash createdAt now, hbusy, rfl⟩
  | flash key v =>
    refine ⟨hs.flash (hkey key v rfl) v, ?_⟩
    cases p <;> exact hp.keep (fun hb => hb) rfl fun _ h => h.flash key v
  | clear => exact step_of_fewer hs hp (ServerSession.fewer_clear s) rfl (by cases p <;> rfl)
  | takeFlash id key =>
    have hbusy : (apply s (.takeFlash id key)).busy = s.busy := by
      simp only [apply, ServerSession.dropFlash_eq]
      split <;> rfl
    exact step_of_fewer hs hp (ServerSession.fewer_takeFlash s id key) hbusy (by cases p <;> rfl)
  | flushFlash id =>
    have hbusy : (apply s (.flushFlash id)).busy = s.busy := by
      simp only [apply, ServerSession.dropAllFlash_eq]
      split <;> rfl
    exact step_of_fewer hs hp (ServerSession.fewer_flushFlash s id) hbusy (by cases p <;> rfl)
  | adoptTaken id key =>
    obtain ⟨update, rfl, hbusy, rfl⟩ := hpermits
    obtain ⟨hgood, hid, hbusy'⟩ := hs.adoptTaken key
    exact ⟨hgood, hbusy'.trans hbusy, hid⟩
  | adoptFlushed id =>
    obtain ⟨-, rfl, hbusy, rfl⟩ := hpermits
    obtain ⟨hgood, hid, hbusy', -⟩ := hs.adoptFlushed
    exact ⟨hgood, hbusy'.trans hbusy, hid⟩
  | dropSavedID | regenerate | restartLifetime | disown | invalidate => exact hpermits.elim
  | _ => exact step_of_fewer hs hp (.alike rfl rfl rfl) rfl (by cases p <;> rfl)

end SessionStep

/-! Where a value can still be delivered from. -/

structure Owned (s : ServerSession) (k : Bytes) (n origin : Nat) : Prop where
  set : s.flashLocal.lookup k = some n
  held : ∃ v, s.flash.lookup k = some v ∧ v.origin = origin

def Phase.covers : Phase → Nat → Bool
  | .wrote _ s₀ _, n => n ≤ s₀.seq
  | _, _ => false

def Mine (s : ServerSession) (p : Phase) (k : Bytes) (origin : Nat) : Prop :=
  (∃ n, Owned s k n origin ∧ p.covers n = false) ∨ ∃ id s₀ n, p = .snapped id s₀ ∧ Owned s₀ k n origin

def Unshared (s : ServerSession) (p : Phase) : Prop :=
  ∀ k k' origin, Mine s p k origin → Mine s p k' origin → k = k'

def Young (s : ServerSession) (p : Phase) : Prop :=
  ∀ id s₀ k n n₀ origin, p = .snapped id s₀ → Owned s k n origin → Owned s₀ k n₀ origin → n ≤ s₀.seq

/-- What is consumed is not in the snapshot of a save on its way, which has the sets up to the
number. -/
def Undisturbed (saving : Option Nat) : (o : RequestOp) → RequestRes o → Prop
  | .session (.takeFlash _ key), s => ∀ n m, s.flashLocal.lookup key = some n → saving = some m → m < n
  | .session (.flushFlash id), s => s.storedFlashLocked (id.getD s.id) = false →
      ∀ k n m, s.flashLocal.lookup k = some n → saving = some m → m < n
  | _, _ => True

section Mine

variable {s s' : ServerSession} {p : Phase}

theorem Owned.of_fewer (h : s.Fewer s') {k : Bytes} {n origin : Nat} (ho : Owned s' k n origin) :
    Owned s k n origin := by
  obtain ⟨hset, v, hv, horigin⟩ := ho
  exact ⟨(h.own hset).1, v, (h.held hv).1, horigin⟩

structure Shrinks (s : ServerSession) (p : Phase) (step : SessionStep) : Prop where
  mine : ∀ k origin, Mine (step.apply s) (p.next (.session step) s) k origin → Mine s p k origin
  young : Young (step.apply s) (p.next (.session step) s)
  gives : ∀ origin, Gives origin (.session step) s →
    (∃ k, Mine s p k origin) ∧ ∀ k, ¬ Mine (step.apply s) (p.next (.session step) s) k origin

variable {step : SessionStep}

theorem shrinks_of_owned (hyoung : Young s p)
    (howned : ∀ k n origin, Owned (step.apply s) k n origin →
      (p.next (.session step) s).covers n = false → Owned s k n origin ∧ p.covers n = false)
    (hphase : ∀ id s₀, p.next (.session step) s = .snapped id s₀ → p = .snapped id s₀)
    (hgives : ∀ origin, Gives origin (.session step) s → (∃ k, Mine s p k origin) ∧
      ∀ k, ¬ Mine (step.apply s) (p.next (.session step) s) k origin) : Shrinks s p step := by
  refine ⟨?_, ?_, hgives⟩
  · rintro k origin (⟨n, ho, hcover⟩ | ⟨id, s₀, n, hp, ho⟩)
    · obtain ⟨ho', hcover'⟩ := howned k n origin ho hcover
      exact .inl ⟨n, ho', hcover'⟩
    · exact .inr ⟨id, s₀, n, hphase id s₀ hp, ho⟩
  · intro id s₀ k n n₀ origin hp ho ho₀
    have hcover : (p.next (.session step) s).covers n = false := by
      rw [hp]
      rfl
    exact hyoung id s₀ k n n₀ origin (hphase id s₀ hp) (howned k n origin ho hcover).1 ho₀

theorem shrinks_of_fewer (hyoung : Young s p) (h : s.Fewer (step.apply s))
    (hphase : p.next (.session step) s = p) (hgives : ∀ origin, Gives origin (.session step) s →
      (∃ k, Mine s p k origin) ∧ ∀ k, ¬ Mine (step.apply s) p k origin) : Shrinks s p step := by
  refine shrinks_of_owned hyoung ?_ ?_ ?_
  · intro k n origin ho hcover
    rw [hphase] at hcover
    exact ⟨ho.of_fewer h, hcover⟩
  · intro id s₀ hp
    rw [hphase] at hp
    exact hp
  · rw [hphase]
    exact hgives

theorem shrinks_of_consumed {step : SessionStep} (hyoung : Young s p)
    (hfewer : s.Fewer (step.apply s))
    (hphase : p.next (.session step) s = p) (hunique : Unshared s p)
    (hgives : ∀ origin, Gives origin (.session step) s → ∃ key n, Owned s key n origin ∧
      (∀ s₀, p.snapshot = some s₀ → s₀.seq < n) ∧ (step.apply s).flashLocal.lookup key = none) :
    Shrinks s p step := by
  refine shrinks_of_fewer hyoung hfewer hphase ?_
  intro origin hg
  obtain ⟨key, n, ho, hquiet, hgone⟩ := hgives origin hg
  have hcover : p.covers n = false := by
    cases p with
    | wrote id' s₀ update =>
      have hlt := hquiet s₀ rfl
      simp only [covers, decide_eq_false_iff_not]
      omega
    | _ => rfl
  have hkey : Mine s p key origin := .inl ⟨n, ho, hcover⟩
  refine ⟨⟨key, hkey⟩, ?_⟩
  rintro k (⟨n', ho', hcover'⟩ | ⟨id', s₀, n₀, rfl, ho₀⟩)
  · obtain rfl := hunique k key origin (.inl ⟨n', ho'.of_fewer hfewer, hcover'⟩) hkey
    rw [ho'.set] at hgone
    cases hgone
  · obtain rfl := hunique k key origin (.inr ⟨id', s₀, n₀, rfl, ho₀⟩) hkey
    have hle := hyoung id' s₀ k n n₀ origin rfl ho ho₀
    have hlt := hquiet s₀ rfl
    omega

theorem shrinks_takeFlash (hs : s.Good) (hyoung : Young s p) {id : Option Bytes} {key : Bytes}
    (hid : id.getD s.id = s.id)
    (hquiet : ∀ s₀ n, p.snapshot = some s₀ → s.flashLocal.lookup key = some n → s₀.seq < n)
    (hunique : Unshared s p) : Shrinks s p (.takeFlash id key) := by
  refine shrinks_of_consumed hyoung (ServerSession.fewer_takeFlash s id key)
    (by cases p <;> rfl) hunique ?_
  rintro origin ⟨hlocal, v, hv, horigin⟩
  rw [hid] at hlocal
  -- The value is the request's own: one from the record would stand in the base.
  obtain ⟨n, hn⟩ : ∃ n, s.flashLocal.lookup key = some n := by
    apply ne_none_iff_exists'.mp
    intro hn
    obtain ⟨v', hv', -⟩ := hs.based key v hv hn
    simp [ServerSession.localFlashLocked, hn, hv',
      ServerSession.persistedLocked_of_settled hs.settled] at hlocal
  refine ⟨key, n, ⟨hn, v, hv, horigin⟩, fun s₀ hsnap => hquiet s₀ n hsnap hn, ?_⟩
  rw [apply, hid, if_pos hlocal, lookup_erase]

theorem shrinks_flushFlash (hs : s.Good) (hyoung : Young s p) {id : Option Bytes}
    (hid : id.getD s.id = s.id) (hquiet : s.storedFlashLocked (id.getD s.id) = false →
      ∀ s₀ k n, p.snapshot = some s₀ → s.flashLocal.lookup k = some n → s₀.seq < n)
    (hunique : Unshared s p) : Shrinks s p (.flushFlash id) := by
  refine shrinks_of_consumed hyoung (ServerSession.fewer_flushFlash s id) (by cases p <;> rfl) hunique ?_
  rintro origin ⟨hstored, key, v, hv, horigin⟩
  have hquiet := hquiet hstored
  rw [hid] at hstored
  -- A value from the record would stand in the base, and the bag would not be taken in memory.
  obtain ⟨n, hn⟩ : ∃ n, s.flashLocal.lookup key = some n := by
    apply ne_none_iff_exists'.mp
    intro hn
    obtain ⟨v', hv', -⟩ := hs.based key v hv hn
    have hmem : key ∈ s.loadedFlash.keys := lookup_isSome.mp (by rw [hv']; rfl)
    have hany : (s.loadedFlash.keys.any fun k => (s.flashLocal.lookup k).isNone) = true :=
      List.any_eq_true.mpr ⟨key, hmem, by rw [hn]; rfl⟩
    rw [ServerSession.storedFlashLocked, ServerSession.persistedLocked_of_settled hs.settled,
      hany] at hstored
    cases hstored
  refine ⟨key, n, ⟨hn, v, hv, horigin⟩, fun s₀ hsnap => hquiet s₀ key n hsnap hn, ?_⟩
  rw [apply, hid, if_neg (by rw [hstored]; simp)]
  rfl

variable {id : Bytes}

theorem shrinks_saveBase (hs : s.Good) (hid : s.id = id) : Shrinks s (.turn id) .saveBase := by
  have hnext : (turn id).next (.session .saveBase) s = .snapped id s := by
    show (snapped id s).seen id s = _
    rw [seen, if_pos ⟨hs.settled, hid⟩]
  refine ⟨?_, ?_, fun _ h => h.elim⟩
  · rw [hnext]
    rintro k origin (⟨n, ho, -⟩ | ⟨id', s₀, n, hp, ho⟩)
    · exact .inl ⟨n, ho, rfl⟩
    · obtain ⟨-, rfl⟩ := snapped.inj hp
      exact .inl ⟨n, ho, rfl⟩
  · rw [hnext]
    intro id' s₀ k n n₀ origin hp ho _
    obtain ⟨-, rfl⟩ := snapped.inj hp
    exact hs.counted k n ho.set

variable {update : RecordPayload → Option RecordPayload}

theorem shrinks_finishSave (hyoung : Young s p) {id id' : Bytes} {s₀ : ServerSession}
    (hp : p = .wrote id s₀ update) (createdAt now : Int)
    (payload : RecordPayload) : Shrinks s p (.finishSave s₀.saveBase id' createdAt now payload) := by
  subst hp
  refine shrinks_of_owned hyoung ?_ ?_ fun _ h => h.elim
  · rintro k n origin ⟨hset, hheld⟩ -
    simp only [apply, lookup_filter, filter_eq_some_iff] at hset
    obtain ⟨hset, hlate⟩ := hset
    refine ⟨⟨hset, hheld⟩, ?_⟩
    simp only [ServerSession.saveBase, Bool.not_eq_true'] at hlate
    exact hlate
  · intro id s₀ h
    cases h

theorem shrinks_adoptTaken (hs : s.Good) (hyoung : Young s p)
    (hp : p = .took id update) (key : Bytes) : Shrinks s p (.adoptTaken s.id key) := by
  subst hp
  obtain ⟨flash, modified, heq, hflash⟩ := hs.adoptTaken_eq key
  refine shrinks_of_owned hyoung ?_ ?_ fun _ h => h.elim
  · rw [heq]
    rintro k n origin ⟨hset, v, hv, horigin⟩ -
    rw [(hs.rebase (erase key)).flashLocal] at hset
    exact ⟨⟨hset, v, (hflash k v hv).1, horigin⟩, rfl⟩
  · intro id s₀ h
    cases h

theorem shrinks_adoptFlushed (hs : s.Good) (hp : p = .took id update) :
    Shrinks s p (.adoptFlushed s.id) := by
  subst hp
  obtain ⟨-, -, -, -, hown⟩ := hs.adoptFlushed
  have hnone : ∀ k origin, ¬ Mine (apply s (.adoptFlushed s.id)) (.turn id) k origin := by
    rintro k origin (⟨n, ho, -⟩ | ⟨id', s₀, n, h, -⟩)
    · have hset := ho.set
      rw [hown] at hset
      cases hset
    · cases h
  refine ⟨fun k origin h => absurd h (hnone k origin), ?_, ?_⟩
  · intro id' s₀ k n n₀ origin h
    cases h
  · rintro origin ⟨k, v, hset, hv, horigin⟩
    obtain ⟨n, hn⟩ := isSome_iff_exists.mp hset
    exact ⟨⟨k, .inl ⟨n, ⟨hn, v, hv, horigin⟩, rfl⟩⟩, fun k => hnone k origin⟩

theorem session_shrinks {step : SessionStep} (hs : s.Good) (hp : p.Fits s) (hyoung : Young s p)
    (hlaw : Permitted p (.session step)) (hset : isSet (.session step) = false)
    (hquiet : Undisturbed (p.snapshot.map ServerSession.seq) (.session step) s)
    (hunique : Unshared s p) : Shrinks s p step := by
  have hpermits := permits hp hlaw
  cases step with
  | takeTurn =>
    refine shrinks_of_owned hyoung ?_ ?_ fun _ h => h.elim
    · intro k n origin ho hcover
      refine ⟨⟨ho.set, ho.held⟩, ?_⟩
      cases p with
      | wrote id s₀ update => exact hcover
      | _ => rfl
    · intro id s₀ hnext
      cases p with
      | idle =>
        have hseen : (turn s.id).seen s.id s = .turn s.id := if_pos ⟨hs.settled, rfl⟩
        change (if s.busy then idle else (turn s.id).seen s.id s) = _ at hnext
        rw [hseen] at hnext
        split at hnext <;> cases hnext
      | _ => exact hnext
  | endTurn =>
    have hnext : p.next (.session .endTurn) s = .idle := by
      rcases hpermits with ⟨id, rfl⟩ | ⟨id, s₀, rfl⟩ <;> rfl
    have hcover : ∀ n, p.covers n = false := by
      rcases hpermits with ⟨id, rfl⟩ | ⟨id, s₀, rfl⟩ <;> exact fun _ => rfl
    refine shrinks_of_owned hyoung ?_ ?_ fun _ h => h.elim
    · intro k n origin ho _
      exact ⟨⟨ho.set, ho.held⟩, hcover n⟩
    · intro id s₀ h
      rw [hnext] at h
      cases h
  | look => exact shrinks_of_fewer hyoung (.refl s) (seen_of_fits hs hp) fun _ h => h.elim
  | saveBase =>
    obtain ⟨id, rfl, hid⟩ := hpermits
    exact shrinks_saveBase hs hid
  | finishSave snap id createdAt now payload =>
    obtain ⟨s₀, update, rfl, -, -, -, rfl, -⟩ := hpermits
    exact shrinks_finishSave hyoung rfl createdAt now payload
  | flash key v => cases hset
  | clear =>
    exact shrinks_of_fewer hyoung (ServerSession.fewer_clear s) (by cases p <;> rfl) fun _ h => h.elim
  | takeFlash id key =>
    refine shrinks_takeFlash hs hyoung hpermits ?_ hunique
    intro s₀ n hsnap hn
    exact hquiet n s₀.seq hn (by rw [hsnap]; rfl)
  | flushFlash id =>
    refine shrinks_flushFlash hs hyoung hpermits ?_ hunique
    intro hstored s₀ k n hsnap hn
    exact hquiet hstored k n s₀.seq hn (by rw [hsnap]; rfl)
  | adoptTaken id key =>
    obtain ⟨update, rfl, -, rfl⟩ := hpermits
    exact shrinks_adoptTaken hs hyoung rfl key
  | adoptFlushed id =>
    obtain ⟨-, rfl, -, rfl⟩ := hpermits
    exact shrinks_adoptFlushed hs rfl
  | dropSavedID | regenerate | restartLifetime | disown | invalidate => exact hpermits.elim
  | _ => exact shrinks_of_fewer hyoung (.alike rfl rfl rfl) (by cases p <;> rfl) fun _ h => h.elim

end Mine

end Session
