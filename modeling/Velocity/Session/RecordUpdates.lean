import Velocity.Session.Traces

/-! The updates of one record. Each call that writes, slides or deletes the record takes effect at one
operation on the cache; in the order of these operations no update is lost, and none comes after the
record was removed. -/

namespace Session

open Interleave List Prog CacheStore System

variable {D α : Type}

def effective (id : Bytes) : (o : Op D) → Res o → Bool
  | .putMeta k _ _, _ => k = id
  | .swapMeta k _ _ _, swapped => swapped && k = id
  | .forgetMeta k, _ => k = id
  | .dropMeta .deletion k _, deleted => deleted && k = id
  | _, _ => false

def takesEffect (id : Bytes) (ev : Entry D) : Bool := effective id ev.op ev.res

def Call.change : Call D → Option (Bytes × (D → Option D) × Int × Int)
  | .touch id lastSeen expiresAt => some (id, some, lastSeen, expiresAt)
  | .updateData id update lastSeen expiresAt => some (id, update, lastSeen, expiresAt)
  | _ => none

def Call.mayDo (c : Call D) (id : Bytes) : Op D → Prop
  | .putMeta k raw _ => k = id →
    ∃ s gen now, c = .put s ∧ s.id = id ∧ raw.decodeRecord = (recordAt s gen now).reread
  | .swapMeta k expected raw _ => k = id →
    ∃ update lastSeen expiresAt data, c.change = some (id, update, lastSeen, expiresAt) ∧
      update expected.decodeRecord.data = some data ∧
      raw.decodeRecord = expected.decodeRecord.slid data lastSeen expiresAt
  | .forgetMeta k => k = id → c = .delete id
  | .dropMeta .deletion k expected => k = id →
    ∃ cond, c = .deleteIf id cond ∧ cond expected.decodeRecord.toStored.toMeta = true
  | _ => True

def effects (id : Bytes) (c : Call D) : Monitor (Res (D := D)) where
  State := Bool
  init := false
  allowed := fun _ _ => True
  guard := fun done o r => c.mayDo id o ∧ (effective id o r = true → done = false)
  next := fun done o r => done || effective id o r

def succeeded (id : Bytes) : Call D → Reply D → Bool
  | .put s, .written (.ok ()) => s.id = id
  | .touch k _ _, .written (.ok ()) => k = id
  | .updateData k _ _ _, .written (.ok ()) => k = id
  | .delete k, .written (.ok ()) => k = id
  | .deleteIf k _, .removed (.ok true) => k = id
  | _, _ => false

/-! Reads and upkeep take no effect. -/

theorem quiet_neutral {o : Op D} (h : Quiet o) (id : Bytes) (c : Call D) (done : Bool) (r : Res o) :
    (effects id c).guard done o r ∧ (effects id c).next done o r = done := by
  cases o with
  | putMeta k raw ttl => exact h.elim
  | swapMeta k expected raw ttl => exact h.elim
  | forgetMeta k => exact h.elim
  | dropMeta cause k expected =>
    cases cause with
    | deletion => exact h.elim
    | _ => exact ⟨⟨trivial, nofun⟩, Bool.or_false _⟩
  | _ => exact ⟨⟨trivial, nofun⟩, Bool.or_false _⟩

theorem quiet_wp {p : CacheProg D α} (h : p.All Quiet) (id : Bytes) (c : Call D)
    (done : Bool) : p.wp (effects id c) done fun _ done' => done' = done :=
  wp_of_neutral (effects id c) (h.mono fun _ ho => quiet_neutral ho id c) done

theorem upkeep_wp {p : CacheProg D α} (h : p.All Upkeep) (id : Bytes) (c : Call D)
    (done : Bool) : p.wp (effects id c) done fun _ done' => done' = done :=
  quiet_wp (h.mono upkeep_quiet) id c done

theorem slid_reread (raw : Raw D) (data : D) (lastSeen expiresAt : Int) :
    (raw.decodeRecord.slid data lastSeen expiresAt).reread =
      raw.decodeRecord.slid data lastSeen expiresAt := by
  have h := raw.reread
  generalize raw.decodeRecord = r at h ⊢
  have hid : Utf8.repair r.id = r.id := congrArg CacheRecord.id h
  have huser : Utf8.repair r.userID = r.userID := congrArg CacheRecord.userID h
  have hip : Utf8.repair r.ipAddress = r.ipAddress := congrArg CacheRecord.ipAddress h
  have hagent : Utf8.repair r.userAgent = r.userAgent := congrArg CacheRecord.userAgent h
  simp only [CacheRecord.reread, CacheRecord.slid, hid, huser, hip, hagent]

def isOk {α : Type} : Except StoreErr α → Bool
  | .ok _ => true
  | .error _ => false

/-- A call takes effect on the record `k` exactly if its result says so. -/
abbrev EffectIf {α : Type} (id : Bytes) (c : Call D) (k : Bytes) (p : CacheProg D α)
    (told : α → Bool) : Prop :=
  p.wp (effects id c) false fun r done => done = (decide (k = id) && told r)

theorem noEffect {b : Bool} : false = (b && false) := (Bool.and_false b).symm

section

variable (id k : Bytes) {c : Call D} {update : D → Option D} {lastSeen expiresAt : Int}
  (hc : c.change = some (k, update, lastSeen, expiresAt))

include hc

theorem slideOnce_wp : EffectIf id c k (slideOnce k lastSeen expiresAt update) fun
    | .ok (_, _, swapped) => swapped
    | .error _ => false := by
  refine wp_bind_of (upkeep_wp (liveRaw_upkeep k) id c false) ?_
  rintro live _ rfl
  cases live with
  | error e => exact noEffect
  | ok raw =>
    simp only
    cases hupdate : update raw.decodeRecord.data with
    | none => exact noEffect
    | some data =>
      simp only
      cases hencode : encodeRecord (raw.decodeRecord.slid data lastSeen expiresAt) with
      | none => exact noEffect
      | some encoded =>
        intro now _
        refine ⟨⟨trivial, nofun⟩, ?_⟩
        intro swapped _
        have hslid : encoded.decodeRecord = raw.decodeRecord.slid data lastSeen expiresAt := by
          rw [encodeRecord_eq_some hencode, slid_reread]
        refine ⟨⟨?_, fun _ => rfl⟩, ?_⟩
        · rintro rfl
          exact ⟨update, lastSeen, expiresAt, data, hc, hupdate, hslid⟩
        · cases swapped with
          | true => exact (Bool.and_true _).symm
          | false => exact noEffect

theorem slide_wp : EffectIf id c k (slide k lastSeen expiresAt update) isOk := by
  unfold slide
  split
  · exact noEffect
  · generalize recordWriteAttempts = n
    induction n with
    | zero => exact noEffect
    | succ n ih =>
      refine wp_bind_of (slideOnce_wp id k hc) ?_
      intro r done hdone
      match r, hdone with
      | .error e, hdone => exact hdone
      | .ok (r, ttl, true), hdone =>
        refine wp_bind_of (upkeep_wp (extendIndex_upkeep r ttl) id c done) ?_
        rintro _ _ rfl
        exact hdone
      | .ok (r, ttl, false), hdone =>
        obtain rfl : done = false := by simpa using hdone
        exact ih

end

def isDeleted : Except StoreErr Bool → Bool
  | .ok deleted => deleted
  | .error _ => false

theorem deleteIf_wp (id k : Bytes) (cond : SessionMeta → Bool) :
    EffectIf (D := D) id (.deleteIf k cond) k (deleteIf k cond) isDeleted := by
  unfold deleteIf
  split
  · exact noEffect
  · generalize recordWriteAttempts = n
    induction n with
    | zero => exact noEffect
    | succ n ih =>
      refine wp_bind_of (upkeep_wp (liveRaw_upkeep k) id _ false) ?_
      rintro live _ rfl
      cases live with
      | error e =>
        show false = _
        cases e.refusal <;> exact noEffect
      | ok raw =>
        show (if cond raw.decodeRecord.toStored.toMeta then _ else _ :
          Prog (Res) _).wp _ _ _
        split
        case isFalse => exact noEffect
        case isTrue hcond =>
          apply wp_perform_bind
          intro deleted _
          refine ⟨⟨?_, fun _ => rfl⟩, ?_⟩
          · rintro rfl
            exact ⟨cond, rfl, hcond⟩
          · cases deleted with
            | false => exact ih
            | true =>
              refine wp_bind_of (upkeep_wp (unlink_upkeep _ _) id _ _) ?_
              rintro _ _ rfl
              exact (Bool.and_true _).symm

theorem put_wp (id : Bytes) (s : StoredSession D) : EffectIf id (.put s) s.id (put s) isOk := by
  unfold put
  split
  · exact noEffect
  · refine wp_bind_of (quiet_wp (stamp_quiet s.userID) id _ false) ?_
    rintro gen _ rfl
    cases gen with
    | error e => exact noEffect
    | ok gen =>
      apply wp_perform_bind
      intro now _
      refine ⟨⟨trivial, nofun⟩, ?_⟩
      refine wp_bind_of (upkeep_wp (unbind_upkeep _ _) id _ false) ?_
      rintro _ _ rfl
      cases hencode : encodeRecord (recordAt s gen now) with
      | none => exact noEffect
      | some raw =>
        apply wp_perform_bind
        intro _ _
        refine ⟨⟨?_, fun _ => rfl⟩, ?_⟩
        · intro hid
          exact ⟨s, gen, now, rfl, hid, encodeRecord_eq_some hencode⟩
        · refine wp_bind_of (upkeep_wp (extendIndex_upkeep _ _) id _ _) ?_
          rintro _ _ rfl
          exact (Bool.and_true _).symm

variable {id : Bytes}

theorem delete_wp (hid : id ≠ []) (k : Bytes) :
    EffectIf (D := D) id (.delete k) k (delete k) isOk := by
  unfold delete
  split
  case isTrue hk =>
    have hne : k ≠ id := by
      rintro rfl
      exact hid hk
    show false = _
    simp [hne]
  case isFalse =>
    intro found _
    refine ⟨⟨trivial, nofun⟩, ?_⟩
    apply wp_perform_bind
    intro _ _
    refine ⟨⟨fun h => by rw [h], fun _ => rfl⟩, ?_⟩
    refine wp_bind_of (upkeep_wp (unlink_upkeep _ _) id _ _) ?_
    rintro _ _ rfl
    exact (Bool.and_true _).symm

theorem perform_wp (hid : id ≠ []) (c : Call D) :
    (perform c).wp (effects id c) false fun r done => done = succeeded id c r := by
  cases c with
  | get k =>
    refine wp_bind_of (upkeep_wp (get_upkeep k) id _ false) ?_
    rintro r _ rfl
    rfl
  | put s =>
    refine wp_bind_of (put_wp id s) ?_
    intro r done hdone
    cases r with
    | error e => exact hdone.trans (Bool.and_false _)
    | ok u => exact hdone.trans (Bool.and_true _)
  | touch k lastSeen expiresAt | updateData k update lastSeen expiresAt =>
    refine wp_bind_of (slide_wp id k rfl) ?_
    intro r done hdone
    cases r with
    | error e => exact hdone.trans (Bool.and_false _)
    | ok u => exact hdone.trans (Bool.and_true _)
  | deleteIf k cond =>
    refine wp_bind_of (deleteIf_wp id k cond) ?_
    intro r done hdone
    match r, hdone with
    | .error e, hdone | .ok false, hdone => exact hdone.trans (Bool.and_false _)
    | .ok true, hdone => exact hdone.trans (Bool.and_true _)
  | delete k =>
    refine wp_bind_of (delete_wp hid k) ?_
    intro r done hdone
    cases r with
    | error e => exact hdone.trans (Bool.and_false _)
    | ok u => exact hdone.trans (Bool.and_true _)
  | deleteAllForUser userID =>
    refine wp_bind_of (quiet_wp (deleteAllForUser_quiet userID) id _ false) ?_
    rintro r _ rfl
    rfl
  | listForUser userID =>
    refine wp_bind_of (upkeep_wp (listForUser_upkeep userID) id _ false) ?_
    rintro r _ rfl
    rfl

/-- What the store holds under an id. -/
abbrev Slot (D : Type) := Option (StoredSession D)

structure Turn (D : Type) where
  tid : Nat
  before : Slot D
  after : Slot D

def leaves : Entry D → Slot D
  | ⟨_, .putMeta _ raw _, _⟩ => some raw.decodeRecord.toStored
  | ⟨_, .swapMeta _ _ raw _, _⟩ => some raw.decodeRecord.toStored
  | _ => none

def nextTurn (id : Bytes) (h : List (Turn D) × Slot D) (ev : Entry D) : List (Turn D) × Slot D :=
  if takesEffect id ev then (h.1 ++ [⟨ev.tid, h.2, leaves ev⟩], leaves ev) else h

def turns (id : Bytes) (l : List (Entry D)) : List (Turn D) × Slot D :=
  l.foldl (nextTurn id) ([], none)

def Call.Does (id : Bytes) (c : Call D) (before after : Slot D) : Prop :=
  match c with
  | .put s => s.id = id ∧ ∃ r, after = some r ∧ r.data = s.data ∧ r.expiresAt = s.expiresAt
  | .touch k lastSeen expiresAt => k = id ∧ ∃ r, before = some r ∧ after =
    some { r with
      lastSeenAt := (slideForward r.lastSeenAt r.expiresAt lastSeen expiresAt).1
      expiresAt := (slideForward r.lastSeenAt r.expiresAt lastSeen expiresAt).2 }
  | .updateData k update lastSeen expiresAt => k = id ∧ ∃ r data, before = some r ∧
    update r.data = some data ∧ after =
    some { r with
      data := data
      lastSeenAt := (slideForward r.lastSeenAt r.expiresAt lastSeen expiresAt).1
      expiresAt := (slideForward r.lastSeenAt r.expiresAt lastSeen expiresAt).2 }
  | .delete k => k = id ∧ after = none
  | .deleteIf k cond => k = id ∧ after = none ∧ ∃ r, before = some r ∧ cond r.toMeta = true
  | _ => False

def Call.applied (data : Option D) : Call D → Option D
  | .put s => some s.data
  | .updateData _ update _ _ => data.bind update
  | .delete _ => none
  | .deleteIf _ _ => none
  | _ => data

def Call.isUpdate : Call D → Bool
  | .touch _ _ _ => true
  | .updateData _ _ _ _ => true
  | _ => false

def Turn.removes (t : Turn D) : Prop := t.before ≠ none ∧ t.after = none

/-- The times of the record do not go back between one turn and another. -/
def Forward (s t : Slot D) : Prop :=
  ∀ r r', s = some r → t = some r' → r.lastSeenAt ≤ r'.lastSeenAt ∧ NoEarlier r.expiresAt r'.expiresAt

def Consecutive : Slot D → List (Turn D) → Slot D → Prop
  | now, [], last => now = last
  | now, t :: ts, last => t.before = now ∧ Consecutive t.after ts last

/-- An order of the calls on a record that accounts for its data and times. -/
structure Linearized (p : Pool (Res (D := D)) (Backend D) (Call D) (Reply D)) (id : Bytes)
    (ts : List (Turn D)) (last : Slot D) : Prop where
  once : (ts.map Turn.tid).Nodup
  successful : ∀ i c r, p.Returned i c r → (i ∈ ts.map Turn.tid ↔ succeeded id c r = true)
  effect : ∀ t ∈ ts, ∃ c, p.callOf t.tid = some c ∧ c.Does id t.before t.after
  consecutive : Consecutive none ts last
  data : last.map StoredSession.data = (ts.filterMap fun t => p.callOf t.tid).foldl Call.applied none
  forward : ts.Pairwise fun t u => Forward t.after u.after
  removed : ts.Pairwise fun t u => t.removes → ∀ c, p.callOf u.tid = some c → c.isUpdate = false
  stored : ∀ i, p.world.metas.lookup id = some i → last = some i.value.decodeRecord.toStored

theorem NoEarlier.trans {a b c : Int} (h : NoEarlier a b) (h' : NoEarlier b c) : NoEarlier a c := by
  unfold NoEarlier at *
  omega

section Turns

theorem turns_concat (l : List (Entry D)) (ev : Entry D) :
    turns id (l ++ [ev]) = nextTurn id (turns id l) ev := by
  rw [turns, foldl_append]
  rfl

variable {c : Call D} {before after : Slot D} {l : List (Entry D)} {ev : Entry D}
  {kept : Option (Nat × Raw D)} {t : Turn D}

theorem Call.Does.applied (h : c.Does id before after) :
    after.map StoredSession.data = c.applied (before.map StoredSession.data) := by
  cases c with
  | put s =>
    obtain ⟨-, r, rfl, hdata, -⟩ := h
    exact congrArg some hdata
  | touch k lastSeen expiresAt =>
    obtain ⟨-, r, rfl, rfl⟩ := h
    rfl
  | updateData k update lastSeen expiresAt =>
    obtain ⟨-, r, data, rfl, hdata, rfl⟩ := h
    exact hdata.symm
  | delete k =>
    obtain ⟨-, rfl⟩ := h
    rfl
  | deleteIf k cond =>
    obtain ⟨-, rfl, -⟩ := h
    rfl
  | _ => exact h.elim

theorem Call.Does.cases (h : c.Does id before after) :
    (∃ s, c = .put s ∧ s.id = id) ∨ after = none ∧ c.isUpdate = false ∨
      ∃ r r', before = some r ∧ after = some r' ∧
        r.lastSeenAt ≤ r'.lastSeenAt ∧ NoEarlier r.expiresAt r'.expiresAt := by
  cases c with
  | put s => exact .inl ⟨s, rfl, h.1⟩
  | touch k lastSeen expiresAt =>
    obtain ⟨-, r, rfl, rfl⟩ := h
    exact .inr (.inr ⟨r, _, rfl, rfl, slideForward_seen_le _ _ _ _,
      slideForward_expires_noEarlier _ _ _ _⟩)
  | updateData k update lastSeen expiresAt =>
    obtain ⟨-, r, -, rfl, -, rfl⟩ := h
    exact .inr (.inr ⟨r, _, rfl, rfl, slideForward_seen_le _ _ _ _,
      slideForward_expires_noEarlier _ _ _ _⟩)
  | delete k => exact .inr (.inl ⟨h.2, rfl⟩)
  | deleteIf k cond => exact .inr (.inl ⟨h.2.1, rfl⟩)
  | _ => exact h.elim

variable {last : Slot D}

attribute [local simp] effective

theorem does_of_effect (heffect : takesEffect id ev = true)
    (hmay : c.mayDo id ev.op) (hfaithful : Faithful l ev)
    (hkept : ∀ raw, (keptOf id l).map Prod.snd = some raw → last = some raw.decodeRecord.toStored) :
    c.Does id last (leaves ev) := by
  obtain ⟨i, o, r⟩ := ev
  cases o with
  | putMeta k raw ttl =>
    obtain rfl : k = id := by simpa [takesEffect] using heffect
    obtain ⟨s, gen, now, rfl, hs, hraw⟩ := hmay rfl
    refine ⟨hs, raw.decodeRecord.toStored, rfl, ?_, ?_⟩
    · show raw.decodeRecord.data = _
      rw [hraw]
      rfl
    · show raw.decodeRecord.expiresAt = _
      rw [hraw]
      rfl
  | swapMeta k expected raw ttl =>
    cases r with
    | false => simp [takesEffect] at heffect
    | true =>
      obtain rfl : k = id := by simpa [takesEffect] using heffect
      obtain ⟨update, lastSeen, expiresAt, data, hchange, hdata, hraw⟩ := hmay rfl
      have hlast := hkept expected hfaithful
      have hleaves : leaves ⟨i, .swapMeta k expected raw ttl, true⟩ =
          some (expected.decodeRecord.slid data lastSeen expiresAt).toStored := by
        show some raw.decodeRecord.toStored = _
        rw [hraw]
      rw [hlast, hleaves]
      cases c with
      | touch k' lastSeen' expiresAt' =>
        obtain ⟨rfl, rfl, rfl, rfl⟩ := hchange
        obtain rfl := Option.some.inj hdata
        exact ⟨rfl, _, rfl, rfl⟩
      | updateData k' update' lastSeen' expiresAt' =>
        obtain ⟨rfl, rfl, rfl, rfl⟩ := hchange
        exact ⟨rfl, _, data, rfl, hdata, rfl⟩
      | _ => cases hchange
  | forgetMeta k =>
    obtain rfl : k = id := by simpa [takesEffect] using heffect
    obtain rfl := hmay rfl
    exact ⟨rfl, rfl⟩
  | dropMeta cause k expected =>
    cases cause with
    | deletion =>
      cases r with
      | false => simp [takesEffect] at heffect
      | true =>
        obtain rfl : k = id := by simpa [takesEffect] using heffect
        obtain ⟨cond, rfl, hcond⟩ := hmay rfl
        exact ⟨rfl, rfl, _, hkept expected hfaithful, hcond⟩
    | _ => simp [takesEffect] at heffect
  | _ => simp [takesEffect] at heffect

theorem keptAfter_cases {k : Nat} {raw : Raw D} (h : keptAfter id kept ev = some (k, raw)) :
    kept = some (k, raw) ∧ takesEffect id ev = false ∨ (∃ ttl, ev = ⟨k, .putMeta id raw ttl, ()⟩) ∨
      ∃ i expected ttl raw₀, ev = ⟨i, .swapMeta id expected raw ttl, true⟩ ∧ kept = some (k, raw₀) := by
  obtain ⟨i, o, r⟩ := ev
  cases o with
  | putMeta k' raw' ttl =>
    by_cases hk : k' = id
    · simp only [keptAfter, hk, if_true, Option.some.injEq, Prod.mk.injEq] at h
      obtain ⟨rfl, rfl⟩ := h
      exact .inr (.inl ⟨ttl, by rw [hk]⟩)
    · simp only [keptAfter, hk, if_false] at h
      exact .inl ⟨h, decide_eq_false hk⟩
  | swapMeta k' expected raw' ttl =>
    cases r with
    | false => exact .inl ⟨h, rfl⟩
    | true =>
      by_cases hk : k' = id
      · simp only [keptAfter, hk, if_true, Option.map_eq_some_iff, Prod.mk.injEq] at h
        obtain ⟨⟨_, raw₀⟩, hkept, rfl, rfl⟩ := h
        exact .inr (.inr ⟨i, expected, ttl, raw₀, by rw [hk], hkept⟩)
      · simp only [keptAfter, hk, if_false] at h
        exact .inl ⟨h, decide_eq_false hk⟩
  | forgetMeta k' =>
    by_cases hk : k' = id
    · simp [keptAfter, hk] at h
    · simp only [keptAfter, hk, if_false] at h
      exact .inl ⟨h, decide_eq_false hk⟩
  | dropMeta cause k' expected =>
    cases r with
    | false => exact .inl ⟨h, by cases cause <;> rfl⟩
    | true =>
      by_cases hk : k' = id
      · simp [keptAfter, hk] at h
      · simp only [keptAfter, hk, if_false] at h
        exact .inl ⟨h, by cases cause <;> simp [takesEffect, hk]⟩
  | _ => exact .inl ⟨h, rfl⟩

theorem kept_nextTurn {h : List (Turn D) × Slot D}
    (hkept : ∀ raw, kept.map Prod.snd = some raw → h.2 = some raw.decodeRecord.toStored)
    (ev : Entry D) (raw : Raw D) (hraw : (keptAfter id kept ev).map Prod.snd = some raw) :
    (nextTurn id h ev).2 = some raw.decodeRecord.toStored := by
  obtain ⟨⟨k, _⟩, hafter, rfl⟩ := Option.map_eq_some_iff.mp hraw
  rcases keptAfter_cases hafter with ⟨rfl, hno⟩ | ⟨ttl, rfl⟩ | ⟨-, -, -, -, rfl, -⟩
  · simpa [nextTurn, hno] using hkept _ rfl
  · simp [nextTurn, takesEffect, leaves]
  · simp [nextTurn, takesEffect, leaves]

/-! The turns of a run, for a record that is put at most once. -/

variable (id) in
def WasPut (calls : Nat → Option (Call D)) (ts : List (Turn D)) : Prop :=
  ∃ t ∈ ts, ∃ s, calls t.tid = some (.put s) ∧ s.id = id

variable (id) in
structure Accounted (calls : Nat → Option (Call D)) (ts : List (Turn D))
    (last : Slot D) : Prop where
  effect : ∀ t ∈ ts, ∃ c, calls t.tid = some c ∧ c.Does id t.before t.after
  consecutive : Consecutive none ts last
  data : last.map StoredSession.data = (ts.filterMap fun t => calls t.tid).foldl Call.applied none
  unborn : ¬WasPut id calls ts → last = none ∧ ∀ t ∈ ts, t.before = none ∧ t.after = none
  latest : ∀ t ∈ ts, Forward t.after last
  ended : ∀ t ∈ ts, t.removes → last = none
  forward : ts.Pairwise fun t u => Forward t.after u.after
  removed : ts.Pairwise fun t u => t.removes → ∀ c, calls u.tid = some c → c.isUpdate = false

variable {ts : List (Turn D)}

theorem Consecutive.concat {now last : Slot D}
    (h : Consecutive now ts last) (ht : t.before = last) : Consecutive now (ts ++ [t]) t.after := by
  induction ts generalizing now with
  | nil =>
    obtain rfl : now = last := h
    exact ⟨ht, rfl⟩
  | cons u ts ih => exact ⟨h.1, ih h.2⟩

theorem Accounted.nil (calls : Nat → Option (Call D)) : Accounted id calls [] none where
  effect := by simp
  consecutive := rfl
  data := rfl
  unborn := by simp
  latest := by simp
  ended := by simp
  forward := List.Pairwise.nil
  removed := List.Pairwise.nil

variable {calls : Nat → Option (Call D)}

def PutOnce (id : Bytes) (calls : Nat → Option (Call D)) : Prop :=
  ∀ i j s s', calls i = some (.put s) → calls j = some (.put s') → s.id = id → s'.id = id → i = j

theorem Accounted.unborn_of_put (h : Accounted id calls ts last) (honce : PutOnce id calls)
    {i : Nat} {s : StoredSession D} (hi : calls i = some (.put s))
    (hs : s.id = id) (hnew : i ∉ ts.map Turn.tid) :
    last = none ∧ ∀ t ∈ ts, t.before = none ∧ t.after = none := by
  apply h.unborn
  rintro ⟨t, ht, s', hs', hid⟩
  have htid := honce t.tid i s' s hs' hi hid hs
  exact hnew (htid ▸ mem_map_of_mem ht)

theorem Accounted.concat (h : Accounted id calls ts last) (honce : PutOnce id calls)
    (hc : calls t.tid = some c) (hnew : t.tid ∉ ts.map Turn.tid) (hbefore : t.before = last)
    (hdoes : c.Does id t.before t.after) : Accounted id calls (ts ++ [t]) t.after := by
  have hcases := hdoes.cases
  have hlatest : ∀ u ∈ ts, Forward u.after t.after := by
    intro u hu r r' hr hr'
    rcases hcases with ⟨s, rfl, hs⟩ | ⟨hnone, -⟩ | ⟨r₀, r₁, hr₀, hr₁, hseen, hexpires⟩
    · have hall := (h.unborn_of_put honce hc hs hnew).2 u hu
      rw [hall.2] at hr
      cases hr
    · rw [hnone] at hr'
      cases hr'
    · obtain rfl := Option.some.inj (hr₁.symm.trans hr')
      obtain ⟨hle, hno⟩ := h.latest u hu r r₀ hr (hbefore ▸ hr₀)
      exact ⟨hle.trans hseen, hno.trans hexpires⟩
  have hended : ∀ u ∈ ts, u.removes → t.after = none ∧ c.isUpdate = false := by
    intro u hu hremoves
    have hlast := h.ended u hu hremoves
    rcases hcases with ⟨s, rfl, hs⟩ | ⟨hnone, hupdate⟩ | ⟨r₀, r₁, hr₀, -⟩
    · have hall := (h.unborn_of_put honce hc hs hnew).2 u hu
      exact absurd hall.1 hremoves.1
    · exact ⟨hnone, hupdate⟩
    · rw [hbefore, hlast] at hr₀
      cases hr₀
  exact {
    effect := by
      intro u hu
      rcases mem_concat.mp hu with hu | rfl
      · exact h.effect u hu
      · exact ⟨c, hc, hdoes⟩
    consecutive := h.consecutive.concat hbefore
    data := by
      have hlist : (ts ++ [t]).filterMap (fun t => calls t.tid) =
          (ts.filterMap fun t => calls t.tid) ++ [c] := by simp [hc]
      rw [hlist, foldl_append, ← h.data, hdoes.applied, hbefore]
      rfl
    unborn := by
      intro hnot
      have hold : ¬WasPut id calls ts := by
        rintro ⟨u, hu, hs⟩
        exact hnot ⟨u, mem_append_left _ hu, hs⟩
      obtain ⟨hlast, hall⟩ := h.unborn hold
      have hafter : t.after = none := by
        rcases hcases with ⟨s, rfl, hs⟩ | ⟨hnone, -⟩ | ⟨r₀, -, hr₀, -⟩
        · exact absurd ⟨t, by simp, s, hc, hs⟩ hnot
        · exact hnone
        · rw [hbefore, hlast] at hr₀
          cases hr₀
      refine ⟨hafter, ?_⟩
      intro u hu
      rcases mem_concat.mp hu with hu | rfl
      · exact hall u hu
      · exact ⟨hbefore.trans hlast, hafter⟩
    latest := by
      intro u hu
      rcases mem_concat.mp hu with hu | rfl
      · exact hlatest u hu
      · intro r r' hr hr'
        obtain rfl := Option.some.inj (hr.symm.trans hr')
        unfold NoEarlier
        omega
    ended := by
      intro u hu hremoves
      rcases mem_concat.mp hu with hu | rfl
      · exact (hended u hu hremoves).1
      · exact hremoves.2
    forward := by
      refine pairwise_append.mpr ⟨h.forward, pairwise_singleton _ _, ?_⟩
      intro u hu v hv
      obtain rfl := mem_singleton.mp hv
      exact hlatest u hu
    removed := by
      refine pairwise_append.mpr ⟨h.removed, pairwise_singleton _ _, ?_⟩
      intro u hu v hv hremoves c' hc'
      obtain rfl := mem_singleton.mp hv
      obtain rfl := Option.some.inj (hc.symm.trans hc')
      exact (hended u hu hremoves).2 }

variable (id) in
structure Lawful (calls : Nat → Option (Call D)) (pre : List (Entry D))
    (ev : Entry D) : Prop where
  faithful : Faithful pre ev
  call : ∃ c, calls ev.tid = some c ∧ c.mayDo id ev.op
  once : takesEffect id ev = true → ∀ x ∈ pre, x.tid = ev.tid → takesEffect id x = false

theorem turns_tids (l : List (Entry D)) :
    (turns id l).1.map Turn.tid = marked (takesEffect id) l := by
  induction l using reverseRecOn with
  | nil => rfl
  | append_singleton l ev ih =>
    rw [turns_concat, marked_append, ← ih, nextTurn]
    cases h : takesEffect id ev <;> simp [marked, h]

theorem turns_accounted (hl : EachAfter (Lawful id calls) l) (honce : PutOnce id calls) :
    Accounted id calls (turns id l).1 (turns id l).2 ∧
      ∀ raw, (keptOf id l).map Prod.snd = some raw → (turns id l).2 = some raw.decodeRecord.toStored := by
  induction l using reverseRecOn with
  | nil => exact ⟨Accounted.nil calls, nofun⟩
  | append_singleton l ev ih =>
    obtain ⟨hpre, hev⟩ := eachAfter_concat.mp hl
    obtain ⟨hacc, hkept⟩ := ih hpre
    constructor
    · rw [turns_concat, nextTurn]
      split
      case isFalse => exact hacc
      case isTrue heffect =>
        obtain ⟨c, hc, hmay⟩ := hev.call
        have hnew : ev.tid ∉ (turns id l).1.map Turn.tid := by
          rw [turns_tids, mem_marked]
          rintro ⟨x, hx, hmark, htid⟩
          rw [hev.once heffect x hx htid] at hmark
          cases hmark
        exact hacc.concat honce hc hnew rfl (does_of_effect heffect hmay hev.faithful hkept)
    · intro raw hraw
      rw [keptOf_concat] at hraw
      rw [turns_concat]
      exact kept_nextTurn hkept ev raw hraw

end Turns

theorem effects_stateOf (id : Bytes) (c : Call D) (l : List (Entry D)) (i : Nat) :
    @Eq Bool ((effects id c).stateOf l i) (l.any fun ev => ev.tid = i && takesEffect id ev) :=
  (effects id c).stateOf_any (f := fun done => done) (g := effective id) rfl (fun _ _ _ => rfl) l i

variable [DecidableEq D]

theorem reached_judged (x : Expiry) (start : Backend D) (hid : id ≠ [])
    (acts : List (Act Env (Call D))) :
    System.Judged (effects id) (fun c r done => done = succeeded id c r) (reached x start acts) :=
  (instances x).judged_run (perform_wp hid) (fun _ _ _ _ => trivial) start acts

theorem reached_lawful (x : Expiry) {start : Backend D} (hstart : ∀ id, start.textOf id = none)
    (hid : id ≠ []) (acts : List (Act Env (Call D))) :
    EachAfter (Lawful id (reached x start acts).callOf) (reached x start acts).log := by
  have hjudged := reached_judged x start hid acts
  have hfaithful := (reached_kept x hstart acts).2
  intro pre ev post hlog
  obtain ⟨c, hc, hmay, hdone⟩ := hjudged.call hlog
  refine ⟨hfaithful pre ev post hlog, ⟨c, hc, hmay⟩, ?_⟩
  intro heffect x' hx htid
  have hstate := (effects_stateOf id c pre ev.tid).symm.trans (hdone heffect)
  rw [any_eq_false] at hstate
  simpa [htid] using hstate x' hx

/-- The record is put at most once. -/
theorem updates_linearize (x : Expiry) {start : Backend D} (hstart : ∀ id, start.textOf id = none)
    {id : Bytes} (hid : id ≠ []) (acts : List (Act Env (Call D)))
    (honce : ∀ i j s s', (reached x start acts).callOf i = some (.put s) →
      (reached x start acts).callOf j = some (.put s') → s.id = id → s'.id = id → i = j) :
    ∃ ts last, Linearized (reached x start acts) id ts last ∧
      (instances x).RealTime start acts (ts.map Turn.tid) := by
  have hlawful := reached_lawful x hstart hid acts
  have hjudged := reached_judged x start hid acts
  obtain ⟨hacc, hkept⟩ := turns_accounted hlawful honce
  refine ⟨(turns id (reached x start acts).log).1, (turns id (reached x start acts).log).2, ?_, ?_⟩
  · exact {
      once := by
        rw [turns_tids]
        apply marked_nodup
        intro pre ev post hlog
        exact (hlawful pre ev post hlog).once
      successful := by
        intro i c r hret
        have hdone := hjudged.returned hret
        have hany := (effects_stateOf id c (reached x start acts).log i).symm.trans hdone
        rw [turns_tids, mem_marked, ← hany]
        simp [and_comm]
      effect := hacc.effect
      consecutive := hacc.consecutive
      data := hacc.data
      forward := hacc.forward
      removed := hacc.removed
      stored := by
        intro i hi
        apply hkept
        rw [← (reached_kept x hstart acts).1 id, Backend.textOf, hi]
        rfl }
  · rw [turns_tids]
    exact (instances x).marked_realTime (takesEffect id) start acts fun acts' =>
      (reached_judged x start hid acts').tid_lt

/-! Two updates that read the same record: the swap of the first fails, and it reads again. -/

def racedID : Bytes := Bytes.ascii "s"

def racingUpdates : List (Act Env (Call (List Nat))) :=
  let clock : Env := ⟨10, none, []⟩
  [.spawn (.put ⟨racedID, [], [], 0, 0, 0, [], []⟩),
   .spawn (.updateData racedID (fun d => some (d ++ [1])) 11 0),
   .spawn (.updateData racedID (fun d => some (d ++ [2])) 12 0)] ++
  [0, 0, 0, 1, 2, 2, 2, 1, 1, 1, 1, 1].map fun i => .run i clock

theorem racing_updates_linearize :
    ((reached Expiry.memory Backend.empty racingUpdates).world.textOf racedID).map
        (fun raw => (raw.decodeRecord.data, raw.decodeRecord.lastSeenAt)) = some ([2, 1], 12) ∧
      ∃ ts last, Linearized (reached Expiry.memory Backend.empty racingUpdates) racedID ts last ∧
        (instances Expiry.memory).RealTime Backend.empty racingUpdates (ts.map Turn.tid) := by
  refine ⟨by rfl, updates_linearize Expiry.memory (fun _ => rfl) (by decide) racingUpdates ?_⟩
  have hlen : (reached Expiry.memory Backend.empty racingUpdates).threads.length = 3 := by rfl
  have hzero : ∀ i s, (reached Expiry.memory Backend.empty racingUpdates).callOf i = some (.put s) →
      i = 0 := by
    intro i s hi
    have hlt := Pool.lt_of_callOf hi
    rw [hlen] at hlt
    interval_cases i
    · rfl
    · cases hi
    · cases hi
  intro i j s s' hi hj _ _
  rw [hzero i s hi, hzero j s' hj]

end Session
