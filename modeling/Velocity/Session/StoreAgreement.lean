import Velocity.Session.Traces

/-! The two server session stores side by side: the store in memory, and the store over a memory cache
run by one caller at a time. Operation by operation they give the same answers, except at the instant
of a record's expiry and for records that the text of a record cannot hold. -/

namespace Session

open Interleave List FMap Backend Expiry Option Cache List.Subset
open Bytes (ascii)
open MemoryStore (live_eq_some lookup_of_removeLocked live_removeLocked live_insert_self live_insert_of_ne
  lookup_removeAll mem_ids live_removeAll)

variable {D : Type} {raw : Raw D} {userID : Bytes} {i : Item (Raw D)} {ttl lastSeen : Int}

def Lasts (expiresAt : Int) (expiration : Option Int) : Prop :=
  ∀ d, expiration = some d → expiresAt ≠ 0 ∧ expiresAt ≤ d

def Outlasts (expiresAt : Int) (expiration : Option Int) : Prop :=
  ∀ d, expiration = some d → expiresAt ≠ 0 ∧ expiresAt < d

/-- A duration holds the time left until an expiry. -/
def WithinReach (expiresAt now : Int) : Prop := expiresAt ≠ 0 → expiresAt - now ≤ maxDuration

variable {expiresAt now : Int}

theorem lasts_recordTTL (h : WithinReach expiresAt now) :
    Lasts expiresAt (expirationFor now (recordTTL expiresAt now)) := by
  intro d hd
  unfold recordTTL expirationFor at hd
  have hsecond : second = 1000000000 := rfl
  by_cases hzero : expiresAt = 0
  · simp [hzero] at hd
  · have hreach := h hzero
    simp only [if_neg hzero] at hd
    split at hd
    · split at hd
      · omega
      · simp only [some.injEq] at hd
        omega
    · split at hd
      · omega
      · split at hd
        · omega
        · simp only [some.injEq] at hd
          omega

theorem outlasts_indexTTL (h : WithinReach expiresAt now) :
    Outlasts expiresAt (expirationFor now (indexTTL (recordTTL expiresAt now))) := by
  intro d hd
  have hsecond : second = 1000000000 := rfl
  have hminute : minute = 60000000000 := rfl
  have hmax : maxDuration = 9223372036854775807 := rfl
  by_cases hzero : expiresAt = 0
  · simp [hzero, recordTTL, indexTTL, expirationFor] at hd
  · have hreach := h hzero
    have hbounds : 0 < recordTTL expiresAt now ∧ recordTTL expiresAt now ≤ maxDuration ∧
        expiresAt ≤ now + recordTTL expiresAt now := by
      unfold recordTTL
      split
      · omega
      · split <;> omega
    generalize recordTTL expiresAt now = ttl at hbounds hd
    have hpos : 0 < ttl := hbounds.1
    unfold expirationFor indexTTL at hd
    rw [if_pos hpos] at hd
    split at hd
    · cases hd
    case isFalse hnot =>
      simp only [some.injEq] at hd
      -- A sum that wrapped is negative, which is no expiry.
      have hwrap : Int.bmod (ttl + minute) (2 ^ 64) = ttl + minute ∨
          Int.bmod (ttl + minute) (2 ^ 64) = ttl + minute - 2 ^ 64 := by
        rw [Int.bmod_def]
        have hmod : (ttl + minute) % ((2 ^ 64 : Nat) : Int) = ttl + minute := by
          apply Int.emod_eq_of_lt <;> omega
        rw [hmod]
        split
        · exact .inl rfl
        · norm_num
      rcases hwrap with hwrap | hwrap <;> omega

variable {expiration : Option Int}

theorem readable_of_lasts
    (h : Lasts expiresAt expiration) (hlive : pastExpiry expiresAt now = false) :
    passed now expiration = false := by
  cases expiration with
  | none => rfl
  | some d =>
    obtain ⟨hne, hle⟩ := h d rfl
    simp only [pastExpiry, passed, decide_eq_false_iff_not] at hlive ⊢
    omega

theorem held_of_outlasts
    (h : Outlasts expiresAt expiration) (hlive : pastExpiry expiresAt now = false) :
    before now expiration = true := by
  cases expiration with
  | none => rfl
  | some d =>
    obtain ⟨hne, hlt⟩ := h d rfl
    simp only [pastExpiry, before, decide_eq_false_iff_not, decide_eq_true_eq] at hlive ⊢
    omega

theorem held_of_lasts (h : Lasts expiresAt expiration) (hlive : pastExpiry expiresAt now = false)
    (hoff : expiresAt ≠ 0 → expiresAt ≠ now) : before now expiration = true := by
  cases expiration with
  | none => rfl
  | some d =>
    obtain ⟨hne, hle⟩ := h d rfl
    simp only [pastExpiry, before, decide_eq_false_iff_not, decide_eq_true_eq] at hlive ⊢
    omega

theorem outlasts_extend {current : Option Int}
    (h : Outlasts expiresAt current ∨ Outlasts expiresAt expiration) :
    Outlasts expiresAt (extendExpiration current expiration) := by
  intro d hd
  cases current with
  | none => cases hd
  | some c =>
    cases expiration with
    | none => cases hd
    | some e =>
      have hone : expiresAt ≠ 0 ∧ (expiresAt < c ∨ expiresAt < e) :=
        h.elim (fun h => ⟨(h c rfl).1, .inl (h c rfl).2⟩) fun h => ⟨(h e rfl).1, .inr (h e rfl).2⟩
      simp only [extendExpiration] at hd
      split at hd <;> simp only [some.injEq] at hd <;> omega

theorem pastExpiry_mono {expiresAt now now' : Int} (h : now ≤ now')
    (hlive : pastExpiry expiresAt now' = false) : pastExpiry expiresAt now = false := by
  simp only [pastExpiry, decide_eq_false_iff_not] at hlive ⊢
  omega

/-- A record that the text of a record holds as it is, and whose end is within reach. -/
structure Fits (s : StoredSession D) (now : Int) : Prop where
  id : Utf8.repair s.id = s.id
  userID : Utf8.repair s.userID = s.userID
  ipAddress : Utf8.repair s.ipAddress = s.ipAddress
  userAgent : Utf8.repair s.userAgent = s.userAgent
  createdAt : encodable s.createdAt = true
  lastSeenAt : encodable s.lastSeenAt = true
  expiresAt : encodable s.expiresAt = true
  reach : WithinReach s.expiresAt now

variable {s : StoredSession D}

theorem Fits.mono {now now' : Int} (h : Fits s now) (hle : now ≤ now') : Fits s now' := by
  refine ⟨h.id, h.userID, h.ipAddress, h.userAgent, h.createdAt, h.lastSeenAt, h.expiresAt, ?_⟩
  intro hne
  have hreach := h.reach hne
  omega

theorem encode_of_fits {r : CacheRecord D} (h : Fits r.toStored now) :
    ∃ raw, encodeRecord r = some raw ∧ raw.decodeRecord = r := by
  have htimes : encodable r.createdAt ∧ encodable r.lastSeenAt ∧ encodable r.expiresAt :=
    ⟨h.createdAt, h.lastSeenAt, h.expiresAt⟩
  have hsame : r.reread = r := by
    have hid : Utf8.repair r.id = r.id := h.id
    have huser : Utf8.repair r.userID = r.userID := h.userID
    have hip : Utf8.repair r.ipAddress = r.ipAddress := h.ipAddress
    have hagent : Utf8.repair r.userAgent = r.userAgent := h.userAgent
    simp only [CacheRecord.reread, hid, huser, hip, hagent]
  refine ⟨⟨r.reread, r.reread_reread⟩, ?_, hsame⟩
  rw [encodeRecord, if_pos htimes]

def Current (b : Backend D) (raw : Raw D) : Prop :=
  raw.decodeRecord.userID = [] ∨ ∃ g, raw.decodeRecord.generation = some g ∧
    b.gens.lookup raw.decodeRecord.userID = some g

structure Alive (b : Backend D) (now : Int) (i : Item (Raw D)) : Prop where
  readable : Cache.passed now i.expiration = false
  unexpired : pastExpiry i.value.decodeRecord.expiresAt now = false
  current : Current b i.value

/-- The index of the user names a session, and outlasts it. -/
def Listed (b : Backend D) (id : Bytes) (s : StoredSession D) : Prop := ∃ i,
  b.users.lookup s.userID = some i ∧ id ∈ i.value ∧ Outlasts s.expiresAt i.expiration

/-- The stores hold the same records, under the ids that `P` names, from an instant on. -/
structure AgreeOn (P : Bytes → Prop) (m : MemoryStore D) (b : Backend D) (now : Int)
    (used : List Token) : Prop where
  there : ∀ id s, P id → m.live now id = some s → ∃ i, b.metas.lookup id = some i ∧
    i.value.decodeRecord.toStored = s ∧ Lasts s.expiresAt i.expiration ∧ Current b i.value
  only : ∀ id i, P id → b.metas.lookup id = some i → Alive b now i →
    m.live now id = some i.value.decodeRecord.toStored
  listed : ∀ id s, P id → m.live now id = some s → s.userID ≠ [] → Listed b id s
  keyed : ∀ id i, b.metas.lookup id = some i → i.value.decodeRecord.id = id
  fits : ∀ id s, m.byID.lookup id = some s → s.id = id ∧ id ≠ [] ∧ Fits s now
  stamped : ∀ id i g, b.metas.lookup id = some i → i.value.decodeRecord.generation = some g → g ∈ b.drawn
  issued : ∀ userID g, b.gens.lookup userID = some g → g ∈ b.drawn
  drawn : b.drawn ⊆ used

abbrev Agree (m : MemoryStore D) (b : Backend D) (now : Int) (used : List Token) : Prop :=
  AgreeOn (fun _ => True) m b now used

section Relation

variable {P : Bytes → Prop} {m m' : MemoryStore D} {b : Backend D} {used : List Token}
  {now' : Int} {id : Bytes} {users : FMap Bytes (Item (Finset Bytes))} {t : Token}

theorem live_mono (hle : now ≤ now') (h : m.live now' id = some s) : m.live now id = some s := by
  rw [live_eq_some] at h ⊢
  exact ⟨h.1, pastExpiry_mono hle h.2⟩

theorem passed_mono (hle : now ≤ now') {expiration : Option Int}
    (h : passed now' expiration = false) : passed now expiration = false := by
  cases expiration with
  | none => rfl
  | some d =>
    simp only [passed, decide_eq_false_iff_not] at h ⊢
    omega

theorem live_of_insert {k : Bytes} {t : StoredSession D} (h : (m.insert s).live now k = some t) :
    k = s.id ∧ t = s ∨ k ≠ s.id ∧ m.live now k = some t := by
  obtain ⟨hk, hlive⟩ := live_eq_some.mp h
  rcases lookup_of_insert hk with hself | ⟨hne, hold⟩
  · exact .inl hself
  · exact .inr ⟨hne, live_eq_some.mpr ⟨hold, hlive⟩⟩

theorem live_of_sub (hsub : ∀ k s, m'.byID.lookup k = some s → m.byID.lookup k = some s)
    (h : m'.live now id = some s) : m.live now id = some s := by
  rw [live_eq_some] at h ⊢
  exact ⟨hsub id s h.1, h.2⟩

section

variable (h : AgreeOn P m b now used)

include h

theorem AgreeOn.later (hle : now ≤ now') :
    AgreeOn P m b now' used where
  __ := h
  there id s hP hlive := h.there id s hP (live_mono hle hlive)
  only id i hP hi halive := by
    have hold : Alive b now i :=
      ⟨passed_mono hle halive.readable, pastExpiry_mono hle halive.unexpired, halive.current⟩
    have hlive := (live_eq_some.mp (h.only id i hP hi hold)).1
    exact live_eq_some.mpr ⟨hlive, halive.unexpired⟩
  listed id s hP hlive := h.listed id s hP (live_mono hle hlive)
  fits id s hs := by
    obtain ⟨hid, hne, hfits⟩ := h.fits id s hs
    exact ⟨hid, hne, hfits.mono hle⟩

theorem AgreeOn.weaken {Q : Bytes → Prop} (hQ : ∀ id, Q id → P id) :
    AgreeOn Q m b now used where
  __ := h
  there id s hid := h.there id s (hQ id hid)
  only id i hid := h.only id i (hQ id hid)
  listed id s hid := h.listed id s (hQ id hid)

theorem AgreeOn.alive (hP : P id) (hs : m.live now id = some s) : ∃ i, b.metas.lookup id = some i ∧
      i.value.decodeRecord.toStored = s ∧ Lasts s.expiresAt i.expiration ∧ Alive b now i := by
  obtain ⟨i, hi, rfl, hlasts, hcurrent⟩ := h.there id s hP hs
  have hunexpired := (live_eq_some.mp hs).2
  exact ⟨i, hi, rfl, hlasts, readable_of_lasts hlasts hunexpired, hunexpired, hcurrent⟩

/-- Records go, and those that stay are alive as before. -/
theorem AgreeOn.shrink {b' : Backend D}
    {used' : List Token} (hids : ∀ k s, m'.byID.lookup k = some s → m.byID.lookup k = some s)
    (hmetas : ∀ k i, b'.metas.lookup k = some i → b.metas.lookup k = some i)
    (hthere : ∀ k i, P k → m'.live now k = some i.value.decodeRecord.toStored →
      b.metas.lookup k = some i → Alive b now i → b'.metas.lookup k = some i ∧ Current b' i.value)
    (honly : ∀ k i, P k → b'.metas.lookup k = some i → Alive b' now i → Alive b now i ∧
      (m.live now k = some i.value.decodeRecord.toStored → m'.live now k = m.live now k))
    (hlisted : ∀ k s, P k → m'.live now k = some s → Listed b k s → Listed b' k s)
    (hissued : ∀ userID g, b'.gens.lookup userID = some g → g ∈ b'.drawn)
    (hdrawn : b.drawn ⊆ b'.drawn) (hused : b'.drawn ⊆ used') : AgreeOn P m' b' now used' where
  there k s hP hs := by
    obtain ⟨i, hi, rfl, hlasts, halive⟩ := h.alive hP (live_of_sub hids hs)
    obtain ⟨hi', hcurrent⟩ := hthere k i hP hs hi halive
    exact ⟨i, hi', rfl, hlasts, hcurrent⟩
  only k i hP hi halive := by
    obtain ⟨hold, hsame⟩ := honly k i hP hi halive
    have hs := h.only k i hP (hmetas k i hi) hold
    exact (hsame hs).trans hs
  listed k s hP hs hne := hlisted k s hP hs (h.listed k s hP (live_of_sub hids hs) hne)
  keyed k i hi := h.keyed k i (hmetas k i hi)
  fits k s hs := h.fits k s (hids k s hs)
  stamped k i g hi hg := hdrawn (h.stamped k i g (hmetas k i hi) hg)
  issued := hissued
  drawn := hused

theorem AgreeOn.forget (hlive : ∀ k, m'.live now k = m.live now k)
    (hsub : ∀ k s, m'.byID.lookup k = some s → m.byID.lookup k = some s) : AgreeOn P m' b now used :=
  h.shrink hsub (fun _ _ hi => hi) (fun _ _ _ _ hi halive => ⟨hi, halive.current⟩)
    (fun k _ _ _ halive => ⟨halive, fun _ => hlive k⟩) (fun _ _ _ _ hl => hl) h.issued (refl _) h.drawn

theorem AgreeOn.reindex
    (hlisted : ∀ k s, P k → m.live now k = some s → Listed b k s → Listed { b with users } k s) :
    AgreeOn P m { b with users } now used where
  __ := h
  only k i hP hi halive := h.only k i hP hi { halive with }
  listed k s hP hs hne := hlisted k s hP hs (h.listed k s hP hs hne)

theorem AgreeOn.drop (hdead : ∀ i, b.metas.lookup id = some i → ¬Alive b now i) :
    AgreeOn P m { b with metas := b.metas.erase id } now used := by
  refine h.shrink (fun _ _ hs => hs) (fun _ _ hi => (lookup_of_erase hi).2) ?_ ?_
    (fun _ _ _ _ hl => hl) h.issued (refl _) h.drawn
  · intro k i _ _ hi halive
    have hne : k ≠ id := by
      rintro rfl
      exact hdead i hi halive
    refine ⟨?_, halive.current⟩
    rw [lookup_erase_ite, if_neg hne]
    exact hi
  · intro k i _ _ halive
    exact ⟨{ halive with }, fun _ => rfl⟩

theorem AgreeOn.remove (id : Bytes) :
    AgreeOn P (m.removeLocked id) { b with metas := b.metas.erase id } now used := by
  refine h.shrink (fun _ _ => lookup_of_removeLocked) (fun _ _ hi => (lookup_of_erase hi).2) ?_ ?_
    (fun _ _ _ _ hl => hl) h.issued (refl _) h.drawn
  · intro k i _ hs hi halive
    rw [live_removeLocked] at hs
    split at hs
    · cases hs
    case isFalse hk =>
      refine ⟨?_, halive.current⟩
      rw [lookup_erase_ite, if_neg hk]
      exact hi
  · intro k i _ hi halive
    refine ⟨{ halive with }, fun _ => ?_⟩
    rw [live_removeLocked, if_neg (lookup_of_erase hi).1]

theorem AgreeOn.issued_insert (userID : Bytes) (t : Token) :
    ∀ v g, (b.gens.insert userID t).lookup v = some g → g ∈ t :: b.drawn := by
  intro v g hg
  rcases lookup_of_insert hg with ⟨-, rfl⟩ | ⟨-, hg⟩
  · exact mem_cons_self
  · exact mem_cons_of_mem _ (h.issued v g hg)

theorem AgreeOn.useMore (t : Token) : AgreeOn P m b now (t :: used) :=
  { h with drawn := fun _ ht => mem_cons_of_mem _ (h.drawn ht) }

end

theorem AgreeOn.write (h : AgreeOn (fun k => k ≠ id) m b now used)
    (hraw : raw.decodeRecord.toStored = s) (hid : s.id = id) (hne : id ≠ []) (hfits : Fits s now)
    (hcurrent : Current b raw) (hstamped : ∀ g, raw.decodeRecord.generation = some g → g ∈ b.drawn)
    {metas : FMap Bytes (Item (Raw D))}
    (hmetas : metas = b.metas.insert id ⟨raw, Cache.expirationFor now (recordTTL s.expiresAt now)⟩)
    (hlisted : ∀ k t, k ≠ id → m.live now k = some t → Listed b k t → Listed { b with metas, users } k t)
    (hself : s.userID ≠ [] → Listed { b with metas, users } id s) :
    Agree (m.insert s) { b with metas, users } now used := by
  subst hid hmetas
  exact {
    there := by
      intro k t _ hlive
      rcases live_of_insert hlive with ⟨rfl, rfl⟩ | ⟨hk, hlive⟩
      · exact ⟨_, AList.lookup_insert _, hraw, lasts_recordTTL hfits.reach, hcurrent⟩
      · obtain ⟨i, hi, hrest⟩ := h.there k t hk hlive
        exact ⟨i, (AList.lookup_insert_ne hk).trans hi, hrest⟩
    only := by
      intro k i _ hi halive
      rcases lookup_of_insert hi with ⟨rfl, rfl⟩ | ⟨hk, hi⟩
      · have hexp : pastExpiry s.expiresAt now = false := by
          rw [← hraw]
          exact halive.unexpired
        rw [live_insert_self, hexp, hraw]
        rfl
      · rw [live_insert_of_ne m hk]
        exact h.only k i hk hi { halive with }
    listed := by
      intro k t _ hlive huser
      rcases live_of_insert hlive with ⟨rfl, rfl⟩ | ⟨hk, hlive⟩
      · exact hself huser
      · exact hlisted k t hk hlive (h.listed k t hk hlive huser)
    keyed := by
      intro k i hi
      rcases lookup_of_insert hi with ⟨rfl, rfl⟩ | ⟨hk, hi⟩
      · rw [← hraw]
        rfl
      · exact h.keyed k i hi
    fits := by
      intro k t ht
      rcases lookup_of_insert ht with ⟨rfl, rfl⟩ | ⟨hk, ht⟩
      · exact ⟨rfl, hne, hfits⟩
      · exact h.fits k t ht
    stamped := by
      intro k i g hi hg
      rcases lookup_of_insert hi with ⟨rfl, rfl⟩ | ⟨hk, hi⟩
      · exact hstamped g hg
      · exact h.stamped k i g hi hg
    issued := h.issued
    drawn := h.drawn }

/-- The user's generation is a token drawn for it. -/
abbrev Backend.issue (b : Backend D) (userID : Bytes) (t : Token) : Backend D :=
  { b with gens := b.gens.insert userID t, drawn := t :: b.drawn }

theorem current_insert (hother : raw.decodeRecord.userID ≠ userID) :
    Current (b.issue userID t) raw ↔ Current b raw := by
  unfold Current
  rw [lookup_insert_ite, if_neg hother]

theorem AgreeOn.signOut (h : Agree m b now used) (huser : userID ≠ [])
    (hnew : t ∉ b.drawn) : Agree (m.deleteAllForUser userID) (b.issue userID t) now (t :: used) := by
  have hids : ∀ k s, (m.deleteAllForUser userID).byID.lookup k = some s →
      m.byID.lookup k = some s ∧ s.userID ≠ userID := by
    intro k s hs
    rw [MemoryStore.deleteAllForUser, lookup_removeAll] at hs
    split at hs
    · cases hs
    case isFalse hk =>
      refine ⟨hs, ?_⟩
      intro hown
      exact hk (mem_ids.mpr ⟨huser, s, hs, hown⟩)
  refine h.shrink (fun k s hs => (hids k s hs).1) (fun _ _ hi => hi) ?_ ?_ (fun _ _ _ _ hl => hl)
    (h.issued_insert userID t) (subset_cons_self t _) (cons_subset_cons t h.drawn)
  · intro k i _ hs hi halive
    have hother := (hids k _ (live_eq_some.mp hs).1).2
    exact ⟨hi, (current_insert hother).mpr halive.current⟩
  · intro k i _ hi halive
    have hother : i.value.decodeRecord.userID ≠ userID := by
      intro hown
      obtain ⟨g, hg, hcur⟩ := Or.resolve_left halive.current (hown ▸ huser)
      rcases lookup_of_insert hcur with ⟨-, rfl⟩ | ⟨hother, -⟩
      · exact hnew (h.stamped k i g hi hg)
      · exact hother hown
    refine ⟨{ halive with current := (current_insert hother).mp halive.current }, ?_⟩
    intro hs
    rw [MemoryStore.deleteAllForUser, live_removeAll, if_neg]
    intro hmem
    obtain ⟨-, s, hs', hown⟩ := mem_ids.mp hmem
    obtain rfl := some.inj (hs'.symm.trans (live_eq_some.mp hs).1)
    exact hother hown

theorem AgreeOn.firstToken (h : AgreeOn P m b now used)
    (hnone : b.gens.lookup userID = none) (hnew : t ∉ b.drawn) :
    AgreeOn P m (b.issue userID t) now (t :: used) := by
  refine h.shrink (fun _ _ hs => hs) (fun _ _ hi => hi) ?_ ?_ (fun _ _ _ _ hl => hl)
    (h.issued_insert userID t) (subset_cons_self t _) (cons_subset_cons t h.drawn)
  · intro k i _ _ hi halive
    refine ⟨hi, ?_⟩
    rcases halive.current with hempty | ⟨g, hg, hcur⟩
    · exact .inl hempty
    · refine (current_insert ?_).mpr (.inr ⟨g, hg, hcur⟩)
      intro hown
      rw [hown, hnone] at hcur
      cases hcur
  · intro k i _ hi halive
    refine ⟨{ halive with current := ?_ }, fun _ => rfl⟩
    rcases halive.current with hempty | ⟨g, hg, hcur⟩
    · exact .inl hempty
    · rcases lookup_of_insert hcur with ⟨-, rfl⟩ | ⟨-, hcur⟩
      · exact absurd (h.stamped k i g hi hg) hnew
      · exact .inr ⟨g, hg, hcur⟩

end Relation

theorem setRemove_spec (b : Backend D) (now : Int) (userID : Bytes) (ids : List Bytes) :
    ∃ users, b.setRemove memory now userID ids = { b with users } ∧
    ∀ k (s : StoredSession D), Listed b k s → (s.userID = userID → k ∉ ids) →
      Listed { b with users } k s := by
  unfold setRemove
  split
  · exact ⟨b.users, rfl, fun _ _ hl _ => hl⟩
  · cases hset : b.liveSet memory now userID with
    | none => exact ⟨b.users, rfl, fun _ _ hl _ => hl⟩
    | some i₀ =>
      have hi₀ := (filter_eq_some_iff.mp hset).1
      simp only
      split
      case isTrue hempty =>
        refine ⟨_, rfl, ?_⟩
        rintro k s ⟨i, hi, hmem, hout⟩ hnot
        refine ⟨i, ?_, hmem, hout⟩
        by_cases hv : s.userID = userID
        · obtain rfl := some.inj (hi₀.symm.trans (hv ▸ hi))
          have hin := List.mem_toFinset.mp (Finset.sdiff_eq_empty_iff_subset.mp hempty hmem)
          exact absurd hin (hnot hv)
        · exact (AList.lookup_erase_ne hv).trans hi
      case isFalse =>
        refine ⟨_, rfl, ?_⟩
        rintro k s ⟨i, hi, hmem, hout⟩ hnot
        by_cases hv : s.userID = userID
        · obtain rfl := some.inj (hi₀.symm.trans (hv ▸ hi))
          refine ⟨⟨i₀.value \ ids.toFinset, i₀.expiration⟩, ?_, ?_, hout⟩
          · rw [hv]
            exact AList.lookup_insert _
          · exact Finset.mem_sdiff.mpr ⟨hmem, by simpa using hnot hv⟩
        · exact ⟨i, (AList.lookup_insert_ne hv).trans hi, hmem, hout⟩

theorem setAdd_spec (b : Backend D) (now : Int) (userID : Bytes) (ttl : Int) (id : Bytes) :
    (∀ k s, Listed b k s → pastExpiry s.expiresAt now = false →
      Listed (b.setAdd memory now userID ttl id) k s) ∧
    ∀ s : StoredSession D, s.userID = userID → Outlasts s.expiresAt (expirationFor now ttl) →
      Listed (b.setAdd memory now userID ttl id) id s := by
  unfold setAdd Listed
  simp only [lookup_insert_ite]
  constructor
  · rintro k s ⟨i, hi, hmem, hout⟩ hexp
    by_cases hv : s.userID = userID
    · subst hv
      have hset : b.liveSet memory now s.userID = some i := by
        rw [liveSet, hi, filter_some, if_pos]
        exact held_of_outlasts hout hexp
      rw [if_pos rfl, hset]
      exact ⟨_, rfl, Finset.mem_union_left _ hmem, outlasts_extend (.inl hout)⟩
    · rw [if_neg hv]
      exact ⟨i, hi, hmem, hout⟩
  · rintro s rfl hout
    rw [if_pos rfl]
    cases b.liveSet memory now s.userID with
    | none => exact ⟨_, rfl, Finset.mem_singleton_self id, hout⟩
    | some i =>
      exact ⟨_, rfl, Finset.mem_union_right _ (Finset.mem_singleton_self id),
        outlasts_extend (.inr hout)⟩

variable {b : Backend D}

theorem mem_setMembers {order : List Bytes} {id : Bytes}
    {i : Item (Finset Bytes)} (hi : b.liveSet memory now userID = some i) (hid : id ∈ i.value) :
    id ∈ b.setMembers memory now order userID := by
  rw [setMembers, hi]
  simp only
  split
  case isTrue horder =>
    rw [← horder.2] at hid
    exact mem_toFinset.mp hid
  case isFalse => exact (Finset.mem_sort _).mpr hid

/-! What a caller finds in the memory cache. -/

def recordIn (b : Backend D) (now : Int) (userID id : Bytes) : Option (CacheRecord D) :=
  ((b.readMeta Expiry.memory now id).map Raw.decodeRecord).filter fun r => r.userID = userID

def gone (b : Backend D) (now : Int) (userID : Bytes) (ids : List Bytes) : List Bytes :=
  ids.filter fun id => (recordIn b now userID id).isNone

theorem recordIn_setRemove (b : Backend D) (now : Int) (userID v id : Bytes) (ids : List Bytes) :
    recordIn (b.setRemove memory now userID ids) now v id = recordIn b now v id := by
  obtain ⟨users, hremove, -⟩ := setRemove_spec b now userID ids
  rw [hremove]
  rfl

variable {m : MemoryStore D} {used : List Token} {id : Bytes} {P : Bytes → Prop}

theorem heldMeta_eq_some : b.heldMeta memory now id = some raw ↔
      ∃ i, b.metas.lookup id = some i ∧ before now i.expiration = true ∧ i.value = raw := by
  simp only [heldMeta, map_eq_some_iff, filter_eq_some_iff, and_assoc]
  rfl

theorem readMeta_eq_some : b.readMeta memory now id = some raw ↔
      ∃ i, b.metas.lookup id = some i ∧ passed now i.expiration = false ∧ i.value = raw := by
  simp only [readMeta, map_eq_some_iff, filter_eq_some_iff, and_assoc, memory, Bool.not_eq_true']

theorem AgreeOn.recordIn_ne_none (h : AgreeOn P m b now used)
    (hP : P id) (hs : m.live now id = some s) : recordIn b now s.userID id ≠ none := by
  obtain ⟨i, hi, hstored, hlasts, -⟩ := h.there id s hP hs
  have hpassed := readable_of_lasts hlasts (live_eq_some.mp hs).2
  have hread := readMeta_eq_some.mpr ⟨i, hi, hpassed, rfl⟩
  have howner : i.value.decodeRecord.userID = s.userID := by
    rw [← hstored]
    rfl
  simp [recordIn, hread, filter_some, howner]

/-! The programs run by one caller. -/

section Alone

variable [DecidableEq D]

def alone {α : Type} (p : CacheProg D α) (e : Env) (b : Backend D) : α × Backend D :=
  p.eval (Backend.exec Expiry.memory) e b

section

variable {α β : Type} {e : Env} {b : Backend D}

theorem alone_bind (p : CacheProg D α) (f : α → CacheProg D β) :
    alone (p >>= f) e b = alone (f (alone p e b).1) e (alone p e b).2 :=
  Prog.eval_bind _ _ _ _ _

theorem alone_perform_bind (o : Op D) (f : Res o → CacheProg D β) :
    alone (Prog.perform o >>= f) e b =
      alone (f (b.exec memory e o).1) e (b.exec memory e o).2 := rfl

@[simp] theorem alone_ret (a : α) : alone (Prog.ret a : CacheProg D α) e b = (a, b) := rfl

theorem alone_map {p : CacheProg D α} {a : α} {b' : Backend D} (h : alone p e b = (a, b'))
    (f : α → β) : alone (p >>= fun x => .ret (f x)) e b = (f a, b') := by
  rw [alone_bind, h, alone_ret]

end

variable {e : Env}

theorem recordOf_alone (userID id : Bytes) (e : Env) (b : Backend D) :
    alone (recordOf userID id) e b = (recordIn b e.now userID id, b) := by
  rw [recordOf, alone_perform_bind, exec_getMeta]
  unfold recordIn
  cases b.readMeta memory e.now id with
  | none => rfl
  | some raw =>
    rw [map_some, filter_some]
    by_cases h : raw.decodeRecord.userID = userID <;> simp [h]

theorem goneOf_alone (userID : Bytes) (ids : List Bytes) (e : Env) (b : Backend D) :
    alone (goneOf userID ids) e b = (gone b e.now userID ids, b) := by
  induction ids with
  | nil => rfl
  | cons id ids ih =>
    rw [goneOf, alone_bind, recordOf_alone, alone_bind, ih, gone, gone, filter_cons]
    rfl

theorem relist_alone {ids : List Bytes}
    (h : ∀ id ∈ ids, recordIn b e.now userID id = none) : alone (relist userID ids) e b = ((), b) := by
  induction ids with
  | nil => rfl
  | cons id ids ih =>
    rw [relist, alone_bind, recordOf_alone, h id mem_cons_self]
    exact ih fun k hk => h k (mem_cons_of_mem _ hk)

theorem unlink_alone (userID : Bytes) (ids : List Bytes) (e : Env) (b : Backend D) :
    alone (unlink userID ids) e b = ((), b) ∨ userID ≠ [] ∧ alone (unlink userID ids) e b =
      ((), b.setRemove memory e.now userID (gone b e.now userID ids)) := by
  unfold unlink
  split
  · exact .inl rfl
  case isFalse hne =>
    rw [alone_bind, goneOf_alone]
    split
    · exact .inl rfl
    · refine .inr ⟨fun h => hne (.inl h), ?_⟩
      rw [alone_perform_bind, exec_removeIndex]
      apply relist_alone
      intro _ hid
      have hnone := (mem_filter.mp hid).2
      rw [recordIn_setRemove]
      simpa using hnone

theorem AgreeOn.unlink (h : AgreeOn P m b e.now used) (userID : Bytes) (ids : List Bytes) :
    ∃ b', alone (unlink userID ids) e b = ((), b') ∧ AgreeOn P m b' e.now used := by
  rcases unlink_alone userID ids e b with hsame | ⟨-, hremove⟩
  · exact ⟨b, hsame, h⟩
  · obtain ⟨users, hset, hkeep⟩ := setRemove_spec b e.now userID (gone b e.now userID ids)
    refine ⟨_, hset ▸ hremove, h.reindex fun id s hP hs hl => hkeep id s hl ?_⟩
    rintro rfl hgone
    have hnone := (mem_filter.mp hgone).2
    exact h.recordIn_ne_none hP hs (by simpa using hnone)

theorem AgreeOn.evict (h : AgreeOn P m b e.now used) {id : Bytes}
    (hi : b.metas.lookup id = some i) (hdead : ¬Alive b e.now i) :
    ∃ b', alone (evict i.value) e b = ((), b') ∧ AgreeOn P m b' e.now used := by
  have hid := h.keyed id i hi
  unfold Session.evict
  rw [alone_perform_bind]
  rcases b.exec_dropMeta_cases memory e .eviction i.value.decodeRecord.id i.value with
    hexec | ⟨-, hexec⟩
  · rw [hexec]
    exact ⟨b, rfl, h⟩
  · rw [hexec]
    have hdrop : AgreeOn P m { b with metas := b.metas.erase i.value.decodeRecord.id } e.now used := by
      apply h.drop
      intro _ hi'
      rw [hid, hi] at hi'
      obtain rfl := some.inj hi'
      exact hdead
    exact hdrop.unlink i.value.decodeRecord.userID [i.value.decodeRecord.id]

theorem isPast_alone (r : CacheRecord D) (e : Env) (b : Backend D) :
    alone (isPast r) e b = (pastExpiry r.expiresAt e.now, b) := by
  unfold isPast
  split
  case isTrue h =>
    simp [pastExpiry, h]
  case isFalse => rfl

theorem AgreeOn.liveRaw (h : AgreeOn P m b e.now used) (id : Bytes) (hP : P id) :
    (∃ i, b.metas.lookup id = some i ∧ m.live e.now id = some i.value.decodeRecord.toStored ∧
      alone (liveRaw id) e b = (.ok i.value, b)) ∨
    m.live e.now id = none ∧ ∃ err b', err.refusal = true ∧
      alone (liveRaw id) e b = (.error err, b') ∧ AgreeOn P m b' e.now used := by
  have hdead : ∀ i, b.metas.lookup id = some i → ¬Alive b e.now i → m.live e.now id = none := by
    intro i hi hnot
    cases hs : m.live e.now id with
    | none => rfl
    | some s =>
      obtain ⟨i', hi', -, -, halive⟩ := h.alive hP hs
      obtain rfl := some.inj (hi.symm.trans hi')
      exact absurd halive hnot
  unfold Session.liveRaw
  rw [alone_perform_bind, exec_getMeta]
  cases hread : b.readMeta memory e.now id with
  | none =>
    refine .inr ⟨?_, .notFound, b, rfl, rfl, h⟩
    cases hs : m.live e.now id with
    | none => rfl
    | some s =>
      have hrecord := h.recordIn_ne_none hP hs
      simp [recordIn, hread] at hrecord
  | some raw =>
    obtain ⟨i, hi, hreadable, rfl⟩ := readMeta_eq_some.mp hread
    have hevict : ∀ err : StoreErr, err.refusal = true → ¬Alive b e.now i →
        m.live e.now id = none ∧ ∃ err' b', err'.refusal = true ∧
          alone (do Session.evict i.value; return .error err :
            Prog (Res) (Except StoreErr (Raw D))) e b = (.error err', b') ∧
          AgreeOn P m b' e.now used := by
      intro err herr hnot
      obtain ⟨b', hrun, hagree⟩ := h.evict hi hnot
      exact ⟨hdead i hi hnot, err, b', herr, alone_map hrun _, hagree⟩
    rw [alone_bind, isPast_alone]
    cases hpast : pastExpiry i.value.decodeRecord.expiresAt e.now with
    | true =>
      right
      refine hevict .expired rfl ?_
      intro halive
      rw [halive.unexpired] at hpast
      cases hpast
    | false =>
      simp only [Bool.false_eq_true, if_false]
      split
      case isTrue huser =>
        exact .inl ⟨i, hi, h.only id i hP hi ⟨hreadable, hpast, .inl huser⟩, rfl⟩
      case isFalse huser =>
        split
        case h_1 hnone =>
          right
          refine hevict .notFound rfl ?_
          intro halive
          obtain ⟨g, hg, -⟩ := Or.resolve_left halive.current huser
          rw [hnone] at hg
          cases hg
        case h_2 gen hgen =>
          rw [generation, alone_perform_bind]
          split
          case isTrue hcurrent =>
            exact .inl ⟨i, hi, h.only id i hP hi ⟨hreadable, hpast, .inr ⟨gen, hgen, hcurrent⟩⟩, rfl⟩
          case isFalse hother =>
            right
            refine hevict .notFound rfl ?_
            intro halive
            obtain ⟨g, hg, hcur⟩ := Or.resolve_left halive.current huser
            rw [hgen] at hg
            exact hother (hg ▸ hcur)

theorem extendIndex_alone (r : CacheRecord D) (ttl : Int) (e : Env) (b : Backend D) :
    alone (extendIndex r ttl) e b = ((), if r.userID = [] then b else
      b.setAdd memory e.now r.userID (indexTTL ttl) r.id) := by
  unfold extendIndex
  split <;> rfl

theorem AgreeOn.writeListed {id : Bytes} (h : AgreeOn (fun k => k ≠ id) m b e.now used)
    {s : StoredSession D} (hraw : raw.decodeRecord.toStored = s) (hid : s.id = id) (hne : id ≠ [])
    (hfits : Fits s e.now) (hcurrent : Current b raw)
    (hstamped : ∀ g, raw.decodeRecord.generation = some g → g ∈ b.drawn)
    (httl : ttl = recordTTL s.expiresAt e.now) :
    Agree (m.insert s) (alone (extendIndex raw.decodeRecord ttl) e
      { b with metas := b.metas.insert id ⟨raw, expirationFor e.now ttl⟩ }).2 e.now used := by
  have howner : raw.decodeRecord.userID = s.userID := by
    rw [← hraw]
    rfl
  have hkey : raw.decodeRecord.id = id := by
    rw [← hid, ← hraw]
    rfl
  rw [extendIndex_alone, howner, hkey]
  split
  case isTrue hempty =>
    refine h.write hraw hid hne hfits hcurrent hstamped (by rw [httl]) ?_ ?_
    · exact fun _ _ _ _ hl => hl
    · intro huser
      exact absurd hempty huser
  case isFalse =>
    obtain ⟨hkeep, hadd⟩ := setAdd_spec
      { b with metas := b.metas.insert id ⟨raw, expirationFor e.now ttl⟩ } e.now s.userID
      (indexTTL ttl) id
    refine h.write hraw hid hne hfits hcurrent hstamped (by rw [← httl]) ?_ ?_
    · intro k t _ hlive hl
      exact hkeep k t hl (live_eq_some.mp hlive).2
    · intro _
      exact hadd s rfl (httl ▸ outlasts_indexTTL hfits.reach)

variable {t : Token}

theorem newGeneration_alone (htoken : e.token = some t) (hnew : t ∉ b.drawn) :
    alone newGeneration e b = (.ok t, { b with drawn := t :: b.drawn }) := by
  have hexec : b.exec memory e .random = (some t, { b with drawn := t :: b.drawn }) := by
    simp only [exec, htoken, if_neg hnew]
  rw [newGeneration, alone_perform_bind, hexec]
  rfl

theorem ensureGeneration_alone (htoken : e.token = some t) (hnew : t ∉ b.drawn)
    (hnone : b.gens.lookup userID = none) : alone (ensureGeneration userID) e b =
      (.ok t, b.issue userID t) := by
  have hadd : ({ b with drawn := t :: b.drawn } : Backend D).exec memory e (.addGen userID t) =
      (true, b.issue userID t) := by
    simp only [exec, hnone]
  have hself : (b.gens.insert userID t).lookup userID = some t := by
    exact AList.lookup_insert _
  rw [ensureGeneration, generation, alone_perform_bind, exec_getGen, hnone]
  rw [alone_bind, newGeneration_alone htoken hnew]
  rw [alone_perform_bind, hadd]
  rw [alone_perform_bind, exec_getGen]
  simp only [hself]
  rfl

theorem AgreeOn.stamp (h : AgreeOn P m b e.now used) (htoken : e.token = some t)
    (hnew : t ∉ used) (userID : Bytes) :
    ∃ gen b', alone (stamp userID) e b = (.ok gen, b') ∧ AgreeOn P m b' e.now (t :: used) ∧
      (userID = [] ∧ gen = none ∨ ∃ g, gen = some g ∧ b'.gens.lookup userID = some g) := by
  have hfresh : t ∉ b.drawn := fun hmem => hnew (h.drawn hmem)
  unfold Session.stamp
  split
  case isTrue hempty => exact ⟨none, b, rfl, h.useMore t, .inl ⟨hempty, rfl⟩⟩
  case isFalse =>
    rw [alone_bind]
    cases hgen : b.gens.lookup userID with
    | some g =>
      have hfound : alone (ensureGeneration userID) e b = (.ok g, b) := by
        rw [ensureGeneration, generation, alone_perform_bind, exec_getGen, hgen]
        rfl
      rw [hfound]
      exact ⟨some g, b, rfl, h.useMore t, .inr ⟨g, rfl, hgen⟩⟩
    | none =>
      rw [ensureGeneration_alone htoken hfresh hgen]
      exact ⟨some t, _, rfl, h.firstToken hgen hfresh, .inr ⟨t, rfl, AList.lookup_insert _⟩⟩

theorem AgreeOn.unbind (h : Agree m b e.now used) (id userID : Bytes) :
    ∃ b', alone (unbind id userID) e b = ((), b') ∧ b'.gens = b.gens ∧
      AgreeOn (fun k => k ≠ id) m b' e.now used := by
  have hrest : AgreeOn (fun k => k ≠ id) m b e.now used := h.weaken fun _ _ => trivial
  unfold Session.unbind
  rw [alone_perform_bind]
  simp only
  split
  · exact ⟨b, rfl, rfl, hrest⟩
  case h_2 raw _ =>
    unfold Prog.when
    split
    · obtain ⟨users, hset, hkeep⟩ := setRemove_spec b e.now raw.decodeRecord.userID [id]
      refine ⟨{ b with users }, congrArg (Prod.mk ()) hset, rfl, hrest.reindex ?_⟩
      intro k s hk _ hl
      exact hkeep k s hl (by simp [hk])
    · exact ⟨b, rfl, rfl, hrest⟩

end Alone

/-! The answers of the two stores. -/

/-- The same error, or two refusals. -/
def SameErr (err err' : StoreErr) : Prop := err = err' ∨ err.refusal = true ∧ err'.refusal = true

def SameResult {α : Type} (R : α → α → Prop) : Except StoreErr α → Except StoreErr α → Prop
  | .ok a, .ok a' => R a a'
  | .error err, .error err' => SameErr err err'
  | _, _ => False

/-- A listing counts as a set. -/
def SameReply : Reply D → Reply D → Prop
  | .session r, .session r' => SameResult Eq r r'
  | .written r, .written r' => SameResult Eq r r'
  | .removed r, .removed r' => SameResult Eq r r'
  | .listing r, .listing r' => SameResult (fun out out' => ∀ x, x ∈ out ↔ x ∈ out') r r'
  | _, _ => False

def MemoryStore.perform (m : MemoryStore D) (now : Int) : Call D → Reply D × MemoryStore D
  | .get id => (.session (m.get now id).1, (m.get now id).2)
  | .put s => (.written (m.put now s).1, (m.put now s).2)
  | .touch id lastSeen expiresAt =>
    (.written (m.touch now id lastSeen expiresAt).1, (m.touch now id lastSeen expiresAt).2)
  | .updateData id update lastSeen expiresAt =>
    (.written (m.updateData now id update lastSeen expiresAt).1,
      (m.updateData now id update lastSeen expiresAt).2)
  | .deleteIf id cond => (.removed (.ok (m.deleteIf now id cond).1), (m.deleteIf now id cond).2)
  | .delete id => (.written (.ok ()), m.delete id)
  | .deleteAllForUser userID => (.written (.ok ()), m.deleteAllForUser userID)
  | .listForUser userID =>
    (.listing (.ok (m.listForUser now userID).1), (m.listForUser now userID).2)

def OffExpiry (m : MemoryStore D) (now : Int) (id : Bytes) : Prop :=
  ∀ s, m.byID.lookup id = some s → s.expiresAt ≠ 0 → s.expiresAt ≠ now

/-- A time to slide a record to that its text can hold. -/
structure Holdable (lastSeen expiresAt now : Int) : Prop where
  reach : WithinReach expiresAt now
  lastSeen : encodable lastSeen = true
  expiresAt : encodable expiresAt = true

def StoredSession.storedAt (s : StoredSession D) (now : Int) : StoredSession D :=
  { s with createdAt := if s.createdAt = 0 then now else s.createdAt, lastSeenAt := now }

def Regular (m : MemoryStore D) (now : Int) : Call D → Prop
  | .put s => s.id = [] ∨ Fits (s.storedAt now) now
  | .touch id lastSeen expiresAt => OffExpiry m now id ∧ Holdable lastSeen expiresAt now
  | .updateData id _ lastSeen expiresAt => OffExpiry m now id ∧ Holdable lastSeen expiresAt now
  | .deleteIf id _ => OffExpiry m now id
  | _ => True

theorem Fits.slid {now expiresAt : Int} (h : Fits s now)
    (hto : Holdable lastSeen expiresAt now) (data : D) :
    let slid := slideForward s.lastSeenAt s.expiresAt lastSeen expiresAt
    Fits { s with data := data, lastSeenAt := slid.1, expiresAt := slid.2 } now := by
  intro slid
  have hseen : encodable slid.1 = true := by
    have hold := h.lastSeenAt
    have hnew := hto.lastSeen
    unfold slid slideForward
    split <;> split <;> assumption
  have hexpires : encodable slid.2 = true ∧ WithinReach slid.2 now := by
    unfold slid slideForward
    dsimp only
    split
    · have hzero : encodable 0 = true := by decide
      exact ⟨hzero, absurd rfl⟩
    · dsimp only
      split
      · exact ⟨hto.expiresAt, hto.reach⟩
      · exact ⟨h.expiresAt, h.reach⟩
  exact ⟨h.id, h.userID, h.ipAddress, h.userAgent, h.createdAt, hseen, hexpires.1, hexpires.2⟩

theorem AgreeOn.live_nil (h : AgreeOn P m b now used) : m.live now [] = none := by
  cases hs : m.live now [] with
  | none => rfl
  | some s => exact absurd rfl (h.fits [] s (live_eq_some.mp hs).1).2.1

theorem AgreeOn.held (h : Agree m b now used) (hi : b.metas.lookup id = some i)
    (hs : m.live now id = some i.value.decodeRecord.toStored) (hoff : OffExpiry m now id) :
    b.heldMeta memory now id = some i.value := by
  obtain ⟨i', hi', -, hlasts, -⟩ := h.there id _ trivial hs
  obtain rfl := some.inj (hi.symm.trans hi')
  obtain ⟨hlookup, hunexpired⟩ := live_eq_some.mp hs
  exact heldMeta_eq_some.mpr ⟨i, hi, held_of_lasts hlasts hunexpired (hoff _ hlookup), rfl⟩

theorem mem_listing (m : MemoryStore D) (now : Int) {x : SessionMeta} :
    x ∈ (m.listForUser now userID).1 ↔
      userID ≠ [] ∧ ∃ id s, m.live now id = some s ∧ s.userID = userID ∧ s.toMeta = x := by
  rw [MemoryStore.listForUser]
  simp only [mem_filterMap, map_eq_some_iff]
  constructor
  · rintro ⟨id, hid, s, hs, rfl⟩
    obtain ⟨huser, s', hs', hown⟩ := mem_ids.mp hid
    have hsame := some.inj ((live_eq_some.mp hs).1.symm.trans hs')
    exact ⟨huser, id, s, hs, hsame ▸ hown, rfl⟩
  · rintro ⟨huser, id, s, hs, hown, rfl⟩
    exact ⟨id, mem_ids.mpr ⟨huser, s, (live_eq_some.mp hs).1, hown⟩, s, hs, rfl⟩

theorem AgreeOn.forgetListed (h : AgreeOn P m b now used) (userID : Bytes) :
    AgreeOn P (m.listForUser now userID).2 b now used := by
  apply h.forget
  · intro k
    rw [MemoryStore.listForUser, live_removeAll]
    split
    case isTrue hk =>
      have hnone : m.live now k = none := by simpa using (mem_filter.mp hk).2
      exact hnone.symm
    case isFalse => rfl
  · intro k s hs
    rw [MemoryStore.listForUser, lookup_removeAll] at hs
    split at hs
    · cases hs
    · exact hs

section Calls

variable [DecidableEq D] {e : Env}

theorem AgreeOn.read (h : Agree m b e.now used) (id : Bytes) :
    (∃ i, id ≠ [] ∧ b.metas.lookup id = some i ∧ m.live e.now id = some i.value.decodeRecord.toStored ∧
      m.find e.now id = (.ok i.value.decodeRecord.toStored, m) ∧
      alone (Session.liveRaw id) e b = (.ok i.value, b)) ∨
    ∃ err m' err' b', err.refusal = true ∧ m.find e.now id = (.error err, m') ∧ Agree m' b e.now used ∧
      err'.refusal = true ∧ alone (Session.liveRaw id) e b = (.error err', b') ∧
      Agree m' b' e.now used := by
  rcases m.find_cases e.now id with ⟨s, hs, hfind⟩ | ⟨hs, err, m', herr, hfind, hlive, hsub⟩
  · left
    have hne : id ≠ [] := by
      rintro rfl
      rw [h.live_nil] at hs
      cases hs
    rcases h.liveRaw id trivial with ⟨i, hi, hs', hrun⟩ | ⟨hnone, -⟩
    · obtain rfl := some.inj (hs.symm.trans hs')
      exact ⟨i, hne, hi, hs, hfind, hrun⟩
    · rw [hs] at hnone
      cases hnone
  · right
    rcases h.liveRaw id trivial with ⟨i, -, hs', -⟩ | ⟨-, err', b', herr', hrun, hagree⟩
    · rw [hs] at hs'
      cases hs'
    · exact ⟨err, m', err', b', herr, hfind, h.forget hlive hsub, herr', hrun, hagree.forget hlive hsub⟩

theorem AgreeOn.get (h : Agree m b e.now used) (id : Bytes) :
    ∃ r b', alone (CacheStore.get id) e b = (r, b') ∧ SameResult Eq (m.get e.now id).1 r ∧
      Agree (m.get e.now id).2 b' e.now used := by
  unfold CacheStore.get MemoryStore.get
  rcases h.read id with ⟨i, hne, -, -, hfind, hrun⟩ |
    ⟨err, m', err', b', herr, hfind, hsame, herr', hrun, hagree⟩
  · rw [hfind, if_neg hne, alone_bind, hrun]
    exact ⟨_, b, rfl, rfl, h⟩
  · rw [hfind]
    split
    · exact ⟨_, b, rfl, .inr ⟨herr, rfl⟩, hsame⟩
    · rw [alone_bind, hrun]
      exact ⟨_, b', rfl, .inr ⟨herr, herr'⟩, hagree⟩

variable {t : Token}

theorem AgreeOn.put (h : Agree m b e.now used) (htoken : e.token = some t)
    (hnew : t ∉ used) {s : StoredSession D} (hfits : s.id = [] ∨ Fits (s.storedAt e.now) e.now) :
    ∃ r b', alone (CacheStore.put s) e b = (r, b') ∧ SameResult Eq (m.put e.now s).1 r ∧
      Agree (m.put e.now s).2 b' e.now (t :: used) := by
  unfold CacheStore.put MemoryStore.put
  by_cases hid : s.id = []
  · rw [if_pos hid, if_pos hid]
    exact ⟨_, b, rfl, .inl rfl, h.useMore t⟩
  · have hfits' : Fits (s.storedAt e.now) e.now := hfits.resolve_left hid
    obtain ⟨gen, b₁, hstamp, hagree₁, htok⟩ := h.stamp htoken hnew s.userID
    obtain ⟨b₂, hunbind, hgens, hagree₂⟩ := AgreeOn.unbind hagree₁ s.id s.userID
    have hstored : (recordAt s gen e.now).toStored = s.storedAt e.now := rfl
    obtain ⟨raw, hencode, hdecode⟩ := encode_of_fits (hstored ▸ hfits')
    have hgen : ∀ g, gen = some g → b₂.gens.lookup s.userID = some g := by
      intro g hg
      rcases htok with ⟨-, hnone⟩ | ⟨g', hsome, hcur⟩
      · rw [hnone] at hg
        cases hg
      · rw [hgens, hcur, ← hsome, hg]
    have hcurrent : Current b₂ raw := by
      unfold Current
      rw [hdecode]
      rcases htok with ⟨hempty, -⟩ | ⟨g, hsome, -⟩
      · exact .inl hempty
      · exact .inr ⟨g, hsome, hgen g hsome⟩
    have hstamped : ∀ g, raw.decodeRecord.generation = some g → g ∈ b₂.drawn := by
      intro g hg
      rw [hdecode] at hg
      exact hagree₂.issued s.userID g (hgen g hg)
    have hraw : raw.decodeRecord.toStored = s.storedAt e.now := hdecode ▸ hstored
    have hwritten := hagree₂.writeListed hraw rfl hid hfits' hcurrent hstamped rfl
    rw [hdecode] at hwritten
    have hunbind' : alone (Session.unbind (recordAt s gen e.now).id (recordAt s gen e.now).userID) e b₁ =
      ((), b₂) := hunbind
    rw [if_neg hid, if_neg hid]
    refine ⟨.ok (), _, ?_, rfl, hwritten⟩
    rw [alone_bind, hstamp]
    rw [alone_perform_bind, exec_clock]
    rw [alone_bind, hunbind']
    simp only [hencode]
    rw [alone_perform_bind, alone_bind]
    rfl

theorem slideOnce_alone {raw' : Raw D} (hread : alone (liveRaw id) e b = (.ok raw, b))
    (hheld : b.heldMeta memory e.now id = some raw) {update : D → Option D} {data : D}
    (hupdate : update raw.decodeRecord.data = some data) {expiresAt : Int}
    (hencode : encodeRecord (raw.decodeRecord.slid data lastSeen expiresAt) = some raw')
    (httl : ttl = recordTTL (raw.decodeRecord.slid data lastSeen expiresAt).expiresAt e.now) :
    alone (slideOnce id lastSeen expiresAt update) e b =
      (.ok (raw.decodeRecord.slid data lastSeen expiresAt, ttl, true),
        { b with metas := b.metas.insert id ⟨raw', expirationFor e.now ttl⟩ }) := by
  have hswap : b.exec memory e (.swapMeta id raw raw' ttl) =
      (true, { b with metas := b.metas.insert id ⟨raw', expirationFor e.now ttl⟩ }) := by
    simp only [exec, if_pos hheld]
  rw [slideOnce, alone_bind, hread]
  simp only [hupdate, hencode]
  rw [alone_perform_bind, exec_clock]
  rw [alone_perform_bind, ← httl, hswap]
  rfl

variable (h : Agree m b e.now used)

include h

theorem AgreeOn.slide {expiresAt : Int}
    (update : D → Option D) (hoff : OffExpiry m e.now id) (hto : Holdable lastSeen expiresAt e.now) :
    ∃ r b', alone (Session.slide id lastSeen expiresAt update) e b = (r, b') ∧
      SameResult Eq (m.slide e.now id lastSeen expiresAt update).1 r ∧
      Agree (m.slide e.now id lastSeen expiresAt update).2 b' e.now used := by
  have hattempts : recordWriteAttempts = 31 + 1 := rfl
  unfold Session.slide MemoryStore.slide
  rcases h.read id with ⟨i, hne, hi, hs, hfind, hrun⟩ |
    ⟨err, m', err', b', herr, hfind, hsame, herr', hrun, hagree⟩
  · have hdata : i.value.decodeRecord.toStored.data = i.value.decodeRecord.data := rfl
    rw [hfind, if_neg hne, hattempts, slideWithin, alone_bind]
    simp only [hdata]
    cases hupdate : update i.value.decodeRecord.data with
    | none =>
      rw [slideOnce, alone_bind, hrun]
      simp only [hupdate]
      exact ⟨_, b, rfl, .inl rfl, h⟩
    | some data =>
      obtain ⟨hkey, -, hfits⟩ := h.fits id _ (live_eq_some.mp hs).1
      have hfits' : Fits (i.value.decodeRecord.slid data lastSeen expiresAt).toStored e.now :=
        hfits.slid hto data
      obtain ⟨raw, hencode, hdecode⟩ := encode_of_fits hfits'
      obtain ⟨i', hi', -, -, hcurrent⟩ := h.there id _ trivial hs
      obtain rfl := some.inj (hi.symm.trans hi')
      have hraw : raw.decodeRecord.toStored =
          (i.value.decodeRecord.slid data lastSeen expiresAt).toStored := by rw [hdecode]
      -- The new record is of the same user and carries the same token.
      have hcurrent' : Current b raw := by
        unfold Current
        rw [hdecode]
        exact hcurrent
      have hstamped : ∀ g, raw.decodeRecord.generation = some g → g ∈ b.drawn := by
        intro g hg
        rw [hdecode] at hg
        exact h.stamped id i g hi hg
      have hrest : AgreeOn (fun k => k ≠ id) m b e.now used := h.weaken fun _ _ => trivial
      have hwritten := hrest.writeListed hraw hkey hne hfits' hcurrent' hstamped rfl
      rw [hdecode] at hwritten
      rw [slideOnce_alone hrun (h.held hi hs hoff) hupdate hencode rfl]
      rw [alone_bind]
      exact ⟨_, _, rfl, rfl, hwritten⟩
  · rw [hfind]
    split
    · exact ⟨_, b, rfl, .inr ⟨herr, rfl⟩, hsame⟩
    · rw [hattempts, slideWithin, slideOnce, alone_bind, alone_bind, hrun]
      exact ⟨_, b', rfl, .inr ⟨herr, herr'⟩, hagree⟩

theorem AgreeOn.deleteIf (cond : SessionMeta → Bool) (hoff : OffExpiry m e.now id) :
    ∃ b', alone (CacheStore.deleteIf id cond) e b = (.ok (m.deleteIf e.now id cond).1, b') ∧
      Agree (m.deleteIf e.now id cond).2 b' e.now used := by
  have hattempts : recordWriteAttempts = 31 + 1 := rfl
  unfold CacheStore.deleteIf MemoryStore.deleteIf
  rcases h.read id with ⟨i, hne, hi, hs, hfind, hrun⟩ |
    ⟨err, m', err', b', herr, hfind, hsame, herr', hrun, hagree⟩
  · rw [hfind, if_neg hne, hattempts, deleteWithin, alone_bind, hrun]
    simp only
    split
    · have hheld := h.held hi hs hoff
      have hdrop : b.exec memory e (.dropMeta .deletion id i.value) =
          (true, { b with metas := b.metas.erase id }) := by
        simp only [exec, if_pos hheld]
      obtain ⟨b', hunlink, hagree⟩ := (h.remove id).unlink i.value.decodeRecord.userID [id]
      refine ⟨b', ?_, hagree⟩
      rw [alone_perform_bind, hdrop]
      simp only [if_true]
      rw [alone_bind, hunlink]
      rfl
    · exact ⟨b, rfl, h⟩
  · rw [hfind]
    split
    · exact ⟨b, rfl, hsame⟩
    · rw [hattempts, deleteWithin, alone_bind, hrun]
      simp only [herr', if_true]
      exact ⟨b', rfl, hagree⟩

theorem AgreeOn.delete (id : Bytes) :
    ∃ b', alone (CacheStore.delete id) e b = (.ok (), b') ∧ Agree (m.delete id) b' e.now used := by
  unfold CacheStore.delete MemoryStore.delete
  split
  case isTrue hempty =>
    refine ⟨b, rfl, h.forget ?_ ?_⟩
    · intro k
      rw [live_removeLocked]
      split
      case isTrue hk => rw [hk, hempty, h.live_nil]
      case isFalse => rfl
    · exact fun _ _ => lookup_of_removeLocked
  case isFalse =>
    rw [alone_perform_bind, exec_getMeta]
    obtain ⟨b', hunlink, hagree⟩ := (h.remove id).unlink
      ((b.readMeta memory e.now id).elim [] fun raw => raw.decodeRecord.userID) [id]
    refine ⟨b', ?_, hagree⟩
    rw [alone_perform_bind, exec_forgetMeta]
    rw [alone_bind, hunlink]
    rfl

theorem AgreeOn.signOutOne (huser : userID ≠ [])
    (id : Bytes) : ∃ out b', alone (signOutOne userID id) e b = (out, b') ∧ Agree m b' e.now used := by
  unfold Session.signOutOne
  rw [alone_perform_bind, exec_getMeta]
  cases hread : b.readMeta memory e.now id with
  | none => exact ⟨true, b, rfl, h⟩
  | some raw =>
    simp only
    split
    · exact ⟨true, b, rfl, h⟩
    case isFalse hown =>
      obtain ⟨i, hi, -, rfl⟩ := readMeta_eq_some.mp hread
      have hown' : i.value.decodeRecord.userID = userID := not_not.mp hown
      have hcur : alone (i.value.decodeRecord.generation.elim (pure none) fun _ => generation userID)
          e b = (i.value.decodeRecord.generation.elim none fun _ => b.gens.lookup userID, b) := by
        cases i.value.decodeRecord.generation <;> rfl
      rw [alone_bind, hcur]
      split
      · exact ⟨false, b, rfl, h⟩
      case isFalse hnot =>
        have hdead : ¬Alive b e.now i := by
          intro halive
          obtain ⟨g, hg, hsame⟩ := Or.resolve_left halive.current (hown' ▸ huser)
          rw [hown'] at hsame
          exact hnot (by simp [hg, hsame])
        rcases b.exec_dropMeta_cases memory e .signOut id i.value with hexec | ⟨-, hexec⟩
        · exact ⟨false, b, hexec, h⟩
        · refine ⟨true, _, hexec, h.drop ?_⟩
          intro i' hi'
          obtain rfl := some.inj (hi'.symm.trans hi)
          exact hdead

theorem AgreeOn.signOutEach (huser : userID ≠ []) (ids : List Bytes) :
    ∃ out b', alone (signOutEach userID ids) e b = (out, b') ∧ Agree m b' e.now used := by
  induction ids generalizing b with
  | nil => exact ⟨[], b, rfl, h⟩
  | cons id ids ih =>
    obtain ⟨gone, b₁, hone, hagree₁⟩ := h.signOutOne huser id
    obtain ⟨rest, b₂, hrest, hagree₂⟩ := ih hagree₁
    refine ⟨if gone then id :: rest else rest, b₂, ?_, hagree₂⟩
    rw [signOutEach, alone_bind, hone, alone_bind, hrest]
    rfl

theorem AgreeOn.deleteAllForUser (htoken : e.token = some t) (hnew : t ∉ used) (userID : Bytes) :
    ∃ b', alone (CacheStore.deleteAllForUser userID) e b = (.ok (), b') ∧
      Agree (m.deleteAllForUser userID) b' e.now (t :: used) := by
  have hfresh : t ∉ b.drawn := fun hmem => hnew (h.drawn hmem)
  unfold CacheStore.deleteAllForUser
  split
  case isTrue hempty =>
    have hids : m.ids userID = [] := by
      apply eq_nil_iff_forall_not_mem.mpr
      intro _ hid
      exact (mem_ids.mp hid).1 hempty
    have hsame : m.deleteAllForUser userID = m := by
      rw [MemoryStore.deleteAllForUser, hids]
      rfl
    rw [hsame]
    exact ⟨b, rfl, h.useMore t⟩
  case isFalse huser =>
    obtain ⟨gone, b₁, heach, hagree₁⟩ := (h.signOut huser hfresh).signOutEach huser
      (setMembers memory (b.issue userID t) e.now e.order userID)
    obtain ⟨b₂, hunlink, hagree₂⟩ := hagree₁.unlink userID gone
    refine ⟨b₂, ?_, hagree₂⟩
    rw [alone_bind, newGeneration_alone htoken hfresh]
    rw [alone_perform_bind, exec_setGen]
    rw [alone_perform_bind, exec_members]
    rw [alone_bind, heach]
    rw [alone_bind, hunlink]
    rfl

theorem AgreeOn.listEach (userID : Bytes) (ids : List Bytes) :
    ∃ out stale b', alone (listEach userID ids) e b = (.ok (out, stale), b') ∧
      Agree m b' e.now used ∧ ∀ x, x ∈ out ↔
        ∃ id ∈ ids, ∃ s, m.live e.now id = some s ∧ s.userID = userID ∧ s.toMeta = x := by
  induction ids generalizing b with
  | nil => exact ⟨[], [], b, rfl, h, by simp⟩
  | cons id ids ih =>
    rw [listEach, alone_bind]
    rcases h.liveRaw id trivial with ⟨i, -, hs, hrun⟩ | ⟨hnone, err, b', herr, hrun, hagree⟩
    · obtain ⟨out, stale, b₂, hrest, hagree₂, hout⟩ := ih h
      rw [hrun]
      rw [alone_bind, hrest]
      simp only
      have howner : i.value.decodeRecord.toStored.userID = i.value.decodeRecord.userID := rfl
      split
      case isTrue hother =>
        refine ⟨out, id :: stale, b₂, rfl, hagree₂, ?_⟩
        intro x
        rw [hout x, exists_mem_cons_iff]
        constructor
        · exact .inr
        · rintro (⟨s, hs', hown, -⟩ | hx)
          · have hsame := some.inj (hs.symm.trans hs')
            rw [← hsame] at hown
            exact absurd hown hother
          · exact hx
      case isFalse hown =>
        have hown' : i.value.decodeRecord.userID = userID := not_not.mp hown
        refine ⟨_ :: out, stale, b₂, rfl, hagree₂, ?_⟩
        intro x
        rw [mem_cons, hout x, exists_mem_cons_iff]
        constructor
        · rintro (rfl | hx)
          · exact .inl ⟨_, hs, hown', rfl⟩
          · exact .inr hx
        · rintro (⟨s, hs', -, rfl⟩ | hx)
          · have hsame := some.inj (hs.symm.trans hs')
            exact .inl (by rw [hsame])
          · exact .inr hx
    · obtain ⟨out, stale, b₂, hrest, hagree₂, hout⟩ := ih hagree
      rw [hrun]
      simp only [herr, if_true]
      rw [alone_bind, hrest]
      refine ⟨out, id :: stale, b₂, rfl, hagree₂, ?_⟩
      intro x
      rw [hout x, exists_mem_cons_iff, hnone]
      simp

theorem AgreeOn.listForUser (userID : Bytes) :
    ∃ out b', alone (CacheStore.listForUser userID) e b = (.ok out, b') ∧
      (∀ x, x ∈ (m.listForUser e.now userID).1 ↔ x ∈ out) ∧
      Agree (m.listForUser e.now userID).2 b' e.now used := by
  unfold CacheStore.listForUser
  by_cases huser : userID = []
  · rw [if_pos huser]
    refine ⟨[], b, rfl, ?_, h.forgetListed userID⟩
    intro x
    rw [mem_listing]
    simp [huser]
  · -- Every live record of the user is in the index, which has not expired.
    have hlisted : ∀ id s, m.live e.now id = some s → s.userID = userID →
        id ∈ b.setMembers memory e.now e.order userID := by
      rintro id s hs rfl
      obtain ⟨i, hi, hmem, hout⟩ := h.listed id s trivial hs huser
      have hheld := held_of_outlasts hout (live_eq_some.mp hs).2
      have hset : b.liveSet memory e.now s.userID = some i :=
        filter_eq_some_iff.mpr ⟨hi, hheld⟩
      exact mem_setMembers hset hmem
    rw [if_neg huser, alone_perform_bind, exec_members]
    simp only
    generalize b.setMembers memory e.now e.order userID = ids at hlisted
    split
    case isTrue hempty =>
      refine ⟨[], b, rfl, ?_, h.forgetListed userID⟩
      intro x
      rw [mem_listing]
      constructor
      · rintro ⟨-, id, s, hs, hown, -⟩
        have hmem := hlisted id s hs hown
        rw [hempty] at hmem
        cases hmem
      · exact nofun
    case isFalse =>
      obtain ⟨out, stale, b₁, heach, hagree₁, hout⟩ := h.listEach userID ids
      obtain ⟨b₂, hunlink, hagree₂⟩ := hagree₁.unlink userID stale
      refine ⟨out, b₂, ?_, ?_, hagree₂.forgetListed userID⟩
      · rw [alone_bind, heach]
        rw [alone_bind, hunlink]
        rfl
      · intro x
        rw [mem_listing, hout x]
        constructor
        · rintro ⟨-, id, s, hs, hown, hx⟩
          exact ⟨id, hlisted id s hs hown, s, hs, hown, hx⟩
        · rintro ⟨id, -, s, hs, hown, hx⟩
          exact ⟨huser, id, s, hs, hown, hx⟩

theorem AgreeOn.perform (htoken : e.token = some t)
    (hnew : t ∉ used) {c : Call D} (hreg : Regular m e.now c) :
    ∃ r b', alone (perform c) e b = (r, b') ∧ SameReply (m.perform e.now c).1 r ∧
      Agree (m.perform e.now c).2 b' e.now (t :: used) := by
  cases c with
  | get id =>
    obtain ⟨r, b', hrun, hsame, hagree⟩ := h.get id
    exact ⟨.session r, b', alone_map hrun _, hsame, hagree.useMore t⟩
  | put s =>
    obtain ⟨r, b', hrun, hsame, hagree⟩ := h.put htoken hnew hreg
    exact ⟨.written r, b', alone_map hrun _, hsame, hagree⟩
  | touch id lastSeen expiresAt =>
    obtain ⟨r, b', hrun, hsame, hagree⟩ := h.slide some hreg.1 hreg.2
    exact ⟨.written r, b', alone_map hrun _, hsame, hagree.useMore t⟩
  | updateData id update lastSeen expiresAt =>
    obtain ⟨r, b', hrun, hsame, hagree⟩ := h.slide update hreg.1 hreg.2
    exact ⟨.written r, b', alone_map hrun _, hsame, hagree.useMore t⟩
  | deleteIf id cond =>
    obtain ⟨b', hrun, hagree⟩ := h.deleteIf cond hreg
    exact ⟨_, b', alone_map hrun _, rfl, hagree.useMore t⟩
  | delete id =>
    obtain ⟨b', hrun, hagree⟩ := h.delete id
    exact ⟨_, b', alone_map hrun _, rfl, hagree.useMore t⟩
  | deleteAllForUser userID =>
    obtain ⟨b', hrun, hagree⟩ := h.deleteAllForUser htoken hnew userID
    exact ⟨_, b', alone_map hrun _, rfl, hagree⟩
  | listForUser userID =>
    obtain ⟨out, b', hrun, hsame, hagree⟩ := h.listForUser userID
    exact ⟨.listing (.ok out), b', alone_map hrun _, hsame, hagree.useMore t⟩

end Calls

/-! Whole histories. -/

def MemoryStore.serve (m : MemoryStore D) : List (Env × Call D) → List (Reply D)
  | [] => []
  | (e, c) :: rest => (m.perform e.now c).1 :: (m.perform e.now c).2.serve rest

def Backend.serve [DecidableEq D] (b : Backend D) : List (Env × Call D) → List (Reply D)
  | [] => []
  | (e, c) :: rest => (alone (perform c) e b).1 :: (alone (perform c) e b).2.serve rest

def RegularAlong (m : MemoryStore D) : List (Env × Call D) → Prop
  | [] => True
  | (e, c) :: rest => Regular m e.now c ∧ RegularAlong (m.perform e.now c).2 rest

def OneClock (history : List (Env × Call D)) : Prop := history.Pairwise fun x y => x.1.now ≤ y.1.now

structure Supplied (history : List (Env × Call D)) : Prop where
  some : ∀ x ∈ history, x.1.token.isSome
  nodup : history.Pairwise fun x y => x.1.token ≠ y.1.token

theorem agree_empty (now : Int) : Agree (D := D) MemoryStore.empty Backend.empty now [] where
  there _ _ _ hs := by cases hs
  only _ _ _ hi := by cases hi
  listed _ _ _ hs := by cases hs
  keyed _ _ hi := by cases hi
  fits _ _ hs := by cases hs
  stamped _ _ _ hi := by cases hi
  issued _ _ hg := by cases hg
  drawn := refl []

variable [DecidableEq D]

theorem serve_agree {history : List (Env × Call D)}
    (hagree : ∀ x ∈ history, Agree m b x.1.now used) (hclock : OneClock history)
    (htokens : Supplied history) (hnew : ∀ x ∈ history, ∀ t, x.1.token = some t → t ∉ used)
    (hreg : RegularAlong m history) :
    List.Forall₂ SameReply (m.serve history) (b.serve history) := by
  induction history generalizing m b used with
  | nil => exact .nil
  | cons x rest ih =>
    obtain ⟨e, c⟩ := x
    have hclock' := pairwise_cons.mp hclock
    have hdistinct := pairwise_cons.mp htokens.nodup
    obtain ⟨t, ht⟩ := isSome_iff_exists.mp (htokens.some (e, c) mem_cons_self)
    have ht' : e.token = some t := ht
    have hfresh := hnew (e, c) mem_cons_self t ht
    obtain ⟨r, b', hrun, hsame, hafter⟩ := (hagree (e, c) mem_cons_self).perform ht hfresh hreg.1
    have hlater : ∀ y ∈ rest, Agree (m.perform e.now c).2 b' y.1.now (t :: used) := by
      intro y hy
      exact hafter.later (hclock'.1 y hy)
    have hrest : List.Forall₂ SameReply ((m.perform e.now c).2.serve rest) (b'.serve rest) := by
      apply ih hlater
      · exact hclock'.2
      · exact ⟨fun y hy => htokens.some y (mem_cons_of_mem _ hy), hdistinct.2⟩
      · intro y hy t' hy'
        have hold := hnew y (mem_cons_of_mem _ hy) t' hy'
        have hother : t' ≠ t := by
          rintro rfl
          exact hdistinct.1 y hy (ht'.trans hy'.symm)
        simp [hother, hold]
      · exact hreg.2
    rw [serve, hrun]
    exact .cons hsame hrest

theorem stores_agree (history : List (Env × Call D)) (hclock : OneClock history)
    (htokens : Supplied history) (hreg : RegularAlong MemoryStore.empty history) :
    List.Forall₂ SameReply (MemoryStore.empty.serve history) (Backend.empty.serve history) := by
  refine serve_agree (fun x _ => agree_empty x.1.now) hclock htokens ?_ hreg
  intro x _ t _
  exact not_mem_nil

def visitor (expiresAt : Int) : StoredSession Nat :=
  ⟨ascii "id", ascii "7", 0, 0, 0, expiresAt, [], []⟩

def slidInTime : List (Env × Call Nat) :=
  [(⟨second, some 0, []⟩, .put (visitor (3 * second))),
    (⟨2 * second, some 1, []⟩, .touch (ascii "id") (2 * second) (4 * second)),
    (⟨3 * second, some 2, [ascii "id"]⟩, .listForUser (ascii "7"))]

theorem slidInTime_agrees :
    List.Forall₂ SameReply (MemoryStore.empty.serve slidInTime) (Backend.empty.serve slidInTime) := by
  apply stores_agree slidInTime
  · unfold OneClock slidInTime
    decide
  · exact ⟨by unfold slidInTime; decide, by unfold slidInTime; decide⟩
  · have hfits : Fits ((visitor (3 * second)).storedAt second) second :=
      ⟨rfl, rfl, rfl, rfl, rfl, rfl, rfl, fun _ => by decide⟩
    refine ⟨.inr hfits, ⟨?_, ⟨fun _ => by decide, rfl, rfl⟩⟩, trivial, trivial⟩
    intro s hs _
    have hsame := some.inj hs
    rw [← hsame]
    decide

/-- A record is signed in, read at the instant of its expiry, and slid at that instant. -/
def slidAtExpiry : List (Env × Call Nat) :=
  [(⟨second, some 0, []⟩, .put (visitor (3 * second))),
    (⟨3 * second, some 1, []⟩, .get (ascii "id")),
    (⟨3 * second, some 2, []⟩, .touch (ascii "id") (3 * second) (5 * second))]

/-- The cache reads the record but no longer compares it, and its store gives up after its attempts.
-/
theorem slidAtExpiry_differs :
    OneClock slidAtExpiry ∧ Supplied slidAtExpiry ∧
      MemoryStore.empty.serve slidAtExpiry = [.written (.ok ()),
        .session (.ok ((visitor (3 * second)).storedAt second)), .written (.ok ())] ∧
      Backend.empty.serve slidAtExpiry = [.written (.ok ()),
        .session (.ok ((visitor (3 * second)).storedAt second)), .written (.error .contended)] ∧
      ¬List.Forall₂ SameReply (MemoryStore.empty.serve slidAtExpiry)
        (Backend.empty.serve slidAtExpiry) := by
  have hmemory : MemoryStore.empty.serve slidAtExpiry = [.written (.ok ()),
      .session (.ok ((visitor (3 * second)).storedAt second)), .written (.ok ())] := by rfl
  have hcache : empty.serve slidAtExpiry = [.written (.ok ()),
      .session (.ok ((visitor (3 * second)).storedAt second)), .written (.error .contended)] := by rfl
  refine ⟨?_, ⟨?_, ?_⟩, hmemory, hcache, ?_⟩
  · unfold OneClock slidAtExpiry
    decide
  · decide
  · decide
  · intro hsame
    cases hsame with
    | cons _ hsame =>
      cases hsame with
      | cons _ hsame =>
        cases hsame with
        | cons hlast _ => exact hlast

end Session
