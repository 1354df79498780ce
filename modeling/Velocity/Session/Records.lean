import Velocity.Lib.Bytes
import Velocity.Lib.Map

/-! Session records on the server, and the store that keeps them in memory. Each operation runs under
one hold of the store's mutex, after one reading of the clock. -/

namespace Session

open Option FMap Finset

inductive StoreErr
  | emptyID
  | notFound
  | expired
  /-- What the caller's update returned. -/
  | update
  | contended
  | encode
  | entropy
  | generationUnreadable
deriving DecidableEq

def StoreErr.refusal : StoreErr → Bool
  | .notFound | .expired => true
  | _ => false

/-- The zero time as expiry is no expiry. -/
structure StoredSession (D : Type) where
  id : Bytes
  userID : Bytes
  data : D
  createdAt : Int
  lastSeenAt : Int
  expiresAt : Int
  ipAddress : Bytes
  userAgent : Bytes
deriving DecidableEq

structure SessionMeta where
  id : Bytes
  userID : Bytes
  createdAt : Int
  lastSeenAt : Int
  expiresAt : Int
  ipAddress : Bytes
  userAgent : Bytes
deriving DecidableEq

def StoredSession.toMeta {D : Type} (s : StoredSession D) : SessionMeta :=
  ⟨s.id, s.userID, s.createdAt, s.lastSeenAt, s.expiresAt, s.ipAddress, s.userAgent⟩

def pastExpiry (expiresAt now : Int) : Bool := expiresAt ≠ 0 ∧ expiresAt < now

/-- The later stamp and the later expiry, each on its own. -/
def slideForward (recSeen recExpires lastSeen expiresAt : Int) : Int × Int :=
  let seen := if recSeen < lastSeen then lastSeen else recSeen
  if recExpires = 0 ∨ expiresAt = 0 then (seen, 0)
  else (seen, if recExpires < expiresAt then expiresAt else recExpires)

/-- The order of expiries, in which no expiry is the latest. -/
def NoEarlier (expiresAt expiresAt' : Int) : Prop :=
  expiresAt' = 0 ∨ expiresAt ≠ 0 ∧ expiresAt ≤ expiresAt'

variable (recSeen recExpires lastSeen expiresAt : Int)

theorem slideForward_seen_le :
    recSeen ≤ (slideForward recSeen recExpires lastSeen expiresAt).1 := by
  unfold slideForward
  split <;> split <;> simp only <;> omega

theorem slideForward_expires_noEarlier :
    NoEarlier recExpires (slideForward recSeen recExpires lastSeen expiresAt).2 := by
  unfold slideForward NoEarlier
  dsimp only
  split
  · exact .inl rfl
  case isFalse h =>
    split <;> omega

abbrev Index := FMap Bytes (Finset Bytes)

namespace Index

def members (m : Index) (userID : Bytes) : Finset Bytes := (m.lookup userID).getD ∅

/-- Takes an id out of a user's set; an empty set goes. -/
def remove (m : Index) (userID id : Bytes) : Index :=
  match m.lookup userID with
  | none => m
  | some set => if set.erase id = ∅ then AList.erase userID m else m.insert userID (set.erase id)

def add (m : Index) (userID id : Bytes) : Index := m.insert userID (insert id (members m userID))

theorem members_remove (m : Index) (userID id u : Bytes) : members (remove m userID id) u =
      if u = userID then (members m userID).erase id else members m u := by
  unfold remove
  cases h : m.lookup userID with
  | none =>
    have hempty : members m userID = ∅ := by simp [members, h]
    by_cases hu : u = userID
    · simp [hu, hempty]
    · simp [hu]
  | some set =>
    have hset : members m userID = set := by simp [members, h]
    simp only
    split
    case isTrue he =>
      rw [members, lookup_erase_ite]
      by_cases hu : u = userID
      · simp [hu, hset, he]
      · simp [hu, members]
    case isFalse he =>
      rw [members, lookup_insert_ite]
      by_cases hu : u = userID
      · simp [hu, hset]
      · simp [hu, members]

theorem members_add (m : Index) (userID id u : Bytes) : members (add m userID id) u =
      if u = userID then insert id (members m userID) else members m u := by
  rw [add, members, lookup_insert_ite]
  by_cases hu : u = userID
  · simp [hu]
  · simp [hu, members]

end Index

section

variable {D : Type}

def Indexed (byID : FMap Bytes (StoredSession D)) (byUser : Index) : Prop :=
  ∀ userID id, id ∈ byUser.members userID ↔
    userID ≠ [] ∧ ∃ s, byID.lookup id = some s ∧ s.userID = userID

variable (D) in
structure MemoryStore where
  byID : FMap Bytes (StoredSession D)
  byUser : Index
  indexed : Indexed byID byUser

namespace MemoryStore

variable (m : MemoryStore D) (now : Int)

def empty : MemoryStore D where
  byID := ∅
  byUser := ∅
  indexed := by
    intro userID id
    simp [Index.members]

variable {s : StoredSession D} {id k : Bytes}

theorem indexed_erase {byID : FMap Bytes (StoredSession D)} {byUser : Index}
    (h : Indexed byID byUser) (hs : byID.lookup id = some s) :
    Indexed (byID.erase id) (byUser.remove s.userID id) := by
  intro userID id'
  rw [Index.members_remove, lookup_erase_ite]
  by_cases hid : id' = id
  · subst hid
    simp only [if_true, reduceCtorEq, false_and, exists_false, and_false, iff_false]
    split
    · simp
    case isFalse hu =>
      rw [h]
      rintro ⟨-, s', hs', rfl⟩
      rw [hs] at hs'
      simp only [some.injEq] at hs'
      exact hu (by rw [hs'])
  · rw [if_neg hid, ← h]
    split
    case isTrue hu => simp [hid, hu]
    case isFalse => rfl

def removeLocked (id : Bytes) : MemoryStore D :=
  match h : m.byID.lookup id with
  | none => m
  | some s => ⟨m.byID.erase id, m.byUser.remove s.userID id, indexed_erase m.indexed h⟩

/-- The index when the record of an id is replaced by one of another user. -/
def rebound (s : StoredSession D) : Index :=
  match m.byID.lookup s.id with
  | none => m.byUser
  | some existing =>
    if existing.userID ≠ s.userID then m.byUser.remove existing.userID s.id else m.byUser

theorem mem_rebound (s : StoredSession D) (userID id : Bytes) : id ∈ (m.rebound s).members userID ↔
      id ∈ m.byUser.members userID ∧ (id = s.id → userID = s.userID) := by
  unfold rebound
  cases h : m.byID.lookup s.id with
  | none =>
    constructor
    · intro hmem
      refine ⟨hmem, ?_⟩
      rintro rfl
      obtain ⟨-, s', hs', -⟩ := (m.indexed _ _).mp hmem
      rw [h] at hs'
      cases hs'
    · exact fun hmem => hmem.1
  | some existing =>
    -- The one set that holds the id is the set of the user the record belongs to.
    have hown : ∀ u, s.id ∈ m.byUser.members u → u = existing.userID := by
      intro u hu
      obtain ⟨-, s', hs', rfl⟩ := (m.indexed _ _).mp hu
      rw [h] at hs'
      simp only [some.injEq] at hs'
      rw [hs']
    simp only
    split
    case isTrue hne =>
      rw [Index.members_remove]
      split
      case isTrue hu =>
        subst hu
        constructor
        · intro hmem
          have hmem' := mem_erase.mp hmem
          exact ⟨hmem'.2, fun hid => absurd hid hmem'.1⟩
        · rintro ⟨hmem, himp⟩
          exact mem_erase.mpr ⟨fun hid => hne (himp hid), hmem⟩
      case isFalse hu =>
        constructor
        · intro hmem
          refine ⟨hmem, ?_⟩
          rintro rfl
          exact absurd (hown _ hmem) hu
        · exact fun hmem => hmem.1
    case isFalse heq =>
      have heq' : existing.userID = s.userID := not_not.mp heq
      constructor
      · intro hmem
        refine ⟨hmem, ?_⟩
        rintro rfl
        rw [← heq']
        exact hown _ hmem
      · exact fun hmem => hmem.1

theorem indexed_insert (s : StoredSession D) : Indexed (m.byID.insert s.id s)
      (if s.userID = [] then m.rebound s else (m.rebound s).add s.userID s.id) := by
  intro userID id
  rw [lookup_insert_ite]
  have hold : id ≠ s.id → (id ∈ m.byUser.members userID ↔
      userID ≠ [] ∧ ∃ s', (if id = s.id then some s else m.byID.lookup id) = some s' ∧
        s'.userID = userID) := by
    intro hid
    rw [if_neg hid]
    exact m.indexed userID id
  have hself : id = s.id → ((∃ s', (if id = s.id then some s else m.byID.lookup id) = some s' ∧
      s'.userID = userID) ↔ userID = s.userID) := by
    intro hid
    rw [if_pos hid]
    constructor
    · rintro ⟨s', hs', rfl⟩
      simp only [some.injEq] at hs'
      rw [hs']
    · intro hu
      exact ⟨s, rfl, hu.symm⟩
  split
  case isTrue hempty =>
    rw [mem_rebound]
    by_cases hid : id = s.id
    · rw [hself hid]
      constructor
      · rintro ⟨hmem, himp⟩
        exact ⟨((m.indexed _ _).mp hmem).1, himp hid⟩
      · rintro ⟨hne, hu⟩
        exact absurd (hu.trans hempty) hne
    · rw [← hold hid]
      exact ⟨fun h => h.1, fun h => ⟨h, fun h' => absurd h' hid⟩⟩
  case isFalse hne =>
    rw [Index.members_add]
    by_cases hid : id = s.id
    · rw [hself hid]
      split
      case isTrue hu => simp [hid, hu, hne]
      case isFalse hu =>
        rw [mem_rebound]
        constructor
        · rintro ⟨-, himp⟩
          exact absurd (himp hid) hu
        · rintro ⟨-, hu'⟩
          exact absurd hu' hu
    · rw [← hold hid]
      split
      case isTrue hu =>
        subst hu
        rw [mem_insert, mem_rebound]
        constructor
        · rintro (h | h)
          · exact absurd h hid
          · exact h.1
        · exact fun h => .inr ⟨h, fun h' => absurd h' hid⟩
      case isFalse hu =>
        rw [mem_rebound]
        exact ⟨fun h => h.1, fun h => ⟨h, fun h' => absurd h' hid⟩⟩

def insert (s : StoredSession D) : MemoryStore D :=
  ⟨m.byID.insert s.id s,
    if s.userID = [] then m.rebound s else (m.rebound s).add s.userID s.id, m.indexed_insert s⟩

def live (id : Bytes) : Option (StoredSession D) :=
  (m.byID.lookup id).filter fun s => !pastExpiry s.expiresAt now

/-- A record past its expiry is removed. -/
def find (id : Bytes) : Except StoreErr (StoredSession D) × MemoryStore D :=
  match m.byID.lookup id with
  | none => (.error .notFound, m)
  | some s =>
    if pastExpiry s.expiresAt now then (.error .expired, m.removeLocked id) else (.ok s, m)

def get (id : Bytes) :
    Except StoreErr (StoredSession D) × MemoryStore D := m.find now id

def put (s : StoredSession D) : Except StoreErr Unit × MemoryStore D :=
  if s.id = [] then (.error .emptyID, m)
  else
    (.ok (), m.insert
      { s with createdAt := if s.createdAt = 0 then now else s.createdAt, lastSeenAt := now })

/-- `slide`, which changes a record in place; an update may fail. -/
def slide (id : Bytes) (lastSeen expiresAt : Int)
    (update : D → Option D) : Except StoreErr Unit × MemoryStore D :=
  match m.find now id with
  | (.error e, m') => (.error e, m')
  | (.ok s, m') =>
    match update s.data with
    | none => (.error .update, m')
    | some data =>
      let (seen, expires) := slideForward s.lastSeenAt s.expiresAt lastSeen expiresAt
      (.ok (), m'.insert { s with data := data, lastSeenAt := seen, expiresAt := expires })

def touch (id : Bytes) (lastSeen expiresAt : Int) :
    Except StoreErr Unit × MemoryStore D := m.slide now id lastSeen expiresAt some

def updateData (id : Bytes) (update : D → Option D)
    (lastSeen expiresAt : Int) : Except StoreErr Unit × MemoryStore D :=
  m.slide now id lastSeen expiresAt update

def deleteIf (id : Bytes) (cond : SessionMeta → Bool) : Bool × MemoryStore D :=
  match m.find now id with
  | (.error _, m') => (false, m')
  | (.ok s, m') => if cond s.toMeta then (true, m'.removeLocked id) else (false, m')

def delete (id : Bytes) : MemoryStore D := m.removeLocked id

def removeAll (ids : List Bytes) : MemoryStore D :=
  ids.foldl removeLocked m

def ids (userID : Bytes) : List Bytes :=
  (m.byUser.members userID).sort (· ≤ ·)

def deleteAllForUser (userID : Bytes) : MemoryStore D :=
  m.removeAll (m.ids userID)

def listForUser (userID : Bytes) : List SessionMeta × MemoryStore D :=
  ((m.ids userID).filterMap fun id => (m.live now id).map StoredSession.toMeta,
    m.removeAll ((m.ids userID).filter fun id => (m.live now id).isNone))

theorem lookup_removeLocked (id k : Bytes) :
    (m.removeLocked id).byID.lookup k = if k = id then none else m.byID.lookup k := by
  unfold removeLocked
  split
  case h_1 h =>
    by_cases hk : k = id
    · rw [if_pos hk, hk]
      exact h
    · rw [if_neg hk]
  case h_2 => exact lookup_erase_ite _ _ _

theorem lookup_of_removeLocked {m : MemoryStore D}
    (h : (m.removeLocked id).byID.lookup k = some s) : m.byID.lookup k = some s := by
  rw [lookup_removeLocked] at h
  exact (Option.ite_none_left_eq_some.mp h).2

theorem lookup_insert (s : StoredSession D) (k : Bytes) :
    (m.insert s).byID.lookup k = if k = s.id then some s else m.byID.lookup k :=
  lookup_insert_ite _ _ _ _

variable {now : Int}

theorem live_eq_some {m : MemoryStore D} :
    m.live now id = some s ↔ m.byID.lookup id = some s ∧ pastExpiry s.expiresAt now = false := by
  rw [live]
  simp

theorem live_removeLocked (id k : Bytes) :
    (m.removeLocked id).live now k = if k = id then none else m.live now k := by
  rw [live, lookup_removeLocked]
  split <;> rfl

theorem live_insert_self :
    (m.insert s).live now s.id = if pastExpiry s.expiresAt now then none else some s := by
  rw [live, lookup_insert, if_pos rfl, filter_some]
  cases pastExpiry s.expiresAt now <;> rfl

theorem live_insert_of_ne (h : k ≠ s.id) : (m.insert s).live now k = m.live now k := by
  rw [live, lookup_insert, if_neg h]
  rfl

theorem lookup_removeAll (ids : List Bytes) (k : Bytes) :
    (m.removeAll ids).byID.lookup k = if k ∈ ids then none else m.byID.lookup k := by
  induction ids generalizing m with
  | nil => simp [removeAll]
  | cons id ids ih =>
    have hrest := ih (m.removeLocked id)
    rw [removeAll, List.foldl_cons]
    rw [removeAll] at hrest
    rw [hrest, lookup_removeLocked]
    by_cases hk : k ∈ ids
    · simp [hk]
    · by_cases hid : k = id <;> simp [hk, hid]

theorem live_removeAll (ids : List Bytes) (k : Bytes) :
    (m.removeAll ids).live now k = if k ∈ ids then none else m.live now k := by
  rw [live, lookup_removeAll]
  split <;> rfl

theorem mem_ids {m : MemoryStore D} {userID : Bytes} :
    id ∈ m.ids userID ↔ userID ≠ [] ∧ ∃ s, m.byID.lookup id = some s ∧ s.userID = userID := by
  rw [ids, mem_sort]
  exact m.indexed userID id

theorem find_cases (now : Int) (id : Bytes) :
    (∃ s, m.live now id = some s ∧ m.find now id = (.ok s, m)) ∨
      m.live now id = none ∧ ∃ e m', e.refusal = true ∧ m.find now id = (.error e, m') ∧
        (∀ k, m'.live now k = m.live now k) ∧
        ∀ k s, m'.byID.lookup k = some s → m.byID.lookup k = some s := by
  cases h : m.byID.lookup id with
  | none =>
    right
    refine ⟨by simp [live, h], .notFound, m, rfl, by simp [find, h], fun _ => rfl, fun _ _ hk => hk⟩
  | some s =>
    by_cases hpast : pastExpiry s.expiresAt now = true
    · right
      have hlive : m.live now id = none := by simp [live, h, filter_some, hpast]
      refine ⟨hlive, .expired, m.removeLocked id, rfl, by simp [find, h, hpast], ?_,
        fun _ _ => lookup_of_removeLocked⟩
      intro k
      rw [live_removeLocked]
      split
      case isTrue hk => rw [hk, hlive]
      case isFalse => rfl
    · left
      have hnot : pastExpiry s.expiresAt now = false := by simpa using hpast
      exact ⟨s, live_eq_some.mpr ⟨h, hnot⟩, by simp [find, h, hnot]⟩

end MemoryStore

end

end Session
