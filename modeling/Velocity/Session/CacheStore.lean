import Velocity.Cache.Store
import Velocity.Lib.Linear
import Velocity.Session.Cookie
import Velocity.Session.Records

/-! Session records in a shared cache: the store that several instances of an application use at
once. A record, the ids of a user, and the user's generation token stand under separate keys, read
and written in separate atomic operations. -/

namespace Session

open Interleave

/-- The instants that a JSON text of a time can hold: the years 0 to 9999. -/
def encodable (t : Int) : Bool :=
  -366 * (24 * hour) ≤ t ∧ t < 3652059 * (24 * hour)

abbrev Token := Nat

/-- `generation` is `none` where the source has the empty string. -/
structure CacheRecord (D : Type) where
  id : Bytes
  userID : Bytes
  data : D
  createdAt : Int
  lastSeenAt : Int
  expiresAt : Int
  ipAddress : Bytes
  userAgent : Bytes
  generation : Option Token
deriving DecidableEq

namespace CacheRecord

variable {D : Type}

def toStored (r : CacheRecord D) : StoredSession D :=
  ⟨r.id, r.userID, r.data, r.createdAt, r.lastSeenAt, r.expiresAt, r.ipAddress, r.userAgent⟩

def reread (r : CacheRecord D) : CacheRecord D :=
  { r with
    id := Utf8.repair r.id
    userID := Utf8.repair r.userID
    ipAddress := Utf8.repair r.ipAddress
    userAgent := Utf8.repair r.userAgent }

theorem reread_reread (r : CacheRecord D) : r.reread.reread = r.reread := by
  simp only [reread, Utf8.repair_repair]

end CacheRecord

/-- The text of a record, given by what it decodes to. -/
structure Raw (D : Type) where
  decodeRecord : CacheRecord D
  reread : decodeRecord.reread = decodeRecord
deriving DecidableEq

def encodeRecord {D : Type} (r : CacheRecord D) : Option (Raw D) :=
  if encodable r.createdAt ∧ encodable r.lastSeenAt ∧ encodable r.expiresAt then
    some ⟨r.reread, r.reread_reread⟩
  else none

theorem encodeRecord_eq_some {D : Type} {r : CacheRecord D} {raw : Raw D}
    (h : encodeRecord r = some raw) : raw.decodeRecord = r.reread := by
  unfold encodeRecord at h
  split at h
  · simp only [Option.some.injEq] at h
    rw [← h]
  · cases h

def maxDuration : Int := 2 ^ 63 - 1

/-- The time left, which a duration holds 292 years of, and never less than a second. -/
def recordTTL (expiresAt now : Int) : Int :=
  if expiresAt = 0 then 0
  else if expiresAt - now < second then second
  else if maxDuration < expiresAt - now then maxDuration
  else expiresAt - now

/-- The sum wraps at 64 bits, and what is not positive is no expiry. -/
def indexTTL (ttl : Int) : Int := if 0 < ttl then Int.bmod (ttl + minute) (2 ^ 64) else ttl

structure Item (α : Type) where
  value : α
  expiration : Option Int

/-- When an item counts as there: to a read, and to the other operations. -/
structure Expiry where
  readable : Int → Option Int → Bool
  held : Int → Option Int → Bool

def Expiry.memory : Expiry := ⟨fun now e => !Cache.passed now e, Cache.before⟩

/-- The items under three kinds of keys, and the tokens drawn. A token has no expiry. -/
structure Backend (D : Type) where
  metas : FMap Bytes (Item (Raw D))
  users : FMap Bytes (Item (Finset Bytes))
  gens : FMap Bytes Token
  drawn : List Token

def Backend.empty {D : Type} : Backend D := ⟨∅, ∅, ∅, []⟩

/-- The clock, the random bytes if there are any, and the order in which a set is listed. -/
structure Env where
  now : Int
  token : Option Token
  order : List Bytes

/-- Why a record is compared and deleted, which the cache does not see. -/
inductive Cause
  | eviction
  | deletion
  | signOut
deriving DecidableEq

inductive Op (D : Type)
  | clock
  | random
  | getMeta (id : Bytes)
  | putMeta (id : Bytes) (raw : Raw D) (ttl : Int)
  | swapMeta (id : Bytes) (expected raw : Raw D) (ttl : Int)
  | dropMeta (cause : Cause) (id : Bytes) (expected : Raw D)
  | forgetMeta (id : Bytes)
  | getGen (userID : Bytes)
  | addGen (userID : Bytes) (token : Token)
  | setGen (userID : Bytes) (token : Token)
  | addIndex (userID : Bytes) (ttl : Int) (id : Bytes)
  | removeIndex (userID : Bytes) (ids : List Bytes)
  | members (userID : Bytes)

abbrev Res {D : Type} : Op D → Type
  | .clock => Int
  | .random => Option Token
  | .getMeta _ => Option (Raw D)
  | .putMeta _ _ _ => Unit
  | .swapMeta _ _ _ _ => Bool
  | .dropMeta _ _ _ => Bool
  | .forgetMeta _ => Unit
  | .getGen _ => Option Token
  | .addGen _ _ => Bool
  | .setGen _ _ => Unit
  | .addIndex _ _ _ => Unit
  | .removeIndex _ _ => Unit
  | .members _ => List Bytes

namespace Backend

variable {D : Type}

variable (x : Expiry) (b : Backend D)

def readMeta (now : Int) (id : Bytes) : Option (Raw D) :=
  ((b.metas.lookup id).filter fun i => x.readable now i.expiration).map Item.value

/-- The text under an id that a conditional write compares with. -/
def heldMeta (now : Int) (id : Bytes) : Option (Raw D) :=
  ((b.metas.lookup id).filter fun i => x.held now i.expiration).map Item.value

def liveSet (now : Int) (userID : Bytes) : Option (Item (Finset Bytes)) :=
  (b.users.lookup userID).filter fun i => x.held now i.expiration

def setAdd (now : Int) (userID : Bytes) (ttl : Int) (id : Bytes) : Backend D :=
  let item : Item (Finset Bytes) :=
    match b.liveSet x now userID with
    | none => ⟨{id}, Cache.expirationFor now ttl⟩
    | some i => ⟨i.value ∪ {id}, Cache.extendExpiration i.expiration (Cache.expirationFor now ttl)⟩
  { b with users := b.users.insert userID item }

def setRemove (now : Int) (userID : Bytes) (ids : List Bytes) : Backend D :=
  if ids = [] then b
  else
    match b.liveSet x now userID with
    | none => b
    | some i =>
      if i.value \ ids.toFinset = ∅ then { b with users := b.users.erase userID }
      else { b with users := b.users.insert userID ⟨i.value \ ids.toFinset, i.expiration⟩ }

def setMembers (now : Int) (order : List Bytes) (userID : Bytes) : List Bytes :=
  match b.liveSet x now userID with
  | none => []
  | some i => if order.Nodup ∧ order.toFinset = i.value then order else i.value.sort (· ≤ ·)

variable [DecidableEq D]

def exec (x : Expiry) (b : Backend D) (e : Env) : (o : Op D) → Res o × Backend D
  | .clock => (e.now, b)
  | .random =>
    match e.token with
    | none => (none, b)
    -- A source that would repeat a token counts as one that gives none.
    | some t => if t ∈ b.drawn then (none, b) else (some t, { b with drawn := t :: b.drawn })
  | .getMeta id => (b.readMeta x e.now id, b)
  | .putMeta id raw ttl =>
    ((), { b with metas := b.metas.insert id ⟨raw, Cache.expirationFor e.now ttl⟩ })
  | .swapMeta id expected raw ttl =>
    if b.heldMeta x e.now id = some expected then
      (true, { b with metas := b.metas.insert id ⟨raw, Cache.expirationFor e.now ttl⟩ })
    else (false, b)
  | .dropMeta _ id expected =>
    if b.heldMeta x e.now id = some expected then (true, { b with metas := b.metas.erase id })
    else (false, b)
  | .forgetMeta id => ((), { b with metas := b.metas.erase id })
  | .getGen userID => (b.gens.lookup userID, b)
  | .addGen userID token =>
    match b.gens.lookup userID with
    | some _ => (false, b)
    | none => (true, { b with gens := b.gens.insert userID token })
  | .setGen userID token => ((), { b with gens := b.gens.insert userID token })
  | .addIndex userID ttl id => ((), b.setAdd x e.now userID ttl id)
  | .removeIndex userID ids => ((), b.setRemove x e.now userID ids)
  | .members userID => (b.setMembers x e.now e.order userID, b)

variable (e : Env)

@[simp] theorem exec_clock : b.exec x e .clock = (e.now, b) := rfl

@[simp] theorem exec_getMeta (id : Bytes) :
    b.exec x e (.getMeta id) = (b.readMeta x e.now id, b) := rfl

@[simp] theorem exec_forgetMeta (id : Bytes) :
    b.exec x e (.forgetMeta id) = ((), { b with metas := b.metas.erase id }) := rfl

variable (userID : Bytes)

@[simp] theorem exec_getGen : b.exec x e (.getGen userID) = (b.gens.lookup userID, b) := rfl

@[simp] theorem exec_setGen (token : Token) :
    b.exec x e (.setGen userID token) = ((), { b with gens := b.gens.insert userID token }) := rfl

@[simp] theorem exec_removeIndex (ids : List Bytes) :
    b.exec x e (.removeIndex userID ids) = ((), b.setRemove x e.now userID ids) := rfl

@[simp] theorem exec_members :
    b.exec x e (.members userID) = (b.setMembers x e.now e.order userID, b) := rfl

theorem exec_random_cases : b.exec x e .random = (none, b) ∨
      ∃ t, t ∉ b.drawn ∧ b.exec x e .random = (some t, { b with drawn := t :: b.drawn }) := by
  cases htoken : e.token with
  | none => exact .inl (by simp only [exec, htoken])
  | some t =>
    by_cases hold : t ∈ b.drawn
    · exact .inl (by simp only [exec, htoken, if_pos hold])
    · exact .inr ⟨t, hold, by simp only [exec, htoken, if_neg hold]⟩

theorem exec_swapMeta_cases (id : Bytes) (expected raw : Raw D) (ttl : Int) :
    b.exec x e (.swapMeta id expected raw ttl) = (false, b) ∨
      b.heldMeta x e.now id = some expected ∧ b.exec x e (.swapMeta id expected raw ttl) =
        (true, { b with metas := b.metas.insert id ⟨raw, Cache.expirationFor e.now ttl⟩ }) := by
  by_cases hheld : b.heldMeta x e.now id = some expected
  · exact .inr ⟨hheld, by simp only [exec, if_pos hheld]⟩
  · exact .inl (by simp only [exec, if_neg hheld])

theorem exec_dropMeta_cases (cause : Cause) (id : Bytes) (expected : Raw D) :
    b.exec x e (.dropMeta cause id expected) = (false, b) ∨
      b.heldMeta x e.now id = some expected ∧ b.exec x e (.dropMeta cause id expected) =
        (true, { b with metas := b.metas.erase id }) := by
  by_cases hheld : b.heldMeta x e.now id = some expected
  · exact .inr ⟨hheld, by simp only [exec, if_pos hheld]⟩
  · exact .inl (by simp only [exec, if_neg hheld])

theorem exec_addGen_cases (token : Token) : b.exec x e (.addGen userID token) = (false, b) ∨
      b.exec x e (.addGen userID token) = (true, { b with gens := b.gens.insert userID token }) := by
  cases hgen : b.gens.lookup userID with
  | some t => exact .inl (by simp only [exec, hgen])
  | none => exact .inr (by simp only [exec, hgen])

end Backend

section Programs

variable {D : Type}

abbrev CacheProg (D : Type) := Prog (Res (D := D))

abbrev Op.run (o : Op D) : CacheProg D (Res o) := Prog.perform o

def generation (userID : Bytes) : CacheProg D (Option Token) :=
  Prog.perform (Op.getGen userID)

def newGeneration : CacheProg D (Except StoreErr Token) := do
  match ← Op.random.run with
  | none => return .error .entropy
  | some token => return .ok token

def ensureGeneration (userID : Bytes) : CacheProg D (Except StoreErr Token) := do
  match ← generation userID with
  | some gen => return .ok gen
  | none =>
    match ← newGeneration with
    | .error e => return .error e
    | .ok candidate =>
      let _ ← (Op.addGen userID candidate).run
      match ← generation userID with
      | none => return .error .generationUnreadable
      | some gen => return .ok gen

def extendIndex (r : CacheRecord D) (ttl : Int) : CacheProg D Unit :=
  if r.userID = [] then return () else Prog.perform (Op.addIndex r.userID (indexTTL ttl) r.id)

def recordOf (userID id : Bytes) : CacheProg D (Option (CacheRecord D)) := do
  match ← (Op.getMeta id).run with
  | none => return none
  | some raw => return if raw.decodeRecord.userID = userID then some raw.decodeRecord else none

def goneOf (userID : Bytes) : List Bytes → CacheProg D (List Bytes)
  | [] => return []
  | id :: ids => do
    let r ← recordOf userID id
    let gone ← goneOf userID ids
    return if r.isNone then id :: gone else gone

def relist (userID : Bytes) : List Bytes → CacheProg D Unit
  | [] => return ()
  | id :: ids => do
    match ← recordOf userID id with
    | none => relist userID ids
    | some r =>
      let now ← Op.clock.run
      extendIndex r (recordTTL r.expiresAt now)
      relist userID ids

def unlink (userID : Bytes) (ids : List Bytes) : CacheProg D Unit :=
  if userID = [] ∨ ids = [] then return ()
  else do
    let gone ← goneOf userID ids
    if gone = [] then return ()
    else do
      (Op.removeIndex userID gone).run
      relist userID gone

def evict (raw : Raw D) : CacheProg D Unit := do
  let r := raw.decodeRecord
  let deleted ← (Op.dropMeta .eviction r.id raw).run
  Prog.when deleted (unlink r.userID [r.id])

/-- Whether the record is past its expiry; the clock is not read for a record without one. -/
def isPast (r : CacheRecord D) : CacheProg D Bool :=
  if r.expiresAt = 0 then return false
  else do
    let now ← Op.clock.run
    return pastExpiry r.expiresAt now

def liveRaw (id : Bytes) : CacheProg D (Except StoreErr (Raw D)) := do
  match ← (Op.getMeta id).run with
  | none => return .error .notFound
  | some raw =>
    let r := raw.decodeRecord
    if ← isPast r then
      evict raw
      return .error .expired
    else if r.userID = [] then return .ok raw
    else
      match r.generation with
      | none =>
        evict raw
        return .error .notFound
      | some gen =>
        let current ← generation r.userID
        if current = some gen then return .ok raw
        else
          evict raw
          return .error .notFound

def CacheStore.get (id : Bytes) : CacheProg D (Except StoreErr (StoredSession D)) :=
  if id = [] then return .error .notFound
  else do
    match ← liveRaw id with
    | .error e => return .error e
    | .ok raw => return .ok raw.decodeRecord.toStored

def stamp (userID : Bytes) : CacheProg D (Except StoreErr (Option Token)) :=
  if userID = [] then return .ok none
  else do
    match ← ensureGeneration userID with
    | .error e => return .error e
    | .ok gen => return .ok (some gen)

def unbind (id userID : Bytes) : CacheProg D Unit := do
  match ← (Op.getMeta id).run with
  | none => return ()
  | some raw =>
    let prev := raw.decodeRecord.userID
    Prog.when (prev ≠ [] ∧ prev ≠ userID) (Prog.perform (Op.removeIndex prev [id]))

def recordAt (s : StoredSession D) (gen : Option Token) (now : Int) : CacheRecord D :=
  ⟨s.id, s.userID, s.data, if s.createdAt = 0 then now else s.createdAt, now, s.expiresAt,
    s.ipAddress, s.userAgent, gen⟩

def CacheStore.put (s : StoredSession D) : CacheProg D (Except StoreErr Unit) :=
  if s.id = [] then return .error .emptyID
  else do
    match ← stamp s.userID with
    | .error e => return .error e
    | .ok gen =>
      let now ← Op.clock.run
      let r := recordAt s gen now
      unbind r.id r.userID
      match encodeRecord r with
      | none => return .error .encode
      | some raw =>
        let ttl := recordTTL r.expiresAt now
        (Op.putMeta r.id raw ttl).run
        extendIndex r ttl
        return .ok ()

def CacheRecord.slid (r : CacheRecord D) (data : D) (lastSeen expiresAt : Int) : CacheRecord D :=
  let times := slideForward r.lastSeenAt r.expiresAt lastSeen expiresAt
  { r with data := data, lastSeenAt := times.1, expiresAt := times.2 }

def slideOnce (id : Bytes) (lastSeen expiresAt : Int) (update : D → Option D) :
    CacheProg D (Except StoreErr (CacheRecord D × Int × Bool)) := do
  match ← liveRaw id with
  | .error e => return .error e
  | .ok raw =>
    match update raw.decodeRecord.data with
    | none => return .error .update
    | some data =>
      let r := raw.decodeRecord.slid data lastSeen expiresAt
      match encodeRecord r with
      | none => return .error .encode
      | some encoded =>
        let now ← Op.clock.run
        let ttl := recordTTL r.expiresAt now
        let swapped ← (Op.swapMeta id raw encoded ttl).run
        return .ok (r, ttl, swapped)

def recordWriteAttempts : Nat := 32

def slideWithin (id : Bytes) (lastSeen expiresAt : Int) (update : D → Option D) :
    Nat → CacheProg D (Except StoreErr Unit)
  | 0 => return .error .contended
  | n + 1 => do
    match ← slideOnce id lastSeen expiresAt update with
    | .error e => return .error e
    | .ok (r, ttl, true) =>
      extendIndex r ttl
      return .ok ()
    | .ok (_, _, false) => slideWithin id lastSeen expiresAt update n

def slide (id : Bytes) (lastSeen expiresAt : Int) (update : D → Option D) :
    CacheProg D (Except StoreErr Unit) :=
  if id = [] then return .error .notFound
  else slideWithin id lastSeen expiresAt update recordWriteAttempts

def CacheStore.touch (id : Bytes) (lastSeen expiresAt : Int) :
    CacheProg D (Except StoreErr Unit) := slide id lastSeen expiresAt some

def CacheStore.updateData (id : Bytes) (update : D → Option D) (lastSeen expiresAt : Int) :
    CacheProg D (Except StoreErr Unit) := slide id lastSeen expiresAt update

def deleteWithin (id : Bytes) (cond : SessionMeta → Bool) :
    Nat → CacheProg D (Except StoreErr Bool)
  | 0 => return .error .contended
  | n + 1 => do
    match ← liveRaw id with
    | .error e => return if e.refusal then .ok false else .error e
    | .ok raw =>
      let r := raw.decodeRecord
      if cond r.toStored.toMeta then
        let deleted ← (Op.dropMeta .deletion id raw).run
        if deleted then
          unlink r.userID [id]
          return .ok true
        else deleteWithin id cond n
      else return .ok false

def CacheStore.deleteIf (id : Bytes) (cond : SessionMeta → Bool) :
    CacheProg D (Except StoreErr Bool) :=
  if id = [] then return .ok false else deleteWithin id cond recordWriteAttempts

def CacheStore.delete (id : Bytes) : CacheProg D (Except StoreErr Unit) :=
  if id = [] then return .ok ()
  else do
    let found ← (Op.getMeta id).run
    let userID := found.elim [] fun raw => raw.decodeRecord.userID
    (Op.forgetMeta id).run
    unlink userID [id]
    return .ok ()

/-- Removes a record that does not carry the current token; whether its membership is to go. -/
def signOutOne (userID id : Bytes) : CacheProg D Bool := do
  match ← (Op.getMeta id).run with
  | none => return true
  | some raw =>
    let r := raw.decodeRecord
    if r.userID ≠ userID then return true
    else
      let current ← r.generation.elim (pure none) fun _ => generation userID
      if r.generation.isSome ∧ current = r.generation then return false
      else Prog.perform (Op.dropMeta .signOut id raw)

def signOutEach (userID : Bytes) : List Bytes → CacheProg D (List Bytes)
  | [] => return []
  | id :: ids => do
    let gone ← signOutOne userID id
    let rest ← signOutEach userID ids
    return if gone then id :: rest else rest

def CacheStore.deleteAllForUser (userID : Bytes) : CacheProg D (Except StoreErr Unit) :=
  if userID = [] then return .ok ()
  else do
    match ← newGeneration with
    | .error e => return .error e
    | .ok gen =>
      (Op.setGen userID gen).run
      let ids ← (Op.members userID).run
      let gone ← signOutEach userID ids
      unlink userID gone
      return .ok ()

/-- The listing and the stale ids, or the first error that is no refusal. -/
def listEach (userID : Bytes) :
    List Bytes → CacheProg D (Except StoreErr (List SessionMeta × List Bytes))
  | [] => return .ok ([], [])
  | id :: ids => do
    match ← liveRaw id with
    | .error e =>
      if e.refusal then
        match ← listEach userID ids with
        | .error e => return .error e
        | .ok (out, stale) => return .ok (out, id :: stale)
      else return .error e
    | .ok raw =>
      match ← listEach userID ids with
      | .error e => return .error e
      | .ok (out, stale) =>
        if raw.decodeRecord.userID ≠ userID then return .ok (out, id :: stale)
        else return .ok (raw.decodeRecord.toStored.toMeta :: out, stale)

def CacheStore.listForUser (userID : Bytes) : CacheProg D (Except StoreErr (List SessionMeta)) :=
  if userID = [] then return .ok []
  else do
    let ids ← (Op.members userID).run
    if ids = [] then return .ok []
    else
      match ← listEach userID ids with
      | .error e => return .error e
      | .ok (out, stale) =>
        unlink userID stale
        return .ok out

end Programs

inductive Call (D : Type)
  | get (id : Bytes)
  | put (s : StoredSession D)
  | touch (id : Bytes) (lastSeen expiresAt : Int)
  | updateData (id : Bytes) (update : D → Option D) (lastSeen expiresAt : Int)
  | deleteIf (id : Bytes) (cond : SessionMeta → Bool)
  | delete (id : Bytes)
  | deleteAllForUser (userID : Bytes)
  | listForUser (userID : Bytes)

inductive Reply (D : Type)
  | session (r : Except StoreErr (StoredSession D))
  | written (r : Except StoreErr Unit)
  | removed (r : Except StoreErr Bool)
  | listing (r : Except StoreErr (List SessionMeta))

section

variable {D : Type} [DecidableEq D]

def perform : Call D → CacheProg D (Reply D)
  | .get id => do return .session (← CacheStore.get id)
  | .put s => do return .written (← CacheStore.put s)
  | .touch id lastSeen expiresAt => do return .written (← CacheStore.touch id lastSeen expiresAt)
  | .updateData id update lastSeen expiresAt => do
    return .written (← CacheStore.updateData id update lastSeen expiresAt)
  | .deleteIf id cond => do return .removed (← CacheStore.deleteIf id cond)
  | .delete id => do return .written (← CacheStore.delete id)
  | .deleteAllForUser userID => do return .written (← CacheStore.deleteAllForUser userID)
  | .listForUser userID => do return .listing (← CacheStore.listForUser userID)

def instances (x : Expiry) : System (Res (D := D)) (Backend D) Env (Call D) (Reply D) where
  body := perform
  exec := Backend.exec x

end

end Session
