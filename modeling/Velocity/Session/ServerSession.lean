import Velocity.Lib.Base64
import Velocity.Lib.JsonTree
import Velocity.Session.Cookie
import Velocity.Session.MoveRecord

/-! Sessions kept on the server, in the record of the session's id. A request loads the record into
a session of its own and writes back what it changed. Its goroutines share the session: the steps,
each under one hold of its mutex, interleave, while the transitions take turns. -/

namespace Session

open Interleave Json Option

/-- A flash value. Beside it stands which `Flash` call set it, which no step looks at. -/
structure Flashed where
  origin : Nat
  value : Tree
deriving DecidableEq

namespace Flashed

/-- What a flash value is read back as from its JSON text. -/
def reread (f : Flashed) : Option Flashed := f.value.reread.map (Flashed.mk f.origin)

/-- `reflect.DeepEqual` of two flash values. -/
def same (f g : Flashed) : Bool := f.value = g.value

end Flashed

structure RecordPayload where
  data : Bag Tree
  flash : Bag Flashed

abbrev SessionRecord := StoredSession RecordPayload

abbrev Records := MemoryStore RecordPayload

/-- The payload as a JSON-shaped tree, or nothing when a value has no JSON text. -/
def encodeRecordPayload (data : Bag Tree) (flash : Bag Flashed) : Option RecordPayload :=
  match rereadMap Tree.reread data, rereadMap Flashed.reread flash with
  | some data', some flash' => some ⟨data', flash'⟩
  | _, _ => none

def decodeRecordPayload (stored : RecordPayload) : Option RecordPayload :=
  encodeRecordPayload stored.data stored.flash

/-- The keys `now` sets or changes relative to `base` are written, those it lacks removed. -/
def applyChanges {V : Type} (same : V → V → Bool) (dst base now : Bag V) : Bag V :=
  FMap.eraseAll (base.keys.filter fun k => (now.lookup k).isNone)
    (now.overlay (fun k v => !(base.lookup k).any fun old => same old v) dst)

structure ServerSession where
  id : Bytes
  data : Bag Tree
  flash : Bag Flashed
  modified : Bool
  destroyed : Bool
  /-- The id of the record it was loaded from or last saved to. -/
  savedID : Bytes
  createdAt : Int
  issuedAt : Int
  /-- The payload as the session last read or wrote it. -/
  loaded : Option RecordPayload
  /-- The flash keys that the request set itself, each with the number of its set. -/
  flashLocal : FMap Bytes Nat
  seq : Nat
  busy : Bool

structure SaveSnapshot where
  savedID : Bytes
  createdAt : Int
  loaded : Option RecordPayload
  flash : Bag Flashed
  own : List Bytes
  seq : Nat

namespace ServerSession

variable (s : ServerSession)

def saveBase : SaveSnapshot :=
  ⟨s.savedID, s.createdAt, s.loaded, s.flash, s.flashLocal.keys, s.seq⟩

def loadedFlash : Bag Flashed := s.loaded.elim ∅ RecordPayload.flash

def persistedLocked (id : Bytes) : Bool :=
  s.savedID ≠ [] ∧ s.savedID = id ∧ s.loaded.isSome

/-- The flash under the key is the session's to consume in memory. -/
def localFlashLocked (id key : Bytes) : Bool :=
  (s.flashLocal.lookup key).isSome || (s.loadedFlash.lookup key).isNone || !s.persistedLocked id

/-- The session holds a flash of a record another request shares. -/
def storedFlashLocked (id : Bytes) : Bool :=
  s.persistedLocked id && s.loadedFlash.keys.any fun k => (s.flashLocal.lookup k).isNone

/-- `GetFlash` of the bag alone. -/
def dropFlash (key : Bytes) : ServerSession :=
  match s.flash.lookup key with
  | some _ => { s with flash := s.flash.erase key, modified := true }
  | none => s

/-- `FlushFlash` of the bag alone. -/
def dropAllFlash : ServerSession :=
  if s.flash.entries = [] then s else { s with flash := ∅, modified := true }

/-- The base without the flash that was consumed on the record. -/
def rebase (id : Bytes) (consume : Bag Flashed → Bag Flashed) : ServerSession :=
  if s.persistedLocked id then
    { s with loaded := s.loaded.map fun p => { p with flash := consume p.flash } }
  else s

end ServerSession

/-- What is done under one hold of the session's mutex. -/
inductive SessionStep
  | takeTurn
  | endTurn
  /-- `ID`, `GetData`, `GetFlashData`, `IsModified`, `IsDestroyed` and the reads of single fields. -/
  | look
  | saveBase
  | markClean
  | markModified
  | dropSavedID
  | finishSave (snap : SaveSnapshot) (id : Bytes) (createdAt now : Int) (payload : RecordPayload)
  | put (key : Bytes) (value : Tree)
  | remove (key : Bytes)
  | flash (key : Bytes) (value : Flashed)
  | clear
  /-- Consumes a flash in memory, where it is local. -/
  | takeFlash (id : Option Bytes) (key : Bytes)
  | adoptTaken (id key : Bytes)
  /-- Consumes the bag in memory, where nothing in it came from the record. -/
  | flushFlash (id : Option Bytes)
  | adoptFlushed (id : Bytes)
  | regenerate (id : Bytes)
  | restartLifetime
  | disown
  | invalidate (id : Bytes)

def SessionStep.apply (s : ServerSession) : SessionStep → ServerSession
  | .takeTurn => { s with busy := true }
  | .endTurn => { s with busy := false }
  | .look | .saveBase => s
  | .markClean => { s with modified := false }
  | .markModified => { s with modified := true }
  | .dropSavedID => { s with savedID := [] }
  | .finishSave snap id createdAt now payload =>
    { s with
      flashLocal := FMap.filter (fun _ n => !(n ≤ snap.seq)) s.flashLocal
      savedID := id
      loaded := some payload
      createdAt := createdAt
      issuedAt := now }
  | .put key value => { s with data := s.data.insert key value, modified := true }
  | .remove key => { s with data := s.data.erase key, modified := true }
  | .flash key value =>
    { s with
      seq := s.seq + 1
      flashLocal := s.flashLocal.insert key (s.seq + 1)
      flash := s.flash.insert key value
      modified := true }
  | .clear => { s with flashLocal := ∅, data := ∅, flash := ∅, modified := true }
  | .takeFlash id key =>
    if s.localFlashLocked (id.getD s.id) key then
      { s.dropFlash key with flashLocal := s.flashLocal.erase key }
    else s
  | .adoptTaken id key =>
    if (s.flashLocal.lookup key).isSome then s.rebase id (AList.erase key)
    else (s.rebase id (AList.erase key)).dropFlash key
  | .flushFlash id =>
    if s.storedFlashLocked (id.getD s.id) then s else { s.dropAllFlash with flashLocal := ∅ }
  | .adoptFlushed id => ({ s.dropAllFlash with flashLocal := ∅ } : ServerSession).rebase id fun _ => ∅
  | .regenerate id => { s with id := id, modified := true }
  | .restartLifetime => { s with createdAt := 0 }
  | .disown => { s with flashLocal := ∅ }
  | .invalidate id => { s with destroyed := true, data := ∅, flash := ∅, id := id, modified := true }

/-! What a request does: steps of its session, calls of the record store, readings of the clock. -/

inductive RequestOp
  | session (step : SessionStep)
  | store (o : StoreOp RecordPayload)
  | clock
  /-- The request holds the session it has loaded. -/
  | hold (s : ServerSession)

/-- A step of the session is answered with the session before it. -/
abbrev RequestRes : RequestOp → Type
  | .session _ => ServerSession
  | .store o => StoreRes o
  | .clock => Int
  | .hold _ => Unit

abbrev RequestProg (α : Type) := Prog RequestRes α

def SessionStep.run (step : SessionStep) : RequestProg ServerSession :=
  Prog.perform (RequestOp.session step)

def StoreOp.run (o : StoreOp RecordPayload) : RequestProg (StoreRes o) :=
  Prog.perform (RequestOp.store o)

def readClock : RequestProg Int := Prog.perform RequestOp.clock

/-- A transition of the session. Where another one has the turn, the caller is still waiting. -/
def inTurn {α : Type} (transition : RequestProg α) : RequestProg (Option α) := do
  let s ← SessionStep.takeTurn.run
  if s.busy then return none
  else
    let a ← transition
    let _ ← SessionStep.endTurn.run
    return some a

def validSessionID (id : Bytes) : Bool :=
  id.length = 44 ∧ ((Base64.decode .url id).any fun raw => raw.length = 32)

inductive Loaded
  /-- A fresh session with an id of its own. -/
  | fresh (authenticationExpired recordDeleted : Bool)
  | session (s : ServerSession)

def SessionConfig.ended (c : SessionConfig) (createdAt lastSeenAt now : Int) : Bool :=
  c.expiresAt createdAt lastSeenAt ≠ 0 ∧ c.expiresAt createdAt lastSeenAt < now

/-- `Get` of the cookie's id. The condition of the removal reads the clock itself. -/
def loadSession (c : SessionConfig) (id : Bytes) : RequestProg Loaded := do
  if !validSessionID id then return .fresh false false
  else
    match ← (StoreOp.get id).run with
    | .error e => return .fresh (e = .expired) (e = .notFound)
    | .ok rec =>
      let now ← readClock
      if c.ended rec.createdAt rec.lastSeenAt now then
        let now ← readClock
        let _ ← (StoreOp.deleteIf id fun m => c.ended m.createdAt m.lastSeenAt now).run
        return .fresh (rec.userID ≠ []) false
      else
        match decodeRecordPayload rec.data with
        | none => return .fresh false false
        | some payload =>
          return .session
            { id := rec.id, data := payload.data, flash := payload.flash
              modified := rec.id = [], destroyed := false, savedID := rec.id
              createdAt := rec.createdAt, issuedAt := rec.lastSeenAt, loaded := some payload
              flashLocal := ∅, seq := 0, busy := false }

inductive SaveErr
  | invalidSession
  | encode
  | move (e : StoreErr)
  | retire (e : StoreErr)
  | save (e : StoreErr)
  | delete (e : StoreErr)
deriving DecidableEq

/-- A session cookie that could not be deleted from the store goes from the browser all the same. -/
inductive SaveReply
  | deleted
  | unchanged
  /-- The cookie's Max-Age and Expires are there with an idle timeout only. -/
  | issued (id : Bytes) (maxAge : Option (Int × Int))
deriving DecidableEq

/-- A session saved to its own record: only its changes, on what the record holds when the write
lands. A flash the request set is written whatever the base holds. -/
def mergeUpdate (base now : RecordPayload) (own : List Bytes) (current : RecordPayload) :
    RecordPayload where
  data := applyChanges (fun old v => old = v) current.data base.data now.data
  flash := now.flash.overlay (fun k _ => k ∈ own)
    (applyChanges Flashed.same current.flash base.flash now.flash)

section Save

variable (c : SessionConfig)

abbrev SaveProg := RequestProg (Except SaveErr SaveReply)

/-- One save of a session: its snapshot, and what it read and encoded since. -/
structure Saving where
  snap : SaveSnapshot
  id : Bytes
  createdAt : Int
  now : Int
  payload : RecordPayload

namespace Saving

def recordEnd (v : Saving) : Int := c.recordExpiresAt v.createdAt v.now

def record (v : Saving) : SessionRecord :=
  ⟨v.id, [], v.payload, v.createdAt, v.now, v.recordEnd c, [], []⟩

def finishSave (v : Saving) : SaveProg := do
  let _ ← (SessionStep.finishSave v.snap v.id v.createdAt v.now v.payload).run
  let end_ := c.expiresAt v.createdAt v.now
  return .ok (.issued v.id
    (if 0 < c.idleTimeout then some (max 1 (CookieStore.roundSeconds (end_ - v.now)), end_) else none))

/-- The update of the record of an id, when the session's record is the one of `savedID`. -/
def update (v : Saving) (savedID : Bytes) (current : RecordPayload) : RecordPayload :=
  match v.snap.loaded with
  | some base => if savedID = v.id then mergeUpdate base v.payload v.snap.own current else v.payload
  | none => v.payload

/-- A missing record is made for a signed-out session that was not saved under the id. -/
def writeRecord (v : Saving) (savedID : Bytes) : SaveProg := do
  let update := StoreOp.updateData v.id (fun p => some (v.update savedID p)) v.now (v.recordEnd c)
  match (← update.run).1 with
  | .ok _ => v.finishSave c
  | .error e =>
    if e = .notFound ∧ v.id ≠ savedID then
      let s ← SessionStep.look.run
      if signedIn s.data then return .error (.save e)
      else
        match ← (StoreOp.put (v.record c)).run with
        | .ok _ => v.finishSave c
        | .error e => return .error (.save e)
    else return .error (.save e)

/-- Retires the record of an id rotated away from, then writes. -/
def retireAndWrite (v : Saving) : SaveProg := do
  if v.snap.savedID ≠ [] ∧ v.snap.savedID ≠ v.id then
    match ← (StoreOp.delete v.snap.savedID).run with
    | .error e =>
      if e ≠ .notFound then return .error (.retire e)
      else
        let _ ← SessionStep.dropSavedID.run
        v.writeRecord c []
    | .ok _ =>
      let _ ← SessionStep.dropSavedID.run
      v.writeRecord c []
  else v.writeRecord c v.snap.savedID

def move (v : Saving) : SaveProg := do
  match ← (moveRecord v.snap.savedID (v.record c)).hoist fun o => o.run with
  | .error e => return .error (.move e)
  | .ok _ => v.finishSave c

/-- The record of a session regenerated outside a sign-in moves. -/
def writeOrMove (v : Saving) : SaveProg := do
  if v.snap.savedID ≠ [] ∧ v.snap.savedID ≠ v.id then
    let s ← SessionStep.look.run
    if signedIn s.data then
      match ← (StoreOp.get v.id).run with
      | .error .notFound => v.move c
      | _ => v.retireAndWrite c
    else v.retireAndWrite c
  else v.retireAndWrite c

theorem writeOrMove_of_same {v : Saving} (h : v.snap.savedID = v.id) :
    v.writeOrMove c = v.writeRecord c v.id := by
  have hsame : ¬ (v.snap.savedID ≠ [] ∧ v.snap.savedID ≠ v.id) := fun hne => hne.2 h
  rw [writeOrMove, if_neg hsame, retireAndWrite, if_neg hsame, h]

end Saving

def write : SaveProg := do
  let snap := (← SessionStep.saveBase.run).saveBase
  let id := (← SessionStep.look.run).id
  if id = [] then return .error .invalidSession
  else
    let now ← readClock
    let createdAt := if snap.createdAt = 0 then now else snap.createdAt
    let data := (← SessionStep.look.run).data
    match encodeRecordPayload data snap.flash with
    | none => return .error .encode
    | some payload => (⟨snap, id, createdAt, now, payload⟩ : Saving).writeOrMove c

def saveDestroyed : SaveProg := do
  let savedID := (← SessionStep.look.run).savedID
  if savedID = [] then return .ok .deleted
  else
    match ← (StoreOp.delete savedID).run with
    | .error e => return .error (.delete e)
    | .ok _ =>
      let _ ← SessionStep.dropSavedID.run
      return .ok .deleted

/-- `save`, the body of `Save`. A write that failed puts the modified mark back. -/
def saveHeld : SaveProg := do
  let s ← SessionStep.look.run
  if s.destroyed then saveDestroyed
  else
    let s ← SessionStep.look.run
    if !s.modified then return .ok .unchanged
    else
      let _ ← SessionStep.markClean.run
      match ← write c with
      | .ok reply => return .ok reply
      | .error e =>
        let _ ← SessionStep.markModified.run
        return .error e

def save : RequestProg (Option (Except SaveErr SaveReply)) := inTurn (saveHeld c)

end Save

/-- Takes one key out of the flash section, if it is there. -/
def takeOne (key : Bytes) (flash : Bag Flashed) : Option (Bag Flashed) :=
  if (flash.lookup key).isSome then some (flash.erase key) else none

def takeAll (flash : Bag Flashed) : Option (Bag Flashed) :=
  if flash.entries = [] then none else some ∅

section Flash

variable (c : SessionConfig)

/-- Returns the section that `take` ran on, or nothing when the store failed. -/
def consumeFlash (id : Bytes) (createdAt : Int) (take : Bag Flashed → Option (Bag Flashed)) :
    RequestProg (Option (Bag Flashed)) := do
  let now ← readClock
  let r ← (StoreOp.updateData id (fun p => (take p.flash).map fun f => { p with flash := f }) now
    (c.recordExpiresAt createdAt now)).run
  match r.1 with
  | .ok _ | .error .update => return some (r.2.elim ∅ RecordPayload.flash)
  | .error _ => return none

def consumeStoredFlash (key : Bytes) : RequestProg (Option Flashed) := do
  let id := (← SessionStep.look.run).id
  let s ← (SessionStep.takeFlash (some id) key).run
  if s.localFlashLocked id key then return s.flash.lookup key
  else
    let now ← SessionStep.look.run
    if (now.flash.lookup key).isNone then return none
    else
      match ← consumeFlash c id s.createdAt (takeOne key) with
      | none => return none
      | some held =>
        let _ ← (SessionStep.adoptTaken id key).run
        return held.lookup key

/-- `GetFlash`, or nothing while the call is waiting for its turn. -/
def getFlash (key : Bytes) : RequestProg (Option (Option Flashed)) := do
  let s ← (SessionStep.takeFlash none key).run
  if s.localFlashLocked s.id key then return some (s.flash.lookup key)
  else inTurn (consumeStoredFlash c key)

/-- A bag as a caller gets it, which is nil where the bag is empty. -/
def orNil (bag : Bag Flashed) : Option (Bag Flashed) := if bag.entries = [] then none else some bag

def flushStoredFlash : RequestProg (Option (Bag Flashed)) := do
  let id := (← SessionStep.look.run).id
  let s ← (SessionStep.flushFlash (some id)).run
  if !s.storedFlashLocked id then return orNil s.flash
  else
    let now ← SessionStep.look.run
    if now.flash.entries = [] then return none
    else
      match ← consumeFlash c id s.createdAt takeAll with
      | none => return none
      | some held =>
        let s ← (SessionStep.adoptFlushed id).run
        return orNil (s.flash.overlay (fun k _ => (s.flashLocal.lookup k).isSome) held)

/-- `FlushFlash`, or nothing while the call is waiting for its turn. -/
def flushFlash : RequestProg (Option (Option (Bag Flashed))) := do
  let s ← (SessionStep.flushFlash none).run
  if !s.storedFlashLocked s.id then return some (orNil s.flash)
  else inTurn (flushStoredFlash c)

end Flash

/-! What the three-way write leaves under a key. -/

theorem lookup_applyChanges {V : Type} (same : V → V → Bool) (dst base now : Bag V) (k : Bytes) :
    (applyChanges same dst base now).lookup k = match now.lookup k with
      | some v => if (base.lookup k).any (fun old => same old v) then dst.lookup k else some v
      | none => if (base.lookup k).isSome then none else dst.lookup k := by
  rw [applyChanges, FMap.lookup_eraseAll, FMap.lookup_overlay]
  have hmem : k ∈ base.keys.filter (fun k => (now.lookup k).isNone) ↔
      (base.lookup k).isSome = true ∧ now.lookup k = none := by
    rw [List.mem_filter, AList.lookup_isSome, isNone_iff_eq_none]
    rfl
  cases hnow : now.lookup k with
  | none =>
    rw [hnow] at hmem
    simp only [and_true] at hmem
    by_cases hbase : (base.lookup k).isSome = true
    · rw [if_pos (hmem.mpr hbase), if_pos hbase]
    · rw [if_neg (fun h => hbase (hmem.mp h)), if_neg hbase]
      rfl
  | some v =>
    have hnot : k ∉ base.keys.filter (fun k => (now.lookup k).isNone) := by
      rw [hmem, hnow]
      simp
    rw [if_neg hnot]
    cases hany : (base.lookup k).any (fun old => same old v) <;> simp [filter_some, hany]

theorem lookup_applyChanges_of_same {V : Type} {same : V → V → Bool} (hsame : ∀ v, same v v = true)
    (dst : Bag V) {base now : Bag V} {k : Bytes} (h : now.lookup k = base.lookup k) :
    (applyChanges same dst base now).lookup k = dst.lookup k := by
  rw [lookup_applyChanges, h]
  cases base.lookup k with
  | none => rfl
  | some v => simp [hsame]

theorem encodeRecordPayload_eq_some {data : Bag Tree} {flash : Bag Flashed} {p : RecordPayload} :
    encodeRecordPayload data flash = some p ↔
      rereadMap Tree.reread data = some p.data ∧ rereadMap Flashed.reread flash = some p.flash := by
  unfold encodeRecordPayload
  cases rereadMap Tree.reread data with
  | none => simp
  | some data' =>
    cases rereadMap Flashed.reread flash with
    | none => simp
    | some flash' =>
      obtain ⟨-, -⟩ := p
      simp

theorem Flashed.reread_eq_some {f g : Flashed} :
    f.reread = some g ↔ g.origin = f.origin ∧ f.value.reread = some g.value := by
  obtain ⟨-, v'⟩ := g
  simp only [Flashed.reread, map_eq_some_iff, Flashed.mk.injEq]
  constructor
  · rintro ⟨w, hw, rfl, rfl⟩
    exact ⟨rfl, hw⟩
  · rintro ⟨rfl, hv⟩
    exact ⟨v', hv, rfl, rfl⟩

end Session
