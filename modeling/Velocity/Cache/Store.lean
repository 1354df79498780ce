import Velocity.Lib.Map
import Velocity.Cache.Value

/-! The memory store and the file store: what each operation does to the entries, and what it
returns. Every operation reads the clock once. -/

namespace Cache

/-- Durations and clock readings are in nanoseconds. -/
inductive Op
  | put (key : Bytes) (value : Scalar) (ttl : Int)
  | add (key : Bytes) (value : Scalar) (ttl : Int)
  | forever (key : Bytes) (value : Scalar)
  | forget (key : Bytes)
  | flush
  | increment (key : Bytes) (delta : Int64)
  | decrement (key : Bytes) (delta : Int64)
  | get (key : Bytes)
  | getString (key : Bytes)
  | has (key : Bytes)
  | compareAndSwap (key : Bytes) (expected : Value) (value : Scalar) (ttl : Int)
  | compareAndDelete (key : Bytes) (expected : Value)
  | setAdd (key : Bytes) (ttl : Int) (members : List Bytes)
  | setRemove (key : Bytes) (members : List Bytes)
  | setMembers (key : Bytes)
  deriving DecidableEq

inductive Outcome
  | done
  | flag (b : Bool)
  | count (n : Int64)
  /-- The error "velocity/cache: value is not numeric". -/
  | notNumeric
  | reading (r : Option Reading)
  | text (s : Option Bytes)
  | members (s : Finset Bytes)
  deriving DecidableEq

def prefixKey (pre key : Bytes) : Bytes :=
  if pre = [] then key else pre ++ Byte.of ':' :: key

theorem prefixKey_injective (pre : Bytes) : Function.Injective (prefixKey pre) := by
  intro key key' h
  unfold prefixKey at h
  split at h
  · exact h
  · simpa using h

/-- A duration that is not positive keeps an entry forever. -/
def expirationFor (now ttl : Int) : Option Int := if ttl ≤ 0 then none else some (now + ttl)

def before (now : Int) (expiration : Option Int) : Bool :=
  match expiration with
  | none => true
  | some e => now < e

def passed (now : Int) (expiration : Option Int) : Bool :=
  match expiration with
  | none => false
  | some e => e < now

def extendExpiration (current expiration : Option Int) : Option Int :=
  match current, expiration with
  | none, _ => none
  | some _, none => none
  | some c, some e => if e < c then some c else some e

structure MemoryItem where
  value : Value
  expiration : Option Int
  deriving DecidableEq

structure MemoryStore where
  pre : Bytes
  items : FMap Bytes MemoryItem

namespace MemoryStore

variable (s : MemoryStore) (now : Int) (key : Bytes)

def item : Option MemoryItem := s.items.lookup (prefixKey s.pre key)

def setLocked (value : Value) (expiration : Option Int) : MemoryStore :=
  { s with items := s.items.insert (prefixKey s.pre key) ⟨value, expiration⟩ }

def removeLocked : MemoryStore :=
  { s with items := s.items.erase (prefixKey s.pre key) }

def live : Option MemoryItem :=
  (s.item key).filter fun i => before now i.expiration

def get : Option Value :=
  match s.item key with
  | none => none
  | some i => if passed now i.expiration then none else some i.value

def getString : Option Bytes :=
  match s.get now key with
  | some (.scalar (.str t)) => some t
  | _ => none

def add (value : Scalar) (ttl : Int) : Bool × MemoryStore :=
  match s.live now key with
  | some _ => (false, s)
  | none => (true, s.setLocked key (.scalar value) (expirationFor now ttl))

def increment (delta : Int64) : Option Int64 × MemoryStore :=
  match s.live now key with
  | none => (some (0 + delta), s.setLocked key (.scalar (.int (0 + delta))) none)
  | some i =>
    match i.value with
    | .scalar (.int n) => (some (n + delta), s.setLocked key (.scalar (.int (n + delta))) i.expiration)
    | _ => (none, s)

def compareAndSwap (expected : Value) (value : Scalar) (ttl : Int) : Bool × MemoryStore :=
  match s.live now key with
  | none => (false, s)
  | some i =>
    if i.value = expected then (true, s.setLocked key (.scalar value) (expirationFor now ttl))
    else (false, s)

def compareAndDelete (expected : Value) : Bool × MemoryStore :=
  match s.live now key with
  | none => (false, s)
  | some i => if i.value = expected then (true, s.removeLocked key) else (false, s)

def liveSet : Option (Finset Bytes × Option Int) :=
  match s.live now key with
  | some ⟨.set members, expiration⟩ => some (members, expiration)
  | _ => none

def setAdd (ttl : Int) (members : List Bytes) : MemoryStore :=
  if members = [] then s
  else
    match s.liveSet now key with
    | none => s.setLocked key (.set members.toFinset) (expirationFor now ttl)
    | some (set, current) =>
      s.setLocked key (.set (set ∪ members.toFinset))
        (extendExpiration current (expirationFor now ttl))

def setRemove (members : List Bytes) : MemoryStore :=
  if members = [] then s
  else
    match s.liveSet now key with
    | none => s
    | some (set, current) =>
      if set \ members.toFinset = ∅ then s.removeLocked key
      else s.setLocked key (.set (set \ members.toFinset)) current

def setMembers : Finset Bytes :=
  match s.liveSet now key with
  | none => ∅
  | some (set, _) => set

def counted (out : Option Int64 × MemoryStore) : Outcome × MemoryStore :=
  (match out.1 with
    | some n => .count n
    | none => .notNumeric, out.2)

def exec : Op → Outcome × MemoryStore
  | .put key value ttl => (.done, s.setLocked key (.scalar value) (expirationFor now ttl))
  | .add key value ttl => let out := s.add now key value ttl; (.flag out.1, out.2)
  | .forever key value => (.done, s.setLocked key (.scalar value) none)
  | .forget key => (.done, s.removeLocked key)
  | .flush => (.done, { s with items := ∅ })
  | .increment key delta => counted (s.increment now key delta)
  | .decrement key delta => counted (s.increment now key (-delta))
  | .get key => (.reading ((s.get now key).map Value.reading), s)
  | .getString key => (.text (s.getString now key), s)
  | .has key => (.flag (s.get now key).isSome, s)
  | .compareAndSwap key expected value ttl =>
    let out := s.compareAndSwap now key expected value ttl; (.flag out.1, out.2)
  | .compareAndDelete key expected =>
    let out := s.compareAndDelete now key expected; (.flag out.1, out.2)
  | .setAdd key ttl members => (.done, s.setAdd now key ttl members)
  | .setRemove key members => (.done, s.setRemove now key members)
  | .setMembers key => (.members (s.setMembers now key), s)

end MemoryStore

/-- In its file: the bytes of the value, or the sorted members of a set. -/
structure FileItem where
  value : Bytes
  expiration : Option Int
  members : List Bytes
  deriving DecidableEq

namespace FileItem

def isSet (i : FileItem) : Bool := i.value.isEmpty && !i.members.isEmpty

def read (i : FileItem) : Option Reading :=
  if i.isSet then some (.set i.members.toFinset) else unmarshalValue i.value

end FileItem

def sortedMembers (set : Finset Bytes) : List Bytes := set.sort (· ≤ ·)

/-- The shape in which a read returns a value; nothing stored decodes to a set's object. -/
def expectedShape : Value → Option Reading
  | .set _ => none
  | .scalar v => unmarshalValue (marshalValue v)

/-- A live entry holds the expected value, as reads return the two. -/
def FileItem.matches (i : FileItem) (expected : Value) : Bool :=
  if i.isSet then
    match expected with
    | .set members => i.members.toFinset = members
    | _ => false
  else
    match unmarshalValue i.value with
    | none => false
    | some have_ => some have_ = expectedShape expected

/-- The files under their names, the hashes of the keys. -/
structure FileStore where
  pre : Bytes
  sha256 : Bytes → Bytes
  files : FMap Bytes FileItem

namespace FileStore

variable (s : FileStore) (now : Int) (key : Bytes)

def path : Bytes := s.sha256 (prefixKey s.pre key)

def item : Option FileItem := s.files.lookup (s.path key)

def writeItem (i : FileItem) : FileStore :=
  { s with files := s.files.insert (s.path key) i }

def remove : FileStore :=
  { s with files := s.files.erase (s.path key) }

def readLiveItem : Option FileItem :=
  (s.item key).filter fun i => before now i.expiration

/-- A read of an expired entry removes it. -/
def get : Option Reading × FileStore :=
  match s.item key with
  | none => (none, s)
  | some i => if passed now i.expiration then (none, s.remove key) else (i.read, s)

def getString : Option Bytes × FileStore :=
  let out := s.get now key
  (match out.1 with
    | some (.str t) => some t
    | _ => none, out.2)

def put (value : Scalar) (expiration : Option Int) : FileStore :=
  s.writeItem key ⟨marshalValue value, expiration, []⟩

def add (value : Scalar) (ttl : Int) : Bool × FileStore :=
  match s.readLiveItem now key with
  | some _ => (false, s)
  | none => (true, s.put key value (expirationFor now ttl))

def increment (delta : Int64) : Option Int64 × FileStore :=
  match s.readLiveItem now key with
  | none => (some (0 + delta), s.put key (.int (0 + delta)) none)
  | some i =>
    match unmarshalValue i.value with
    | some (.num v) =>
      (some (truncate v + delta), s.put key (.int (truncate v + delta)) i.expiration)
    | _ => (none, s)

def compareAndSwap (expected : Value) (value : Scalar) (ttl : Int) : Bool × FileStore :=
  match s.readLiveItem now key with
  | none => (false, s)
  | some i =>
    if i.matches expected then (true, s.put key value (expirationFor now ttl)) else (false, s)

def compareAndDelete (expected : Value) : Bool × FileStore :=
  match s.readLiveItem now key with
  | none => (false, s)
  | some i => if i.matches expected then (true, s.remove key) else (false, s)

def liveSet : Option (Finset Bytes × Option Int) :=
  match s.readLiveItem now key with
  | none => none
  | some i => if i.isSet then some (i.members.toFinset, i.expiration) else none

def writeSet (set : Finset Bytes) (expiration : Option Int) : FileStore :=
  s.writeItem key ⟨[], expiration, sortedMembers set⟩

def setAdd (ttl : Int) (members : List Bytes) : FileStore :=
  if members = [] then s
  else
    match s.liveSet now key with
    | none => s.writeSet key members.toFinset (expirationFor now ttl)
    | some (set, current) =>
      s.writeSet key (set ∪ members.toFinset) (extendExpiration current (expirationFor now ttl))

def setRemove (members : List Bytes) : FileStore :=
  if members = [] then s
  else
    match s.liveSet now key with
    | none => s
    | some (set, current) =>
      if set \ members.toFinset = ∅ then s.remove key
      else s.writeSet key (set \ members.toFinset) current

def setMembers : Finset Bytes :=
  match s.liveSet now key with
  | none => ∅
  | some (set, _) => set

def counted (out : Option Int64 × FileStore) : Outcome × FileStore :=
  (match out.1 with
    | some n => .count n
    | none => .notNumeric, out.2)

def exec : Op → Outcome × FileStore
  | .put key value ttl => (.done, s.put key value (expirationFor now ttl))
  | .add key value ttl => let out := s.add now key value ttl; (.flag out.1, out.2)
  | .forever key value => (.done, s.put key value none)
  | .forget key => (.done, s.remove key)
  | .flush => (.done, { s with files := ∅ })
  | .increment key delta => counted (s.increment now key delta)
  | .decrement key delta => counted (s.increment now key (-delta))
  | .get key => let out := s.get now key; (.reading out.1, out.2)
  | .getString key => let out := s.getString now key; (.text out.1, out.2)
  | .has key => let out := s.get now key; (.flag out.1.isSome, out.2)
  | .compareAndSwap key expected value ttl =>
    let out := s.compareAndSwap now key expected value ttl; (.flag out.1, out.2)
  | .compareAndDelete key expected =>
    let out := s.compareAndDelete now key expected; (.flag out.1, out.2)
  | .setAdd key ttl members => (.done, s.setAdd now key ttl members)
  | .setRemove key members => (.done, s.setRemove now key members)
  | .setMembers key => (.members (s.setMembers now key), s)

end FileStore

end Cache
