import Velocity.Lib.Pool
import Velocity.Cache.Store

/-! The redis store: a keyspace, the commands and scripts that act on it in one step each, and the
commands every call sends. The server's clock readings and deadlines are in milliseconds. -/

namespace Cache

open Interleave

inductive RedisValue
  | str (bytes : Bytes)
  | set (members : Finset Bytes)
  deriving DecidableEq

structure RedisEntry where
  value : RedisValue
  deadline : Option Int
  deriving DecidableEq

abbrev Keyspace := FMap Bytes RedisEntry

/-- What a SCAN is to match: the keys that start so, or every key. -/
inductive Pattern
  | under (start : Bytes)
  | all
  deriving DecidableEq

def Pattern.matches : Pattern → Bytes → Bool
  | .under start, key => start.isPrefixOf key
  | .all, _ => true

inductive Command
  | get (key : Bytes)
  | exist (key : Bytes)
  | smembers (key : Bytes)
  /-- SET with PX; `nx` and `xx` ask for the key to be absent or present. -/
  | set (key bytes : Bytes) (px : Option Int)
  | setnx (key bytes : Bytes) (px : Option Int)
  | setxx (key bytes : Bytes) (px : Option Int)
  | del (keys : List Bytes)
  | incrby (key : Bytes) (delta : Int64)
  | srem (key : Bytes) (members : List Bytes)
  | scan (pattern : Pattern)
  | compareAndSwapScript (key want data : Bytes) (ttl : Int)
  | compareAndDeleteScript (key want : Bytes)
  | setAddScript (key : Bytes) (ttl : Int) (members : List Bytes)
  | releaseLockScript (key owner : Bytes)

inductive Reply
  | ok
  | flag (b : Bool)
  | bytes (b : Option Bytes)
  | members (s : Finset Bytes)
  | count (n : Int64)
  | keys (ks : List Bytes) (more : Bool)
  /-- The value is of another type, or not a number, or too large. -/
  | error
  deriving DecidableEq

/-- The clock, and the keys that the next SCAN happens to visit. -/
structure ServerEnv where
  now : Int
  visited : List Bytes
  more : Bool

namespace Keyspace

variable (ks : Keyspace) (now : Int) (key : Bytes)

/-- An entry is gone once the clock is after its deadline. -/
def find : Option RedisEntry :=
  (ks.lookup key).filter fun e => !passed now e.deadline

def write (key bytes : Bytes) (px : Option Int) : Keyspace :=
  ks.insert key ⟨.str bytes, px.map (now + ·)⟩

def sadd (members : List Bytes) : Option Keyspace :=
  match ks.find now key with
  | none => some (ks.insert key ⟨.set members.toFinset, none⟩)
  | some ⟨.set current, deadline⟩ =>
    some (ks.insert key ⟨.set (current ∪ members.toFinset), deadline⟩)
  | some ⟨.str _, _⟩ => none

def srem (members : List Bytes) : Option Keyspace :=
  match ks.find now key with
  | none => some ks
  | some ⟨.set current, deadline⟩ =>
    if current \ members.toFinset = ∅ then some (ks.erase key)
    else some (ks.insert key ⟨.set (current \ members.toFinset), deadline⟩)
  | some ⟨.str _, _⟩ => none

def expireAt (deadline : Option Int) : Keyspace :=
  match ks.find now key with
  | none => ks
  | some e => ks.insert key { e with deadline := deadline }

def persist : Keyspace := ks.expireAt now key none

def pexpire (ttl : Int) : Keyspace := ks.expireAt now key (some (now + ttl))

/-- -2 for an absent key, -1 for no deadline. -/
def pttl : Int :=
  match ks.find now key with
  | none => -2
  | some e => e.deadline.elim (-1) (· - now)

def incrby (delta : Int64) : Option (Int64 × Keyspace) :=
  match ks.find now key with
  | none => some (delta, ks.insert key ⟨.str (Decimal.formatInt delta.toInt), none⟩)
  | some ⟨.set _, _⟩ => none
  | some ⟨.str bytes, deadline⟩ =>
    (Decimal.parseInt bytes).bind fun n =>
      if -2 ^ 63 ≤ n + delta.toInt ∧ n + delta.toInt < 2 ^ 63 then
        some (Int64.ofInt (n + delta.toInt),
          ks.insert key ⟨.str (Decimal.formatInt (n + delta.toInt)), deadline⟩)
      else none

/-- The expiry rule of the script, after the members are added. -/
def extendTTL (ttl : Int) (existed : Bool) : Keyspace :=
  if ttl ≤ 0 then ks.persist now key
  else if existed = false then ks.pexpire now key ttl
  else
    let current := ks.pttl now key
    if 0 ≤ current ∧ current < ttl then ks.pexpire now key ttl else ks

def setAddScript (ttl : Int) (members : List Bytes) : Option Keyspace :=
  let existed := (ks.find now key).isSome
  (ks.sadd now key members).map fun ks => ks.extendTTL now key ttl existed

/-- The scripts compare bytes, and fail on a set. -/
def ifHolds (key want : Bytes) (next : Keyspace) : Reply × Keyspace :=
  match ks.find now key with
  | some ⟨.set _, _⟩ => (.error, ks)
  | some ⟨.str bytes, _⟩ => if bytes = want then (.flag true, next) else (.flag false, ks)
  | none => (.flag false, ks)

def reply (out : Option Keyspace) : Reply × Keyspace :=
  match out with
  | some next => (.ok, next)
  | none => (.error, ks)

def exec (env : ServerEnv) : Command → Reply × Keyspace
  | .get key =>
    (match ks.find env.now key with
      | some ⟨.str bytes, _⟩ => .bytes (some bytes)
      | some ⟨.set _, _⟩ => .error
      | none => .bytes none, ks)
  | .exist key => (.flag (ks.find env.now key).isSome, ks)
  | .smembers key =>
    (match ks.find env.now key with
      | some ⟨.set members, _⟩ => .members members
      | some ⟨.str _, _⟩ => .error
      | none => .members ∅, ks)
  | .set key bytes px => (.ok, ks.write env.now key bytes px)
  | .setnx key bytes px =>
    if (ks.find env.now key).isSome then (.flag false, ks)
    else (.flag true, ks.write env.now key bytes px)
  | .setxx key bytes px =>
    if (ks.find env.now key).isSome then (.flag true, ks.write env.now key bytes px)
    else (.flag false, ks)
  | .del keys => (.ok, ks.eraseAll keys)
  | .incrby key delta =>
    match ks.incrby env.now key delta with
    | some (n, next) => (.count n, next)
    | none => (.error, ks)
  | .srem key members => ks.reply (ks.srem env.now key members)
  | .scan pattern => (.keys (env.visited.filter pattern.matches) env.more, ks)
  | .compareAndSwapScript key want data ttl =>
    ks.ifHolds env.now key want
      (ks.write env.now key data (if 0 < ttl then some ttl else none))
  | .compareAndDeleteScript key want => ks.ifHolds env.now key want (ks.erase key)
  | .setAddScript key ttl members => ks.reply (ks.setAddScript env.now key ttl members)
  | .releaseLockScript key owner => ks.ifHolds env.now key owner (ks.erase key)

end Keyspace

def clampTTL (ttl : Int) : Int := if ttl < 0 then 0 else ttl

/-- `Duration.Milliseconds`, for a duration that is not negative. -/
def milliseconds (ttl : Int) : Int := ttl / 1000000

/-- The prefix, and the client's milliseconds of PX for a positive duration. -/
structure RedisConfig where
  pre : Bytes
  px : Int → Int

namespace RedisConfig

variable (c : RedisConfig)

def prefixedKey (key : Bytes) : Bytes := prefixKey c.pre key

/-- No expiry for a duration of zero. -/
def expiry (ttl : Int) : Option Int := if ttl = 0 then none else some (c.px ttl)

def lockKey (key : Bytes) : Bytes := c.prefixedKey (Bytes.ascii "lock:" ++ key)

end RedisConfig

/-- A swap gets the expected bytes and the comparison in the shape of a read. -/
inductive RedisCall
  | get (key : Bytes)
  | has (key : Bytes)
  | setMembers (key : Bytes)
  | put (key : Bytes) (value : Scalar) (ttl : Int)
  | add (key : Bytes) (value : Scalar) (ttl : Int)
  | replace (key : Bytes) (value : Scalar) (ttl : Int)
  | forever (key : Bytes) (value : Scalar)
  | forget (key : Bytes)
  | increment (key : Bytes) (delta : Int64)
  | decrement (key : Bytes) (delta : Int64)
  | compareAndSwap (key want data : Bytes) (same : Bytes → Bool) (ttl : Int)
  | compareAndDelete (key want : Bytes) (same : Bytes → Bool)
  | setAdd (key : Bytes) (ttl : Int) (members : List Bytes)
  | setRemove (key : Bytes) (members : List Bytes)
  | flush (rounds : Nat)
  | flushAllUnsafe (rounds : Nat)
  | lockGet (key owner : Bytes) (ttl : Int)
  | lockRelease (key owner : Bytes)
  | lockForceRelease (key : Bytes)

abbrev RedisProg := Prog fun _ : Command => Reply

def send (cmd : Command) : RedisProg Reply := Prog.perform cmd

/-- The SCAN and DEL loop, for at most so many rounds. -/
def flushPattern (pattern : Pattern) : Nat → RedisProg Unit
  | 0 => pure ()
  | rounds + 1 => do
    match ← send (.scan pattern) with
    | .keys keys more =>
      if keys ≠ [] then
        let _ ← send (.del keys)
      if more then flushPattern pattern rounds
    | _ => pure ()

/-- On the expected bytes, and on the stored ones when they read the same. -/
def twoAttempts (key want : Bytes) (same : Bytes → Bool) (script : Bytes → Command) :
    RedisProg Unit := do
  let swapped ← send (script want)
  if swapped = .flag false then
    match ← send (.get key) with
    | .bytes (some stored) =>
      if same stored then
        let _ ← send (script stored)
    | _ => pure ()

/-- A positive time under a millisecond still expires. -/
def swapMillis (ttl : Int) : Int :=
  if 0 < ttl ∧ milliseconds (clampTTL ttl) = 0 then 1 else milliseconds (clampTTL ttl)

/-- `true` for a lock that was acquired. -/
def RedisCall.body (c : RedisConfig) : RedisCall → RedisProg Bool
  | .get key => do let _ ← send (.get (c.prefixedKey key)); pure false
  | .has key => do let _ ← send (.exist (c.prefixedKey key)); pure false
  | .setMembers key => do let _ ← send (.smembers (c.prefixedKey key)); pure false
  | .put key value ttl => do
    let _ ← send (.set (c.prefixedKey key) (marshalValue value) (c.expiry (clampTTL ttl)))
    pure false
  | .add key value ttl => do
    let _ ← send (.setnx (c.prefixedKey key) (marshalValue value) (c.expiry (clampTTL ttl)))
    pure false
  | .replace key value ttl => do
    let _ ← send (.setxx (c.prefixedKey key) (marshalValue value) (c.expiry (clampTTL ttl)))
    pure false
  | .forever key value => do
    let _ ← send (.set (c.prefixedKey key) (marshalValue value) (c.expiry (clampTTL 0)))
    pure false
  | .forget key => do let _ ← send (.del [c.prefixedKey key]); pure false
  | .increment key delta => do let _ ← send (.incrby (c.prefixedKey key) delta); pure false
  | .decrement key delta =>
    -- The server refuses to negate the least integer.
    if delta = Int64.minValue then pure false
    else do let _ ← send (.incrby (c.prefixedKey key) (-delta)); pure false
  | .compareAndSwap key want data same ttl => do
    twoAttempts (c.prefixedKey key) want same fun bytes =>
      .compareAndSwapScript (c.prefixedKey key) bytes data (swapMillis ttl)
    pure false
  | .compareAndDelete key want same => do
    twoAttempts (c.prefixedKey key) want same fun bytes =>
      .compareAndDeleteScript (c.prefixedKey key) bytes
    pure false
  | .setAdd key ttl members => do
    if members ≠ [] then
      let _ ← send (.setAddScript (c.prefixedKey key) (milliseconds (clampTTL ttl)) members)
    pure false
  | .setRemove key members => do
    if members ≠ [] then
      let _ ← send (.srem (c.prefixedKey key) members)
    pure false
  | .flush rounds => do
    -- Without a prefix the call is refused with ErrCannotFlushUnprefixed.
    if c.pre ≠ [] then
      flushPattern (.under (c.pre ++ [Byte.of ':'])) rounds
    pure false
  | .flushAllUnsafe rounds => do flushPattern .all rounds; pure false
  | .lockGet key owner ttl =>
    -- A duration that is not positive is ErrInvalidLockTTL.
    if ttl ≤ 0 then pure false
    else do
      let out ← send (.setnx (c.lockKey key) owner (c.expiry ttl))
      pure (decide (out = .flag true))
  | .lockRelease key owner => do let _ ← send (.releaseLockScript (c.lockKey key) owner); pure false
  | .lockForceRelease key => do let _ ← send (.del [c.lockKey key]); pure false

end Cache
