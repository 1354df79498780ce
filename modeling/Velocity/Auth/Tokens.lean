import Velocity.Lib.Base64
import Velocity.Lib.FloatText
import Velocity.Lib.Map
import Velocity.Lib.Pool
import Velocity.Lib.Utf8

/-! The token manager: access and refresh tokens, the blacklist of spent and revoked token ids, and
the counters that say which generation of a user's refresh tokens is good. Both stores are in
memory: an operation is one hold of a store's lock, one reading of the clock, or one call of user
code. -/

namespace Auth

open Interleave

/-! A user's identifier, and the three texts made of it. -/

inductive Ident
  | str (s : Bytes)
  | int (n : Int) (machine : -2 ^ 63 ≤ n ∧ n < 2 ^ 64)
deriving DecidableEq

/-- The `uid` claim as decoded: a number is a double, `other` a value by its `%v` text. -/
inductive ClaimValue
  | null
  | str (s : Bytes)
  | number (x : Int)
  | other (text : Bytes)
deriving DecidableEq

/-- The text `identity.Snapshot` gives. -/
def Ident.text : Ident → Bytes
  | .str s => s
  | .int n _ => Decimal.formatInt n

/-- The claim read from a token signed with it. -/
def Ident.claim : Ident → ClaimValue
  | .str s => .str (Utf8.repair s)
  | .int n _ => .number (Float64.ofInt n)

def ClaimValue.asString : ClaimValue → Bytes
  | .str s => s
  | _ => []

def ClaimValue.sprint : ClaimValue → Bytes
  | .null => Bytes.ascii "<nil>"
  | .str s => s
  | .number x => Float64.format x
  | .other text => text

/-- The counter `RefreshToken` asks for. -/
def refreshKey (userID : ClaimValue) : Bytes :=
  if userID.asString = [] then userID.sprint else userID.asString

/-- The counter `SignOutToken` asks for and bumps. -/
def signOutKey (userID : ClaimValue) : Bytes :=
  if userID.asString = [] ∧ userID ≠ .null then userID.sprint else userID.asString

inductive TokenType
  | access
  | refresh
  | other
deriving DecidableEq

structure Claims where
  id : Bytes
  userID : ClaimValue
  tokenType : TokenType
  refreshGeneration : Int
  expiresAt : Option Int
  notBefore : Option Int
deriving DecidableEq

/-- What the token library makes of a text before the times. -/
inductive Token
  | unverifiable
  | signed (claims : Claims)
deriving DecidableEq

inductive Err
  | unverifiable
  | times (expired early : Bool)
  | missingExp
  | missingJti
  | revoked
  | expiredDuringValidation
  | notRefreshToken
  | refreshGenerationStale
  | userStore
  | userNotFound
  | identifierUnreadable
  | refreshExpired
  | refreshTokenUsed
  | noEntropy
deriving DecidableEq

/-- Claims that `verifyToken` lets pass. -/
structure Verified where
  claims : Claims
  expiry : Int
  expiresAt_eq : claims.expiresAt = some expiry
  id_ne : claims.id ≠ []
deriving DecidableEq

def Claims.required (cl : Claims) : Except Err Verified :=
  match h : cl.expiresAt with
  | none => .error .missingExp
  | some t => if hid : cl.id = [] then .error .missingJti else .ok ⟨cl, t, h, hid⟩

structure JWTConfig where
  blacklistEnabled : Bool
  /-- Minutes. -/
  ttl : Int
  refreshTTL : Int

/-! Times are nanoseconds since the zero time. -/

def second : Int := 10 ^ 9

def minute : Int := 60 * second

/-- `jwt.NewNumericDate` cuts to seconds. -/
def numericDate (t : Int) : Int := t / second * second

abbrev Blacklist := FMap Bytes Int

def Blacklist.add (s : Blacklist) (now : Int) (jti : Bytes) (expiresAt : Int) : Bool × Blacklist :=
  if expiresAt ≤ now then (false, s)
  else
    match s.lookup jti with
    | none => (true, s.insert jti expiresAt)
    | some current =>
      if now ≤ current then (false, if current < expiresAt then s.insert jti expiresAt else s)
      else (true, s.insert jti expiresAt)

/-- Deletes the entry if it still has the expiry that was read. -/
def Blacklist.drop (s : Blacklist) (jti : Bytes) (expiresAt : Int) : Blacklist :=
  if s.lookup jti = some expiresAt then s.erase jti else s

def Blacklist.cleanup (s : Blacklist) (now : Int) : Blacklist :=
  FMap.filter (fun _ expiresAt => decide (now ≤ expiresAt)) s

abbrev Generations := FMap Bytes Int

def Generations.current (s : Generations) (userID : Bytes) : Int :=
  if userID = [] then 0 else (s.lookup userID).getD 0

def Generations.bump (s : Generations) (userID : Bytes) : Int × Generations :=
  if userID = [] then (0, s)
  else ((s.lookup userID).getD 0 + 1, s.insert userID ((s.lookup userID).getD 0 + 1))

inductive Op
  | clock
  | random
  | current (userID : Bytes)
  | bump (userID : Bytes)
  | read (jti : Bytes)
  | drop (jti : Bytes) (expiresAt : Int)
  | add (jti : Bytes) (expiresAt : Int)
  | cleanup
  | findByID (userID : ClaimValue)
deriving DecidableEq

abbrev Entropy := { b : Bytes // b.length = 16 }

/-- What the user store answers. -/
inductive Lookup
  | failed
  | missing
  | unreadable
  | user (id : Ident)
deriving DecidableEq

def Res : Op → Type
  | .clock => Int
  | .random => Option Entropy
  | .current _ => Int
  | .bump _ => Int
  | .read _ => Option Int
  | .drop _ _ => Unit
  | .add _ _ => Bool
  | .cleanup => Unit
  | .findByID _ => Lookup

structure World where
  now : Nat
  blacklist : Blacklist
  generations : Generations

structure Env where
  elapsed : Nat
  entropy : Option Entropy
  lookup : Lookup

def apply (w : World) (e : Env) : (o : Op) → Res o × World
  | .clock => ((w.now : Int), w)
  | .random => (e.entropy, w)
  | .current userID => (Generations.current w.generations userID, w)
  | .bump userID =>
    ((Generations.bump w.generations userID).1,
      { w with generations := (Generations.bump w.generations userID).2 })
  | .read jti => (w.blacklist.lookup jti, w)
  | .drop jti expiresAt => ((), { w with blacklist := Blacklist.drop w.blacklist jti expiresAt })
  | .add jti expiresAt =>
    ((Blacklist.add w.blacklist w.now jti expiresAt).1,
      { w with blacklist := (Blacklist.add w.blacklist w.now jti expiresAt).2 })
  | .cleanup => ((), { w with blacklist := Blacklist.cleanup w.blacklist w.now })
  | .findByID _ => (e.lookup, w)

def World.after (w : World) (elapsed : Nat) : World := { w with now := w.now + elapsed }

def exec (w : World) (e : Env) (o : Op) : Res o × World := apply (w.after e.elapsed) e o

section Manager

open Prog

def clock : Prog Res Int := perform Op.clock

def generateJTI : Prog Res (Except Err Bytes) := do
  let entropy : Option Entropy ← perform Op.random
  match entropy with
  | none => pure (.error .noEntropy)
  | some b => pure (.ok (Base64.encode Base64.url b.val))

/-- `IsBlacklisted`: the entry is read under one lock and dropped under another. -/
def blacklistHas (jti : Bytes) : Prog Res Bool := do
  let entry : Option Int ← perform (Op.read jti)
  match entry with
  | none => pure false
  | some expiresAt => do
    let now ← clock
    if expiresAt < now then do
      let _ ← perform (Op.drop jti expiresAt)
      pure false
    else pure true

variable (cfg : JWTConfig)

def signAccessToken (id : Ident) : Prog Res (Except Err Token) := do
  let now ← clock
  match ← generateJTI with
  | .error e => pure (.error e)
  | .ok jti =>
    pure (.ok (.signed {
      id := jti, userID := id.claim, tokenType := .access, refreshGeneration := 0
      expiresAt := some (numericDate (now + cfg.ttl * minute))
      notBefore := some (numericDate now) }))

def generateToken (id : Ident) : Prog Res (Except Err Token) := signAccessToken cfg id

def generateRefreshToken (id : Ident) : Prog Res (Except Err Token) := do
  let now ← clock
  match ← generateJTI with
  | .error e => pure (.error e)
  | .ok jti => do
    let generation : Int ← perform (Op.current id.text)
    pure (.ok (.signed {
      id := jti, userID := id.claim, tokenType := .refresh, refreshGeneration := generation
      expiresAt := some (numericDate (now + cfg.refreshTTL * minute))
      notBefore := some (numericDate now) }))

def verifyToken : Token → Prog Res (Except Err Verified)
  | .unverifiable => pure (.error .unverifiable)
  | .signed cl => do
    let now ← clock
    let expired := cl.expiresAt.any (· ≤ now)
    let early := cl.notBefore.any (now < ·)
    if expired || early then pure (.error (.times expired early)) else pure cl.required

def isBlacklisted (jti : Bytes) : Prog Res Bool :=
  if cfg.blacklistEnabled then blacklistHas jti else pure false

def validateToken (token : Token) : Prog Res (Except Err Verified) := do
  match ← verifyToken token with
  | .error e => pure (.error e)
  | .ok v =>
    if cfg.blacklistEnabled then do
      let listed ← isBlacklisted cfg v.claims.id
      if listed then pure (.error .revoked)
      else do
        -- checkExpiry
        let now ← clock
        if v.expiry ≤ now then pure (.error .expiredDuringValidation) else pure (.ok v)
    else pure (.ok v)

def checkRefreshGeneration (userID : Bytes) (cl : Claims) : Prog Res Bool := do
  let current : Int ← perform (Op.current userID)
  pure (decide (current ≤ cl.refreshGeneration))

/-- The token's own expiry when known. -/
def blacklistExpiry (expiresAt : Int) : Prog Res Int :=
  if expiresAt ≠ 0 then pure expiresAt
  else do
    let now ← clock
    pure (now + cfg.ttl * minute)

/-- The last part of `RefreshToken`. -/
def consumeAndIssue (v : Verified) (id : Ident) : Prog Res (Except Err Token) :=
  if cfg.blacklistEnabled then do
    let expiresAt ← blacklistExpiry cfg v.expiry
    let consumed : Bool ← perform (Op.add v.claims.id expiresAt)
    if consumed then signAccessToken cfg id
    else do
      let now ← clock
      if v.expiry ≤ now then pure (.error .refreshExpired) else pure (.error .refreshTokenUsed)
  else signAccessToken cfg id

def decideAndIssue (v : Verified) (id : Ident) : Prog Res (Except Err Token) := do
  let current ← checkRefreshGeneration (refreshKey v.claims.userID) v.claims
  if current then do
    let now ← clock
    if v.expiry ≤ now then pure (.error .refreshExpired) else consumeAndIssue cfg v id
  else pure (.error .refreshGenerationStale)

def refreshVerified (v : Verified) : Prog Res (Except Err Token) :=
  if v.claims.tokenType ≠ .refresh then pure (.error .notRefreshToken)
  else do
    let current ← checkRefreshGeneration (refreshKey v.claims.userID) v.claims
    if current then do
      let found : Lookup ← perform (Op.findByID v.claims.userID)
      match found with
      | .failed => pure (.error .userStore)
      | .missing => pure (.error .userNotFound)
      | .unreadable => pure (.error .identifierUnreadable)
      | .user id => decideAndIssue cfg v id
    else pure (.error .refreshGenerationStale)

def refreshToken (token : Token) : Prog Res (Except Err Token) := do
  match ← validateToken cfg token with
  | .error .revoked => pure (.error .refreshTokenUsed)
  | .error e => pure (.error e)
  | .ok v => refreshVerified cfg v

def revokeToken (jti : Bytes) (expiresAt : Option Int) : Prog Res Unit :=
  if cfg.blacklistEnabled then do
    let expiry ← blacklistExpiry cfg (expiresAt.getD 0)
    let _ ← perform (Op.add jti expiry)
    pure ()
  else pure ()

def bumpRefreshGeneration (userID : Bytes) : Prog Res Unit :=
  if userID = [] then pure ()
  else do
    let _ ← perform (Op.bump userID)
    pure ()

def signOutVerified (v : Verified) : Prog Res (Except Err Claims) := do
  revokeToken cfg v.claims.id (some v.expiry)
  bumpRefreshGeneration (signOutKey v.claims.userID)
  pure (.ok v.claims)

/-- `Logout` is this with the token of the request, and `nil` where there are no claims. -/
def signOutToken (token : Token) : Prog Res (Except Err Claims) := do
  match ← verifyToken token with
  | .error e => pure (.error e)
  | .ok v =>
    if v.claims.tokenType = .refresh then do
      let current ← checkRefreshGeneration (signOutKey v.claims.userID) v.claims
      if current then signOutVerified cfg v else pure (.error .refreshGenerationStale)
    else signOutVerified cfg v

def cleanupBlacklist : Prog Res Unit := do
  let _ ← perform Op.cleanup
  pure ()

def revokeAllRefreshTokensForUser (userID : Bytes) : Prog Res Unit :=
  if userID = [] then pure () else bumpRefreshGeneration userID

end Manager

inductive Call
  | generateToken (id : Ident)
  | generateRefreshToken (id : Ident)
  | validateToken (token : Token)
  | refreshToken (token : Token)
  | revokeToken (jti : Bytes) (expiresAt : Option Int)
  | signOutToken (token : Token)
  | isBlacklisted (jti : Bytes)
  | cleanupBlacklist
  | revokeAllRefreshTokensForUser (userID : Bytes)
deriving DecidableEq

inductive Result
  | token (r : Except Err Token)
  | verified (r : Except Err Verified)
  | claims (r : Except Err Claims)
  | listed (b : Bool)
  | done
deriving DecidableEq

def body (cfg : JWTConfig) : Call → Prog Res Result
  | .generateToken id => do pure (.token (← generateToken cfg id))
  | .generateRefreshToken id => do pure (.token (← generateRefreshToken cfg id))
  | .validateToken token => do pure (.verified (← validateToken cfg token))
  | .refreshToken token => do pure (.token (← refreshToken cfg token))
  | .revokeToken jti expiresAt => do
    revokeToken cfg jti expiresAt
    pure .done
  | .signOutToken token => do pure (.claims (← signOutToken cfg token))
  | .isBlacklisted jti => do pure (.listed (← isBlacklisted cfg jti))
  | .cleanupBlacklist => do
    cleanupBlacklist
    pure .done
  | .revokeAllRefreshTokensForUser userID => do
    revokeAllRefreshTokensForUser userID
    pure .done

def system (cfg : JWTConfig) : System Res World Env Call Result where
  body := body cfg
  exec := exec

abbrev Threads := Pool Res World Call Result

def Returned (p : Threads) (i : Nat) (c : Call) (r : Result) : Prop :=
  p.threads[i]? = some ⟨c, some (.ret r)⟩

def outcome (p : Threads) (i : Nat) : Option (Call × Result) :=
  match p.threads[i]? with
  | some ⟨c, some (.ret r)⟩ => some (c, r)
  | _ => none

theorem outcome_eq_some_iff {p : Threads} {i : Nat} {c : Call} {r : Result} :
    outcome p i = some (c, r) ↔ Returned p i c r := by
  unfold outcome Returned
  split
  · rename_i h
    rw [h]
    simp
  · rename_i h
    constructor
    · exact nofun
    · intro hr
      exact absurd hr (h c r)

instance (p : Threads) (i : Nat) (c : Call) (r : Result) : Decidable (Returned p i c r) :=
  decidable_of_iff _ outcome_eq_some_iff

end Auth
