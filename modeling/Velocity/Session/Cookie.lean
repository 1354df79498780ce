import Velocity.Lib.Decimal
import Velocity.Lib.Map

/-! The lifetime policy of sessions, and the cookie store: sessions kept in the browser's cookie, with
a list in memory of the ids that were revoked. Times are nanoseconds since the zero time, which
stands for a time that was never set. -/

namespace Session

open List
open Bytes (ascii)

structure SessionConfig where
  absoluteLifetime : Int
  idleLifetime : Int
  rememberLifetime : Int
deriving DecidableEq

def second : Int := 10 ^ 9

def minute : Int := 60 * second

def hour : Int := 60 * minute

/-- A number of minutes as a duration, which wraps at 64 bits. -/
def minutes (n : Int) : Int := Int.bmod (n * minute) (2 ^ 64)

namespace SessionConfig

variable (c : SessionConfig)

def idleTimeout : Int :=
  if c.idleLifetime ≤ 0 then 0 else minutes c.idleLifetime

def absoluteTimeout : Int :=
  if 0 < c.absoluteLifetime then minutes c.absoluteLifetime
  else if c.absoluteLifetime < 0 then 0
  else 30 * 24 * hour

def expiresAt (createdAt lastActive : Int) : Int :=
  let idleEnd := if 0 < c.idleTimeout then lastActive + c.idleTimeout else 0
  if 0 < c.absoluteTimeout then
    let capAt := createdAt + c.absoluteTimeout
    if idleEnd = 0 ∨ capAt < idleEnd then capAt else idleEnd
  else idleEnd

def recordExpiresAt (createdAt lastActive : Int) : Int :=
  if c.expiresAt createdAt lastActive = 0 then 0 else c.expiresAt createdAt lastActive + minute

def validateLifetimes : Option Bytes :=
  let invalid (detail : Bytes) :=
    some (ascii "velocity/auth: invalid session lifetime: " ++ detail)
  if c.idleLifetime < 0 then
    invalid (ascii "IdleLifetime " ++ Decimal.formatInt c.idleLifetime ++
      ascii " minutes is negative")
  else if 0 < c.absoluteLifetime ∧ c.absoluteLifetime < c.idleLifetime then
    invalid (ascii "AbsoluteLifetime " ++ Decimal.formatInt c.absoluteLifetime ++
      ascii " minutes is shorter than IdleLifetime " ++ Decimal.formatInt c.idleLifetime ++
      ascii " minutes")
  else if c.rememberLifetime < 0 then
    invalid (ascii "RememberLifetime " ++ Decimal.formatInt c.rememberLifetime ++
      ascii " minutes is negative")
  else none

end SessionConfig

def userIDSessionKey : Bytes := ascii "user_id"

/-- A bag of values; the default value stands for nil. -/
abbrev Bag (V : Type) := FMap Bytes V

section

variable {V : Type} {until_ now : Int}

def signedIn [DecidableEq V] [Inhabited V] (data : Bag V) : Bool :=
  match data.lookup userIDSessionKey with
  | none => false
  | some v => v ≠ default

variable (V) in
/-- What a session cookie holds under its encryption. -/
structure Payload where
  id : Bytes
  data : Bag V
  flash : Bag V
  issuedAt : Int
  createdAt : Int

variable (V) in
structure CookieSession where
  id : Bytes
  data : Bag V
  flash : Bag V
  createdAt : Int
  issuedAt : Int
  modified : Bool
  destroyed : Bool

structure CookieStore where
  config : SessionConfig
  revokedTTLs : FMap Bytes Int

namespace CookieStore

def revokedLifetime (c : SessionConfig) : Int :=
  if 0 < c.idleTimeout then c.idleTimeout
  else if 0 < c.absoluteTimeout then c.absoluteTimeout
  else 24 * hour

/-- `Revoke`, which also drops the entries that have aged out. -/
def revoke (s : CookieStore) (id : Bytes) (now : Int) : CookieStore :=
  if id = [] then s
  else
    let entries := s.revokedTTLs.insert id (now + revokedLifetime s.config)
    { s with revokedTTLs := FMap.filter (fun _ expiry => !(expiry < now)) entries }

def isRevoked (s : CookieStore) (id : Bytes) (now : Int) : Bool :=
  if id = [] then false
  else
    match s.revokedTTLs.lookup id with
    | none => false
    | some expiry => now < expiry

def expired (c : SessionConfig) (createdAt issuedAt now : Int) : Bool :=
  (0 < c.idleTimeout ∧ issuedAt ≠ 0 ∧ issuedAt + c.idleTimeout < now) ∨
    (0 < c.absoluteTimeout ∧ createdAt ≠ 0 ∧ createdAt + c.absoluteTimeout < now)

variable (V) in
inductive Loaded
  /-- A fresh session with an id of its own. -/
  | fresh (authenticationExpired : Bool)
  | session (s : CookieSession V)

def createdAt (p : Payload V) : Int := if p.createdAt = 0 then p.issuedAt else p.createdAt

/-- No cookie is one that is missing or does not decode. The clock is read twice. -/
def get [DecidableEq V] [Inhabited V] (s : CookieStore) (cookie : Option (Payload V))
    (now later : Int) : Loaded V :=
  match cookie with
  | none => .fresh false
  | some p =>
    if s.isRevoked p.id now then .fresh false
    else if expired s.config (createdAt p) p.issuedAt later then .fresh (signedIn p.data)
    else .session ⟨p.id, p.data, p.flash, createdAt p, p.issuedAt, p.id = [], false⟩

variable (V) in
inductive Saved
  | deleted
  | unchanged
  | tooLarge
  /-- The cookie's Max-Age and Expires are there with an idle timeout only. -/
  | issued (p : Payload V) (maxAge : Option (Int × Int))

def roundSeconds (d : Int) : Int := (d + second / 2) / second

def save (s : CookieStore) (size : Payload V → Option (Int × Int) → Nat) (ss : CookieSession V)
    (now : Int) : Saved V × CookieSession V :=
  if ss.destroyed then (.deleted, ss)
  else if !ss.modified then (.unchanged, ss)
  else
    let createdAt := if ss.createdAt = 0 then now else ss.createdAt
    let p : Payload V := ⟨ss.id, ss.data, ss.flash, now, createdAt⟩
    let end_ := s.config.expiresAt createdAt now
    let maxAge :=
      if 0 < s.config.idleTimeout then some (max 1 (roundSeconds (end_ - now)), end_) else none
    if 4096 < size p maxAge then (.tooLarge, ss)
    else (.issued p maxAge, { ss with createdAt := createdAt, issuedAt := now, modified := false })

end CookieStore

/-! The runs of one process: calls one after another, each with the clock readings it makes. -/

variable (V) in
inductive CookieCall
  | get (cookie : Option (Payload V)) (now later : Int)
  | save (session : CookieSession V) (now : Int)
  | revoke (id : Bytes) (now : Int)

namespace CookieCall

def readings : CookieCall V → List Int
  | .get _ now later => [now, later]
  | .save _ now => [now]
  | .revoke _ now => [now]

/-- Only a revocation changes the store. -/
def after (s : CookieStore) : CookieCall V → CookieStore
  | .revoke id now => s.revoke id now
  | _ => s

end CookieCall

def Clocked (calls : List (CookieCall V)) : Prop :=
  (calls.flatMap CookieCall.readings).Pairwise (· ≤ ·)

def cookieRun (s : CookieStore) (calls : List (CookieCall V)) : CookieStore :=
  calls.foldl CookieCall.after s

theorem CookieStore.revokedLifetime_pos (c : SessionConfig) : 0 < revokedLifetime c := by
  unfold revokedLifetime
  split
  case isTrue h => exact h
  case isFalse =>
    split
    case isTrue h => exact h
    case isFalse => decide

variable {id : Bytes} (s : CookieStore)

theorem CookieStore.lookup_revoke (hid : id ≠ []) (now : Int) (k : Bytes) :
    (s.revoke id now).revokedTTLs.lookup k =
      (if k = id then some (now + revokedLifetime s.config) else s.revokedTTLs.lookup k).filter
        fun expiry => !(expiry < now) := by
  rw [revoke, if_neg hid]
  simp only [FMap.lookup_filter, FMap.lookup_insert_ite]

open CookieStore

theorem CookieCall.config_after (call : CookieCall V) : (call.after s).config = s.config := by
  cases call with
  | get cookie now later => rfl
  | save session now => rfl
  | revoke id now =>
    simp only [after, CookieStore.revoke]
    split <;> rfl

theorem config_cookieRun (calls : List (CookieCall V)) : (cookieRun s calls).config = s.config := by
  induction calls generalizing s with
  | nil => rfl
  | cons call calls ih =>
    show (cookieRun (call.after s) calls).config = s.config
    rw [ih, CookieCall.config_after]

def Remembered (s : CookieStore) (id : Bytes) (until_ now : Int) : Prop :=
  (∃ expiry, s.revokedTTLs.lookup id = some expiry ∧ until_ ≤ expiry) ∨ until_ < now

theorem remembered_revoke (hid : id ≠ []) (now : Int) :
    Remembered (s.revoke id now) id (now + revokedLifetime s.config) now := by
  have hpos := revokedLifetime_pos s.config
  left
  rw [lookup_revoke s hid]
  simp
  omega

attribute [local simp] CookieCall.readings

theorem remembered_after {s : CookieStore} (call : CookieCall V)
    (hreadings : ∀ t ∈ call.readings, now ≤ t) (huntil : until_ ≤ now + revokedLifetime s.config)
    (h : Remembered s id until_ now) : ∀ later, (∀ t ∈ call.readings, t ≤ later) → now ≤ later →
      Remembered (call.after s) id until_ later := by
  intro later hlater hle
  rcases h with ⟨expiry, hentry, hexpiry⟩ | hpassed
  · cases call with
    | revoke id' t =>
      have hnow : now ≤ t := hreadings t (by simp)
      have ht : t ≤ later := hlater t (by simp)
      simp only [CookieCall.after]
      by_cases hid : id' = []
      · rw [revoke, if_pos hid]
        exact .inl ⟨expiry, hentry, hexpiry⟩
      by_cases hsame : id = id'
      · subst hsame
        have hpos := revokedLifetime_pos s.config
        left
        rw [lookup_revoke s hid]
        simp
        omega
      · by_cases hold : expiry < t
        · right
          omega
        · left
          refine ⟨expiry, ?_, hexpiry⟩
          rw [lookup_revoke s hid, if_neg hsame, hentry]
          simp [hold]
    | _ => exact .inl ⟨expiry, hentry, hexpiry⟩
  · right
    omega

theorem remembered_run {s : CookieStore} {later : Int} (calls : List (CookieCall V))
    (hclock : (now :: calls.flatMap CookieCall.readings ++ [later]).Pairwise (· ≤ ·))
    (huntil : until_ ≤ now + revokedLifetime s.config)
    (h : Remembered s id until_ now) : Remembered (cookieRun s calls) id until_ later := by
  induction calls generalizing s now with
  | nil =>
    have hle : now ≤ later := by simpa using hclock
    rcases h with hentry | hpassed
    · exact .inl hentry
    · exact .inr (by omega)
  | cons call calls ih =>
    rw [flatMap_cons, cons_append, append_assoc, pairwise_cons, pairwise_append] at hclock
    obtain ⟨hnow, hcall, hrest, hacross⟩ := hclock
    have hreadings : ∀ t ∈ call.readings, now ≤ t := fun t ht => hnow t (mem_append_left _ ht)
    -- The last reading of the call, or the one before it where it makes none.
    obtain ⟨last, hlast, hle, hbefore⟩ : ∃ last, (∀ t ∈ call.readings, t ≤ last) ∧ now ≤ last ∧
        ∀ t ∈ calls.flatMap CookieCall.readings ++ [later], last ≤ t := by
      cases call with
      | get cookie t t' =>
        have htt : t ≤ t' := by simpa using hcall
        have hnt := hreadings t' (by simp)
        refine ⟨t', ?_, hnt, fun x hx => hacross t' (by simp) x hx⟩
        intro x hx
        simp only [CookieCall.readings, mem_cons, not_mem_nil, or_false] at hx
        omega
      | save session t | revoke id' t =>
        have hnt := hreadings t (by simp)
        refine ⟨t, ?_, hnt, fun x hx => hacross t (by simp) x hx⟩
        intro x hx
        simp only [CookieCall.readings, mem_singleton] at hx
        omega
    have hstep := remembered_after call hreadings huntil h last hlast hle
    refine ih ?_ ?_ hstep
    · rw [cons_append, pairwise_cons]
      exact ⟨hbefore, hrest⟩
    · rw [CookieCall.config_after]
      omega

def SessionConfig.Bounded (c : SessionConfig) : Prop := 0 < c.idleTimeout ∨ 0 < c.absoluteTimeout

def Payload.IssuedBefore (p : Payload V) (t : Int) : Prop :=
  p.issuedAt ≠ 0 ∧ p.issuedAt < t ∧ CookieStore.createdAt p < t

theorem expired_of_until_le {c : SessionConfig} (hbounded : c.Bounded) {p : Payload V} {t : Int}
    (hissued : p.IssuedBefore now) (ht : now + revokedLifetime c ≤ t) :
    expired c (createdAt p) p.issuedAt t = true := by
  obtain ⟨hne, hlt, hcreated⟩ := hissued
  have hcne : createdAt p ≠ 0 := by
    unfold createdAt
    split
    · exact hne
    · assumption
  rw [expired, decide_eq_true_eq]
  unfold revokedLifetime at ht
  by_cases hidle : 0 < c.idleTimeout
  · rw [if_pos hidle] at ht
    left
    exact ⟨hidle, hne, by omega⟩
  · have habs : 0 < c.absoluteTimeout := hbounded.resolve_left hidle
    right
    exact ⟨habs, hcne, by omega⟩

/-- No cookie of the id loads for the length of the idle timeout, of the cap where there is none, or
of a day; afterwards none that was issued before, where the policy bounds sessions. -/
theorem revoked_cookie_stays_dead [DecidableEq V] [Inhabited V] (c : SessionConfig)
    (calls between : List (CookieCall V)) (id : Bytes) (revokedAt now later : Int) (p : Payload V)
    (hid : id ≠ []) (hp : p.id = id)
    (hclock : Clocked (calls ++ .revoke id revokedAt :: between ++ [.get (some p) now later]))
    (hpolicy : now < revokedAt + (if 0 < c.idleTimeout then c.idleTimeout
        else if 0 < c.absoluteTimeout then c.absoluteTimeout else 24 * hour) ∨
      c.Bounded ∧ p.IssuedBefore revokedAt) :
    ∃ authenticationExpired,
      (cookieRun ⟨c, ∅⟩ (calls ++ .revoke id revokedAt :: between)).get (some p) now later =
        .fresh authenticationExpired := by
  have hreadings : (calls ++ CookieCall.revoke id revokedAt :: between ++
      [CookieCall.get (some p) now later]).flatMap CookieCall.readings =
        calls.flatMap CookieCall.readings ++
          (revokedAt :: between.flatMap CookieCall.readings ++ [now] ++ [later]) := by
    simp
  rw [Clocked, hreadings] at hclock
  have hsince := (pairwise_append.mp hclock).2.1
  obtain ⟨hclock', -, hle⟩ := pairwise_append.mp hsince
  have hlater : now ≤ later := hle now (by simp) later (by simp)
  have hrun : cookieRun ⟨c, ∅⟩ (calls ++ .revoke id revokedAt :: between) =
      cookieRun ((cookieRun ⟨c, ∅⟩ calls).revoke id revokedAt) between := by
    simp [cookieRun, CookieCall.after]
  have hconfig : (cookieRun ⟨c, ∅⟩ calls).config = c := config_cookieRun _ _
  have hstart := remembered_revoke (cookieRun ⟨c, ∅⟩ calls) hid revokedAt
  have hkept := remembered_run between hclock' ?_ hstart
  · rw [hrun]
    have hend : ((cookieRun ⟨c, ∅⟩ calls).revoke id revokedAt).config = c := by
      have hh := CookieCall.config_after (cookieRun ⟨c, ∅⟩ calls)
        (CookieCall.revoke (V := V) id revokedAt)
      exact hh.trans hconfig
    have hconfig' := config_cookieRun ((cookieRun ⟨c, ∅⟩ calls).revoke id revokedAt) between
    rw [hend] at hconfig'
    rw [hconfig] at hkept
    by_cases hearly : now < revokedAt + CookieStore.revokedLifetime c
    · -- The revocation is still remembered.
      have hrevoked : (cookieRun ((cookieRun ⟨c, ∅⟩ calls).revoke id revokedAt) between).isRevoked
          p.id now = true := by
        rcases hkept with ⟨expiry, hentry, hexpiry⟩ | hpassed
        · rw [CookieStore.isRevoked, hp, if_neg hid, hentry]
          simp only [decide_eq_true_eq]
          omega
        · omega
      exact ⟨false, by simp only [CookieStore.get, hrevoked, if_true]⟩
    · obtain ⟨hbounded, hissued⟩ := hpolicy.resolve_left hearly
      have hexpired := expired_of_until_le hbounded hissued (t := later) (by omega)
      rw [CookieStore.get, hconfig']
      split
      · exact ⟨_, rfl⟩
      · exact ⟨_, rfl⟩
  · rw [← CookieCall.config_after (V := V) (cookieRun ⟨c, ∅⟩ calls) (.revoke id revokedAt)]
    exact le_rfl

def oldCookie : Payload Bool :=
  ⟨ascii "s", (∅ : Bag Bool).insert userIDSessionKey true, ∅, 2, 1⟩

def revocationRun : List (CookieCall Bool) :=
  [.revoke (ascii "s") 5, .save ⟨ascii "t", ∅, ∅, 0, 0, true, false⟩ 6]

theorem oldCookie_stays_dead :
    ∃ authenticationExpired, (cookieRun ⟨⟨0, 120, 0⟩, ∅⟩ revocationRun).get (some oldCookie)
      (200 * hour) (200 * hour) = .fresh authenticationExpired := by
  refine revoked_cookie_stays_dead ⟨0, 120, 0⟩ [] (revocationRun.drop 1)
    (Bytes.ascii "s") 5 (200 * hour) (200 * hour) oldCookie (by decide) rfl ?_ ?_
  · simp [Clocked, revocationRun, hour, minute, second]
  · exact .inr ⟨.inl (by decide), by decide, by decide, by decide⟩

/-- Under a policy with no idle timeout and no cap, the cookie is good again a day later. -/
theorem revoked_cookie_returns_after_a_day :
    (⟨-1, 0, 0⟩ : SessionConfig).validateLifetimes = none ∧
      Clocked (revocationRun ++ [.get (some oldCookie) (5 + 24 * hour) (5 + 24 * hour)]) ∧
      (cookieRun ⟨⟨-1, 0, 0⟩, ∅⟩ revocationRun).get (some oldCookie) (5 + 24 * hour) (5 + 24 * hour) =
        .session ⟨Bytes.ascii "s", oldCookie.data, ∅, 1, 2, false, false⟩ := by
  refine ⟨by decide, ?_, rfl⟩
  simp [Clocked, revocationRun, hour, minute, second]

end

end Session
