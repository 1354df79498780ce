import Velocity.ClientIP.Extract
import Velocity.Lib.Map

/-! The guards of the HTTP client: which addresses its connections may go to, and which headers of the
first request a redirect takes along. -/

namespace HttpClient

open FMap Bytes

open ClientIP (splitHost)

variable {IP : Type}

structure URL where
  scheme : Bytes
  host : Bytes
  /-- The host without its port and brackets. -/
  hostname : Bytes

/-- What the client uses of Go's net, net/http and strings packages and of the public suffix list. -/
structure Net (IP : Type) where
  toLower : Bytes → Bytes
  parseIP : Bytes → Option IP
  string : IP → Bytes
  effectiveTLDPlusOne : Bytes → Option Bytes
  isPrivateOrInternal : IP → Bool
  shouldCopyHeaderOnRedirect : URL → URL → Bool

/-- `ETLDPlusOne`, the registrable domain of a host. -/
def Net.etldPlusOne (net : Net IP) (host : Bytes) : Bytes :=
  let host := net.toLower host
  let host :=
    if host.head? = some (Byte.of '[') then
      if Byte.of ']' ∈ host then ((host.rdropWhile (· ≠ Byte.of ']')).dropLast).drop 1 else host
    else match splitHost host with
      | some h => h
      | none => if host.count (Byte.of ':') = 1 then host.takeWhile (· ≠ Byte.of ':') else host
  match net.parseIP host with
  | some ip => net.string ip
  | none => (net.effectiveTLDPlusOne host).getD host

/-- A client of `New` with the default transport. -/
structure Client where
  maxRedirects : Int
  denyPrivateIPs : Bool
  proxyAllowed : Bool
  allowedHosts : List Bytes

inductive Err (IP : Type)
  | useLastResponse
  | stopped (redirects : Nat)
  | privateIP (host : Bytes) (resolved : Option IP)
  | resolve (host cause : Bytes)
  | noAddresses (host : Bytes)
  | splitHostPort

abbrev Answer (IP : Type) := Except Bytes (List IP)

structure Request where
  url : URL
  header : FMap Bytes (List Bytes)

def sensitiveHeaders : List Bytes :=
  [ascii "Authorization", ascii "Cookie", ascii "Proxy-Authorization"]

abbrev Spells (key name : Bytes) : Prop := key.map ClientIP.toLower = name.map ClientIP.toLower

/-- What net/http copies of the first request's headers to a hop. -/
def copyHeaders (stripSensitiveHeaders : Bool) (header : FMap Bytes (List Bytes)) :
    FMap Bytes (List Bytes) :=
  header.filter fun key _ => !(stripSensitiveHeaders &&
    (sensitiveHeaders ++ [ascii "Www-Authenticate", ascii "Cookie2", ascii "Proxy-Authenticate"]).any
      (Spells key ·))

/-- net/http takes the sensitive headers along to the host itself and to its subdomains. -/
def Net.copies (net : Net IP) (first hop : URL) : Bool :=
  first.host = hop.host || net.shouldCopyHeaderOnRedirect first hop

def sameRedirectOrigin (net : Net IP) (a b : URL) : Bool :=
  if a.scheme = ascii "https" ∧ b.scheme ≠ ascii "https" then false
  else net.etldPlusOne a.host = net.etldPlusOne b.host

/-- What the dialer gets: the host, or an IP in its place. -/
inductive Target (IP : Type)
  | host (name : Bytes)
  | pinned (ip : IP)

/-- An IP literal is taken as it is, any other host looked up. -/
def Target.Reaches (net : Net IP) : Target IP → IP → Prop
  | .host name, dst => ∀ ip, net.parseIP name = some ip → dst = ip
  | .pinned ip, dst => dst = ip

namespace Client

variable (c : Client) (net : Net IP) (answer : Answer IP)

/-- The transport of `New` has no proxy hook and dials the hosts itself. -/
def directDial : Bool := c.denyPrivateIPs && !c.proxyAllowed

abbrev Allows (host : Bytes) : Prop := net.toLower (net.etldPlusOne host) ∈ c.allowedHosts

/-- The address to pin, if there is one. -/
def evaluateHost (host : Bytes) (resolve : Bool) : Except (Err IP) (Option IP) :=
  if !c.denyPrivateIPs then .ok none
  else if c.Allows net host then .ok none
  else match net.parseIP host with
    | some ip => if net.isPrivateOrInternal ip then .error (.privateIP host none) else .ok none
    | none =>
      if !resolve then .ok none
      else match answer with
        | .error cause => .error (.resolve host cause)
        | .ok [] => .error (.noAddresses host)
        | .ok (ip :: ips) =>
          match (ip :: ips).find? net.isPrivateOrInternal with
          | some refused => .error (.privateIP host (some refused))
          | none => .ok (some ip)

def dialContextGuarded (addr : Bytes) : Except (Err IP) (Target IP) :=
  match splitHost addr with
  | none => .error .splitHostPort
  | some host => (c.evaluateHost net answer host true).map fun pin => pin.elim (.host host) .pinned

def assertURLAllowed (u : URL) : Except (Err IP) Unit :=
  if !c.denyPrivateIPs ∨ u.hostname = [] then .ok ()
  else (c.evaluateHost net answer u.hostname !c.directDial).map fun _ => ()

def checkRedirect (req : Request) (via : List Request) : Except (Err IP) Request :=
  if c.maxRedirects ≤ 0 then .error .useLastResponse
  else if c.maxRedirects ≤ via.length then .error (.stopped via.length)
  else match c.assertURLAllowed net answer req.url with
    | .error e => .error e
    | .ok () =>
      match via.head? with
      | none => .ok req
      | some first =>
        if sameRedirectOrigin net first.url req.url then .ok req
        else .ok { req with header := eraseAll sensitiveHeaders req.header }

/-- The requests of a chain of redirects, each with the lookup of its host. A hop that loses the
sensitive headers loses them for the hops after it too. -/
def follow (first : Request) (via : List Request) (stripSensitiveHeaders : Bool) :
    List (URL × Answer IP) → List Request
  | [] => []
  | (u, answer) :: hops =>
    let strip := stripSensitiveHeaders || !net.copies first.url u
    match c.checkRedirect net answer ⟨u, copyHeaders strip first.header⟩ via with
    | .error _ => []
    | .ok req => req :: follow first (via ++ [req]) strip hops

def doRequest (req : Request) (hops : List (URL × Answer IP)) : List Request :=
  match c.assertURLAllowed net answer req.url with
  | .error _ => []
  | .ok () => req :: c.follow net req [req] false hops

def Admits (u : URL) : Prop := ∃ answer, c.assertURLAllowed net answer u = .ok ()

end Client

/-- The hop keeps the registrable domain and is no downgrade to http. -/
def Permits (net : Net IP) (first hop : URL) : Prop :=
  net.etldPlusOne hop.host = net.etldPlusOne first.host ∧
    ¬(first.scheme = ascii "https" ∧ hop.scheme = ascii "http")

structure Guarded (net : Net IP) (c : Client) (req : Request) : Prop where
  dials : ∀ answer addr target ip, c.dialContextGuarded net answer addr = .ok target →
    target.Reaches net ip → net.isPrivateOrInternal ip = true →
      ∃ host, splitHost addr = some host ∧ c.Allows net host
  credentials : ∀ answer hops, ∀ sent ∈ c.doRequest net answer req hops, ∀ key,
    ∀ name ∈ sensitiveHeaders, Spells key name → items sent.header key ≠ [] →
      Permits net req.url sent.url

/-- Sensitive headers are stored under canonical keys only. -/
def Canonical (header : FMap Bytes (List Bytes)) : Prop :=
  ∀ key, ∀ name ∈ sensitiveHeaders, Spells key name → items header key ≠ [] → key = name

section

variable {net : Net IP} {c : Client} {answer : Answer IP}

theorem evaluateHost_cases {host : Bytes} {pin : Option IP} (hdeny : c.denyPrivateIPs = true)
    (h : c.evaluateHost net answer host true = .ok pin) :
    c.Allows net host ∨ (∃ ip, pin = some ip ∧ net.isPrivateOrInternal ip = false) ∨
      pin = none ∧ ∃ ip, net.parseIP host = some ip ∧ net.isPrivateOrInternal ip = false := by
  unfold Client.evaluateHost at h
  grind

theorem dials_allowed {addr : Bytes} {target : Target IP} {ip : IP} (hdeny : c.denyPrivateIPs = true)
    (h : c.dialContextGuarded net answer addr = .ok target) (hreach : target.Reaches net ip)
    (hprivate : net.isPrivateOrInternal ip = true) :
    ∃ host, splitHost addr = some host ∧ c.Allows net host := by
  unfold Client.dialContextGuarded at h
  cases hhost : splitHost addr with
  | none => simp [hhost] at h
  | some host =>
    simp only [hhost] at h
    cases heval : c.evaluateHost net answer host true with
    | error e => simp [heval, Except.map] at h
    | ok pin =>
      obtain rfl : pin.elim (.host host) .pinned = target := by simpa [heval, Except.map] using h
      rcases evaluateHost_cases hdeny heval with hallow | ⟨_, rfl, hpublic⟩ | ⟨rfl, _, hip, hpublic⟩
      · exact ⟨host, rfl, hallow⟩
      · rw [show ip = _ from hreach, hpublic] at hprivate
        cases hprivate
      · rw [hreach _ hip, hpublic] at hprivate
        cases hprivate

theorem permits_of_same {a b : URL} (h : sameRedirectOrigin net a b = true) : Permits net a b := by
  unfold sameRedirectOrigin at h
  split at h
  · cases h
  · rename_i hscheme
    refine ⟨(of_decide_eq_true h).symm, ?_⟩
    rintro ⟨ha, hb⟩
    exact hscheme ⟨ha, by rw [hb]; decide⟩

theorem checkRedirect_ok {first req sent : Request} {via : List Request}
    (hfirst : via.head? = some first) (h : c.checkRedirect net answer req via = .ok sent) :
    via.length < c.maxRedirects ∧ c.assertURLAllowed net answer req.url = .ok () ∧
      sent = if sameRedirectOrigin net first.url req.url then req
        else { req with header := eraseAll sensitiveHeaders req.header } := by
  unfold Client.checkRedirect at h
  split at h
  · cases h
  · split at h
    · cases h
    · rename_i hlen
      split at h
      · cases h
      · rename_i hgate
        simp only [hfirst] at h
        refine ⟨by omega, hgate, ?_⟩
        split at h
        case isTrue hsame => rw [if_pos hsame, Except.ok.inj h]
        case isFalse hcross => rw [if_neg hcross, Except.ok.inj h]

theorem follow_sent {first sent : Request} {via : List Request} {strip : Bool}
    {hops : List (URL × Answer IP)} (hfirst : via.head? = some first)
    (h : sent ∈ c.follow net first via strip hops) :
    1 < c.maxRedirects ∧ c.Admits net sent.url ∧ (sameRedirectOrigin net first.url sent.url = true ∨
      ∃ strip, (strip = false → net.copies first.url sent.url = true) ∧
        sent.header = eraseAll sensitiveHeaders (copyHeaders strip first.header)) := by
  induction hops generalizing via strip with
  | nil => cases h
  | cons hop hops ih =>
    unfold Client.follow at h
    dsimp only at h
    split at h
    case h_1 => cases h
    case h_2 req hreq =>
      rcases List.mem_cons.mp h with rfl | h
      · have hone : 0 < via.length := List.length_pos_of_mem (List.mem_of_mem_head? hfirst)
        obtain ⟨hlen, hgate, hsent⟩ := checkRedirect_ok hfirst hreq
        refine ⟨by omega, ?_⟩
        split at hsent
        case isTrue hsame =>
          subst hsent
          exact ⟨⟨_, hgate⟩, .inl hsame⟩
        case isFalse =>
          subst hsent
          exact ⟨⟨_, hgate⟩, .inr ⟨_, fun hstrip => by simp_all, rfl⟩⟩
      · exact ih (by simp [hfirst]) h

theorem items_eraseAll (keys : List Bytes) (header : FMap Bytes (List Bytes)) (key : Bytes) :
    items (eraseAll keys header) key = if key ∈ keys then [] else items header key := by
  rw [items, lookup_eraseAll]
  split <;> rfl

theorem items_copyHeaders_false (header : FMap Bytes (List Bytes)) (key : Bytes) :
    items (copyHeaders false header) key = items header key := by
  rw [items, copyHeaders, lookup_filter]
  cases h : header.lookup key with
  | none => simp [items, h]
  | some values => simp [items, h, Option.filter]

theorem items_copyHeaders_true {header : FMap Bytes (List Bytes)} {key name : Bytes}
    (h : name ∈ sensitiveHeaders) (hspells : Spells key name) :
    items (copyHeaders true header) key = [] := by
  have hany : sensitiveHeaders.any (Spells key ·) = true :=
    List.any_eq_true.mpr ⟨name, h, decide_eq_true hspells⟩
  simp [items, copyHeaders, lookup_filter, hany]

theorem eq_of_spells {name name' : Bytes} (h : name ∈ sensitiveHeaders)
    (h' : name' ∈ sensitiveHeaders) (hspells : Spells name name') : name = name' := by
  have hall : ∀ a ∈ sensitiveHeaders, ∀ b ∈ sensitiveHeaders,
      a.map ClientIP.toLower = b.map ClientIP.toLower → a = b := by decide +kernel
  exact hall name h name' h' hspells

/-- Exactly if it follows no redirect, its gate lets no hop pass to which net/http copies the
credentials and that is not permitted, or the credentials stand under canonical keys. -/
theorem guarded_iff (net : Net IP) (c : Client) (req : Request) (hdeny : c.denyPrivateIPs = true) :
    Guarded net c req ↔ c.maxRedirects ≤ 1 ∨ ¬c.Admits net req.url ∨
      (∀ u, c.Admits net u → net.copies req.url u = true → Permits net req.url u) ∨
        Canonical req.header := by
  constructor
  · intro hguarded
    by_contra hnot
    simp only [not_or, not_not, not_le, not_forall] at hnot
    obtain ⟨hmax, ⟨answer, hfirst⟩, ⟨u, ⟨answer', hu⟩, hcopies, hnot⟩, hkey⟩ := hnot
    apply hkey
    intro key name hname hspells hvalues
    by_contra hne
    have hcross : sameRedirectOrigin net req.url u = false := by
      by_contra hsame
      exact hnot (permits_of_same (by simpa using hsame))
    have hmem : ⟨u, eraseAll sensitiveHeaders (copyHeaders false req.header)⟩ ∈
        c.doRequest net answer req [(u, answer')] := by
      have hlow : ¬c.maxRedirects ≤ 0 := by omega
      have hone : ¬c.maxRedirects ≤ 1 := by omega
      simp [Client.doRequest, hfirst, Client.follow, Client.checkRedirect, hlow, hone, hu, hcross,
        hcopies]
    refine hnot (hguarded.credentials answer _ _ hmem key name hname hspells ?_)
    rw [items_eraseAll, if_neg, items_copyHeaders_false]
    · exact hvalues
    · exact fun hsensitive => hne (eq_of_spells hsensitive hname hspells)
  · intro hcond
    refine ⟨fun answer addr target ip => dials_allowed hdeny, ?_⟩
    intro answer hops sent hsent key name hname hspells hvalues
    unfold Client.doRequest at hsent
    split at hsent
    case h_1 => cases hsent
    case h_2 hgate =>
    rcases List.mem_cons.mp hsent with rfl | hsent
    · exact permits_of_same (by simp [sameRedirectOrigin])
    obtain ⟨hmax, hpassed, hsame | ⟨strip, hcopies, herased⟩⟩ := follow_sent rfl hsent
    · exact permits_of_same hsame
    rw [herased, items_eraseAll] at hvalues
    split at hvalues
    case isTrue => exact absurd rfl hvalues
    case isFalse hkept =>
    cases strip with
    | true => exact absurd (items_copyHeaders_true hname hspells) hvalues
    | false =>
      rw [items_copyHeaders_false] at hvalues
      rcases hcond with hlow | hrefused | hpermits | hcanonical
      · omega
      · exact absurd ⟨answer, hgate⟩ hrefused
      · exact hpermits _ hpassed (hcopies rfl)
      · exact absurd (hcanonical key name hname hspells hvalues ▸ hname) hkept

theorem follow_bounded {first : Request} {via : List Request} {strip : Bool}
    {hops : List (URL × Answer IP)} (hfirst : via.head? = some first) :
    via.length + (c.follow net first via strip hops).length ≤
        max (via.length : Int) c.maxRedirects ∧
      ∃ n, List.Forall₂ (fun sent hop => sent.url = hop.1 ∧
        c.assertURLAllowed net hop.2 hop.1 = .ok ()) (c.follow net first via strip hops)
          (hops.take n) := by
  induction hops generalizing via strip with
  | nil => exact ⟨by simp [Client.follow], 0, .nil⟩
  | cons hop hops ih =>
    unfold Client.follow
    dsimp only
    split
    case h_1 => exact ⟨by simp, 0, .nil⟩
    case h_2 req hreq =>
      obtain ⟨hlen, hgate, hsent⟩ := checkRedirect_ok hfirst hreq
      obtain ⟨hrest, n, hhops⟩ := @ih (via ++ [req]) _ (by simp [hfirst])
      have hurl : req.url = hop.1 := by
        rw [hsent]
        split <;> rfl
      refine ⟨?_, n + 1, .cons ⟨hurl, hgate⟩ hhops⟩
      simp only [List.length_append, List.length_cons, List.length_nil] at hrest ⊢
      omega

/-- However the servers redirect, a call sends at most `maxRedirects` requests, or one, each to the
URL of its hop and only if the gate lets that URL pass with the hop's own lookup. -/
theorem chain_bounded (net : Net IP) (c : Client) (answer : Answer IP) (req : Request)
    (hops : List (URL × Answer IP)) :
    (c.doRequest net answer req hops).length ≤ max 1 c.maxRedirects ∧
      ∃ n, List.Forall₂ (fun sent hop => sent.url = hop.1 ∧
        c.assertURLAllowed net hop.2 hop.1 = .ok ()) (c.doRequest net answer req hops)
          (((req.url, answer) :: hops).take n) := by
  obtain ⟨hlen, n, hhops⟩ := @follow_bounded IP net c req [req] false hops rfl
  unfold Client.doRequest
  split
  case h_1 => exact ⟨by simp, 0, .nil⟩
  case h_2 hgate =>
    refine ⟨?_, n + 1, .cons ⟨rfl, hgate⟩ hhops⟩
    simp only [List.length_cons, List.length_nil] at hlen ⊢
    omega

end

def defaults : Client := ⟨10, true, false, []⟩

/-- Hosts without IP literals. -/
def plainNet : Net Bytes :=
  ⟨(·.map ClientIP.toLower), fun _ => none, id, some, fun _ => false, fun _ _ => false⟩

def bearer (key : String) : Request :=
  ⟨⟨ascii "https", ascii "a.com", ascii "a.com"⟩,
    (∅ : FMap Bytes (List Bytes)).insert (ascii key) [ascii "Bearer t"]⟩

theorem guarded_canonical : Guarded plainNet defaults (bearer "Authorization") := by
  refine (guarded_iff plainNet defaults (bearer "Authorization") rfl).mpr (.inr (.inr (.inr ?_)))
  intro key name hname hspells hvalues
  rw [bearer, items_insert] at hvalues
  split at hvalues
  case isTrue hkey =>
    subst hkey
    exact eq_of_spells (by decide) hname hspells
  case isFalse => exact absurd rfl hvalues

/-- A token under a lower-case key goes along to the same host over plain http. -/
theorem lower_case_key_leaks :
    (defaults.doRequest plainNet (.ok []) (bearer "authorization")
        [(⟨ascii "http", ascii "a.com", ascii "a.com"⟩, .ok [])]).map
          (fun sent => (sent.url.scheme, items sent.header (ascii "authorization"))) =
        [(ascii "https", [ascii "Bearer t"]), (ascii "http", [ascii "Bearer t"])] ∧
      Spells (ascii "authorization") (ascii "Authorization") := by
  constructor
  · decide +kernel
  · decide +kernel

end HttpClient
