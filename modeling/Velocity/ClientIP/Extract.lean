import Velocity.Lib.Decimal
import Velocity.Lib.Space

/-! The address of the client behind trusted proxies, from the connection and the forwarding
headers. -/

namespace ClientIP

open List Bytes Byte Space

/-- IP literals and networks: Go's net package. -/
structure Net (IP N : Type) where
  parseIP : Bytes → Option IP
  contains : N → IP → Bool

structure Header where
  forwarded : List Bytes
  xForwardedFor : List Bytes
  xRealIP : List Bytes

structure Request where
  remoteAddr : Bytes
  header : Header

/-- `Header.Get`: the first line of a field, empty if there is none. -/
def firstLine (lines : List Bytes) : Bytes := lines.headD []

def trimSet (cs s : Bytes) : Bytes := (s.dropWhile (· ∈ cs)).rdropWhile (· ∈ cs)

/-- The host of `net.SplitHostPort`, none for its errors. -/
def splitHost (s : Bytes) : Option Bytes :=
  if Byte.of ':' ∈ s then
    let port := s.reverse.takeWhile (· ≠ Byte.of ':')
    let i := s.length - port.length - 1
    if s.head? = some (Byte.of '[') then
      let stop := s.idxOf (Byte.of ']')
      if stop < s.length ∧ stop + 1 = i ∧ Byte.of '[' ∉ s.drop 1 ∧ Byte.of ']' ∉ s.drop (stop + 1) then
        some ((s.take stop).drop 1)
      else none
    else
      let host := s.take i
      if Byte.of ':' ∉ host ∧ Byte.of '[' ∉ s ∧ Byte.of ']' ∉ s then some host else none
  else none

def toLower (b : Byte) : Byte :=
  if Byte.of 'A' ≤ b ∧ b ≤ Byte.of 'Z' then Fin.ofNat 256 (b.val + 32) else b

section

variable {IP N : Type} (net : Net IP N)

def parseRemoteIP (addr : Bytes) : Option IP :=
  if addr = [] then none
  else
    let host := (splitHost addr).getD (trimSet (ascii "[]") addr)
    net.parseIP (Space.trim host)

/-- Networks may be nil. -/
def ipInNets (ip : IP) (nets : List (Option N)) : Bool :=
  nets.any fun n =>
    match n with
    | none => false
    | some n => net.contains n ip

def parseEntry (part : Bytes) : Option IP := net.parseIP (Space.trim part)

def untrusted (nets : List (Option N)) (ip : IP) : Bool := !ipInNets net ip nets

def resolveXFF (xff : Bytes) (nets : List (Option N)) : Option IP :=
  let parts := Bytes.split (Byte.of ',') xff
  (parts.reverse.findSome? fun part => (parseEntry net part).filter (untrusted net nets)).or
    (parts.findSome? (parseEntry net))

/-- The value of `for=`: a bracketed, a host and port, or a plain address. -/
def forwardedValue (raw : Bytes) : Option IP :=
  let raw := trimSet (ascii "\"") raw
  if raw.head? = some (Byte.of '[') ∧ Byte.of ']' ∈ raw then
    net.parseIP ((raw.take (raw.idxOf (Byte.of ']'))).drop 1)
  else
    match splitHost raw with
    | some host => net.parseIP host
    | none => net.parseIP (Space.trim raw)

def forwardedFor (element : Bytes) : Option IP :=
  let params := (Bytes.split (Byte.of ';') element).map Space.trim
  match params.find? fun param => (param.take 4).map toLower = ascii "for=" with
  | some param => forwardedValue net (param.drop 4)
  | none => none

def resolveForwarded (value : Bytes) (nets : List (Option N)) : Option IP :=
  let parsedFor := (Bytes.split (Byte.of ',') value).filterMap (forwardedFor net)
  (parsedFor.reverse.find? (untrusted net nets)).or parsedFor.head?

def parseSingleIP (value : Bytes) : Option IP :=
  let trimmed := Space.trim value
  if trimmed = [] ∨ trimmed.any (· ∈ ascii ", \t") then none else net.parseIP trimmed

/-- A header that gives no address leaves the choice to the next. -/
def orHeader (value : Bytes) (resolve : Bytes → Option IP) (next : Option IP) : Option IP :=
  if value = [] then next else (resolve value).or next

def extract (r : Request) (nets : List (Option N)) : Option IP :=
  match parseRemoteIP net r.remoteAddr with
  | none => none
  | some remoteIP =>
    if nets = [] ∨ ipInNets net remoteIP nets = false then some remoteIP
    else
      orHeader (firstLine r.header.forwarded) (fun fwd => resolveForwarded net fwd nets) <|
      orHeader (firstLine r.header.xForwardedFor) (fun xff => resolveXFF net xff nets) <|
      orHeader (firstLine r.header.xRealIP) (parseSingleIP net) <|
      some remoteIP

end

section Chain

/-- The bytes of IP literals: hexadecimal digits, dots and colons. -/
def isLiteralByte (b : Byte) : Bool :=
  (0x30 ≤ b.val ∧ b.val ≤ 0x39) ∨ (0x41 ≤ b.val ∧ b.val ≤ 0x46) ∨
    (0x61 ≤ b.val ∧ b.val ≤ 0x66) ∨ b.val = 0x2e ∨ b.val = 0x3a

/-- The address a proxy saw, behind the last line or on its own. -/
structure Hop {IP N : Type} (net : Net IP N) where
  literal : Bytes
  ip : IP
  ownLine : Bool
  parsed : net.parseIP literal = some ip
  nonempty : literal ≠ []
  bytes : ∀ b ∈ literal, isLiteralByte b = true

variable {IP N : Type} {net : Net IP N} {b : Byte}

def appendHop (lines : List Bytes) (hop : Hop net) : List Bytes :=
  if hop.ownLine ∨ lines = [] then lines ++ [hop.literal]
  else lines.dropLast ++ [lines.getLastD [] ++ ascii ", " ++ hop.literal]

def forwardedLines (client : List Bytes) (hops : List (Hop net)) : List Bytes :=
  hops.foldl appendHop client

theorem literalByte_range (h : isLiteralByte b = true) :
    0x2e ≤ b.val ∧ b.val ≤ 0x66 ∧ b ≠ of ',' := by
  have hrange : 0x2e ≤ b.val ∧ b.val ≤ 0x66 := by
    simp only [isLiteralByte, decide_eq_true_eq] at h
    omega
  refine ⟨hrange.1, hrange.2, ?_⟩
  intro hcomma
  rw [hcomma] at hrange
  exact absurd hrange.1 (by decide)

def Clear (runes : List Bytes) : Prop :=
  ∀ r ∈ runes, ∃ c t, r = c :: t ∧ (c.val < 0x2e ∨ 0x66 < c.val)

theorem clear_of_heads {runes : List Bytes} (h : ∀ r ∈ runes,
    r ≠ [] ∧ ((r.headD 0).val < 0x2e ∨ 0x66 < (r.headD 0).val)) : Clear runes := by
  intro r hr
  obtain ⟨hne, hrange⟩ := h r hr
  obtain ⟨c, t, rfl⟩ := exists_cons_of_ne_nil hne
  exact ⟨c, t, rfl, hrange⟩

theorem clear_runes : Clear runes := clear_of_heads (by decide)

theorem clear_reversed : Clear (runes.map reverse) := clear_of_heads (by decide)

theorem dropRunes_literal {runes : List Bytes} (hclear : Clear runes) (n : Nat)
    (hb : isLiteralByte b = true) (s : Bytes) : dropRunes runes n (b :: s) = b :: s := by
  cases n with
  | zero => rfl
  | succ n =>
    have hnone : runes.find? (fun r => r.isPrefixOf (b :: s)) = none := by
      apply find?_eq_none.mpr
      intro r hr
      obtain ⟨c, -, rfl, hc⟩ := hclear r hr
      have hrange := literalByte_range hb
      have hne : c ≠ b := by
        intro he
        rw [he] at hc
        omega
      simp [isPrefixOf, hne]
    rw [dropRunes, hnone]

theorem trim_literal {lit : Bytes} (hne : lit ≠ []) (h : ∀ b ∈ lit, isLiteralByte b = true) :
    Space.trim lit = lit ∧ Space.trim (Byte.of ' ' :: lit) = lit := by
  obtain ⟨b, rest, hb⟩ := exists_cons_of_ne_nil hne
  have hleft (n : Nat) : dropRunes runes n lit = lit := by
    rw [hb]
    exact dropRunes_literal clear_runes n (h b (by simp [hb])) rest
  have hright :
      (dropRunes (runes.map reverse) lit.length lit.reverse).reverse = lit := by
    obtain ⟨c, front, hc⟩ := exists_cons_of_ne_nil (reverse_ne_nil_iff.mpr hne)
    have hlit : isLiteralByte c = true := h c (mem_reverse.mp (by simp [hc]))
    rw [hc, dropRunes_literal clear_reversed _ hlit, ← hc, reverse_reverse]
  have hspace :
      dropRunes runes (of ' ' :: lit).length (of ' ' :: lit) = lit := by
    exact hleft lit.length
  constructor
  · rw [Space.trim, hleft]
    exact hright
  · rw [Space.trim, hspace]
    exact hright

theorem Hop.entry (hop : Hop net) : parseEntry net hop.literal = some hop.ip ∧
      parseEntry net (of ' ' :: hop.literal) = some hop.ip := by
  have htrim := trim_literal hop.nonempty hop.bytes
  rw [parseEntry, parseEntry, htrim.1, htrim.2, hop.parsed]
  exact ⟨rfl, rfl⟩

theorem Hop.no_comma (hop : Hop net) : of ',' ∉ hop.literal :=
  fun hmem => (literalByte_range (hop.bytes _ hmem)).2.2 rfl

theorem length_appendHop (lines : List Bytes) (hop : Hop net) :
    lines.length ≤ (appendHop lines hop).length := by
  unfold appendHop
  split
  · simp
  case isFalse h =>
    simp only [length_append, length_dropLast, length_singleton]
    omega

theorem forwardedLines_one (client : List Bytes) (hops : List (Hop net))
    (hone : (forwardedLines client hops).length ≤ 1) :
    (forwardedLines client hops = [] ∧ hops = []) ∨
      ∃ line front, forwardedLines client hops = [line] ∧ (hops ≠ [] → line ≠ []) ∧
        (split (of ',') line).map (parseEntry net) =
          front ++ hops.map fun hop => some hop.ip := by
  induction hops using reverseRecOn with
  | nil =>
    cases client with
    | nil => exact Or.inl ⟨rfl, rfl⟩
    | cons line lines =>
      have hlen : lines.length + 1 ≤ 1 := hone
      have hnil : lines = [] := length_eq_zero_iff.mp (by omega)
      subst hnil
      refine Or.inr ⟨line, (split (of ',') line).map (parseEntry net), rfl, by simp, ?_⟩
      simp
  | append_singleton hops hop ih =>
    have hstep : forwardedLines client (hops ++ [hop]) = appendHop (forwardedLines client hops) hop := by
      simp [forwardedLines]
    have hle := length_appendHop (forwardedLines client hops) hop
    rw [hstep] at hone ⊢
    right
    rcases ih (by omega) with ⟨hlines, hhops⟩ | ⟨line, front, hlines, -, hentries⟩
    · refine ⟨hop.literal, [], by simp [hlines, appendHop], fun _ => hop.nonempty, ?_⟩
      rw [split_of_not_mem hop.no_comma, hhops]
      simp [hop.entry.1]
    · -- A line of its own would be the second one.
      have hown : hop.ownLine = false := by
        by_contra hown
        rw [hlines, appendHop, if_pos (Or.inl (by simpa using hown))] at hone
        simp at hone
      have happend : appendHop [line] hop = [line ++ of ',' :: of ' ' :: hop.literal] := by
        simp [appendHop, hown, ascii]
      have hpiece : of ',' ∉ of ' ' :: hop.literal := by
        have hcomma := hop.no_comma
        simp only [mem_cons, not_or]
        exact ⟨by decide, hcomma⟩
      refine ⟨_, front, by rw [hlines, happend], by simp, ?_⟩
      rw [split_append, split_of_not_mem hpiece, map_append, hentries]
      simp [hop.entry.2]

theorem resolveXFF_chain {line : Bytes} {front : List (Option IP)} {first : Hop net}
    {rest : List (Hop net)} {nets : List (Option N)}
    (hentries : (split (of ',') line).map (parseEntry net) =
      front ++ (first :: rest).map fun hop => some hop.ip)
    (hfirst : ipInNets net first.ip nets = false)
    (hrest : ∀ hop ∈ rest, ipInNets net hop.ip nets = true) :
    resolveXFF net line nets = some first.ip := by
  have hwalk : (split (of ',') line).reverse.findSome?
      (fun part => (parseEntry net part).filter (untrusted net nets)) =
        ((split (of ',') line).map (parseEntry net)).reverse.findSome?
          fun ip? => ip?.filter (untrusted net nets) := by
    rw [← map_reverse, findSome?_map]
    rfl
  have htrusted : (rest.map fun hop => some hop.ip).reverse.findSome?
      (fun ip? => ip?.filter (untrusted net nets)) = none := by
    apply findSome?_eq_none_iff.mpr
    intro ip? hip
    obtain ⟨hop, hmem, rfl⟩ := mem_map.mp (mem_reverse.mp hip)
    simp [untrusted, hrest hop hmem]
  have hstop : (some first.ip).filter (untrusted net nets) = some first.ip := by
    simp [untrusted, hfirst]
  unfold resolveXFF
  simp only
  rw [hwalk, hentries, map_cons, reverse_append, reverse_cons, append_assoc,
    findSome?_append, htrusted, singleton_append, findSome?_cons, hstop]
  rfl

end Chain

/-- Headers count only behind a trusted proxy, and there the client cannot choose its address,
as long as the chain is on one line. -/
theorem extract_client {IP N : Type} (net : Net IP N) (nets : List (Option N)) (remoteAddr : Bytes)
    (remoteIP : IP) (hremote : parseRemoteIP net remoteAddr = some remoteIP) :
    (ipInNets net remoteIP nets = false →
      ∀ header, extract net ⟨remoteAddr, header⟩ nets = some remoteIP) ∧
    (ipInNets net remoteIP nets = true →
      ∀ (client : List Bytes) (first : Hop net) (rest : List (Hop net)) (xRealIP : List Bytes),
        ipInNets net first.ip nets = false → (∀ hop ∈ rest, ipInNets net hop.ip nets = true) →
        (forwardedLines client (first :: rest)).length = 1 →
        extract net ⟨remoteAddr, [], forwardedLines client (first :: rest), xRealIP⟩ nets =
          some first.ip) ∧
    ∀ unreadable header, parseRemoteIP net unreadable = none →
      extract net ⟨unreadable, header⟩ nets = none := by
  refine ⟨?_, ?_, fun unreadable header hnone => by simp only [extract, hnone]⟩
  · intro huntrusted header
    simp only [extract, hremote]
    rw [if_pos (Or.inr huntrusted)]
  · intro htrusted client first rest xRealIP hfirst hrest hone
    have hnets : ¬(nets = [] ∨ ipInNets net remoteIP nets = false) := by
      rintro (hnil | hno)
      · rw [hnil] at htrusted
        cases htrusted
      · rw [hno] at htrusted
        cases htrusted
    rcases forwardedLines_one client (first :: rest) (by omega) with
      ⟨-, hnil⟩ | ⟨line, front, hlines, hne, hentries⟩
    · cases hnil
    · simp only [extract, hremote, if_neg hnets, hlines, firstLine, headD_nil, headD_cons,
        orHeader, if_true, if_neg (hne (by simp)), resolveXFF_chain hentries hfirst hrest]
      rfl

section Dotted

/-- IPv4 literals, and networks of a first byte. -/
def octet (s : Bytes) : Option Byte :=
  if 3 < s.length ∨ 1 < s.length ∧ s.head? = some (Byte.of '0') then none
  else (Decimal.parseNat s).bind fun n => if h : n < 256 then some ⟨n, h⟩ else none

def dotted : Net Bytes Byte where
  parseIP s := ((Bytes.split (Byte.of '.') s).mapM octet).filter fun bs => bs.length = 4
  contains n ip := ip.head? = some n

def clientHop (ownLine : Bool) : Hop dotted where
  literal := ascii "203.0.113.9"
  ip := [203, 0, 113, 9]
  ownLine := ownLine
  parsed := by decide +kernel
  nonempty := by decide +kernel
  bytes := by decide +kernel

theorem extract_client_dotted :
    extract dotted ⟨Bytes.ascii "10.0.0.1:443",
        [], forwardedLines [Bytes.ascii "1.2.3.4"] [clientHop false], []⟩ [some 10] =
      some [203, 0, 113, 9] :=
  (extract_client dotted [some 10] (ascii "10.0.0.1:443") [10, 0, 0, 1] (by decide +kernel)).2.1
    (by decide +kernel) [ascii "1.2.3.4"] (clientHop false) [] [] (by decide +kernel) (by simp)
    (by decide +kernel)

/-- The proxy sends the address it saw as a further line, which is not read. -/
theorem second_line_ignored :
    extract dotted ⟨Bytes.ascii "10.0.0.1:443",
        [], forwardedLines [Bytes.ascii "1.2.3.4"] [clientHop true], []⟩ [some 10] =
      some [1, 2, 3, 4] := by
  decide +kernel

end Dotted

end ClientIP
