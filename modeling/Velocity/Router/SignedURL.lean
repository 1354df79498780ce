import Velocity.Lib.Decimal
import Velocity.Lib.Query
import Velocity.Lib.Url
import Velocity.Router.Tree

/-! Signed URLs: minting a URL over a path and its query, and checking a request against it. -/

namespace Router

open List FMap Values Bytes Byte

/-- HMAC-SHA256: the tag of a message under a key. -/
structure Mac where
  sum : Bytes → Bytes → Bytes
  sum_ne_nil : ∀ key message, sum key message ≠ []

/-- An instant in seconds, within 64 bits. -/
structure Instant where
  unix : Int
  lower : -2 ^ 63 ≤ unix
  upper : unix < 2 ^ 63

inductive URLError where
  | routeNotFound (name : Bytes)
  | path (err : SegmentError)
  | signedURLKeyMissing
  /-- Reported as a query parameter reserved by SignedURL, with the name quoted. -/
  | reservedParam (name : Bytes)
  deriving DecidableEq, Repr

inductive SignatureError where
  | keyMissing
  | missing
  | invalid
  | expired
  deriving DecidableEq, Repr

abbrev expiresParam : Bytes := ascii "expires"

abbrev signatureParam : Bytes := ascii "signature"

def lowerHex (d : Fin 16) : Byte :=
  if d.val < 10 then Fin.ofNat 256 (48 + d.val) else Fin.ofNat 256 (87 + d.val)

def hexEncode (s : Bytes) : Bytes :=
  s.flatMap fun b => [lowerHex (Percent.high b), lowerHex (Percent.low b)]

/-- The pairs of the key at position `i`: only the very first pair has no ampersand. -/
def canonicalKey (i : Nat) (k : Bytes) (vs : List Bytes) : Bytes :=
  vs.zipIdx.flatMap fun e =>
    (if 0 < i ∨ 0 < e.2 then ascii "&" else []) ++ Values.pairText (k, e.1)

def canonicalQuery (q : Values) : Bytes :=
  if q.keys = [] then []
  else q.sortedKeys.zipIdx.flatMap fun e => canonicalKey e.2 e.1 (FMap.items q e.1)

def signedText (path : Bytes) (q : Values) : Bytes :=
  path ++ if q.keys = [] then [] else Byte.of '?' :: canonicalQuery q

def computeSignedURLSignature (m : Mac) (key path : Bytes) (q : Values) : Bytes :=
  hexEncode (m.sum key (signedText path q))

def mintedQuery (extraQuery : Values) (expiresAt : Option Instant) : Values :=
  match expiresAt with
  | none => extraQuery
  | some e => extraQuery.insert expiresParam [Decimal.formatInt e.unix]

/-- A zero `expiresAt` is none. -/
def signPath (m : Mac) (key path : Bytes) (extraQuery : Values) (expiresAt : Option Instant) :
    Except URLError Bytes :=
  if key = [] then .error .signedURLKeyMissing
  else
    match extraQuery.keys.find? fun k => k = signatureParam ∨ k = expiresParam with
    | some k => .error (.reservedParam k)
    | none =>
      let q := mintedQuery extraQuery expiresAt
      let q : Values := q.insert signatureParam [computeSignedURLSignature m key path q]
      if q.keys = [] then .ok path else .ok (path ++ Byte.of '?' :: q.encode)

structure URLSigner (R H : Type) [Regexp R] where
  frozen : Bool
  namedRoutes : FMap Bytes (MatchResult R H)
  signedURLKey : Bytes

variable {R H : Type} [Regexp R] {path : Bytes}

def URLSigner.routeURL (s : URLSigner R H) (name : Bytes) (params : FMap Bytes Bytes) :
    Except URLError Bytes :=
  if s.frozen then
    match s.namedRoutes.lookup name with
    | none => .error (.routeNotFound name)
    | some result =>
      match buildPath result.segments params with
      | .error err => .error (.path err)
      | .ok path => .ok path
  else .error (.routeNotFound name)

def URLSigner.signedURL (s : URLSigner R H) (m : Mac) (name : Bytes) (params : FMap Bytes Bytes)
    (extraQuery : Values) (expiresAt : Option Instant) : Except URLError Bytes :=
  match s.routeURL name params with
  | .error err => .error err
  | .ok path => signPath m s.signedURLKey path extraQuery expiresAt

/-- The error for a request's URL at a time, none if the URL is accepted. -/
def validateSignature (m : Mac) (key : Bytes) (url : Option URL) (now : Int) :
    Option SignatureError :=
  if key = [] then some .keyMissing
  else
    match url with
    | none => some .invalid
    | some u =>
      let q := Values.parseQuery u.rawQuery
      let supplied := q.get signatureParam
      if supplied = [] then some .missing
      else
        let q : Values := q.erase signatureParam
        let compare :=
          if computeSignedURLSignature m key u.path q = supplied then none else some .invalid
        if q.get expiresParam = [] then compare
        else
          match Decimal.parseInt (q.get expiresParam) with
          | none => some .invalid
          | some expUnix => if expUnix ≤ now then some .expired else compare

section Hex

theorem unhex_lowerHex (d : Fin 16) : Percent.unhex (lowerHex d) = some d := by
  revert d
  decide

theorem hexEncode_injective : Function.Injective hexEncode := by
  have hdigit : Function.Injective lowerHex := by
    intro d d' h
    have hd := unhex_lowerHex d
    rw [h, unhex_lowerHex] at hd
    exact (Option.some.inj hd).symm
  intro s t h
  induction s generalizing t with
  | nil =>
    cases t with
    | nil => rfl
    | cons b t => simp [hexEncode] at h
  | cons a s ih =>
    cases t with
    | nil => simp [hexEncode] at h
    | cons b t =>
      simp only [hexEncode, flatMap_cons, cons_append, nil_append, cons.injEq] at h
      obtain ⟨hhigh, hlow, hrest⟩ := h
      rw [ih hrest, ← Percent.byte_high_low a, hdigit hhigh, hdigit hlow, Percent.byte_high_low]

theorem hexEncode_ne_nil {s : Bytes} (h : s ≠ []) : hexEncode s ≠ [] := by
  cases s with
  | nil => exact absurd rfl h
  | cons b s => simp [hexEncode]

end Hex

section Canonical

def pairBehind (e : Bytes × Bytes) : Bytes := Byte.of '&' :: Values.pairText e

theorem flatMap_zipIdx {α β : Type} (l : List α) (n : Nat) {f : α × Nat → List β} {g : α → List β}
    (h : ∀ a i, n ≤ i → f (a, i) = g a) : (l.zipIdx n).flatMap f = l.flatMap g := by
  induction l generalizing n with
  | nil => rfl
  | cons a l ih =>
    have hrest := ih (n + 1) fun a i hi => h a i (by omega)
    rw [zipIdx_cons, flatMap_cons, flatMap_cons, h a n (by omega), hrest]

theorem canonicalKey_later {i : Nat} (h : 0 < i) (k : Bytes) (vs : List Bytes) :
    canonicalKey i k vs = (vs.map fun v => (k, v)).flatMap pairBehind := by
  rw [flatMap_map]
  apply flatMap_zipIdx
  intro v j _
  rw [if_pos (Or.inl h)]
  rfl

theorem canonicalKey_first (k v : Bytes) (vs : List Bytes) : canonicalKey 0 k (v :: vs) =
      pairText (k, v) ++ (vs.map fun v => (k, v)).flatMap pairBehind := by
  have hrest : (vs.zipIdx (0 + 1)).flatMap (fun e =>
      (if 0 < 0 ∨ 0 < e.2 then ascii "&" else []) ++ pairText (k, e.1)) =
      (vs.map fun v => (k, v)).flatMap pairBehind := by
    rw [flatMap_map]
    apply flatMap_zipIdx
    intro v j hj
    rw [if_pos (Or.inr (by omega))]
    rfl
  rw [canonicalKey, zipIdx_cons, flatMap_cons, hrest]
  simp

variable {q q' : Values} {ks : List Bytes} {k : Bytes}

theorem canonicalQuery_cons (hkeys : q.sortedKeys = k :: ks) :
    canonicalQuery q = canonicalKey 0 k (items q k) ++
      (ks.flatMap fun k => (items q k).map fun v => (k, v)).flatMap pairBehind := by
  have hne : q.keys ≠ [] := by
    intro hnil
    simp [sortedKeys, hnil] at hkeys
  have hrest : (ks.zipIdx (0 + 1)).flatMap (fun e => canonicalKey e.2 e.1 (items q e.1)) =
      ks.flatMap fun k => ((items q k).map fun v => (k, v)).flatMap pairBehind := by
    apply flatMap_zipIdx
    intro k i hi
    exact canonicalKey_later (by omega) k _
  rw [canonicalQuery, if_neg hne, hkeys, zipIdx_cons, flatMap_cons, hrest, flatMap_assoc]

theorem pairs_cons (hkeys : q.sortedKeys = k :: ks) :
    q.pairs = ((items q k).map fun v => (k, v)) ++
      ks.flatMap fun k => (items q k).map fun v => (k, v) := by
  rw [pairs, hkeys, flatMap_cons]

theorem canonicalQuery_nil (hkeys : q.sortedKeys = []) : canonicalQuery q = [] := by
  rw [canonicalQuery, hkeys]
  simp

def LeadingValue (q : Values) : Prop := ∀ k ks, q.sortedKeys = k :: ks → FMap.items q k ≠ []

theorem canonicalQuery_eq_join (h : LeadingValue q) :
    canonicalQuery q = join [of '&'] (q.pairs.map pairText) := by
  cases hkeys : q.sortedKeys with
  | nil => rw [canonicalQuery_nil hkeys, pairs, hkeys]; rfl
  | cons k ks =>
    obtain ⟨v, vs, hvs⟩ := exists_cons_of_ne_nil (h k ks hkeys)
    rw [canonicalQuery_cons hkeys, pairs_cons hkeys, hvs, canonicalKey_first, map_cons,
      cons_append, join_pairTexts, flatMap_append, append_assoc]
    rfl

theorem canonicalQuery_eq_behind (hkeys : q.sortedKeys = k :: ks) (hnone : items q k = []) :
    canonicalQuery q = q.pairs.flatMap pairBehind := by
  rw [canonicalQuery_cons hkeys, pairs_cons hkeys, hnone]
  rfl

theorem join_pairTexts_injective : Function.Injective fun es : List (Bytes × Bytes) =>
      join [of '&'] (es.map pairText) := by
  intro es es' h
  have hamp (es : List (Bytes × Bytes)) : ∀ p ∈ es.map pairText, of '&' ∉ p := by
    intro p hp
    obtain ⟨e, -, rfl⟩ := mem_map.mp hp
    exact not_mem_pairText ampersand_reserved (by decide) e
  have hne (e : Bytes × Bytes) (es : List (Bytes × Bytes)) :
      join [of '&'] ((e :: es).map pairText) ≠ [] := by
    rw [join_pairTexts]
    simp [pairText_ne_nil]
  cases es with
  | nil =>
    cases es' with
    | nil => rfl
    | cons e' es' => exact absurd h.symm (hne e' es')
  | cons e es =>
    cases es' with
    | nil => exact absurd h (hne e es)
    | cons e' es' =>
      have hsplit := congrArg (split (of '&')) h
      rw [split_join (by simp) (hamp _), split_join (by simp) (hamp _)] at hsplit
      exact map_injective_iff.mpr pairText_injective hsplit

theorem behind_ne_join (e : Bytes × Bytes) (es es' : List (Bytes × Bytes)) :
    (e :: es).flatMap pairBehind ≠ join [of '&'] (es'.map pairText) := by
  intro h
  cases es' with
  | nil => simp [pairBehind, join] at h
  | cons e' es' =>
    obtain ⟨b, rest, hb⟩ := exists_cons_of_ne_nil (pairText_ne_nil e')
    have hamp := not_mem_pairText ampersand_reserved (by decide) e'
    rw [join_pairTexts, hb] at h
    have hhead : of '&' = b := (cons.inj h).1
    rw [hb, hhead] at hamp
    exact hamp mem_cons_self

theorem canonicalQuery_inj {q : Values} (hq' : LeadingValue q')
    (h : canonicalQuery q = canonicalQuery q') : q.pairs = q'.pairs := by
  rw [canonicalQuery_eq_join hq'] at h
  by_cases hq : LeadingValue q
  · rw [canonicalQuery_eq_join hq] at h
    exact join_pairTexts_injective h
  · unfold LeadingValue at hq
    push Not at hq
    obtain ⟨k, ks, hkeys, hnone⟩ := hq
    rw [canonicalQuery_eq_behind hkeys hnone] at h
    cases hpairs : q.pairs with
    | nil =>
      rw [hpairs] at h
      exact join_pairTexts_injective h
    | cons e es =>
      rw [hpairs] at h
      exact absurd h (behind_ne_join e es _)

theorem question_not_mem_canonicalQuery (q : Values) : of '?' ∉ canonicalQuery q := by
  have hreserved : Percent.Reserved .queryComponent (of '?') :=
    ⟨by decide, by decide, by decide, by decide⟩
  unfold canonicalQuery
  split
  · simp
  · intro hmem
    obtain ⟨e, -, he⟩ := mem_flatMap.mp hmem
    obtain ⟨e', -, he'⟩ := mem_flatMap.mp he
    rcases mem_append.mp he' with hamp | htext
    · split at hamp
      · exact absurd hamp (by decide)
      · simp at hamp
    · exact not_mem_pairText hreserved (by decide) _ htext

theorem signedText_inj {path' : Bytes} {q : Values} (hpath : of '?' ∉ path)
    (hpath' : of '?' ∉ path') (h : signedText path q = signedText path' q') :
    path = path' ∧ canonicalQuery q = canonicalQuery q' := by
  unfold signedText at h
  by_cases hq : q.keys = [] <;> by_cases hq' : q'.keys = []
  · simp only [if_pos hq, if_pos hq', append_nil] at h
    exact ⟨h, by rw [canonicalQuery, canonicalQuery, if_pos hq, if_pos hq']⟩
  · simp only [if_pos hq, if_neg hq', append_nil] at h
    exact absurd (by simp [h]) hpath
  · simp only [if_neg hq, if_pos hq', append_nil] at h
    exact absurd (by simp [← h]) hpath'
  · simp only [if_neg hq, if_neg hq'] at h
    obtain ⟨hp, -, hc⟩ :=
      (append_cons_inj_of_notMem hpath (question_not_mem_canonicalQuery q)).mp h
    exact ⟨hp, hc⟩

end Canonical

section Validation

variable {m : Mac} {key url : Bytes} {extraQuery : Values} {expiresAt : Option Instant}

theorem validateSignature_accepts {u : URL} {now : Int}
    (h : validateSignature m key (some u) now = none) :
    computeSignedURLSignature m key u.path ((parseQuery u.rawQuery).erase signatureParam) =
      (parseQuery u.rawQuery).get signatureParam ∧
    ∀ expires, expires = get ((parseQuery u.rawQuery).erase signatureParam) expiresParam →
      expires ≠ [] → ∃ x, Decimal.parseInt expires = some x ∧ now < x := by
  unfold validateSignature at h
  simp only at h
  split at h
  · cases h
  · split at h
    · cases h
    · have hcompare : ∀ {sig text : Bytes},
          (if sig = text then none else some SignatureError.invalid) = none → sig = text := by
        intro sig text hh
        by_contra hne
        rw [if_neg hne] at hh
        cases hh
      split at h
      case isTrue hexp =>
        refine ⟨hcompare h, ?_⟩
        intro expires he hne
        rw [he, hexp] at hne
        exact absurd rfl hne
      case isFalse hexp =>
        split at h
        · cases h
        · rename_i x hx
          split at h
          · cases h
          · refine ⟨hcompare h, ?_⟩
            intro expires he _
            rw [he]
            exact ⟨x, hx, by omega⟩

theorem leadingValue_of_lookup {q : Values} (h : ∀ k vs, q.lookup k = some vs → vs ≠ []) :
    LeadingValue q := by
  intro k ks hkeys
  have hmem : k ∈ q.keys := mem_sortedKeys.mp (by simp [hkeys])
  have hsome := AList.lookup_isSome.mpr (AList.mem_keys.mpr hmem)
  obtain ⟨vs, hvs⟩ := Option.isSome_iff_exists.mp hsome
  rw [items, hvs]
  exact h k vs hvs

theorem leadingValue_request (s : Bytes) : LeadingValue ((parseQuery s).erase signatureParam) := by
  apply leadingValue_of_lookup
  intro k vs hvs
  exact lookup_parseQuery_ne_nil (lookup_of_erase hvs).2

def urlSignature (url : Bytes) : Bytes :=
  Values.get (Values.parseQuery (Bytes.cut (Byte.of '?') url).2) signatureParam

def signedQuery (m : Mac) (key path : Bytes) (extraQuery : Values) (expiresAt : Option Instant) :
    Values :=
  (mintedQuery extraQuery expiresAt).insert signatureParam
    [computeSignedURLSignature m key path (mintedQuery extraQuery expiresAt)]

theorem signPath_ok (h : signPath m key path extraQuery expiresAt = .ok url) :
    key ≠ [] ∧ extraQuery.lookup signatureParam = none ∧ extraQuery.lookup expiresParam = none ∧
      url = path ++ of '?' :: (signedQuery m key path extraQuery expiresAt).encode := by
  unfold signPath at h
  split at h
  · cases h
  case isFalse hkey =>
    split at h
    · cases h
    case h_2 hnone =>
      have hfree := find?_eq_none.mp hnone
      have habsent {k : Bytes} (hk : k = signatureParam ∨ k = expiresParam) :
          extraQuery.lookup k = none := by
        rw [AList.lookup_eq_none]
        intro hmem
        exact hfree k hmem (decide_eq_true hk)
      exact ⟨hkey, habsent (Or.inl rfl), habsent (Or.inr rfl), (Except.ok.inj h).symm⟩

theorem urlSignature_signPath (h : signPath m key path extraQuery expiresAt = .ok url)
    (hpath : Byte.of '?' ∉ path) :
    urlSignature url = computeSignedURLSignature m key path (mintedQuery extraQuery expiresAt) := by
  obtain ⟨-, -, -, hurl⟩ := signPath_ok h
  rw [urlSignature, hurl, cut_append hpath, Values.get, Values.items_parseQuery_encode]
  rfl

end Validation

theorem path_of_signedText {u : URL} {q q' : Values} (h : signedText u.path q = signedText path q')
    (hpath : u.escapedPath = path) : u.path = path := by
  have hquestion : of '?' ∉ path := hpath ▸ URL.not_mem_escapedPath URL.reserved_question u
  -- The decoded path is not longer than the escaped one.
  have hlen : u.path.length ≤ path.length := hpath ▸ URL.length_path_le u
  have htext : u.path <+: signedText path q' := h ▸ prefix_append _ _
  have hpath := prefix_of_prefix_length_le htext (prefix_append path _) hlen
  exact (signedText_inj (fun hmem => hquestion (hpath.subset hmem)) hquestion h).1

/-- A request accepted with the signature of a minted URL is that URL exactly if the minted path has
no question mark and the request's path is sent without escapes. -/
theorem accepted_request_is_minted (m : Mac) (key path url : Bytes) (extraQuery : Values)
    (expiresAt : Option Instant) (u : URL) (now : Int)
    (hfree : Function.Injective (m.sum key))
    (hminted : signPath m key path extraQuery expiresAt = .ok url)
    (haccepted : validateSignature m key (some u) now = none)
    (hsignature : Values.get (Values.parseQuery u.rawQuery) signatureParam = urlSignature url) :
    Byte.of '?' ∉ path ∧ u.escapedPath = u.path ↔ u.escapedPath = path ∧
      (∀ k, FMap.items ((Values.parseQuery u.rawQuery).erase signatureParam) k =
        FMap.items (mintedQuery extraQuery expiresAt) k) ∧
      ∀ e, expiresAt = some e → now < e.unix := by
  obtain ⟨hcompare, hexpiry⟩ := validateSignature_accepts haccepted
  rw [hsignature] at hcompare
  have htext (hquestion : of '?' ∉ path) :
      signedText u.path ((parseQuery u.rawQuery).erase signatureParam) =
        signedText path (mintedQuery extraQuery expiresAt) := by
    rw [urlSignature_signPath hminted hquestion] at hcompare
    exact hfree (hexEncode_injective hcompare)
  constructor
  swap
  · rintro ⟨hpath, -⟩
    have hquestion : of '?' ∉ path := hpath ▸ URL.not_mem_escapedPath URL.reserved_question u
    exact ⟨hquestion, hpath.trans (path_of_signedText (htext hquestion) hpath).symm⟩
  rintro ⟨hquestion, hescaped⟩
  have hpath : of '?' ∉ u.path := by
    rw [← hescaped]
    exact URL.not_mem_escapedPath URL.reserved_question u
  obtain ⟨hsame, hcanonical⟩ := signedText_inj hquestion hpath (htext hquestion).symm
  have hpairs := canonicalQuery_inj (leadingValue_request u.rawQuery) hcanonical
  have hitems (k : Bytes) : items ((parseQuery u.rawQuery).erase signatureParam) k =
      items (mintedQuery extraQuery expiresAt) k := by
    rw [← valuesOf_pairs, ← valuesOf_pairs, hpairs]
  refine ⟨by rw [hescaped, hsame], hitems, ?_⟩
  intro e he
  have hexpires : get ((parseQuery u.rawQuery).erase signatureParam) expiresParam =
      Decimal.formatInt e.unix := by
    rw [Values.get, hitems, he]
    rfl
  obtain ⟨x, hx, hlt⟩ := hexpiry _ hexpires.symm (Decimal.formatInt_ne_nil e.unix)
  rw [Decimal.parseInt_formatInt e.lower e.upper] at hx
  rw [Option.some.inj hx]
  exact hlt

/-- A code without collisions: the message itself. -/
def echo : Mac := ⟨fun _ message => 0 :: message, fun _ _ => by simp⟩

def linkEnd : Instant := ⟨100, by omega, by omega⟩

def mintedLink : Bytes :=
  match signPath echo [1] (ascii "/a") ∅ (some linkEnd) with
  | .ok url => url
  | .error _ => []

def mintedRequest : URL := ⟨ascii "/a", [], (Bytes.cut (Byte.of '?') mintedLink).2⟩

theorem accepted_request_is_minted_link :
    mintedRequest.escapedPath = Bytes.ascii "/a" ∧
      (∀ k, FMap.items ((Values.parseQuery mintedRequest.rawQuery).erase signatureParam) k =
        FMap.items (mintedQuery ∅ (some linkEnd)) k) ∧
      ∀ e, some linkEnd = some e → 50 < e.unix :=
  (accepted_request_is_minted echo [1] (ascii "/a") mintedLink ∅
    (some linkEnd) mintedRequest 50 (fun _ _ h => (cons.inj h).2) rfl
    (by decide +kernel) (by decide +kernel)).mp ⟨by decide +kernel, by decide +kernel⟩

def replayedTarget : Bytes :=
  ascii "/a%3Fexpires=100?signature=" ++ urlSignature mintedLink

/-- The request for that target, long after the expiry. -/
theorem expired_link_accepted :
    signPath echo [1] (Bytes.ascii "/a") ∅ (some linkEnd) = .ok mintedLink ∧
    (URL.parseRequestURI replayedTarget).any (fun u =>
      Values.get (Values.parseQuery u.rawQuery) signatureParam = urlSignature mintedLink ∧
      validateSignature echo [1] (some u) 200 = none ∧
      u.escapedPath ≠ Bytes.ascii "/a" ∧
      Values.get (Values.parseQuery u.rawQuery) expiresParam = []) = true :=
  ⟨rfl, by decide +kernel⟩

end Router
