import Velocity.Router.SignedURL

/-! A minted URL, parsed as a request and checked. The signature is made over the path as it is
written and checked over the path as it is decoded. -/

namespace Router

open Values List Percent Bytes Byte FMap

variable {R H : Type} [Regexp R] {path : Bytes}

/-- The bytes of a path that a request target carries unchanged. -/
def PlainPath (path : Bytes) : Prop :=
  ∀ b ∈ path, b ≠ Byte.of '%' ∧ b ≠ Byte.of '?' ∧ URL.isControl b = false

instance (path : Bytes) : Decidable (PlainPath path) :=
  inferInstanceAs (Decidable (∀ b ∈ path, _))

theorem unescape_plain {s : Bytes} (h : of '%' ∉ s) : unescape .path s = some s := by
  induction s with
  | nil => rfl
  | cons b s ih =>
    have hb : b ≠ of '%' := fun he => h (by simp [he])
    have hplain : plain .path b = b := by simp [plain]
    rw [unescape_cons_of_ne _ hb, ih fun hmem => h (mem_cons_of_mem _ hmem), hplain]
    rfl

theorem pairText_not_control (e : Bytes × Bytes) : ∀ c ∈ pairText e, URL.isControl c = false := by
  intro c hc
  rw [pairText, mem_append, mem_cons] at hc
  rcases hc with hkey | hequals | hvalue
  · exact URL.escape_not_control _ e.1 c hkey
  · rw [hequals]
    decide
  · exact URL.escape_not_control _ e.2 c hvalue

theorem encode_not_control (q : Values) : ∀ c ∈ q.encode, URL.isControl c = false := by
  intro c hc
  rw [encode_eq_join] at hc
  cases hpairs : q.pairs with
  | nil =>
    rw [hpairs] at hc
    simp [join] at hc
  | cons e es =>
    rw [hpairs, join_pairTexts, mem_append, mem_flatMap] at hc
    rcases hc with hfirst | ⟨e', -, he'⟩
    · exact pairText_not_control e c hfirst
    · rcases mem_cons.mp he' with hamp | hmem
      · rw [hamp]
        decide
      · exact pairText_not_control e' c hmem

theorem parseRequestURI_minted (hhead : path.head? = some slash)
    (hplain : PlainPath path) (q : Values) :
    ∃ rawPath, URL.parseRequestURI (path ++ of '?' :: q.encode) =
      some ⟨path, rawPath, q.encode⟩ := by
  have hquestion : of '?' ∉ path := fun hmem => (hplain _ hmem).2.1 rfl
  have hpercent : of '%' ∉ path := fun hmem => (hplain _ hmem).1 rfl
  have hcontrol : (path ++ of '?' :: q.encode).any URL.isControl = false := by
    rw [any_eq_false]
    intro c hc
    rw [Bool.not_eq_true]
    rcases mem_append.mp hc with hmem | hrest
    · exact (hplain c hmem).2.2
    · rcases mem_cons.mp hrest with he | hmem
      · rw [he]
        decide
      · exact encode_not_control q c hmem
  have hhead' : (path ++ of '?' :: q.encode).head? = some (of '/') := by
    rw [head?_append, hhead]
    rfl
  refine ⟨if path = escape .path path then [] else path, ?_⟩
  rw [URL.parseRequestURI, hcontrol, hhead', cut_append hquestion, URL.setPath, unescape_plain hpercent]
  rfl

theorem signPath_path {s : URLSigner R H} {m : Mac} {name url : Bytes}
    {params : FMap Bytes Bytes} {extraQuery : Values} {expiresAt : Option Instant}
    (hpath : s.routeURL name params = .ok path)
    (hurl : s.signedURL m name params extraQuery expiresAt = .ok url) :
    path.head? = some slash ∧ signPath m s.signedURLKey path extraQuery expiresAt = .ok url := by
  rw [URLSigner.signedURL, hpath] at hurl
  refine ⟨?_, hurl⟩
  unfold URLSigner.routeURL at hpath
  split at hpath
  · split at hpath
    · cases hpath
    · split at hpath
      · cases hpath
      case h_2 hbuild =>
        rw [← Except.ok.inj hpath]
        exact buildPath_head hbuild
  · cases hpath

section Query

variable {extraQuery q : Values} (expiresAt : Option Instant)

def receivedQuery (m : Mac) (key path : Bytes) (extraQuery : Values)
    (expiresAt : Option Instant) : Values :=
  (Values.parseQuery (signedQuery m key path extraQuery expiresAt).encode).erase signatureParam

theorem mintedQuery_signature (hreserved : extraQuery.lookup signatureParam = none) :
    items (mintedQuery extraQuery expiresAt) signatureParam = [] := by
  have hextra : items extraQuery signatureParam = [] := by
    rw [items, hreserved]
    rfl
  cases expiresAt with
  | none => exact hextra
  | some e =>
    rw [mintedQuery, items_insert]
    exact hextra

theorem items_receivedQuery (m : Mac) (key path : Bytes)
    (hreserved : extraQuery.lookup signatureParam = none) (k : Bytes) :
    items (receivedQuery m key path extraQuery expiresAt) k =
      items (mintedQuery extraQuery expiresAt) k := by
  rw [receivedQuery, items_erase, items_parseQuery_encode, signedQuery, items_insert]
  by_cases hk : k = signatureParam
  · rw [if_pos hk, hk, mintedQuery_signature expiresAt hreserved]
  · rw [if_neg hk, if_neg hk]

theorem keys_eq_nil_of_pairs (hleading : LeadingValue q) (hpairs : q.pairs = []) : q.keys = [] := by
  cases hkeys : q.sortedKeys with
  | nil =>
    apply eq_nil_iff_forall_not_mem.mpr
    intro k hk
    have hmem := mem_sortedKeys.mpr hk
    simp [hkeys] at hmem
  | cons k ks =>
    have hnone := hleading k ks hkeys
    rw [pairs_cons hkeys] at hpairs
    simp [hnone] at hpairs

theorem signedText_congr {q' : Values} (hq : LeadingValue q) (hq' : LeadingValue q')
    (hpairs : q.pairs = q'.pairs) (path : Bytes) : signedText path q = signedText path q' := by
  have hcanonical : canonicalQuery q = canonicalQuery q' := by
    rw [canonicalQuery_eq_join hq, canonicalQuery_eq_join hq', hpairs]
  have hempty {q : Values} (hkeys : q.keys = []) : q.pairs = [] := by
    simp [pairs, sortedKeys, hkeys]
  have hkeys : q.keys = [] ↔ q'.keys = [] := by
    constructor
    · intro h
      exact keys_eq_nil_of_pairs hq' (hpairs ▸ hempty h)
    · intro h
      exact keys_eq_nil_of_pairs hq (hpairs ▸ hempty h)
  unfold signedText
  simp only [hkeys, hcanonical]

theorem signature_received (m : Mac) (key path : Bytes)
    (hreserved : extraQuery.lookup signatureParam = none)
    (hleading : LeadingValue (mintedQuery extraQuery expiresAt)) :
    computeSignedURLSignature m key path (receivedQuery m key path extraQuery expiresAt) =
      computeSignedURLSignature m key path (mintedQuery extraQuery expiresAt) := by
  have hpairs := pairs_congr (items_receivedQuery expiresAt m key path hreserved)
  have htext := signedText_congr (leadingValue_request _) hleading hpairs path
  rw [computeSignedURLSignature, receivedQuery, htext]
  rfl

theorem expires_received (m : Mac) (key path : Bytes)
    (hsignature : extraQuery.lookup signatureParam = none)
    (hexpires : extraQuery.lookup expiresParam = none) :
    Values.get (receivedQuery m key path extraQuery expiresAt) expiresParam = match expiresAt with
      | none => []
      | some e => Decimal.formatInt e.unix := by
  rw [Values.get, items_receivedQuery expiresAt m key path hsignature]
  cases expiresAt with
  | none =>
    rw [mintedQuery, FMap.items, hexpires]
    rfl
  | some e =>
    rfl

end Query

theorem signedURL_validates (s : URLSigner R H) (m : Mac) (name : Bytes) (params : FMap Bytes Bytes)
    (extraQuery : Values) (expiresAt : Option Instant) (now : Int) (path url : Bytes)
    (hpath : s.routeURL name params = .ok path)
    (hurl : s.signedURL m name params extraQuery expiresAt = .ok url)
    (hnow : ∀ e, expiresAt = some e → now < e.unix)
    (hplain : PlainPath path) (hleading : LeadingValue (mintedQuery extraQuery expiresAt)) :
    ∃ u, URL.parseRequestURI url = some u ∧ validateSignature m s.signedURLKey (some u) now = none := by
  obtain ⟨hhead, hsign⟩ := signPath_path hpath hurl
  obtain ⟨hkey, hsignature, hexpires, hlink⟩ := signPath_ok hsign
  obtain ⟨rawPath, hparse⟩ := parseRequestURI_minted hhead hplain
    (signedQuery m s.signedURLKey path extraQuery expiresAt)
  refine ⟨_, by rw [hlink]; exact hparse, ?_⟩
  have hsupplied : get (parseQuery
      (signedQuery m s.signedURLKey path extraQuery expiresAt).encode) signatureParam =
        computeSignedURLSignature m s.signedURLKey path (mintedQuery extraQuery expiresAt) := by
    rw [Values.get, Values.items_parseQuery_encode]
    rfl
  have hne : computeSignedURLSignature m s.signedURLKey path (mintedQuery extraQuery expiresAt) ≠ [] :=
    hexEncode_ne_nil (m.sum_ne_nil _ _)
  have hcompare := signature_received expiresAt m s.signedURLKey path hsignature hleading
  have hexpiry := expires_received expiresAt m s.signedURLKey path hsignature hexpires
  rw [receivedQuery] at hcompare hexpiry
  unfold validateSignature
  simp only [if_neg hkey, hsupplied, if_neg hne, hcompare, hexpiry, if_true]
  cases expiresAt with
  | none => simp
  | some e =>
    have hlt := hnow e rfl
    simp only [if_neg (Decimal.formatInt_ne_nil e.unix), Decimal.parseInt_formatInt e.lower e.upper]
    rw [if_neg (by omega)]

def userSigner : URLSigner PlainText Nat :=
  ⟨true, (newTree.insertWithName (ascii "GET") (ascii "/u/\x7bname\x7d") 1
    (ascii "user")).2.namedRoutes, [1]⟩

def userParams (name : Bytes) : FMap Bytes Bytes := AList.singleton (ascii "name") name

def userLink (name : Bytes) (extraQuery : Values) (expiresAt : Option Instant) : Bytes :=
  match userSigner.signedURL echo (ascii "user") (userParams name) extraQuery expiresAt with
  | .ok url => url
  | .error _ => []

def tagQuery : Values :=
  (AList.singleton (ascii "tag") [ascii "x y", []]).insert (ascii "a&b")
    [ascii "="]

/-- Two keys with values that are escaped, and an expiry a second ahead. -/
theorem signedURL_validates_user :
    ∃ u, URL.parseRequestURI (userLink (Bytes.ascii "bob") tagQuery (some linkEnd)) = some u ∧
      validateSignature echo [1] (some u) 99 = none :=
  signedURL_validates userSigner echo (ascii "user") (userParams (ascii "bob")) tagQuery
    (some linkEnd) 99 (ascii "/u/bob") _ (by decide +kernel) (by decide +kernel)
    (by rintro e ⟨rfl⟩; decide) (by decide +kernel) (by
      intro k ks hkeys
      have hsorted : (mintedQuery tagQuery (some linkEnd)).sortedKeys =
        [ascii "a&b", expiresParam, ascii "tag"] := by decide +kernel
      obtain ⟨rfl, -⟩ := cons.inj (hkeys.symm.trans hsorted)
      decide +kernel)

/-- A name with a space, and a query key without values. -/
theorem minted_links_rejected :
    (URL.parseRequestURI (userLink (Bytes.ascii "a b") ∅ none)).any (fun u =>
      validateSignature echo [1] (some u) 0 = some .invalid) = true ∧
    (URL.parseRequestURI
      (userLink (Bytes.ascii "bob") (AList.singleton (Bytes.ascii "tag") []) none)).any
      (fun u => validateSignature echo [1] (some u) 0 = some .invalid) = true := by
  decide +kernel

end Router
