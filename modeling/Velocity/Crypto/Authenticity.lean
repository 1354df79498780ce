import Velocity.Crypto.Framing

/-! What the decrypters give back was sealed: a tag that verifies was computed by a call of Encrypt,
over an input that fixes the initialization vector, the ciphertext and the additional data. -/

namespace Crypto

open Base64 Option AESDriver List Cipher Except
open Bytes (ascii)

/-- Go counts the bytes of a slice in an int. -/
abbrev Slice := {b : Bytes // b.length < 2 ^ 63}

def Cipher.ivSize (c : Cipher) : Nat :=
  match c.mode with
  | .cbc => blockSize
  | .gcm => nonceSize

/-- A call of Encrypt with its random bytes; in version 0 the tag did not cover the raw bytes. -/
structure Sealing where
  version : Version
  cipher : Cipher
  master : Bytes
  plaintext : Bytes
  aad : Slice
  iv : Bytes
  length_master : master.length = cipher.keySize
  length_iv : iv.length = cipher.ivSize
  fits : cipher.mode = .gcm → plaintext.length ≤ maxMessage
  legacy : version = .v0 → aad.val = []

inductive Input
  | mac (input : Bytes)
  | gcm (nonce ciphertext aad : Bytes)
deriving DecidableEq

inductive Tag
  | mac (text : Bytes)
  | gcm (bytes : Bytes)
deriving DecidableEq

structure Tagged where
  master : Bytes
  input : Input
  tag : Tag
deriving DecidableEq

variable (P : Primitives) {c : Tagged}

def Tagged.verifies (c : Tagged) : Bool :=
  match c.input, c.tag with
  | .mac input, .mac text => Base64.std.encode (P.hmac (macKey P c.master) input) = text
  | .gcm nonce ciphertext aad, .gcm tag =>
    (P.aeadOpen (encKey P c.master) nonce (ciphertext ++ tag) aad).isSome
  | _, _ => false

namespace Sealing

variable (s : Sealing)

def sealed : Bytes :=
  match s.cipher.mode with
  | .cbc =>
    let padded := pkcs7Pad s.plaintext blockSize
    (P.aes (encKey P s.master)).chain (padded.length / blockSize) s.iv padded
  | .gcm => P.aeadSeal (encKey P s.master) s.iv s.plaintext s.aad

def macInput : Bytes :=
  Crypto.macInput s.version (Base64.std.encode (s.sealed P)) (Base64.std.encode s.iv) s.iv (s.sealed P)
    s.aad

def ciphertext : Bytes :=
  match s.cipher.mode with
  | .cbc => s.sealed P
  | .gcm => (s.sealed P).take ((s.sealed P).length - overhead)

def payload : Payload :=
  match s.cipher.mode with
  | .cbc =>
    { iv := Base64.std.encode s.iv, value := Base64.std.encode (s.sealed P),
      mac := Base64.std.encode (P.hmac (macKey P s.master) (s.macInput P)) }
  | .gcm =>
    { iv := Base64.std.encode s.iv,
      value := Base64.std.encode ((s.sealed P).take ((s.sealed P).length - overhead)),
      tag := Base64.std.encode ((s.sealed P).drop ((s.sealed P).length - overhead)) }

def tagged : Tagged :=
  match s.cipher.mode with
  | .cbc =>
    ⟨s.master, .mac (s.macInput P), .mac (Base64.std.encode (P.hmac (macKey P s.master) (s.macInput P)))⟩
  | .gcm =>
    ⟨s.master, .gcm s.iv ((s.sealed P).take ((s.sealed P).length - overhead)) s.aad,
      .gcm ((s.sealed P).drop ((s.sealed P).length - overhead))⟩

def Made (text : Bytes) : Prop :=
  s.version = .v1 ∧ ∃ d previousKeys v0Disabled rand,
    newAESDriver P s.master previousKeys s.cipher v0Disabled = .ok d ∧
    rand s.cipher.ivSize = some s.iv ∧
    (d.encryptBytesWithAAD P rand s.plaintext s.aad = .ok text ∨
      s.aad.val = [] ∧ d.encryptBytes P rand s.plaintext = .ok text)

/-- A tag in the ciphertext may be divided from it otherwise. -/
def CarriedBy (p : Payload) : Prop :=
  Base64.std.decode p.iv = some s.iv ∧ ∃ value, Base64.std.decode p.value = some value ∧
    match s.cipher.mode with
    | .cbc => value = s.ciphertext P
    | .gcm => ∃ tag, Base64.std.decode p.tag = some tag ∧ value ++ tag = s.sealed P

end Sealing

/-- A tag verifies only if a call computed it, on this input under this key. -/
def Bound (L : List Sealing) (c : Tagged) : Prop :=
  c.verifies P = true → (∃ s ∈ L, (s.tagged P).tag = c.tag) ∧
    ∀ s ∈ L, (s.tagged P).tag = c.tag → s.tagged P = c

def checked (mode : Mode) (version : Version) (aad : Bytes) (p : Payload) (master : Bytes) :
    Option Tagged :=
  match mode with
  | .cbc => do
    let iv ← Base64.std.decode p.iv
    let ct ← Base64.std.decode p.value
    some ⟨master, .mac (macInput version p.value p.iv iv ct aad), .mac p.mac⟩
  | .gcm => do
    let nonce ← Base64.std.decode p.iv
    let value ← Base64.std.decode p.value
    let tag ← Base64.std.decode p.tag
    let c := value ++ tag
    some ⟨master, .gcm nonce (c.take (c.length - overhead)) aad, .gcm (c.drop (c.length - overhead))⟩

def checks (masters : List Bytes) (mode : Mode) (text aad : Bytes) : List Tagged :=
  match decodeEnvelope (splitVersion text).2 with
  | none => []
  | some p =>
    masters.filterMap (checked mode (splitVersion text).1 [] p) ++
      masters.filterMap (checked mode .v1 aad p)

def attempt (rejected malformed : Err) (mode : Mode) (version : Version) (aad : Bytes) (p : Payload)
    (master : Bytes) : Outcome Bytes :=
  match mode with
  | .cbc => decryptCBCWithKey P p (encKey P master) (macKey P master) version aad
  | .gcm => decryptGCM P rejected malformed p (encKey P master) aad

variable {P}

namespace Sealing

variable {s : Sealing}

theorem sealed_cbc (h : s.cipher.mode = .cbc) :
    s.sealed P = (P.aes (encKey P s.master)).chain ((pkcs7Pad s.plaintext blockSize).length / blockSize)
      s.iv (pkcs7Pad s.plaintext blockSize) := by
  simp only [sealed, h]

theorem sealed_gcm (h : s.cipher.mode = .gcm) :
    s.sealed P = P.aeadSeal (encKey P s.master) s.iv s.plaintext s.aad := by
  simp only [sealed, h]

theorem length_iv_cbc (h : s.cipher.mode = .cbc) : s.iv.length = blockSize := by
  rw [s.length_iv, ivSize, h]

theorem length_iv_gcm (h : s.cipher.mode = .gcm) : s.iv.length = nonceSize := by
  rw [s.length_iv, ivSize, h]

theorem length_sealed_cbc (h : s.cipher.mode = .cbc) :
    (s.sealed P).length = blockSize * (s.plaintext.length / blockSize + 1) := by
  have hpad := length_pkcs7Pad s.plaintext
  rw [sealed_cbc h, hpad, Nat.mul_div_cancel_left _ (by decide)]
  exact (P.aes _).length_chain hpad (length_iv_cbc h)

theorem unpad_unchain (h : s.cipher.mode = .cbc) : pkcs7Unpad
      ((P.aes (encKey P s.master)).unchain ((s.sealed P).length / blockSize) s.iv (s.sealed P)) =
      some s.plaintext := by
  have hpad := length_pkcs7Pad s.plaintext
  rw [length_sealed_cbc h, sealed_cbc h, hpad, Nat.mul_div_cancel_left _ (by decide)]
  rw [(P.aes _).unchain_chain hpad (length_iv_cbc h), pkcs7Unpad_pkcs7Pad]

theorem open_sealed (h : s.cipher.mode = .gcm) :
    P.aeadOpen (encKey P s.master) s.iv (s.sealed P) s.aad = some s.plaintext := by
  rw [sealed_gcm h]
  exact P.aeadOpen_aeadSeal _ _ _ _ (length_iv_gcm h) (s.fits h)

theorem overhead_le_sealed (h : s.cipher.mode = .gcm) : overhead ≤ (s.sealed P).length := by
  rw [sealed_gcm h, P.length_aeadSeal]
  omega

theorem framed (h : s.cipher.mode = .cbc) :
    Framed s.version (Base64.std.encode (s.sealed P)) (Base64.std.encode s.iv) s.iv (s.sealed P) s.aad :=
  ⟨decode_encode _, decode_encode _, length_iv_cbc h, s.aad.property, s.legacy⟩

theorem payload_safe : (s.payload P).Safe := by
  cases hmode : s.cipher.mode with
  | cbc =>
    simp only [Payload.Safe, payload, hmode, jsonSafeBase64_encode, true_and]
    rfl
  | gcm =>
    simp only [Payload.Safe, payload, hmode, jsonSafeBase64_encode, true_and, and_true]
    rfl

theorem Made.eq {text : Bytes} (h : s.Made P text) :
    text = v1Sentinel ++ serializePayload (s.payload P) := by
  obtain ⟨hversion, d, previousKeys, v0Disabled, rand, hd, hrand, hcall⟩ := h
  obtain ⟨-, rfl⟩ := newAESDriver_ok hd
  have hcipher := newCipher_encKey (P := P) s.length_master
  have hcall' : (AESDriver.mk (encKey P s.master) (macKey P s.master) previousKeys s.cipher
      s.cipher.keySize v0Disabled).encryptBytesWithAAD P rand s.plaintext s.aad = .ok text := by
    rcases hcall with hcall | ⟨haad, hcall⟩
    · exact hcall
    · rw [haad]
      exact hcall
  cases hmode : s.cipher.mode with
  | cbc =>
    have hiv : rand blockSize = some s.iv := by simpa only [ivSize, hmode] using hrand
    have hblocks : ¬(s.iv.length ≠ blockSize ∨
        (pkcs7Pad s.plaintext blockSize).length % blockSize ≠ 0) := by
      rw [length_pkcs7Pad]
      simp [length_iv_cbc hmode]
    simp only [encryptBytesWithAAD, hmode, encryptCBC, hcipher, hiv, cbcEncrypt,
      if_neg hblocks] at hcall'
    have htext := ok.inj hcall'
    rw [← htext, payload, hmode]
    simp only [computeMACWithAAD_eq (std.encode (s.sealed P)) (std.encode s.iv),
      ← sealed_cbc hmode, macInput, hversion]
  | gcm =>
    have hiv : rand nonceSize = some s.iv := by simpa only [ivSize, hmode] using hrand
    have hfits : ¬(s.iv.length ≠ nonceSize ∨ maxMessage < s.plaintext.length) := by
      have hle := s.fits hmode
      have hlen := length_iv_gcm hmode
      omega
    simp only [encryptBytesWithAAD, hmode, encryptGCMWithAAD, hcipher, hiv, gcmSeal,
      if_neg hfits] at hcall'
    have htext := ok.inj hcall'
    rw [← htext, payload, hmode]
    simp only [← sealed_gcm hmode]

end Sealing

section Attempt

variable {rejected malformed : Err} {mode : Mode} {version : Version} {aad : Bytes} {p : Payload}
  {master : Bytes} {cipher : Cipher}

theorem attempt_ne_panic :
    attempt P rejected malformed mode version aad p master ≠ .error .panic := by
  intro h
  cases mode with
  | cbc =>
    rcases decryptCBCWithKey_cases p (encKey P master) (macKey P master) version aad with
      hfail | ⟨iv, ct, t, -, -, -, -, -, -, hok⟩
    · exact absurd (hfail.symm.trans h) (by simp [fail])
    · exact absurd (hok.symm.trans h) (by simp)
  | gcm =>
    rcases decryptGCM_cases rejected malformed p (encKey P master) aad with
      ⟨e, hfail⟩ | ⟨nonce, value, tag, t, -, -, -, -, -, hok⟩
    · exact absurd (hfail.symm.trans h) (by simp [fail])
    · exact absurd (hok.symm.trans h) (by simp)

theorem attempt_ok (haad : aad.length < 2 ^ 63) {t : Bytes}
    (h : attempt P rejected malformed mode version aad p master = .ok t) :
    ∃ c, checked mode version aad p master = some c ∧ c.verifies P = true ∧
      ∀ s : Sealing, s.tagged P = c →
        s.master = master ∧ s.aad.val = aad ∧ s.CarriedBy P p ∧ s.plaintext = t := by
  cases mode with
  | cbc =>
    rcases decryptCBCWithKey_cases p (encKey P master) (macKey P master) version aad with
      hfail | ⟨iv, ct, t', hiv, hct, hlegacy, hmac, hlen, hunpad, hok⟩
    · exact absurd (hfail.symm.trans h) (by simp [fail])
    have ht : t' = t := ok.inj (hok.symm.trans h)
    subst ht
    refine ⟨⟨master, .mac (macInput version p.value p.iv iv ct aad), .mac p.mac⟩, ?_, ?_, ?_⟩
    · simp [checked, hiv, hct]
    · simp [Tagged.verifies, hmac]
    intro s hs
    cases hmode : s.cipher.mode with
    | gcm => simp [Sealing.tagged, hmode] at hs
    | cbc =>
      simp only [Sealing.tagged, hmode, Tagged.mk.injEq, Input.mac.injEq] at hs
      obtain ⟨hmaster, hinput, -⟩ := hs
      obtain ⟨haad', hiv', hct'⟩ := macInput_injective (s.framed hmode) ⟨hct, hiv, hlen, haad, hlegacy⟩
        hinput
      have hplain := s.unpad_unchain (P := P) hmode
      rw [hmaster, hiv', hct', hunpad] at hplain
      refine ⟨hmaster, haad', ⟨?_, ct, hct, ?_⟩, (some.inj hplain).symm⟩
      · rw [hiv', hiv]
      · simp only [hmode, Sealing.ciphertext, hct']
  | gcm =>
    rcases decryptGCM_cases rejected malformed p (encKey P master) aad with
      ⟨e, hfail⟩ | ⟨nonce, value, tag, t', hnonce, hvalue, htag, hlen, hopen, hok⟩
    · exact absurd (hfail.symm.trans h) (by simp [fail])
    have ht : t' = t := ok.inj (hok.symm.trans h)
    subst ht
    refine ⟨⟨master, .gcm nonce ((value ++ tag).take ((value ++ tag).length - overhead)) aad,
      .gcm ((value ++ tag).drop ((value ++ tag).length - overhead))⟩, ?_, ?_, ?_⟩
    · simp [checked, hnonce, hvalue, htag]
    · simp only [Tagged.verifies, take_append_drop, hopen, isSome_some]
    intro s hs
    cases hmode : s.cipher.mode with
    | cbc => simp [Sealing.tagged, hmode] at hs
    | gcm =>
      simp only [Sealing.tagged, hmode, Tagged.mk.injEq, Input.gcm.injEq, Tag.gcm.injEq] at hs
      obtain ⟨hmaster, ⟨hiv, htake, haad'⟩, hdrop⟩ := hs
      have hsealed : s.sealed P = value ++ tag := by
        rw [← take_append_drop ((s.sealed P).length - overhead) (s.sealed P), htake, hdrop,
          take_append_drop]
      have hplain := s.open_sealed (P := P) hmode
      rw [hmaster, hiv, hsealed, haad', hopen] at hplain
      refine ⟨hmaster, haad', ⟨?_, value, hvalue, ?_⟩, (some.inj hplain).symm⟩
      · rw [hiv, hnonce]
      · simp only [hmode]
        exact ⟨tag, htag, hsealed.symm⟩

variable {s : Sealing}

theorem decryptGCM_payload (hmode : s.cipher.mode = .gcm)
    (hmaster : master.length = cipher.keySize) :
    decryptGCM P rejected malformed (s.payload P) (encKey P master) aad =
      match P.aeadOpen (encKey P master) s.iv (s.sealed P) aad with
      | some t => .ok t
      | none => fail rejected := by
  have hiv : std.decode (s.payload P).iv = some s.iv := by
    simp only [Sealing.payload, hmode, decode_encode]
  have hvalue : std.decode (s.payload P).value =
      some ((s.sealed P).take ((s.sealed P).length - overhead)) := by
    simp only [Sealing.payload, hmode, decode_encode]
  have htag : std.decode (s.payload P).tag =
      some ((s.sealed P).drop ((s.sealed P).length - overhead)) := by
    simp only [Sealing.payload, hmode, decode_encode]
  have hwhole := take_append_drop ((s.sealed P).length - overhead) (s.sealed P)
  have hshort := s.overhead_le_sealed (P := P) hmode
  have hopen : decryptGCM P rejected malformed (s.payload P) (encKey P master) aad = _ :=
    decryptGCM_eq hiv hvalue htag (newCipher_encKey hmaster) (s.length_iv_gcm hmode)
      (by rw [hwhole]; exact hshort)
  rw [hwhole] at hopen
  exact hopen

theorem attempt_payload_cases (hrejected : rejected ≠ .invalidPayload) (hmode : s.cipher.mode = mode)
    (hmaster : master.length = cipher.keySize) :
    (∃ t, attempt P rejected malformed mode .v1 aad (s.payload P) master = .ok t) ∨
      ∃ e, e ≠ .invalidPayload ∧
        attempt P rejected malformed mode .v1 aad (s.payload P) master = fail e := by
  cases mode with
  | cbc =>
    rcases decryptCBCWithKey_cases (s.payload P) (encKey P master) (macKey P master) .v1 aad
      with hfail | ⟨iv, ct, t, -, -, -, -, -, -, hok⟩
    · exact .inr ⟨.decrypt, by decide, hfail⟩
    · exact .inl ⟨t, hok⟩
  | gcm =>
    simp only [attempt, decryptGCM_payload hmode hmaster]
    cases P.aeadOpen (encKey P master) s.iv (s.sealed P) aad with
    | none => exact .inr ⟨rejected, hrejected, rfl⟩
    | some t => exact .inl ⟨t, rfl⟩

theorem attempt_payload (hversion : s.version = .v1) :
    attempt P rejected malformed s.cipher.mode .v1 s.aad (s.payload P) s.master = .ok s.plaintext := by
  cases hmode : s.cipher.mode with
  | cbc =>
    have hlen := s.length_sealed_cbc (P := P) hmode
    have hmac : (s.payload P).mac = std.encode (P.hmac (macKey P s.master)
        (macInput .v1 (s.payload P).value (s.payload P).iv s.iv (s.sealed P) s.aad)) := by
      simp only [Sealing.payload, hmode, Sealing.macInput, hversion]
    have hmissing : (s.payload P).mac ≠ [] := by
      intro he
      rw [hmac] at he
      have hnil := congrArg length (encode_eq_nil he)
      rw [P.length_hmac] at hnil
      cases hnil
    have hframed : Framed .v1 (s.payload P).value (s.payload P).iv s.iv (s.sealed P) s.aad := by
      have hf := s.framed (P := P) hmode
      rw [hversion] at hf
      simpa only [Sealing.payload, hmode] using hf
    apply decryptCBCWithKey_eq hframed hmissing hmac (newCipher_encKey s.length_master)
    · rw [hlen]
      simp
    · rw [hlen]
      exact Nat.mul_mod_right _ _
    · exact s.unpad_unchain hmode
  | gcm =>
    simp only [attempt, decryptGCM_payload hmode s.length_master, s.open_sealed hmode]

end Attempt

theorem checked_payload {s : Sealing} {mode : Mode} (hmode : s.cipher.mode = mode) {version : Version}
    {aad master : Bytes} (h : checked mode version aad (s.payload P) master = some c) :
    (s.tagged P).tag = c.tag := by
  cases mode with
  | cbc | gcm =>
    simp only [checked, Sealing.payload, hmode, decode_encode, bind_eq_bind, bind_some, some.injEq,
      take_append_drop] at h
    rw [← h, Sealing.tagged, hmode]

def Refused (r : Outcome Bytes) : Prop := ∃ e, r = fail e

/-- An error, or the plaintext of a call under one of the keys whose vector and ciphertext it
carries. -/
def Authentic (P : Primitives) (L : List Sealing) (masters : List Bytes) (text aad : Bytes)
    (r : Outcome Bytes) : Prop :=
  Refused r ∨ ∃ s ∈ L, ∃ p, decodeEnvelope (splitVersion text).2 = some p ∧ s.master ∈ masters ∧
    s.aad.val = aad ∧ s.CarriedBy P p ∧ r = .ok s.plaintext

section Keys

variable {L : List Sealing} {key : Bytes} {previousKeys : List Bytes} {cipher : Cipher}
  {v0Disabled : Bool} {d : AESDriver} {rejected malformed : Err} {version : Version} {aad : Slice}
  {p : Payload} {text : Bytes} (f : Bytes → Bytes → Outcome Bytes) (stop : Bool) (failed : Err)

theorem tryKeys_authentic (hd : newAESDriver P key previousKeys cipher v0Disabled = .ok d)
    (hp : decodeEnvelope (splitVersion text).2 = some p)
    (hf : ∀ m, f (encKey P m) (macKey P m) = attempt P rejected malformed cipher.mode version aad p m)
    (hbound : ∀ m ∈ key :: previousKeys, ∀ c,
      checked cipher.mode version aad p m = some c → Bound P L c) :
    Authentic P L (key :: previousKeys) text aad (d.tryKeys P f stop failed) := by
  rcases tryKeys_cases hd fun m _ => (hf m).trans_ne attempt_ne_panic with hfail | ⟨m, hm, t, hok, hres⟩
  · exact .inl hfail
  · rw [hf] at hok
    obtain ⟨c, hc, hverifies, hsealed⟩ := attempt_ok aad.property hok
    obtain ⟨⟨s, hs, htag⟩, honly⟩ := hbound m hm c hc hverifies
    obtain ⟨hmaster, haad, hcarried, hplain⟩ := hsealed s (honly s hs htag)
    refine .inr ⟨s, hs, p, hp, ?_, haad, hcarried, ?_⟩
    · rw [hmaster]
      exact hm
    · rw [hplain]
      exact hres

theorem tryKeys_payload (hd : newAESDriver P key previousKeys cipher v0Disabled = .ok d)
    {s : Sealing} (hs : s ∈ L) (hversion : s.version = .v1) (hcipher : s.cipher = cipher)
    (hmaster : s.master ∈ key :: previousKeys) (hrejected : rejected ≠ .invalidPayload)
    (hf : ∀ m, f (encKey P m) (macKey P m) =
      attempt P rejected malformed cipher.mode .v1 aad (s.payload P) m)
    (hbound : ∀ m ∈ key :: previousKeys, ∀ c,
      checked cipher.mode .v1 aad (s.payload P) m = some c → Bound P L c) :
    if aad = s.aad then d.tryKeys P f stop failed = .ok s.plaintext
    else Refused (d.tryKeys P f stop failed) := by
  have hmode : s.cipher.mode = cipher.mode := congrArg mode hcipher
  -- an attempt that succeeds has verified the tag of the call, so it is on the call's input
  have honly : ∀ m ∈ key :: previousKeys, ∀ t, f (encKey P m) (macKey P m) = .ok t →
      s.aad = aad ∧ s.plaintext = t := by
    intro m hm t hok
    rw [hf] at hok
    obtain ⟨c, hc, hverifies, hsealed⟩ := attempt_ok aad.property hok
    have heq := (hbound m hm c hc hverifies).2 s hs (checked_payload hmode hc)
    obtain ⟨-, haad, -, hplain⟩ := hsealed s heq
    exact ⟨Subtype.ext haad, hplain⟩
  split
  case isTrue haad =>
    apply tryKeys_ok hd
    · refine ⟨s.master, hmaster, ?_⟩
      rw [hf, haad, ← hmode]
      exact attempt_payload hversion
    · intro m hm
      have hlen := (newAESDriver_ok hd).1 m hm
      have hcases := hf m ▸ attempt_payload_cases hrejected hmode hlen
      rcases hcases with ⟨t, hok⟩ | hfail
      · rw [(honly m hm t hok).2]
        exact .inl hok
      · exact .inr hfail
  case isFalse haad =>
    rcases tryKeys_cases hd fun m _ => (hf m).trans_ne attempt_ne_panic with hfail | ⟨m, hm, t, hok, -⟩
    · exact hfail
    · exact absurd (honly m hm t hok).1.symm haad

end Keys

section Decrypt

variable {L : List Sealing} {key : Bytes} {previousKeys : List Bytes} {cipher : Cipher}
  {v0Disabled : Bool} {d : AESDriver} {text : Bytes} {aad : Slice}

theorem bound_of_checks {masters : List Bytes} {mode : Mode} {aad : Bytes} {p : Payload}
    (hbound : ∀ c ∈ checks masters mode text aad, Bound P L c)
    (hp : decodeEnvelope (splitVersion text).2 = some p) {m : Bytes} (hm : m ∈ masters)
    (hc : checked mode (splitVersion text).1 [] p m = some c ∨ checked mode .v1 aad p m = some c) :
    Bound P L c := by
  apply hbound
  rw [checks, hp]
  rcases hc with hc | hc
  · exact mem_append_left _ (mem_filterMap.mpr ⟨m, hm, hc⟩)
  · exact mem_append_right _ (mem_filterMap.mpr ⟨m, hm, hc⟩)

def noAAD : Slice := ⟨[], by decide⟩

variable {s : Sealing}

theorem made_decodes (h : s.Made P text) :
    text ≠ [] ∧ splitVersion text = (.v1, serializePayload (s.payload P)) ∧
      decodeEnvelope (serializePayload (s.payload P)) = some (s.payload P) := by
  rw [h.eq]
  refine ⟨?_, rfl, decodeEnvelope_serializePayload s.payload_safe⟩
  simp [v1Sentinel, ascii]

section Driver

variable (hd : newAESDriver P key previousKeys cipher v0Disabled = .ok d)

include hd

theorem decryptWithKeys_eq (p : Payload) (version : Version) (m : Bytes) :
    d.decryptWithKeys P p (encKey P m) (macKey P m) version =
      attempt P .decrypt .decrypt cipher.mode version [] p m := by
  obtain ⟨-, rfl⟩ := newAESDriver_ok hd
  cases hmode : cipher.mode with
  | cbc => simp only [decryptWithKeys, hmode, attempt]
  | gcm => simp only [decryptWithKeys, hmode, attempt, decryptGCMWithKey]

theorem decryptWithKeysAAD_eq (p : Payload) (aad m : Bytes) :
    d.decryptWithKeysAAD P p (encKey P m) (macKey P m) aad =
      attempt P .cause .invalidPayload cipher.mode .v1 aad p m := by
  obtain ⟨-, rfl⟩ := newAESDriver_ok hd
  cases hmode : cipher.mode with
  | cbc => simp only [decryptWithKeysAAD, hmode, attempt]
  | gcm => simp only [decryptWithKeysAAD, hmode, attempt, decryptGCMWithAAD]

variable (hbound : ∀ c ∈ checks (key :: previousKeys) cipher.mode text aad, Bound P L c)

include hbound

theorem decryptBytes_authentic :
    Authentic P L (key :: previousKeys) text [] (d.decryptBytes P text) := by
  rw [decryptBytes]
  split
  · exact .inl ⟨_, rfl⟩
  simp only
  split
  · exact .inl ⟨_, rfl⟩
  cases hp : decodeEnvelope (splitVersion text).2 with
  | none => exact .inl ⟨_, rfl⟩
  | some p =>
    show Authentic P L (key :: previousKeys) text noAAD _
    exact tryKeys_authentic (fun ek hk => d.decryptWithKeys P p ek hk (splitVersion text).1)
      false .decrypt hd hp (decryptWithKeys_eq hd p _)
      fun m hm c hc => bound_of_checks hbound hp hm (.inl hc)

theorem decryptBytesWithAAD_authentic :
    Authentic P L (key :: previousKeys) text aad (d.decryptBytesWithAAD P text aad) := by
  rw [decryptBytesWithAAD]
  split
  · exact .inl ⟨_, rfl⟩
  simp only
  split
  · exact .inl ⟨_, rfl⟩
  cases hp : decodeEnvelope (splitVersion text).2 with
  | none => exact .inl ⟨_, rfl⟩
  | some p =>
    exact tryKeys_authentic (fun ek hk => d.decryptWithKeysAAD P p ek hk aad) true .aadMismatch hd hp
      (decryptWithKeysAAD_eq hd p aad) fun m hm c hc => bound_of_checks hbound hp hm (.inr hc)

variable (hs : s ∈ L) (hmade : s.Made P text) (hcipher : s.cipher = cipher)
  (hmaster : s.master ∈ key :: previousKeys)

include hs hmade hcipher hmaster

theorem decryptBytes_made : if s.aad.val = [] then d.decryptBytes P text = .ok s.plaintext
    else Refused (d.decryptBytes P text) := by
  obtain ⟨hne, hsplit, hp⟩ := made_decodes hmade
  have hres := tryKeys_payload (fun ek hk => d.decryptWithKeys P (s.payload P) ek hk .v1) false .decrypt
    hd hs hmade.1 hcipher hmaster (by decide) (decryptWithKeys_eq hd (s.payload P) .v1)
    fun m hm c (hc : checked _ _ noAAD _ _ = _) =>
      bound_of_checks hbound (by rw [hsplit, hp]) hm (.inl (by rw [hsplit]; exact hc))
  have hrun : d.decryptBytes P text = d.tryKeys P
      (fun ek hk => d.decryptWithKeys P (s.payload P) ek hk .v1) false .decrypt := by
    simp only [decryptBytes, if_neg hne, hsplit, reduceCtorEq, false_and, if_false, hp]
  have hnil : noAAD = s.aad ↔ s.aad.val = [] := by
    rw [Subtype.ext_iff]
    exact eq_comm
  rw [hrun]
  simpa only [hnil] using hres

theorem decryptBytesWithAAD_made :
    if aad = s.aad then d.decryptBytesWithAAD P text aad = .ok s.plaintext
    else Refused (d.decryptBytesWithAAD P text aad) := by
  obtain ⟨hne, hsplit, hp⟩ := made_decodes hmade
  have hres := tryKeys_payload (fun ek hk => d.decryptWithKeysAAD P (s.payload P) ek hk aad) true
    .aadMismatch hd hs hmade.1 hcipher hmaster (by decide) (decryptWithKeysAAD_eq hd (s.payload P) aad)
    fun m hm c hc => bound_of_checks hbound (by rw [hsplit, hp]) hm (.inr hc)
  have hrun : d.decryptBytesWithAAD P text aad = d.tryKeys P
      (fun ek hk => d.decryptWithKeysAAD P (s.payload P) ek hk aad) true .aadMismatch := by
    simp only [decryptBytesWithAAD, if_neg hne, hsplit, ne_eq, not_true_eq_false, if_false, hp]
  rw [hrun]
  exact hres

end Driver

/-- Sealed texts decrypt with their own additional data and no other, and what comes out was sealed.
-/
theorem envelopes_authentic (hd : newAESDriver P key previousKeys cipher v0Disabled = .ok d)
    (hbound : ∀ c ∈ checks (key :: previousKeys) cipher.mode text aad, Bound P L c) :
    (∀ s ∈ L, s.Made P text → s.cipher = cipher → s.master ∈ key :: previousKeys →
      (if s.aad.val = [] then d.decryptBytes P text = .ok s.plaintext
        else Refused (d.decryptBytes P text)) ∧
      (if aad = s.aad then d.decryptBytesWithAAD P text aad = .ok s.plaintext
        else Refused (d.decryptBytesWithAAD P text aad))) ∧
    Authentic P L (key :: previousKeys) text [] (d.decryptBytes P text) ∧
    Authentic P L (key :: previousKeys) text aad (d.decryptBytesWithAAD P text aad) := by
  refine ⟨?_, decryptBytes_authentic hd hbound, decryptBytesWithAAD_authentic hd hbound⟩
  intro s hs hmade hcipher hmaster
  exact ⟨decryptBytes_made hd hbound hs hmade hcipher hmaster,
    decryptBytesWithAAD_made hd hbound hs hmade hcipher hmaster⟩

end Decrypt

def checksum (s : Bytes) : Nat := s.foldl (fun h b => (h * 257 + b.val + 1) % (2 ^ 61 - 1)) 7

def tagged (key nonce plaintext aad : Bytes) : Bytes :=
  plaintext ++ (List.replicate 8 0 ++ be64 (checksum (key ++ nonce ++ plaintext ++ aad)))

/-- Primitives that hide nothing: a checksum for the tags, the plaintext for the ciphertext. -/
def checksums : Primitives where
  hkdf secret _ info n := (secret ++ info ++ List.replicate n 0).take n
  length_hkdf secret salt info n := by
    simp only [List.length_take, List.length_append, List.length_replicate]
    omega
  hmac key input := List.replicate 24 0 ++ be64 (checksum (key ++ input))
  length_hmac key input := rfl
  aes _ := ⟨id, id, fun _ h => h, fun _ _ => rfl⟩
  aeadSeal := tagged
  length_aeadSeal key nonce plaintext aad := by
    rw [tagged, List.length_append]
    rfl
  aeadOpen key nonce ciphertext aad :=
    let plaintext := ciphertext.take (ciphertext.length - 16)
    if ciphertext = tagged key nonce plaintext aad then some plaintext else none
  aeadOpen_aeadSeal key nonce plaintext aad _ _ := by
    have htake : (tagged key nonce plaintext aad).take
        ((tagged key nonce plaintext aad).length - 16) = plaintext := by
      rw [tagged, List.length_append]
      exact List.take_left
    simp only [htake, if_true]

def rotatedOut : Sealing where
  version := .v1
  cipher := ⟨.aes128, .cbc⟩
  master := ascii "0123456789abcdef"
  plaintext := ascii "job"
  aad := ⟨ascii "queue", by decide⟩
  iv := ascii "fedcba9876543210"
  length_master := rfl
  length_iv := rfl
  fits := by decide
  legacy := by decide

def rotatedText : Bytes := v1Sentinel ++ serializePayload (rotatedOut.payload checksums)

instance (P : Primitives) (L : List Sealing) (c : Tagged) : Decidable (Bound P L c) :=
  inferInstanceAs (Decidable (c.verifies P = true → (∃ s ∈ L, (s.tagged P).tag = c.tag) ∧
    ∀ s ∈ L, (s.tagged P).tag = c.tag → s.tagged P = c))

def newKey : Bytes := ascii "ABCDEFGHIJKLMNOP"

def afterRotation : AESDriver :=
  ⟨encKey checksums newKey, macKey checksums newKey, [rotatedOut.master], rotatedOut.cipher, 16, false⟩

theorem rotatedOut_made : rotatedOut.Made checksums rotatedText := by
  refine ⟨rfl, ⟨encKey checksums rotatedOut.master, macKey checksums rotatedOut.master, [],
    rotatedOut.cipher, 16, false⟩, [], false, fun _ => some rotatedOut.iv, ?_, rfl, .inl ?_⟩
  · rfl
  · rfl

theorem envelopes_authentic_rotated :
    newAESDriver checksums newKey [rotatedOut.master] rotatedOut.cipher false = .ok afterRotation ∧
      (∀ c ∈ checks [newKey, rotatedOut.master] .cbc rotatedText rotatedOut.aad,
        Bound checksums [rotatedOut] c) ∧
      afterRotation.decryptBytesWithAAD checksums rotatedText rotatedOut.aad = .ok (Bytes.ascii "job") ∧
      Refused (afterRotation.decryptBytes checksums rotatedText) := by
  have hd : newAESDriver checksums newKey [rotatedOut.master] rotatedOut.cipher false =
      .ok afterRotation := rfl
  have hbound : ∀ c ∈ checks [newKey, rotatedOut.master] .cbc rotatedText rotatedOut.aad,
      Bound checksums [rotatedOut] c := by decide +kernel
  have h := (envelopes_authentic hd hbound).1 rotatedOut mem_cons_self rotatedOut_made rfl
    (mem_cons_of_mem _ mem_cons_self)
  exact ⟨hd, hbound, h.2, h.1⟩

end Crypto
