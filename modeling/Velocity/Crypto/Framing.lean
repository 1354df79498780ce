import Velocity.Crypto.Driver

/-! The three inputs a CBC payload is authenticated over, of version 0, of version 1 and with
additional data: none is of two kinds, and each gives back what it was built from. And what the
decrypters of one key can do. -/

namespace Crypto

open List Base64 Byte
open Bytes (ascii)

def macInput (version : Version) (valueB64 ivB64 iv ct aad : Bytes) : Bytes :=
  match version with
  | .v0 => ascii "base64:" ++ valueB64 ++ ascii "." ++ ivB64
  | .v1 =>
    if aad = [] then macDomainPrefix ++ iv ++ ct
    else macAADDomainPrefix ++ be64 aad.length ++ aad ++ iv ++ ct

theorem be64_injective {m n : Nat} (hm : m < 2 ^ 64) (hn : n < 2 ^ 64) (h : be64 m = be64 n) :
    m = n := by
  simp only [be64, cons.injEq, Fin.ext_iff, Fin.val_ofNat, and_true] at h
  omega

theorem length_be64 (n : Nat) : (be64 n).length = 8 := rfl

variable {t v i v' i' iv ct aad : Bytes} {version : Version}

theorem stop_notMem_of_decode {s : Bytes} (h : std.decode s = some t) : of '.' ∉ s := by
  intro hmem
  have hstop : ¬(isBreak (of '.') = true ∨ of '.' = pad ∨
      (std.value (of '.')).isSome = true) := by decide
  exact hstop (mem_of_decode h hmem)

theorem legacy_injective (hv : of '.' ∉ v) (hv' : of '.' ∉ v')
    (h : ascii "base64:" ++ v ++ ascii "." ++ i =
      ascii "base64:" ++ v' ++ ascii "." ++ i') : v = v' ∧ i = i' := by
  have hstop : ascii "." = [of '.'] := rfl
  simp only [append_assoc, hstop, append_cancel_left_eq] at h
  have hcut := Bytes.cut_append hv i
  rw [show v ++ of '.' :: i = v' ++ of '.' :: i' from h, Bytes.cut_append hv' i'] at hcut
  exact ⟨(congrArg Prod.fst hcut).symm, (congrArg Prod.snd hcut).symm⟩

/-- Known of a payload whose tag and lengths were checked, and of every sealed one. -/
structure Framed (version : Version) (valueB64 ivB64 iv ct aad : Bytes) : Prop where
  decode_value : Base64.std.decode valueB64 = some ct
  decode_iv : Base64.std.decode ivB64 = some iv
  length_iv : iv.length = blockSize
  length_aad : aad.length < 2 ^ 63
  legacy : version = .v0 → aad = []

def kindOf (input : Bytes) : Version × Bool :=
  if input.head? = some (Byte.of 'b') then (.v0, false)
  else (.v1, input[8]? = some (Byte.of '-'))

theorem kindOf_macInput :
    kindOf (macInput version v i iv ct aad) = (version, decide (version = .v1 ∧ aad ≠ [])) := by
  cases version with
  | v0 => rfl
  | v1 =>
    by_cases haad : aad = []
    · simp only [macInput, haad, if_true]
      rfl
    · simp only [macInput, haad, if_false, ne_eq, not_false_eq_true, and_self, decide_true]
      rfl

theorem macInput_injective {version' : Version} {iv' ct' aad' : Bytes}
    (hf : Framed version v i iv ct aad) (hf' : Framed version' v' i' iv' ct' aad')
    (h : macInput version v i iv ct aad = macInput version' v' i' iv' ct' aad') :
    aad = aad' ∧ iv = iv' ∧ ct = ct' := by
  have hkind := congrArg kindOf h
  rw [kindOf_macInput, kindOf_macInput, Prod.mk.injEq, decide_eq_decide] at hkind
  obtain ⟨rfl, hnil⟩ := hkind
  cases version with
  | v0 =>
    obtain ⟨rfl, rfl⟩ := legacy_injective (stop_notMem_of_decode hf.decode_value)
      (stop_notMem_of_decode hf'.decode_value) h
    have hiv := hf.decode_iv.symm.trans hf'.decode_iv
    have hct := hf.decode_value.symm.trans hf'.decode_value
    rw [hf.legacy rfl, hf'.legacy rfl]
    exact ⟨rfl, Option.some.inj hiv, Option.some.inj hct⟩
  | v1 =>
    simp only [true_and, not_iff_not, ne_eq] at hnil
    have hlen : iv.length = iv'.length := hf.length_iv.trans hf'.length_iv.symm
    by_cases haad : aad = []
    · have haad' := hnil.mp haad
      simp only [macInput, haad, haad', if_true, append_assoc, append_cancel_left_eq] at h
      obtain ⟨hiv, hct⟩ := append_inj h hlen
      exact ⟨haad.trans haad'.symm, hiv, hct⟩
    · have haad' : ¬aad' = [] := fun he => haad (hnil.mpr he)
      simp only [macInput, haad, haad', if_false, append_assoc, append_cancel_left_eq] at h
      -- the length of the additional data stands before it, so it ends at the same byte
      obtain ⟨hframe, hrest⟩ := append_inj h (by rw [length_be64, length_be64])
      have ha := hf.length_aad
      have ha' := hf'.length_aad
      have hsame := be64_injective (by omega) (by omega) hframe
      obtain ⟨heq, hrest⟩ := append_inj hrest hsame
      obtain ⟨hiv, hct⟩ := append_inj hrest hlen
      exact ⟨heq, hiv, hct⟩

variable {P : Primitives} {p : Payload}

theorem computeMACWithAAD_eq (v i iv ct aad key : Bytes) :
    computeMACWithAAD P iv ct aad key = std.encode (P.hmac key (macInput .v1 v i iv ct aad)) := by
  simp only [computeMACWithAAD, computeMACWith, macInput, length_eq_zero_iff]
  split <;> rfl

theorem expectedMAC_eq (p : Payload) (iv ct aad key : Bytes) (version : Version) :
    expectedMAC P p iv ct aad key version =
      std.encode (P.hmac key (macInput version p.value p.iv iv ct aad)) := by
  cases version with
  | v0 => rfl
  | v1 => exact computeMACWithAAD_eq _ _ iv ct aad key

theorem cbcPlaintext_cases (encKey : Bytes) (hiv : iv.length = blockSize)
    (hct : ct.length % blockSize = 0) : cbcPlaintext P encKey iv ct = fail .decrypt ∨
      ∃ t, pkcs7Unpad ((P.aes encKey).unchain (ct.length / blockSize) iv ct) = some t ∧
        cbcPlaintext P encKey iv ct = .ok t := by
  have hcbc : ∀ block : BlockCipher blockSize, cbcDecrypt block iv ct =
      .ok (block.unchain (ct.length / blockSize) iv ct) := by
    intro block
    rw [cbcDecrypt, if_neg (by simp [hiv, hct])]
  rw [cbcPlaintext, newCipher]
  split
  · exact .inl rfl
  · rename_i block hblock
    have hblock' : P.aes encKey = block := by
      split at hblock
      · exact Option.some.inj hblock
      · cases hblock
    rw [hcbc, hblock']
    cases hunpad : pkcs7Unpad (block.unchain (ct.length / blockSize) iv ct) with
    | none => exact .inl (by simp only [hunpad])
    | some t => exact .inr ⟨t, rfl, by simp only [hunpad]⟩

theorem decryptCBCWithKey_eq {encKey hmacKey : Bytes}
    (hf : Framed version p.value p.iv iv ct aad) (hmissing : p.mac ≠ [])
    (hmac : p.mac = std.encode (P.hmac hmacKey (macInput version p.value p.iv iv ct aad)))
    (hcipher : newCipher P encKey = some (P.aes encKey)) (hne : ct.length ≠ 0)
    (hct : ct.length % blockSize = 0)
    (hunpad : pkcs7Unpad ((P.aes encKey).unchain (ct.length / blockSize) iv ct) = some t) :
    decryptCBCWithKey P p encKey hmacKey version aad = .ok t := by
  have hlegacy : ¬(version = .v0 ∧ 0 < aad.length) := by
    rintro ⟨hv, hpos⟩
    rw [hf.legacy hv] at hpos
    exact absurd hpos (by decide)
  have hblocks : ¬(ct.length = 0 ∨ ct.length % blockSize ≠ 0) := by
    simp [hne, hct]
  have hcbc : cbcDecrypt (P.aes encKey) iv ct =
      .ok ((P.aes encKey).unchain (ct.length / blockSize) iv ct) := by
    rw [cbcDecrypt, if_neg (by simp [hf.length_iv, hct])]
  rw [decryptCBCWithKey, if_neg hmissing]
  simp only [hf.decode_iv, hf.decode_value]
  rw [if_neg hlegacy, expectedMAC_eq, if_neg (not_not.mpr hmac), if_neg (not_not.mpr hf.length_iv),
    if_neg hblocks, cbcPlaintext]
  simp only [hcipher, hcbc, hunpad]

theorem decryptCBCWithKey_cases (p : Payload) (encKey hmacKey : Bytes) (version : Version)
    (aad : Bytes) : decryptCBCWithKey P p encKey hmacKey version aad = fail .decrypt ∨
      ∃ iv ct t, std.decode p.iv = some iv ∧ std.decode p.value = some ct ∧
        (version = .v0 → aad = []) ∧
        p.mac = std.encode (P.hmac hmacKey (macInput version p.value p.iv iv ct aad)) ∧
        iv.length = blockSize ∧
        pkcs7Unpad ((P.aes encKey).unchain (ct.length / blockSize) iv ct) = some t ∧
        decryptCBCWithKey P p encKey hmacKey version aad = .ok t := by
  rw [decryptCBCWithKey]
  by_cases hmissing : p.mac = []
  · exact .inl (if_pos hmissing)
  rw [if_neg hmissing]
  cases hiv : std.decode p.iv with
  | none => exact .inl rfl
  | some iv =>
    cases hct : std.decode p.value with
    | none => exact .inl rfl
    | some ct =>
      simp only
      by_cases hlegacy : version = .v0 ∧ 0 < aad.length
      · exact .inl (if_pos hlegacy)
      rw [if_neg hlegacy, expectedMAC_eq]
      by_cases hmac : p.mac = std.encode
          (P.hmac hmacKey (macInput version p.value p.iv iv ct aad))
      case neg => exact .inl (if_pos hmac)
      rw [if_neg (not_not.mpr hmac)]
      by_cases hlen : iv.length = blockSize
      case neg => exact .inl (if_pos hlen)
      rw [if_neg (not_not.mpr hlen)]
      by_cases hblocks : ct.length = 0 ∨ ct.length % blockSize ≠ 0
      · exact .inl (if_pos hblocks)
      rw [if_neg hblocks]
      have hmod : ct.length % blockSize = 0 := by
        by_contra hne
        exact hblocks (.inr hne)
      have haad : version = .v0 → aad = [] := by
        intro hv
        simpa [hv] using hlegacy
      rcases cbcPlaintext_cases encKey hlen hmod with hfail | ⟨t, hunpad, hok⟩
      · exact .inl hfail
      · exact .inr ⟨iv, ct, t, rfl, rfl, haad, hmac, hlen, hunpad, hok⟩

theorem decryptGCM_eq {rejected malformed : Err} {key nonce value tag : Bytes}
    (hnonce : std.decode p.iv = some nonce) (hvalue : std.decode p.value = some value)
    (htag : std.decode p.tag = some tag) (hcipher : newCipher P key = some (P.aes key))
    (hlen : nonce.length = nonceSize) (hshort : overhead ≤ (value ++ tag).length) :
    decryptGCM P rejected malformed p key aad = match P.aeadOpen key nonce (value ++ tag) aad with
      | some t => .ok t
      | none => fail rejected := by
  rw [decryptGCM]
  simp only [hnonce, hvalue, htag, hcipher]
  rw [if_neg (not_not.mpr hlen), if_neg (not_lt.mpr hshort), gcmOpen, if_neg (not_not.mpr hlen)]
  cases P.aeadOpen key nonce (value ++ tag) aad with
  | none => rfl
  | some t => rfl

theorem decryptGCM_cases (rejected malformed : Err) (p : Payload) (key aad : Bytes) :
    (∃ e, decryptGCM P rejected malformed p key aad = fail e) ∨
      ∃ nonce value tag t, std.decode p.iv = some nonce ∧
        std.decode p.value = some value ∧ std.decode p.tag = some tag ∧
        overhead ≤ (value ++ tag).length ∧ P.aeadOpen key nonce (value ++ tag) aad = some t ∧
        decryptGCM P rejected malformed p key aad = .ok t := by
  rw [decryptGCM]
  split
  case _ nonce value tag hnonce hvalue htag =>
    dsimp only
    split
    · exact .inl ⟨_, rfl⟩
    · split
      · exact .inl ⟨_, rfl⟩
      case _ hlen =>
        split
        · exact .inl ⟨_, rfl⟩
        case _ hshort =>
          rw [gcmOpen, if_neg hlen]
          cases hopen : P.aeadOpen key nonce (value ++ tag) aad with
          | none => exact .inl ⟨_, rfl⟩
          | some t =>
            exact .inr ⟨nonce, value, tag, t, hnonce, hvalue, htag, not_lt.mp hshort, hopen, rfl⟩
  case _ => exact .inl ⟨_, rfl⟩

end Crypto
