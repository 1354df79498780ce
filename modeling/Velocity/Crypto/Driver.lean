import Velocity.Lib.BlockChain
import Velocity.Crypto.Envelope

/-! The AES driver (`crypto/drivers/aes.go`): encryption under the primary key, decryption under
the primary and then the previous keys, with and without additional authenticated data. -/

namespace Crypto

open List
open Bytes (ascii)

inductive Mode
  | cbc
  | gcm
deriving DecidableEq

inductive KeyBits
  | aes128
  | aes192
  | aes256
deriving DecidableEq

structure Cipher where
  bits : KeyBits
  mode : Mode
deriving DecidableEq

def Cipher.keySize (c : Cipher) : Nat :=
  match c.bits with
  | .aes128 => 16
  | .aes192 => 24
  | .aes256 => 32

/-- The sentinel errors of the package; `cause` is an error of a library handed on. -/
inductive Err
  | invalidPayload
  | legacyPayloadDisabled
  | decrypt
  | aadMismatch
  | invalidKeyLength
  | invalidPreviousKey (index : Nat)
  | cause
deriving DecidableEq

inductive Fault
  | err (e : Err)
  | panic
deriving DecidableEq

abbrev Outcome := Except Fault

def fail {α : Type} (e : Err) : Outcome α := .error (.err e)

abbrev blockSize : Nat := 16

abbrev nonceSize : Nat := 12

abbrev overhead : Nat := 16

/-- The longest message `Seal` takes. -/
abbrev maxMessage : Nat := (2 ^ 32 - 2) * 16

structure Primitives where
  hkdf : Bytes → Bytes → Bytes → Nat → Bytes
  length_hkdf : ∀ secret salt info n, (hkdf secret salt info n).length = n
  hmac : Bytes → Bytes → Bytes
  length_hmac : ∀ key input, (hmac key input).length = 32
  aes : Bytes → BlockCipher blockSize
  aeadSeal : Bytes → Bytes → Bytes → Bytes → Bytes
  length_aeadSeal : ∀ key nonce plaintext aad,
    (aeadSeal key nonce plaintext aad).length = plaintext.length + overhead
  aeadOpen : Bytes → Bytes → Bytes → Bytes → Option Bytes
  aeadOpen_aeadSeal : ∀ key nonce plaintext aad, nonce.length = nonceSize →
    plaintext.length ≤ maxMessage →
    aeadOpen key nonce (aeadSeal key nonce plaintext aad) aad = some plaintext

structure AESDriver where
  key : Bytes
  hmacKey : Bytes
  previousKeys : List Bytes
  cipher : Cipher
  keySize : Nat
  v0Disabled : Bool

def hkdfSalt : Bytes := ascii "velocity-framework-hkdf-salt-v1"

def encryptionInfo : Bytes := ascii "encryption"

def hmacInfo : Bytes := ascii "hmac"

variable (P : Primitives) {t : Bytes}

/-- The reader of a derived key ends after 255 blocks of the hash. -/
def deriveSubkey (master : Bytes) (size : Nat) (info : Bytes) : Option Bytes :=
  if size ≤ 255 * 32 then some (P.hkdf master hkdfSalt info size) else none

def newAESDriver (key : Bytes) (previousKeys : List Bytes) (cipher : Cipher) (v0Disabled : Bool) :
    Except Err AESDriver :=
  let keySize := cipher.keySize
  if key.length ≠ keySize then .error .invalidKeyLength
  else
    match previousKeys.findIdx? (fun pk => pk.length ≠ keySize) with
    | some i => .error (.invalidPreviousKey i)
    | none =>
      match deriveSubkey P key keySize encryptionInfo, deriveSubkey P key 32 hmacInfo with
      | some encKey, some hmacKey => .ok ⟨encKey, hmacKey, previousKeys, cipher, keySize, v0Disabled⟩
      | _, _ => .error .cause

def newCipher (key : Bytes) : Option (BlockCipher blockSize) :=
  if key.length = 16 ∨ key.length = 24 ∨ key.length = 32 then some (P.aes key) else none

def cbcEncrypt (block : BlockCipher blockSize) (iv plaintext : Bytes) : Outcome Bytes :=
  if iv.length ≠ blockSize ∨ plaintext.length % blockSize ≠ 0 then .error .panic
  else .ok (block.chain (plaintext.length / blockSize) iv plaintext)

def cbcDecrypt (block : BlockCipher blockSize) (iv ciphertext : Bytes) : Outcome Bytes :=
  if iv.length ≠ blockSize ∨ ciphertext.length % blockSize ≠ 0 then .error .panic
  else .ok (block.unchain (ciphertext.length / blockSize) iv ciphertext)

def gcmSeal (key nonce plaintext aad : Bytes) : Outcome Bytes :=
  if nonce.length ≠ nonceSize ∨ maxMessage < plaintext.length then .error .panic
  else .ok (P.aeadSeal key nonce plaintext aad)

def gcmOpen (key nonce ciphertext aad : Bytes) : Outcome Bytes :=
  if nonce.length ≠ nonceSize then .error .panic
  else
    match P.aeadOpen key nonce ciphertext aad with
    | some plaintext => .ok plaintext
    | none => fail .cause

def pkcs7Pad (data : Bytes) (blockSize : Nat) : Bytes :=
  let padding := blockSize - data.length % blockSize
  data ++ List.replicate padding (Fin.ofNat 256 padding)

def pkcs7Unpad (data : Bytes) : Option Bytes :=
  match data.getLast? with
  | none => none
  | some last =>
    let padding := last.val
    if padding = 0 ∨ blockSize < padding ∨ data.length < padding then none
    else if data.drop (data.length - padding) = List.replicate padding last then
      some (data.take (data.length - padding))
    else none

def macDomainPrefix : Bytes := ascii "velocity" ++ [0]

def macAADDomainPrefix : Bytes := ascii "velocity-aad" ++ [0]

def be64 (n : Nat) : Bytes :=
  [Fin.ofNat 256 (n / 2 ^ 56), Fin.ofNat 256 (n / 2 ^ 48), Fin.ofNat 256 (n / 2 ^ 40),
   Fin.ofNat 256 (n / 2 ^ 32), Fin.ofNat 256 (n / 2 ^ 24), Fin.ofNat 256 (n / 2 ^ 16),
   Fin.ofNat 256 (n / 2 ^ 8), Fin.ofNat 256 n]

def computeMACWith (iv ct hmacKey : Bytes) : Bytes :=
  Base64.std.encode (P.hmac hmacKey (macDomainPrefix ++ iv ++ ct))

def computeMACWithAAD (iv ct aad hmacKey : Bytes) : Bytes :=
  if aad.length = 0 then computeMACWith P iv ct hmacKey
  else
    Base64.std.encode
      (P.hmac hmacKey (macAADDomainPrefix ++ be64 aad.length ++ aad ++ iv ++ ct))

def computeLegacyMACWith (valueB64 ivB64 hmacKey : Bytes) : Bytes :=
  Base64.std.encode
    (P.hmac hmacKey (ascii "base64:" ++ valueB64 ++ ascii "." ++ ivB64))

namespace AESDriver

variable (d : AESDriver) (rand : Nat → Option Bytes)

/-- `rand` is what `rand.Reader` fills a slice of that length with. -/
def encryptCBC (plaintext aad : Bytes) : Outcome Bytes :=
  match newCipher P d.key, rand blockSize with
  | some block, some iv => do
    let ciphertext ← cbcEncrypt block iv (pkcs7Pad plaintext blockSize)
    let mac := computeMACWithAAD P iv ciphertext aad d.hmacKey
    .ok (v1Sentinel ++ serializePayload
      { iv := Base64.std.encode iv, value := Base64.std.encode ciphertext, mac := mac })
  | _, _ => fail .cause

def encryptGCMWithAAD (plaintext aad : Bytes) : Outcome Bytes :=
  match newCipher P d.key, rand nonceSize with
  | some _, some nonce => do
    let ciphertext ← gcmSeal P d.key nonce plaintext aad
    let tagStart := ciphertext.length - overhead
    .ok (v1Sentinel ++ serializePayload
      { iv := Base64.std.encode nonce, value := Base64.std.encode (ciphertext.take tagStart),
        tag := Base64.std.encode (ciphertext.drop tagStart) })
  | _, _ => fail .cause

def encryptGCM (plaintext : Bytes) : Outcome Bytes :=
  d.encryptGCMWithAAD P rand plaintext []

def encryptBytes (plaintext : Bytes) : Outcome Bytes :=
  match d.cipher.mode with
  | .gcm => d.encryptGCM P rand plaintext
  | .cbc => d.encryptCBC P rand plaintext []

def encryptBytesWithAAD (plaintext aad : Bytes) : Outcome Bytes :=
  match d.cipher.mode with
  | .gcm => d.encryptGCMWithAAD P rand plaintext aad
  | .cbc => d.encryptCBC P rand plaintext aad

end AESDriver

def expectedMAC (p : Payload) (iv ciphertext aad hmacKey : Bytes) : Version → Bytes
  | .v1 => computeMACWithAAD P iv ciphertext aad hmacKey
  | .v0 => computeLegacyMACWith P p.value p.iv hmacKey

/-- The last part of `decryptCBCWithKey`, behind the checks. -/
def cbcPlaintext (encKey iv ciphertext : Bytes) : Outcome Bytes :=
  match newCipher P encKey with
  | none => fail .decrypt
  | some block =>
    match cbcDecrypt block iv ciphertext with
    | .error f => .error f
    | .ok plaintext =>
      match pkcs7Unpad plaintext with
      | none => fail .decrypt
      | some plaintext => .ok plaintext

def decryptCBCWithKey (p : Payload) (encKey hmacKey : Bytes) (version : Version) (aad : Bytes) :
    Outcome Bytes :=
  if p.mac = [] then fail .decrypt
  else
    match Base64.std.decode p.iv, Base64.std.decode p.value with
    | some iv, some ciphertext =>
      if version = .v0 ∧ 0 < aad.length then fail .decrypt
      else if p.mac ≠ expectedMAC P p iv ciphertext aad hmacKey version then fail .decrypt
      else if iv.length ≠ blockSize then fail .decrypt
      else if ciphertext.length = 0 ∨ ciphertext.length % blockSize ≠ 0 then fail .decrypt
      else cbcPlaintext P encKey iv ciphertext
    | _, _ => fail .decrypt

/-- The GCM decrypters differ in their errors for what does not open and for a wrong nonce. -/
def decryptGCM (rejected malformed : Err) (p : Payload) (key aad : Bytes) : Outcome Bytes :=
  match Base64.std.decode p.iv, Base64.std.decode p.value, Base64.std.decode p.tag with
  | some nonce, some value, some tag =>
    let ciphertext := value ++ tag
    match newCipher P key with
    | none => fail rejected
    | some _ =>
      if nonce.length ≠ nonceSize then fail malformed
      else if ciphertext.length < overhead then fail .invalidPayload
      else
        match gcmOpen P key nonce ciphertext aad with
        | .error (.err _) => fail rejected
        | r => r
  | _, _, _ => fail rejected

def decryptGCMWithKey (p : Payload) (key : Bytes) : Outcome Bytes :=
  decryptGCM P .decrypt .decrypt p key []

def decryptGCMWithAAD (p : Payload) (key aad : Bytes) : Outcome Bytes :=
  decryptGCM P .cause .invalidPayload p key aad

namespace AESDriver

def decryptWithKeys (d : AESDriver) (p : Payload) (encKey hmacKey : Bytes) (version : Version) :
    Outcome Bytes :=
  match d.cipher.mode with
  | .gcm => decryptGCMWithKey P p encKey
  | .cbc => decryptCBCWithKey P p encKey hmacKey version []

def decryptWithKeysAAD (d : AESDriver) (p : Payload) (encKey hmacKey aad : Bytes) : Outcome Bytes :=
  match d.cipher.mode with
  | .gcm => decryptGCMWithAAD P p encKey aad
  | .cbc => decryptCBCWithKey P p encKey hmacKey .v1 aad

/-- The loop over the previous keys; with `stop` a malformed payload ends it. -/
def tryPrevious (d : AESDriver) (attempt : Bytes → Bytes → Outcome Bytes) (stop : Bool)
    (failed : Err) : List Bytes → Outcome Bytes
  | [] => fail failed
  | masterKey :: rest =>
    match deriveSubkey P masterKey d.keySize encryptionInfo, deriveSubkey P masterKey 32 hmacInfo with
    | some encKey, some hk =>
      match attempt encKey hk with
      | .ok plaintext => .ok plaintext
      | .error .panic => .error .panic
      | .error (.err e) =>
        if stop ∧ e = .invalidPayload then fail .invalidPayload
        else tryPrevious d attempt stop failed rest
    | _, _ => tryPrevious d attempt stop failed rest

/-- The primary key first; a malformed payload is not tried again. -/
def tryKeys (d : AESDriver) (attempt : Bytes → Bytes → Outcome Bytes) (stop : Bool) (failed : Err) :
    Outcome Bytes :=
  match attempt d.key d.hmacKey with
  | .ok plaintext => .ok plaintext
  | .error .panic => .error .panic
  | .error (.err e) =>
    if e = .invalidPayload then fail .invalidPayload
    else d.tryPrevious P attempt stop failed d.previousKeys

def decryptBytes (d : AESDriver) (payload : Bytes) : Outcome Bytes :=
  if payload = [] then fail .invalidPayload
  else
    let (version, envelope) := splitVersion payload
    if version = .v0 ∧ d.v0Disabled then fail .legacyPayloadDisabled
    else
      match decodeEnvelope envelope with
      | none => fail .invalidPayload
      | some p =>
        d.tryKeys P (fun encKey hk => d.decryptWithKeys P p encKey hk version) false .decrypt

def decryptBytesWithAAD (d : AESDriver) (payload aad : Bytes) : Outcome Bytes :=
  if payload = [] then fail .invalidPayload
  else
    let (version, envelope) := splitVersion payload
    if version ≠ .v1 then fail .invalidPayload
    else
      match decodeEnvelope envelope with
      | none => fail .invalidPayload
      | some p =>
        d.tryKeys P (fun encKey hk => d.decryptWithKeysAAD P p encKey hk aad) true .aadMismatch

end AESDriver

def encKey (master : Bytes) : Bytes := P.hkdf master hkdfSalt encryptionInfo master.length

def macKey (master : Bytes) : Bytes := P.hkdf master hkdfSalt hmacInfo 32

variable {P}

theorem keySize_le (c : Cipher) : c.keySize ≤ 255 * 32 := by
  unfold Cipher.keySize
  split <;> omega

variable {previousKeys : List Bytes} {cipher : Cipher} {v0Disabled : Bool} {d : AESDriver}
  {key : Bytes}

theorem newAESDriver_ok (h : newAESDriver P key previousKeys cipher v0Disabled = .ok d) :
    (∀ m ∈ key :: previousKeys, m.length = cipher.keySize) ∧
      d = ⟨encKey P key, macKey P key, previousKeys, cipher, cipher.keySize, v0Disabled⟩ := by
  have hsize := keySize_le cipher
  simp only [newAESDriver, deriveSubkey, if_pos hsize, show (32 : Nat) ≤ 255 * 32 by omega, if_true] at h
  split at h
  · cases h
  · rename_i hkey
    have hkey' : key.length = cipher.keySize := not_not.mp hkey
    split at h
    · cases h
    · rename_i hprevious
      have hall := findIdx?_eq_none_iff.mp hprevious
      refine ⟨?_, ?_⟩
      · intro m hm
        rcases mem_cons.mp hm with rfl | hm
        · exact hkey'
        · simpa using hall m hm
      · rw [encKey, hkey']
        exact (Except.ok.inj h).symm

theorem newCipher_encKey {master : Bytes} (h : master.length = cipher.keySize) :
    newCipher P (encKey P master) = some (P.aes (encKey P master)) := by
  have hlen : (encKey P master).length = cipher.keySize := by
    rw [encKey, P.length_hkdf, h]
  have hsizes : cipher.keySize = 16 ∨ cipher.keySize = 24 ∨ cipher.keySize = 32 := by
    unfold Cipher.keySize
    split <;> simp
  rw [newCipher, hlen, if_pos hsizes]

section Keys

variable {attempt : Bytes → Bytes → Outcome Bytes} {stop : Bool} {failed : Err} {ms : List Bytes}

theorem tryPrevious_cons {m : Bytes} {rest : List Bytes} (hsize : d.keySize ≤ 255 * 32)
    (hm : m.length = d.keySize) : d.tryPrevious P attempt stop failed (m :: rest) =
      match attempt (encKey P m) (macKey P m) with
      | .ok plaintext => .ok plaintext
      | .error .panic => .error .panic
      | .error (.err e) =>
        if stop ∧ e = .invalidPayload then fail .invalidPayload
        else d.tryPrevious P attempt stop failed rest := by
  simp only [AESDriver.tryPrevious, deriveSubkey, if_pos hsize, show (32 : Nat) ≤ 255 * 32 by omega,
    if_true, encKey, macKey, hm]

variable (hsize : d.keySize ≤ 255 * 32)

include hsize in
theorem tryPrevious_cases (hms : ∀ m ∈ ms, m.length = d.keySize)
    (hsafe : ∀ m ∈ ms, attempt (encKey P m) (macKey P m) ≠ .error .panic) :
    (∃ e, d.tryPrevious P attempt stop failed ms = fail e) ∨
      ∃ m ∈ ms, ∃ t, attempt (encKey P m) (macKey P m) = .ok t ∧
        d.tryPrevious P attempt stop failed ms = .ok t := by
  induction ms with
  | nil => exact .inl ⟨failed, rfl⟩
  | cons m ms ih =>
    have hrest := ih (fun k hk => hms k (mem_cons_of_mem _ hk))
      fun k hk => hsafe k (mem_cons_of_mem _ hk)
    rw [tryPrevious_cons hsize (hms m mem_cons_self)]
    cases hr : attempt (encKey P m) (macKey P m) with
    | ok t => exact .inr ⟨m, mem_cons_self, t, hr, rfl⟩
    | error f =>
      cases f with
      | panic => exact absurd hr (hsafe m mem_cons_self)
      | err e =>
        simp only
        split
        · exact .inl ⟨.invalidPayload, rfl⟩
        · rcases hrest with hfail | ⟨k, hk, hok⟩
          · exact .inl hfail
          · exact .inr ⟨k, mem_cons_of_mem _ hk, hok⟩

include hsize in
theorem tryPrevious_ok (hms : ∀ m ∈ ms, m.length = d.keySize)
    (hsome : ∃ m ∈ ms, attempt (encKey P m) (macKey P m) = .ok t)
    (hall : ∀ m ∈ ms, attempt (encKey P m) (macKey P m) = .ok t ∨
      ∃ e, e ≠ .invalidPayload ∧ attempt (encKey P m) (macKey P m) = fail e) :
    d.tryPrevious P attempt stop failed ms = .ok t := by
  induction ms with
  | nil =>
    obtain ⟨m, hm, -⟩ := hsome
    cases hm
  | cons m ms ih =>
    rw [tryPrevious_cons hsize (hms m mem_cons_self)]
    rcases hall m mem_cons_self with hok | ⟨e, he, hfail⟩
    · rw [hok]
    · have hnext : ¬(stop = true ∧ e = .invalidPayload) := fun h => he h.2
      rw [hfail]
      simp only [fail, if_neg hnext]
      apply ih (fun k hk => hms k (mem_cons_of_mem _ hk))
      · obtain ⟨k, hk, hok⟩ := hsome
        rcases mem_cons.mp hk with rfl | hk
        · rw [hfail] at hok
          cases hok
        · exact ⟨k, hk, hok⟩
      · exact fun k hk => hall k (mem_cons_of_mem _ hk)

end Keys

variable {attempt : Bytes → Bytes → Outcome Bytes}

theorem tryKeys_cases (h : newAESDriver P key previousKeys cipher v0Disabled = .ok d)
    {stop : Bool} {failed : Err}
    (hsafe : ∀ m ∈ key :: previousKeys, attempt (encKey P m) (macKey P m) ≠ .error .panic) :
    (∃ e, d.tryKeys P attempt stop failed = fail e) ∨
      ∃ m ∈ key :: previousKeys, ∃ t, attempt (encKey P m) (macKey P m) = .ok t ∧
        d.tryKeys P attempt stop failed = .ok t := by
  obtain ⟨hlengths, rfl⟩ := newAESDriver_ok h
  rw [AESDriver.tryKeys]
  cases hr : attempt (encKey P key) (macKey P key) with
  | ok t => exact .inr ⟨key, mem_cons_self, t, hr, rfl⟩
  | error f =>
    cases f with
    | panic => exact absurd hr (hsafe key mem_cons_self)
    | err e =>
      simp only
      split
      · exact .inl ⟨.invalidPayload, rfl⟩
      · refine Or.imp_right ?_ (tryPrevious_cases (by exact keySize_le cipher)
          (fun m hm => hlengths m (mem_cons_of_mem _ hm)) fun m hm => hsafe m (mem_cons_of_mem _ hm))
        rintro ⟨k, hk, hok⟩
        exact ⟨k, mem_cons_of_mem _ hk, hok⟩

theorem tryKeys_ok (h : newAESDriver P key previousKeys cipher v0Disabled = .ok d)
    {stop : Bool} {failed : Err}
    (hsome : ∃ m ∈ key :: previousKeys, attempt (encKey P m) (macKey P m) = .ok t)
    (hall : ∀ m ∈ key :: previousKeys, attempt (encKey P m) (macKey P m) = .ok t ∨
      ∃ e, e ≠ .invalidPayload ∧ attempt (encKey P m) (macKey P m) = fail e) :
    d.tryKeys P attempt stop failed = .ok t := by
  obtain ⟨hlengths, rfl⟩ := newAESDriver_ok h
  rw [AESDriver.tryKeys]
  rcases hall key mem_cons_self with hok | ⟨e, he, hfail⟩
  · rw [hok]
  · rw [hfail]
    simp only [fail, if_neg he]
    apply tryPrevious_ok (keySize_le cipher) fun m hm => hlengths m (mem_cons_of_mem _ hm)
    · obtain ⟨k, hk, hok⟩ := hsome
      rcases mem_cons.mp hk with rfl | hk
      · rw [hfail] at hok
        cases hok
      · exact ⟨k, hk, hok⟩
    · exact fun m hm => hall m (mem_cons_of_mem _ hm)

theorem length_pkcs7Pad (data : Bytes) :
    (pkcs7Pad data blockSize).length = blockSize * (data.length / blockSize + 1) := by
  simp only [pkcs7Pad, blockSize, length_append, length_replicate]
  omega

theorem pkcs7Unpad_pkcs7Pad (data : Bytes) : pkcs7Unpad (pkcs7Pad data blockSize) = some data := by
  have hpad : ∃ k, blockSize - data.length % blockSize = k + 1 ∧ k < 16 :=
    ⟨16 - data.length % 16 - 1, by simp only [blockSize]; omega, by omega⟩
  obtain ⟨k, hk, hlt⟩ := hpad
  have hval : (Fin.ofNat 256 (k + 1)).val = k + 1 := by
    rw [Fin.val_ofNat]
    omega
  have hlast : (data ++ replicate (k + 1) (Fin.ofNat 256 (k + 1))).getLast? =
      some (Fin.ofNat 256 (k + 1)) := by
    rw [getLast?_append, getLast?_replicate]
    simp
  have hlen : (data ++ replicate (k + 1) (Fin.ofNat 256 (k + 1))).length - (k + 1) = data.length := by
    simp
  have hfits : ¬(k + 1 = 0 ∨ blockSize < k + 1 ∨
      (data ++ replicate (k + 1) (Fin.ofNat 256 (k + 1))).length < k + 1) := by
    simp only [blockSize, length_append, length_replicate]
    omega
  simp only [pkcs7Unpad, pkcs7Pad, hk, hlast, hval, if_neg hfits, hlen, drop_left, take_left, if_true]

end Crypto
