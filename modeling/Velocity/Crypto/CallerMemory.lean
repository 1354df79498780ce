import Velocity.Crypto.Authenticity

/-! The caller's memory under encryption: the plaintext is a slice of an array, and an append to it
writes behind the slice where its capacity has room. -/

namespace Crypto

open List

/-- Part of an array from `low` on; its capacity may reach beyond its length. -/
structure Window (array : Bytes) where
  low : Nat
  len : Nat
  cap : Nat
  len_le : len ≤ cap
  cap_le : low + cap ≤ array.length

/-- The array after `append(s, more...)`; without room the bytes go to a fresh one. -/
def Window.append {array : Bytes} (s : Window array) (more : Bytes) : Bytes :=
  if s.len + more.length ≤ s.cap then
    array.take (s.low + s.len) ++ more ++ array.drop (s.low + s.len + more.length)
  else array

/-- What `pkcs7Pad` appends. -/
def padtext (len : Nat) : Bytes :=
  let padding := blockSize - len % blockSize
  replicate padding (Fin.ofNat 256 padding)

namespace AESDriver

variable (P : Primitives) (d : AESDriver) (rand : Nat → Option Bytes) {array : Bytes}

/-- The array after `encryptCBC`, which writes to slices of its own, the padding apart. -/
def encryptCBCArray (plaintext : Window array) : Bytes :=
  match newCipher P d.key, rand blockSize with
  | some _, some _ => plaintext.append (padtext plaintext.len)
  | _, _ => array

/-- The array after `EncryptBytes` or `EncryptBytesWithAAD`; `Seal` appends to nil. -/
def encryptBytesArray (plaintext : Window array) : Bytes :=
  match d.cipher.mode with
  | .gcm => array
  | .cbc => d.encryptCBCArray P rand plaintext

end AESDriver

theorem Window.append_eq_iff {array : Bytes} (s : Window array) (more : Bytes) :
    s.append more = array ↔
      s.cap < s.len + more.length ∨ (array.drop (s.low + s.len)).take more.length = more := by
  unfold append
  split
  case isFalse h => exact ⟨fun _ => .inl (by omega), fun _ => rfl⟩
  case isTrue h =>
    have hrest := take_append_drop more.length (array.drop (s.low + s.len))
    have hsplit := take_append_drop (s.low + s.len) array
    rw [drop_drop] at hrest
    rw [← hrest] at hsplit
    rw [append_assoc]
    constructor
    · intro heq
      exact .inr (append_cancel_right (append_cancel_left (hsplit.trans heq.symm)))
    · rintro (hroom | hthere)
      · omega
      · rwa [hthere] at hsplit

/-- Exactly if the cipher is GCM, encryption fails before it pads, or the slice has no room for the
padding or has it standing there already. -/
theorem encrypt_keeps_array_iff (P : Primitives) (d : AESDriver) (rand : Nat → Option Bytes)
    {array : Bytes} (plaintext : Window array) :
    d.encryptBytesArray P rand plaintext = array ↔
      d.cipher.mode = .gcm ∨ newCipher P d.key = none ∨ rand blockSize = none ∨
      plaintext.cap < plaintext.len + (padtext plaintext.len).length ∨
      (array.drop (plaintext.low + plaintext.len)).take (padtext plaintext.len).length =
        padtext plaintext.len := by
  unfold AESDriver.encryptBytesArray AESDriver.encryptCBCArray
  cases d.cipher.mode with
  | gcm => simp
  | cbc =>
    cases newCipher P d.key with
    | none => simp
    | some block =>
      cases rand blockSize with
      | none => simp
      | some iv => simp [Window.append_eq_iff]

/-- An empty slice at the start of sixteen zeros, which become its padding. -/
theorem encrypt_writes_behind : afterRotation.encryptBytesArray checksums (fun _ => some rotatedOut.iv)
    (⟨0, 0, 16, by decide, by decide⟩ : Window (replicate 16 0)) = replicate 16 16 := by
  decide

end Crypto
