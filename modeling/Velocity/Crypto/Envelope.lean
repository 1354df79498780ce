import Velocity.Lib.Base64
import Velocity.Lib.JsonText

/-! The wire format of encrypted payloads (`crypto/drivers/aes.go`): a version sentinel before
base64 text of a JSON object of base64 strings. -/

namespace Crypto

open Bytes List Base64

/-- `Payload`; an empty mac or tag is left out of the text. -/
structure Payload where
  iv : Bytes := []
  value : Bytes := []
  mac : Bytes := []
  tag : Bytes := []
deriving DecidableEq

inductive Version
  | v0
  | v1
deriving DecidableEq

def v1Sentinel : Bytes := ascii "v1:"

def splitVersion (payload : Bytes) : Version × Bytes :=
  if payload.take v1Sentinel.length = v1Sentinel then (.v1, payload.drop v1Sentinel.length)
  else (.v0, payload)

def jsonSafeByte (c : Byte) : Bool :=
  (65 ≤ c.val ∧ c.val ≤ 90) ∨ (97 ≤ c.val ∧ c.val ≤ 122) ∨ (48 ≤ c.val ∧ c.val ≤ 57) ∨
    c = Byte.of '+' ∨ c = Byte.of '/' ∨ c = Byte.of '=' ∨ c = Byte.of '-' ∨ c = Byte.of '_'

def jsonSafeBase64 (s : Bytes) : Bool := s.all jsonSafeByte

/-- What `json.Marshal` writes between the quotes; bytes that are no character are replaced. -/
def marshalText : Nat → Bytes → Bytes
  | 0, _ => []
  | _ + 1, [] => []
  | n + 1, b :: s =>
    match Utf8.next (b :: s) with
    | some (u, rest) => Json.escape u ++ marshalText n rest
    | none => ascii "\\ufffd" ++ marshalText n s

def marshalString (s : Bytes) : Bytes :=
  ascii "\"" ++ marshalText s.length s ++ ascii "\""

/-- What `SerializePayload` builds, on its fast path and by `json.Marshal`. -/
def payloadJSON (p : Payload) : Bytes :=
  if jsonSafeBase64 p.iv ∧ jsonSafeBase64 p.value ∧ jsonSafeBase64 p.mac ∧ jsonSafeBase64 p.tag then
    ascii "\x7b\"iv\":\"" ++ p.iv ++ ascii "\",\"value\":\"" ++ p.value ++
      ascii "\"" ++
      (if p.mac = [] then [] else ascii ",\"mac\":\"" ++ p.mac ++ ascii "\"") ++
      (if p.tag = [] then [] else ascii ",\"tag\":\"" ++ p.tag ++ ascii "\"") ++
      ascii "\x7d"
  else
    ascii "\x7b\"iv\":" ++ marshalString p.iv ++ ascii ",\"value\":" ++
      marshalString p.value ++
      (if p.mac = [] then [] else ascii ",\"mac\":" ++ marshalString p.mac) ++
      (if p.tag = [] then [] else ascii ",\"tag\":" ++ marshalString p.tag) ++
      ascii "\x7d"

def serializePayload (p : Payload) : Bytes := Base64.url.encode (payloadJSON p)

inductive PayloadField
  | iv
  | value
  | mac
  | tag
deriving DecidableEq

/-- The field a member of the object is for; `encoding/json` does not look at case. -/
def fieldNamed (key : Bytes) : Option PayloadField :=
  let key := key.map fun b => if 65 ≤ b.val ∧ b.val ≤ 90 then b + 32 else b
  if key = ascii "iv" then some .iv
  else if key = ascii "value" then some .value
  else if key = ascii "mac" then some .mac
  else if key = ascii "tag" then some .tag
  else none

def Payload.set (p : Payload) : PayloadField → Bytes → Payload
  | .iv, s => { p with iv := s }
  | .value, s => { p with value := s }
  | .mac, s => { p with mac := s }
  | .tag, s => { p with tag := s }

/-- Unknown names are passed over, null changes nothing, and a field takes only a string. -/
def Payload.read (p : Payload) (m : Bytes × Json.Value) : Option Payload :=
  match fieldNamed m.1, m.2 with
  | none, _ => some p
  | some f, .str s => some (p.set f s)
  | some _, .null => some p
  | some _, _ => none

def unmarshalPayload : Json.Value → Option Payload
  | .null => some {}
  | .object ms => ms.foldlM Payload.read {}
  | _ => none

/-- The nesting `encoding/json` reads at most. -/
def maxNestingDepth : Nat := 10000

def decodeEnvelope (encoded : Bytes) : Option Payload := do
  let data ← (Base64.url.decode encoded).or (Base64.std.decode encoded)
  let v ← Json.parse maxNestingDepth data
  unmarshalPayload v

theorem jsonSafeBase64_encode (α : Base64) (s : Bytes) : jsonSafeBase64 (α.encode s) = true := by
  apply all_eq_true.mpr
  intro b hb
  have hdigit : ∀ v : Fin 64, jsonSafeByte (std.digit v.val) = true ∧
      jsonSafeByte (url.digit v.val) = true := by decide
  rcases mem_encode hb with rfl | ⟨v, hv, rfl⟩
  · decide
  · cases α with
    | std => exact (hdigit ⟨v, hv⟩).1
    | url => exact (hdigit ⟨v, hv⟩).2

theorem plain_of_jsonSafe {s : Bytes} (h : jsonSafeBase64 s = true) :
    ∀ b ∈ s, Json.plain b = true := by
  have hall : ∀ b : Byte, jsonSafeByte b = true → Json.plain b = true := by decide +kernel
  intro b hb
  exact hall b (all_eq_true.mp h b hb)

def Payload.members (p : Payload) : List (Bytes × Bytes) :=
  (ascii "iv", p.iv) :: (ascii "value", p.value) ::
    ((if p.mac = [] then [] else [(ascii "mac", p.mac)]) ++
      if p.tag = [] then [] else [(ascii "tag", p.tag)])

def Payload.Safe (p : Payload) : Prop :=
  jsonSafeBase64 p.iv = true ∧ jsonSafeBase64 p.value = true ∧ jsonSafeBase64 p.mac = true ∧
    jsonSafeBase64 p.tag = true

variable {p : Payload}

theorem payloadJSON_eq (h : p.Safe) : payloadJSON p = Json.objectText p.members := by
  unfold Payload.Safe at h
  rw [payloadJSON, if_pos h, Payload.members]
  by_cases hmac : p.mac = [] <;> by_cases htag : p.tag = [] <;>
    simp [hmac, htag, Json.objectText, Json.memberText, join, ascii]

theorem members_plain (h : p.Safe) :
    ∀ m ∈ p.members, (∀ b ∈ m.1, Json.plain b = true) ∧ ∀ b ∈ m.2, Json.plain b = true := by
  obtain ⟨hiv, hvalue, hmac, htag⟩ := h
  intro m hm
  simp only [Payload.members, mem_cons, mem_append, mem_ite_nil_left, not_mem_nil, or_false] at hm
  rcases hm with rfl | rfl | ⟨-, rfl⟩ | ⟨-, rfl⟩
  · exact ⟨plain_of_jsonSafe (by rfl), plain_of_jsonSafe hiv⟩
  · exact ⟨plain_of_jsonSafe (by rfl), plain_of_jsonSafe hvalue⟩
  · exact ⟨plain_of_jsonSafe (by rfl), plain_of_jsonSafe hmac⟩
  · exact ⟨plain_of_jsonSafe (by rfl), plain_of_jsonSafe htag⟩

theorem unmarshalPayload_members (p : Payload) :
    unmarshalPayload (.object (p.members.map fun m => (m.1, .str m.2))) = some p := by
  have hiv : fieldNamed (ascii "iv") = some .iv := by decide
  have hvalue : fieldNamed (ascii "value") = some .value := by decide
  have hmac : fieldNamed (ascii "mac") = some .mac := by decide
  have htag : fieldNamed (ascii "tag") = some .tag := by decide
  obtain ⟨iv, value, mac, tag⟩ := p
  by_cases hm : mac = [] <;> by_cases ht : tag = [] <;>
    simp [unmarshalPayload, Payload.members, hm, ht, foldlM, Payload.read, hiv, hvalue, hmac,
      htag, Payload.set]

theorem decodeEnvelope_serializePayload (h : p.Safe) :
    decodeEnvelope (serializePayload p) = some p := by
  have hne : p.members ≠ [] := by simp [Payload.members]
  have hparse := Json.parse_objectText hne (members_plain h) 9999
  rw [decodeEnvelope, serializePayload, decode_encode, payloadJSON_eq h]
  simp only [Option.some_or, Option.bind_eq_bind, Option.bind_some, maxNestingDepth, hparse,
    unmarshalPayload_members]

end Crypto
