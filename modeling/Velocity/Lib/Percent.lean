import Velocity.Lib.Bytes

/-! Percent encoding of byte strings, with the reserved characters each part of a URL allows. -/

namespace Percent

open List

variable (mode : Encoding)

inductive Encoding where
  | path
  | pathSegment
  | queryComponent
  deriving DecidableEq, Repr

def isAlphanumeric (b : Byte) : Bool :=
  (Byte.of 'a' ≤ b ∧ b ≤ Byte.of 'z') ∨ (Byte.of 'A' ≤ b ∧ b ≤ Byte.of 'Z') ∨
    (Byte.of '0' ≤ b ∧ b ≤ Byte.of '9')

def shouldEscape (b : Byte) : Bool :=
  if isAlphanumeric b ∨ b ∈ Bytes.ascii "-_.~" then false
  else if b ∈ Bytes.ascii "$&+,/:;=?@" then
    match mode with
    | .path => b ∈ Bytes.ascii "?"
    | .pathSegment => b ∈ Bytes.ascii "/;,?"
    | .queryComponent => true
  else true

def upperHex (d : Fin 16) : Byte :=
  if d.val < 10 then Fin.ofNat 256 (48 + d.val) else Fin.ofNat 256 (55 + d.val)

def unhex (b : Byte) : Option (Fin 16) :=
  if Byte.of '0' ≤ b ∧ b ≤ Byte.of '9' then some (Fin.ofNat 16 (b.val - 48))
  else if Byte.of 'a' ≤ b ∧ b ≤ Byte.of 'f' then some (Fin.ofNat 16 (b.val - 87))
  else if Byte.of 'A' ≤ b ∧ b ≤ Byte.of 'F' then some (Fin.ofNat 16 (b.val - 55))
  else none

def high (b : Byte) : Fin 16 := Fin.ofNat 16 (b.val / 16)

def low (b : Byte) : Fin 16 := Fin.ofNat 16 b.val

def byte (h l : Fin 16) : Byte := Fin.ofNat 256 (16 * h.val + l.val)

def escapeByte (b : Byte) : Bytes :=
  if shouldEscape mode b then
    if b = Byte.of ' ' ∧ mode = .queryComponent then [Byte.of '+']
    else [Byte.of '%', upperHex (high b), upperHex (low b)]
  else [b]

def escape (s : Bytes) : Bytes := s.flatMap (escapeByte mode)

/-- A character that stands for itself, or for a space. -/
def plain (b : Byte) : Byte :=
  if b = Byte.of '+' ∧ mode = .queryComponent then Byte.of ' ' else b

def unescape (mode : Encoding) : Bytes → Option Bytes
  | [] => some []
  | b :: s =>
    if b = Byte.of '%' then
      match s with
      | h :: l :: s => do
        let h ← unhex h
        let l ← unhex l
        let t ← unescape mode s
        pure (byte h l :: t)
      | _ => none
    else do
      let t ← unescape mode s
      pure (plain mode b :: t)

def pathEscape (s : Bytes) : Bytes := escape .pathSegment s

def pathUnescape (s : Bytes) : Option Bytes := unescape .pathSegment s

def queryEscape (s : Bytes) : Bytes := escape .queryComponent s

def queryUnescape (s : Bytes) : Option Bytes := unescape .queryComponent s

section Hex

theorem unhex_upperHex (d : Fin 16) : unhex (upperHex d) = some d := by
  revert d
  decide

theorem byte_high_low (b : Byte) : byte (high b) (low b) = b := by
  apply Fin.ext
  simp only [byte, high, low, Fin.val_ofNat]
  omega

end Hex

theorem shouldEscape_percent (mode : Encoding) : shouldEscape mode (Byte.of '%') = true := by
  cases mode <;> decide

variable {mode : Encoding} {b c : Byte}

theorem plain_of_kept (h : shouldEscape mode b = false) : plain mode b = b := by
  apply if_neg
  rintro ⟨hb, hmode⟩
  rw [hb, hmode] at h
  exact absurd h (by decide)

theorem unescape_cons_of_ne (mode : Encoding) (hb : b ≠ Byte.of '%') (s : Bytes) :
    unescape mode (b :: s) = (unescape mode s).map (plain mode b :: ·) := by
  rw [unescape.eq_def]
  simp only [if_neg hb]
  cases unescape mode s <;> rfl

theorem unescape_hex (mode : Encoding) (h l : Fin 16) (s : Bytes) :
    unescape mode (Byte.of '%' :: upperHex h :: upperHex l :: s) =
      (unescape mode s).map (byte h l :: ·) := by
  rw [unescape.eq_def]
  simp only [if_true, unhex_upperHex]
  cases unescape mode s <;> rfl

theorem unescape_escapeByte (mode : Encoding) (b : Byte) (t : Bytes) :
    unescape mode (escapeByte mode b ++ t) = (unescape mode t).map (b :: ·) := by
  unfold escapeByte
  by_cases hesc : shouldEscape mode b
  · rw [if_pos hesc]
    by_cases hspace : b = Byte.of ' ' ∧ mode = .queryComponent
    · obtain ⟨hb, hmode⟩ := hspace
      subst hb hmode
      rw [if_pos ⟨rfl, rfl⟩, singleton_append, unescape_cons_of_ne _ (by decide)]
      rfl
    · rw [if_neg hspace]
      simp only [cons_append, nil_append]
      rw [unescape_hex, byte_high_low]
  · have hkept : shouldEscape mode b = false := by simpa using hesc
    have hb : b ≠ Byte.of '%' := by
      intro hb
      rw [hb, shouldEscape_percent] at hkept
      exact absurd hkept (by decide)
    rw [if_neg hesc, singleton_append, unescape_cons_of_ne _ hb, plain_of_kept hkept]

theorem unescape_escape (mode : Encoding) (s : Bytes) : unescape mode (escape mode s) = some s := by
  induction s with
  | nil => rfl
  | cons b s ih =>
    have hcons : escape mode (b :: s) = escapeByte mode b ++ escape mode s := by
      simp [escape]
    rw [hcons, unescape_escapeByte, ih]
    rfl

theorem escape_injective (mode : Encoding) : Function.Injective (escape mode) := by
  intro s t h
  have hs := unescape_escape mode s
  rw [h, unescape_escape] at hs
  exact (Option.some.inj hs).symm

theorem mem_escapeByte (h : c ∈ escapeByte mode b) :
    shouldEscape mode c = false ∨ c = Byte.of '+' ∨ c = Byte.of '%' ∨ ∃ d, c = upperHex d := by
  unfold escapeByte at h
  split at h
  · split at h
    · exact .inr (.inl (mem_singleton.mp h))
    · rcases mem_cons.mp h with hpercent | h
      · exact .inr (.inr (.inl hpercent))
      · rcases mem_cons.mp h with hhigh | h
        · exact .inr (.inr (.inr ⟨_, hhigh⟩))
        · exact .inr (.inr (.inr ⟨_, mem_singleton.mp h⟩))
  case isFalse hkept =>
    rw [mem_singleton.mp h]
    exact .inl (by simpa using hkept)

/-- Always encoded, and not used by the encoding. -/
structure Reserved (mode : Encoding) (c : Byte) : Prop where
  escaped : shouldEscape mode c = true
  plus : c ≠ Byte.of '+'
  percent : c ≠ Byte.of '%'
  hex : ∀ d, c ≠ upperHex d

theorem Reserved.not_mem_escape (h : Reserved mode c) (s : Bytes) : c ∉ escape mode s := by
  intro hmem
  obtain ⟨b, -, hb⟩ := mem_flatMap.mp hmem
  rcases mem_escapeByte hb with hkept | hplus | hpercent | ⟨d, hd⟩
  · rw [h.escaped] at hkept
    cases hkept
  · exact h.plus hplus
  · exact h.percent hpercent
  · exact h.hex d hd

end Percent
