import Velocity.Lib.Percent

/-! Request URLs: the path in its decoded and its escaped form, and the parts of a request
target. -/

structure URL where
  path : Bytes
  /-- The path as sent, when that is not its default encoding. -/
  rawPath : Bytes
  rawQuery : Bytes
  deriving DecidableEq, Repr

namespace URL

def validByte (b : Byte) : Bool :=
  b ∈ Bytes.ascii "!$&'()*+,;=:@" ∨ b ∈ Bytes.ascii "[]" ∨ b = Byte.of '%' ∨
    Percent.shouldEscape .path b = false

def validEncoded (s : Bytes) : Bool := s.all validByte

def escapedPath (u : URL) : Bytes :=
  if u.rawPath ≠ [] ∧ validEncoded u.rawPath ∧ Percent.unescape .path u.rawPath = some u.path then
    u.rawPath
  else if u.path = Bytes.ascii "*" then Bytes.ascii "*"
  else Percent.escape .path u.path

def setPath (p query : Bytes) : Option URL :=
  (Percent.unescape .path p).map fun path =>
    ⟨path, if p = Percent.escape .path path then [] else p, query⟩

def isControl (b : Byte) : Bool := b.val < 0x20 ∨ b.val = 0x7f

/-- The target of a request in origin form. -/
def parseRequestURI (s : Bytes) : Option URL :=
  if s.any isControl ∨ s.head? ≠ some (Byte.of '/') then none
  else setPath (Bytes.cut (Byte.of '?') s).1 (Bytes.cut (Byte.of '?') s).2

structure Reserved (c : Byte) : Prop where
  escaped : Percent.Reserved .path c
  invalid : validByte c = false
  star : c ∉ Bytes.ascii "*"

theorem reserved_space : Reserved (Byte.of ' ') :=
  ⟨⟨by decide, by decide, by decide, by decide⟩, by decide, by decide⟩

theorem reserved_question : Reserved (Byte.of '?') :=
  ⟨⟨by decide, by decide, by decide, by decide⟩, by decide, by decide⟩

theorem not_mem_escapedPath {c : Byte} (h : Reserved c) (u : URL) : c ∉ u.escapedPath := by
  unfold escapedPath
  split
  case isTrue hraw =>
    intro hmem
    have hvalid := List.all_eq_true.mp hraw.2.1 c hmem
    rw [h.invalid] at hvalid
    cases hvalid
  case isFalse =>
    split
    · exact h.star
    · exact h.escaped.not_mem_escape u.path

theorem length_unescape {mode : Percent.Encoding} {s t : Bytes}
    (h : Percent.unescape mode s = some t) : t.length ≤ s.length := by
  fun_induction Percent.unescape mode s generalizing t with
  | case1 =>
    cases h
    exact le_rfl
  | case2 high low s ih =>
    simp only [Option.bind_eq_bind, Option.bind_eq_some_iff, Option.pure_def, Option.some.injEq] at h
    obtain ⟨_, -, _, -, rest, hrest, rfl⟩ := h
    have hle := ih hrest
    simp only [List.length_cons]
    omega
  | case3 => cases h
  | case4 b s hb ih =>
    simp only [Option.bind_eq_bind, Option.bind_eq_some_iff, Option.pure_def, Option.some.injEq] at h
    obtain ⟨rest, hrest, rfl⟩ := h
    exact Nat.succ_le_succ (ih hrest)

theorem length_path_le (u : URL) : u.path.length ≤ u.escapedPath.length := by
  unfold escapedPath
  split
  case isTrue hraw => exact length_unescape hraw.2.2
  case isFalse =>
    split
    case isTrue hstar => rw [hstar]
    case isFalse => exact length_unescape (Percent.unescape_escape _ _)

theorem shouldEscape_control : ∀ (mode : Percent.Encoding) (b : Byte), isControl b = true →
    Percent.shouldEscape mode b = true := by
  intro mode
  cases mode <;> decide +kernel

theorem upperHex_not_control : ∀ d, isControl (Percent.upperHex d) = false := by
  decide

theorem escape_not_control (mode : Percent.Encoding) (s : Bytes) :
    ∀ c ∈ Percent.escape mode s, isControl c = false := by
  intro c hc
  obtain ⟨b, -, hb⟩ := List.mem_flatMap.mp hc
  rcases Percent.mem_escapeByte hb with hkept | hplus | hpercent | ⟨d, hd⟩
  · by_contra hcontrol
    rw [shouldEscape_control mode c (by simpa using hcontrol)] at hkept
    cases hkept
  · rw [hplus]
    decide
  · rw [hpercent]
    decide
  · rw [hd]
    exact upperHex_not_control d

end URL
