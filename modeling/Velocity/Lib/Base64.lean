import Velocity.Lib.Bytes

/-! Padded base64 in its two alphabets. The decoder passes over line breaks and does not look at
the bits behind the last byte. -/

inductive Base64
  | std
  | url
deriving DecidableEq

namespace Base64

open Option List

def pad : Byte := Byte.of '='

def isBreak (b : Byte) : Bool := b = 10 ∨ b = 13

def digit (α : Base64) (v : Nat) : Byte :=
  if v < 26 then Fin.ofNat 256 (65 + v)
  else if v < 52 then Fin.ofNat 256 (71 + v)
  else if v < 62 then Fin.ofNat 256 (v - 4)
  else
    match α with
    | std => if v = 62 then Byte.of '+' else Byte.of '/'
    | url => if v = 62 then Byte.of '-' else Byte.of '_'

def value (α : Base64) (b : Byte) : Option Nat :=
  if 65 ≤ b.val ∧ b.val ≤ 90 then some (b.val - 65)
  else if 97 ≤ b.val ∧ b.val ≤ 122 then some (b.val - 71)
  else if 48 ≤ b.val ∧ b.val ≤ 57 then some (b.val + 4)
  else if b = digit α 62 then some 62
  else if b = digit α 63 then some 63
  else none

def encode (α : Base64) : Bytes → Bytes
  | [] => []
  | [a] => [digit α (a.val / 4), digit α (a.val % 4 * 16), pad, pad]
  | [a, b] =>
    [digit α (a.val / 4), digit α (a.val % 4 * 16 + b.val / 16), digit α (b.val % 16 * 4), pad]
  | a :: b :: c :: s =>
    digit α (a.val / 4) :: digit α (a.val % 4 * 16 + b.val / 16) ::
      digit α (b.val % 16 * 4 + c.val / 64) :: digit α (c.val % 64) :: encode α s

/-- Of a text without line breaks; only the last four digits may be padded. -/
def quanta (α : Base64) : Bytes → Option Bytes
  | [] => some []
  | a :: b :: c :: d :: s => do
    let a ← value α a
    let b ← value α b
    let first := Fin.ofNat 256 (a * 4 + b / 16)
    if c = pad then
      if d = pad ∧ s = [] then some [first] else none
    else
      let c ← value α c
      let second := Fin.ofNat 256 (b % 16 * 16 + c / 4)
      if d = pad then
        if s = [] then some [first, second] else none
      else
        let d ← value α d
        let rest ← quanta α s
        some (first :: second :: Fin.ofNat 256 (c % 4 * 64 + d) :: rest)
  | _ => none

def decode (α : Base64) (s : Bytes) : Option Bytes := quanta α (s.filter fun b => !isBreak b)

variable {α : Base64} {s t : Bytes}

theorem digit_facts {v : Nat} (h : v < 64) :
    value α (digit α v) = some v ∧ digit α v ≠ pad ∧ isBreak (digit α v) = false := by
  have hall : ∀ α : Base64, α = std ∨ α = url := fun α => by cases α <;> simp
  have hstd : ∀ v : Fin 64, value std (digit std v.val) = some v.val ∧ digit std v.val ≠ pad ∧
      isBreak (digit std v.val) = false := by decide
  have hurl : ∀ v : Fin 64, value url (digit url v.val) = some v.val ∧ digit url v.val ≠ pad ∧
      isBreak (digit url v.val) = false := by decide
  rcases hall α with rfl | rfl
  · exact hstd ⟨v, h⟩
  · exact hurl ⟨v, h⟩

variable {b : Byte}

theorem mem_encode (h : b ∈ encode α s) : b = pad ∨ ∃ v < 64, b = digit α v := by
  fun_induction encode α s with
  | case1 => cases h
  | case2 a =>
    simp only [mem_cons, not_mem_nil, or_false] at h
    rcases h with h | h | h | h
    · exact .inr ⟨_, by omega, h⟩
    · exact .inr ⟨_, by omega, h⟩
    · exact .inl h
    · exact .inl h
  | case3 a c =>
    simp only [mem_cons, not_mem_nil, or_false] at h
    rcases h with h | h | h | h
    · exact .inr ⟨_, by omega, h⟩
    · exact .inr ⟨_, by omega, h⟩
    · exact .inr ⟨_, by omega, h⟩
    · exact .inl h
  | case4 a c e s ih =>
    simp only [mem_cons] at h
    rcases h with h | h | h | h | h
    · exact .inr ⟨_, by omega, h⟩
    · exact .inr ⟨_, by omega, h⟩
    · exact .inr ⟨_, by omega, h⟩
    · exact .inr ⟨_, by omega, h⟩
    · exact ih h

theorem encode_eq_nil (h : encode α s = []) : s = [] := by
  fun_induction encode α s with
  | case1 => rfl
  | case2 a => cases h
  | case3 a b => cases h
  | case4 a b c s ih => cases h

theorem ofNat_eq {n : Nat} (h : n = b.val) : Fin.ofNat 256 n = b := by
  subst h
  simp

theorem quanta_encode (s : Bytes) : quanta α (encode α s) = some s := by
  fun_induction encode α s with
  | case1 => rfl
  | case2 a =>
    obtain ⟨h0, -, -⟩ := digit_facts (α := α) (v := a.val / 4) (by omega)
    obtain ⟨h1, -, -⟩ := digit_facts (α := α) (v := a.val % 4 * 16) (by omega)
    have hfirst : Fin.ofNat 256 (a.val / 4 * 4 + a.val % 4 * 16 / 16) = a := ofNat_eq (by omega)
    simp only [quanta, h0, h1, hfirst, bind_eq_bind, bind_some, and_self, if_true]
  | case3 a b =>
    obtain ⟨h0, -, -⟩ := digit_facts (α := α) (v := a.val / 4) (by omega)
    obtain ⟨h1, -, -⟩ := digit_facts (α := α) (v := a.val % 4 * 16 + b.val / 16) (by omega)
    obtain ⟨h2, hpad, -⟩ := digit_facts (α := α) (v := b.val % 16 * 4) (by omega)
    have hfirst : Fin.ofNat 256 (a.val / 4 * 4 + (a.val % 4 * 16 + b.val / 16) / 16) = a :=
      ofNat_eq (by omega)
    have hsecond :
        Fin.ofNat 256 ((a.val % 4 * 16 + b.val / 16) % 16 * 16 + b.val % 16 * 4 / 4) = b :=
      ofNat_eq (by omega)
    simp only [quanta, h0, h1, h2, hpad, hfirst, hsecond, bind_eq_bind, bind_some, if_true, if_false]
  | case4 a b c s ih =>
    obtain ⟨h0, -, -⟩ := digit_facts (α := α) (v := a.val / 4) (by omega)
    obtain ⟨h1, -, -⟩ := digit_facts (α := α) (v := a.val % 4 * 16 + b.val / 16) (by omega)
    obtain ⟨h2, hpad2, -⟩ := digit_facts (α := α) (v := b.val % 16 * 4 + c.val / 64) (by omega)
    obtain ⟨h3, hpad3, -⟩ := digit_facts (α := α) (v := c.val % 64) (by omega)
    have hfirst : Fin.ofNat 256 (a.val / 4 * 4 + (a.val % 4 * 16 + b.val / 16) / 16) = a :=
      ofNat_eq (by omega)
    have hsecond : Fin.ofNat 256 ((a.val % 4 * 16 + b.val / 16) % 16 * 16 +
        (b.val % 16 * 4 + c.val / 64) / 4) = b := ofNat_eq (by omega)
    have hthird : Fin.ofNat 256 ((b.val % 16 * 4 + c.val / 64) % 4 * 64 + c.val % 64) = c :=
      ofNat_eq (by omega)
    simp only [quanta, h0, h1, h2, h3, hpad2, hpad3, hfirst, hsecond, hthird, ih,
      bind_eq_bind, bind_some, if_false]

theorem decode_encode (s : Bytes) : decode α (encode α s) = some s := by
  have hkeep : (encode α s).filter (fun b => !isBreak b) = encode α s := by
    apply filter_eq_self.mpr
    intro b hb
    rcases mem_encode hb with rfl | ⟨v, hv, rfl⟩
    · decide
    · simp [(digit_facts hv).2.2]
  rw [decode, hkeep, quanta_encode]

theorem mem_of_quanta (h : quanta α s = some t) (hb : b ∈ s) : b = pad ∨ (value α b).isSome := by
  fun_induction quanta α s generalizing t with
  | case1 => cases hb
  | case2 a b' c d s ih =>
    simp only [bind_eq_bind, bind_eq_some_iff] at h
    obtain ⟨x, hx, y, hy, h⟩ := h
    split at h
    · rename_i hc
      split at h
      · rename_i hd
        grind
      · cases h
    · rename_i hc
      obtain ⟨z, hz, h⟩ := bind_eq_some_iff.mp h
      split at h
      · split at h
        · grind
        · cases h
      · obtain ⟨w, hw, h⟩ := bind_eq_some_iff.mp h
        obtain ⟨rest, hrest, -⟩ := bind_eq_some_iff.mp h
        grind
  | case3 s => cases h

theorem mem_of_decode (h : decode α s = some t) (hb : b ∈ s) :
    isBreak b = true ∨ b = pad ∨ (value α b).isSome := by
  cases hbreak : isBreak b with
  | true => exact .inl rfl
  | false =>
    have hmem : b ∈ s.filter fun b => !isBreak b := by
      simp [hb, hbreak]
    exact .inr (mem_of_quanta h hmem)

end Base64
