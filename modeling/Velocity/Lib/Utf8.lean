import Velocity.Lib.Bytes

/-! UTF-8: text as a sequence of characters, each the bytes of one code point. -/

namespace Utf8

open List Option

def isTail (b : Byte) : Bool := 0x80 ≤ b.val ∧ b.val ≤ 0xBF

/-- The first two bytes of a character of three. -/
def isThree (a b : Byte) : Bool :=
  a.val = 0xE0 ∧ 0xA0 ≤ b.val ∧ b.val ≤ 0xBF ∨
  0xE1 ≤ a.val ∧ a.val ≤ 0xEC ∧ isTail b ∨
  a.val = 0xED ∧ 0x80 ≤ b.val ∧ b.val ≤ 0x9F ∨
  0xEE ≤ a.val ∧ a.val ≤ 0xEF ∧ isTail b

/-- The first two bytes of a character of four. -/
def isFour (a b : Byte) : Bool :=
  a.val = 0xF0 ∧ 0x90 ≤ b.val ∧ b.val ≤ 0xBF ∨
  0xF1 ≤ a.val ∧ a.val ≤ 0xF3 ∧ isTail b ∨
  a.val = 0xF4 ∧ 0x80 ≤ b.val ∧ b.val ≤ 0x8F

def next : Bytes → Option (Bytes × Bytes)
  | [] => none
  | a :: s =>
    if a.val < 0x80 then some ([a], s)
    else
      match s with
      | [] => none
      | b :: s =>
        if 0xC2 ≤ a.val ∧ a.val ≤ 0xDF ∧ isTail b then some ([a, b], s)
        else
          match s with
          | [] => none
          | c :: s =>
            if isThree a b ∧ isTail c then some ([a, b, c], s)
            else
              match s with
              | [] => none
              | d :: s => if isFour a b ∧ isTail c ∧ isTail d then some ([a, b, c, d], s) else none

variable {s u rest : Bytes}

theorem next_cases (h : next s = some (u, rest)) :
    s = u ++ rest ∧ (∀ t, next (u ++ t) = some (u, t)) ∧
      ((∃ a, u = [a] ∧ a.val < 0x80) ∨ ∃ a v, u = a :: v ∧ v ≠ [] ∧ 0x80 ≤ a.val) := by
  match s with
  | [] => simp [next] at h
  | a :: s =>
    by_cases ha : a.val < 0x80
    · simp only [next, if_pos ha, some.injEq, Prod.mk.injEq] at h
      obtain ⟨rfl, rfl⟩ := h
      exact ⟨rfl, fun t => by simp [next, ha], .inl ⟨a, rfl, ha⟩⟩
    · have hhigh : 0x80 ≤ a.val := by omega
      match s with
      | [] => simp [next, ha] at h
      | b :: s =>
        by_cases hb : 0xC2 ≤ a.val ∧ a.val ≤ 0xDF ∧ isTail b
        · simp only [next, if_neg ha, if_pos hb, some.injEq, Prod.mk.injEq] at h
          obtain ⟨rfl, rfl⟩ := h
          exact ⟨rfl, fun t => by simp [next, ha, hb], .inr ⟨a, [b], rfl, by simp, hhigh⟩⟩
        · match s with
          | [] => simp [next, ha, hb] at h
          | c :: s =>
            by_cases hc : isThree a b ∧ isTail c
            · simp only [next, if_neg ha, if_neg hb, if_pos hc, some.injEq, Prod.mk.injEq] at h
              obtain ⟨rfl, rfl⟩ := h
              exact ⟨rfl, fun t => by simp [next, ha, hb, hc], .inr ⟨a, [b, c], rfl, by simp, hhigh⟩⟩
            · match s with
              | [] => simp [next, ha, hb, hc] at h
              | d :: s =>
                by_cases hd : isFour a b ∧ isTail c ∧ isTail d
                · simp only [next, if_neg ha, if_neg hb, if_neg hc, if_pos hd, some.injEq,
                    Prod.mk.injEq] at h
                  obtain ⟨rfl, rfl⟩ := h
                  refine ⟨rfl, fun t => ?_, .inr ⟨a, [b, c, d], rfl, by simp, hhigh⟩⟩
                  simp only [cons_append, nil_append, next, if_neg ha, if_neg hb, if_neg hc, if_pos hd]
                · simp [next, ha, hb, hc, hd] at h

def IsChar (u : Bytes) : Prop := ∀ t, next (u ++ t) = some (u, t)

def split : Nat → Bytes → Option (List Bytes)
  | _, [] => some []
  | 0, _ :: _ => none
  | n + 1, s@(_ :: _) =>
    match next s with
    | none => none
    | some (u, rest) => (split n rest).map (u :: ·)

def chars (s : Bytes) : Option (List Bytes) := split s.length s

variable {n : Nat} {us : List Bytes}

theorem split_cases (h : split n s = some us) : s = us.flatten ∧ ∀ u ∈ us, IsChar u := by
  induction n generalizing s us with
  | zero =>
    cases s with
    | nil =>
      have hus : us = [] := by simpa [split] using h.symm
      simp [hus]
    | cons b s => simp [split] at h
  | succ n ih =>
    cases s with
    | nil =>
      have hus : us = [] := by simpa [split] using h.symm
      simp [hus]
    | cons b s =>
      rw [split] at h
      cases hnext : next (b :: s) with
      | none => simp [hnext] at h
      | some p =>
        simp only [hnext, map_eq_some_iff] at h
        obtain ⟨vs, hvs, rfl⟩ := h
        obtain ⟨hs, hchar, -⟩ := next_cases hnext
        obtain ⟨hrest, hall⟩ := ih hvs
        refine ⟨by rw [hs, hrest, flatten_cons], ?_⟩
        intro v hv
        rcases mem_cons.mp hv with rfl | hv
        · exact hchar
        · exact hall v hv

theorem IsChar.cases (h : IsChar u) :
    (∃ a, u = [a] ∧ a.val < 0x80) ∨ ∃ a v, u = a :: v ∧ v ≠ [] ∧ 0x80 ≤ a.val := by
  have hu := h []
  exact (next_cases hu).2.2

def encode (r : Nat) : Bytes :=
  if r < 0x80 then [Fin.ofNat 256 r]
  else if r < 0x800 then [Fin.ofNat 256 (0xC0 + r / 64), Fin.ofNat 256 (0x80 + r % 64)]
  else if r < 0x10000 then
    [Fin.ofNat 256 (0xE0 + r / 4096), Fin.ofNat 256 (0x80 + r / 64 % 64), Fin.ofNat 256 (0x80 + r % 64)]
  else
    [Fin.ofNat 256 (0xF0 + r / 262144), Fin.ofNat 256 (0x80 + r / 4096 % 64),
     Fin.ofNat 256 (0x80 + r / 64 % 64), Fin.ofNat 256 (0x80 + r % 64)]

/-- What a decoder puts in place of bytes that are not UTF-8. -/
def replacement : Bytes := encode 0xFFFD

/-- Each byte that is no part of a character is replaced. -/
def repairFrom : Nat → Bytes → Bytes
  | 0, _ => []
  | _ + 1, [] => []
  | n + 1, b :: s =>
    match next (b :: s) with
    | some (u, rest) => u ++ repairFrom n rest
    | none => replacement ++ repairFrom n s

/-- A text written out as UTF-8 and read back. -/
def repair (s : Bytes) : Bytes := repairFrom s.length s

theorem length_next_lt (h : next s = some (u, rest)) :
    rest.length < s.length ∧ s.length = u.length + rest.length := by
  obtain ⟨hs, -, hu⟩ := next_cases h
  have hlen : 0 < u.length := by
    rcases hu with ⟨a, rfl, -⟩ | ⟨-, -, rfl, -⟩ <;> simp
  rw [hs, length_append]
  omega

-- Repair keeps the characters; a byte it replaces makes the text longer for good.
theorem repairFrom_cases (hn : s.length ≤ n) : (split n s).isSome ∧ repairFrom n s = s ∨
      split n s = none ∧ s.length < (repairFrom n s).length := by
  induction n generalizing s with
  | zero =>
    have hs : s = [] := length_eq_zero_iff.mp (by omega)
    exact .inl (by simp [hs, split, repairFrom])
  | succ n ih =>
    cases s with
    | nil => exact .inl (by simp [split, repairFrom])
    | cons b s =>
      rw [length_cons] at hn
      cases hnext : next (b :: s) with
      | none =>
        have hrest : s.length ≤ (repairFrom n s).length := by
          rcases ih (s := s) (by omega) with ⟨-, hsame⟩ | ⟨-, hlonger⟩
          · rw [hsame]
          · omega
        have hthree : replacement.length = 3 := by decide
        refine .inr ⟨by simp [split, hnext], ?_⟩
        simp only [repairFrom, hnext, length_append, length_cons]
        omega
      | some p =>
        obtain ⟨u, rest⟩ := p
        obtain ⟨hlt, hlen⟩ := length_next_lt hnext
        rw [length_cons] at hlt hlen
        rcases ih (s := rest) (by omega) with ⟨hsome, hsame⟩ | ⟨hnone, hlonger⟩
        · have hs := (next_cases hnext).1
          refine .inl ⟨by simpa [split, hnext] using hsome, ?_⟩
          simp [repairFrom, hnext, hsame, ← hs]
        · refine .inr ⟨by simp [split, hnext, hnone], ?_⟩
          simp only [repairFrom, hnext, length_append, length_cons]
          omega

theorem repair_eq_self_iff (s : Bytes) : repair s = s ↔ (chars s).isSome := by
  unfold repair chars
  rcases repairFrom_cases (le_refl s.length) with ⟨hsome, hsame⟩ | ⟨hnone, hlonger⟩
  · exact ⟨fun _ => hsome, fun _ => hsame⟩
  · rw [hnone]
    constructor
    · intro h
      rw [h] at hlonger
      omega
    · intro h
      simp at h

theorem replacement_isChar : IsChar replacement := by
  intro t
  rfl

theorem repairFrom_eq_flatten (n : Nat) (s : Bytes) :
    ∃ us : List Bytes, (∀ u ∈ us, IsChar u) ∧ repairFrom n s = us.flatten := by
  induction n generalizing s with
  | zero => exact ⟨[], by simp, rfl⟩
  | succ n ih =>
    cases s with
    | nil => exact ⟨[], by simp, rfl⟩
    | cons b s =>
      cases hnext : next (b :: s) with
      | none =>
        obtain ⟨us, hchars, hs⟩ := ih s
        refine ⟨replacement :: us, ?_, by simp [repairFrom, hnext, hs]⟩
        exact forall_mem_cons.mpr ⟨replacement_isChar, hchars⟩
      | some p =>
        obtain ⟨u, rest⟩ := p
        obtain ⟨us, hchars, hs⟩ := ih rest
        refine ⟨u :: us, ?_, by simp [repairFrom, hnext, hs]⟩
        exact forall_mem_cons.mpr ⟨(next_cases hnext).2.1, hchars⟩

theorem repairFrom_flatten (h : ∀ u ∈ us, IsChar u)
    (hn : us.flatten.length ≤ n) : repairFrom n us.flatten = us.flatten := by
  induction us generalizing n with
  | nil => cases n <;> rfl
  | cons u us ih =>
    obtain ⟨hu, hus⟩ := forall_mem_cons.mp h
    rw [flatten_cons] at hn ⊢
    obtain ⟨hlt, -⟩ := length_next_lt (hu us.flatten)
    obtain ⟨b, s, hbs⟩ : ∃ b s, u ++ us.flatten = b :: s := by
      cases hc : u ++ us.flatten with
      | nil =>
        rw [hc] at hlt
        simp at hlt
      | cons b s => exact ⟨b, s, rfl⟩
    cases n with
    | zero => omega
    | succ n =>
      have hnext : next (b :: s) = some (u, us.flatten) := by rw [← hbs, hu us.flatten]
      have hrest := ih hus (n := n) (by omega)
      rw [hbs, repairFrom, hnext]
      simp only [hrest]
      exact hbs

theorem repair_repair (s : Bytes) : repair (repair s) = repair s := by
  obtain ⟨us, hchars, hs⟩ := repairFrom_eq_flatten s.length s
  have hfix := repairFrom_flatten hchars (le_refl us.flatten.length)
  rw [← hs] at hfix
  exact hfix

end Utf8
