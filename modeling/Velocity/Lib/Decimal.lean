import Velocity.Lib.Bytes
import Mathlib.Data.Nat.Digits.Defs

/-! Decimal text of 64-bit integers: what a formatter writes, a parser reads back. -/

namespace Decimal

open List

def digit (d : Nat) : Byte := Fin.ofNat 256 (48 + d)

def formatNat (n : Nat) : Bytes :=
  if n = 0 then [digit 0] else ((Nat.digits 10 n).map digit).reverse

def formatInt (x : Int) : Bytes :=
  if x < 0 then Byte.of '-' :: formatNat x.natAbs else formatNat x.natAbs

def isDigit (b : Byte) : Bool := 48 ≤ b.val ∧ b.val ≤ 57

def readNat (s : Bytes) : Nat := s.foldl (fun n b => n * 10 + (b.val - 48)) 0

def parseNat (s : Bytes) : Option Nat :=
  if s ≠ [] ∧ s.all isDigit then some (readNat s) else none

/-- Base 10, 64 bits, with an optional sign. -/
def parseInt (s : Bytes) : Option Int :=
  match s with
  | [] => none
  | b :: rest =>
    if b = Byte.of '-' then
      (parseNat rest).bind fun n => if n ≤ 2 ^ 63 then some (-(n : Int)) else none
    else
      (parseNat (if b = Byte.of '+' then rest else s)).bind fun n =>
        if n < 2 ^ 63 then some (n : Int) else none

theorem digit_val {d : Nat} (h : d < 10) : (digit d).val = 48 + d := by
  simp only [digit, Fin.val_ofNat]
  omega

theorem readNat_reverse_digits {l : List Nat} (h : ∀ d ∈ l, d < 10) :
    readNat (l.map digit).reverse = Nat.ofDigits 10 l := by
  induction l with
  | nil => rfl
  | cons d l ih =>
    have hd := digit_val (h d mem_cons_self)
    have hrest := ih fun d' hd' => h d' (mem_cons_of_mem _ hd')
    unfold readNat at hrest ⊢
    rw [map_cons, reverse_cons, foldl_append, hrest, Nat.ofDigits_cons]
    simp only [foldl_cons, foldl_nil, hd]
    omega

theorem formatNat_digits (n : Nat) : ∀ b ∈ formatNat n, isDigit b = true := by
  intro b hb
  have hdigit : ∃ d < 10, b = digit d := by
    unfold formatNat at hb
    split at hb
    · exact ⟨0, by omega, by simpa using hb⟩
    · obtain ⟨d, hd, rfl⟩ := mem_map.mp (mem_reverse.mp hb)
      exact ⟨d, Nat.digits_lt_base (by omega) hd, rfl⟩
  obtain ⟨d, hd, rfl⟩ := hdigit
  have hval := digit_val hd
  simp only [isDigit, decide_eq_true_eq]
  omega

theorem formatNat_ne_nil (n : Nat) : formatNat n ≠ [] := by
  unfold formatNat
  split
  · simp
  · simpa using Nat.digits_ne_nil_iff_ne_zero.mpr ‹_›

theorem parseNat_formatNat (n : Nat) : parseNat (formatNat n) = some n := by
  have hall : (formatNat n).all isDigit = true := all_eq_true.mpr (formatNat_digits n)
  have hread : readNat (formatNat n) = n := by
    unfold formatNat
    split
    case isTrue h =>
      rw [h]
      rfl
    case isFalse =>
      rw [readNat_reverse_digits fun d hd => Nat.digits_lt_base (by omega) hd, Nat.ofDigits_digits]
  rw [parseNat, if_pos ⟨formatNat_ne_nil n, hall⟩, hread]

theorem not_digit_sign {b : Byte} (h : isDigit b = true) : b ≠ Byte.of '-' ∧ b ≠ Byte.of '+' := by
  constructor
  · intro hb
    rw [hb] at h
    exact absurd h (by decide)
  · intro hb
    rw [hb] at h
    exact absurd h (by decide)

theorem parseInt_formatInt {x : Int} (hlow : -2 ^ 63 ≤ x) (hhigh : x < 2 ^ 63) :
    parseInt (formatInt x) = some x := by
  unfold formatInt
  split
  case isTrue hneg =>
    have hle : x.natAbs ≤ 2 ^ 63 := by omega
    have hx : -(x.natAbs : Int) = x := by omega
    simp only [parseInt, if_true, parseNat_formatNat, Option.bind_some, if_pos hle, hx]
  case isFalse hpos =>
    have hlt : x.natAbs < 2 ^ 63 := by omega
    have hx : (x.natAbs : Int) = x := by omega
    obtain ⟨b, rest, hb⟩ := exists_cons_of_ne_nil (formatNat_ne_nil x.natAbs)
    have hsign := not_digit_sign (formatNat_digits x.natAbs b (by simp [hb]))
    have hparse := parseNat_formatNat x.natAbs
    rw [hb] at hparse ⊢
    simp only [parseInt, if_neg hsign.1, if_neg hsign.2, hparse, Option.bind_some, if_pos hlt, hx]

theorem formatInt_ne_nil (x : Int) : formatInt x ≠ [] := by
  unfold formatInt
  split
  · simp
  · exact formatNat_ne_nil _

end Decimal
