import Velocity.Lib.Decimal
import Velocity.Lib.Float64
import Mathlib.Data.Nat.Digits.Lemmas

/-! The text of a whole double precision number in the shortest form: the fewest digits that are
read back as the same number, plain below a million and with an exponent from there on. -/

namespace Float64

open Decimal Nat List Option Byte

/-- A neighbouring multiple of `10 ^ j` that reads as `x`. -/
def neighbour (x j : Nat) : Option Nat :=
  let unit := 10 ^ j
  let q := x / unit
  let r := x % unit
  let down := roundNat (q * unit) = x
  let up := roundNat ((q + 1) * unit) = x
  if down ∧ up then some (if unit < 2 * r ∨ unit = 2 * r ∧ q % 2 = 1 then q + 1 else q)
  else if down then some q
  else if up then some (q + 1)
  else none

/-- Digits and power of ten, with as many zeros left off as may be. -/
def shortestFrom (x : Nat) : Nat → Nat × Nat
  | 0 => (x, 0)
  | j + 1 => (neighbour x (j + 1)).elim (shortestFrom x j) fun m => (m, j + 1)

def shortest (x : Nat) : Nat × Nat := shortestFrom x ((Nat.digits 10 x).length - 1)

def zero : Byte := Byte.of '0'

/-- At least two digits of exponent. -/
def formatExponent (e : Nat) : Bytes :=
  Bytes.ascii "e+" ++ (if e < 10 then zero :: Decimal.formatNat e else Decimal.formatNat e)

def formatScientific (ds : Bytes) (e : Nat) : Bytes :=
  let fraction := (ds.drop 1).rdropWhile (· = zero)
  ds.take 1 ++ (if fraction = [] then [] else Byte.of '.' :: fraction) ++ formatExponent e

def formatWhole (x : Nat) : Bytes :=
  let ds := Decimal.formatNat (shortest x).1
  let e := ds.length + (shortest x).2 - 1
  if e < 6 then ds ++ List.replicate (shortest x).2 zero else formatScientific ds e

/-- The default text of the double with the value `x`. -/
def format (x : Int) : Bytes :=
  if x < 0 then Byte.of '-' :: formatWhole x.natAbs else formatWhole x.natAbs

variable {x m : Nat}

theorem neighbour_cases {j : Nat} (h : neighbour x j = some m) :
    roundNat (m * 10 ^ j) = x ∧ m * 10 ^ j ≤ x + 10 ^ j := by
  simp only [neighbour] at h
  generalize 10 ^ j = unit at h ⊢
  have hq : x / unit * unit ≤ x := div_mul_le_self x unit
  have hdown : x / unit * unit ≤ x + unit := by omega
  have hup : (x / unit + 1) * unit ≤ x + unit := by
    rw [add_one_mul]
    omega
  split at h
  · rename_i hboth
    rw [some.injEq] at h
    split at h
    · subst h
      exact ⟨hboth.2, hup⟩
    · subst h
      exact ⟨hboth.1, hdown⟩
  · split at h
    · rename_i hround
      rw [some.injEq] at h
      subst h
      exact ⟨hround, hdown⟩
    · split at h
      · rename_i hround
        rw [some.injEq] at h
        subst h
        exact ⟨hround, hup⟩
      · cases h

theorem shortestFrom_cases (x j : Nat) :
    ∃ m i, shortestFrom x j = (m, i) ∧ (m * 10 ^ i = x ∨ roundNat (m * 10 ^ i) = x) ∧
      m * 10 ^ i ≤ x + 10 ^ j := by
  induction j with
  | zero => exact ⟨x, 0, rfl, by simp⟩
  | succ j ih =>
    cases hm : neighbour x (j + 1) with
    | some m =>
      have heq : shortestFrom x (j + 1) = (m, j + 1) := by
        rw [shortestFrom, hm, elim_some]
      obtain ⟨hround, hle⟩ := neighbour_cases hm
      exact ⟨m, j + 1, heq, Or.inr hround, hle⟩
    | none =>
      obtain ⟨m, i, heq, hvalue, hle⟩ := ih
      have hpow : 10 ^ j ≤ 10 ^ (j + 1) := Nat.pow_le_pow_right (by omega) (by omega)
      exact ⟨m, i, by rw [shortestFrom, hm, elim_none, heq], hvalue, by omega⟩

theorem length_formatNat (hm : m ≠ 0) (j : Nat) :
    (formatNat m).length + j = (digits 10 (m * 10 ^ j)).length := by
  rw [mul_comm, digits_base_pow_mul (by omega) (by omega)]
  simp only [formatNat, if_neg hm, length_reverse, length_map, length_append, length_replicate]
  omega

theorem formatNat_mul_pow (hm : m ≠ 0) (j : Nat) :
    formatNat m ++ replicate j zero = formatNat (m * 10 ^ j) := by
  have hprod : m * 10 ^ j ≠ 0 := by positivity
  have hzero : digit 0 = zero := by decide
  simp only [formatNat, if_neg hm, if_neg hprod]
  rw [mul_comm, digits_base_pow_mul (by omega) (by omega)]
  simp [hzero]

theorem formatWhole_of_lt (h : x < 10 ^ 6) : formatWhole x = formatNat x := by
  by_cases hx : x = 0
  · subst hx
    decide
  · obtain ⟨m, j, heq, hvalue, hle⟩ := shortestFrom_cases x ((digits 10 x).length - 1)
    have hpow : 10 ^ ((digits 10 x).length - 1) ≤ x := by
      have hlen : (digits 10 x).length - 1 < (digits 10 x).length := by
        have hpos : 0 < (digits 10 x).length :=
          length_pos_iff.mpr (digits_ne_nil_iff_ne_zero.mpr hx)
        omega
      exact (lt_digits_length_iff (by omega) x).mp hlen
    have hexact : m * 10 ^ j = x := by
      rcases hvalue with hvalue | hvalue
      · exact hvalue
      · have hsmall : m * 10 ^ j < 2 ^ 53 := by omega
        rwa [roundNat_of_lt hsmall] at hvalue
    have hm : m ≠ 0 := by
      rintro rfl
      omega
    have hlen : (digits 10 x).length ≤ 6 := (digits_length_le_iff (by omega) x).mpr h
    have hsmall : (formatNat m).length + j - 1 < 6 := by
      rw [length_formatNat hm, hexact]
      omega
    simp only [formatWhole, shortest, heq, if_pos hsmall]
    rw [formatNat_mul_pow hm, hexact]

theorem exponent_mem_formatWhole (h : 10 ^ 6 ≤ x) : of 'e' ∈ formatWhole x := by
  obtain ⟨m, j, heq, hvalue, -⟩ := shortestFrom_cases x ((digits 10 x).length - 1)
  have hlarge : 10 ^ 6 ≤ m * 10 ^ j := by
    by_contra hlt
    have hsmall : m * 10 ^ j < 2 ^ 53 := by omega
    rw [roundNat_of_lt hsmall] at hvalue
    omega
  have hm : m ≠ 0 := by
    rintro rfl
    omega
  have hlen : 6 < (digits 10 (m * 10 ^ j)).length :=
    (lt_digits_length_iff (by omega) _).mpr hlarge
  have hbig : ¬(formatNat m).length + j - 1 < 6 := by
    rw [length_formatNat hm]
    omega
  have he : of 'e' ∈ Bytes.ascii "e+" := by decide
  simp only [formatWhole, shortest, heq, if_neg hbig, formatScientific, formatExponent,
    mem_append, he, true_or, or_true]

theorem half_lt_roundNat {n : Nat} (hn : n ≠ 0) : n < 2 * roundNat n := by
  have hunit : 2 ^ (n.log2 + 1 - 53) ≤ n :=
    le_trans (Nat.pow_le_pow_right (by omega) (by omega)) (Nat.log2_self_le hn)
  have hpos : 0 < 2 ^ (n.log2 + 1 - 53) := by positivity
  simp only [roundNat]
  generalize 2 ^ (n.log2 + 1 - 53) = unit at hunit hpos
  have hq : 1 ≤ n / unit := (one_le_div_iff hpos).mpr hunit
  have hone : unit ≤ n / unit * unit := Nat.le_mul_of_pos_left unit hq
  have hsucc : (n / unit + 1) * unit = n / unit * unit + unit := by ring
  have hdiv : n / unit * unit + n % unit = n := by
    rw [mul_comm]
    exact div_add_mod n unit
  have hmod := mod_lt n hpos
  split <;> omega

theorem formatInt_digits_or_sign (x : Int) : ∀ b ∈ formatInt x, isDigit b = true ∨ b = of '-' := by
  intro b hb
  unfold formatInt at hb
  split at hb
  · rcases mem_cons.mp hb with rfl | hb
    · exact .inr rfl
    · exact .inl (formatNat_digits _ b hb)
  · exact .inl (formatNat_digits _ b hb)

theorem format_ofInt_iff (x : Int) : format (ofInt x) = formatInt x ↔ x.natAbs < 10 ^ 6 := by
  constructor
  · intro h
    by_contra hx
    have hround : 10 ^ 6 ≤ (ofInt x).natAbs := by
      have habs : (ofInt x).natAbs = roundNat x.natAbs := by
        unfold ofInt
        split <;> simp
      rw [habs]
      by_cases hsmall : x.natAbs < 2 ^ 53
      · rw [roundNat_of_lt hsmall]
        omega
      · have hhalf := half_lt_roundNat (n := x.natAbs) (by omega)
        omega
    have hmem : of 'e' ∈ format (ofInt x) := by
      unfold format
      split
      · exact mem_cons_of_mem _ (exponent_mem_formatWhole hround)
      · exact exponent_mem_formatWhole hround
    rw [h] at hmem
    have hno : ¬(isDigit (of 'e') = true ∨ of 'e' = of '-') := by decide
    exact hno (formatInt_digits_or_sign x _ hmem)
  · intro h
    rw [ofInt_of_natAbs_lt (by omega), format, formatWhole_of_lt h]
    rfl

end Float64
