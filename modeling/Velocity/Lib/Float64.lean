import Mathlib.Tactic

/-! Integers as double precision numbers: 53 bits of precision, to the nearest, ties to even. -/

namespace Float64

def roundNat (n : Nat) : Nat :=
  let unit := 2 ^ (n.log2 + 1 - 53)
  let q := n / unit
  let r := n % unit
  if 2 * r < unit ∨ 2 * r = unit ∧ q % 2 = 0 then q * unit else (q + 1) * unit

/-- The value of the double nearest to an integer. -/
def ofInt (x : Int) : Int := if x < 0 then -(roundNat x.natAbs : Int) else roundNat x.natAbs

theorem roundNat_of_lt {n : Nat} (h : n < 2 ^ 53) : roundNat n = n := by
  have hlog : n.log2 + 1 - 53 = 0 := by
    by_cases hn : n = 0
    · simp [hn]
    · have hlt := (Nat.log2_lt hn).mpr h
      omega
  simp [roundNat, hlog, Nat.mod_one]

theorem ofInt_of_natAbs_lt {x : Int} (h : x.natAbs < 2 ^ 53) : ofInt x = x := by
  unfold ofInt
  rw [roundNat_of_lt h]
  split <;> omega

end Float64
