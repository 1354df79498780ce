import Mathlib.Tactic

/-! The delays of `ExponentialBackoff` and `LinearBackoff`: products of 64 bits, compared with the
limit when they may have wrapped. -/

namespace Velocity.Queue

def wrap64 (n : Int) : Int := n.bmod (2 ^ 64)

/-- The loop, with `n` doublings to go. -/
def doubleUpTo (max : Int) : Nat → Int → Int
  | 0, delay => if delay > max then max else delay
  | n + 1, delay =>
    if wrap64 (delay * 2) > max then max else doubleUpTo max n (wrap64 (delay * 2))

def exponentialBackoff (base max attempt : Int) : Int :=
  let attempt := if attempt ≤ 0 then 1 else attempt
  doubleUpTo max (attempt - 1).toNat base

def linearBackoff (step max attempt : Int) : Int :=
  let attempt := if attempt ≤ 0 then 1 else attempt
  let delay := wrap64 (step * attempt)
  if delay > max then max else delay

theorem wrap64_eq (n : Int) :
    wrap64 n = if n % 2 ^ 64 < 2 ^ 63 then n % 2 ^ 64 else n % 2 ^ 64 - 2 ^ 64 :=
  Int.bmod_def n (2 ^ 64)

/-- Some doubling passes the limit before it reaches the sign bit. -/
def PassesLimit (base limit : Int) : Prop :=
  ∃ i, limit < base * 2 ^ (i + 1) ∧ base * 2 ^ (i + 1) < 2 ^ 63

variable {base step limit : Int}

theorem passesLimit_double (h : base * 2 ≤ limit) :
    PassesLimit (base * 2) limit ↔ PassesLimit base limit := by
  have hshift (i : Nat) : base * 2 * 2 ^ (i + 1) = base * 2 ^ (i + 1 + 1) := by ring
  constructor
  · rintro ⟨i, hi⟩
    exact ⟨i + 1, hshift i ▸ hi⟩
  · rintro ⟨_ | i, hi⟩
    · omega
    · exact ⟨i, hshift i ▸ hi⟩

theorem doubleUpTo_of_passes (hbase : 0 ≤ base) (h : PassesLimit base limit) (n : Nat) :
    doubleUpTo limit n base = min (base * 2 ^ n) limit := by
  induction n generalizing base with
  | zero =>
    rw [doubleUpTo]
    omega
  | succ n ih =>
    have hgrows (k : Nat) : base * 2 ≤ base * 2 ^ (k + 1) := by
      have hpow : (0 : Int) < 2 ^ k := by positivity
      rw [pow_succ']
      nlinarith
    obtain ⟨i, -, hfits⟩ := id h
    have hnext : wrap64 (base * 2) = base * 2 := by
      have hlow := hgrows i
      rw [wrap64_eq]
      omega
    rw [doubleUpTo, hnext]
    by_cases hover : base * 2 > limit
    · have htop := hgrows n
      rw [if_pos hover]
      omega
    · rw [if_neg hover, ih (by omega) ((passesLimit_double (by omega)).mpr h)]
      ring_nf

/-- A doubling that reaches the sign bit comes out negative. -/
theorem passes_of_nonneg {base : Int} (hlimit : 0 ≤ limit) (hbase : 0 < base ∧ base < 2 ^ 63)
    (bits : Nat) (hbits : limit < base * 2 ^ bits) (h : ∀ n ≤ bits + 1, 0 ≤ doubleUpTo limit n base) :
    PassesLimit base limit := by
  have hwrap := wrap64_eq (base * 2)
  have hfits : base * 2 < 2 ^ 63 := by
    have hone := h 1 (by omega)
    rw [doubleUpTo, doubleUpTo, hwrap] at hone
    omega
  by_cases hover : limit < base * 2
  · exact ⟨0, by simpa using hover, by simpa using hfits⟩
  · have hnext : wrap64 (base * 2) = base * 2 := by omega
    cases bits with
    | zero => omega
    | succ bits =>
      apply (passesLimit_double (not_lt.mp hover)).mp
      apply passes_of_nonneg hlimit ⟨by omega, hfits⟩ bits
      · rw [mul_assoc, ← pow_succ']
        exact hbits
      · intro n hn
        have hafter := h (n + 1) (by omega)
        rw [doubleUpTo, hnext, if_neg hover] at hafter
        exact hafter

def exponentialDelay (base limit attempt : Int) : Int :=
  min (base * 2 ^ (max attempt 1 - 1).toNat) limit

def linearDelay (step limit attempt : Int) : Int := min (step * max attempt 1) limit

theorem attempt_eq (attempt : Int) : (if attempt ≤ 0 then 1 else attempt) = max attempt 1 := by
  omega

theorem exponential_iff (hbase : 0 ≤ base ∧ base < 2 ^ 63) (hlimit : 0 ≤ limit ∧ limit < 2 ^ 63) :
    (∀ attempt < 2 ^ 63, exponentialBackoff base limit attempt = exponentialDelay base limit attempt) ↔
      base = 0 ∨ PassesLimit base limit := by
  simp only [exponentialBackoff, exponentialDelay, attempt_eq]
  by_cases hzero : base = 0
  · have hstays (n : Nat) : doubleUpTo limit n 0 = 0 := by
      induction n with
      | zero => exact if_neg (by omega)
      | succ n ih => exact (if_neg (by exact hlimit.1.not_gt)).trans ih
    simp [hzero, hstays, hlimit.1]
  · rw [or_iff_right hzero]
    constructor
    · intro h
      apply passes_of_nonneg hlimit.1 ⟨by omega, hbase.2⟩ 63 (by omega)
      intro n hn
      have hat := h (n + 1) (by omega)
      have hrounds : (max ((n : Int) + 1) 1 - 1).toNat = n := by omega
      have hpow : 0 ≤ base * 2 ^ n := mul_nonneg hbase.1 (by positivity)
      rw [hrounds] at hat
      omega
    · intro h attempt _
      exact doubleUpTo_of_passes hbase.1 h _

/-- The product fits, or what is left of it in 64 bits is not below the limit. -/
def ProductFits (step limit attempt : Int) : Prop :=
  step * max attempt 1 < 2 ^ 63 ∨
    limit ≤ step * max attempt 1 % 2 ^ 64 ∧ step * max attempt 1 % 2 ^ 64 < 2 ^ 63

theorem linear_iff (hstep : 0 ≤ step) (hlimit : 0 ≤ limit ∧ limit < 2 ^ 63) (attempt : Int) :
    linearBackoff step limit attempt = linearDelay step limit attempt ↔
      ProductFits step limit attempt := by
  have hproduct : 0 ≤ step * max attempt 1 := mul_nonneg hstep (by omega)
  simp only [linearBackoff, linearDelay, ProductFits, attempt_eq, wrap64_eq]
  omega

def Saturating (limit : Int) (delay : Int → Int) : Prop :=
  Monotone delay ∧ ∀ attempt, 0 ≤ delay attempt ∧ delay attempt ≤ limit

theorem saturating_min (hlimit : 0 ≤ limit) {product : Int → Int} (hmono : Monotone product)
    (hpos : ∀ attempt, 0 ≤ product attempt) : Saturating limit fun n => min (product n) limit :=
  ⟨hmono.min monotone_const, fun n => ⟨le_min (hpos n) hlimit, min_le_right _ _⟩⟩

theorem backoff_saturates_iff (hbase : 0 ≤ base ∧ base < 2 ^ 63) (hstep : 0 ≤ step ∧ step < 2 ^ 63)
    (hlimit : 0 ≤ limit ∧ limit < 2 ^ 63) :
    ((∀ attempt < 2 ^ 63, exponentialBackoff base limit attempt =
      exponentialDelay base limit attempt) ↔ base = 0 ∨ PassesLimit base limit) ∧
    (∀ attempt < 2 ^ 63, linearBackoff step limit attempt = linearDelay step limit attempt ↔
      ProductFits step limit attempt) ∧
    Saturating limit (exponentialDelay base limit) ∧ Saturating limit (linearDelay step limit) := by
  refine ⟨exponential_iff hbase hlimit, fun attempt _ => linear_iff hstep.1 hlimit attempt,
    saturating_min hlimit.1 ?_ ?_, saturating_min hlimit.1 ?_ ?_⟩
  · intro n n' hle
    have hrounds : (max n 1 - 1).toNat ≤ (max n' 1 - 1).toNat := by omega
    exact mul_le_mul_of_nonneg_left (pow_le_pow_right₀ (by omega) hrounds) hbase.1
  · intro n
    exact mul_nonneg hbase.1 (by positivity)
  · intro n n' hle
    exact mul_le_mul_of_nonneg_left (by omega) hstep.1
  · intro n
    exact mul_nonneg hstep.1 (by omega)

theorem backoff_saturates_small : PassesLimit 1 3600 ∧ exponentialBackoff 1 3600 13 = 3600 ∧
    linearBackoff 60 3600 100 = linearDelay 60 3600 100 := by
  have hpasses : PassesLimit 1 3600 := ⟨11, by norm_num⟩
  obtain ⟨hexp, hlin, -⟩ := @backoff_saturates_iff 1 60 3600 (by omega) (by omega) (by omega)
  exact ⟨hpasses, hexp.mpr (.inr hpasses) 13 (by omega), (hlin 100 (by omega)).mpr (.inl (by decide))⟩

/-- An hour doubled 22 times, and an hour a step. -/
theorem unlimited_delays_wrap : exponentialBackoff 3600000000000 (2 ^ 63 - 1) 23 < 0 ∧
    linearBackoff 3600000000000 (2 ^ 63 - 1) 2562048 < 0 := by
  decide

end Velocity.Queue
