import Velocity.Lib.Decimal
import Velocity.Lib.Space
import Velocity.Crypto.Driver

/-! One-time codes (`auth/totp.go`): the code of a step, and the verification that uses a step up. -/

namespace Auth.Totp

open Decimal List Nat Option

structure TOTPConfig where
  digits : Int
  period : Int
  skew : Int

/-- A generator is its configuration with the defaults filled in. -/
def newTOTP (cfg : TOTPConfig) : TOTPConfig where
  digits := if cfg.digits ≤ 0 then 6 else cfg.digits
  period := if cfg.period ≤ 0 then 30 else cfg.period
  skew := if cfg.skew < 0 then 0 else cfg.skew

/-- HMAC-SHA1. -/
abbrev Hash := Bytes → Bytes → Fin 20 → Byte

theorem offset_lt (b : Byte) : b.val &&& 0x0F < 16 := and_lt_two_pow b.val (n := 4) (by decide)

/-- The dynamic truncation of RFC 4226, in 31 bits. -/
def binCode (hmac : Hash) (key : Bytes) (step : Int) : Nat :=
  let sum := hmac key (Crypto.be64 (step % 2 ^ 64).toNat)
  let offset := (sum 19).val &&& 0x0F
  have h : offset < 16 := offset_lt (sum 19)
  ((sum ⟨offset, by omega⟩).val &&& 0x7F) <<< 24 ||| (sum ⟨offset + 1, by omega⟩).val <<< 16 |||
    (sum ⟨offset + 2, by omega⟩).val <<< 8 ||| (sum ⟨offset + 3, by omega⟩).val

def modulus (digits : Nat) : Nat := (fun mod => mod * 10 % 2 ^ 32)^[digits] 1

/-- Filled from the last digit back. -/
def spell : Nat → Nat → Bytes
  | 0, _ => []
  | digits + 1, value => spell digits (value / 10) ++ [digit (value % 10)]

/-- `none` is the panic of a division by zero. -/
def generateCode (hmac : Hash) (key : Bytes) (step : Int) (digits : Nat) : Option Bytes :=
  if modulus digits = 0 then none
  else some (spell digits (binCode hmac key step % modulus digits))

/-- So many decimal digits, spelling the number. -/
def Spells (digits n : Nat) (code : Bytes) : Prop :=
  code.length = digits ∧ (∀ b ∈ code, isDigit b = true) ∧ readNat code = n

variable {hmac : Hash} {key : Bytes} {step : Int} {digits : Nat}

/-- The low 31 bits of the four bytes at the offset that the last byte's low bits give. -/
def truncated (hmac : Hash) (key : Bytes) (step : Int) : Nat :=
  let sum := hmac key (Crypto.be64 (step % 2 ^ 64).toNat)
  let byte := fun i => (sum (Fin.ofNat 20 ((sum 19).val % 16 + i))).val
  (2 ^ 24 * byte 0 + 2 ^ 16 * byte 1 + 2 ^ 8 * byte 2 + byte 3) % 2 ^ 31

theorem binCode_eq (hmac : Hash) (key : Bytes) (step : Int) :
    binCode hmac key step = truncated hmac key step := by
  have hor : ∀ b c d e : Byte,
      (b.val &&& 0x7F) <<< 24 ||| c.val <<< 16 ||| d.val <<< 8 ||| e.val =
        (2 ^ 24 * b.val + 2 ^ 16 * c.val + 2 ^ 8 * d.val + e.val) % 2 ^ 31 := by
    intro b c d e
    have hjoin : ∀ (a : Nat) {i n : Nat}, n < 2 ^ i → a <<< i ||| n = 2 ^ i * a + n := by
      intro a i n h
      rw [← shiftLeft_add_eq_or_of_lt h, shiftLeft_eq, Nat.mul_comm]
    have hb : b.val &&& 0x7F = b.val % 2 ^ 7 := and_two_pow_sub_one_eq_mod b.val 7
    rw [Nat.or_assoc, Nat.or_assoc, hjoin d.val e.isLt, hjoin c.val (by omega), hjoin _ (by omega), hb]
    omega
  have hindex : ∀ (b : Byte) i (h : (b.val &&& 0x0F) + i < 20),
      (⟨(b.val &&& 0x0F) + i, h⟩ : Fin 20) = Fin.ofNat 20 (b.val % 16 + i) := by
    intro b i h
    have hoffset : b.val &&& 0x0F = b.val % 16 := and_two_pow_sub_one_eq_mod b.val 4
    rw [hoffset] at h
    exact Fin.ext (by simp [hoffset, mod_eq_of_lt h])
  have hlt := offset_lt (hmac key (Crypto.be64 (step % 2 ^ 64).toNat) 19)
  simp only [truncated]
  rw [binCode, hor, ← hindex _ 0 (by omega), ← hindex _ 1 (by omega), ← hindex _ 2 (by omega),
    ← hindex _ 3 (by omega)]
  rfl

theorem binCode_lt (hmac : Hash) (key : Bytes) (step : Int) : binCode hmac key step < 2 ^ 31 :=
  binCode_eq hmac key step ▸ mod_lt _ (by decide)

theorem modulus_eq (digits : Nat) : modulus digits = 10 ^ digits % 2 ^ 32 := by
  induction digits with
  | zero => rfl
  | succ digits ih =>
    rw [modulus, Function.iterate_succ_apply', ← modulus, ih, mod_mul_mod, ← pow_succ]

theorem spells_spell (digits n : Nat) : Spells digits (n % 10 ^ digits) (spell digits n) := by
  induction digits generalizing n with
  | zero => exact ⟨rfl, by simp [spell], by simp [spell, readNat, mod_one]⟩
  | succ digits ih =>
    obtain ⟨hlen, hdig, hread⟩ := ih (n / 10)
    have hval := digit_val (mod_lt n (by omega : 10 > 0))
    refine ⟨by simp [spell, hlen], ?_, ?_⟩
    · intro b hb
      rcases mem_append.mp hb with hb | hb
      · exact hdig b hb
      · rw [mem_singleton.mp hb, isDigit, hval]
        simp only [decide_eq_true_eq]
        omega
    · unfold readNat at hread ⊢
      rw [spell, foldl_append, hread, foldl_cons, foldl_nil, hval, pow_succ', mod_mul]
      omega

theorem generateCode_spells (h : modulus digits ≠ 0) :
    ∃ code, generateCode hmac key step digits = some code ∧
      Spells digits (binCode hmac key step % modulus digits) code := by
  refine ⟨spell digits (binCode hmac key step % modulus digits), if_neg h, ?_⟩
  have hle : modulus digits ≤ 10 ^ digits := modulus_eq digits ▸ mod_le _ _
  have hlt := mod_lt (binCode hmac key step) (pos_of_ne_zero h)
  have hs := spells_spell digits (binCode hmac key step % modulus digits)
  rwa [mod_eq_of_lt (by omega)] at hs

/-- A digest, most significant byte first. -/
def digest (n : Nat) : Fin 20 → Byte := fun i => Fin.ofNat 256 (n / 256 ^ (19 - i.val))

/-- The test key of RFC 4226, and its HMAC-SHA1 at the sixth counter. -/
def rfcKey : Bytes := Bytes.ascii "12345678901234567890"

def rfcDigest : Fin 20 → Byte := digest 0xbc9cd28561042c83f219324d3c607256c03272ae

theorem modulus_small {digits : Nat} (h : 10 ≤ digits) (hsmall : 10 ^ digits % 2 ^ 32 < 2 ^ 31) :
    10 ^ digits % 2 ^ 32 ≤ 1874919424 := by
  by_cases hzero : 32 ≤ digits
  · have hdvd : 2 ^ 32 ∣ 10 ^ digits := ((by decide : 2 ^ 32 ∣ 10 ^ 32).trans (pow_dvd_pow 10 hzero))
    rw [mod_eq_zero_of_dvd hdvd]
    decide
  · have htable : ∀ d < 32, 10 ≤ d → 10 ^ d % 2 ^ 32 < 2 ^ 31 → 10 ^ d % 2 ^ 32 ≤ 1874919424 := by
      decide
    exact htable digits (by omega) h hsmall

/-- Every step's code is its truncated hash modulo the power of ten exactly if the power fits 32
bits, or what they hold of it exceeds every truncated hash. -/
theorem generateCode_rfc4226 (cfg : TOTPConfig) :
    let digits := (newTOTP cfg).digits.toNat
    (∀ hmac key step, ∃ code, generateCode hmac key step digits = some code ∧
        Spells digits (truncated hmac key step % 10 ^ digits) code) ↔
      digits ≤ 9 ∨ 2 ^ 31 ≤ 10 ^ digits % 2 ^ 32 := by
  intro digits
  have hmod := modulus_eq digits
  constructor
  · intro hall
    by_contra hnot
    push Not at hnot
    obtain ⟨hdigits, hsmall⟩ := hnot
    obtain ⟨code, hcode, -, -, hread⟩ := hall (fun _ _ => rfcDigest) rfcKey 6
    have htruncated : truncated (fun _ _ => rfcDigest) rfcKey 6 = 1918287922 := by decide
    have hmax := modulus_small hdigits hsmall
    have hpow : 10 ^ 10 ≤ 10 ^ digits := Nat.pow_le_pow_right (by omega) hdigits
    by_cases hzero : modulus digits = 0
    · simp [generateCode, hzero] at hcode
    · obtain ⟨code', hcode', -, -, hread'⟩ := generateCode_spells hzero
      cases hcode.symm.trans hcode'
      have hlt := Nat.mod_lt 1918287922 (Nat.pos_of_ne_zero hzero)
      rw [htruncated, Nat.mod_eq_of_lt (by omega)] at hread
      rw [binCode_eq, htruncated, hread] at hread'
      omega
  · intro hcond hmac key step
    have hlt := binCode_lt hmac key step
    have hfits : binCode hmac key step % modulus digits = binCode hmac key step % 10 ^ digits ∧
        modulus digits ≠ 0 := by
      rcases hcond with hsmall | hlarge
      · have hpow : 10 ^ digits ≤ 10 ^ 9 := Nat.pow_le_pow_right (by omega) hsmall
        have hpos : 0 < 10 ^ digits := by positivity
        rw [hmod, Nat.mod_eq_of_lt (by omega : 10 ^ digits < 2 ^ 32)]
        exact ⟨rfl, by omega⟩
      · have hle := Nat.mod_le (10 ^ digits) (2 ^ 32)
        refine ⟨?_, by omega⟩
        rw [Nat.mod_eq_of_lt (by omega), Nat.mod_eq_of_lt (by omega)]
    rw [← binCode_eq, ← hfits.1]
    exact generateCode_spells hfits.2

/-- At 32 digits the modulus is zero and every code a panic. -/
theorem generateCode_panics :
    (newTOTP ⟨32, 0, 0⟩).digits = 32 ∧ ∀ hmac key step, generateCode hmac key step 32 = none := by
  refine ⟨by decide, fun hmac key step => if_pos ?_⟩
  rw [modulus_eq]
  decide

/-- `x` when `v` is one and `y` when it is zero, by a mask. -/
def constantTimeSelectInt64 (v x y : Int64) : Int64 :=
  let mask := -(v &&& 1)
  (x &&& mask) ||| (y &&& ~~~mask)

/-- One round of the scan: whether a step has matched, and which. -/
def compareStep (code : Option Bytes) (supplied : Bytes) (candidateStep : Int64)
    (found : Int64 × Int64) : Option (Int64 × Int64) :=
  code.map fun expected =>
    let eq := if expected = supplied then 1 else 0
    let notYet := 1 - found.1
    let updateNow := eq &&& notYet
    (found.1 ||| eq, constantTimeSelectInt64 updateNow candidateStep found.2)

/-- The steps from `skew` before the current one to `skew` behind it. -/
def window (g : TOTPConfig) (now : Int) : List Int64 :=
  (range (2 * g.skew.toNat + 1)).map fun i : Nat =>
    Int64.ofInt (now.tdiv g.period) + Int64.ofInt (i - g.skew)

/-- What the reading of a secret calls: `strings.ToUpper`, and base32 with or without padding. -/
structure SecretText where
  toUpper : Bytes → Bytes
  decodeString (padded : Bool) : Bytes → Option Bytes

def decodeSecret (lib : SecretText) (secret : Bytes) : Option Bytes :=
  let upper := (lib.toUpper (Space.trim secret)).filter (· ≠ Byte.of ' ')
  (lib.decodeString false upper).or (lib.decodeString true upper)

def verifyAndConsume (hmac : Hash) (lib : SecretText) (g : TOTPConfig) (now : Int)
    (secret supplied : Bytes) (lastUsedStep : Int64) : Option (Bool × Int64) :=
  if supplied.length = 0 ∨ secret.length = 0 then some (false, 0)
  else
    match decodeSecret lib secret with
    | none => some (false, 0)
    | some key => do
      let found ← (window g now).foldlM (fun found candidateStep =>
        compareStep (generateCode hmac key candidateStep.toInt g.digits.toNat) supplied candidateStep
          found) (0, 0)
      if found.1 ≠ 1 then some (false, 0)
      else if found.2 ≤ lastUsedStep then some (false, 0)
      else some (true, found.2)

/-- The steps accepted when each is handed to the calls behind it. -/
def acceptedSteps (hmac : Hash) (lib : SecretText) (g : TOTPConfig)
    (secret : Bytes) : Int64 → List (Int × Bytes) → List Int64
  | _, [] => []
  | lastUsedStep, (now, supplied) :: calls =>
    match verifyAndConsume hmac lib g now secret supplied lastUsedStep with
    | some (true, step) => step :: acceptedSteps hmac lib g secret step calls
    | _ => acceptedSteps hmac lib g secret lastUsedStep calls

/-- The first step of the window with the supplied code; an empty code or secret has none. -/
def firstStep (hmac : Hash) (lib : SecretText) (g : TOTPConfig) (now : Int)
    (secret supplied : Bytes) : Option Int64 :=
  if supplied.length = 0 ∨ secret.length = 0 then none
  else
    (decodeSecret lib secret).bind fun key =>
      (window g now).find? fun s => generateCode hmac key s.toInt g.digits.toNat = some supplied

variable {lib : SecretText} {g : TOTPConfig} {now : Int} {secret supplied : Bytes}
  {lastUsedStep s : Int64}

/-- The first step, from `skew` before the current one to `skew` after it, with the supplied code. -/
def Earliest (hmac : Hash) (lib : SecretText) (g : TOTPConfig) (now : Int) (secret supplied : Bytes)
    (s : Int64) : Prop :=
  let step := fun offset : Int => Int64.ofInt (now.tdiv g.period + offset)
  supplied ≠ [] ∧ secret ≠ [] ∧ ∃ key, decodeSecret lib secret = some key ∧
    let code := fun offset => generateCode hmac key (step offset).toInt g.digits.toNat
    ∃ offset, -g.skew ≤ offset ∧ offset ≤ g.skew ∧ step offset = s ∧ code offset = some supplied ∧
      ∀ earlier, -g.skew ≤ earlier → earlier < offset → code earlier ≠ some supplied

/-- A round keeps a step that has matched, and takes its own only as the first one. -/
theorem compareStep_eq {v : Int64} (hv : v = 0 ∨ v = 1) (expected : Bytes) (s x : Int64) :
    compareStep (some expected) supplied s (v, x) =
      some (if v = 0 ∧ expected = supplied then (1, s) else (v, x)) := by
  by_cases h : expected = supplied
  · rcases hv with rfl | rfl <;> simp [compareStep, constantTimeSelectInt64, h]
  · rcases hv with rfl | rfl <;> simp [compareStep, constantTimeSelectInt64, h]

theorem scan_eq (code : Int64 → Bytes) (steps : List Int64) {v x : Int64} (hv : v = 0 ∨ v = 1) :
    steps.foldlM (fun found s => compareStep (some (code s)) supplied s found) (v, x) =
      some (if v = 0 then (steps.find? fun s => code s = supplied).elim (0, x) fun s => (1, s)
        else (v, x)) := by
  induction steps generalizing v x with
  | nil => rcases hv with rfl | rfl <;> rfl
  | cons s steps ih =>
    rw [foldlM_cons, compareStep_eq hv, bind_eq_bind, bind_some]
    rcases hv with rfl | rfl
    · by_cases h : code s = supplied
      · simp [h, ih (.inr rfl)]
      · simp [h, ih (.inl rfl)]
    · simp [ih (.inr rfl)]

theorem verifyAndConsume_eq (h : modulus g.digits.toNat ≠ 0) :
    verifyAndConsume hmac lib g now secret supplied lastUsedStep =
      some (((firstStep hmac lib g now secret supplied).filter (lastUsedStep < ·)).elim
        (false, 0) fun s => (true, s)) := by
  unfold verifyAndConsume firstStep
  split
  · rfl
  · cases decodeSecret lib secret with
    | none => rfl
    | some key =>
      simp only [generateCode, if_neg h, scan_eq _ _ (.inl rfl), if_true, bind_eq_bind,
        bind_some, some.injEq]
      cases hfirst : (window g now).find? fun s =>
          spell g.digits.toNat (binCode hmac key s.toInt % modulus g.digits.toNat) = supplied with
      | none => simp
      | some s =>
        by_cases hlt : lastUsedStep < s
        · simp [filter_some, hlt, Int64.not_le.mpr hlt]
        · simp [filter_some, hlt, Int64.not_lt.mp hlt]

theorem find_window (hskew : 0 ≤ g.skew) (p : Int64 → Prop) [DecidablePred p] :
    (window g now).find? (fun s => p s) = some s ↔
      ∃ offset, -g.skew ≤ offset ∧ offset ≤ g.skew ∧ Int64.ofInt (now.tdiv g.period + offset) = s ∧
        p (Int64.ofInt (now.tdiv g.period + offset)) ∧ ∀ earlier, -g.skew ≤ earlier →
          earlier < offset → ¬p (Int64.ofInt (now.tdiv g.period + earlier)) := by
  simp only [window, find?_map, map_eq_some_iff, find?_range_eq_some, Function.comp_apply,
    ← Int64.ofInt_add, mem_range, decide_eq_true_eq, Bool.not_eq_true', decide_eq_false_iff_not]
  constructor
  · rintro ⟨i, ⟨hp, hi, hfirst⟩, rfl⟩
    refine ⟨i - g.skew, by omega, by omega, rfl, hp, fun earlier hle hlt => ?_⟩
    have hnot := hfirst (earlier + g.skew).toNat (by omega)
    rwa [Int.toNat_of_nonneg (by omega), Int.add_sub_cancel] at hnot
  · rintro ⟨offset, hge, hle, rfl, hp, hfirst⟩
    have hoffset : ((offset + g.skew).toNat : Int) - g.skew = offset := by omega
    refine ⟨(offset + g.skew).toNat, ⟨by rwa [hoffset], by omega, fun j hj => ?_⟩, by rw [hoffset]⟩
    exact hfirst _ (by omega) (by omega)

theorem firstStep_iff (hskew : 0 ≤ g.skew) :
    firstStep hmac lib g now secret supplied = some s ↔
      Earliest hmac lib g now secret supplied s := by
  unfold firstStep Earliest
  split
  case isTrue hempty =>
    refine iff_of_false (by simp) fun ⟨hsupplied, hsecret, _⟩ => ?_
    exact hempty.elim (mt length_eq_zero_iff.mp hsupplied) (mt length_eq_zero_iff.mp hsecret)
  case isFalse hfull =>
    rw [not_or, length_eq_zero_iff, length_eq_zero_iff] at hfull
    simp only [bind_eq_some_iff, find_window hskew, hfull, ne_eq, not_false_eq_true, true_and]

theorem verifyAndConsume_iff (h : modulus g.digits.toNat ≠ 0) (hskew : 0 ≤ g.skew) :
    verifyAndConsume hmac lib g now secret supplied lastUsedStep = some (true, s) ↔
      Earliest hmac lib g now secret supplied s ∧ lastUsedStep < s := by
  have hfilter := filter_eq_some_iff (o := firstStep hmac lib g now secret supplied)
    (p := (lastUsedStep < ·)) (a := s)
  rw [firstStep_iff hskew, decide_eq_true_eq] at hfilter
  rw [verifyAndConsume_eq h, ← hfilter]
  cases (firstStep hmac lib g now secret supplied).filter (lastUsedStep < ·) with
  | none => simp
  | some t => simp

/-- A call accepts the first step of its window with the supplied code, if that one is fresh, and
nothing else; fed back, the accepted steps increase. -/
theorem verifyAndConsume_first (hmac : Hash) (lib : SecretText) (cfg : TOTPConfig)
    (secret : Bytes) (h : modulus (newTOTP cfg).digits.toNat ≠ 0) :
    (∀ now supplied lastUsedStep s,
      verifyAndConsume hmac lib (newTOTP cfg) now secret supplied lastUsedStep = some (true, s) ↔
        Earliest hmac lib (newTOTP cfg) now secret supplied s ∧ lastUsedStep < s) ∧
    (∀ now supplied lastUsedStep,
      (¬∃ s, Earliest hmac lib (newTOTP cfg) now secret supplied s ∧ lastUsedStep < s) →
        verifyAndConsume hmac lib (newTOTP cfg) now secret supplied lastUsedStep = some (false, 0)) ∧
    ∀ calls lastUsedStep, (lastUsedStep ::
      acceptedSteps hmac lib (newTOTP cfg) secret lastUsedStep calls).Pairwise (· < ·) := by
  have hskew : 0 ≤ (newTOTP cfg).skew := by
    simp only [newTOTP]
    omega
  refine ⟨fun now supplied lastUsedStep s => verifyAndConsume_iff h hskew, ?_, ?_⟩
  · intro now supplied lastUsedStep hnone
    rw [verifyAndConsume_eq h]
    cases hfirst : (firstStep hmac lib (newTOTP cfg) now secret supplied).filter
        (lastUsedStep < ·) with
    | none => rfl
    | some s =>
      obtain ⟨hs, hlt⟩ := filter_eq_some_iff.mp hfirst
      exact absurd ⟨s, (firstStep_iff hskew).mp hs, of_decide_eq_true hlt⟩ hnone
  intro calls
  induction calls with
  | nil => simp [acceptedSteps]
  | cons call calls ih =>
    intro lastUsedStep
    unfold acceptedSteps
    split
    · next step hstep =>
      have hlt := ((verifyAndConsume_iff h hskew).mp hstep).2
      have hrest := ih step
      refine pairwise_cons.mpr ⟨?_, hrest⟩
      intro s hs
      rcases mem_cons.mp hs with rfl | hs
      · exact hlt
      · exact Int64.lt_trans hlt (rel_of_pairwise_cons hrest hs)
    · exact ih lastUsedStep

/-- HMAC-SHA1 of the key of `sampleSecret` at the steps from 31556159 to 31556161. -/
def sampleHash : Hash := fun _ counter =>
  if counter = Crypto.be64 31556159 then digest 0xbd05dc368de3ca02c64cdbdcfb8d74ba0750234c
  else if counter = Crypto.be64 31556160 then digest 0x85e5a7b056fa0a05f6f9da4d12a166d07b2ca852
  else digest 0x64a7f1daab2d81d5183322a9800945b1fb5288a7

def sampleSecret : Bytes := Bytes.ascii "NNSXSLJRGY2DENRQ"

def sampleText : SecretText where
  toUpper := id
  decodeString _ text := if text = sampleSecret then some (Bytes.ascii "key-164260") else none

theorem verifyAndConsume_first_strict :
    verifyAndConsume sampleHash sampleText (newTOTP ⟨0, 0, 1⟩) 946684800 sampleSecret
      (Bytes.ascii "868026") 31556158 = some (true, 31556159) := by
  rw [(verifyAndConsume_first sampleHash sampleText ⟨0, 0, 1⟩ sampleSecret (by decide)).1]
  refine ⟨⟨by decide, by decide, Bytes.ascii "key-164260", by decide, -1, by decide, by decide, by decide,
    by decide, fun earlier hle hlt => ?_⟩, by decide⟩
  simp only [newTOTP] at hle
  omega

/-- Step 31556160 is fresh and has the supplied code, but so has the one before it, the last used. -/
theorem verifyAndConsume_coincident :
    window (newTOTP ⟨0, 0, 1⟩) 946684800 = [31556159, 31556160, 31556161] ∧
    decodeSecret sampleText sampleSecret = some (Bytes.ascii "key-164260") ∧
    generateCode sampleHash (Bytes.ascii "key-164260") 31556160 6 = some (Bytes.ascii "868026") ∧
    verifyAndConsume sampleHash sampleText (newTOTP ⟨0, 0, 1⟩) 946684800 sampleSecret
      (Bytes.ascii "868026") 31556159 = some (false, 0) := by
  decide +kernel

end Auth.Totp
