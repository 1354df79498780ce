import Velocity.Lib.Bytes

/-! Cipher block chaining over a block cipher. -/

/-- A permutation of the blocks of one size, with its inverse. -/
structure BlockCipher (size : Nat) where
  encrypt : Bytes → Bytes
  decrypt : Bytes → Bytes
  length_encrypt : ∀ b : Bytes, b.length = size → (encrypt b).length = size
  decrypt_encrypt : ∀ b : Bytes, b.length = size → decrypt (encrypt b) = b

namespace BlockCipher

open List Nat

def xor (s t : Bytes) : Bytes := List.zipWith (fun a b => Fin.ofNat 256 (a.val ^^^ b.val)) s t

variable {size : Nat} (c : BlockCipher size)

/-- Each block is mixed with the encrypted block before it. -/
def chain : Nat → Bytes → Bytes → Bytes
  | 0, _, _ => []
  | n + 1, prev, s =>
    let e := c.encrypt (xor (s.take size) prev)
    e ++ chain n e (s.drop size)

def unchain : Nat → Bytes → Bytes → Bytes
  | 0, _, _ => []
  | n + 1, prev, s => xor (c.decrypt (s.take size)) prev ++ unchain n (s.take size) (s.drop size)

theorem xor_xor {s t : Bytes} (h : s.length = t.length) : xor (xor s t) t = s := by
  induction s generalizing t with
  | nil => cases t <;> rfl
  | cons a s ih =>
    cases t with
    | nil => cases h
    | cons b t =>
      have hrest := ih (by simpa using h)
      have hlt : a.val ^^^ b.val < 256 := xor_lt_two_pow (n := 8) a.isLt b.isLt
      have hhead : Fin.ofNat 256 ((Fin.ofNat 256 (a.val ^^^ b.val)).val ^^^ b.val) = a := by
        apply Fin.ext
        rw [Fin.val_ofNat, Fin.val_ofNat, Nat.mod_eq_of_lt hlt, Nat.xor_assoc, Nat.xor_self,
          xor_zero, mod_eq_of_lt a.isLt]
      unfold xor at hrest ⊢
      rw [zipWith_cons_cons, zipWith_cons_cons, hhead, hrest]

theorem length_xor {s t : Bytes} (h : s.length = t.length) : (xor s t).length = s.length := by
  simp [xor, h]

variable {prev s : Bytes} {n : Nat}

theorem length_block (hs : s.length = size * (n + 1)) (hprev : prev.length = size) :
    (s.take size).length = size ∧ (s.drop size).length = size * n ∧
      (c.encrypt (xor (s.take size) prev)).length = size := by
  rw [mul_succ] at hs
  have htake : (s.take size).length = size := by
    rw [length_take]
    omega
  have hdrop : (s.drop size).length = size * n := by
    rw [length_drop]
    omega
  have hxor := length_xor (t := prev) (by rw [htake, hprev])
  exact ⟨htake, hdrop, c.length_encrypt _ (by rw [hxor, htake])⟩

theorem length_chain (hs : s.length = size * n)
    (hprev : prev.length = size) : (c.chain n prev s).length = size * n := by
  induction n generalizing prev s with
  | zero => rfl
  | succ n ih =>
    obtain ⟨-, hdrop, hblock⟩ := c.length_block hs hprev
    rw [chain, length_append, hblock, ih hdrop hblock, mul_succ]
    omega

theorem unchain_chain (hs : s.length = size * n)
    (hprev : prev.length = size) : c.unchain n prev (c.chain n prev s) = s := by
  induction n generalizing prev s with
  | zero =>
    have hnil : s = [] := length_eq_zero_iff.mp (by simpa using hs)
    rw [hnil]
    rfl
  | succ n ih =>
    obtain ⟨htake, hdrop, hblock⟩ := c.length_block hs hprev
    have hrest := ih hdrop hblock
    have hxor : (xor (s.take size) prev).length = size := by
      rw [length_xor (by rw [htake, hprev]), htake]
    have hhead : xor (c.decrypt (c.encrypt (xor (s.take size) prev))) prev = s.take size := by
      rw [c.decrypt_encrypt _ hxor]
      exact xor_xor (by rw [htake, hprev])
    rw [chain, unchain, take_left' hblock, drop_left' hblock, hhead, hrest, take_append_drop]

end BlockCipher
