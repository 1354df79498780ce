import Mathlib.Data.Finset.Sort
import Mathlib.Data.List.DropRight
import Mathlib.Data.List.Lex
import Mathlib.Tactic

/-! Byte strings: literals, trimming, and the non-empty fields between separators. -/

abbrev Byte := Fin 256

abbrev Bytes := List Byte

-- Named, so that definitions of several modules refer to one proof.
instance Byte.neZero : NeZero 256 := ⟨by decide⟩

instance Byte.lawfulBEq : LawfulBEq Byte := inferInstance

instance Bytes.lawfulBEq : LawfulBEq Bytes := inferInstance

instance Bytes.total : Std.Total fun s t : Bytes => s ≤ t := inferInstance

instance Bytes.antisymm : Std.Antisymm fun s t : Bytes => s ≤ t := inferInstance

instance Bytes.trans : IsTrans Bytes fun s t => s ≤ t := inferInstance

def Byte.of (c : Char) : Byte := Fin.ofNat 256 c.toNat

namespace Bytes

open List

variable (c : Byte) (s : Bytes)

def ascii (s : String) : Bytes := s.toList.map Byte.of

def trim : Bytes := (s.dropWhile (· = c)).rdropWhile (· = c)

/-- The pieces between the separators, empty ones included. -/
def split (c : Byte) : Bytes → List Bytes
  | [] => [[]]
  | b :: s =>
    if b = c then [] :: split c s
    else
      match split c s with
      | [] => [[b]]
      | p :: ps => (b :: p) :: ps

/-- What stands before the first separator, and what stands behind it. -/
def cut : Bytes × Bytes :=
  (s.takeWhile (· ≠ c), (s.dropWhile (· ≠ c)).tail)

def join (sep : Bytes) : List Bytes → Bytes
  | [] => []
  | [p] => p
  | p :: ps => p ++ sep ++ join sep ps

def fields : List Bytes := (split c s).filter (· ≠ [])

variable {c b : Byte} {s : Bytes} {ps : List Bytes}

theorem cut_append (h : c ∉ s) (t : Bytes) : cut c (s ++ c :: t) = (s, t) := by
  have hs : ∀ b ∈ s, decide (b ≠ c) = true := by
    intro b hb
    apply decide_eq_true
    intro he
    exact h (he ▸ hb)
  rw [cut, takeWhile_append_of_pos hs, dropWhile_append_of_pos hs]
  simp

theorem split_ne_nil (c : Byte) (s : Bytes) : split c s ≠ [] := by
  induction s with
  | nil => simp [split]
  | cons b s ih =>
    by_cases hb : b = c
    · simp [split, hb]
    · cases hs : split c s <;> simp [split, hb, hs]

theorem split_cons_of_ne {c : Byte} (hb : b ≠ c) (s : Bytes) :
    ∃ p ps, split c s = p :: ps ∧ split c (b :: s) = (b :: p) :: ps := by
  cases hs : split c s with
  | nil => exact absurd hs (split_ne_nil c s)
  | cons p ps => exact ⟨p, ps, rfl, by simp [split, hb, hs]⟩

theorem split_append (c : Byte) (s t : Bytes) : split c (s ++ c :: t) = split c s ++ split c t := by
  induction s with
  | nil => simp [split]
  | cons b s ih =>
    by_cases hb : b = c
    · simp [split, hb, ih]
    · obtain ⟨p, ps, hs, hbs⟩ := split_cons_of_ne hb s
      have hst : split c (s ++ c :: t) = p :: (ps ++ split c t) := by rw [ih, hs, cons_append]
      rw [cons_append, hbs]
      simp [split, hb, hst]

theorem fields_append (c : Byte) (s t : Bytes) :
    fields c (s ++ c :: t) = fields c s ++ fields c t := by
  unfold fields
  rw [split_append, filter_append]

theorem fields_nil (c : Byte) : fields c [] = [] := rfl

theorem fields_cons (c : Byte) (s : Bytes) : fields c (c :: s) = fields c s := by
  have hh := fields_append c [] s
  simpa [fields_nil] using hh

theorem fields_concat (c : Byte) (s : Bytes) : fields c (s ++ [c]) = fields c s := by
  have hh := fields_append c s []
  simpa [fields_nil] using hh

theorem split_of_not_mem (h : c ∉ s) : split c s = [s] := by
  induction s with
  | nil => rfl
  | cons b s ih =>
    have hb : ¬b = c := fun he => h (by simp [he])
    have hs := ih fun hmem => h (mem_cons_of_mem _ hmem)
    simp [split, hb, hs]

theorem fields_of_not_mem (h : c ∉ s) : fields c s = if s = [] then [] else [s] := by
  rw [fields, split_of_not_mem h]
  by_cases hs : s = [] <;> simp [hs]

theorem split_join (hne : ps ≠ []) (h : ∀ p ∈ ps, c ∉ p) : split c (join [c] ps) = ps := by
  induction ps with
  | nil => exact absurd rfl hne
  | cons p ps ih =>
    have hp := split_of_not_mem (h p mem_cons_self)
    cases ps with
    | nil => exact hp
    | cons q ps =>
      have hrest := ih (by simp) fun r hr => h r (mem_cons_of_mem _ hr)
      rw [join, append_assoc, singleton_append, split_append, hp, hrest, singleton_append]
      simp

theorem fields_join (h : ∀ p ∈ ps, p ≠ [] ∧ c ∉ p) : fields c (join [c] ps) = ps := by
  by_cases hne : ps = []
  · rw [hne]
    rfl
  · rw [fields, split_join hne fun p hp => (h p hp).2]
    apply filter_eq_self.mpr
    intro p hp
    exact decide_eq_true (h p hp).1

theorem fields_dropWhile (c : Byte) (s : Bytes) : fields c (s.dropWhile (· = c)) = fields c s := by
  induction s with
  | nil => rfl
  | cons b s ih =>
    by_cases hb : b = c
    · subst hb
      rw [dropWhile_cons_of_pos (by simp), ih, fields_cons]
    · rw [dropWhile_cons_of_neg (by simpa using hb)]

theorem fields_rdropWhile (c : Byte) (s : Bytes) : fields c (s.rdropWhile (· = c)) = fields c s := by
  induction s using reverseRecOn with
  | nil => rfl
  | append_singleton s b ih =>
    by_cases hb : b = c
    · subst hb
      rw [rdropWhile_concat_pos _ _ _ (by simp), ih, fields_concat]
    · rw [rdropWhile_concat_neg _ _ _ (by simpa using hb)]

theorem fields_trim (c : Byte) (s : Bytes) : fields c (trim c s) = fields c s := by
  rw [trim, fields_rdropWhile, fields_dropWhile]

theorem fields_ne_nil (hb : b ∈ s) (hc : b ≠ c) : fields c s ≠ [] := by
  induction s with
  | nil => simp at hb
  | cons a s ih =>
    by_cases ha : a = c
    · subst ha
      rw [fields_cons]
      rcases mem_cons.mp hb with he | hmem
      · exact absurd he hc
      · exact ih hmem
    · obtain ⟨p, ps, -, hs⟩ := split_cons_of_ne ha s
      simp [fields, hs]

theorem trim_eq_nil_iff (c : Byte) (s : Bytes) : trim c s = [] ↔ fields c s = [] := by
  constructor
  · intro h
    rw [← fields_trim, h]
    rfl
  · intro h
    by_contra hne
    have hlast : (trim c s).getLast hne ≠ c := by
      have hh := rdropWhile_last_not (fun b => decide (b = c)) (s.dropWhile (· = c)) hne
      exact fun he => hh (decide_eq_true he)
    refine fields_ne_nil (getLast_mem hne) hlast ?_
    rw [fields_trim, h]

theorem mem_fields {s p : Bytes} (h : p ∈ fields c s) : p ≠ [] ∧ c ∉ p := by
  obtain ⟨hp, hne⟩ := mem_filter.mp h
  refine ⟨by simpa using hne, ?_⟩
  clear h hne
  induction s generalizing p with
  | nil =>
    rw [show p = [] by simpa [split] using hp]
    simp
  | cons b s ih =>
    by_cases hb : b = c
    · rcases mem_cons.mp (by simpa [split, hb] using hp) with he | hmem
      · rw [he]
        simp
      · exact ih hmem
    · obtain ⟨q, qs, hs, hbs⟩ := split_cons_of_ne hb s
      rw [hbs] at hp
      rcases mem_cons.mp hp with he | hmem
      · have hq : c ∉ q := ih (by rw [hs]; exact mem_cons_self)
        rw [he]
        simpa [hq] using fun he : c = b => hb he.symm
      · exact ih (by rw [hs]; exact mem_cons_of_mem _ hmem)

end Bytes
