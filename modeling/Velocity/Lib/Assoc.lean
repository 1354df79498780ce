import Mathlib.Tactic

/-! Association lists: a lookup finds the first entry of a key, and a change of the value under
a key keeps the place of its entry, or adds one at the end. -/

namespace Assoc

open List

variable {α β : Type} [DecidableEq α] {ks : List α} {b : β}

def get (k : α) : List (α × β) → Option β
  | [] => none
  | (a, b) :: l => if a = k then some b else get k l

def keys (l : List (α × β)) : List α := l.map Prod.fst

def alter (k : α) (f : Option β → β) : List (α × β) → List (α × β)
  | [] => [(k, f none)]
  | (a, b) :: l => if a = k then (a, f (some b)) :: l else (a, b) :: alter k f l

theorem get_alter (l : List (α × β)) (k k' : α) (f : Option β → β) :
    get k' (alter k f l) = if k' = k then some (f (get k l)) else get k' l := by
  induction l with
  | nil =>
    by_cases h : k' = k
    · simp [alter, get, h]
    · have h' : ¬k = k' := fun he => h he.symm
      simp [alter, get, h, h']
  | cons e l ih =>
    obtain ⟨a, b⟩ := e
    by_cases ha : a = k
    · subst ha
      by_cases h : k' = a
      · simp [alter, get, h]
      · have h' : ¬a = k' := fun he => h he.symm
        simp [alter, get, h, h']
    · by_cases h : k' = k
      · subst h
        simp only [alter, if_neg ha, get, ih]
      · simp only [alter, if_neg ha, get, ih, if_neg h]

def addKey (k : α) (ks : List α) : List α := if k ∈ ks then ks else ks ++ [k]

theorem mem_addKey {k a : α} : a ∈ addKey k ks ↔ a ∈ ks ∨ a = k := by
  unfold addKey
  split
  case isTrue h =>
    constructor
    · exact Or.inl
    · rintro (hmem | rfl)
      · exact hmem
      · exact h
  case isFalse => simp

variable {k : α}

theorem nodup_addKey (h : ks.Nodup) : (addKey k ks).Nodup := by
  unfold addKey
  split
  case isTrue => exact h
  case isFalse hk =>
    apply List.Nodup.append h (by simp)
    simpa using hk

theorem keys_alter (l : List (α × β)) (k : α) (f : Option β → β) :
    keys (alter k f l) = addKey k (keys l) := by
  unfold addKey
  induction l with
  | nil => simp [alter, keys]
  | cons e l ih =>
    obtain ⟨a, b⟩ := e
    by_cases ha : a = k
    · simp [alter, keys, ha]
    · have ha' : ¬k = a := fun he => ha he.symm
      have hcons : keys (alter k f ((a, b) :: l)) = a :: keys (alter k f l) := by
        simp [alter, keys, ha]
      have hmem : k ∈ keys ((a, b) :: l) ↔ k ∈ keys l := by simp [keys, ha']
      rw [hcons, ih]
      by_cases hk : k ∈ keys l
      · rw [if_pos hk, if_pos (hmem.mpr hk)]
        rfl
      · rw [if_neg hk, if_neg fun h => hk (hmem.mp h)]
        rfl

variable {l : List (α × β)}

theorem mem_of_get (h : get k l = some b) : (k, b) ∈ l := by
  induction l with
  | nil => simp [get] at h
  | cons e l ih =>
    obtain ⟨a, b'⟩ := e
    by_cases ha : a = k
    · subst ha
      have hb : b' = b := by simpa [get] using h
      rw [hb]
      exact mem_cons_self
    · rw [get, if_neg ha] at h
      exact mem_cons_of_mem _ (ih h)

theorem get_of_mem (hnodup : (keys l).Nodup) (h : (k, b) ∈ l) : get k l = some b := by
  induction l with
  | nil => simp at h
  | cons e l ih =>
    obtain ⟨a, b'⟩ := e
    obtain ⟨hnew, hrest⟩ := nodup_cons.mp hnodup
    rcases mem_cons.mp h with he | hmem
    · have hab := Prod.mk.inj he
      simp [get, hab.1, hab.2]
    · have hne : ¬a = k := by
        intro hak
        subst hak
        exact hnew (mem_map.mpr ⟨(a, b), hmem, rfl⟩)
      rw [get, if_neg hne, ih hrest hmem]

theorem nodup_keys_alter (h : (keys l).Nodup) (k : α) (f : Option β → β) :
    (keys (alter k f l)).Nodup := by
  rw [keys_alter]
  exact nodup_addKey h

theorem forall_alter {P : α → β → Prop} {f : Option β → β}
    (h : ∀ a b, (a, b) ∈ l → P a b) (hf : ∀ o, (∀ b, o = some b → P k b) → P k (f o)) :
    ∀ a b, (a, b) ∈ alter k f l → P a b := by
  induction l with
  | nil =>
    intro a b hab
    obtain ⟨rfl, rfl⟩ : a = k ∧ b = f none := by simpa [alter] using hab
    exact hf none (by simp)
  | cons e l ih =>
    obtain ⟨a', b'⟩ := e
    have hhead : P a' b' := h a' b' mem_cons_self
    have htail : ∀ a b, (a, b) ∈ l → P a b := fun a b hab => h a b (mem_cons_of_mem _ hab)
    intro a b hab
    by_cases ha : a' = k
    · subst ha
      rw [alter, if_pos rfl] at hab
      rcases mem_cons.mp hab with he | hmem
      · obtain ⟨rfl, rfl⟩ := Prod.mk.inj he
        apply hf
        intro b hb
        rw [← Option.some.inj hb]
        exact hhead
      · exact htail a b hmem
    · rw [alter, if_neg ha] at hab
      rcases mem_cons.mp hab with he | hmem
      · obtain ⟨rfl, rfl⟩ := Prod.mk.inj he
        exact hhead
      · exact ih htail a b hmem

end Assoc
