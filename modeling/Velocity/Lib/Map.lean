import Mathlib.Data.List.AList

/-! Finite maps of one value type, and what lookups find after deletions. -/

abbrev FMap (α β : Type) := AList fun _ : α => β

namespace FMap

open AList Option List Sigma

variable {α β : Type} [DecidableEq α] {s : FMap α β} {a k : α} {b : β}

theorem lookup_insert_ite (s : FMap α β) (a k : α) (b : β) :
    (s.insert a b).lookup k = if k = a then some b else s.lookup k := by
  by_cases h : k = a
  · subst h
    simp
  · rw [if_neg h, lookup_insert_ne h]

theorem lookup_erase_ite (s : FMap α β) (a k : α) :
    (s.erase a).lookup k = if k = a then none else s.lookup k := by
  by_cases h : k = a
  · subst h
    simp
  · rw [if_neg h, lookup_erase_ne h]

theorem lookup_of_erase (h : (s.erase a).lookup k = some b) : k ≠ a ∧ s.lookup k = some b := by
  rw [lookup_erase_ite] at h
  split at h
  · cases h
  case isFalse hk => exact ⟨hk, h⟩

theorem lookup_of_insert {c : β} (h : (s.insert a b).lookup k = some c) :
    k = a ∧ c = b ∨ k ≠ a ∧ s.lookup k = some c := by
  rw [lookup_insert_ite] at h
  split at h
  case isTrue hk => exact .inl ⟨hk, (some.inj h).symm⟩
  case isFalse hk => exact .inr ⟨hk, h⟩

def filter (p : α → β → Bool) (s : FMap α β) : FMap α β :=
  ⟨s.entries.filter fun e => p e.1 e.2, s.nodupKeys.sublist List.filter_sublist⟩

theorem lookup_filter (p : α → β → Bool) (s : FMap α β) (k : α) :
    (s.filter p).lookup k = (s.lookup k).filter (p k) := by
  apply Option.ext
  intro b
  have hmem : (s.filter p).lookup k = some b ↔ mk k b ∈ (s.filter p).entries :=
    mem_lookup_iff
  have hmem' : s.lookup k = some b ↔ mk k b ∈ s.entries := mem_lookup_iff
  rw [hmem, filter, mem_filter, ← hmem', filter_eq_some_iff]

def mapValues {γ : Type} (f : β → γ) (s : FMap α β) : FMap α γ :=
  ⟨s.entries.map fun e => ⟨e.1, f e.2⟩, by
    have hh := s.nodupKeys
    simpa [List.NodupKeys, List.keys, Function.comp_def] using hh⟩

theorem lookup_mapValues {γ : Type} (f : β → γ) (s : FMap α β) (k : α) :
    (s.mapValues f).lookup k = (s.lookup k).map f := by
  apply Option.ext
  intro c
  have hmem : (s.mapValues f).lookup k = some c ↔ mk k c ∈ (s.mapValues f).entries :=
    mem_lookup_iff
  rw [hmem, map_eq_some_iff, mapValues, List.mem_map]
  constructor
  · rintro ⟨⟨a, b⟩, hb, he⟩
    obtain ⟨rfl, hc⟩ := mk.inj he
    exact ⟨b, mem_lookup_iff.mpr hb, eq_of_heq hc⟩
  · rintro ⟨b, hb, rfl⟩
    exact ⟨⟨k, b⟩, mem_lookup_iff.mp hb, rfl⟩

def eraseAll (ks : List α) (s : FMap α β) : FMap α β :=
  ks.foldl (fun s k => s.erase k) s

theorem lookup_eraseAll (ks : List α) (s : FMap α β) (k : α) :
    (s.eraseAll ks).lookup k = if k ∈ ks then none else s.lookup k := by
  induction ks generalizing s with
  | nil => simp [eraseAll]
  | cons a ks ih =>
    have hh := ih (s.erase a)
    simp only [eraseAll, foldl_cons] at hh ⊢
    rw [hh, lookup_erase_ite]
    by_cases hk : k ∈ ks
    · simp [hk]
    · by_cases ha : k = a <;> simp [hk, ha]

/-- The entries that `p` picks are laid over another map. -/
def overlay (p : α → β → Bool) (upper s : FMap α β) : FMap α β :=
  upper.entries.foldl (fun s e => if p e.1 e.2 then s.insert e.1 e.2 else s) s

theorem lookup_overlay (p : α → β → Bool) (upper s : FMap α β) (k : α) :
    (upper.overlay p s).lookup k = ((upper.lookup k).filter (p k)).elim (s.lookup k) some := by
  obtain ⟨entries, hkeys⟩ := upper
  show (entries.foldl (fun s e => if p e.1 e.2 then s.insert e.1 e.2 else s) s).lookup k =
    ((entries.dlookup k).filter (p k)).elim (s.lookup k) some
  induction entries generalizing s with
  | nil => rfl
  | cons e rest ih =>
    obtain ⟨a, b⟩ := e
    have hrest := nodupKeys_cons.mp hkeys
    rw [foldl_cons, ih _ hrest.2]
    by_cases hk : k = a
    · subst hk
      have hnone : rest.dlookup k = none := dlookup_eq_none.mpr hrest.1
      rw [hnone, dlookup_cons_eq]
      cases hp : p k b with
      | true => simp [hp, filter_some]
      | false => simp [hp, filter_some]
    · have hne : dlookup k (⟨a, b⟩ :: rest) = rest.dlookup k := dlookup_cons_ne _ _ hk
      have hother : (if p a b then s.insert a b else s).lookup k = s.lookup k := by
        split
        · rw [lookup_insert_ite, if_neg hk]
        · rfl
      rw [hne, hother]

section Lists

variable {γ : Type}

/-- The list under a key; a missing key has no elements. -/
def items (s : FMap α (List γ)) (k : α) : List γ := (s.lookup k).getD []

@[simp] theorem items_empty (k : α) : items (∅ : FMap α (List γ)) k = [] := rfl

theorem items_insert (s : FMap α (List γ)) (a k : α) (l : List γ) :
    items (s.insert a l) k = if k = a then l else items s k := by
  unfold items
  rw [lookup_insert_ite]
  split <;> rfl

theorem items_erase (s : FMap α (List γ)) (a k : α) :
    items (s.erase a) k = if k = a then [] else items s k := by
  unfold items
  rw [lookup_erase_ite]
  split <;> rfl

theorem mem_items_iff {s : FMap α (List γ)} {x : γ} :
    x ∈ items s k ↔ ∃ l, mk k l ∈ s.entries ∧ x ∈ l := by
  unfold items
  cases hl : s.lookup k with
  | none =>
    have hno : ∀ l, mk k l ∉ s.entries := fun l h => by
      have hh := mem_lookup_iff.mpr h
      simp [hl] at hh
    simp [hno]
  | some l =>
    have hiff : ∀ l', mk k l' ∈ s.entries ↔ l' = l := fun l' => by
      rw [← mem_lookup_iff, hl]
      simp [eq_comm]
    simp [hiff]

end Lists

end FMap
