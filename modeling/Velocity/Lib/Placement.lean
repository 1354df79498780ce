import Mathlib.Tactic

/-! Items that sit in places. Every place holds a list of items, known by their names. A placement
is exclusive when no name stands in it twice. A program changes items where they are, adds a new
one, moves some to another place, or drops some. -/

namespace Placement

open List

variable {Place Item Name : Type} {name : Item → Name} {s t : Place → List Item} {z : Place}

def Exclusive (name : Item → Name) (s : Place → List Item) : Prop :=
  (∀ x, ((s x).map name).Nodup) ∧ ∀ x y i j, i ∈ s x → j ∈ s y → name i = name j → x = y

def Present (name : Item → Name) (s : Place → List Item) (n : Name) : Prop :=
  ∃ x, ∃ i ∈ s x, name i = n

variable {i : Item}

theorem perm_cons_filter [DecidableEq Name] {l : List Item} (hnd : (l.map name).Nodup)
    (hi : i ∈ l) : l.Perm (i :: l.filter fun j => name j ≠ name i) := by
  induction l with
  | nil => simp at hi
  | cons a l ih =>
    rw [map_cons, nodup_cons] at hnd
    by_cases ha : name a = name i
    · obtain rfl : a = i := by
        rcases mem_cons.mp hi with hi | hi
        · exact hi.symm
        · exact absurd (mem_map.mpr ⟨i, hi, ha.symm⟩) hnd.1
      have hrest : ∀ j ∈ l, name j ≠ name a := fun j hj hn =>
        hnd.1 (mem_map.mpr ⟨j, hj, hn⟩)
      have hl : l.filter (fun j => name j ≠ name a) = l :=
        filter_eq_self.mpr fun j hj => decide_eq_true (hrest j hj)
      rw [filter_cons_of_neg (by simp), hl]
    · have hi' : i ∈ l := (mem_cons.mp hi).resolve_left fun h => ha (by rw [h])
      rw [filter_cons_of_pos (by simpa using ha)]
      exact ((ih hnd.2 hi').cons a).trans (List.Perm.swap i a _)

/-- The items of `ws` go from `x` to `y`, and `f` says what becomes of them. -/
structure Moved (name : Item → Name) (s t : Place → List Item) (ws : List Item) (x y : Place)
    (f : Item → Item) : Prop where
  ne : x ≠ y
  name_eq : ∀ i, name (f i) = name i
  source : (s x).Perm (ws ++ t x)
  target : (t y).Perm (ws.map f ++ s y)
  rest : ∀ z, z ≠ x → z ≠ y → t z = s z

variable {f : Item → Item} {ws : List Item} {x y : Place}

theorem Moved.mem (h : Moved name s t ws x y f) (hi : i ∈ t z) :
    i ∈ s z ∨ z = y ∧ ∃ j ∈ s x, i = f j := by
  by_cases hy : z = y
  · subst hy
    rcases mem_append.mp (h.target.subset hi) with hw | hs
    · obtain ⟨j, hj, rfl⟩ := mem_map.mp hw
      exact .inr ⟨rfl, j, h.source.symm.subset (mem_append_left _ hj), rfl⟩
    · exact .inl hs
  · by_cases hx : z = x
    · subst hx
      exact .inl (h.source.symm.subset (mem_append_right _ hi))
    · rw [h.rest z hx hy] at hi
      exact .inl hi

theorem Moved.present
    (h : Moved name s t ws x y f) (n : Name) : Present name t n ↔ Present name s n := by
  constructor
  · rintro ⟨z, i, hi, rfl⟩
    rcases h.mem hi with hi | ⟨-, j, hj, rfl⟩
    · exact ⟨z, i, hi, rfl⟩
    · exact ⟨x, j, hj, (h.name_eq j).symm⟩
  · rintro ⟨z, i, hi, rfl⟩
    by_cases hx : z = x
    · subst hx
      rcases mem_append.mp (h.source.subset hi) with hw | ht
      · exact ⟨y, f i, h.target.symm.subset (mem_append_left _ (mem_map_of_mem hw)), h.name_eq i⟩
      · exact ⟨z, i, ht, rfl⟩
    · by_cases hy : z = y
      · subst hy
        exact ⟨z, i, h.target.symm.subset (mem_append_right _ hi), rfl⟩
      · exact ⟨z, i, by rwa [h.rest z hx hy], rfl⟩

theorem Exclusive.moved (he : Exclusive name s)
    (h : Moved name s t ws x y f) : Exclusive name t := by
  have hmap : (ws.map f).map name = ws.map name := by
    rw [map_map]
    exact map_congr_left fun i _ => h.name_eq i
  have hsx : (ws.map name ++ (t x).map name).Nodup := by
    rw [← map_append]
    exact (h.source.map name).nodup_iff.mp (he.1 x)
  -- the moved items stood at `x`, so none of them stood at `y` before
  have hdisj : ∀ i ∈ ws, ∀ j ∈ s y, name i ≠ name j := fun i hi j hj hn =>
    h.ne (he.2 x y i j (h.source.symm.subset (mem_append_left _ hi)) hj hn)
  have hin : ∀ z, z ≠ x → ∀ i ∈ t z, ∃ j, name j = name i ∧ (z = y ∧ j ∈ ws ∨ j ∈ s z) := by
    intro z hx i hi
    by_cases hy : z = y
    · subst hy
      rcases mem_append.mp (h.target.subset hi) with hw | hs
      · obtain ⟨j, hj, rfl⟩ := mem_map.mp hw
        exact ⟨j, (h.name_eq j).symm, .inl ⟨rfl, hj⟩⟩
      · exact ⟨i, rfl, .inr hs⟩
    · exact ⟨i, rfl, .inr (by rwa [h.rest z hx hy] at hi)⟩
  have hx : ∀ z i j, z ≠ x → i ∈ t z → j ∈ t x → name i ≠ name j := by
    intro z i j hz hi hj hn
    obtain ⟨k, hk, ⟨-, hw⟩ | hs⟩ := hin z hz i hi
    · exact (nodup_append.mp hsx).2.2 _ (mem_map_of_mem hw) _ (mem_map_of_mem hj)
        (hk.trans hn)
    · exact hz (he.2 z x k j hs (h.source.symm.subset (mem_append_right _ hj)) (hk.trans hn))
  refine ⟨fun z => ?_, fun z z' i j hi hj hn => ?_⟩
  · by_cases hzx : z = x
    · subst hzx
      exact (nodup_append.mp hsx).2.1
    · by_cases hzy : z = y
      · subst hzy
        rw [(h.target.map name).nodup_iff, map_append, hmap]
        refine nodup_append.mpr ⟨(nodup_append.mp hsx).1, he.1 z, ?_⟩
        rintro n hw _ hs rfl
        obtain ⟨i, hi, rfl⟩ := mem_map.mp hw
        obtain ⟨j, hj, hjn⟩ := mem_map.mp hs
        exact hdisj i hi j hj hjn.symm
      · rw [h.rest z hzx hzy]
        exact he.1 z
  · by_cases hz : z = x
    · by_cases hz' : z' = x
      · rw [hz, hz']
      · subst hz
        exact absurd hn.symm (hx z' j i hz' hj hi)
    · by_cases hz' : z' = x
      · subst hz'
        exact absurd hn (hx z i j hz hi hj)
      · obtain ⟨k, hk, hkz⟩ := hin z hz i hi
        obtain ⟨k', hk', hkz'⟩ := hin z' hz' j hj
        have hkk : name k = name k' := hk.trans (hn.trans hk'.symm)
        rcases hkz with ⟨hzy, hw⟩ | hs
        · rcases hkz' with ⟨hzy', -⟩ | hs'
          · rw [hzy, hzy']
          · have hh := he.2 x z' k k' (h.source.symm.subset (mem_append_left _ hw)) hs' hkk
            exact absurd hh.symm hz'
        · rcases hkz' with ⟨-, hw'⟩ | hs'
          · have hh := he.2 z x k k' hs (h.source.symm.subset (mem_append_left _ hw')) hkk
            exact absurd hh hz
          · exact he.2 z z' k k' hs hs' hkk

theorem Exclusive.sublist (he : Exclusive name s) (h : ∀ z, (t z).Sublist (s z)) :
    Exclusive name t :=
  ⟨fun z => (he.1 z).sublist ((h z).map name),
    fun z z' i j hi hj => he.2 z z' i j ((h z).subset hi) ((h z').subset hj)⟩

theorem Exclusive.map (he : Exclusive name s) {f : Place → Item → Item}
    (hf : ∀ z i, name (f z i) = name i) (h : ∀ z, t z = (s z).map (f z)) : Exclusive name t := by
  refine ⟨fun z => ?_, fun z z' i j hi hj hn => ?_⟩
  · rw [h z, map_map]
    have hh : (s z).map (name ∘ f z) = (s z).map name := map_congr_left fun i _ => hf z i
    rw [hh]
    exact he.1 z
  · rw [h] at hi hj
    obtain ⟨k, hk, rfl⟩ := mem_map.mp hi
    obtain ⟨k', hk', rfl⟩ := mem_map.mp hj
    exact he.2 z z' k k' hk hk' (by rw [← hf z k, ← hf z' k', hn])

structure Added (s t : Place → List Item) (i : Item) (y : Place) : Prop where
  target : (t y).Perm (i :: s y)
  rest : ∀ z, z ≠ y → t z = s z

theorem Added.mem {y : Place} (h : Added s t i y) {j : Item} :
    j ∈ t z ↔ j ∈ s z ∨ z = y ∧ j = i := by
  by_cases hz : z = y
  · subst hz
    rw [h.target.mem_iff, mem_cons]
    constructor
    · rintro (rfl | hj)
      · exact .inr ⟨rfl, rfl⟩
      · exact .inl hj
    · rintro (hj | ⟨-, rfl⟩)
      · exact .inr hj
      · exact .inl rfl
  · rw [h.rest z hz]
    simp [hz]

theorem Exclusive.added {y : Place} (he : Exclusive name s) (h : Added s t i y)
    (hfresh : ¬Present name s (name i)) : Exclusive name t := by
  refine ⟨fun z => ?_, fun z z' j k hj hk hn => ?_⟩
  · by_cases hz : z = y
    · subst hz
      rw [(h.target.map name).nodup_iff, map_cons, nodup_cons]
      refine ⟨fun hmem => ?_, he.1 z⟩
      obtain ⟨j, hj, hjn⟩ := mem_map.mp hmem
      exact hfresh ⟨z, j, hj, hjn⟩
    · rw [h.rest z hz]
      exact he.1 z
  · rcases h.mem.mp hj with hj | ⟨rfl, rfl⟩
    · rcases h.mem.mp hk with hk | ⟨rfl, rfl⟩
      · exact he.2 z z' j k hj hk hn
      · exact absurd ⟨z, j, hj, hn⟩ hfresh
    · rcases h.mem.mp hk with hk | ⟨rfl, -⟩
      · exact absurd ⟨z', k, hk, hn.symm⟩ hfresh
      · rfl

end Placement
