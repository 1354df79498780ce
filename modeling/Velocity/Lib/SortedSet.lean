import Velocity.Lib.Map

/-! Sorted sets: members with a score each, of which the one with the lowest score is read
or popped first, the lesser member among equal scores. -/

abbrev SortedSet (α : Type) := FMap α Int

namespace SortedSet

variable {α : Type} [LT α] [DecidableLT α] {a : α × Int} {z : SortedSet α}

def before (a b : α × Int) : Bool := a.2 < b.2 || (a.2 = b.2 && a.1 < b.1)

def least : List (Sigma fun _ : α => Int) → Option (α × Int)
  | [] => none
  | e :: es =>
    match least es with
    | none => some (e.1, e.2)
    | some best => if before best (e.1, e.2) then some best else some (e.1, e.2)

def first (z : SortedSet α) : Option (α × Int) := least z.entries

def popMin [DecidableEq α] (z : SortedSet α) : Option (α × Int) × SortedSet α :=
  match first z with
  | none => (none, z)
  | some e => (some e, z.erase e.1)

variable {es : List (Sigma fun _ : α => Int)}

theorem least_mem (h : least es = some a) : Sigma.mk a.1 a.2 ∈ es := by
  induction es generalizing a with
  | nil => simp [least] at h
  | cons e es ih =>
    cases hbest : least es with
    | none =>
      have ha : (e.1, e.2) = a := by simpa [least, hbest] using h
      subst ha
      exact List.mem_cons_self
    | some best =>
      have hmem := ih hbest
      by_cases hb : before best (e.1, e.2) = true
      · have ha : best = a := by simpa [least, hbest, hb] using h
        subst ha
        exact List.mem_cons_of_mem _ hmem
      · have ha : (e.1, e.2) = a := by simpa [least, hbest, hb] using h
        subst ha
        exact List.mem_cons_self

theorem least_le {x : Sigma fun _ : α => Int} (hx : x ∈ es) :
    ∃ a, least es = some a ∧ a.2 ≤ x.2 := by
  induction es with
  | nil => simp at hx
  | cons e es ih =>
    cases hbest : least es with
    | none =>
      have he : x = e := by
        rcases List.mem_cons.mp hx with he | hmem
        · exact he
        · obtain ⟨a, ha, -⟩ := ih hmem
          rw [hbest] at ha
          cases ha
      subst he
      exact ⟨(x.1, x.2), by simp [least, hbest], Int.le_refl _⟩
    | some best =>
      have hle : best.2 ≤ x.2 ∨ x = e := by
        rcases List.mem_cons.mp hx with he | hmem
        · exact Or.inr he
        · obtain ⟨a, ha, hle⟩ := ih hmem
          rw [hbest] at ha
          cases ha
          exact Or.inl hle
      by_cases hb : before best (e.1, e.2) = true
      · refine ⟨best, by simp [least, hbest, hb], ?_⟩
        have hbe : best.2 ≤ e.2 := by
          simp only [before, Bool.or_eq_true, Bool.and_eq_true, decide_eq_true_eq] at hb
          omega
        rcases hle with hle | he
        · exact hle
        · rw [he]
          exact hbe
      · refine ⟨(e.1, e.2), by simp [least, hbest, hb], ?_⟩
        have heb : e.2 ≤ best.2 := by
          simp only [before, Bool.or_eq_true, decide_eq_true_eq, not_or] at hb
          omega
        rcases hle with hle | he
        · exact Int.le_trans heb hle
        · exact Int.le_of_eq (by rw [he])

theorem first_mem [DecidableEq α] (h : first z = some a) : z.lookup a.1 = some a.2 :=
  AList.mem_lookup_iff.mpr (least_mem h)

theorem first_le [DecidableEq α] {m : α} {s : Int} (h : z.lookup m = some s) :
    ∃ a, first z = some a ∧ a.2 ≤ s :=
  least_le (AList.mem_lookup_iff.mp h)

end SortedSet
