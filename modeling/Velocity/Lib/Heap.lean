import Mathlib.Tactic

/-! Binary heaps in an array: the caller appends and sifts up, or swaps the root to the end, sifts
down and takes the last element off. -/

namespace BinaryHeap

open Array

variable {α : Type} (less : α → α → Bool)

variable (a : Array α)

def lessAt (i j : Nat) : Bool :=
  match a[i]?, a[j]? with
  | some x, some y => less x y
  | _, _ => false

def up (a : Array α) (j : Nat) : Array α :=
  if h : j = 0 ∨ lessAt less a j ((j - 1) / 2) = false then a
  else up (a.swapIfInBounds ((j - 1) / 2) j) ((j - 1) / 2)
termination_by j
decreasing_by omega

/-- The smaller child of `i` among the first `n` positions, where there is one. -/
def child (i n : Nat) : Nat :=
  if 2 * i + 2 < n ∧ lessAt less a (2 * i + 2) (2 * i + 1) = true then 2 * i + 2 else 2 * i + 1

theorem child_gt (i n : Nat) : i < child less a i n := by
  unfold child
  split <;> omega

theorem child_lt {a : Array α} {i n : Nat} (h : 2 * i + 1 < n) : child less a i n < n := by
  unfold child
  split <;> omega

def down (a : Array α) (i n : Nat) : Array α :=
  if h : 2 * i + 1 < n ∧ lessAt less a (child less a i n) i = true then
    down (a.swapIfInBounds i (child less a i n)) (child less a i n) n
  else a
termination_by n - i
decreasing_by
  have := child_gt less a i n
  have := child_lt less (a := a) h.1
  omega

def push (x : α) : Array α := up less (a.push x) a.size

def pop : Option (α × Array α) :=
  let b := down less (a.swapIfInBounds 0 (a.size - 1)) 0 (a.size - 1)
  b.back?.map fun x => (x, b.pop)

theorem swapIfInBounds_perm (i j : Nat) : (a.swapIfInBounds i j).toList.Perm a.toList := by
  unfold swapIfInBounds
  split
  · split
    · exact (swap_perm _ _).toList
    · exact List.Perm.refl _
  · exact List.Perm.refl _

theorem up_perm (j : Nat) : (up less a j).toList.Perm a.toList := by
  fun_induction up less a j with
  | case1 a j h => exact List.Perm.refl _
  | case2 a j h ih => exact ih.trans (swapIfInBounds_perm a _ _)

theorem down_perm (i n : Nat) : (down less a i n).toList.Perm a.toList := by
  fun_induction down less a i n with
  | case1 a i h ih => exact ih.trans (swapIfInBounds_perm a _ _)
  | case2 a i h => exact List.Perm.refl _

theorem push_perm (x : α) : (push less a x).toList.Perm (x :: a.toList) := by
  have hh := up_perm less (a.push x) a.size
  rw [toList_push] at hh
  exact hh.trans (List.perm_append_singleton x a.toList)

variable {less}

theorem pop_perm {a b : Array α} {x : α} (h : pop less a = some (x, b)) :
    a.toList.Perm (x :: b.toList) := by
  have hperm := (down_perm less (a.swapIfInBounds 0 (a.size - 1)) 0 (a.size - 1)).trans
    (swapIfInBounds_perm a 0 (a.size - 1))
  unfold pop at h
  simp only at h
  generalize down less (a.swapIfInBounds 0 (a.size - 1)) 0 (a.size - 1) = c at h hperm
  obtain ⟨y, hy, he⟩ := Option.map_eq_some_iff.mp h
  obtain ⟨rfl, rfl⟩ := Prod.mk.inj he
  obtain ⟨d, rfl⟩ := back?_eq_some_iff.mp hy
  refine hperm.symm.trans ?_
  rw [pop_push, toList_push]
  exact List.perm_append_singleton _ _

theorem pop_size {a b : Array α} {x : α} (h : pop less a = some (x, b)) : b.size < a.size := by
  have hh := (pop_perm h).length_eq
  simp only [length_toList, List.length_cons] at hh
  omega

end BinaryHeap
