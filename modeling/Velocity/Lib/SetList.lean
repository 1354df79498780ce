import Mathlib.Tactic

/-! The SET list of an SQL UPDATE under the two semantics engines give it: every right side
reads the row before the statement, or the assignments take effect one after the other. -/

namespace SetList

variable {Col : Type} {Val : Col → Type}

abbrev Row (Val : Col → Type) := (c : Col) → Val c

inductive Expr (Val : Col → Type) : Type → Type 1
  | col (c : Col) : Expr Val (Val c)
  | const {α : Type} (a : α) : Expr Val α
  | app {α β γ : Type} (f : α → β → γ) (x : Expr Val α) (y : Expr Val β) : Expr Val γ
  | caseWhen {α : Type} (cond : Expr Val Bool) (x y : Expr Val α) : Expr Val α

namespace Expr

def eval (row : Row Val) : {α : Type} → Expr Val α → α
  | _, col c => row c
  | _, const a => a
  | _, app f x y => f (x.eval row) (y.eval row)
  | _, caseWhen cond x y => if cond.eval row then x.eval row else y.eval row

def reads : {α : Type} → Expr Val α → List Col
  | _, col c => [c]
  | _, const _ => []
  | _, app _ x y => x.reads ++ y.reads
  | _, caseWhen cond x y => cond.reads ++ x.reads ++ y.reads

theorem eval_congr {row row' : Row Val} {α : Type} {e : Expr Val α}
    (h : ∀ c ∈ e.reads, row c = row' c) : e.eval row = e.eval row' := by
  induction e with
  | col c => exact h c (by simp [reads])
  | const a => rfl
  | app f x y ihx ihy =>
    have hx := ihx fun c hc => h c (by simp [reads, hc])
    have hy := ihy fun c hc => h c (by simp [reads, hc])
    simp only [eval, hx, hy]
  | caseWhen cond x y ihc ihx ihy =>
    have hc := ihc fun c hc => h c (by simp [reads, hc])
    have hx := ihx fun c hc => h c (by simp [reads, hc])
    have hy := ihy fun c hc => h c (by simp [reads, hc])
    simp only [eval, hc, hx, hy]

end Expr

structure Assignment (Val : Col → Type) where
  target : Col
  rhs : Expr Val (Val target)

variable [DecidableEq Col]

def Assignment.write (a : Assignment Val) (old row : Row Val) : Row Val :=
  Function.update row a.target (a.rhs.eval old)

def leftToRight (set : List (Assignment Val)) (row : Row Val) : Row Val :=
  set.foldl (fun row a => a.write row row) row

def preUpdate (set : List (Assignment Val)) (row : Row Val) : Row Val :=
  set.foldl (fun new a => a.write row new) row

theorem leftToRight_eq_preUpdate {set : List (Assignment Val)}
    (h : set.Pairwise fun a b => a.target ∉ b.rhs.reads) (row : Row Val) :
    leftToRight set row = preUpdate set row := by
  suffices hh : ∀ cur : Row Val, (∀ a ∈ set, ∀ c ∈ a.rhs.reads, cur c = row c) →
      set.foldl (fun row a => a.write row row) cur =
        set.foldl (fun new a => a.write row new) cur from hh row fun _ _ _ _ => rfl
  induction set with
  | nil => exact fun _ _ => rfl
  | cons a set ih =>
    intro cur hcur
    obtain ⟨ha, hset⟩ := List.pairwise_cons.mp h
    have hval : a.rhs.eval cur = a.rhs.eval row := Expr.eval_congr (hcur a (by simp))
    have hwrite : a.write cur cur = a.write row cur := by simp only [Assignment.write, hval]
    simp only [List.foldl_cons, hwrite]
    refine ih hset _ fun b hb c hc => ?_
    have hne : c ≠ a.target := fun he => ha b hb (he ▸ hc)
    rw [Assignment.write, Function.update_of_ne hne]
    exact hcur b (List.mem_cons_of_mem a hb) c hc

end SetList
