import Velocity.Lib.Pool

/-! Leases: a key is held from the event that takes it to the event by which its holder gives it
back or it is forced open. A key whose holder's time is over may be taken again. -/

namespace Lease

open List

variable {K H T : Type}

inductive Event (K H T : Type)
  | taken (k : K) (h : H) (now expires : T)
  | left (h : H)
  | forced (k : K)

section Holder

variable [DecidableEq K] [DecidableEq H]

def after (k : K) (cur : Option (H × T)) : Event K H T → Option (H × T)
  | .taken k' h _ e => if k' = k then some (h, e) else cur
  | .left h => if cur.map Prod.fst = some h then none else cur
  | .forced k' => if k' = k then none else cur

def holder (k : K) (l : List (Event K H T)) : Option (H × T) := l.foldl (after k) none

@[simp] theorem holder_nil (k : K) : holder k ([] : List (Event K H T)) = none := rfl

theorem holder_append (k : K) (l l' : List (Event K H T)) :
    holder k (l ++ l') = l'.foldl (after k) (holder k l) :=
  foldl_append

theorem holder_concat (k : K) (l : List (Event K H T)) (ev : Event K H T) :
    holder k (l ++ [ev]) = after k (holder k l) ev :=
  holder_append k l [ev]

/-- Neither given back by `h` nor forced open. -/
def Event.Keeps (k : K) (h : H) : Event K H T → Prop
  | .taken _ _ _ _ => True
  | .left h' => h' ≠ h
  | .forced k' => k' ≠ k

def Event.Takes (k : K) : Event K H T → Prop
  | .taken k' _ _ _ => k' = k
  | _ => False

variable {l : List (Event K H T)}

theorem foldl_after_of_keeps {k : K} {h : H} {e : T}
    (hkeep : ∀ ev ∈ l, ev.Keeps k h) (htake : ∀ ev ∈ l, ¬ev.Takes k) :
    l.foldl (after k) (some (h, e)) = some (h, e) := by
  induction l with
  | nil => rfl
  | cons ev l ih =>
    have hrest := ih (fun x hx => hkeep x (mem_cons_of_mem _ hx))
      (fun x hx => htake x (mem_cons_of_mem _ hx))
    have hk := hkeep ev mem_cons_self
    have ht := htake ev mem_cons_self
    have hfirst : after k (some (h, e)) ev = some (h, e) := by
      cases ev with
      | taken k' h' n e' => exact if_neg ht
      | left h' =>
        have hne : h' ≠ h := hk
        simp [after, hne.symm]
      | forced k' => exact if_neg hk
    rw [foldl_cons, hfirst, hrest]

def Guarded (live : T → T → Prop) (l : List (Event K H T)) : Prop :=
  Interleave.EachAfter (fun pre ev => ∀ k h n e h' e', ev = .taken k h n e →
    holder k pre = some (h', e') → ¬live n e') l

variable {live : T → T → Prop}

theorem Guarded.next {k : K} {h h' : H} {n e n' e' : T} {pre mid post : List (Event K H T)}
    (hg : Guarded live (pre ++ .taken k h n e :: (mid ++ .taken k h' n' e' :: post)))
    (hkeep : ∀ ev ∈ mid, ev.Keeps k h) (htake : ∀ ev ∈ mid, ¬ev.Takes k) : ¬live n' e := by
  have hheld : holder k (pre ++ .taken k h n e :: mid) = some (h, e) := by
    rw [holder_append, foldl_cons]
    have hfirst : after k (holder k pre) (.taken k h n e) = some (h, e) := if_pos rfl
    rw [hfirst]
    exact foldl_after_of_keeps hkeep htake
  exact hg (pre ++ .taken k h n e :: mid) (.taken k h' n' e') post (by simp) k h' n' e' h e rfl hheld

end Holder

end Lease
