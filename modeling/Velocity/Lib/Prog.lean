import Mathlib.Tactic

/-! Sequential programs as trees of calls. A program over operations `Op` calls an operation,
receives an answer of the type `Res` gives it, and goes on. What a thread may do, whatever it is
answered, is stated with a monitor: a state that follows the calls, and a guard each has to meet. -/

namespace Interleave

theorem mem_concat {α : Type} {l : List α} {a x : α} : x ∈ l ++ [a] ↔ x ∈ l ∨ x = a := by
  simp

inductive Prog {Op : Type} (Res : Op → Type) (α : Type) : Type
  | ret (a : α) : Prog Res α
  | call (o : Op) (k : Res o → Prog Res α) : Prog Res α

variable {c : Bool}

namespace Prog

variable {Op : Type} {Res : Op → Type} {α β : Type}

protected def bind : Prog Res α → (α → Prog Res β) → Prog Res β
  | ret a, f => f a
  | call o k, f => call o fun r => (k r).bind f

instance : Monad (Prog Res) where
  pure := ret
  bind := Prog.bind

def perform (o : Op) : Prog Res (Res o) := call o ret

def when (c : Bool) (p : Prog Res Unit) : Prog Res Unit := if c then p else ret ()

@[simp] theorem pure_eq (a : α) : (pure a : Prog Res α) = ret a := rfl

@[simp] theorem ret_bind (a : α) (f : α → Prog Res β) : (ret a >>= f) = f a := rfl

@[simp] theorem call_bind (o : Op) (k : Res o → Prog Res α) (f : α → Prog Res β) :
    (call o k >>= f) = call o (fun r => k r >>= f) := rfl

def eval {World Env : Type} (exec : World → Env → (o : Op) → Res o × World) (e : Env) :
    Prog Res α → World → α × World
  | ret a, w => (a, w)
  | call o k, w => (k (exec w e o).1).eval exec e (exec w e o).2

theorem eval_bind {World Env : Type} (exec : World → Env → (o : Op) → Res o × World) (e : Env)
    (p : Prog Res α) (f : α → Prog Res β) (w : World) :
    (p >>= f).eval exec e w = (f (p.eval exec e w).1).eval exec e (p.eval exec e w).2 := by
  induction p generalizing w with
  | ret a => rfl
  | call o k ih => exact ih _ _

def hoist {Op' : Type} {Res' : Op' → Type} (f : (o : Op) → Prog Res' (Res o)) :
    Prog Res α → Prog Res' α
  | ret a => ret a
  | call o k => f o >>= fun r => (k r).hoist f

/-- A handler answers the calls and may make calls itself. -/
def interpret {Op' : Type} {Res' : Op' → Type} {S : Type}
    (handle : S → (o : Op) → Prog Res' (Res o × S)) : Prog Res α → S → Prog Res' (α × S)
  | ret a, s => ret (a, s)
  | call o k, s => handle s o >>= fun r => (k r.1).interpret handle r.2

theorem bind_bind {γ : Type} (p : Prog Res α) (f : α → Prog Res β) (g : β → Prog Res γ) :
    (p >>= f) >>= g = p >>= fun a => f a >>= g := by
  induction p with
  | ret a => rfl
  | call o k ih =>
    simp only [call_bind, ih]

theorem interpret_bind {Op' : Type} {Res' : Op' → Type} {S : Type}
    (handle : S → (o : Op) → Prog Res' (Res o × S)) (p : Prog Res α) (f : α → Prog Res β) (s : S) :
    (p >>= f).interpret handle s = p.interpret handle s >>= fun r => (f r.1).interpret handle r.2 := by
  induction p generalizing s with
  | ret a => rfl
  | call o k ih =>
    simp only [call_bind, interpret, ih, bind_bind]

def All (P : Op → Prop) : Prog Res α → Prop
  | ret _ => True
  | call o k => P o ∧ ∀ r, (k r).All P

variable {P : Op → Prop}

theorem All.of_forall (h : ∀ o, P o) (p : Prog Res α) : p.All P := by
  induction p with
  | ret a => trivial
  | call o k ih => exact ⟨h o, ih⟩

variable {p : Prog Res α}

theorem All.mono {P Q : Op → Prop} (hp : p.All P) (h : ∀ o, P o → Q o) : p.All Q := by
  induction p with
  | ret a => trivial
  | call o k ih => exact ⟨h o hp.1, fun r => ih r (hp.2 r)⟩

variable {f : α → Prog Res β}

theorem All.bind (hp : p.All P) (hf : ∀ a, (f a).All P) : (p >>= f).All P := by
  induction p with
  | ret a => exact hf a
  | call o k ih => exact ⟨hp.1, fun r => ih r (hp.2 r)⟩

theorem All.perform_bind {o : Op} {f : Res o → Prog Res β} (ho : P o)
    (hf : ∀ r, (f r).All P) : (perform o >>= f).All P :=
  ⟨ho, hf⟩

theorem All.when {p : Prog Res Unit} (hp : c = true → p.All P) : (Prog.when c p).All P := by
  cases c with
  | true => exact hp rfl
  | false => trivial

theorem All.eval {World Env : Type} {exec : World → Env → (o : Op) → Res o × World} {e : Env}
    {I : World → Prop} (hp : p.All P) (hstep : ∀ w o, P o → I w → I (exec w e o).2)
    {w : World} (hw : I w) : I (p.eval exec e w).2 := by
  induction p generalizing w with
  | ret a => exact hw
  | call o k ih => exact ih _ (hp.2 _) (hstep w o hp.1 hw)

def Results (P : α → Prop) : Prog Res α → Prop
  | ret a => P a
  | call _ k => ∀ r, (k r).Results P

theorem Results.of_forall {P : α → Prop} (h : ∀ a, P a) (p : Prog Res α) : p.Results P := by
  induction p with
  | ret a => exact h a
  | call o k ih => exact ih

theorem Results.bind {P : α → Prop} {Q : β → Prop}
    (hp : p.Results P) (hf : ∀ a, P a → (f a).Results Q) : (p >>= f).Results Q := by
  induction p with
  | ret a => exact hf a hp
  | call o k ih => exact fun r => ih r (hp r)

theorem Results.bind_any {Q : β → Prop} (hf : ∀ a, (f a).Results Q) : (p >>= f).Results Q :=
  (Results.of_forall (P := fun _ => True) (fun _ => trivial) p).bind fun a _ => hf a

end Prog

/-- Of one thread: the answers it counts on, its state, and the guard of a call and its answer. -/
structure Monitor {Op : Type} (Res : Op → Type) where
  State : Type
  init : State
  allowed : (o : Op) → Res o → Prop
  guard : State → (o : Op) → Res o → Prop
  next : State → (o : Op) → Res o → State

namespace Prog

variable {Op : Type} {Res : Op → Type} {α β : Type}

def wp (mon : Monitor Res) : Prog Res α → mon.State → (α → mon.State → Prop) → Prop
  | ret a, m, Q => Q a m
  | call o k, m, Q => ∀ r, mon.allowed o r → mon.guard m o r ∧ (k r).wp mon (mon.next m o r) Q

variable (mon : Monitor Res)

@[simp] theorem wp_call (o : Op) (k : Res o → Prog Res α) (m : mon.State)
    (Q : α → mon.State → Prop) : (call o k).wp mon m Q ↔
      ∀ r, mon.allowed o r → mon.guard m o r ∧ (k r).wp mon (mon.next m o r) Q := Iff.rfl

theorem wp_bind (p : Prog Res α) (f : α → Prog Res β) (m : mon.State) (Q : β → mon.State → Prop) :
    (p >>= f).wp mon m Q ↔ p.wp mon m (fun a m' => (f a).wp mon m' Q) := by
  induction p generalizing m with
  | ret a => rfl
  | call o k ih => simp only [call_bind, wp_call, ih]

variable {mon} {p : Prog Res α} {m : mon.State}

theorem wp_perform_bind {o : Op} {f : Res o → Prog Res β} {Q : β → mon.State → Prop}
    (h : ∀ r, mon.allowed o r → mon.guard m o r ∧ (f r).wp mon (mon.next m o r) Q) :
    (perform o >>= f).wp mon m Q := h

theorem wp_mono {Q R : α → mon.State → Prop} (h : p.wp mon m Q) (hQR : ∀ a m', Q a m' → R a m') :
    p.wp mon m R := by
  induction p generalizing m with
  | ret a => exact hQR a m h
  | call o k ih => exact fun r hr => ⟨(h r hr).1, ih r (h r hr).2⟩

theorem Results.wp {P : α → Prop} (hp : p.Results P) {Q : α → mon.State → Prop} (h : p.wp mon m Q) :
    p.wp mon m fun a m' => P a ∧ Q a m' := by
  induction p generalizing m with
  | ret a => exact ⟨hp, h⟩
  | call o k ih => exact fun r hr => ⟨(h r hr).1, ih r (hp r) (h r hr).2⟩

theorem wp_when {p : Prog Res Unit} {Q : Unit → mon.State → Prop} (hp : c = true → p.wp mon m Q)
    (hQ : c = false → Q () m) : (when c p).wp mon m Q := by
  cases c with
  | true => exact hp rfl
  | false => exact hQ rfl

variable (mon) in
theorem wp_of_kept {J : mon.State → Prop}
    (h : p.All fun o => ∀ m r, J m → mon.guard m o r ∧ J (mon.next m o r)) {m : mon.State}
    (hm : J m) : p.wp mon m fun _ m' => J m' := by
  induction p generalizing m with
  | ret a => exact hm
  | call o k ih =>
    intro r _
    obtain ⟨hg, hn⟩ := h.1 m r hm
    exact ⟨hg, ih r (h.2 r) hn⟩

variable (mon) in
theorem wp_of_neutral (h : p.All fun o => ∀ m r, mon.guard m o r ∧ mon.next m o r = m)
    (m : mon.State) : p.wp mon m fun _ m' => m' = m := by
  refine wp_of_kept mon (h.mono fun o ho m' r hm => ?_) rfl
  obtain ⟨hg, hn⟩ := ho m' r
  exact ⟨hg, hn.trans hm⟩

theorem wp_bind_of {f : α → Prog Res β} {P : α → mon.State → Prop} {Q : β → mon.State → Prop}
    (hp : p.wp mon m P) (hf : ∀ a m', P a m' → (f a).wp mon m' Q) : (p >>= f).wp mon m Q :=
  (wp_bind mon p f m Q).mpr (wp_mono hp hf)

def tag {ι : Type} (i : ι) : Prog Res α → Prog (fun o : ι × Op => Res o.2) α
  | ret a => ret a
  | call o k => call (i, o) fun r => (k r).tag i

end Prog

def Monitor.tag {ι Op : Type} {Res : Op → Type} (mon : Monitor Res) (i : ι) :
    Monitor (fun o : ι × Op => Res o.2) where
  State := mon.State
  init := mon.init
  allowed o r := mon.allowed o.2 r
  guard m o r := o.1 = i ∧ mon.guard m o.2 r
  next m o r := mon.next m o.2 r

theorem Prog.wp_tag {ι Op : Type} {Res : Op → Type} {α : Type} {mon : Monitor Res} {p : Prog Res α}
    {m : mon.State} {Q : α → mon.State → Prop} (h : p.wp mon m Q) (i : ι) :
    (p.tag i).wp (mon.tag i) m Q := by
  induction p generalizing m with
  | ret a => exact h
  | call o k ih =>
    intro r hr
    obtain ⟨hg, hk⟩ := h r hr
    exact ⟨⟨rfl, hg⟩, ih r hk⟩

end Interleave
