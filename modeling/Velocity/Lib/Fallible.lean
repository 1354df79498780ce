import Velocity.Lib.Prog

/-! Programs that may end with an error. -/

namespace Interleave

namespace Prog

variable {Op ε' : Type} {Res : Op → Type} {α β ε : Type} {mon : Monitor Res}

def andThen (p : Prog Res (Except ε α)) (f : α → Prog Res (Except ε β)) : Prog Res (Except ε β) :=
  p >>= fun
    | .ok a => f a
    | .error e => ret (.error e)

def mapError {ε' : Type} (f : ε → ε') (p : Prog Res (Except ε α)) : Prog Res (Except ε' α) :=
  p >>= fun
    | .ok a => ret (.ok a)
    | .error e => ret (.error (f e))

section Eval

variable {World Env : Type} (exec : World → Env → (o : Op) → Res o × World) (e : Env)

theorem eval_andThen (p : Prog Res (Except ε α)) (f : α → Prog Res (Except ε β)) (w : World) :
    (p.andThen f).eval exec e w = match p.eval exec e w with
      | (.ok a, w') => (f a).eval exec e w'
      | (.error err, w') => (.error err, w') := by
  rw [andThen, eval_bind]
  obtain ⟨r, w'⟩ := p.eval exec e w
  cases r with
  | ok a => rfl
  | error err => rfl

end Eval

variable {p : Prog Res (Except ε α)} {f : α → Prog Res (Except ε β)}

theorem All.andThen {P : Op → Prop}
    (hp : p.All P) (hf : ∀ a, (f a).All P) : (p.andThen f).All P := by
  refine All.bind hp ?_
  intro a
  cases a with
  | ok a => exact hf a
  | error e => exact trivial

theorem All.mapError {P : Op → Prop} (hp : p.All P) (f : ε → ε') : (p.mapError f).All P := by
  refine All.bind hp ?_
  intro a
  cases a with
  | ok a => exact trivial
  | error e => exact trivial

variable {P : Except ε α → mon.State → Prop} {m : mon.State}

theorem wp_mapError {f : ε → ε'} {Q : Except ε' α → mon.State → Prop}
    (hp : p.wp mon m P) (hok : ∀ a m', P (.ok a) m' → Q (.ok a) m')
    (herror : ∀ e m', P (.error e) m' → Q (.error (f e)) m') : (p.mapError f).wp mon m Q := by
  refine wp_bind_of hp ?_
  intro a m' ha
  cases a with
  | ok a => exact hok a m' ha
  | error e => exact herror e m' ha

theorem wp_andThen {Q : Except ε β → mon.State → Prop}
    (hp : p.wp mon m P) (hok : ∀ a m', P (.ok a) m' → (f a).wp mon m' Q)
    (herror : ∀ e m', P (.error e) m' → Q (.error e) m') : (p.andThen f).wp mon m Q := by
  refine wp_bind_of hp ?_
  intro a m' ha
  cases a with
  | ok a => exact hok a m' ha
  | error e => exact herror e m' ha

end Prog

end Interleave
