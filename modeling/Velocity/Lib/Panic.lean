import Velocity.Lib.Prog

/-! Sequential code that may panic. Its local variables outlive a panic, and a deferred
function sees how the code before it ended and decides how the whole ends. -/

namespace Interleave

def Code {Op : Type} (Res : Op → Type) (V σ α : Type) : Type := σ → Prog Res (Except V α × σ)

namespace Code

variable {Op : Type} {Res : Op → Type} {V σ α β : Type} {o : Op} {h : V → Code Res V σ α}

def deferring (c : Code Res V σ α) (d : Except V α → Code Res V σ β) : Code Res V σ β :=
  fun s => c s >>= fun p => d p.1 p.2

def panic (v : V) : Code Res V σ α := fun s => .ret (.error v, s)

instance : Monad (Code Res V σ) where
  pure a := fun s => .ret (.ok a, s)
  bind c f := c.deferring fun
    | .ok a => f a
    | .error v => panic v

def recovering (c : Code Res V σ α) (h : V → Code Res V σ α) : Code Res V σ α :=
  c.deferring fun
    | .ok a => pure a
    | .error v => h v

def perform (o : Op) : Code Res V σ (Res o) := fun s => .call o fun r => .ret (.ok r, s)

def raise : Except V α → Code Res V σ α
  | .ok a => pure a
  | .error v => panic v

def read : Code Res V σ σ := fun s => .ret (.ok s, s)

def assign (f : σ → σ) : Code Res V σ Unit := fun s => .ret (.ok (), f s)

def when (b : Bool) (c : Code Res V σ Unit) : Code Res V σ Unit := if b then c else pure ()

def upTo (f : Nat → Code Res V σ Unit) : Nat → Code Res V σ Unit
  | 0 => pure ()
  | n + 1 => do
    upTo f n
    f n

def wp (mon : Monitor Res) (c : Code Res V σ α) (s : σ) (m : mon.State)
    (Q : Except V α → σ → mon.State → Prop) : Prop :=
  (c s).wp mon m fun p m' => Q p.1 p.2 m'

variable {mon : Monitor Res} {s : σ} {m : mon.State} {c : Code Res V σ α}
  {Q : Except V β → σ → mon.State → Prop} {d : Except V α → Code Res V σ β}
  {P : Except V α → σ → mon.State → Prop}

theorem wp_deferring :
    (c.deferring d).wp mon s m Q ↔ c.wp mon s m fun r s' m' => (d r).wp mon s' m' Q :=
  Prog.wp_bind mon _ _ _ _

theorem wp_mono {Q : Except V α → σ → mon.State → Prop}
    (h : c.wp mon s m P) (hPQ : ∀ r s' m', P r s' m' → Q r s' m') : c.wp mon s m Q :=
  Prog.wp_mono h fun p => hPQ p.1 p.2

theorem wp_deferring_of (hc : c.wp mon s m P) (hd : ∀ r s' m', P r s' m' → (d r).wp mon s' m' Q) :
    (c.deferring d).wp mon s m Q :=
  wp_deferring.mpr (wp_mono hc hd)

variable {f : α → Code Res V σ β}

theorem wp_bind : (c >>= f).wp mon s m Q ↔ c.wp mon s m fun r s' m' =>
      match r with
      | .ok a => (f a).wp mon s' m' Q
      | .error v => Q (.error v) s' m' := by
  refine wp_deferring.trans ⟨fun h => wp_mono h ?_, fun h => wp_mono h ?_⟩
  all_goals
    intro r s' m' hr
    cases r with
    | ok a => exact hr
    | error v => exact hr

theorem wp_perform_bind {f : Res o → Code Res V σ β} : (perform o >>= f).wp mon s m Q ↔
      ∀ r, mon.allowed o r → mon.guard m o r ∧ (f r).wp mon s (mon.next m o r) Q := Iff.rfl

theorem wp_read_bind {f : σ → Code Res V σ β} :
    (read >>= f).wp mon s m Q ↔ (f s).wp mon s m Q := Iff.rfl

theorem wp_assign_bind {g : σ → σ} {f : Unit → Code Res V σ β} :
    (assign g >>= f).wp mon s m Q ↔ (f ()).wp mon (g s) m Q := Iff.rfl

theorem wp_recovering {Q : Except V α → σ → mon.State → Prop} :
    (c.recovering h).wp mon s m Q ↔ c.wp mon s m fun r s' m' =>
      match r with
      | .ok a => Q (.ok a) s' m'
      | .error v => (h v).wp mon s' m' Q := by
  refine wp_deferring.trans ⟨fun hc => wp_mono hc ?_, fun hc => wp_mono hc ?_⟩
  all_goals
    intro r s' m' hr
    cases r with
    | ok a => exact hr
    | error v => exact hr

theorem wp_raise {c : Code Res V σ (Except V α)} {Q : Except V α → σ → mon.State → Prop} :
    (c >>= raise).wp mon s m Q ↔ c.wp mon s m fun r s' m' =>
      match r with
      | .ok x => Q x s' m'
      | .error v => Q (.error v) s' m' := by
  refine wp_bind.trans ⟨fun hc => wp_mono hc ?_, fun hc => wp_mono hc ?_⟩
  all_goals
    intro r s' m' hr
    rcases r with v | v | a
    · exact hr
    · exact hr
    · exact hr

def Quiet (mon : Monitor Res) (c : Code Res V σ α) : Prop :=
  ∀ s m, c.wp mon s m fun r s' m' => (∃ a, r = .ok a) ∧ s' = s ∧ m' = m

theorem wp_bind_of {P : α → σ → mon.State → Prop}
    (hc : c.wp mon s m fun r s' m' => ∃ a, r = .ok a ∧ P a s' m')
    (hf : ∀ a s' m', P a s' m' → (f a).wp mon s' m' Q) : (c >>= f).wp mon s m Q := by
  refine wp_bind.mpr (wp_mono hc ?_)
  rintro r s' m' ⟨a, rfl, ha⟩
  exact hf a s' m' ha

theorem Quiet.wp_bind (hc : c.Quiet mon)
    (hf : ∀ a, (f a).wp mon s m Q) : (c >>= f).wp mon s m Q := by
  refine Code.wp_bind.mpr (wp_mono (hc s m) ?_)
  rintro r s' m' ⟨⟨a, rfl⟩, rfl, rfl⟩
  exact hf a

theorem Quiet.pure (a : α) : (pure a : Code Res V σ α).Quiet mon :=
  fun _ _ => ⟨⟨a, rfl⟩, rfl, rfl⟩

theorem Quiet.bind (hc : c.Quiet mon) (hf : ∀ a, (f a).Quiet mon) : (c >>= f).Quiet mon :=
  fun s m => hc.wp_bind fun a => hf a s m

theorem Quiet.perform (h : ∀ m r, mon.guard m o r ∧ mon.next m o r = m) :
    (perform o : Code Res V σ (Res o)).Quiet mon :=
  fun _ m r _ => ⟨(h m r).1, ⟨r, rfl⟩, rfl, (h m r).2⟩

theorem Quiet.when {b : Bool} {c : Code Res V σ Unit} (h : c.Quiet mon) :
    (Code.when b c).Quiet mon := by
  cases b with
  | true => exact h
  | false => exact Quiet.pure ()

theorem Quiet.upTo {f : Nat → Code Res V σ Unit} (h : ∀ i, (f i).Quiet mon) (n : Nat) :
    (Code.upTo f n).Quiet mon := by
  induction n with
  | zero => exact Quiet.pure ()
  | succ n ih => exact ih.bind fun _ => h n

theorem Quiet.recovering_raise {c : Code Res V σ (Except V α)}
    (hc : c.Quiet mon) (hh : ∀ v, (h v).Quiet mon) : ((c >>= raise).recovering h).Quiet mon := by
  intro s m
  refine wp_recovering.mpr (wp_raise.mpr (wp_mono (hc s m) ?_))
  rintro r s' m' ⟨⟨x, rfl⟩, rfl, rfl⟩
  cases x with
  | ok a => exact ⟨⟨a, rfl⟩, rfl, rfl⟩
  | error v => exact hh v s' m'

end Code

end Interleave
