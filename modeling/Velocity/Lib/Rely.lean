import Velocity.Lib.Pool

/-! Rely and guarantee. A thread is judged from the world it stands in, against others that change
the world only within a preorder; it keeps within the preorder itself, so the threads of a pool may
be judged one by one. -/

namespace Interleave

variable {Op : Type} {Res : Op → Type} {World Env Call α β : Type}

namespace Prog

variable (exec : World → Env → (o : Op) → Res o × World) (R : World → World → Prop)

def Under (Q : α → World → Prop) : Prog Res α → World → Prop
  | ret a, w => Q a w
  | call o k, w => ∀ w' e, R w w' → R w' (exec w' e o).2 ∧ (k (exec w' e o).1).Under Q (exec w' e o).2

def Keeps (p : Prog Res α) : Prop := ∀ w, p.Under exec R (fun _ _ => True) w

variable {exec R} {p : Prog Res α} {f : α → Prog Res β} {w : World}

theorem under_bind {Q : β → World → Prop} :
    (p >>= f).Under exec R Q w ↔ p.Under exec R (fun a w => (f a).Under exec R Q w) w := by
  induction p generalizing w with
  | ret a => rfl
  | call o k ih =>
    apply forall₃_congr
    intro w' e hR
    exact and_congr_right fun _ => ih _

theorem Under.mono {Q Q' : α → World → Prop}
    (h : p.Under exec R Q w) (hQ : ∀ a w, Q a w → Q' a w) : p.Under exec R Q' w := by
  induction p generalizing w with
  | ret a => exact hQ a w h
  | call o k ih =>
    intro w' e hR
    exact ⟨(h w' e hR).1, ih _ (h w' e hR).2⟩

variable {Q : α → World → Prop}

theorem Under.stable (htrans : ∀ u v w, R u v → R v w → R u w)
    (hQ : ∀ a w w', R w w' → Q a w → Q a w') {w w' : World}
    (h : p.Under exec R Q w) (hR : R w w') : p.Under exec R Q w' := by
  cases p with
  | ret a => exact hQ a w w' hR h
  | call o k =>
    intro v e hv
    exact h v e (htrans _ _ _ hR hv)

theorem Under.reached (htrans : ∀ u v w, R u v → R v w → R u w) {w v : World}
    (h : p.Under exec R Q v) (hw : R w v) : p.Under exec R (fun a w' => Q a w' ∧ R w w') v := by
  induction p generalizing v with
  | ret a => exact ⟨h, hw⟩
  | call o k ih =>
    intro v' e hv
    obtain ⟨hstep, hrest⟩ := h v' e hv
    exact ⟨hstep, ih _ hrest (htrans _ _ _ (htrans _ _ _ hw hv) hstep)⟩

theorem Under.bind_keeps (hrefl : ∀ w, R w w) (htrans : ∀ u v w, R u v → R v w → R u w)
    {Q : β → World → Prop} (hp : p.Keeps exec R) (hf : ∀ a w', R w w' → (f a).Under exec R Q w') :
    (p >>= f).Under exec R Q w := by
  apply under_bind.mpr
  have h := (hp w).reached htrans (hrefl w)
  exact h.mono fun a w' ha => hf a w' ha.2

theorem Results.under {P : α → Prop} (hp : p.Results P)
    (h : p.Under exec R Q w) : p.Under exec R (fun a w' => P a ∧ Q a w') w := by
  induction p generalizing w with
  | ret a => exact ⟨hp, h⟩
  | call o k ih =>
    intro w' e hR
    exact ⟨(h w' e hR).1, ih _ (hp _) (h w' e hR).2⟩

theorem Keeps.ret (a : α) : (ret a : Prog Res α).Keeps exec R := fun _ => trivial

theorem Keeps.bind (hp : p.Keeps exec R)
    (hf : ∀ a, (f a).Keeps exec R) : (p >>= f).Keeps exec R := by
  intro w
  apply under_bind.mpr
  exact (hp w).mono fun a w' _ => hf a w'

theorem Keeps.perform {o : Op} (h : ∀ w e, R w (exec w e o).2) :
    (perform o : Prog Res (Res o)).Keeps exec R :=
  fun _ w' e _ => ⟨h w' e, trivial⟩

variable (exec R) in
/-- Among others within `R`, a result comes with `Q` as long as every operation ends in `A`. -/
def Amid (A : Env → World → Prop) (Q : α → World → Prop) : Prog Res α → World → Prop
  | ret a, w => Q a w
  | call o k, w => ∀ w' e, R w w' → A e (exec w' e o).2 → (k (exec w' e o).1).Amid A Q (exec w' e o).2

variable {A : Env → World → Prop}

theorem amid_bind {Q : β → World → Prop} : (p >>= f).Amid exec R A Q w ↔
      p.Amid exec R A (fun a w => (f a).Amid exec R A Q w) w := by
  induction p generalizing w with
  | ret a => rfl
  | call o k ih =>
    apply forall₄_congr
    intro w' e hR hA
    exact ih _

theorem Amid.mono {Q Q' : α → World → Prop}
    (h : p.Amid exec R A Q w) (hQ : ∀ a w, Q a w → Q' a w) : p.Amid exec R A Q' w := by
  induction p generalizing w with
  | ret a => exact hQ a w h
  | call o k ih =>
    intro w' e hR hA
    exact ih _ (h w' e hR hA)

theorem Amid.eval {J : World → Prop} {e : Env} (hrefl : ∀ w, R w w)
    (hJ : ∀ w o, J w → J (exec w e o).2 ∧ A e (exec w e o).2) (h : p.Amid exec R A Q w) (hw : J w) :
    Q (p.eval exec e w).1 (p.eval exec e w).2 := by
  induction p generalizing w with
  | ret a => exact h
  | call o k ih => exact ih _ (h w e (hrefl w) (hJ w o hw).2) (hJ w o hw).1

end Prog

namespace System

variable (sys : System Res World Env Call α)

theorem run_alone {p : Pool Res World Call α} {i : Nat}
    {c : Call} {q : Prog Res α} (h : p.threads[i]? = some ⟨c, some q⟩) (e : Env) :
    ∃ n, (sys.run p (List.replicate n (.run i e))).world = (q.eval sys.exec e p.world).2 ∧
      (sys.run p (List.replicate n (.run i e))).threads =
        p.threads.set i ⟨c, some (.ret (q.eval sys.exec e p.world).1)⟩ := by
  induction q generalizing p with
  | ret a =>
    obtain ⟨hlt, hi⟩ := List.getElem?_eq_some_iff.mp h
    refine ⟨0, rfl, ?_⟩
    rw [Prog.eval, ← hi, List.set_getElem_self]
    rfl
  | call o k ih =>
    have hlen : i < p.threads.length := (List.getElem?_eq_some_iff.mp h).1
    have hstep : sys.step p (.run i e) = ⟨(sys.exec p.world e o).2,
        p.threads.set i ⟨c, some (k (sys.exec p.world e o).1)⟩,
        p.log ++ [⟨i, o, (sys.exec p.world e o).1⟩]⟩ := by
      simp only [step, h]
    have hnext : (sys.step p (.run i e)).threads[i]? = some ⟨c, some (k (sys.exec p.world e o).1)⟩ := by
      rw [hstep]
      exact List.getElem?_set_self hlen
    obtain ⟨n, hworld, hthreads⟩ := ih _ hnext
    refine ⟨n + 1, ?_, ?_⟩
    · rw [List.replicate_succ, run_cons, hworld, hstep]
      rfl
    · rw [List.replicate_succ, run_cons, hthreads, hstep, List.set_set]
      rfl

theorem call_alone (p : Pool Res World Call α) (c : Call)
    (e : Env) : ∃ acts, (sys.run p acts).world = ((sys.body c).eval sys.exec e p.world).2 ∧
      (sys.run p acts).threads =
        p.threads ++ [⟨c, some (.ret ((sys.body c).eval sys.exec e p.world).1)⟩] := by
  have hnew : (sys.step p (.spawn c)).threads[p.threads.length]? =
      some ⟨c, some (sys.body c)⟩ := by simp [step]
  obtain ⟨n, hworld, hthreads⟩ := sys.run_alone hnew e
  refine ⟨.spawn c :: List.replicate n (.run p.threads.length e), hworld, ?_⟩
  rw [run_cons, hthreads]
  simp [step]

variable (R : World → World → Prop)
  (Q : Nat → Call → α → World → Prop)

def Relies (p : Pool Res World Call α) : Prop :=
  ∀ (i : Nat) (c : Call) (q : Prog Res α), p.threads[i]? = some ⟨c, some q⟩ →
    q.Under sys.exec R (Q i c) p.world

variable {sys R Q}

section

variable (hrefl : ∀ w, R w w) (htrans : ∀ u v w, R u v → R v w → R u w)
  (hQ : ∀ i c a w w', R w w' → Q i c a w → Q i c a w')

include hrefl htrans hQ

variable {p : Pool Res World Call α}

theorem relies_step (hp : Relies sys R Q p) (a : Act Env Call)
    (hbody : ∀ c, (sys.body c).Under sys.exec R (Q p.threads.length c) p.world) :
    R p.world (sys.step p a).world ∧ Relies sys R Q (sys.step p a) := by
  constructor
  · rcases sys.world_step p a with ⟨hw, -⟩ | ⟨i, e, c, o, k, hi, hw, -⟩
    · rw [hw]
      exact hrefl _
    · rw [hw]
      exact (hp i c _ hi p.world e (hrefl _)).1
  · intro j c q hj
    rcases sys.live_step hj with ⟨-, rfl, rfl, hw, -⟩ | ⟨e, o, k, hi, rfl, hw, -⟩ | ⟨hi, hrest⟩
    · rw [hw]
      exact hbody c
    · rw [hw]
      exact (hp j c _ hi p.world e (hrefl _)).2
    · rcases hrest with ⟨hw, -⟩ | ⟨i, e, c', o, k, -, hi', hw, -⟩
      · rw [hw]
        exact hp j c q hi
      · rw [hw]
        exact (hp j c q hi).stable htrans (hQ j c) (hp i c' _ hi' p.world e (hrefl _)).1

section

variable (hp : Relies sys R Q p)
  (hbody : ∀ n c w, p.threads.length ≤ n → R p.world w → (sys.body c).Under sys.exec R (Q n c) w)

include hp hbody

theorem relies_run (acts : List (Act Env Call)) :
    R p.world (sys.run p acts).world ∧ Relies sys R Q (sys.run p acts) := by
  induction acts generalizing p with
  | nil => exact ⟨hrefl _, hp⟩
  | cons a acts ih =>
    obtain ⟨hstep, hnext⟩ := relies_step hrefl htrans hQ hp a fun c =>
      hbody _ c _ (le_refl _) (hrefl _)
    have hlen := sys.length_threads_le p a
    obtain ⟨hrest, hend⟩ := ih hnext fun n c w hn hw => hbody n c w (by omega) (htrans _ _ _ hstep hw)
    exact ⟨htrans _ _ _ hstep hrest, hend⟩

theorem invariant_relies {I : World → Log Res → Prop} (h0 : I p.world p.log)
    (hstep : ∀ w l i e o, I w l → R w (sys.exec w e o).2 →
      I (sys.exec w e o).2 (l ++ [⟨i, o, (sys.exec w e o).1⟩]))
    (acts : List (Act Env Call)) : I (sys.run p acts).world (sys.run p acts).log := by
  induction acts generalizing p with
  | nil => exact h0
  | cons a acts ih =>
    obtain ⟨hworld, hnext⟩ := relies_step hrefl htrans hQ hp a fun c =>
      hbody _ c _ (le_refl _) (hrefl _)
    have hlen := sys.length_threads_le p a
    refine ih hnext (fun n c w hn hw => hbody n c w (by omega) (htrans _ _ _ hworld hw)) ?_
    rcases sys.world_step p a with ⟨hw, hl⟩ | ⟨i, e, c, o, k, hi, hw, hl⟩
    · rw [hw, hl]
      exact h0
    · rw [hw, hl]
      exact hstep _ _ _ _ _ h0 (hp i c _ hi p.world e (hrefl _)).1

end

end

theorem relies_start (w : World) : Relies sys R Q (Pool.start w) := by
  intro i c q h
  simp [Pool.start] at h

theorem log_run (p : Pool Res World Call α) (acts : List (Act Env Call)) :
    ∃ l, (sys.run p acts).log = p.log ++ l := by
  induction acts generalizing p with
  | nil => exact ⟨[], by simp⟩
  | cons a acts ih =>
    obtain ⟨l, hl⟩ := ih (sys.step p a)
    rw [run_cons, hl]
    rcases sys.world_step p a with ⟨-, hlog⟩ | ⟨i, e, -, o, -, -, -, hlog⟩
    · exact ⟨l, by rw [hlog]⟩
    · exact ⟨_, by rw [hlog, List.append_assoc]⟩

end System

end Interleave
