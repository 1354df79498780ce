import Velocity.Lib.Prog

/-! Interleaved runs. A system has a shared world, operations that act on it atomically, and the
calls that threads make; a run is a list of actions that spawn threads, let one perform its next
operation, or end one for good. What an operation does not decide (time, faults, user code) is in
the action's environment. -/

namespace Interleave

open List

variable {Op : Type} {Res : Op → Type} {World Env Call α : Type} {c : Call} {q : Prog Res α}

/-- An operation, with its thread and its answer. -/
structure Event {Op : Type} (Res : Op → Type) where
  tid : Nat
  op : Op
  res : Res op

abbrev Log {Op : Type} (Res : Op → Type) := List (Event Res)

structure System {Op : Type} (Res : Op → Type) (World Env Call α : Type) where
  body : Call → Prog Res α
  exec : World → Env → (o : Op) → Res o × World

inductive Act (Env Call : Type)
  | spawn (c : Call)
  | run (tid : Nat) (env : Env)
  | crash (tid : Nat)

/-- A thread keeps its call; `rest` is `none` once it has crashed. -/
structure Thread {Op : Type} (Res : Op → Type) (Call α : Type) where
  call : Call
  rest : Option (Prog Res α)

structure Pool {Op : Type} (Res : Op → Type) (World Call α : Type) where
  world : World
  threads : List (Thread Res Call α)
  log : Log Res

def Pool.start (w : World) : Pool Res World Call α := ⟨w, [], []⟩

namespace System

variable (sys : System Res World Env Call α)

def step (p : Pool Res World Call α) : Act Env Call → Pool Res World Call α
  | .spawn c => { p with threads := p.threads ++ [⟨c, some (sys.body c)⟩] }
  | .crash i =>
    match p.threads[i]? with
    | some t => { p with threads := p.threads.set i ⟨t.call, none⟩ }
    | none => p
  | .run i e =>
    match p.threads[i]? with
    | some ⟨c, some (.call o k)⟩ =>
      let out := sys.exec p.world e o
      ⟨out.2, p.threads.set i ⟨c, some (k out.1)⟩, p.log ++ [⟨i, o, out.1⟩]⟩
    | _ => p

def run (p : Pool Res World Call α) (acts : List (Act Env Call)) : Pool Res World Call α :=
  acts.foldl sys.step p

variable (p : Pool Res World Call α)

@[simp] theorem run_nil : sys.run p [] = p := rfl

theorem run_append (as bs : List (Act Env Call)) :
    sys.run p (as ++ bs) = sys.run (sys.run p as) bs :=
  foldl_append

variable (acts : List (Act Env Call)) (a : Act Env Call)

@[simp] theorem run_cons : sys.run p (a :: acts) = sys.run (sys.step p a) acts := rfl

theorem run_concat : sys.run p (acts ++ [a]) = sys.step (sys.run p acts) a := by
  rw [run_append]; rfl

theorem step_cases : (∃ c, a = .spawn c ∧
      sys.step p a = { p with threads := p.threads ++ [⟨c, some (sys.body c)⟩] }) ∨
    (∃ i e c o k, a = .run i e ∧ p.threads[i]? = some ⟨c, some (.call o k)⟩ ∧
      sys.step p a = ⟨(sys.exec p.world e o).2, p.threads.set i ⟨c, some (k (sys.exec p.world e o).1)⟩,
        p.log ++ [⟨i, o, (sys.exec p.world e o).1⟩]⟩) ∨
    (sys.step p a).world = p.world ∧ (sys.step p a).log = p.log ∧
      ((sys.step p a).threads = p.threads ∨
        ∃ i t, p.threads[i]? = some t ∧ (sys.step p a).threads = p.threads.set i ⟨t.call, none⟩) := by
  cases a with
  | spawn c => exact .inl ⟨c, rfl, rfl⟩
  | crash i =>
    cases hi : p.threads[i]? with
    | none => simp [step, hi]
    | some t => simpa [step, hi] using .inr ⟨i, t, hi, rfl⟩
  | run i e =>
    cases hi : p.threads[i]? with
    | none => exact .inr (.inr (by simp [step, hi]))
    | some t =>
      obtain ⟨c, rest⟩ := t
      rcases rest with _ | ⟨a⟩ | ⟨o, k⟩
      · exact .inr (.inr (by simp [step, hi]))
      · exact .inr (.inr (by simp [step, hi]))
      · exact .inr (.inl ⟨i, e, c, o, k, rfl, hi, by simp [step, hi]⟩)

theorem world_step : (sys.step p a).world = p.world ∧ (sys.step p a).log = p.log ∨
    ∃ i e c o k, p.threads[i]? = some ⟨c, some (.call o k)⟩ ∧
      (sys.step p a).world = (sys.exec p.world e o).2 ∧
      (sys.step p a).log = p.log ++ [⟨i, o, (sys.exec p.world e o).1⟩] := by
  rcases sys.step_cases p a with ⟨c, -, hs⟩ | ⟨i, e, c, o, k, -, hi, hs⟩ | ⟨hw, hl, -⟩
  · exact .inl ⟨by rw [hs], by rw [hs]⟩
  · exact .inr ⟨i, e, c, o, k, hi, by rw [hs], by rw [hs]⟩
  · exact .inl ⟨hw, hl⟩

theorem live_step {p : Pool Res World Call α} {a : Act Env Call} {j : Nat}
    (h : (sys.step p a).threads[j]? = some ⟨c, some q⟩) :
    (a = .spawn c ∧ j = p.threads.length ∧ q = sys.body c ∧ (sys.step p a).world = p.world ∧
      (sys.step p a).log = p.log) ∨
    (∃ e o k, p.threads[j]? = some ⟨c, some (.call o k)⟩ ∧ q = k (sys.exec p.world e o).1 ∧
      (sys.step p a).world = (sys.exec p.world e o).2 ∧
      (sys.step p a).log = p.log ++ [⟨j, o, (sys.exec p.world e o).1⟩]) ∨
    p.threads[j]? = some ⟨c, some q⟩ ∧ ((sys.step p a).world = p.world ∧
      (sys.step p a).log = p.log ∨ ∃ i e c' o k, i ≠ j ∧ p.threads[i]? = some ⟨c', some (.call o k)⟩ ∧
        (sys.step p a).world = (sys.exec p.world e o).2 ∧
        (sys.step p a).log = p.log ++ [⟨i, o, (sys.exec p.world e o).1⟩]) := by
  rcases sys.step_cases p a with ⟨c', rfl, hs⟩ | ⟨i, e, c', o, k, -, hi, hs⟩ | ⟨hw, hl, ht⟩
  · rw [hs] at h ⊢
    rcases Nat.lt_or_ge j p.threads.length with hlt | hge
    · rw [getElem?_append_left hlt] at h
      exact .inr (.inr ⟨h, .inl ⟨rfl, rfl⟩⟩)
    · rw [getElem?_append_right hge] at h
      obtain ⟨hz, hv⟩ := List.getElem?_eq_some_iff.mp h
      simp only [length_singleton] at hz
      simp only [getElem_singleton, Thread.mk.injEq, Option.some.injEq] at hv
      obtain ⟨rfl, rfl⟩ := hv
      exact .inl ⟨rfl, by omega, rfl, rfl, rfl⟩
  · rw [hs] at h ⊢
    by_cases hij : i = j
    · subst hij
      rw [List.getElem?_set_self (List.getElem?_eq_some_iff.mp hi).1] at h
      obtain ⟨rfl, rfl⟩ := h
      exact .inr (.inl ⟨e, o, k, hi, rfl, rfl, rfl⟩)
    · rw [getElem?_set_ne hij] at h
      exact .inr (.inr ⟨h, .inr ⟨i, e, c', o, k, hij, hi, rfl, rfl⟩⟩)
  · refine .inr (.inr ⟨?_, .inl ⟨hw, hl⟩⟩)
    rcases ht with ht | ⟨i, t, hi, ht⟩
    · rw [← ht]
      exact h
    · rw [ht] at h
      by_cases hij : i = j
      · subst hij
        rw [List.getElem?_set_self (List.getElem?_eq_some_iff.mp hi).1] at h
        simp at h
      · rw [getElem?_set_ne hij] at h
        exact h

theorem length_threads_le : p.threads.length ≤ (sys.step p a).threads.length := by
  rcases sys.step_cases p a with ⟨c, -, hs⟩ | ⟨i, e, c, o, k, -, -, hs⟩ | ⟨-, -, ht⟩
  · rw [hs]
    simp
  · rw [hs]
    simp
  · rcases ht with ht | ⟨i, t, -, ht⟩
    · rw [ht]
    · rw [ht]
      simp

theorem tid_lt_step {p : Pool Res World Call α} (h : ∀ ev ∈ p.log, ev.tid < p.threads.length)
    (a : Act Env Call) : ∀ ev ∈ (sys.step p a).log, ev.tid < (sys.step p a).threads.length := by
  have hlen := sys.length_threads_le p a
  intro ev hev
  rcases sys.world_step p a with ⟨-, hl⟩ | ⟨i, e, c, o, k, hi, -, hl⟩
  · rw [hl] at hev
    exact (h ev hev).trans_le hlen
  · rw [hl, mem_append, mem_singleton] at hev
    rcases hev with hev | rfl
    · exact (h ev hev).trans_le hlen
    · exact (List.getElem?_eq_some_iff.mp hi).1.trans_le hlen

/-- The events of a run at which `P` stopped holding of the world. -/
def falls (P : World → Bool) : Pool Res World Call α → List (Act Env Call) → Log Res
  | _, [] => []
  | p, a :: acts =>
    (if P p.world && !P (sys.step p a).world then (sys.step p a).log.drop p.log.length else []) ++
      falls P (sys.step p a) acts

variable (P : World → Bool)

theorem falls_concat :
    sys.falls P p (acts ++ [a]) = sys.falls P p acts ++ sys.falls P (sys.run p acts) [a] := by
  induction acts generalizing p with
  | nil => rfl
  | cons b acts ih =>
    have hh := ih (sys.step p b)
    simp only [cons_append, run_cons]
    rw [falls, hh, ← append_assoc]
    rfl

theorem falls_step :
    (sys.falls P p [a] = [] ∧ (sys.step p a).world = p.world ∧ (sys.step p a).log = p.log) ∨
    ∃ i e o, (sys.step p a).world = (sys.exec p.world e o).2 ∧
      (sys.step p a).log = p.log ++ [⟨i, o, (sys.exec p.world e o).1⟩] ∧
      sys.falls P p [a] = if P p.world && !P (sys.exec p.world e o).2
        then [⟨i, o, (sys.exec p.world e o).1⟩] else [] := by
  rcases sys.world_step p a with ⟨hw, hl⟩ | ⟨i, e, -, o, -, -, hw, hl⟩
  · exact .inl (by simp [falls, hw, hl])
  · exact .inr ⟨i, e, o, hw, hl, by simp [falls, hw, hl]⟩

theorem invariant_world {I : World → Log Res → Prop} {p : Pool Res World Call α}
    (h0 : I p.world p.log)
    (hstep : ∀ w l i e o, I w l → I (sys.exec w e o).2 (l ++ [⟨i, o, (sys.exec w e o).1⟩]))
    (acts : List (Act Env Call)) : I (sys.run p acts).world (sys.run p acts).log := by
  induction acts generalizing p with
  | nil => exact h0
  | cons a acts ih =>
    apply ih
    rcases sys.world_step p a with ⟨hw, hl⟩ | ⟨i, e, -, o, -, -, hw, hl⟩
    · rw [hw, hl]
      exact h0
    · rw [hw, hl]
      exact hstep _ _ _ _ _ h0

end System

/-- Every event stands in the relation `P` to the events before it. -/
def EachAfter {β : Type} (P : List β → β → Prop) (l : List β) : Prop :=
  ∀ pre x post, l = pre ++ x :: post → P pre x

variable {β : Type} {y : β} {l : Log Res} {ev : Event Res}

theorem eachAfter_nil (P : List β → β → Prop) : EachAfter P [] := by
  intro pre x post h
  simp at h

theorem eachAfter_concat {P : List β → β → Prop} {l : List β} :
    EachAfter P (l ++ [y]) ↔ EachAfter P l ∧ P l y := by
  constructor
  · intro h
    refine ⟨fun pre x post hl => h pre x (post ++ [y]) (by simp [hl]), h l y [] rfl⟩
  · rintro ⟨hl, hy⟩ pre x post h
    rcases eq_nil_or_concat post with rfl | ⟨post, z, rfl⟩
    · obtain ⟨rfl, hx⟩ := append_inj' h rfl
      obtain rfl : y = x := by simpa using hx
      exact hy
    · rw [concat_eq_append, ← cons_append, ← append_assoc] at h
      exact hl pre x post (append_inj' h rfl).1

theorem eachAfter_iff {P : List β → β → Prop} {l : List β} :
    EachAfter P l ↔ ∀ i : Fin l.length, P (l.take i) (l.get i) := by
  constructor
  · intro h i
    exact h (l.take i) (l.get i) (l.drop (i + 1)) (by simp)
  · rintro h pre x post rfl
    simpa using h ⟨pre.length, by simp⟩

instance {β : Type} {P : List β → β → Prop} [∀ pre x, Decidable (P pre x)] (l : List β) :
    Decidable (EachAfter P l) :=
  decidable_of_iff _ eachAfter_iff.symm

theorem eq_of_length_le_one {l : List β} (h : l.length ≤ 1) {x : β} (hx : x ∈ l)
    (hy : y ∈ l) : x = y := by
  match l, h with
  | [z], _ =>
    rw [mem_singleton] at hx hy
    rw [hx, hy]

namespace Monitor

variable (mon : Monitor Res)

def advance (m : mon.State) (ev : Event Res) : mon.State := mon.next m ev.op ev.res

/-- The monitor's state of thread `i` after the events of `l`. -/
def stateOf (l : Log Res) (i : Nat) : mon.State :=
  (l.filter (fun ev => ev.tid = i)).foldl mon.advance mon.init

@[simp] theorem stateOf_nil (i : Nat) : mon.stateOf [] i = mon.init := rfl

theorem stateOf_concat (l : Log Res) (ev : Event Res) (i : Nat) :
    mon.stateOf (l ++ [ev]) i =
      if ev.tid = i then mon.next (mon.stateOf l i) ev.op ev.res else mon.stateOf l i := by
  by_cases h : ev.tid = i <;> simp [stateOf, h, advance]

theorem stateOf_of_mem {f : mon.State → Prop} {P : Op → Prop}
    (hkeep : ∀ m o r, f m → f (mon.next m o r)) (hset : ∀ m o r, P o → f (mon.next m o r))
    (h : ev ∈ l) (hP : P ev.op) : f (mon.stateOf l ev.tid) := by
  induction l using reverseRecOn with
  | nil => simp at h
  | append_singleton l x ih =>
    rw [stateOf_concat]
    rcases mem_concat.mp h with h | rfl
    · split
      · exact hkeep _ _ _ (ih h)
      · exact ih h
    · rw [if_pos rfl]
      exact hset _ _ _ hP

theorem stateOf_any {f : mon.State → Bool} {g : (o : Op) → Res o → Bool}
    (h0 : f mon.init = false) (hnext : ∀ m o r, f (mon.next m o r) = (f m || g o r))
    (l : Log Res) (i : Nat) :
    f (mon.stateOf l i) = l.any fun ev => ev.tid = i && g ev.op ev.res := by
  induction l using reverseRecOn with
  | nil => exact h0
  | append_singleton l ev ih =>
    rw [stateOf_concat, any_append, ← ih]
    by_cases hi : ev.tid = i
    · simp [hi, hnext]
    · simp [hi]

/-- Whether a thread has made a call with an answer that `g` picks. -/
def flag (g : (o : Op) → Res o → Bool) : Monitor Res where
  State := Bool
  init := false
  allowed _ _ := True
  guard _ _ _ := True
  next m o r := m || g o r

end Monitor

namespace System

variable (sys : System Res World Env Call α) {p : Pool Res World Call α} {i : Nat}

def Monitored (mon : Monitor Res) (Q : Call → α → mon.State → Prop)
    (p : Pool Res World Call α) : Prop :=
  (∀ (i : Nat) (c : Call) (q : Prog Res α), p.threads[i]? = some ⟨c, some q⟩ →
      q.wp mon (mon.stateOf p.log i) (Q c)) ∧
    ∀ ev ∈ p.log, ev.tid < p.threads.length

variable (mon : Monitor Res)

theorem monitored_start (Q : Call → α → mon.State → Prop) (w : World) :
    Monitored mon Q (Pool.start w) := by
  simp [Monitored, Pool.start]

theorem stateOf_eq_init_of_le {mon : Monitor Res} {n : Nat}
    (h : ∀ ev ∈ l, ev.tid < n) : mon.stateOf l n = mon.init := by
  have hnil : l.filter (fun ev => ev.tid = n) = [] := by
    rw [filter_eq_nil_iff]
    intro ev hev
    have := h ev hev
    simp only [decide_eq_true_eq]
    omega
  simp [Monitor.stateOf, hnil]

/-- The monitor may differ from call to call. -/
theorem wp_step {mon : Call → Monitor Res} {Q : (c : Call) → α → (mon c).State → Prop}
    (hbody : ∀ c, (sys.body c).wp (mon c) (mon c).init (Q c))
    (hans : ∀ c e o, (mon c).allowed o (sys.exec p.world e o).1)
    (htid : ∀ ev ∈ p.log, ev.tid < p.threads.length)
    (hwp : ∀ (i : Nat) (c : Call) (q : Prog Res α), p.threads[i]? = some ⟨c, some q⟩ →
      q.wp (mon c) ((mon c).stateOf p.log i) (Q c))
    {a : Act Env Call} (j : Nat) (c : Call) (q : Prog Res α)
    (hj : (sys.step p a).threads[j]? = some ⟨c, some q⟩) :
    q.wp (mon c) ((mon c).stateOf (sys.step p a).log j) (Q c) := by
  rcases sys.live_step hj with ⟨-, rfl, rfl, -, hl⟩ | ⟨e, o, k, hold, rfl, -, hl⟩ | ⟨hold, hrest⟩
  · rw [hl, stateOf_eq_init_of_le htid]
    exact hbody c
  · rw [hl, Monitor.stateOf_concat, if_pos rfl]
    exact (hwp j c _ hold _ (hans c e o)).2
  · rcases hrest with ⟨-, hl⟩ | ⟨i, e, -, o, -, hne, -, -, hl⟩
    · rw [hl]
      exact hwp j c q hold
    · rw [hl, Monitor.stateOf_concat, if_neg hne]
      exact hwp j c q hold

theorem monitored_step {mon : Monitor Res} {Q : Call → α → mon.State → Prop}
    (hbody : ∀ c, (sys.body c).wp mon mon.init (Q c))
    (hans : ∀ e o, mon.allowed o (sys.exec p.world e o).1)
    (hp : Monitored mon Q p) (a : Act Env Call) : Monitored mon Q (sys.step p a) :=
  ⟨sys.wp_step hbody (fun _ => hans) hp.2 hp.1, sys.tid_lt_step hp.2 a⟩

variable {w : World}

section

variable (hbody : ∀ c, (sys.body c).wp mon mon.init (fun _ _ => True))

include hbody

theorem invariant_falls (P : World → Bool) {I : World → Log Res → Log Res → Prop} (h0 : I w [] [])
    (hans : ∀ w l f e o, I w l f → mon.allowed o (sys.exec w e o).1)
    (hstep : ∀ w l f i e o, I w l f → mon.guard (mon.stateOf l i) o (sys.exec w e o).1 →
      I (sys.exec w e o).2 (l ++ [⟨i, o, (sys.exec w e o).1⟩])
        (f ++ if P w && !P (sys.exec w e o).2 then [⟨i, o, (sys.exec w e o).1⟩] else []))
    (acts : List (Act Env Call)) :
    I (sys.run (Pool.start w) acts).world (sys.run (Pool.start w) acts).log
      (sys.falls P (Pool.start w) acts) := by
  suffices h : ∀ (p : Pool Res World Call α) (f : Log Res),
      Monitored mon (fun _ _ _ => True) p → I p.world p.log f →
      I (sys.run p acts).world (sys.run p acts).log (f ++ sys.falls P p acts) from
    h _ [] (monitored_start mon _ w) h0
  induction acts with
  | nil =>
    intro p f _ hp
    simpa [falls] using hp
  | cons a acts ih =>
    intro p f hm hp
    have hh : I (sys.step p a).world (sys.step p a).log (f ++ sys.falls P p [a]) := by
      rcases sys.world_step p a with ⟨hw, hl⟩ | ⟨i, e, c, o, k, hi, hw, hl⟩
      · simpa [falls, hw, hl] using hp
      · have hg := (hm.1 i c _ hi _ (hans _ _ _ e o hp)).1
        simpa [falls, hw, hl] using hstep _ _ _ i e o hp hg
    have hrest := ih (sys.step p a) _ (sys.monitored_step hbody (fun e o => hans _ _ _ e o hp) hm a) hh
    have hcat : sys.falls P p (a :: acts) = sys.falls P p [a] ++ sys.falls P (sys.step p a) acts := by
      simp [falls]
    rw [hcat, ← append_assoc]
    exact hrest

theorem invariant {I : World → Log Res → Prop} (h0 : I w [])
    (hans : ∀ w l e o, I w l → mon.allowed o (sys.exec w e o).1)
    (hstep : ∀ w l i e o, I w l → mon.guard (mon.stateOf l i) o (sys.exec w e o).1 →
      I (sys.exec w e o).2 (l ++ [⟨i, o, (sys.exec w e o).1⟩])) (acts : List (Act Env Call)) :
    I (sys.run (Pool.start w) acts).world (sys.run (Pool.start w) acts).log :=
  sys.invariant_falls mon hbody (fun _ => false) (I := fun w l _ => I w l) h0
    (fun w l _ => hans w l) (fun w l _ => hstep w l) acts

theorem each_guarded (hans : ∀ w e o, mon.allowed o (sys.exec w e o).1) (acts : List (Act Env Call)) :
    EachAfter (fun pre ev => mon.guard (mon.stateOf pre ev.tid) ev.op ev.res)
      (sys.run (Pool.start w) acts).log := by
  refine sys.invariant mon hbody
    (I := fun _ log => EachAfter (fun pre ev => mon.guard (mon.stateOf pre ev.tid) ev.op ev.res) log)
    (eachAfter_nil _) (fun w _ e o _ => hans w e o) ?_ acts
  intro w log i e o hlog hg
  exact eachAfter_concat.mpr ⟨hlog, hg⟩

end

section

variable {Q : Call → α → mon.State → Prop} (hbody : ∀ c, (sys.body c).wp mon mon.init (Q c))
  (hans : ∀ w e o, mon.allowed o (sys.exec w e o).1)

include hbody hans

theorem monitored_run (acts : List (Act Env Call)) :
    Monitored mon Q (sys.run (Pool.start w) acts) := by
  induction acts using reverseRecOn with
  | nil => exact monitored_start mon Q w
  | append_singleton acts a ih =>
    rw [run_concat]
    exact sys.monitored_step hbody (hans _) ih a

theorem returned {acts : List (Act Env Call)} {a : α}
    (h : (sys.run (Pool.start w) acts).threads[i]? = some ⟨c, some (.ret a)⟩) :
    Q c a (mon.stateOf (sys.run (Pool.start w) acts).log i) :=
  (sys.monitored_run mon hbody hans acts).1 i c _ h

end

theorem performed {g : (o : Op) → Res o → Bool} {Q : α → Prop}
    (hbody : (sys.body c).wp (.flag g) false fun a m => Q a → m = true) {acts : List (Act Env Call)}
    {a : α} (h : (sys.run (Pool.start w) acts).threads[i]? = some ⟨c, some (.ret a)⟩) (ha : Q a) :
    ∃ ev ∈ (sys.run (Pool.start w) acts).log, ev.tid = i ∧ g ev.op ev.res = true := by
  have hany : ∀ c', (sys.body c').wp (.flag g) false fun a m => c' = c → Q a → m = true := by
    intro c'
    by_cases hc : c' = c
    · subst hc
      exact Prog.wp_mono hbody fun _ _ hm _ => hm
    · refine Prog.wp_mono (Prog.wp_of_kept (.flag g) (J := fun _ => True) ?_ trivial)
        fun _ _ _ heq => absurd heq hc
      exact .of_forall (fun _ _ _ _ => ⟨trivial, trivial⟩) _
  have hset := sys.returned (.flag g) hany (fun _ _ _ => trivial) h rfl ha
  have hlog := Monitor.stateOf_any (.flag g) (f := id) rfl (fun _ _ _ => rfl)
    (sys.run (Pool.start w) acts).log i
  simpa using hlog.symm.trans hset

theorem returns_alone (h : p.threads[i]? = some ⟨c, some q⟩) (envs : Nat → Env) :
    ∃ n a, (sys.run p ((List.range n).map fun k => .run i (envs k))).threads[i]? =
      some ⟨c, some (.ret a)⟩ := by
  induction q generalizing p envs with
  | ret a => exact ⟨0, a, h⟩
  | call o k ih =>
    have hlen : i < p.threads.length := (List.getElem?_eq_some_iff.mp h).1
    have hstep : (sys.step p (.run i (envs 0))).threads[i]? =
        some ⟨c, some (k (sys.exec p.world (envs 0) o).1)⟩ := by
      simp only [step, h]
      exact getElem?_set_self hlen
    obtain ⟨n, a, hn⟩ := ih _ hstep fun k => envs (k + 1)
    refine ⟨n + 1, a, ?_⟩
    rw [range_succ_eq_map, map_cons, map_map]
    exact hn

/-- Something born once is still there, or one event took it away. -/
def Fate (born there : Prop) (ends : Event Res → Prop) (falls : Log Res) : Prop :=
  ¬born ∧ ¬there ∧ falls = [] ∨ born ∧ there ∧ falls = [] ∨ born ∧ ¬there ∧ ∃ ev, falls = [ev] ∧ ends ev

theorem Fate.step {born there born' there' : Prop} [Decidable there] [Decidable there']
    {ends ends' : Event Res → Prop} {falls : Log Res}
    (h : Fate born there ends falls) (hkeep : born → born') (hnew : ¬born → (born' ↔ there'))
    (hgone : born → ¬there → ¬there') (hend : there → ¬there' → ends' ev)
    (hends : born → ∀ x, ends x → ends' x) :
    Fate born' there' ends' (falls ++ if there ∧ ¬there' then [ev] else []) := by
  rcases h with ⟨hb, ht, rfl⟩ | ⟨hb, ht, rfl⟩ | ⟨hb, ht, ev₀, rfl, he⟩
  · simp only [ht, false_and, if_false, append_nil]
    by_cases hb' : born'
    · exact .inr (.inl ⟨hb', (hnew hb).mp hb', rfl⟩)
    · exact .inl ⟨hb', fun ht' => hb' ((hnew hb).mpr ht'), rfl⟩
  · by_cases ht' : there'
    · exact .inr (.inl ⟨hkeep hb, ht', by simp [ht']⟩)
    · exact .inr (.inr ⟨hkeep hb, ht', ev, by simp [ht, ht'], hend ht ht'⟩)
  · exact .inr (.inr ⟨hkeep hb, hgone hb ht, ev₀, by simp [ht], hends hb ev₀ he⟩)

end System

end Interleave
