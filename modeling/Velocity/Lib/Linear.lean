import Velocity.Lib.Rely

/-! Threads judged each by a monitor of its own call, and the order in which the calls of a run take
effect. Where each call performs at most one marked operation, these put the calls, in the order of
the log, in an order that agrees with real time. -/

namespace Interleave

open List Pool

variable {Op : Type} {Res : Op → Type} {World Env Call α : Type} {a : α} {l : Log Res}

theorem EachAfter.mono {β : Type} {P P' : List β → β → Prop} {l : List β} (h : EachAfter P l)
    (hP : ∀ pre x, x ∈ l → P pre x → P' pre x) : EachAfter P' l := by
  intro pre x post hl
  exact hP pre x (by simp [hl]) (h pre x post hl)

theorem EachAfter.pair {β : Type} {P : List β → β → Prop} {l : List β} (h : EachAfter P l) {a b : β}
    (ha : a ∈ l) (hb : b ∈ l) : a = b ∨ (∃ pre, a ∈ pre ∧ P pre b) ∨ ∃ pre, b ∈ pre ∧ P pre a := by
  obtain ⟨pre, post, rfl⟩ := mem_iff_append.mp ha
  rcases mem_append.mp hb with hb | hb
  · exact .inr (.inr ⟨pre, hb, h pre a post rfl⟩)
  · rcases mem_cons.mp hb with rfl | hb
    · exact .inl rfl
    · obtain ⟨mid, post', rfl⟩ := mem_iff_append.mp hb
      refine .inr (.inl ⟨pre ++ a :: mid, by simp, h (pre ++ a :: mid) b post' ?_⟩)
      simp

theorem EachAfter.left {β : Type} {P : List β → β → Prop} {l l' : List β}
    (h : EachAfter P (l ++ l')) : EachAfter P l := by
  intro pre x post hl
  exact h pre x (post ++ l') (by simp [hl])

namespace Pool

def callOf (p : Pool Res World Call α) (i : Nat) : Option Call := p.threads[i]?.map Thread.call

def Returned (p : Pool Res World Call α) (i : Nat) (c : Call) (a : α) : Prop :=
  p.threads[i]? = some ⟨c, some (.ret a)⟩

variable {p : Pool Res World Call α} {c : Call} {i : Nat}

theorem Returned.callOf (h : p.Returned i c a) : p.callOf i = some c := by
  rw [Pool.callOf, h]
  rfl

theorem Returned.lt (h : p.Returned i c a) : i < p.threads.length :=
  (List.getElem?_eq_some_iff.mp h).1

theorem lt_of_callOf (h : p.callOf i = some c) : i < p.threads.length := by
  obtain ⟨t, ht, -⟩ := Option.map_eq_some_iff.mp h
  exact (List.getElem?_eq_some_iff.mp ht).1

end Pool

namespace Monitor

def trail (guard : List (Sigma Res) → (o : Op) → Res o → Prop) : Monitor Res where
  State := List (Sigma Res)
  init := []
  allowed := fun _ _ => True
  guard := guard
  next := fun hist o r => hist ++ [⟨o, r⟩]

def ownTrail (l : Log Res) (i : Nat) : List (Sigma Res) :=
  (l.filter fun ev => ev.tid = i).map fun ev => ⟨ev.op, ev.res⟩

theorem ownTrail_append (l l' : Log Res) (i : Nat) :
    ownTrail (l ++ l') i = ownTrail l i ++ ownTrail l' i := by
  simp [ownTrail]

theorem mem_ownTrail {i : Nat} {o : Op} {r : Res o} :
    (⟨o, r⟩ : Sigma Res) ∈ ownTrail l i ↔ (⟨i, o, r⟩ : Event Res) ∈ l := by
  simp only [ownTrail, mem_map, mem_filter, decide_eq_true_eq]
  constructor
  · rintro ⟨⟨j, o', r'⟩, ⟨hmem, rfl⟩, h⟩
    obtain ⟨rfl, h⟩ := Sigma.mk.inj h
    obtain rfl := eq_of_heq h
    exact hmem
  · intro hmem
    exact ⟨_, ⟨hmem, rfl⟩, rfl⟩

theorem trail_stateOf (guard : List (Sigma Res) → (o : Op) → Res o → Prop) (l : Log Res)
    (i : Nat) : @Eq (List (Sigma Res)) ((trail guard).stateOf l i) (ownTrail l i) := by
  induction l using reverseRecOn with
  | nil => rfl
  | append_singleton l ev ih =>
    rw [ownTrail_append]
    have hconcat := (trail guard).stateOf_concat l ev i
    by_cases hi : ev.tid = i
    · have hone : ownTrail [ev] i = [⟨ev.op, ev.res⟩] := by simp [ownTrail, hi]
      rw [if_pos hi] at hconcat
      rw [hone, ← ih]
      exact hconcat
    · have hone : ownTrail [ev] i = [] := by simp [ownTrail, hi]
      rw [if_neg hi] at hconcat
      rw [hone, append_nil, ← ih]
      exact hconcat

section

variable {guard : List (Sigma Res) → (o : Op) → Res o → Prop} {β γ : Type} {p : Prog Res β}
  {hist : List (Sigma Res)}

theorem trail_wp (h : p.All fun o => ∀ hist r, guard hist o r) (hist : List (Sigma Res)) :
    p.wp (trail guard) hist fun _ _ => True := by
  refine Prog.wp_of_kept (trail guard) (h.mono ?_) trivial
  exact fun o ho hist' r _ => ⟨ho hist' r, trivial⟩

theorem trail_grows {Q : β → List (Sigma Res) → Prop} (h : p.wp (trail guard) hist Q) :
    p.wp (trail guard) hist fun r hist' => hist ⊆ hist' ∧ Q r hist' := by
  induction p generalizing hist with
  | ret a => exact ⟨Subset.refl _, h⟩
  | call o k ih =>
    intro r hr
    refine ⟨(h r hr).1, Prog.wp_mono (ih r (h r hr).2) ?_⟩
    intro a hist' ha
    exact ⟨Subset.trans (subset_append_left _ _) ha.1, ha.2⟩

theorem trail_bind {P : β → List (Sigma Res) → Prop} {f : β → Prog Res γ}
    {Q : γ → List (Sigma Res) → Prop} (hp : p.wp (trail guard) hist P)
    (hf : ∀ a hist', hist ⊆ hist' → P a hist' → (f a).wp (trail guard) hist' Q) :
    (p >>= f).wp (trail guard) hist Q :=
  Prog.wp_bind_of (trail_grows hp) fun a hist' h => hf a hist' h.1 h.2

end

end Monitor

namespace System

variable (sys : System Res World Env Call α) {p : Pool Res World Call α} {i : Nat}
  {acts : List (Act Env Call)} {mark : Event Res → Bool}

theorem callOf_step (hi : i < p.threads.length)
    (a : Act Env Call) : (sys.step p a).callOf i = p.callOf i := by
  have hset : ∀ j (t t' : Thread Res Call α), p.threads[j]? = some t → t'.call = t.call →
      (p.threads.set j t')[i]?.map Thread.call = p.threads[i]?.map Thread.call := by
    intro j t t' hj hcall
    by_cases hij : j = i
    · subst hij
      rw [getElem?_set_self hi, hj]
      exact congrArg some hcall
    · rw [getElem?_set_ne hij]
  rcases sys.step_cases p a with ⟨c, -, hs⟩ | ⟨j, e, c, o, k, -, hj, hs⟩ | ⟨-, -, ht⟩
  · rw [hs]
    exact congrArg (Option.map Thread.call) (getElem?_append_left hi)
  · rw [hs]
    exact hset j _ _ hj rfl
  · rcases ht with ht | ⟨j, t, hj, ht⟩
    · rw [callOf, ht]
      rfl
    · rw [callOf, ht]
      exact hset j _ _ hj rfl

theorem callOf_run (hi : i < p.threads.length)
    (acts : List (Act Env Call)) : (sys.run p acts).callOf i = p.callOf i := by
  induction acts generalizing p with
  | nil => rfl
  | cons a acts ih =>
    have hlt := hi.trans_le (sys.length_threads_le p a)
    exact (ih hlt).trans (sys.callOf_step hi a)

variable {c : Call}

theorem callOf_run_of_some
    (h : p.callOf i = some c) (acts : List (Act Env Call)) : (sys.run p acts).callOf i = some c := by
  rw [sys.callOf_run (lt_of_callOf h), h]

theorem spawn_of_callOf {w : World} (h : (sys.run (start w) acts).callOf i = some c) :
    ∃ before after, acts = before ++ .spawn c :: after ∧
      i = (sys.run (start w) before).threads.length := by
  induction acts using reverseRecOn with
  | nil => simp [callOf, start] at h
  | append_singleton acts a ih =>
    rw [run_concat] at h
    rcases Nat.lt_or_ge i (sys.run (start w) acts).threads.length with hlt | hge
    · rw [sys.callOf_step hlt] at h
      obtain ⟨before, after, hacts, hi⟩ := ih h
      exact ⟨before, after ++ [a], by simp [hacts], hi⟩
    · have hlt := lt_of_callOf h
      rcases sys.step_cases (sys.run (start w) acts) a with
        ⟨c', rfl, hs⟩ | ⟨j, e, c', o, k, -, -, hs⟩ | ⟨-, -, ht⟩
      · rw [hs] at h hlt
        simp only [length_append, length_singleton] at hlt
        have hi : i = (sys.run (start w) acts).threads.length := by omega
        have hc : some c' = some c := by
          rw [← h, hi, callOf]
          simp
        refine ⟨acts, [], ?_, hi⟩
        rw [Option.some.inj hc]
      · rw [hs] at hlt
        simp only [length_set] at hlt
        omega
      · rcases ht with ht | ⟨j, t, -, ht⟩
        · rw [ht] at hlt
          omega
        · rw [ht, length_set] at hlt
          omega

def Idle (p : Pool Res World Call α) (i : Nat) : Prop :=
  i < p.threads.length ∧ ∀ c o k, p.threads[i]? ≠ some ⟨c, some (.call o k)⟩

theorem idle_of_returned (h : p.Returned i c a) : Idle p i := by
  refine ⟨h.lt, ?_⟩
  intro c' o k h'
  rw [h] at h'
  cases h'

theorem idle_step (h : Idle p i) (a : Act Env Call) :
    Idle (sys.step p a) i ∧ ∃ l, (sys.step p a).log = p.log ++ l ∧ ∀ ev ∈ l, ev.tid ≠ i := by
  obtain ⟨hlt, hidle⟩ := h
  refine ⟨⟨hlt.trans_le (sys.length_threads_le p a), fun c o k hi => ?_⟩, ?_⟩
  · rcases sys.live_step hi with ⟨-, hnew, -⟩ | ⟨e, o', k', hi, -⟩ | ⟨hi, -⟩
    · omega
    · exact hidle c o' k' hi
    · exact hidle c o k hi
  · rcases sys.world_step p a with ⟨-, hl⟩ | ⟨j, e, c, o, k, hj, -, hl⟩
    · exact ⟨[], by simp [hl], by simp⟩
    · refine ⟨_, hl, fun ev hev hi => ?_⟩
      obtain rfl := mem_singleton.mp hev
      exact hidle c o k (hi ▸ hj)

theorem idle_run (h : Idle p i) (acts : List (Act Env Call)) :
    ∃ l, (sys.run p acts).log = p.log ++ l ∧ ∀ ev ∈ l, ev.tid ≠ i := by
  induction acts generalizing p with
  | nil => exact ⟨[], by simp, by simp⟩
  | cons a acts ih =>
    obtain ⟨hidle, l, hl, hne⟩ := sys.idle_step h a
    obtain ⟨l', hl', hne'⟩ := ih hidle
    refine ⟨l ++ l', by rw [run_cons, hl', hl, append_assoc], ?_⟩
    intro ev hev
    rcases mem_append.mp hev with hev | hev
    · exact hne ev hev
    · exact hne' ev hev

section Judged

variable (mon : Call → Monitor Res) (Q : (c : Call) → α → (mon c).State → Prop)

structure Judged (p : Pool Res World Call α) : Prop where
  live : ∀ (i : Nat) (c : Call) (q : Prog Res α), p.threads[i]? = some ⟨c, some q⟩ →
    q.wp (mon c) ((mon c).stateOf p.log i) (Q c)
  tid_lt : ∀ ev ∈ p.log, ev.tid < p.threads.length
  guarded : EachAfter (fun pre ev => ∀ c, p.callOf ev.tid = some c →
    (mon c).guard ((mon c).stateOf pre ev.tid) ev.op ev.res) p.log

variable {mon Q}

theorem Judged.call (h : Judged mon Q p) {pre post : Log Res} {ev : Event Res}
    (hlog : p.log = pre ++ ev :: post) : ∃ c, p.callOf ev.tid = some c ∧
      (mon c).guard ((mon c).stateOf pre ev.tid) ev.op ev.res := by
  have hlt := h.tid_lt ev (by simp [hlog])
  have hc : p.callOf ev.tid = some p.threads[ev.tid].call := by
    rw [callOf, getElem?_eq_getElem hlt]
    rfl
  exact ⟨_, hc, h.guarded pre ev post hlog _ hc⟩

theorem judged_start (w : World) : Judged mon Q (start w) :=
  ⟨by simp [start], by simp [start], eachAfter_nil _⟩

theorem judged_step (hbody : ∀ c, (sys.body c).wp (mon c) (mon c).init (Q c))
    (hans : ∀ c e o, (mon c).allowed o (sys.exec p.world e o).1)
    (hp : Judged mon Q p) (a : Act Env Call) : Judged mon Q (sys.step p a) := by
  have hold : EachAfter (fun pre ev => ∀ c, (sys.step p a).callOf ev.tid = some c →
      (mon c).guard ((mon c).stateOf pre ev.tid) ev.op ev.res) p.log := by
    refine EachAfter.mono hp.guarded ?_
    intro pre ev hev hguard c hc
    rw [sys.callOf_step (hp.tid_lt ev hev)] at hc
    exact hguard c hc
  refine ⟨sys.wp_step hbody hans hp.tid_lt hp.live, sys.tid_lt_step hp.tid_lt a, ?_⟩
  rcases sys.world_step p a with ⟨-, hl⟩ | ⟨i, e, c, o, k, hi, -, hl⟩
  · rw [hl]
    exact hold
  · rw [hl]
    refine eachAfter_concat.mpr ⟨hold, ?_⟩
    intro c' hc'
    rw [sys.callOf_step (List.getElem?_eq_some_iff.mp hi).1, callOf, hi] at hc'
    obtain rfl : c = c' := by simpa using hc'
    exact (hp.live i c _ hi _ (hans c e o)).1

section Answers

/-! The answers may be known in the worlds of which `J` holds only, where every operation keeps `J`. -/

variable {J : World → Prop} (hkeep : ∀ w e o, J w → J (sys.exec w e o).2)

include hkeep

variable {w : World}

theorem kept_run (hw : J w) (acts : List (Act Env Call)) : J (sys.run (start w) acts).world :=
  sys.invariant_world (I := fun w _ => J w) hw (fun w _ _ => hkeep w) acts

section

variable (hbody : ∀ c, (sys.body c).wp (mon c) (mon c).init (Q c))
  (hans : ∀ c w e o, J w → (mon c).allowed o (sys.exec w e o).1) (hw : J w)

include hbody hans hw

theorem judged_run_of
    (acts : List (Act Env Call)) : Judged mon Q (sys.run (start w) acts) := by
  induction acts using reverseRecOn with
  | nil => exact judged_start w
  | append_singleton acts a ih =>
    rw [run_concat]
    exact sys.judged_step hbody (fun c e o => hans c _ e o (sys.kept_run hkeep hw acts)) ih a

theorem judged_invariant_of {I : World → Log Res → Prop} (h0 : I w [])
    (hstep : ∀ before after, acts = before ++ after →
      ∀ p, p = sys.run (start w) before → ∀ i e c o, I p.world p.log → p.callOf i = some c →
      (mon c).guard ((mon c).stateOf p.log i) o (sys.exec p.world e o).1 →
      I (sys.exec p.world e o).2 (p.log ++ [⟨i, o, (sys.exec p.world e o).1⟩])) :
    I (sys.run (start w) acts).world (sys.run (start w) acts).log := by
  induction acts using reverseRecOn with
  | nil => exact h0
  | append_singleton acts a ih =>
    have hold := ih fun before after hacts => hstep before (after ++ [a]) (by simp [hacts])
    rw [run_concat]
    rcases sys.world_step (sys.run (start w) acts) a with
      ⟨hw', hl⟩ | ⟨i, e, c, o, k, hi, hw', hl⟩
    · rw [hw', hl]
      exact hold
    · have hguard := (sys.judged_run_of hkeep hbody hans hw acts).live i c _ hi _
        (hans c _ e o (sys.kept_run hkeep hw acts))
      rw [hw', hl]
      exact hstep acts [a] rfl _ rfl i e c o hold (by rw [callOf, hi]; rfl) hguard.1

end

end Answers

theorem judged_run (hbody : ∀ c, (sys.body c).wp (mon c) (mon c).init (Q c))
    (hans : ∀ c w e o, (mon c).allowed o (sys.exec w e o).1) (w : World)
    (acts : List (Act Env Call)) : Judged mon Q (sys.run (start w) acts) :=
  sys.judged_run_of (J := fun _ => True) (fun _ _ _ _ => trivial) hbody (fun c w e o _ => hans c w e o)
    trivial acts

theorem Judged.returned (hp : Judged mon Q p) (h : p.Returned i c a) :
    Q c a ((mon c).stateOf p.log i) :=
  hp.live i c _ h

end Judged

def marked (mark : Event Res → Bool) (l : Log Res) : List Nat := (l.filter mark).map Event.tid

theorem marked_append (mark : Event Res → Bool) (l l' : Log Res) :
    marked mark (l ++ l') = marked mark l ++ marked mark l' := by
  simp [marked]

theorem mem_marked : i ∈ marked mark l ↔ ∃ ev ∈ l, mark ev = true ∧ ev.tid = i := by
  simp [marked, and_assoc]

theorem marked_nodup (h : EachAfter (fun pre ev => mark ev = true →
      ∀ x ∈ pre, x.tid = ev.tid → mark x = false) l) : (marked mark l).Nodup := by
  induction l using reverseRecOn with
  | nil => exact nodup_nil
  | append_singleton l ev ih =>
    obtain ⟨hl, hev⟩ := eachAfter_concat.mp h
    rw [marked_append, nodup_append']
    refine ⟨ih hl, Nodup.map_on ?_ (Nodup.filter _ (nodup_singleton ev)), ?_⟩
    · intro x hx y hy _
      have hx' := mem_singleton.mp (mem_of_mem_filter hx)
      have hy' := mem_singleton.mp (mem_of_mem_filter hy)
      rw [hx', hy']
    · rw [disjoint_left]
      intro i hi hi'
      obtain ⟨x, hx, hmark, rfl⟩ := mem_marked.mp hi
      obtain ⟨y, hy, hmark', htid⟩ := mem_marked.mp hi'
      obtain rfl := mem_singleton.mp hy
      rw [hev hmark' x hx htid.symm] at hmark
      cases hmark

/-- A call that had returned when another had not begun comes first. -/
def RealTime (start : World) (acts : List (Act Env Call)) (order : List Nat) : Prop :=
  ∀ acts₁ acts₂ i c a j, acts = acts₁ ++ acts₂ → (sys.run (Pool.start start) acts₁).Returned i c a →
    (sys.run (Pool.start start) acts₁).threads.length ≤ j → i ∈ order → j ∈ order →
    List.Sublist [i, j] order

theorem marked_realTime (mark : Event Res → Bool) (start : World) (acts : List (Act Env Call))
    (hlt : ∀ acts', ∀ ev ∈ (sys.run (Pool.start start) acts').log,
      ev.tid < (sys.run (Pool.start start) acts').threads.length) :
    sys.RealTime start acts (marked mark (sys.run (Pool.start start) acts).log) := by
  rintro acts₁ acts₂ i c a j rfl hret hj hi hj'
  obtain ⟨l, hl, hne⟩ := sys.idle_run (idle_of_returned hret) acts₂
  rw [run_append, hl, marked_append] at hi hj' ⊢
  have hfst : i ∈ marked mark (sys.run (Pool.start start) acts₁).log := by
    rcases mem_append.mp hi with hi | hi
    · exact hi
    · obtain ⟨ev, hev, -, htid⟩ := mem_marked.mp hi
      exact absurd htid (hne ev hev)
  have hsnd : j ∈ marked mark l := by
    rcases mem_append.mp hj' with hj' | hj'
    · obtain ⟨ev, hev, -, rfl⟩ := mem_marked.mp hj'
      have := hlt acts₁ ev hev
      omega
    · exact hj'
  exact Sublist.append (singleton_sublist.mpr hfst) (singleton_sublist.mpr hsnd)

end System

end Interleave
