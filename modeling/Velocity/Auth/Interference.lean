import Velocity.Auth.Tokens
import Velocity.Lib.Rely

/-! What the calls of the manager may do to each other. Time and the generations only go up, and an
id refused until some instant stays so until then. Every call keeps to this, so each may count on it
of the others. -/

namespace Auth

open Interleave Prog Keeps Blacklist Generations Option

theorem Blacklist.add_cases (s : Blacklist) (now : Int) (jti : Bytes) (x : Int) :
    (x ≤ now ∧ add s now jti x = (false, s)) ∨
    (now < x ∧ ∃ v, s.lookup jti = some v ∧ now ≤ v ∧
      add s now jti x = (false, if v < x then s.insert jti x else s)) ∨
    (now < x ∧ (∀ v, s.lookup jti = some v → v < now) ∧
      add s now jti x = (true, s.insert jti x)) := by
  by_cases hx : x ≤ now
  · exact .inl ⟨hx, by simp [add, hx]⟩
  · have hlt : now < x := by omega
    cases hv : s.lookup jti with
    | none => exact .inr (.inr ⟨hlt, by simp, by simp [add, hx, hv]⟩)
    | some v =>
      by_cases hlive : now ≤ v
      · exact .inr (.inl ⟨hlt, v, rfl, hlive, by simp [add, hx, hv, hlive]⟩)
      · refine .inr (.inr ⟨hlt, ?_, by simp [add, hx, hv, hlive]⟩)
        intro v' hv'
        obtain rfl : v = v' := by simpa using hv'
        omega

variable {s : Blacklist} {k : Bytes} {v now x e : Int}

theorem Blacklist.add_keeps (h : s.lookup k = some v) (now : Int) (jti : Bytes) (x : Int) :
    v < now ∨ ∃ v', (add s now jti x).2.lookup k = some v' ∧ v ≤ v' := by
  rcases add_cases s now jti x with
    ⟨-, hadd⟩ | ⟨-, u, hu, -, hadd⟩ | ⟨-, hpast, hadd⟩
  · rw [hadd]
    exact .inr ⟨v, h, le_refl _⟩
  · rw [hadd]
    right
    by_cases hlt : u < x
    · simp only [if_pos hlt, FMap.lookup_insert_ite]
      by_cases hk : k = jti
      · subst hk
        rw [hu, some.injEq] at h
        exact ⟨x, by simp, by omega⟩
      · exact ⟨v, by simp [hk, h], le_refl _⟩
    · simp only [if_neg hlt]
      exact ⟨v, h, le_refl _⟩
  · rw [hadd]
    by_cases hk : k = jti
    · subst hk
      exact .inl (hpast v h)
    · right
      simp only [FMap.lookup_insert_ite, if_neg hk]
      exact ⟨v, h, le_refl _⟩

theorem Blacklist.add_writes (s : Blacklist) (now : Int) (jti : Bytes) (x : Int) :
    x ≤ now ∨ ∃ v, (add s now jti x).2.lookup jti = some v ∧ x ≤ v := by
  rcases add_cases s now jti x with ⟨hx, -⟩ | ⟨-, u, hu, -, hadd⟩ | ⟨-, -, hadd⟩
  · exact .inl hx
  · rw [hadd]
    right
    by_cases hlt : u < x
    · exact ⟨x, by simp [hlt], le_refl _⟩
    · exact ⟨u, by simp [hlt, hu], by omega⟩
  · rw [hadd]
    exact .inr ⟨x, by simp, le_refl _⟩

variable {jti : Bytes}

theorem Blacklist.add_fresh (h : (add s now jti x).1 = true) :
    now < x ∧ ∀ v, s.lookup jti = some v → v < now := by
  rcases add_cases s now jti x with
    ⟨-, hadd⟩ | ⟨-, u, -, -, hadd⟩ | ⟨hx, hpast, -⟩
  · simp [hadd] at h
  · simp [hadd] at h
  · exact ⟨hx, hpast⟩

theorem Blacklist.cleanup_keeps (h : s.lookup k = some v)
    (now : Int) : v < now ∨ (Blacklist.cleanup s now).lookup k = some v := by
  by_cases hv : v < now
  · exact .inl hv
  · right
    have hle : now ≤ v := by omega
    rw [cleanup, FMap.lookup_filter, h]
    simp [Option.filter, hle]

theorem Blacklist.drop_keeps (h : s.lookup k = some v) (jti : Bytes) (hx : x < now) :
    v < now ∨ (drop s jti x).lookup k = some v := by
  unfold drop
  split
  · rename_i hread
    by_cases hk : k = jti
    · subst hk
      rw [hread, some.injEq] at h
      exact .inl (by omega)
    · exact .inr (by rw [FMap.lookup_erase_ite, if_neg hk, h])
  · exact .inr h

theorem Generations.current_bump (s : Generations) (userID k : Bytes) :
    current (bump s userID).2 k =
      if k = userID ∧ userID ≠ [] then current s k + 1
      else current s k := by
  by_cases hnil : userID = []
  · simp [bump, hnil]
  · by_cases hk : k = userID
    · subst hk
      simp [current, bump, hnil]
    · have hne : ¬(k = userID ∧ userID ≠ []) := fun h => hk h.1
      rw [if_neg hne]
      simp [current, bump, hnil, AList.lookup_insert_ne hk]

def World.generation (w : World) (userID : Bytes) : Int :=
  Generations.current w.generations userID

def Held (w : World) (jti : Bytes) (e : Int) : Prop :=
  e ≤ w.now ∨ ∃ v, w.blacklist.lookup jti = some v ∧ e ≤ v

structure Later (w w' : World) : Prop where
  now_le : w.now ≤ w'.now
  generation_le : ∀ userID, w.generation userID ≤ w'.generation userID
  held : ∀ jti e, Held w jti e → Held w' jti e

theorem Later.refl (w : World) : Later w w := ⟨le_refl _, fun _ => le_refl _, fun _ _ h => h⟩

theorem Later.trans (u v w : World) (h : Later u v) (h' : Later v w) : Later u w where
  now_le := le_trans h.now_le h'.now_le
  generation_le := fun userID => le_trans (h.generation_le userID) (h'.generation_le userID)
  held := fun jti e hu => h'.held jti e (h.held jti e hu)

theorem Held.of_entries {w w' : World} (h : Held w jti e) (hnow : w.now ≤ w'.now)
    (hentry : ∀ v, w.blacklist.lookup jti = some v →
      v < w'.now ∨ ∃ v', w'.blacklist.lookup jti = some v' ∧ v ≤ v') : Held w' jti e := by
  rcases h with hpast | ⟨v, hv, he⟩
  · exact .inl (by omega)
  · rcases hentry v hv with hlt | ⟨v', hv', hle⟩
    · exact .inl (by omega)
    · exact .inr ⟨v', hv', by omega⟩

variable {w : World}

theorem Held.mono {e' : Int} (h : Held w jti e') (he : e ≤ e') : Held w jti e := by
  rcases h with hpast | ⟨v, hv, hle⟩
  · exact .inl (by omega)
  · exact .inr ⟨v, hv, by omega⟩

theorem later_after (w : World) (d : Nat) : Later w (w.after d) where
  now_le := Nat.le_add_right _ _
  generation_le := fun _ => le_refl _
  held := fun _ _ h => h.of_entries (Nat.le_add_right _ _) fun v hv => .inr ⟨v, hv, le_refl _⟩

theorem later_of_entries (h : ∀ k v, w.blacklist.lookup k = some v →
      v < w.now ∨ ∃ v', s.lookup k = some v' ∧ v ≤ v') : Later w { w with blacklist := s } where
  now_le := le_refl _
  generation_le := fun _ => le_refl _
  held := fun k _ hk => hk.of_entries (le_refl _) (h k)

theorem later_apply (w : World) (e : Env) (o : Op)
    (hdrop : ∀ jti x, o = .drop jti x → x < w.now) : Later w (apply w e o).2 := by
  cases o with
  | bump userID =>
    refine ⟨le_refl _, fun k => ?_, fun _ _ h => h⟩
    have hbump := current_bump w.generations userID k
    simp only [World.generation, apply, hbump]
    split <;> omega
  | add jti x => exact later_of_entries fun k v hv => add_keeps hv w.now jti x
  | cleanup =>
    refine later_of_entries fun k v hv => ?_
    rcases cleanup_keeps hv w.now with hlt | hkept
    · exact .inl hlt
    · exact .inr ⟨v, hkept, le_refl _⟩
  | drop jti x =>
    refine later_of_entries fun k v hv => ?_
    rcases drop_keeps hv jti (hdrop jti x rfl) with hlt | hkept
    · exact .inl hlt
    · exact .inr ⟨v, hkept, le_refl _⟩
  | _ => exact Later.refl w

theorem later_exec (w : World) (e : Env) (o : Op)
    (hdrop : ∀ jti x, o = .drop jti x → x < w.now) : Later w (exec w e o).2 := by
  have hafter := later_after w e.elapsed
  refine Later.trans _ _ _ hafter (later_apply _ e o fun jti x ho => ?_)
  have hlt := hdrop jti x ho
  have hle := hafter.now_le
  omega

abbrev Keeps {α : Type} (p : Prog Res α) : Prop := p.Keeps exec Later

abbrev From {α : Type} (w : World) (p : Prog Res α) (Q : α → World → Prop) : Prop :=
  p.Under exec Later Q w

theorem keeps_perform {o : Op} (ho : ∀ jti x, o ≠ .drop jti x) :
    Keeps (perform o : Prog Res (Res o)) :=
  perform fun w e => later_exec w e o fun jti x h => absurd h (ho jti x)

theorem from_bind_keeps {α β : Type} {p : Prog Res α} {f : α → Prog Res β}
    {Q : β → World → Prop} (hp : Keeps p) (hf : ∀ a w', Later w w' → From w' (f a) Q) :
    From w (p >>= f) Q :=
  Under.bind_keeps Later.refl Later.trans hp hf

theorem from_results {α : Type} {P : α → Prop} {p : Prog Res α} (hp : p.Results P)
    (hkeeps : Keeps p) (w : World) : From w p fun a w' => P a ∧ Later w w' := by
  have hreached := (hkeeps w).reached Later.trans (Later.refl w)
  exact hp.under (hreached.mono fun _ _ h => h.2)

theorem from_clock (w : World) : From w clock fun t w' => t = w'.now ∧ Later w w' := by
  intro w' e hw
  have hstep := later_exec w' e .clock (by simp)
  exact ⟨hstep, rfl, Later.trans _ _ _ hw hstep⟩

theorem from_read (w : World) (jti : Bytes) :
    From w (perform (Op.read jti) : Prog Res (Option Int)) fun entry w' =>
      entry = w'.blacklist.lookup jti ∧ Later w w' := by
  intro w' e hw
  have hstep := later_exec w' e (.read jti) (by simp)
  exact ⟨hstep, rfl, Later.trans _ _ _ hw hstep⟩

theorem from_current (w : World) (userID : Bytes) :
    From w (perform (Op.current userID) : Prog Res Int) fun g w' =>
      g = w'.generation userID ∧ Later w w' := by
  intro w' e hw
  have hstep := later_exec w' e (.current userID) (by simp)
  exact ⟨hstep, rfl, Later.trans _ _ _ hw hstep⟩

theorem keeps_clock : Keeps clock := keeps_perform (by simp)

theorem keeps_generateJTI : Keeps generateJTI := by
  apply bind (keeps_perform (by simp))
  intro entropy
  cases entropy with
  | none => exact ret _
  | some b => exact ret _

theorem from_blacklistHas (w : World) (jti : Bytes) (e : Int) :
    From w (blacklistHas jti) fun listed w' => Held w jti e → listed = false → e ≤ w'.now := by
  refine under_bind.mpr ((from_read w jti).mono fun entry w₂ h => ?_)
  obtain ⟨rfl, hread⟩ := h
  cases hv : w₂.blacklist.lookup jti with
  | none =>
    intro hheld _
    rcases hread.held jti e hheld with hpast | ⟨v, hv', -⟩
    · exact hpast
    · rw [hv] at hv'
      cases hv'
  | some v =>
    refine under_bind.mpr ((from_clock w₂).mono fun t w₃ ht => ?_)
    obtain ⟨rfl, hclock⟩ := ht
    by_cases hlt : v < w₃.now
    · rw [if_pos hlt]
      intro w₄ e₄ h₄
      have hnow := h₄.now_le
      refine ⟨later_exec w₄ e₄ _ ?_, ?_⟩
      · intro jti' x ho
        obtain ⟨-, rfl⟩ : jti = jti' ∧ v = x := by simpa using ho
        omega
      · intro hheld _
        have hdropped : w₄.now ≤ (exec w₄ e₄ (.drop jti v)).2.now := Nat.le_add_right _ _
        have hle := hclock.now_le
        rcases hread.held jti e hheld with hpast | ⟨v', hv', he⟩
        · omega
        · rw [hv, some.injEq] at hv'
          omega
    · rw [if_neg hlt]
      exact nofun

variable (cfg : JWTConfig)

theorem keeps_blacklistHas (jti : Bytes) : Keeps (blacklistHas jti) := fun w =>
  (from_blacklistHas w jti 0).mono fun _ _ _ => trivial

theorem keeps_isBlacklisted (jti : Bytes) : Keeps (isBlacklisted cfg jti) := by
  unfold isBlacklisted
  split
  · exact keeps_blacklistHas jti
  · exact ret _

theorem keeps_signAccessToken (id : Ident) : Keeps (signAccessToken cfg id) := by
  apply bind keeps_clock
  intro now
  apply bind keeps_generateJTI
  intro jti
  cases jti with
  | error e => exact ret _
  | ok jti => exact ret _

variable (token : Token)

theorem keeps_verifyToken : Keeps (verifyToken token) := by
  cases token with
  | unverifiable => exact ret _
  | signed cl =>
    apply bind keeps_clock
    intro now
    dsimp only
    split
    · exact ret _
    · exact ret _

theorem keeps_checkRefreshGeneration (userID : Bytes) (cl : Claims) :
    Keeps (checkRefreshGeneration userID cl) :=
  bind (keeps_perform (by simp)) fun _ => ret _

theorem keeps_blacklistExpiry (expiresAt : Int) : Keeps (blacklistExpiry cfg expiresAt) := by
  unfold blacklistExpiry
  split
  · exact ret _
  · exact bind keeps_clock fun _ => ret _

theorem keeps_validateToken : Keeps (validateToken cfg token) := by
  apply bind (keeps_verifyToken token)
  intro r
  cases r with
  | error e => exact ret _
  | ok v =>
    dsimp only
    split
    · apply bind (keeps_isBlacklisted cfg v.claims.id)
      intro listed
      split
      · exact ret _
      · apply bind keeps_clock
        intro now
        split
        · exact ret _
        · exact ret _
    · exact ret _

variable (v : Verified)

theorem keeps_consumeAndIssue (id : Ident) : Keeps (consumeAndIssue cfg v id) := by
  unfold consumeAndIssue
  split
  · apply bind (keeps_blacklistExpiry cfg v.expiry)
    intro expiresAt
    apply bind (keeps_perform (by simp))
    intro consumed
    split
    · exact keeps_signAccessToken cfg id
    · apply bind keeps_clock
      intro now
      split
      · exact ret _
      · exact ret _
  · exact keeps_signAccessToken cfg id

theorem keeps_decideAndIssue (id : Ident) : Keeps (decideAndIssue cfg v id) := by
  apply bind (keeps_checkRefreshGeneration _ _)
  intro current
  split
  · apply bind keeps_clock
    intro now
    split
    · exact ret _
    · exact keeps_consumeAndIssue cfg v id
  · exact ret _

theorem keeps_refreshVerified : Keeps (refreshVerified cfg v) := by
  unfold refreshVerified
  split
  · exact ret _
  · apply bind (keeps_checkRefreshGeneration _ _)
    intro current
    split
    · apply bind (keeps_perform (by simp))
      intro found
      cases found with
      | user id => exact keeps_decideAndIssue cfg v id
      | _ => exact ret _
    · exact ret _

theorem keeps_refreshToken : Keeps (refreshToken cfg token) := by
  apply bind (keeps_validateToken cfg token)
  intro r
  split
  · exact ret _
  · exact ret _
  · exact keeps_refreshVerified cfg _

theorem keeps_revokeToken (jti : Bytes) (expiresAt : Option Int) :
    Keeps (revokeToken cfg jti expiresAt) := by
  unfold revokeToken
  split
  · apply bind (keeps_blacklistExpiry cfg _)
    intro expiry
    exact bind (keeps_perform (by simp)) fun _ => ret _
  · exact ret _

theorem keeps_bumpRefreshGeneration (userID : Bytes) : Keeps (bumpRefreshGeneration userID) := by
  unfold bumpRefreshGeneration
  split
  · exact ret _
  · exact bind (keeps_perform (by simp)) fun _ => ret _

theorem keeps_signOutVerified : Keeps (signOutVerified cfg v) := by
  apply bind (keeps_revokeToken cfg _ _)
  intro _
  exact bind (keeps_bumpRefreshGeneration _) fun _ => ret _

theorem keeps_signOutToken : Keeps (signOutToken cfg token) := by
  apply bind (keeps_verifyToken token)
  intro r
  cases r with
  | error e => exact ret _
  | ok v =>
    dsimp only
    split
    · apply bind (keeps_checkRefreshGeneration _ _)
      intro current
      split
      · exact keeps_signOutVerified cfg v
      · exact ret _
    · exact keeps_signOutVerified cfg v

theorem keeps_generateRefreshToken (id : Ident) : Keeps (generateRefreshToken cfg id) := by
  apply bind keeps_clock
  intro now
  apply bind keeps_generateJTI
  intro jti
  cases jti with
  | error e => exact ret _
  | ok jti => exact bind (keeps_perform (by simp)) fun _ => ret _

theorem keeps_body (c : Call) : Keeps (body cfg c) := by
  cases c with
  | generateToken id => exact (keeps_signAccessToken cfg id).bind fun _ => ret _
  | generateRefreshToken id =>
    exact (keeps_generateRefreshToken cfg id).bind fun _ => ret _
  | validateToken token => exact (keeps_validateToken cfg token).bind fun _ => ret _
  | refreshToken token => exact (keeps_refreshToken cfg token).bind fun _ => ret _
  | revokeToken jti expiresAt =>
    exact (keeps_revokeToken cfg jti expiresAt).bind fun _ => ret _
  | signOutToken token => exact (keeps_signOutToken cfg token).bind fun _ => ret _
  | isBlacklisted jti => exact (keeps_isBlacklisted cfg jti).bind fun _ => ret _
  | cleanupBlacklist =>
    exact bind (keeps_perform (by simp)) fun _ => ret _
  | revokeAllRefreshTokensForUser userID =>
    refine bind ?_ fun _ => ret _
    unfold revokeAllRefreshTokensForUser
    split
    · exact ret _
    · exact keeps_bumpRefreshGeneration userID

/-! Whole runs. -/

def Quiet (p : Threads) : Prop := (system cfg).Relies Later (fun _ _ _ _ => True) p

theorem quiet_start (w : World) : Quiet cfg (Pool.start w) := System.relies_start w

variable {cfg}

theorem later_run {Q : Call → Result → World → Prop} {p : Threads} (hp : Quiet cfg p)
    (hQ : ∀ c r w w', Later w w' → Q c r w → Q c r w')
    (hbody : ∀ c w, Later p.world w → From w (body cfg c) (Q c)) (acts : List (Act Env Call)) :
    Later p.world ((system cfg).run p acts).world ∧
      ∀ i c r, p.threads.length ≤ i → Returned ((system cfg).run p acts) i c r →
        Q c r ((system cfg).run p acts).world := by
  have hstart : (system cfg).Relies Later (fun n c r w => p.threads.length ≤ n → Q c r w) p := by
    intro i c q hi
    have hlt := (List.getElem?_eq_some_iff.mp hi).1
    exact (hp i c q hi).mono fun _ _ _ hle => by omega
  have hstable : ∀ n c r w w', Later w w' → (p.threads.length ≤ n → Q c r w) →
      p.threads.length ≤ n → Q c r w' :=
    fun n c r w w' hw h hle => hQ c r w w' hw (h hle)
  obtain ⟨hlater, hend⟩ := System.relies_run Later.refl Later.trans hstable hstart
    (fun n c w _ hw => (hbody c w hw).mono fun _ _ h _ => h) acts
  exact ⟨hlater, fun i c r hi hr => hend i c _ hr hi⟩

theorem quiet_run {p : Threads} (hp : Quiet cfg p) (acts : List (Act Env Call)) :
    Quiet cfg ((system cfg).run p acts) :=
  (System.relies_run Later.refl Later.trans (fun _ _ _ _ _ _ h => h) hp
    (fun _ c w _ _ => keeps_body cfg c w) acts).2

end Auth
