import Velocity.Auth.Revocation

/-! A refresh token is spent at most once, and never after it has ended. Of the calls that present a
token only the one whose consume first reached the blacklist goes on to issue; what is on the
blacklist until its expiry does not validate again. -/

namespace Auth

open Interleave List

variable {cfg : JWTConfig} {cl : Claims} {acts : List (Act Env Call)} {id : Ident}

/-! An id that is held. -/

variable {x : Int} {w : World}

theorem from_validateToken_held (henabled : cfg.blacklistEnabled = true)
    (hx : cl.expiresAt = some x) (h : Held w cl.id x) :
    From w (validateToken cfg (.signed cl)) fun r _ => ∃ e, r = .error e := by
  refine Prog.under_bind.mpr ((from_verifyToken (.signed cl) w).mono fun r w₁ h₁ => ?_)
  obtain ⟨hclaims, hlater⟩ := h₁
  cases r with
  | error e => exact ⟨e, rfl⟩
  | ok v =>
    obtain rfl : cl = v.claims := Token.signed.inj (hclaims v rfl)
    obtain rfl : v.expiry = x := Option.some.inj (v.expiresAt_eq.symm.trans hx)
    have hheld := hlater.held _ _ h
    simp only [henabled, if_true, isBlacklisted]
    refine Prog.under_bind.mpr ((from_blacklistHas w₁ v.claims.id v.expiry).mono ?_)
    intro listed w₂ h₂
    cases listed with
    | true => exact ⟨_, rfl⟩
    | false =>
      have hpast := h₂ hheld rfl
      refine Prog.under_bind.mpr ((from_clock w₂).mono fun now w₃ h₃ => ?_)
      obtain ⟨rfl, hclock⟩ := h₃
      have hnow := hclock.now_le
      have hexpired : v.expiry ≤ (w₃.now : Int) := by omega
      rw [if_pos hexpired]
      exact ⟨_, rfl⟩

theorem from_refreshToken_held (henabled : cfg.blacklistEnabled = true)
    (hx : cl.expiresAt = some x) (h : Held w cl.id x) :
    From w (refreshToken cfg (.signed cl)) fun r _ => ∃ e, r = .error e := by
  refine Prog.under_bind.mpr ((from_validateToken_held henabled hx h).mono fun r w₁ hr => ?_)
  obtain ⟨e, rfl⟩ := hr
  cases e <;> exact ⟨_, rfl⟩

theorem held_add (w : World) (e : Env) (jti : Bytes) (x : Int) :
    Held (exec w e (.add jti x)).2 jti x :=
  Blacklist.add_writes (w.after e.elapsed).blacklist (w.after e.elapsed).now jti x

variable {jti : Bytes}

theorem not_held_of_added {e : Env} (h : (exec w e (.add jti x)).1 = true) : ¬Held w jti x := by
  intro hheld
  obtain ⟨hx, hpast⟩ := Blacklist.add_fresh h
  rcases (later_after w e.elapsed).held jti x hheld with hle | ⟨v, hv, hle⟩
  · omega
  · have hlt := hpast v hv
    omega

theorem invariant_log {I : World → Log Res → Prop} {p : Threads} (hp : Quiet cfg p)
    (h0 : I p.world p.log) (hstep : ∀ w l i e o, I w l → Later w (exec w e o).2 →
      I (exec w e o).2 (l ++ [⟨i, o, (exec w e o).1⟩])) (acts : List (Act Env Call)) :
    I ((system cfg).run p acts).world ((system cfg).run p acts).log :=
  System.invariant_relies Later.refl Later.trans (fun _ _ _ _ _ _ h => h) hp
    (fun _ c w _ _ => keeps_body cfg c w) h0 hstep acts

/-- The id was put on the blacklist, for as long as `x` at least. -/
def Blacklisted (p : Threads) (jti : Bytes) (x : Int) : Prop :=
  ∃ ev ∈ p.log, ∃ x', ev.op = .add jti x' ∧ x ≤ x'

theorem held_of_blacklisted (h : Blacklisted ((system cfg).run (Pool.start w) acts) jti x) :
    Held ((system cfg).run (Pool.start w) acts).world jti x := by
  have hrun := invariant_log (quiet_start cfg w) (I := fun w l =>
    (∃ ev ∈ l, ∃ x', ev.op = .add jti x' ∧ x ≤ x') → Held w jti x) ?_ ?_ acts
  · exact hrun h
  · rintro ⟨ev, hev, -⟩
    cases hev
  · intro w l i e o hI hlater ⟨ev, hev, x', hop, hle⟩
    rcases mem_concat.mp hev with hev | rfl
    · exact hlater.held _ _ (hI ⟨ev, hev, x', hop, hle⟩)
    · have hop' : o = .add jti x' := hop
      subst hop'
      exact (held_add w e jti x').mono hle

def spends (jti : Bytes) (x : Int) : (o : Op) → Res o → Bool
  | .add jti' x', added => added && decide (jti' = jti ∧ x' = x)
  | _, _ => false

theorem spends_add (jti : Bytes) (x : Int) (added : Bool) :
    spends jti x (.add jti x) added = added := by
  show (added && decide (jti = jti ∧ x = x)) = added
  simp

theorem eq_add_of_spends {o : Op} {r : Res o} (h : spends jti x o r = true) : o = .add jti x := by
  cases o with
  | add jti' x' =>
    obtain ⟨-, hsame⟩ := (Bool.and_eq_true _ _).mp h
    obtain ⟨rfl, rfl⟩ := of_decide_eq_true hsame
    rfl
  | _ => cases h

def spendsEvent (jti : Bytes) (x : Int) (ev : Event Res) : Bool := spends jti x ev.op ev.res

theorem length_spends_le_one (w : World) (acts : List (Act Env Call)) (jti : Bytes) (x : Int) :
    (((system cfg).run (Pool.start w) acts).log.filter (spendsEvent jti x)).length ≤ 1 := by
  have hrun := invariant_log (quiet_start cfg w) (I := fun w l =>
    (l.filter (spendsEvent jti x)).length ≤ 1 ∧
      (l.filter (spendsEvent jti x) ≠ [] → Held w jti x)) ?_ ?_ acts
  · exact hrun.1
  · exact ⟨Nat.zero_le _, absurd rfl⟩
  · rintro w l i e o ⟨hone, hheld⟩ hlater
    rw [filter_append, filter_singleton]
    cases hspends : spendsEvent jti x ⟨i, o, (exec w e o).1⟩ with
    | false =>
      rw [cond_false, append_nil]
      exact ⟨hone, fun h => hlater.held _ _ (hheld h)⟩
    | true =>
      obtain rfl := eq_add_of_spends hspends
      have hadded : (exec w e (.add jti x)).1 = true := (spends_add jti x _).symm.trans hspends
      -- the first to be added found nothing there, so nothing was added before
      have hnone : l.filter (spendsEvent jti x) = [] := by
        by_contra hne
        exact not_held_of_added hadded (hheld hne)
      rw [hnone]
      exact ⟨le_refl _, fun _ => held_add w e jti x⟩

/-! A call that issues has consumed. -/

def ClockAnswer : (o : Op) → Res o → Prop
  | .clock, now => (0 : Int) ≤ now
  | _, _ => True

def spender (jti : Bytes) (x : Int) : Monitor Res where
  State := Bool
  init := false
  allowed := ClockAnswer
  guard := fun _ _ _ => True
  next := fun m o r => m || spends jti x o r

section Spender

open Prog

theorem clockAnswer_exec (w : World) (e : Env) (o : Op) : ClockAnswer o (exec w e o).1 := by
  cases o with
  | clock => exact Int.natCast_nonneg _
  | _ => trivial

theorem wp_free {α : Type} (p : Prog Res α) (m : Bool) : p.wp (spender jti x) m fun _ _ => True :=
  wp_of_kept (spender jti x) (J := fun _ => True)
    (All.of_forall (fun _ _ _ _ => ⟨trivial, trivial⟩) p) trivial

theorem wp_spent {α : Type} (p : Prog Res α) : p.wp (spender jti x) true fun _ m => m = true :=
  wp_of_kept (spender jti x) (J := fun m => m = true)
    (All.of_forall (fun _ _ _ hm => ⟨trivial, by simp [spender, hm]⟩) p) rfl

theorem wp_bind_free {α β : Type} {p : Prog Res α} {f : α → Prog Res β} {m : Bool}
    {Q : β → Bool → Prop} (hf : ∀ a m', (f a).wp (spender jti x) m' Q) :
    (p >>= f).wp (spender jti x) m Q :=
  wp_bind_of (wp_free p m) fun a m' _ => hf a m'

theorem wp_clock (m : Bool) : clock.wp (spender jti x) m fun now _ => 0 ≤ now :=
  fun _ hnow => ⟨trivial, hnow⟩

theorem wp_add (m : Bool) : (perform (Op.add jti x) : Prog Res Bool).wp (spender jti x) m
    fun added m' => added = true → m' = true := by
  refine fun (added : Bool) _ => ⟨trivial, fun (hadded : added = true) => ?_⟩
  show (m || spends jti x (.add jti x) added) = true
  rw [spends_add, hadded, Bool.or_true]

variable (henabled : cfg.blacklistEnabled = true)

include henabled

theorem wp_consumeAndIssue {v : Verified} (hpos : 0 < v.expiry) (id : Ident) (m : Bool) :
    (consumeAndIssue cfg v id).wp (spender v.claims.id v.expiry) m fun r m' =>
      ∀ tok, r = .ok tok → m' = true := by
  have hne : v.expiry ≠ 0 := by omega
  simp only [consumeAndIssue, henabled, if_true, blacklistExpiry, if_pos hne, pure_eq, ret_bind]
  refine wp_bind_of (wp_add m) fun added m₁ hspent => ?_
  split
  · rename_i hadded
    rw [hspent hadded]
    exact wp_mono (wp_spent (signAccessToken cfg id)) fun _ _ hm _ _ => hm
  · apply wp_bind_free
    intro now m₂
    split
    · exact fun tok h => by cases h
    · exact fun tok h => by cases h

theorem wp_decideAndIssue (v : Verified) (id : Ident) (m : Bool) :
    (decideAndIssue cfg v id).wp (spender v.claims.id v.expiry) m fun r m' =>
      ∀ tok, r = .ok tok → m' = true := by
  apply wp_bind_free
  intro current m'
  split
  · refine wp_bind_of (wp_clock m') fun now m₁ hnow => ?_
    split
    · exact fun tok h => by cases h
    · exact wp_consumeAndIssue henabled (by omega) id m₁
  · exact fun tok h => by cases h

theorem wp_refreshVerified (v : Verified) (m : Bool) :
    (refreshVerified cfg v).wp (spender v.claims.id v.expiry) m fun r m' =>
      ∀ tok, r = .ok tok → m' = true := by
  unfold refreshVerified
  split
  · exact fun tok h => by cases h
  · apply wp_bind_free
    intro current m₁
    split
    · apply wp_bind_free
      intro found m₂
      cases found with
      | user id => exact wp_decideAndIssue henabled v id m₂
      | _ => exact fun tok h => by cases h
    · exact fun tok h => by cases h

theorem wp_refreshToken (token : Token) (m : Bool) :
    (refreshToken cfg token).wp (spender jti x) m fun r m' => ∀ tok, r = .ok tok →
      ∃ v : Verified, token = .signed v.claims ∧ (v.claims.id = jti → v.expiry = x → m' = true) := by
  refine wp_bind_of ((results_validateToken cfg token).wp (wp_free _ m)) fun r m' hr => ?_
  split
  · exact fun tok h => by cases h
  · exact fun tok h => by cases h
  · rename_i v
    have htoken := hr.1 v rfl
    by_cases hsame : v.claims.id = jti ∧ v.expiry = x
    · obtain ⟨rfl, rfl⟩ := hsame
      refine wp_mono (wp_refreshVerified henabled v m') fun r m'' h tok htok => ?_
      exact ⟨v, htoken, fun _ _ => h tok htok⟩
    · refine wp_mono (wp_free (refreshVerified cfg v) m') fun r m'' _ tok _ => ?_
      exact ⟨v, htoken, fun hid hx => absurd ⟨hid, hx⟩ hsame⟩

theorem spent_of_issued {w : World} {i : Nat} {token tok : Token} (jti : Bytes) (x : Int)
    (h : Returned ((system cfg).run (Pool.start w) acts) i (.refreshToken token) (.token (.ok tok))) :
    ∃ v : Verified, token = .signed v.claims ∧ (v.claims.id = jti → v.expiry = x →
      ∃ ev ∈ ((system cfg).run (Pool.start w) acts).log, ev.tid = i ∧ spendsEvent jti x ev = true) := by
  have hret := (system cfg).returned (spender jti x) (Q := fun c r m =>
    ∀ token tok, c = .refreshToken token → r = .token (.ok tok) →
      ∃ v : Verified, token = .signed v.claims ∧ (v.claims.id = jti → v.expiry = x → m = true))
    ?_ clockAnswer_exec h
  · obtain ⟨v, htoken, hflag⟩ := hret token tok rfl rfl
    refine ⟨v, htoken, fun hid hx => ?_⟩
    have hany := (spender jti x).stateOf_any (f := fun m : Bool => m) rfl
      (fun _ _ _ => rfl) ((system cfg).run (Pool.start w) acts).log i
    rw [hflag hid hx] at hany
    obtain ⟨ev, hev, hspends⟩ := any_eq_true.mp hany.symm
    rw [Bool.and_eq_true, decide_eq_true_eq] at hspends
    exact ⟨ev, hev, hspends.1, hspends.2⟩
  · intro c
    by_cases hc : ∃ token, c = .refreshToken token
    · obtain ⟨token, rfl⟩ := hc
      refine wp_bind_of (wp_refreshToken henabled token _) fun r m hr => ?_
      intro token' tok' hc' hr'
      obtain rfl : token = token' := by simpa using hc'
      exact hr tok' (by simpa using hr')
    · refine wp_mono (wp_free _ _) fun r m _ token tok hc' _ => ?_
      exact absurd ⟨token, hc'⟩ hc

end Spender

/-- At most one call with the token gets an access token. -/
def SpentOnce (cfg : JWTConfig) (w : World) : Prop :=
  ∀ (acts : List (Act Env Call)) (i j : Nat) (token tok tok' : Token),
    let p := (system cfg).run (Pool.start w) acts
    Returned p i (.refreshToken token) (.token (.ok tok)) →
    Returned p j (.refreshToken token) (.token (.ok tok')) → i = j

/-- A call begun after the id was blacklisted until its expiry refuses the token. -/
def EndsWhenBlacklisted (cfg : JWTConfig) (w : World) : Prop :=
  ∀ (acts₀ acts₁ : List (Act Env Call)) (k : Nat) (cl : Claims) (x : Int),
    let p₀ := (system cfg).run (Pool.start w) acts₀
    let p₁ := (system cfg).run p₀ acts₁
    cl.expiresAt = some x → Blacklisted p₀ cl.id x → p₀.threads.length ≤ k →
    (∀ r, Returned p₁ k (.refreshToken (.signed cl)) (.token r) → ∃ e, r = .error e) ∧
    ∀ r, Returned p₁ k (.validateToken (.signed cl)) (.verified r) → ∃ e, r = .error e

/-- The counter of the identifier or of its claim went up. -/
def Bumped (id : Ident) (w w' : World) : Prop :=
  w.generation id.text < w'.generation id.text ∨
    w.generation (signOutKey id.claim) < w'.generation (signOutKey id.claim)

/-- A refresh begun after that refuses the tokens issued before. -/
def EndsWhenBumped (cfg : JWTConfig) (w : World) (id : Ident) : Prop :=
  ∀ (acts₀ acts₁ acts₂ : List (Act Env Call)) (i k : Nat) (tok : Token) (r : Except Err Token),
    let p₀ := (system cfg).run (Pool.start w) acts₀
    let p₁ := (system cfg).run p₀ acts₁
    let p₂ := (system cfg).run p₁ acts₂
    Returned p₀ i (.generateRefreshToken id) (.token (.ok tok)) → Bumped id p₀.world p₁.world →
    p₁.threads.length ≤ k → Returned p₂ k (.refreshToken tok) (.token r) → ∃ e, r = .error e

theorem spentOnce (henabled : cfg.blacklistEnabled = true) (w : World) : SpentOnce cfg w := by
  intro acts i j token tok tok' p hi hj
  obtain ⟨v, rfl, -⟩ := spent_of_issued henabled [] 0 hi
  have hspent : ∀ {k tok}, Returned p k (.refreshToken (.signed v.claims)) (.token (.ok tok)) →
      ∃ ev ∈ p.log, ev.tid = k ∧ spendsEvent v.claims.id v.expiry ev = true := by
    intro k tok hk
    obtain ⟨v', hv', hev⟩ := spent_of_issued henabled v.claims.id v.expiry hk
    have hclaims : v.claims = v'.claims := Token.signed.inj hv'
    have hexpiry : v'.expiry = v.expiry := by
      have h := v'.expiresAt_eq
      rw [← hclaims, v.expiresAt_eq, Option.some.injEq] at h
      exact h.symm
    exact hev (by rw [hclaims]) hexpiry
  obtain ⟨ev, hev, hevi, hspends⟩ := hspent hi
  obtain ⟨ev', hev', hevj, hspends'⟩ := hspent hj
  have hone : (p.log.filter (spendsEvent v.claims.id v.expiry)).length ≤ 1 :=
    length_spends_le_one w acts v.claims.id v.expiry
  have hsame : ev = ev' := eq_of_length_le_one hone (mem_filter.mpr ⟨hev, hspends⟩)
    (mem_filter.mpr ⟨hev', hspends'⟩)
  rw [← hevi, ← hevj, hsame]

theorem endsWhenBlacklisted (henabled : cfg.blacklistEnabled = true) (w : World) :
    EndsWhenBlacklisted cfg w := by
  intro acts₀ acts₁ k cl x p₀ p₁ hx hlisted hk
  have hq₀ : Quiet cfg p₀ := quiet_run (quiet_start cfg w) acts₀
  have hheld := held_of_blacklisted hlisted
  constructor
  · intro r hr
    refine refused_run hq₀ (fun w' hw' => ?_) acts₁ hk hr
    exact from_refreshToken_held henabled hx (hw'.held _ _ hheld)
  · intro r hr
    have hrun := later_run hq₀ (Q := fun c r _ => c = .validateToken (.signed cl) →
      ∀ r', r = .verified r' → ∃ e, r' = .error e) ?_ ?_ acts₁
    · exact hrun.2 k _ _ hk hr rfl r rfl
    · exact fun c r w w' _ hQ => hQ
    · intro c w' hw'
      by_cases hc : c = .validateToken (.signed cl)
      · subst hc
        have hrefused := from_validateToken_held henabled hx (hw'.held _ _ hheld)
        refine Prog.under_bind.mpr (hrefused.mono fun r w'' hr => ?_)
        intro _ r' hr'
        obtain rfl : r = r' := by simpa using hr'
        exact hr
      · exact (keeps_body cfg c w').mono fun _ _ _ hc' => absurd hc' hc

theorem endsWhenBumped_of_spelled (hid : id.Spelled) (cfg : JWTConfig) (w : World) :
    EndsWhenBumped cfg w id := by
  intro acts₀ acts₁ acts₂ i k tok r p₀ p₁ p₂ hissue hbumped hk hrefresh
  have hq₀ : Quiet cfg p₀ := quiet_run (quiet_start cfg w) acts₀
  have hq₁ : Quiet cfg p₁ := quiet_run hq₀ acts₁
  obtain ⟨cl, rfl, hissued⟩ := issued_run (quiet_start cfg w) acts₀ (Nat.zero_le i) hissue
  have hkey := id.spelled_iff.mp hid
  have hlt : p₀.world.generation id.text < p₁.world.generation id.text := by
    rw [Bumped, signOutKey_claim, hkey, or_self] at hbumped
    exact hbumped
  refine stale_run hq₁ ?_ acts₂ hk hrefresh
  rw [hissued.userID, hkey]
  exact lt_of_le_of_lt hissued.generation_le hlt

theorem spelled_of_endsWhenBumped (h : EndsWhenBumped defaults .empty id) : id.Spelled := by
  by_contra hid
  have hkey : refreshKey id.claim ≠ id.text := fun hkey => hid (id.spelled_iff.mpr hkey)
  have htext : id.text ≠ [] := by
    intro htext
    cases id with
    | str s =>
      have hs : s = [] := htext
      subst hs
      exact hid rfl
    | int n hn => exact Decimal.formatInt_ne_nil n htext
  obtain ⟨acts₀, acts₁, acts₂, tok, hr₀, -, hbumped, hr₂⟩ :=
    refreshed_after_revocation (.inr hkey)
  obtain ⟨e, he⟩ := h acts₀ acts₁ acts₂ _ _ _ _ hr₀ (.inl (hbumped htext)) (le_refl _) hr₂
  cases he

/-- A refresh token is spent at most once and not after its id was blacklisted; and not after its
user's generation was bumped exactly where the claim is spelled as the identifier is. -/
theorem refresh_token_spent_once_iff (id : Ident) :
    (∀ cfg w, cfg.blacklistEnabled = true →
      SpentOnce cfg w ∧ EndsWhenBlacklisted cfg w ∧ EndsWhenBumped cfg w id) ↔ id.Spelled := by
  constructor
  · intro h
    exact spelled_of_endsWhenBumped (h defaults .empty rfl).2.2
  · intro hid cfg w henabled
    exact ⟨spentOnce henabled w, endsWhenBlacklisted henabled w, endsWhenBumped_of_spelled hid cfg w⟩

/-- The refresh token of user 1000000, revoked once, is issued under the counter of "1000000" and
checked against that of "1e+06". -/
theorem signed_out_user_refreshes :
    let id := Ident.int 1000000 (by decide)
    let env : Env := ⟨0, some ⟨replicate 16 1, rfl⟩, .user id⟩
    let refresh : Claims := { firstClaims id with refreshGeneration := 1 }
    let access : Claims := {
      id := Base64.encode Base64.url (replicate 16 1), userID := id.claim
      tokenType := .access, refreshGeneration := 0
      expiresAt := some (numericDate (0 + defaults.ttl * minute)), notBefore := some 0 }
    let p₀ := (system defaults).run (Pool.start .empty)
      ([.spawn (.revokeAllRefreshTokensForUser (Bytes.ascii "1000000")), .run 0 env,
        .spawn (.generateRefreshToken id)] ++ replicate 3 (.run 1 (prompt id)) ++
        [.spawn (.generateToken id), .run 2 env, .run 2 env])
    let p₁ := (system defaults).run p₀
      (.spawn (.signOutToken (.signed access)) :: replicate 3 (.run 3 env))
    let p₂ := (system defaults).run p₁
      (.spawn (.refreshToken (.signed refresh)) :: replicate 10 (.run 4 env))
    Returned p₀ 1 (.generateRefreshToken id) (.token (.ok (.signed refresh))) ∧
      Returned p₀ 2 (.generateToken id) (.token (.ok (.signed access))) ∧
      Returned p₁ 3 (.signOutToken (.signed access)) (.claims (.ok access)) ∧
      p₀.world.generation (signOutKey id.claim) < p₁.world.generation (signOutKey id.claim) ∧
      p₁.threads.length = 4 ∧
      Returned p₂ 4 (.refreshToken (.signed refresh)) (.token (.ok (.signed access))) := by
  decide +kernel

end Auth
