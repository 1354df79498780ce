import Velocity.Auth.Interference

/-! What a call of the manager finds and leaves behind: among calls that keep to `Later`, the
generations of tokens, sign-outs and refusals; among calls that leave a good token alone, that a
refresh with it is granted. -/

namespace Auth

open Interleave Prog Prog.Results Blacklist Generations Later Claims

variable (cfg : JWTConfig)

theorem numericDate_le (t : Int) : numericDate t ≤ t := by
  unfold numericDate second
  omega

structure Issued (id : Ident) (w w' : World) (cl : Claims) : Prop where
  userID : cl.userID = id.claim
  tokenType : cl.tokenType = .refresh
  id_ne : cl.id ≠ []
  expires : ∃ x, cl.expiresAt = some x
  notBefore : ∀ t, cl.notBefore = some t → t ≤ w'.now
  generation_ge : w.generation id.text ≤ cl.refreshGeneration
  generation_le : cl.refreshGeneration ≤ w'.generation id.text

variable {cl : Claims}

theorem Issued.later {id : Ident} {w v v' : World} (h : Issued id w v cl)
    (hv : Later v v') : Issued id w v' cl where
  userID := h.userID
  tokenType := h.tokenType
  id_ne := h.id_ne
  expires := h.expires
  notBefore := fun t ht => by
    have hle := h.notBefore t ht
    have hnow := hv.now_le
    omega
  generation_ge := h.generation_ge
  generation_le := le_trans h.generation_le (hv.generation_le _)

theorem from_generateJTI (w : World) : From w generateJTI fun r w' =>
    Later w w' ∧ ∀ jti, r = .ok jti → jti ≠ [] := by
  intro w' e hw
  have hstep := later_exec w' e .random (by simp)
  refine ⟨hstep, ?_⟩
  have hlater := trans _ _ _ hw hstep
  generalize (exec w' e .random).1 = entropy
  cases entropy with
  | none => exact ⟨hlater, by simp⟩
  | some b =>
    refine ⟨hlater, fun jti hjti hnil => ?_⟩
    obtain rfl : Base64.encode Base64.url b.val = jti := by simpa using hjti
    have hb := b.property
    rw [Base64.encode_eq_nil hnil] at hb
    cases hb

variable (id : Ident)

theorem from_generateRefreshToken (w : World) : From w (generateRefreshToken cfg id) fun r w' =>
      ∀ tok, r = .ok tok → ∃ cl, tok = .signed cl ∧ Issued id w w' cl := by
  refine under_bind.mpr ((from_clock w).mono fun now w₁ h₁ => ?_)
  obtain ⟨rfl, hclock⟩ := h₁
  refine under_bind.mpr ((from_generateJTI w₁).mono fun r w₂ h₂ => ?_)
  obtain ⟨hjti, hne⟩ := h₂
  cases r with
  | error e => exact fun tok h => by cases h
  | ok jti =>
    refine under_bind.mpr ((from_current w₂ id.text).mono fun g w₃ h₃ => ?_)
    obtain ⟨rfl, hgen⟩ := h₃
    intro tok htok
    cases htok
    have hlater := trans _ _ _ hclock (trans _ _ _ hjti hgen)
    refine ⟨_, rfl, rfl, rfl, hne jti rfl, ⟨_, rfl⟩, ?_, hlater.generation_le _, le_refl _⟩
    intro t ht
    have hcut := numericDate_le w₁.now
    have hnow := (trans _ _ _ hjti hgen).now_le
    obtain rfl : numericDate w₁.now = t := by simpa using ht
    omega

variable {v : Verified}

theorem Claims.required_ok (h : cl.required = .ok v) : v.claims = cl := by
  unfold required at h
  split at h
  · cases h
  · split at h
    · cases h
    · cases h
      rfl

variable (token : Token)

theorem results_verifyToken :
    (verifyToken token).Results fun r => ∀ v, r = .ok v → token = .signed v.claims := by
  cases token with
  | unverifiable => exact fun v hv => by cases hv
  | signed cl =>
    apply bind_any
    intro now
    dsimp only
    split
    · exact fun v hv => by cases hv
    · exact fun v hv => by rw [required_ok hv]

theorem results_validateToken :
    (validateToken cfg token).Results fun r => ∀ v, r = .ok v → token = .signed v.claims := by
  refine (results_verifyToken token).bind fun r hr => ?_
  cases r with
  | error e => exact fun v hv => by cases hv
  | ok v =>
    dsimp only
    split
    · apply bind_any
      intro listed
      split
      · exact fun v hv => by cases hv
      · apply bind_any
        intro now
        split
        · exact fun v hv => by cases hv
        · exact hr
    · exact hr

theorem from_verifyToken (w : World) : From w (verifyToken token) fun r w' =>
    (∀ v, r = .ok v → token = .signed v.claims) ∧ Later w w' :=
  from_results (results_verifyToken token) (keeps_verifyToken token) w

theorem from_validateToken (w : World) : From w (validateToken cfg token) fun r w' =>
      (∀ v, r = .ok v → token = .signed v.claims) ∧ Later w w' :=
  from_results (results_validateToken cfg token) (keeps_validateToken cfg token) w

variable {k : Bytes}

theorem from_bumpRefreshGeneration (hk : k ≠ []) (w : World) :
    From w (bumpRefreshGeneration k) fun _ w' => w.generation k < w'.generation k := by
  rw [bumpRefreshGeneration, if_neg hk]
  intro w' e hw
  refine ⟨later_exec w' e _ (by simp), ?_⟩
  have hbump := current_bump w'.generations k k
  have hle := hw.generation_le k
  rw [if_pos ⟨rfl, hk⟩] at hbump
  show w.generation k < current (bump w'.generations k).2 k
  rw [hbump]
  exact Int.lt_add_one_of_le hle

theorem from_signOutVerified (v : Verified) (hk : k ≠ [])
    (hkey : signOutKey v.claims.userID = k) (w : World) :
    From w (signOutVerified cfg v) fun _ w' => w.generation k < w'.generation k := by
  refine from_bind_keeps (keeps_revokeToken cfg _ _) fun _ w₁ h₁ => ?_
  rw [hkey]
  refine under_bind.mpr ((from_bumpRefreshGeneration hk w₁).mono fun _ w₂ h₂ => ?_)
  exact lt_of_le_of_lt (h₁.generation_le k) h₂

theorem from_signOutToken (hk : k ≠ []) (hkey : signOutKey cl.userID = k)
    (w : World) : From w (signOutToken cfg (.signed cl)) fun r w' =>
      ∀ cl', r = .ok cl' → w.generation k < w'.generation k := by
  refine under_bind.mpr ((from_verifyToken (.signed cl) w).mono fun r w₁ h₁ => ?_)
  obtain ⟨hclaims, hlater⟩ := h₁
  cases r with
  | error e => exact fun cl' h => by cases h
  | ok v =>
    obtain rfl : cl = v.claims := Token.signed.inj (hclaims v rfl)
    have hout : ∀ w₂, Later w w₂ → From w₂ (signOutVerified cfg v) fun r w' =>
        ∀ cl', r = .ok cl' → w.generation k < w'.generation k := by
      intro w₂ h₂
      refine (from_signOutVerified cfg v hk hkey w₂).mono fun _ w' h _ _ => ?_
      exact lt_of_le_of_lt (h₂.generation_le k) h
    dsimp only
    split
    · refine from_bind_keeps (keeps_checkRefreshGeneration _ _) fun current w₂ h₂ => ?_
      split
      · exact hout w₂ (trans _ _ _ hlater h₂)
      · exact fun cl' h => by cases h
    · exact hout w₁ hlater

theorem from_checkRefreshGeneration (userID : Bytes) (cl : Claims) (w : World) :
    From w (checkRefreshGeneration userID cl) fun current w' =>
      current = decide (w'.generation userID ≤ cl.refreshGeneration) ∧ Later w w' := by
  refine under_bind.mpr ((from_current w userID).mono fun g w₁ h₁ => ?_)
  obtain ⟨rfl, hlater⟩ := h₁
  exact ⟨rfl, hlater⟩

variable {w : World}

theorem from_refreshToken_stale (h : cl.refreshGeneration < w.generation (refreshKey cl.userID)) :
    From w (refreshToken cfg (.signed cl)) fun r _ => ∃ e, r = .error e := by
  refine under_bind.mpr ((from_validateToken cfg (.signed cl) w).mono fun r w₁ h₁ => ?_)
  obtain ⟨hclaims, hlater⟩ := h₁
  split
  · exact ⟨_, rfl⟩
  · exact ⟨_, rfl⟩
  · rename_i v
    obtain rfl : cl = v.claims := Token.signed.inj (hclaims v rfl)
    unfold refreshVerified
    split
    · exact ⟨_, rfl⟩
    · refine under_bind.mpr ((from_checkRefreshGeneration _ _ w₁).mono fun b w₂ h₂ => ?_)
      obtain ⟨rfl, hlater₂⟩ := h₂
      have hle := (trans _ _ _ hlater hlater₂).generation_le (refreshKey v.claims.userID)
      have hstale : ¬w₂.generation (refreshKey v.claims.userID) ≤ v.claims.refreshGeneration := by
        omega
      rw [decide_eq_false hstale]
      exact ⟨_, rfl⟩

/-! A token that is still good. -/

structure Fresh (cl : Claims) (w : World) : Prop where
  notBefore : ∀ t, cl.notBefore = some t → t ≤ w.now
  generation : w.generation (refreshKey cl.userID) ≤ cl.refreshGeneration
  unlisted : ∀ v, w.blacklist.lookup cl.id = some v → v < w.now

structure Undisturbed (cl : Claims) (w w' : World) : Prop where
  now_le : w.now ≤ w'.now
  generation : w'.generation (refreshKey cl.userID) = w.generation (refreshKey cl.userID)
  entry : w'.blacklist.lookup cl.id = w.blacklist.lookup cl.id

/-- An operation that ends before `x`, with random bytes and a user. -/
def Granted (x : Int) (e : Env) (w : World) : Prop :=
  w.now < x ∧ e.entropy ≠ none ∧ ∃ id, e.lookup = .user id

abbrev Amid {α : Type} (cl : Claims) (x : Int) (w : World) (p : Prog Res α)
    (Q : α → World → Prop) : Prop :=
  p.Amid exec (Undisturbed cl) (Granted x) Q w

theorem Fresh.undisturbed {w w' : World} (h : Fresh cl w)
    (hw : Undisturbed cl w w') : Fresh cl w' where
  notBefore := fun t ht => by
    have hle := h.notBefore t ht
    have hnow := hw.now_le
    omega
  generation := by
    rw [hw.generation]
    exact h.generation
  unlisted := fun v hv => by
    rw [hw.entry] at hv
    have hlt := h.unlisted v hv
    have hnow := hw.now_le
    omega

theorem undisturbed_after (cl : Claims) (w : World) (d : Nat) : Undisturbed cl w (w.after d) :=
  ⟨Nat.le_add_right _ _, rfl, rfl⟩

theorem Fresh.drop (h : Fresh cl w) (x : Int) :
    Fresh cl { w with blacklist := Blacklist.drop w.blacklist cl.id x } where
  notBefore := h.notBefore
  generation := h.generation
  unlisted := fun v hv => by
    simp only [Blacklist.drop] at hv
    split at hv
    · exact absurd rfl (FMap.lookup_of_erase hv).1
    · exact h.unlisted v hv

variable {x : Int}

theorem amid_clock (h : Fresh cl w) :
    Amid cl x w clock fun t w' => t = w'.now ∧ t < x ∧ Fresh cl w' := by
  intro w' e hw hgranted
  have hfresh := (h.undisturbed hw).undisturbed (undisturbed_after cl w' e.elapsed)
  exact ⟨rfl, hgranted.1, hfresh⟩

theorem amid_generateJTI : Amid cl x w generateJTI fun r _ => ∃ jti, r = .ok jti := by
  intro w' e _ hgranted
  obtain ⟨b, hb⟩ := Option.ne_none_iff_exists'.mp hgranted.2.1
  have hres : (exec w' e .random).1 = some b := hb
  rw [hres]
  exact ⟨_, rfl⟩

theorem amid_signAccessToken :
    Amid cl x w (signAccessToken cfg id) fun r _ => ∃ tok, r = .ok tok := by
  apply amid_bind.mpr
  intro w₁ e _ _
  refine amid_bind.mpr (amid_generateJTI.mono fun r w₂ h₂ => ?_)
  obtain ⟨-, rfl⟩ := h₂
  exact ⟨_, rfl⟩

theorem Claims.required_eq (hx : cl.expiresAt = some x)
    (hid : cl.id ≠ []) : ∃ v, cl.required = .ok v ∧ v.claims = cl ∧ v.expiry = x := by
  refine ⟨⟨cl, x, hx, hid⟩, ?_, rfl, rfl⟩
  unfold required
  split
  · rename_i hnone
    rw [hx] at hnone
    cases hnone
  · rename_i t ht
    rw [hx, Option.some.injEq] at ht
    subst ht
    rw [dif_neg hid]

theorem amid_verifyToken (hx : cl.expiresAt = some x)
    (hid : cl.id ≠ []) (h : Fresh cl w) : Amid cl x w (verifyToken (.signed cl)) fun r w' =>
      0 < x ∧ Fresh cl w' ∧ ∃ v, r = .ok v ∧ v.claims = cl ∧ v.expiry = x := by
  refine amid_bind.mpr ((amid_clock h).mono fun now w₁ h₁ => ?_)
  obtain ⟨rfl, hlt, hfresh⟩ := h₁
  have hexpired : cl.expiresAt.any (· ≤ (w₁.now : Int)) = false := by
    simp [hx, hlt]
  have hearly : cl.notBefore.any ((w₁.now : Int) < ·) = false := by
    cases hn : cl.notBefore with
    | none => rfl
    | some t =>
      have hle := hfresh.notBefore t hn
      simp [hle]
  simp only [hexpired, hearly, Bool.or_self, Bool.false_eq_true, if_false]
  exact ⟨by omega, hfresh, required_eq hx hid⟩

theorem amid_blacklistHas (h : Fresh cl w) :
    Amid cl x w (blacklistHas cl.id) fun listed w' => listed = false ∧ Fresh cl w' := by
  apply amid_bind.mpr
  intro w₀ e hw _
  have hfresh : Fresh cl (exec w₀ e (.read cl.id)).2 :=
    (h.undisturbed hw).undisturbed (undisturbed_after cl w₀ e.elapsed)
  have hentry : (exec w₀ e (.read cl.id)).1 = (exec w₀ e (.read cl.id)).2.blacklist.lookup cl.id := rfl
  rw [hentry]
  generalize (exec w₀ e (.read cl.id)).2 = w₁ at hfresh
  cases hv : w₁.blacklist.lookup cl.id with
  | none => exact ⟨rfl, hfresh⟩
  | some v =>
    have hpast := hfresh.unlisted v hv
    -- the clock has only gone on since the entry was read
    have hclock : Amid cl x w₁ clock fun t w' => v < t ∧ Fresh cl w' := by
      intro w₂ e₂ hw₂ _
      have hnow := hw₂.now_le
      refine ⟨?_, (hfresh.undisturbed hw₂).undisturbed (undisturbed_after cl w₂ _)⟩
      show v < ((w₂.now + e₂.elapsed : Nat) : Int)
      omega
    refine amid_bind.mpr (hclock.mono fun t w₂ h₂ => ?_)
    rw [if_pos h₂.1]
    intro w₃ e₃ hw₃ _
    have hdropped := (h₂.2.undisturbed hw₃).undisturbed (undisturbed_after cl w₃ e₃.elapsed)
    exact ⟨rfl, hdropped.drop v⟩

theorem amid_validateToken (hx : cl.expiresAt = some x)
    (hid : cl.id ≠ []) (h : Fresh cl w) : Amid cl x w (validateToken cfg (.signed cl)) fun r w' =>
      0 < x ∧ Fresh cl w' ∧ ∃ v, r = .ok v ∧ v.claims = cl ∧ v.expiry = x := by
  refine amid_bind.mpr ((amid_verifyToken hx hid h).mono fun r w₁ h₁ => ?_)
  obtain ⟨hpos, hfresh, v, rfl, rfl, rfl⟩ := h₁
  cases henabled : cfg.blacklistEnabled with
  | false =>
    exact ⟨hpos, hfresh, v, rfl, rfl, rfl⟩
  | true =>
    simp only [henabled, if_true, isBlacklisted]
    refine amid_bind.mpr ((amid_blacklistHas hfresh).mono fun listed w₂ h₂ => ?_)
    obtain ⟨rfl, hfresh₂⟩ := h₂
    refine amid_bind.mpr ((amid_clock hfresh₂).mono fun now w₃ h₃ => ?_)
    obtain ⟨rfl, hlt, hfresh₃⟩ := h₃
    have hnot : ¬v.expiry ≤ (w₃.now : Int) := by omega
    rw [if_neg hnot]
    exact ⟨hpos, hfresh₃, v, rfl, rfl, rfl⟩

theorem amid_checkRefreshGeneration (h : Fresh cl w) :
    Amid cl x w (checkRefreshGeneration (refreshKey cl.userID) cl) fun current w' =>
      current = true ∧ Fresh cl w' := by
  intro w₀ e hw _
  have hfresh : Fresh cl (exec w₀ e (.current (refreshKey cl.userID))).2 :=
    (h.undisturbed hw).undisturbed (undisturbed_after cl w₀ e.elapsed)
  have hcurrent : decide ((exec w₀ e (.current (refreshKey cl.userID))).2.generation
      (refreshKey cl.userID) ≤ cl.refreshGeneration) = true := decide_eq_true hfresh.generation
  exact ⟨hcurrent, hfresh⟩

theorem amid_consumeAndIssue (hpos : 0 < v.expiry) (h : Fresh v.claims w) :
    Amid v.claims v.expiry w (consumeAndIssue cfg v id) fun r _ => ∃ tok, r = .ok tok := by
  cases henabled : cfg.blacklistEnabled with
  | false =>
    simp only [consumeAndIssue, henabled, Bool.false_eq_true, if_false]
    exact amid_signAccessToken cfg id
  | true =>
    have hne : v.expiry ≠ 0 := by omega
    simp only [consumeAndIssue, henabled, if_true, blacklistExpiry, if_pos hne]
    intro w₀ e hw hgranted
    have hfresh := (h.undisturbed hw).undisturbed (undisturbed_after v.claims w₀ e.elapsed)
    -- nothing on the list is in the way, and the expiry is ahead
    have hadded : (exec w₀ e (.add v.claims.id v.expiry)).1 = true := by
      have hlt : ((w₀.after e.elapsed).now : Int) < v.expiry := hgranted.1
      rcases add_cases (w₀.after e.elapsed).blacklist (w₀.after e.elapsed).now
        v.claims.id v.expiry with ⟨hle, -⟩ | ⟨-, u, hu, hle, -⟩ | ⟨-, -, hadd⟩
      · omega
      · have hpast := hfresh.unlisted u hu
        omega
      · show (add _ _ _ _).1 = true
        rw [hadd]
    rw [hadded]
    exact amid_signAccessToken cfg id

theorem amid_decideAndIssue (hpos : 0 < v.expiry) (h : Fresh v.claims w) :
    Amid v.claims v.expiry w (decideAndIssue cfg v id) fun r _ => ∃ tok, r = .ok tok := by
  refine amid_bind.mpr ((amid_checkRefreshGeneration h).mono fun current w₁ h₁ => ?_)
  obtain ⟨rfl, hfresh⟩ := h₁
  refine amid_bind.mpr ((amid_clock hfresh).mono fun now w₂ h₂ => ?_)
  obtain ⟨rfl, hlt, hfresh₂⟩ := h₂
  have hnot : ¬v.expiry ≤ (w₂.now : Int) := by omega
  rw [if_neg hnot]
  exact amid_consumeAndIssue cfg id hpos hfresh₂

theorem amid_refreshVerified (htype : v.claims.tokenType = .refresh)
    (hpos : 0 < v.expiry) (h : Fresh v.claims w) :
    Amid v.claims v.expiry w (refreshVerified cfg v) fun r _ => ∃ tok, r = .ok tok := by
  rw [refreshVerified, if_neg (not_not.mpr htype)]
  refine amid_bind.mpr ((amid_checkRefreshGeneration h).mono fun current w₁ h₁ => ?_)
  obtain ⟨rfl, hfresh⟩ := h₁
  intro w₂ e hw hgranted
  obtain ⟨id, hid⟩ := hgranted.2.2
  have hfound : (exec w₂ e (.findByID v.claims.userID)).1 = .user id := hid
  rw [hfound]
  have hfresh₂ := (hfresh.undisturbed hw).undisturbed (undisturbed_after v.claims w₂ e.elapsed)
  exact amid_decideAndIssue cfg id hpos hfresh₂

theorem amid_refreshToken (hx : cl.expiresAt = some x)
    (hid : cl.id ≠ []) (htype : cl.tokenType = .refresh) (h : Fresh cl w) :
    Amid cl x w (refreshToken cfg (.signed cl)) fun r _ => ∃ tok, r = .ok tok := by
  refine amid_bind.mpr ((amid_validateToken cfg hx hid h).mono fun r w₁ h₁ => ?_)
  obtain ⟨hpos, hfresh, v, rfl, rfl, rfl⟩ := h₁
  exact amid_refreshVerified cfg htype hpos hfresh

end Auth
