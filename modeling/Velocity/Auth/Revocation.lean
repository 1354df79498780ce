import Velocity.Auth.Calls

/-! Revoking a user's refresh tokens. The generation counter is found by a text of the identifier:
the live one's when a token is issued, the caller's when all are revoked, the decoded claim's when a
token is refreshed or signs out. Where the three agree a revocation ends exactly the tokens issued
before it. -/

namespace Auth

open Interleave Generations Prog

/-! The texts of an identifier. -/

/-- The identifiers whose claim reads as they do. -/
def Ident.Spelled : Ident → Prop
  | .str s => (Utf8.chars s).isSome
  | .int n _ => n.natAbs < 10 ^ 6

/-- The identifiers with one counter, and no other, to their name. -/
def Ident.Keyed (id : Ident) : Prop := id.text ≠ [] ∧ id.Spelled

theorem refreshKey_str (s : Bytes) : refreshKey (.str s) = s := by
  unfold refreshKey
  split <;> rfl

theorem signOutKey_claim (id : Ident) : signOutKey id.claim = refreshKey id.claim := by
  have hclaim : id.claim ≠ .null := by cases id <;> simp [Ident.claim]
  unfold signOutKey refreshKey
  by_cases h : id.claim.asString = []
  · rw [if_pos ⟨h, hclaim⟩, if_pos h]
  · rw [if_neg (fun hh => h hh.1), if_neg h]

theorem Ident.spelled_iff (id : Ident) : id.Spelled ↔ refreshKey id.claim = id.text := by
  cases id with
  | str s =>
    rw [Ident.claim, refreshKey_str]
    exact (Utf8.repair_eq_self_iff s).symm
  | int n h => exact (Float64.format_ofInt_iff n).symm

/-! What a run tells of the calls begun in it. -/

variable {w : World} {c : Call}

section Runs

variable {cfg : JWTConfig} {p : Threads} {id : Ident} {cl : Claims} {r : Except Err Token}
  {k : Bytes}

theorem Issued.earlier {u v : World} (h : Issued id w v cl) (hu : Later u w) : Issued id u v cl :=
  { h with generation_ge := le_trans (hu.generation_le _) h.generation_ge }

theorem issued_run (hp : Quiet cfg p) (acts : List (Act Env Call)) {i : Nat}
    {tok : Token} (hi : p.threads.length ≤ i)
    (h : Returned ((system cfg).run p acts) i (.generateRefreshToken id) (.token (.ok tok))) :
    ∃ cl, tok = .signed cl ∧ Issued id p.world ((system cfg).run p acts).world cl := by
  have hrun := later_run hp (Q := fun c r w => c = .generateRefreshToken id →
    ∀ tok, r = .token (.ok tok) → ∃ cl, tok = .signed cl ∧ Issued id p.world w cl) ?_ ?_ acts
  · exact hrun.2 i _ _ hi h rfl tok rfl
  · intro c r w w' hw hQ hc tok htok
    obtain ⟨cl, hcl, hissued⟩ := hQ hc tok htok
    exact ⟨cl, hcl, hissued.later hw⟩
  · intro c w hw
    by_cases hc : c = .generateRefreshToken id
    · subst hc
      refine under_bind.mpr ((from_generateRefreshToken cfg id w).mono fun r w' hr => ?_)
      intro _ tok htok
      obtain ⟨cl, hcl, hissued⟩ := hr tok (by simpa using htok)
      exact ⟨cl, hcl, hissued.earlier hw⟩
    · exact (keeps_body cfg c w).mono fun _ _ _ hc' => absurd hc' hc

/-- All refresh tokens by the identifier's text, or a sign-out with a token that names it. -/
def Revokes (id : Ident) : Call → Result → Prop
  | .revokeAllRefreshTokensForUser userID, .done => userID = id.text
  | .signOutToken (.signed cl), .claims (.ok _) => cl.userID = id.claim
  | _, _ => False

theorem from_revokes (hid : id.Keyed) (c : Call) (w : World) : From w (body cfg c) fun r w' =>
      Revokes id c r → w.generation id.text < w'.generation id.text := by
  obtain ⟨htext, hspelled⟩ := hid
  have hkey := id.spelled_iff.mp hspelled
  cases c with
  | revokeAllRefreshTokensForUser userID =>
    by_cases hu : userID = id.text
    · subst hu
      simp only [body, revokeAllRefreshTokensForUser, if_neg htext]
      refine under_bind.mpr ((from_bumpRefreshGeneration htext w).mono fun _ w' h => ?_)
      exact fun _ => h
    · exact (keeps_body cfg _ w).mono fun r w' _ hr => by
        cases r <;> first | exact absurd hr hu | exact False.elim hr
  | signOutToken token =>
    cases token with
    | unverifiable => exact (keeps_body cfg _ w).mono fun r w' _ => False.elim
    | signed cl =>
      by_cases hcl : cl.userID = id.claim
      · have hout : signOutKey cl.userID = id.text := by rw [hcl, signOutKey_claim, hkey]
        refine under_bind.mpr ((from_signOutToken cfg htext hout w).mono fun r w' h => ?_)
        intro hr
        cases r with
        | error e => exact False.elim hr
        | ok cl' => exact h cl' rfl
      · exact (keeps_body cfg _ w).mono fun r w' _ hr => by
          cases r with
          | claims r => cases r <;> first | exact absurd hr hcl | exact False.elim hr
          | _ => exact False.elim hr
  | _ => exact (keeps_body cfg _ w).mono fun r w' _ => False.elim

theorem revoked_run (hp : Quiet cfg p) (hid : id.Keyed)
    (acts : List (Act Env Call)) {j : Nat} {r : Result} (hj : p.threads.length ≤ j)
    (h : Returned ((system cfg).run p acts) j c r) (hrev : Revokes id c r) :
    p.world.generation id.text < ((system cfg).run p acts).world.generation id.text := by
  have hrun := later_run hp (Q := fun c r w => Revokes id c r →
    p.world.generation id.text < w.generation id.text) ?_ ?_ acts
  · exact hrun.2 j c r hj h hrev
  · intro c r w w' hw hQ hr
    exact lt_of_lt_of_le (hQ hr) (hw.generation_le _)
  · intro c w hw
    refine (from_revokes hid c w).mono fun r w' hr hrev => ?_
    exact lt_of_le_of_lt (hw.generation_le _) (hr hrev)

theorem refused_run (hp : Quiet cfg p) {token : Token} (hrefused : ∀ w, Later p.world w →
      From w (refreshToken cfg token) fun r _ => ∃ e, r = .error e)
    (acts : List (Act Env Call)) {k : Nat} (hk : p.threads.length ≤ k)
    (h : Returned ((system cfg).run p acts) k (.refreshToken token) (.token r)) :
    ∃ e, r = .error e := by
  have hrun := later_run hp (Q := fun c r _ => c = .refreshToken token →
    ∀ r', r = .token r' → ∃ e, r' = .error e) ?_ ?_ acts
  · exact hrun.2 k _ _ hk h rfl r rfl
  · exact fun c r w w' _ hQ => hQ
  · intro c w hw
    by_cases hc : c = .refreshToken token
    · subst hc
      refine under_bind.mpr ((hrefused w hw).mono fun r w' hr => ?_)
      intro _ r' hr'
      obtain rfl : r = r' := by simpa using hr'
      exact hr
    · exact (keeps_body cfg c w).mono fun _ _ _ hc' => absurd hc' hc

theorem stale_run (hp : Quiet cfg p)
    (hstale : cl.refreshGeneration < p.world.generation (refreshKey cl.userID))
    (acts : List (Act Env Call)) {k : Nat} (hk : p.threads.length ≤ k)
    (h : Returned ((system cfg).run p acts) k (.refreshToken (.signed cl)) (.token r)) :
    ∃ e, r = .error e := by
  refine refused_run hp (fun w hw => ?_) acts hk h
  exact from_refreshToken_stale cfg (lt_of_lt_of_le hstale (hw.generation_le _))

theorem generation_exec {o : Op} (ho : o ≠ .bump k) (w : World) (e : Env) :
    (exec w e o).2.generation k = w.generation k := by
  cases o with
  | bump userID =>
    have hk : ¬(k = userID ∧ userID ≠ []) := fun h => ho (by rw [h.1])
    have hbump := current_bump w.generations userID k
    rw [if_neg hk] at hbump
    exact hbump
  | _ => rfl

theorem generation_unbumped (acts : List (Act Env Call))
    (h : ∀ ev ∈ ((system cfg).run p acts).log.drop p.log.length, ev.op ≠ .bump k) :
    ((system cfg).run p acts).world.generation k = p.world.generation k := by
  have hrun := (system cfg).invariant_world (p := p) (I := fun w l => p.log.length ≤ l.length ∧
    ((∀ ev ∈ l.drop p.log.length, ev.op ≠ .bump k) → w.generation k = p.world.generation k))
    ?_ ?_ acts
  · exact hrun.2 h
  · exact ⟨le_refl _, fun _ => rfl⟩
  · intro w l i e o hI
    refine ⟨by simp only [List.length_append]; omega, fun hno => ?_⟩
    rw [List.drop_append_of_le_length hI.1] at hno
    have hop : o ≠ .bump k := hno ⟨i, _, ((system cfg).exec w e o).1⟩ (by simp)
    have hsame := hI.2 fun ev hev => hno ev (by simp [hev])
    rw [← hsame]
    exact generation_exec hop w e

end Runs

/-- A revocation begun after `tok` was issued ends every refresh with it. -/
def RefusesEarlier (cfg : JWTConfig) (w : World) (id : Ident) : Prop :=
  ∀ (acts₀ acts₁ acts₂ : List (Act Env Call)) (i j k : Nat) (tok : Token) (c : Call) (r : Result)
    (r' : Except Err Token),
    let p₀ := (system cfg).run (Pool.start w) acts₀
    let p₁ := (system cfg).run p₀ acts₁
    let p₂ := (system cfg).run p₁ acts₂
    Returned p₀ i (.generateRefreshToken id) (.token (.ok tok)) →
    p₀.threads.length ≤ j → Returned p₁ j c r → Revokes id c r →
    p₁.threads.length ≤ k → Returned p₂ k (.refreshToken tok) (.token r') → ∃ e, r' = .error e

/-- A later token is good until it expires, is used or revoked again. -/
def AcceptsLater (cfg : JWTConfig) (w : World) (id : Ident) : Prop :=
  ∀ (acts₀ acts₁ : List (Act Env Call)) (i : Nat) (cl : Claims) (x : Int),
    let p₀ := (system cfg).run (Pool.start w) acts₀
    let p₁ := (system cfg).run p₀ acts₁
    p₀.threads.length ≤ i →
    Returned p₁ i (.generateRefreshToken id) (.token (.ok (.signed cl))) →
    cl.expiresAt = some x →
    (∀ ev ∈ p₁.log.drop p₀.log.length, ev.op ≠ .bump id.text) →
    (∀ v, p₁.world.blacklist.lookup cl.id = some v → v < p₁.world.now) →
    Amid cl x p₁.world (refreshToken cfg (.signed cl)) fun r _ => ∃ tok, r = .ok tok

variable {id : Ident}

theorem refusesEarlier_of_keyed (hid : id.Keyed) (cfg : JWTConfig) (w : World) :
    RefusesEarlier cfg w id := by
  intro acts₀ acts₁ acts₂ i j k tok c r r' p₀ p₁ p₂ hissue hj hrevoke hrev hk hrefresh
  have hq₀ : Quiet cfg p₀ := quiet_run (quiet_start cfg w) acts₀
  have hq₁ : Quiet cfg p₁ := quiet_run hq₀ acts₁
  obtain ⟨cl, rfl, hissued⟩ := issued_run (quiet_start cfg w) acts₀ (Nat.zero_le i) hissue
  have hbumped := revoked_run hq₀ hid acts₁ hj hrevoke hrev
  refine stale_run hq₁ ?_ acts₂ hk hrefresh
  rw [hissued.userID, id.spelled_iff.mp hid.2]
  exact lt_of_le_of_lt hissued.generation_le hbumped

theorem acceptsLater_of_keyed (hid : id.Keyed) (cfg : JWTConfig) (w : World) :
    AcceptsLater cfg w id := by
  intro acts₀ acts₁ i cl x p₀ p₁ hi hissue hx hunbumped hunlisted
  have hq₀ : Quiet cfg p₀ := quiet_run (quiet_start cfg w) acts₀
  obtain ⟨cl', hcl, hissued⟩ := issued_run hq₀ acts₁ hi hissue
  obtain rfl : cl = cl' := by simpa using hcl
  have hsame := generation_unbumped acts₁ hunbumped
  refine amid_refreshToken cfg hx hissued.id_ne hissued.tokenType ⟨hissued.notBefore, ?_, hunlisted⟩
  rw [hissued.userID, id.spelled_iff.mp hid.2, hsame]
  exact hissued.generation_ge

/-! A token is issued, all the user's tokens are revoked, and the token is refreshed. -/

def defaults : JWTConfig := { blacklistEnabled := true, ttl := 60, refreshTTL := 20160 }

def World.empty : World := ⟨0, ∅, ∅⟩

def prompt (id : Ident) : Env := ⟨0, some ⟨List.replicate 16 0, rfl⟩, .user id⟩

def firstClaims (id : Ident) : Claims where
  id := Base64.encode Base64.url (List.replicate 16 0)
  userID := id.claim
  tokenType := .refresh
  refreshGeneration := World.empty.generation id.text
  expiresAt := some (numericDate (0 + defaults.refreshTTL * minute))
  notBefore := some (numericDate 0)

theorem eval_issue (id : Ident) :
    (body defaults (.generateRefreshToken id)).eval exec (prompt id) .empty =
      (.token (.ok (.signed (firstClaims id))), .empty) := rfl

theorem eval_revokeAll (hkey : id.text = [] ∨ refreshKey id.claim ≠ id.text) :
    ∃ w, (body defaults (.revokeAllRefreshTokensForUser id.text)).eval exec (prompt id) .empty =
      (.done, w) ∧ w.now = 0 ∧ (id.text ≠ [] → World.empty.generation id.text < w.generation id.text) ∧
        Fresh (firstClaims id) w := by
  have hempty : Fresh (firstClaims id) .empty := by
    refine ⟨fun t ht => ?_, ?_, nofun⟩
    · obtain rfl : numericDate 0 = t := by simpa [firstClaims] using ht
      decide
    · simp [World.generation, current, World.empty, firstClaims]
  simp only [body, revokeAllRefreshTokensForUser, bumpRefreshGeneration]
  by_cases htext : id.text = []
  · rw [if_pos htext]
    exact ⟨.empty, rfl, rfl, absurd htext, hempty⟩
  · rw [if_neg htext, if_neg htext]
    refine ⟨_, rfl, rfl, fun _ => ?_, hempty.notBefore, ?_, hempty.unlisted⟩
    · have hbump := current_bump World.empty.generations id.text id.text
      rw [if_pos ⟨rfl, htext⟩] at hbump
      exact lt_of_lt_of_eq (Int.lt_succ _) hbump.symm
    · -- the counter that was bumped is not the one a refresh will ask for
      have hother : Op.bump id.text ≠ .bump (refreshKey id.claim) := by
        rcases hkey with hkey | hkey
        · exact absurd hkey htext
        · simpa using Ne.symm hkey
      exact le_of_eq_of_le (generation_exec hother .empty (prompt id)) hempty.generation

theorem eval_refresh (hnow : w.now = 0) (h : Fresh (firstClaims id) w) :
    ∃ tok w', (body defaults (.refreshToken (.signed (firstClaims id)))).eval exec (prompt id) w =
      (.token (.ok tok), w') := by
  have hid : (firstClaims id).id ≠ [] := by
    intro hnil
    have hb := Base64.encode_eq_nil hnil
    cases hb
  have hgranted : Amid (firstClaims id) (numericDate (0 + defaults.refreshTTL * minute)) w
      (refreshToken defaults (.signed (firstClaims id))) fun r _ => ∃ tok, r = .ok tok :=
    amid_refreshToken defaults rfl hid rfl h
  have hstep : ∀ w o, w.now = 0 → (exec w (prompt id) o).2.now = 0 ∧
      Granted (numericDate (0 + defaults.refreshTTL * minute)) (prompt id)
        (exec w (prompt id) o).2 := by
    intro w o hw
    have hnow' : (exec w (prompt id) o).2.now = 0 := by
      cases o <;> exact hw
    refine ⟨hnow', ?_, by simp [prompt], id, rfl⟩
    rw [hnow']
    decide
  have hrefl : ∀ w, Undisturbed (firstClaims id) w w := fun _ => ⟨le_refl _, rfl, rfl⟩
  obtain ⟨tok, htok⟩ := hgranted.eval hrefl hstep hnow
  refine ⟨tok, ?_⟩
  rw [body, eval_bind, htok]
  exact ⟨_, rfl⟩

theorem made_alone {cfg : JWTConfig} {p : Threads} {e : Env} {r : Result}
    (h : (body cfg c).eval exec e p.world = (r, w)) : ∃ acts, ((system cfg).run p acts).world = w ∧
      Returned ((system cfg).run p acts) p.threads.length c r := by
  obtain ⟨acts, hworld, hthreads⟩ := (system cfg).call_alone p c e
  have heval : (((system cfg).body c).eval (system cfg).exec e p.world) = (r, w) := h
  rw [heval] at hworld hthreads
  refine ⟨acts, hworld, ?_⟩
  rw [Returned, hthreads]
  simp

theorem refreshed_after_revocation (hkey : id.text = [] ∨ refreshKey id.claim ≠ id.text) :
    ∃ (acts₀ acts₁ acts₂ : List (Act Env Call)) (tok : Token),
      let p₀ := (system defaults).run (Pool.start .empty) acts₀
      let p₁ := (system defaults).run p₀ acts₁
      let p₂ := (system defaults).run p₁ acts₂
      Returned p₀ 0 (.generateRefreshToken id) (.token (.ok (.signed (firstClaims id)))) ∧
      Returned p₁ p₀.threads.length (.revokeAllRefreshTokensForUser id.text) .done ∧
      (id.text ≠ [] → p₀.world.generation id.text < p₁.world.generation id.text) ∧
      Returned p₂ p₁.threads.length (.refreshToken (.signed (firstClaims id)))
        (.token (.ok tok)) := by
  obtain ⟨w₁, hrevoke, hnow, hbumped, hfresh⟩ := eval_revokeAll hkey
  obtain ⟨tok, w₂, hrefresh⟩ := eval_refresh hnow hfresh
  obtain ⟨acts₀, hw₀, hr₀⟩ := made_alone (p := Pool.start .empty) (eval_issue id)
  rw [← hw₀] at hrevoke hbumped
  obtain ⟨acts₁, hw₁, hr₁⟩ := made_alone hrevoke
  rw [← hw₁] at hrefresh hbumped
  obtain ⟨acts₂, -, hr₂⟩ := made_alone hrefresh
  exact ⟨acts₀, acts₁, acts₂, tok, hr₀, hr₁, hbumped, hr₂⟩

theorem keyed_of_refusesEarlier (h : RefusesEarlier defaults .empty id) : id.Keyed := by
  by_contra hid
  have hkey : id.text = [] ∨ refreshKey id.claim ≠ id.text := by
    by_contra hno
    rw [not_or] at hno
    exact hid ⟨hno.1, id.spelled_iff.mpr (not_not.mp hno.2)⟩
  obtain ⟨acts₀, acts₁, acts₂, tok, hr₀, hr₁, -, hr₂⟩ := refreshed_after_revocation hkey
  obtain ⟨e, he⟩ := h acts₀ acts₁ acts₂ _ _ _ _ _ _ _ hr₀ (le_refl _) hr₁ rfl (le_refl _) hr₂
  cases he

end Auth
