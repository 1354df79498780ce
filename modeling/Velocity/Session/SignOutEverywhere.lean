import Velocity.Session.RecordUpdates

/-! Signing a user out everywhere. A record carries the token that its `Put` read, and a call gives
a record out only after it read that token as the user's current one. No token is written twice, so
one that a sign-out replaces does not come back. -/

namespace Session

open Interleave List Prog Backend Monitor List.Subset Expiry EachAfter Pool CacheStore

variable {D : Type} {b : Backend D} {ev : Entry D} {j : Nat}

variable (D) in
abbrev Trail := List (Sigma (Res (D := D)))

def Did (hist : Trail D) (o : Op D) (r : Res o) : Prop :=
  (⟨o, r⟩ : Sigma (Res (D := D))) ∈ hist

def Vetted (hist : Trail D) (raw : Raw D) : Prop :=
  raw.decodeRecord.userID = [] ∨ ∃ t, raw.decodeRecord.generation = some t ∧
    Did hist (.getGen raw.decodeRecord.userID) (some t)

def Call.vets (c : Call D) (hist : Trail D) : (o : Op D) → Res o → Prop
  | .addGen _ t, _ => ∃ h, hist = h ++ [⟨.random, some t⟩]
  | .setGen _ t, _ => ∃ h, hist = h ++ [⟨.random, some t⟩]
  | .getGen userID, _ => ∀ s, c = .put s → userID = s.userID ∧ userID ≠ [] ∧
    ∀ v t, ¬Did hist (.getGen v) (some t)
  | .putMeta _ raw _, _ => ∃ s, c = .put s ∧ raw.decodeRecord.userID = Utf8.repair s.userID ∧
    (s.userID ≠ [] → ∃ t, raw.decodeRecord.generation = some t ∧ Did hist (.getGen s.userID) (some t))
  | .swapMeta _ expected raw _, _ => Vetted hist expected ∧
    raw.decodeRecord.userID = expected.decodeRecord.userID ∧
    raw.decodeRecord.generation = expected.decodeRecord.generation
  | .dropMeta .deletion _ expected, _ => Vetted hist expected
  | _, _ => True

def vetting (c : Call D) : Monitor (Res (D := D)) := Monitor.trail c.vets

def Call.vouches (hist : Trail D) : Call D → Reply D → Prop
  | .get id, .session (.ok s) => ∃ raw, Did hist (.getMeta id) (some raw) ∧
    Vetted hist raw ∧ raw.decodeRecord.toStored = s
  | .listForUser _, .listing (.ok out) => ∀ m ∈ out, ∃ id raw,
    Did hist (.getMeta id) (some raw) ∧ Vetted hist raw ∧ raw.decodeRecord.toStored.toMeta = m
  | .deleteAllForUser userID, .written (.ok ()) =>
    userID ≠ [] → ∃ t, Did hist (.setGen userID t) ()
  | .touch id _ _, .written (.ok ()) =>
    ∃ expected raw ttl, Did hist (.swapMeta id expected raw ttl) true
  | .updateData id _ _ _, .written (.ok ()) =>
    ∃ expected raw ttl, Did hist (.swapMeta id expected raw ttl) true
  | .deleteIf id _, .removed (.ok true) => ∃ expected, Did hist (.dropMeta .deletion id expected) true
  | _, _ => True

theorem Vetted.mono {hist hist' : Trail D} {raw : Raw D} (h : Vetted hist raw)
    (hsub : hist ⊆ hist') : Vetted hist' raw := by
  rcases h with h | ⟨t, ht, hmem⟩
  · exact .inl h
  · exact .inr ⟨t, ht, hsub hmem⟩

variable {c : Call D}

theorem upkeep_vets (hc : ∀ s, c ≠ .put s) (o : Op D) (h : Upkeep o)
    (hist : Trail D) (r : Res o) : c.vets hist o r := by
  cases o with
  | getGen userID => exact fun s hs => absurd hs (hc s)
  | dropMeta cause k expected =>
    cases cause with
    | deletion => exact h.elim
    | eviction => trivial
    | signOut => trivial
  | clock => trivial
  | getMeta k => trivial
  | addIndex userID ttl k => trivial
  | removeIndex userID ids => trivial
  | members userID => trivial
  | _ => exact h.elim

theorem upkeep_vetting {α : Type} {p : CacheProg D α} (h : p.All Upkeep)
    (hc : ∀ s, c ≠ .put s) (hist : Trail D) : p.wp (vetting c) hist fun _ _ => True :=
  trail_wp (h.mono (upkeep_vets hc)) hist

/-- What is known when `liveRaw` has returned. -/
abbrev Seen (id : Bytes) (hist : Trail D) (r : Except StoreErr (Raw D)) (hist' : Trail D) : Prop :=
  hist ⊆ hist' ∧ ∀ raw, r = .ok raw → Did hist' (.getMeta id) (some raw) ∧ Vetted hist' raw

theorem liveRaw_vetting (id : Bytes) (hc : ∀ s, c ≠ .put s) (hist : Trail D) :
    (liveRaw id).wp (vetting c) hist (Seen id hist) := by
  apply trail_grows
  apply wp_perform_bind
  intro found _
  refine ⟨trivial, ?_⟩
  cases found with
  | none => exact nofun
  | some raw =>
    refine trail_bind (upkeep_vetting (isPast_upkeep raw.decodeRecord) hc _) ?_
    intro past hist' hsub _
    have hmem : Did hist' (.getMeta id) (some raw) :=
      hsub mem_concat_self
    split
    · exact trail_bind (upkeep_vetting (evict_upkeep raw) hc _) nofun
    · split
      case isTrue huser =>
        rintro _ ⟨rfl⟩
        exact ⟨hmem, .inl huser⟩
      case isFalse huser =>
        split
        · exact trail_bind (upkeep_vetting (evict_upkeep raw) hc _) nofun
        case h_2 gen hgen =>
          apply wp_perform_bind
          intro current _
          refine ⟨fun s hs => absurd hs (hc s), ?_⟩
          split
          case isTrue hcurrent =>
            rintro _ ⟨rfl⟩
            refine ⟨mem_append_left _ hmem, .inr ⟨gen, hgen, ?_⟩⟩
            rw [← hcurrent]
            exact mem_concat_self
          case isFalse => exact trail_bind (upkeep_vetting (evict_upkeep raw) hc _) nofun

theorem did_last (hist : Trail D) (o : Op D) (r : Res o) : Did (hist ++ [⟨o, r⟩]) o r :=
  mem_concat_self

theorem get_vetting (id : Bytes) :
    (perform (Call.get (D := D) id)).wp (vetting (.get id)) [] fun r hist =>
      (Call.get id).vouches hist r := by
  have hc : ∀ s : StoredSession D, Call.get id ≠ .put s := nofun
  refine wp_bind_of (P := fun r (hist : Trail D) => (Call.get id).vouches hist (.session r)) ?_ ?_
  · unfold CacheStore.get
    split
    · trivial
    · refine wp_bind_of (liveRaw_vetting id hc []) ?_
      intro r (hist : Trail D) hlive
      cases r with
      | error e => trivial
      | ok raw =>
        obtain ⟨hseen, hvetted⟩ := hlive.2 raw rfl
        exact ⟨raw, hseen, hvetted, rfl⟩
  · intro r hist h
    exact h

section

variable (hc : ∀ s, c ≠ .put s) (id : Bytes) (lastSeen expiresAt : Int) (update : D → Option D)
  (hist : Trail D)

include hc id lastSeen expiresAt update hist

theorem slideOnce_vetting :
    (slideOnce id lastSeen expiresAt update).wp (vetting c) hist fun r hist' =>
      ∀ w ttl, r = .ok (w, ttl, true) →
        ∃ expected raw, Did hist' (.swapMeta id expected raw ttl) true := by
  refine wp_bind_of (liveRaw_vetting id hc hist) ?_
  intro live (hist' : Trail D) hlive
  cases live with
  | error e => exact nofun
  | ok raw =>
    have hvetted := (hlive.2 raw rfl).2
    simp only
    cases update raw.decodeRecord.data with
    | none => exact nofun
    | some data =>
      simp only
      cases hencode : encodeRecord (raw.decodeRecord.slid data lastSeen expiresAt) with
      | none => exact nofun
      | some encoded =>
        intro now _
        refine ⟨trivial, ?_⟩
        intro swapped _
        have hslid : encoded.decodeRecord = raw.decodeRecord.slid data lastSeen expiresAt := by
          rw [encodeRecord_eq_some hencode, slid_reread]
        refine ⟨⟨hvetted.mono (subset_append_left _ _), ?_, ?_⟩, ?_⟩
        · rw [hslid]
          rfl
        · rw [hslid]
          rfl
        · rintro _ _ ⟨rfl, rfl, rfl⟩
          exact ⟨raw, encoded, did_last _ _ _⟩

theorem slide_vetting :
    (slide id lastSeen expiresAt update).wp (vetting c) hist fun r hist' => r = .ok () →
      ∃ expected raw ttl, Did hist' (.swapMeta id expected raw ttl) true := by
  unfold slide
  split
  · exact nofun
  · generalize recordWriteAttempts = n
    induction n generalizing hist with
    | zero => exact nofun
    | succ n ih =>
      refine wp_bind_of (slideOnce_vetting hc id lastSeen expiresAt update hist) ?_
      intro r (hist' : Trail D) hr
      match r, hr with
      | .error e, _ => exact nofun
      | .ok (w, ttl, true), hr =>
        obtain ⟨expected, raw, hdid⟩ := hr w ttl rfl
        refine trail_bind (upkeep_vetting (extendIndex_upkeep w ttl) hc hist') ?_
        intro _ _ hsub _ _
        exact ⟨expected, raw, ttl, hsub hdid⟩
      | .ok (w, ttl, false), _ => exact ih hist'

end

section

variable (hc : ∀ s, c ≠ .put s) (id : Bytes) (hist : Trail D)

include hc

theorem deleteIf_vetting (cond : SessionMeta → Bool) :
    (deleteIf id cond).wp (vetting c) hist fun r hist' =>
      r = .ok true → ∃ expected, Did hist' (.dropMeta .deletion id expected) true := by
  unfold deleteIf
  split
  · exact nofun
  · generalize recordWriteAttempts = n
    induction n generalizing hist with
    | zero => exact nofun
    | succ n ih =>
      refine wp_bind_of (liveRaw_vetting id hc hist) ?_
      intro live (hist' : Trail D) hlive
      cases live with
      | error e =>
        intro h
        split at h <;> cases h
      | ok raw =>
        have hvetted := (hlive.2 raw rfl).2
        show (if cond raw.decodeRecord.toStored.toMeta then _ else _ :
          Prog (Res) _).wp _ _ _
        split
        · apply wp_perform_bind
          intro deleted _
          refine ⟨hvetted, ?_⟩
          cases deleted with
          | false => exact ih _
          | true =>
            refine trail_bind (upkeep_vetting (unlink_upkeep _ _) hc _) ?_
            intro _ _ hsub _ _
            exact ⟨raw, hsub (did_last _ _ _)⟩
        · exact nofun

theorem delete_vetting : (delete id).wp (vetting c) hist fun _ _ => True := by
  unfold delete
  split
  · trivial
  · intro found _
    refine ⟨trivial, ?_⟩
    apply wp_perform_bind
    intro _ _
    refine ⟨trivial, ?_⟩
    refine wp_bind_of (upkeep_vetting (unlink_upkeep _ _) hc _) ?_
    intro _ _ _
    trivial

end

variable (userID : Bytes)

theorem deleteAllForUser_vetting :
    (deleteAllForUser userID).wp (vetting (Call.deleteAllForUser (D := D) userID)) []
      fun r hist => (Call.deleteAllForUser userID).vouches hist (.written r) := by
  have hc : ∀ s : StoredSession D, Call.deleteAllForUser userID ≠ .put s := nofun
  unfold deleteAllForUser
  split
  case isTrue huser => exact absurd huser
  case isFalse =>
    intro token _
    refine ⟨trivial, ?_⟩
    cases token with
    | none => trivial
    | some t =>
      intro _ _
      refine ⟨⟨[], rfl⟩, ?_⟩
      apply wp_perform_bind
      intro ids _
      refine ⟨trivial, ?_⟩
      refine trail_bind (upkeep_vetting (signOutEach_upkeep userID ids) hc _) ?_
      intro gone hist hsub _
      refine trail_bind (upkeep_vetting (unlink_upkeep userID gone) hc hist) ?_
      intro _ _ hsub' _ _
      refine ⟨t, hsub' (hsub ?_)⟩
      exact mem_append_left _ (did_last _ _ _)

theorem listEach_vetting (hc : ∀ s, c ≠ .put s) (ids : List Bytes) (hist : Trail D) :
    (listEach userID ids).wp (vetting c) hist fun r hist' => ∀ out stale, r = .ok (out, stale) →
      ∀ m ∈ out, ∃ id raw, Did hist' (.getMeta id) (some raw) ∧ Vetted hist' raw ∧
        raw.decodeRecord.toStored.toMeta = m := by
  induction ids generalizing hist with
  | nil =>
    rintro out stale ⟨rfl, rfl⟩ m hm
    cases hm
  | cons id ids ih =>
    refine wp_bind_of (liveRaw_vetting id hc hist) ?_
    rintro live hist' ⟨-, hok⟩
    cases live with
    | error e =>
      show (if e.refusal = true then _ else _ : Prog (Res) _).wp _ _ _
      split
      · refine wp_bind_of (ih hist') ?_
        intro rest _ hlisted
        cases rest with
        | error e => exact nofun
        | ok rest =>
          rintro out stale ⟨rfl, rfl⟩
          exact hlisted rest.1 rest.2 rfl
      · exact nofun
    | ok raw =>
      obtain ⟨hseen, hvetted⟩ := hok raw rfl
      refine trail_bind (ih hist') ?_
      intro rest _ hsub hlisted
      cases rest with
      | error e => exact nofun
      | ok rest =>
        show (if raw.decodeRecord.userID ≠ userID then _ else _ : Prog (Res) _).wp _ _ _
        split
        · rintro out stale ⟨rfl, rfl⟩
          exact hlisted rest.1 rest.2 rfl
        · rintro out stale ⟨rfl, rfl⟩ m hm
          rcases mem_cons.mp hm with rfl | hm
          · exact ⟨id, raw, hsub hseen, hvetted.mono hsub, rfl⟩
          · exact hlisted rest.1 rest.2 rfl m hm

theorem listForUser_vetting :
    (listForUser userID).wp (vetting (Call.listForUser (D := D) userID)) []
      fun r hist => (Call.listForUser userID).vouches hist (.listing r) := by
  have hc : ∀ s : StoredSession D, Call.listForUser userID ≠ .put s := nofun
  unfold listForUser
  split
  · exact nofun
  · apply wp_perform_bind
    intro ids _
    refine ⟨trivial, ?_⟩
    split
    · exact nofun
    · refine wp_bind_of (listEach_vetting userID hc ids _) ?_
      intro r (hist : Trail D) hr
      cases r with
      | error e => trivial
      | ok listed =>
        refine trail_bind (upkeep_vetting (unlink_upkeep userID listed.2) hc hist) ?_
        intro _ _ hsub _ m hm
        obtain ⟨id, raw, hseen, hvetted, hmeta⟩ := hr listed.1 listed.2 rfl m hm
        exact ⟨id, raw, hsub hseen, hvetted.mono hsub, hmeta⟩

theorem stamp_vetting (s : StoredSession D) :
    (stamp s.userID).wp (vetting (.put s)) [] fun r hist => ∀ gen, r = .ok gen → s.userID ≠ [] →
      ∃ t, gen = some t ∧ Did hist (.getGen s.userID) (some t) := by
  unfold stamp
  split
  case isTrue huser => exact fun gen _ => absurd huser
  case isFalse huser =>
    refine wp_bind_of (P := fun r (hist : Trail D) => ∀ t, r = .ok t →
      Did hist (.getGen s.userID) (some t)) ?_ ?_
    · intro gen _
      refine ⟨fun _ hs => ?_, ?_⟩
      · obtain rfl : s = _ := by simpa using hs
        exact ⟨rfl, huser, nofun⟩
      · cases gen with
        | some gen =>
          rintro _ ⟨rfl⟩
          exact did_last _ _ _
        | none =>
          intro token _
          refine ⟨trivial, ?_⟩
          cases token with
          | none => exact nofun
          | some candidate =>
            intro added _
            refine ⟨⟨_, rfl⟩, ?_⟩
            intro gen _
            refine ⟨fun _ hs => ?_, ?_⟩
            · obtain rfl : s = _ := by simpa using hs
              refine ⟨rfl, huser, ?_⟩
              -- The first read of the token gave nothing, and the other operations read none.
              intro v t h
              have h' : (⟨.getGen v, some t⟩ : Sigma (Res)) ∈
                  [⟨.getGen s.userID, none⟩, ⟨.random, some candidate⟩,
                    ⟨.addGen s.userID candidate, added⟩] := h
              simp at h'
            · cases gen with
              | none => exact nofun
              | some gen =>
                rintro _ ⟨rfl⟩
                exact did_last _ _ _
    · intro r (hist : Trail D) hr
      cases r with
      | error e => exact nofun
      | ok t =>
        rintro _ ⟨rfl⟩ _
        exact ⟨t, rfl, hr t rfl⟩

theorem put_vetting (s : StoredSession D) : (put s).wp (vetting (.put s)) [] fun _ _ => True := by
  unfold put
  split
  · trivial
  · refine wp_bind_of (stamp_vetting s) ?_
    intro r (hist : Trail D) hgen
    cases r with
    | error e => trivial
    | ok gen =>
      apply wp_perform_bind
      intro now _
      refine ⟨trivial, ?_⟩
      have hunbind : (unbind (recordAt s gen now).id (recordAt s gen now).userID).All
          fun o => ∀ (hist : Trail D) r, (Call.put s).vets hist o r := by
        refine ⟨fun _ _ => trivial, ?_⟩
        intro found
        cases found with
        | none => trivial
        | some raw => exact Prog.All.when fun _ => ⟨fun _ _ => trivial, fun _ => trivial⟩
      refine trail_bind (trail_wp hunbind _) ?_
      intro _ hist' hsub _
      cases hencode : encodeRecord (recordAt s gen now) with
      | none => trivial
      | some raw =>
        apply wp_perform_bind
        intro _ _
        have hraw := encodeRecord_eq_some hencode
        refine ⟨⟨s, rfl, ?_, ?_⟩, ?_⟩
        · rw [hraw]
          rfl
        · intro huser
          obtain ⟨t, rfl, hdid⟩ := hgen gen rfl huser
          refine ⟨t, ?_, hsub (mem_append_left _ hdid)⟩
          rw [hraw]
          rfl
        · have hextend : (extendIndex (recordAt s gen now) (recordTTL (recordAt s gen now).expiresAt
              now)).All fun o => ∀ (hist : Trail D) r, (Call.put s).vets hist o r := by
            unfold extendIndex
            split
            · trivial
            · exact ⟨fun _ _ => trivial, fun _ => trivial⟩
          refine wp_bind_of (trail_wp hextend _) ?_
          intro _ _ _
          trivial

theorem perform_vetting (c : Call D) :
    (perform c).wp (vetting c) [] fun r hist => c.vouches hist r := by
  cases c with
  | get id => exact get_vetting id
  | put s => exact wp_bind_of (put_vetting s) fun r _ _ => by cases r <;> trivial
  | touch id lastSeen expiresAt | updateData id update lastSeen expiresAt =>
    refine wp_bind_of (slide_vetting (fun s h => by cases h) id lastSeen expiresAt _ []) ?_
    intro r _ h
    cases r with
    | error e => trivial
    | ok u => exact h rfl
  | deleteIf id cond =>
    refine wp_bind_of (deleteIf_vetting (fun s h => by cases h) id [] cond) ?_
    intro r _ h
    match r, h with
    | .error e, _ => trivial
    | .ok true, h => exact h rfl
    | .ok false, _ => trivial
  | delete id =>
    refine wp_bind_of (delete_vetting (fun s h => by cases h) id []) ?_
    intro r _ _
    trivial
  | deleteAllForUser userID =>
    refine wp_bind_of (deleteAllForUser_vetting userID) ?_
    intro r _ h
    exact h
  | listForUser userID =>
    refine wp_bind_of (listForUser_vetting userID) ?_
    intro r _ h
    exact h

/-! Tokens. -/

def drew : Entry D → Option Token
  | ⟨_, .random, token⟩ => token
  | _ => none

def wrote (userID : Bytes) : Entry D → Option Token
  | ⟨_, .addGen v t, true⟩ => if v = userID then some t else none
  | ⟨_, .setGen v t, _⟩ => if v = userID then some t else none
  | _ => none

def currentToken (userID : Bytes) (l : List (Entry D)) : Option Token :=
  (l.filterMap (wrote userID)).getLast?

def Dealt (pre : List (Entry D)) : Entry D → Prop
  | ⟨_, .random, some t⟩ => ∀ x ∈ pre, drew x ≠ some t
  | ⟨_, .getGen userID, r⟩ => r = currentToken userID pre
  | _ => True

theorem currentToken_concat (l : List (Entry D)) (ev : Entry D) : currentToken userID (l ++ [ev]) =
      (wrote userID ev).elim (currentToken userID l) some := by
  unfold currentToken
  cases h : wrote userID ev with
  | none => simp [h]
  | some t => simp [h]

/-- The cache holds the tokens that were drawn and those that are current. -/
structure Tokens (b : Backend D) (l : List (Entry D)) : Prop where
  drawn : ∀ t, t ∈ b.drawn ↔ ∃ x ∈ l, drew x = some t
  current : ∀ userID, b.gens.lookup userID = currentToken userID l

theorem Tokens.concat {b' : Backend D} {l : List (Entry D)} (h : Tokens b l)
    (hdrawn : b'.drawn = b.drawn) (hdrew : drew ev = none) (hgens : ∀ userID,
      b'.gens.lookup userID = (wrote userID ev).elim (b.gens.lookup userID) some) :
    Tokens b' (l ++ [ev]) := by
  constructor
  · intro t
    rw [hdrawn, h.drawn]
    simp [or_and_right, exists_or, hdrew]
  · intro userID
    rw [hgens, h.current, currentToken_concat]

theorem lookup_written (gens : FMap Bytes Token) (v : Bytes) (t : Token) (userID : Bytes) :
    (gens.insert v t).lookup userID =
      (if v = userID then some t else none).elim (gens.lookup userID) some := by
  rw [FMap.lookup_insert_ite]
  by_cases hv : v = userID
  · simp [hv]
  · simp [hv, Ne.symm hv]

theorem setRemove_tokens (x : Expiry) (b : Backend D) (now : Int) (userID : Bytes)
    (ids : List Bytes) :
    (b.setRemove x now userID ids).drawn = b.drawn ∧ (b.setRemove x now userID ids).gens = b.gens := by
  unfold setRemove
  split
  · exact ⟨rfl, rfl⟩
  · split
    · exact ⟨rfl, rfl⟩
    · split <;> exact ⟨rfl, rfl⟩

section

variable [DecidableEq D]

theorem exec_tokens (x : Expiry) {l : List (Entry D)} (h : Tokens b l)
    (i : Nat) (e : Env) (o : Op D) :
    Tokens (b.exec x e o).2 (l ++ [⟨i, o, (b.exec x e o).1⟩]) ∧ Dealt l ⟨i, o, (b.exec x e o).1⟩ := by
  cases o with
  | random =>
    rcases b.exec_random_cases x e with hexec | ⟨t, hnew, hexec⟩
    · rw [hexec]
      exact ⟨h.concat rfl rfl fun _ => rfl, trivial⟩
    · rw [hexec]
      refine ⟨⟨?_, ?_⟩, ?_⟩
      · intro t'
        rw [mem_cons, h.drawn]
        simp [or_and_right, exists_or, drew, eq_comm, or_comm]
      · intro userID
        rw [currentToken_concat]
        exact h.current userID
      · intro y hy hdrew
        exact hnew ((h.drawn t).mpr ⟨y, hy, hdrew⟩)
  | addGen v t =>
    rcases b.exec_addGen_cases x e v t with hexec | hexec
    · rw [hexec]
      exact ⟨h.concat rfl rfl fun _ => rfl, trivial⟩
    · rw [hexec]
      exact ⟨h.concat rfl rfl (lookup_written b.gens v t), trivial⟩
  | setGen v t => exact ⟨h.concat rfl rfl (lookup_written b.gens v t), trivial⟩
  | getGen v => exact ⟨h.concat rfl rfl fun _ => rfl, h.current v⟩
  | swapMeta id expected raw ttl =>
    rcases b.exec_swapMeta_cases x e id expected raw ttl with hexec | ⟨-, hexec⟩
    all_goals
      rw [hexec]
      exact ⟨h.concat rfl rfl fun _ => rfl, trivial⟩
  | dropMeta cause id expected =>
    rcases b.exec_dropMeta_cases x e cause id expected with hexec | ⟨-, hexec⟩
    all_goals
      rw [hexec]
      exact ⟨h.concat rfl rfl fun _ => rfl, trivial⟩
  | removeIndex userID ids =>
    obtain ⟨hdrawn, hgens⟩ := setRemove_tokens x b e.now userID ids
    exact ⟨h.concat hdrawn rfl fun v => congrArg (AList.lookup v) hgens, trivial⟩
  | _ => exact ⟨h.concat rfl rfl fun _ => rfl, trivial⟩

theorem reached_dealt (x : Expiry) (acts : List (Act Env (Call D))) :
    EachAfter Dealt (reached x empty acts).log := by
  have hrun := (instances x).invariant_world
    (I := fun b l => Tokens b l ∧ EachAfter Dealt l) (p := start (empty))
    ⟨⟨by simp [start, empty], fun _ => rfl⟩, eachAfter_nil _⟩ ?_ acts
  · exact hrun.2
  · intro b l i e o h
    obtain ⟨htokens, hdealt⟩ := exec_tokens x h.1 i e o
    exact ⟨htokens, eachAfter_concat.mpr ⟨h.2, hdealt⟩⟩

theorem reached_vetting (x : Expiry) (acts : List (Act Env (Call D))) :
    System.Judged vetting (fun c r (hist : Trail D) => c.vouches hist r)
      (reached x empty acts) :=
  (instances x).judged_run perform_vetting (fun _ _ _ _ => trivial) empty acts

end

/-- What the events of a run from an empty cache are known to be. -/
structure Sound (calls : Nat → Option (Call D)) (pre : List (Entry D))
    (ev : Entry D) : Prop where
  faithful : Faithful pre ev
  dealt : Dealt pre ev
  vetted : ∃ c, calls ev.tid = some c ∧ c.vets (Monitor.ownTrail pre ev.tid) ev.op ev.res

theorem reached_sound [DecidableEq D] (x : Expiry) (acts : List (Act Env (Call D))) :
    EachAfter (Sound (reached x empty acts).callOf) (reached x empty acts).log := by
  intro pre ev post hlog
  obtain ⟨c, hc, hguard⟩ := (reached_vetting x acts).call hlog
  have hstate := trail_stateOf c.vets pre ev.tid
  refine ⟨(reached_kept x (fun _ => rfl) acts).2 pre ev post hlog,
    reached_dealt x acts pre ev post hlog, c, hc, ?_⟩
  rw [← hstate]
  exact hguard

section Log

variable {calls : Nat → Option (Call D)} {l : List (Entry D)} {t t' : Token} {i : Nat}
  {out : Entry D} {id : Bytes}

theorem drew_once (hl : EachAfter (Sound calls) l)
    (hi : ⟨i, .random, some t⟩ ∈ l) (hj : ⟨j, .random, some t⟩ ∈ l) : i = j := by
  rcases hl.pair hi hj with h | ⟨pre, hmem, hsound⟩ | ⟨pre, hmem, hsound⟩
  · exact congrArg Event.tid h
  · exact absurd rfl (hsound.dealt _ hmem)
  · exact absurd rfl (hsound.dealt _ hmem)

variable {userID : Bytes}

theorem drawn_of_wrote {pre : List (Entry D)}
    (h : Sound calls pre ev) (hwrote : wrote userID ev = some t) :
    (∃ hist, ownTrail pre ev.tid = hist ++ [⟨.random, some t⟩]) ∧ drew ev = none := by
  obtain ⟨c, -, hvets⟩ := h.vetted
  obtain ⟨i, o, r⟩ := ev
  cases o with
  | addGen v t' =>
    cases r with
    | false => cases hwrote
    | true =>
      have ht : v = userID ∧ t' = t := by simpa [wrote] using hwrote
      rw [← ht.2]
      exact ⟨hvets, rfl⟩
  | setGen v t' =>
    have ht : v = userID ∧ t' = t := by simpa [wrote] using hwrote
    rw [← ht.2]
    exact ⟨hvets, rfl⟩
  | _ => cases hwrote

variable {pre post : List (Entry D)}

theorem wrote_once {x : Entry D} (hl : EachAfter (Sound calls) (pre ++ ev :: post))
    (hev : wrote userID ev = some t) (hx : x ∈ pre) : wrote userID x ≠ some t := by
  intro hwrote
  obtain ⟨A, B, rfl⟩ := mem_iff_append.mp hx
  have hxs : Sound calls A x := hl A x (B ++ ev :: post) (by simp)
  obtain ⟨⟨h₁, htrail₁⟩, hdrew⟩ := drawn_of_wrote hxs hwrote
  obtain ⟨⟨h₂, htrail₂⟩, -⟩ := drawn_of_wrote (hl _ ev post rfl) hev
  have hfirst : (⟨x.tid, .random, some t⟩ : Entry D) ∈ A := by
    rw [← mem_ownTrail, htrail₁]
    simp
  -- The token was drawn before `x` and is not drawn again behind it.
  have hbehind : ∀ j, (⟨j, .random, some t⟩ : Entry D) ∉ x :: B := by
    intro j hj
    rcases mem_cons.mp hj with hj | hj
    · rw [← hj] at hdrew
      cases hdrew
    · obtain ⟨B₁, B₂, rfl⟩ := mem_iff_append.mp hj
      have hsound := hl (A ++ x :: B₁) ⟨j, .random, some t⟩ (B₂ ++ ev :: post) (by simp)
      exact hsound.dealt ⟨x.tid, .random, some t⟩ (mem_append_left _ hfirst) rfl
  have hlater : ownTrail (x :: B) ev.tid = [] := by
    rcases eq_nil_or_concat (ownTrail (x :: B) ev.tid) with hnil | ⟨hist, y, hcons⟩
    · exact hnil
    · rw [ownTrail_append, hcons, concat_eq_append, ← append_assoc] at htrail₂
      have hlast := (append_inj' htrail₂ rfl).2
      have hy : y = ⟨.random, some t⟩ := by simpa using hlast
      have hmem : (⟨.random, some t⟩ : Sigma (Res)) ∈ ownTrail (x :: B) ev.tid := by
        rw [hcons, hy]
        simp
      exact absurd (mem_ownTrail.mp hmem) (hbehind ev.tid)
  have hne : x.tid ≠ ev.tid := by
    intro htid
    simp [ownTrail, htid] at hlater
  have hsecond : (⟨ev.tid, .random, some t⟩ : Entry D) ∈ A := by
    rw [← mem_ownTrail]
    rw [ownTrail_append, hlater, append_nil] at htrail₂
    rw [htrail₂]
    simp
  have hA : EachAfter (Sound calls) A := left (by simpa using hl)
  exact hne (drew_once hA hfirst hsecond)

theorem exists_wrote_of_current
    (h : currentToken userID l = some t) : ∃ x ∈ l, wrote userID x = some t :=
  mem_filterMap.mp (mem_of_getLast? h)

theorem token_gone (hl : EachAfter (Sound calls) (pre ++ out :: post))
    (hout : wrote userID out = some t')
    (hi : ⟨i, .getGen userID, some t⟩ ∈ pre) (hj : ⟨j, .getGen userID, some t⟩ ∈ post) : False := by
  obtain ⟨A, A', rfl⟩ := mem_iff_append.mp hi
  obtain ⟨B, B', rfl⟩ := mem_iff_append.mp hj
  have hbefore : some t = currentToken userID A := (hl A _ _ (append_assoc ..)).dealt
  obtain ⟨x, hx, hwrote⟩ := exists_wrote_of_current hbefore.symm
  have hafter : some t = currentToken userID (A ++ ⟨i, .getGen userID, some t⟩ :: A' ++ out :: B) :=
    (hl _ ⟨j, .getGen userID, some t⟩ B' (by simp)).dealt
  -- The last token written to the user stands at the sign-out or behind it.
  have hlast : ∃ y ∈ out :: B, wrote userID y = some t := by
    apply exists_wrote_of_current
    rw [hafter, currentToken, currentToken, filterMap_append, getLast?_append_of_ne_nil]
    simp [hout]
  obtain ⟨y, hy, hwrote'⟩ := hlast
  obtain ⟨C, C', hC⟩ := mem_iff_append.mp hy
  rw [← cons_append, hC, append_assoc C, ← append_assoc _ C] at hl
  exact wrote_once hl hwrote' (by simp [hx]) hwrote

variable {k : Nat}

theorem put_reads (hl : EachAfter (Sound calls) l) {s : StoredSession D}
    (hk : calls k = some (.put s)) (hread : ⟨k, .getGen userID, some t⟩ ∈ l) :
    userID = s.userID ∧ userID ≠ [] ∧ ∀ t', ⟨k, .getGen userID, some t'⟩ ∈ l → t' = t := by
  have hvets : ∀ pre v t, Sound calls pre ⟨k, .getGen v, some t⟩ → v = s.userID ∧ v ≠ [] ∧
      ∀ w t', ¬Did (ownTrail pre k) (.getGen w) (some t') := by
    intro pre v t h
    obtain ⟨c, hc, hvets⟩ := h.vetted
    exact hvets s (Option.some.inj (hc.symm.trans hk))
  obtain ⟨pre, post, hsplit⟩ := mem_iff_append.mp hread
  obtain ⟨huser, hne, -⟩ := hvets pre userID t (hl pre _ post hsplit)
  refine ⟨huser, hne, ?_⟩
  intro t' hread'
  rcases hl.pair hread hread' with h | ⟨pre', hmem, hsound⟩ | ⟨pre', hmem, hsound⟩
  · simpa using h.symm
  · exact absurd (mem_ownTrail.mpr hmem) ((hvets pre' userID t' hsound).2.2 userID t)
  · exact absurd (mem_ownTrail.mpr hmem) ((hvets pre' userID t hsound).2.2 userID t')

def Stamped (calls : Nat → Option (Call D)) (l : List (Entry D)) (k : Nat) (raw : Raw D) : Prop :=
  ∃ s, calls k = some (.put s) ∧ raw.decodeRecord.userID = Utf8.repair s.userID ∧
    (s.userID ≠ [] → ∃ t, raw.decodeRecord.generation = some t ∧ ⟨k, .getGen s.userID, some t⟩ ∈ l)

variable {raw : Raw D}

theorem Stamped.mono {l' : List (Entry D)}
    (h : Stamped calls l k raw) : Stamped calls (l ++ l') k raw := by
  obtain ⟨s, hs, huser, hgen⟩ := h
  refine ⟨s, hs, huser, ?_⟩
  intro hne
  obtain ⟨t, ht, hmem⟩ := hgen hne
  exact ⟨t, ht, mem_append_left _ hmem⟩

theorem kept_stamped (hl : EachAfter (Sound calls) l)
    (h : keptOf id l = some (k, raw)) : Stamped calls l k raw := by
  induction l using reverseRecOn generalizing k raw with
  | nil => cases h
  | append_singleton l ev ih =>
    obtain ⟨hpre, hev⟩ := eachAfter_concat.mp hl
    rw [keptOf_concat] at h
    obtain ⟨c, hc, hvets⟩ := hev.vetted
    have hfaithful := hev.faithful
    rcases keptAfter_cases h with ⟨hsame, -⟩ | ⟨ttl, rfl⟩ | ⟨i, expected, ttl, raw₀, rfl, hkept⟩
    · exact (ih hpre hsame).mono
    · obtain ⟨s, rfl, huser, hgen⟩ := hvets
      refine ⟨s, hc, huser, ?_⟩
      intro hne
      obtain ⟨t, ht, hdid⟩ := hgen hne
      exact ⟨t, ht, mem_append_left _ (mem_ownTrail.mp hdid)⟩
    · have hexpected : raw₀ = expected := by
        have hsnd : (keptOf id l).map Prod.snd = some expected := hfaithful
        rw [hkept] at hsnd
        simpa using hsnd
      subst hexpected
      obtain ⟨-, huser, hgen⟩ := hvets
      obtain ⟨s, hs, huser₀, hgen₀⟩ := (ih hpre hkept).mono
      refine ⟨s, hs, huser.trans huser₀, ?_⟩
      rw [hgen]
      exact hgen₀

/-- The record under an id when a call looked is not one whose `Put` had read the token of the user
before the events `old` were over. -/
def NotFrom (old : List (Entry D)) (userID id : Bytes) (pre : List (Entry D)) : Prop :=
  ∀ k raw, keptOf id pre = some (k, raw) → ∀ t, ⟨k, .getGen userID, some t⟩ ∉ old

theorem notFrom_of_vetted {old new : List (Entry D)}
    (hl : EachAfter (Sound calls) (old ++ out :: new)) (hout : wrote userID out = some t')
    (hutf : ∀ k s, calls k = some (.put s) → Utf8.repair s.userID = s.userID)
    (hlate : ∀ ev ∈ old ++ [out], ev.tid ≠ j)
    (hpre : old ++ out :: new = pre ++ post) (hkept : (keptOf id pre).map Prod.snd = some raw)
    (hvetted : Vetted (ownTrail (old ++ out :: new) j) raw) : NotFrom old userID id pre := by
  intro k raw' hk t hread
  rw [hk] at hkept
  obtain rfl : raw' = raw := by simpa using hkept
  have hlpre : EachAfter (Sound calls) pre := left (hpre ▸ hl)
  obtain ⟨s, hs, huser, hgen⟩ := kept_stamped hlpre hk
  obtain ⟨rfl, hne, honce⟩ := put_reads hl hs (mem_append_left _ hread)
  obtain ⟨t₀, ht₀, hmem₀⟩ := hgen hne
  obtain rfl : t₀ = t := by
    apply honce
    rw [hpre]
    exact mem_append_left _ hmem₀
  rw [hutf k s hs] at huser
  -- The call read this token as the current one, and it read it after the sign-out.
  rcases hvetted with hempty | ⟨t₁, ht₁, hdid⟩
  · rw [huser] at hempty
    exact hne hempty
  · rw [ht₀] at ht₁
    obtain rfl : t₀ = t₁ := by simpa using ht₁
    rw [huser] at hdid
    have hmem := mem_ownTrail.mp hdid
    have hnew : (⟨j, .getGen s.userID, some t₀⟩ : Entry D) ∈ new := by
      rcases mem_append.mp hmem with hmem | hmem
      · exact absurd rfl (hlate _ (mem_append_left _ hmem))
      · rcases mem_cons.mp hmem with rfl | hmem
        · cases hout
        · exact hmem
    exact token_gone hl hout hread hnew

end Log

/-! Whole runs. -/

/-- From the call numbered `n` on, no call gives out or accepts a record from before a sign-out: its
`Put` had not read the user's token in the events `old`. -/
structure Honoured (p : Pool (Res (D := D)) (Backend D) (Call D) (Reply D))
    (old : List (Entry D)) (userID : Bytes) (n : Nat) : Prop where
  get : ∀ j id s, n ≤ j → p.Returned j (.get id) (.session (.ok s)) → ∃ pre raw post,
    p.log = pre ++ ⟨j, .getMeta id, some raw⟩ :: post ∧ raw.decodeRecord.toStored = s ∧
      NotFrom old userID id pre
  list : ∀ j v out m, n ≤ j → p.Returned j (.listForUser v) (.listing (.ok out)) → m ∈ out →
    ∃ id pre raw post, p.log = pre ++ ⟨j, .getMeta id, some raw⟩ :: post ∧
      raw.decodeRecord.toStored.toMeta = m ∧ NotFrom old userID id pre
  slide : ∀ j c id change, n ≤ j → c.change = some (id, change) → p.Returned j c (.written (.ok ())) →
    ∃ pre expected raw ttl post, p.log = pre ++ ⟨j, .swapMeta id expected raw ttl, true⟩ :: post ∧
      NotFrom old userID id pre
  deleteIf : ∀ j id cond, n ≤ j → p.Returned j (.deleteIf id cond) (.removed (.ok true)) →
    ∃ pre expected post, p.log = pre ++ ⟨j, .dropMeta .deletion id expected, true⟩ :: post ∧
      NotFrom old userID id pre

section Runs

variable [DecidableEq D]

theorem vouched {x : Expiry} {acts : List (Act Env (Call D))} {c : Call D} {r : Reply D}
    (h : (reached x empty acts).Returned j c r) :
    c.vouches (ownTrail (reached x empty acts).log j) r := by
  have hvouch := (reached_vetting x acts).returned h
  have hstate := trail_stateOf c.vets (reached x empty acts).log j
  rw [← hstate]
  exact hvouch

/-- No call that begins after a sign-out gives out or accepts a record whose `Put` had read the
user's token before it, and the sign-out removes no record whose `Put` begins later. -/
theorem signed_out_everywhere (x : Expiry) (acts acts' : List (Act Env (Call D))) {i : Nat}
    {userID : Bytes} (hne : userID ≠ [])
    (hret : (reached x Backend.empty acts).Returned i (.deleteAllForUser userID) (.written (.ok ())))
    (hutf : ∀ k s, (reached x Backend.empty (acts ++ acts')).callOf k = some (.put s) →
      Utf8.repair s.userID = s.userID) :
    (∃ old t new, (reached x Backend.empty acts).log = old ++ ⟨i, .setGen userID t, ()⟩ :: new ∧
      Honoured (reached x Backend.empty (acts ++ acts')) old userID
        (reached x Backend.empty acts).threads.length) ∧
    ∀ pre ev post id k raw, (reached x Backend.empty (acts ++ acts')).log = pre ++ ev :: post →
      ev.tid = i → keptOf id pre = some (k, raw) → keptOf id (pre ++ [ev]) = none →
      k < (reached x Backend.empty acts).threads.length := by
  set p := reached x empty (acts ++ acts')
  set n := (reached x empty acts).threads.length
  have hbound := (reached_vetting x acts).tid_lt
  obtain ⟨later, hlater, hsilent⟩ := (instances x).idle_run (System.idle_of_returned hret) acts'
  rw [← reached_append] at hlater
  constructor
  · obtain ⟨t, hdid⟩ := vouched hret hne
    obtain ⟨old, new, hlog⟩ := mem_iff_append.mp (mem_ownTrail.mp hdid)
    refine ⟨old, t, new, hlog, ?_⟩
    have hsound := reached_sound x (acts ++ acts')
    have hwhole : p.log = old ++ ⟨i, .setGen userID t, ()⟩ :: (new ++ later) := by
      rw [hlater, hlog]
      simp
    have hnot : ∀ j id raw pre post, n ≤ j → p.log = pre ++ post →
        (keptOf id pre).map Prod.snd = some raw → Vetted (ownTrail p.log j) raw →
        NotFrom old userID id pre := by
      intro j id raw pre post hj hsplit hkept hvetted
      rw [hwhole] at hsplit hvetted hsound
      refine notFrom_of_vetted hsound (if_pos rfl) hutf ?_ hsplit hkept hvetted
      intro ev hev
      have hmem : ev ∈ (reached x empty acts).log := by
        rw [hlog]
        simp only [mem_append, mem_cons, not_mem_nil, or_false] at hev ⊢
        tauto
      have hlt := hbound ev hmem
      omega
    -- What a call did to a record it had vetted it did to one from behind the sign-out.
    have hdone : ∀ j id expected o (r : Res o), n ≤ j → Did (ownTrail p.log j) o r →
        (∀ (c : Call D) hist, c.vets hist o r → Vetted hist expected) →
        (∀ pre, Faithful pre ⟨j, o, r⟩ → (keptOf id pre).map Prod.snd = some expected) →
        ∃ pre post, p.log = pre ++ ⟨j, o, r⟩ :: post ∧ NotFrom old userID id pre := by
      intro j id expected o r hj hdid hvets hkept
      obtain ⟨pre, post, hsplit⟩ := mem_iff_append.mp (mem_ownTrail.mp hdid)
      have hev := hsound pre _ post hsplit
      obtain ⟨c, -, hguard⟩ := hev.vetted
      refine ⟨pre, post, hsplit, hnot j id expected pre _ hj hsplit (hkept pre hev.faithful) ?_⟩
      refine (hvets c _ hguard).mono ?_
      rw [hsplit, ownTrail_append]
      exact subset_append_left _ _
    have hread : ∀ j id raw, n ≤ j → Did (ownTrail p.log j) (.getMeta id) (some raw) →
        Vetted (ownTrail p.log j) raw →
        ∃ pre post, p.log = pre ++ ⟨j, .getMeta id, some raw⟩ :: post ∧ NotFrom old userID id pre := by
      intro j id raw hj hdid hvetted
      obtain ⟨pre, post, hsplit⟩ := mem_iff_append.mp (mem_ownTrail.mp hdid)
      have hkept := (hsound pre _ post hsplit).faithful
      exact ⟨pre, post, hsplit, hnot j id raw pre _ hj hsplit hkept hvetted⟩
    exact {
      get := by
        intro j id s hj hget
        obtain ⟨raw, hdid, hvetted, hstored⟩ := vouched hget
        obtain ⟨pre, post, hsplit, hfrom⟩ := hread j id raw hj hdid hvetted
        exact ⟨pre, raw, post, hsplit, hstored, hfrom⟩
      list := by
        intro j v out m hj hlist hm
        obtain ⟨id, raw, hdid, hvetted, hmeta⟩ := vouched hlist m hm
        obtain ⟨pre, post, hsplit, hfrom⟩ := hread j id raw hj hdid hvetted
        exact ⟨id, pre, raw, post, hsplit, hmeta, hfrom⟩
      slide := by
        intro j c id change hj hchange hslid
        have hvouched := vouched hslid
        cases c with
        | touch k lastSeen expiresAt | updateData k update lastSeen expiresAt =>
          obtain ⟨rfl, -⟩ : k = id ∧ _ := by simpa [Call.change] using hchange
          obtain ⟨expected, raw, ttl, hdid⟩ := hvouched
          obtain ⟨pre, post, hsplit, hfrom⟩ := hdone j k expected _ _ hj hdid
            (fun _ _ h => h.1) (fun _ h => h)
          exact ⟨pre, expected, raw, ttl, post, hsplit, hfrom⟩
        | _ => cases hchange
      deleteIf := by
        intro j id cond hj hdeleted
        obtain ⟨expected, hdid⟩ := vouched hdeleted
        obtain ⟨pre, post, hsplit, hfrom⟩ := hdone j id expected _ _ hj hdid
          (fun _ _ h => h) (fun _ h => h)
        exact ⟨pre, expected, post, hsplit, hfrom⟩ }
  · intro pre ev post id k raw hsplit htid hkept _
    rw [hlater] at hsplit
    rcases append_eq_append_iff.mp hsplit with ⟨mid, -, hmid⟩ | ⟨mid, hpre, -⟩
    · exact absurd htid (hsilent ev (by simp [hmid]))
    · have hsound : EachAfter (Sound (reached x empty acts).callOf) pre :=
        left (hpre ▸ reached_sound x acts)
      obtain ⟨s, hs, -⟩ := kept_stamped hsound hkept
      exact lt_of_callOf hs

end Runs

/-! Runs of one user. -/

def someone : Bytes := Bytes.ascii "u"

def phone : StoredSession Unit := ⟨Bytes.ascii "a", someone, (), 0, 0, 0, [], []⟩

def laptop : StoredSession Unit := ⟨Bytes.ascii "b", someone, (), 0, 0, 0, [], []⟩

def goOn (order : List Bytes) (i n : Nat) (token : Token) : List (Act Env (Call Unit)) :=
  List.replicate n (.run i ⟨10, some token, order⟩)

def signedInThenOut : List (Act Env (Call Unit)) :=
  .spawn (.put phone) :: goOn [] 0 9 0 ++ .spawn (.deleteAllForUser someone) ::
    goOn [phone.id] 1 12 1

def thenRead : List (Act Env (Call Unit)) := .spawn (.get phone.id) :: goOn [] 2 9 2

theorem read_after_sign_out :
    (reached Expiry.memory Backend.empty (signedInThenOut ++ thenRead)).Returned 2 (.get phone.id)
      (.session (.error .notFound)) ∧
    ∃ old t new, (reached Expiry.memory Backend.empty signedInThenOut).log =
        old ++ ⟨1, .setGen someone t, ()⟩ :: new ∧
      Honoured (reached Expiry.memory Backend.empty (signedInThenOut ++ thenRead)) old someone
        (reached Expiry.memory Backend.empty signedInThenOut).threads.length := by
  refine ⟨by rfl, (signed_out_everywhere memory signedInThenOut thenRead (by decide) (by rfl) ?_).1⟩
  intro k s hk
  have hlt := lt_of_callOf hk
  have hlen : (reached memory empty (signedInThenOut ++ thenRead)).threads.length = 3 :=
    by rfl
  rw [hlen] at hlt
  interval_cases k
  · have hput : (reached memory empty (signedInThenOut ++ thenRead)).callOf 0 =
        some (.put phone) := by rfl
    rw [hput] at hk
    obtain rfl : phone = s := by simpa using hk
    decide
  · cases hk
  · cases hk

/-- A `Put` that has begun and not yet read the token, overtaken by a sign-out. -/
def overtakenPut : List (Act Env (Call Unit)) :=
  .spawn (.put phone) :: .spawn (.deleteAllForUser someone) :: goOn [] 1 9 0

def overtakenListing : List (Act Env (Call Unit)) :=
  [.spawn (.put phone)] ++ goOn [] 0 9 0 ++ [.spawn (.put laptop)] ++ goOn [] 1 9 1 ++
    [.spawn (.listForUser someone)] ++ goOn [phone.id, laptop.id] 2 3 2 ++
    [.spawn (.deleteAllForUser someone)] ++ goOn [phone.id, laptop.id] 3 20 3

/-- A `Put` that read the token after the sign-out leaves a record; a listing begun before gives one
out. -/
theorem begun_before_sign_out :
    ((reached Expiry.memory Backend.empty overtakenPut).Returned 1 (.deleteAllForUser someone)
        (.written (.ok ())) ∧
      (reached Expiry.memory Backend.empty (overtakenPut ++ (goOn [] 0 9 1 ++ thenRead))).Returned 2
        (.get phone.id) (.session (.ok { phone with createdAt := 10, lastSeenAt := 10 }))) ∧
    (reached memory Backend.empty overtakenListing).Returned 3 (.deleteAllForUser someone)
        (.written (.ok ())) ∧
      (reached memory Backend.empty (overtakenListing ++ goOn [] 2 9 4)).Returned 2
        (.listForUser someone)
        (.listing
          (.ok [{ phone with createdAt := 10, lastSeenAt := 10 : StoredSession Unit }.toMeta])) :=
  ⟨⟨by rfl, by rfl⟩, by rfl, by rfl⟩

end Session
