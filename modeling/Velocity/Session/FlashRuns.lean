import Velocity.Session.FlashDelivery

/-! Runs of requests that share a record store: which goroutine has the turn of its session, and that no
two calls return the same flash value. -/

namespace Session

open Interleave Json MemoryStore Option List Function

def followingOn (call : Nat × RequestCall) : Monitor ServedRes := (following call.2).tag call.1

def progress (call : Nat × RequestCall) (l : Log ServedRes) (i : Nat) : Progress :=
  (followingOn call).stateOf l i

def Progress.after (p : Progress) (o : RequestOp) (res : RequestRes o) : Progress :=
  ⟨p.phase.next o res, fun origin => p.got origin ∨ Gives origin o res, p.set || isSet o⟩

theorem progress_concat (call : Nat × RequestCall) (l : Log ServedRes) (ev : Event ServedRes)
    (i : Nat) : progress call (l ++ [ev]) i =
      if ev.tid = i then (progress call l i).after ev.op.2 ev.res else progress call l i :=
  (followingOn call).stateOf_concat l ev i

variable {l : Log ServedRes} {i : Nat} {call : Nat × RequestCall}

theorem progress_of_ne (call : Nat × RequestCall) {ev : Event ServedRes}
    (h : ev.tid ≠ i) : progress call (l ++ [ev]) i = progress call l i := by
  rw [progress_concat, if_neg h]

theorem given_of_got {origin : Nat}
    (h : (progress call l i).got origin) : ∃ ev ∈ l, ev.tid = i ∧ Gives origin ev.op.2 ev.res := by
  induction l using reverseRecOn with
  | nil => exact h.elim
  | append_singleton l ev ih =>
    rw [progress_concat] at h
    split at h
    case isTrue hi =>
      rcases h with hold | hgives
      · obtain ⟨ev', hmem, htid, hg⟩ := ih hold
        exact ⟨ev', mem_append_left _ hmem, htid, hg⟩
      · exact ⟨ev, by simp, hi, hgives⟩
    case isFalse =>
      obtain ⟨ev', hmem, htid, hg⟩ := ih h
      exact ⟨ev', mem_append_left _ hmem, htid, hg⟩

section Linked

variable (calls : Nat → Option (Nat × RequestCall))

structure Linked (l : Log ServedRes) : Prop where
  turn : ∀ i call, calls i = some call → (progress call l i).phase = .idle ∨
    (progress call l i).phase = phaseOf l call.1 ∧
      ∀ j call', calls j = some call' → call'.1 = call.1 → j ≠ i → (progress call' l j).phase = .idle
  set : ∀ ev ∈ l, ∀ key v, ev.op.2 = .session (.flash key v) → ∃ call, calls ev.tid = some call ∧
    call.2 = .flash key v ∧ (progress call l ev.tid).set = true

variable {calls} {w : Requests} {o : RequestOp}

theorem next_of_free (hfree : Phase.free o) (hturn : o ≠ .session .takeTurn)
    (p : Phase) (res : RequestRes o) : p.next o res = p := by
  cases o with
  | session step =>
    cases step with
    | takeTurn => exact absurd rfl hturn
    | flash key v => cases p <;> rfl
    | put key v => cases p <;> rfl
    | remove key => cases p <;> rfl
    | takeFlash id key => cases p <;> rfl
    | flushFlash id => cases p <;> rfl
    | _ => exact hfree.elim
  | store so =>
    cases so with
    | get id => cases p <;> rfl
    | deleteIf id cond => cases p <;> rfl
    | _ => exact hfree.elim
  | clock => cases p <;> rfl
  | hold s => cases p <;> rfl

theorem takeTurn_cases (h : Orderly w (phaseOf l)) (r : Nat) (now : Int) :
    (∀ p : Phase, p.next (.session .takeTurn) (w.exec now (r, .session .takeTurn)).1 = p) ∨
      phaseOf l r = .idle := by
  have hbusy : ∀ s : ServerSession, s.busy = true → ∀ p : Phase, p.next (.session .takeTurn) s = p := by
    intro s hs p
    cases p with
    | idle =>
      show (if s.busy then Phase.idle else _) = _
      rw [if_pos hs]
    | _ => rfl
  cases hs : w.sessions r with
  | none => exact .inr (h.unloaded r hs)
  | some s =>
    have hexec : (w.exec now (r, .session .takeTurn)).1 = s := by simp only [Requests.exec, hs]
    rw [hexec]
    cases hb : s.busy with
    | true => exact .inl (hbusy s hb)
    | false =>
      right
      have hfits := (h.session r s hs).2.1
      cases hp : phaseOf l r with
      | idle => rfl
      | astray => exact absurd hp (h.ne_astray r)
      | _ =>
        rw [hp] at hfits
        rw [hfits.1] at hb
        cases hb

theorem permitted_of_guard (h : Linked calls l)
    (hcall : calls i = some call) (hkeep : call.2.rotates = false) {res : RequestRes o}
    (hguard : (following call.2).guard (progress call l i) o res) : Permitted (phaseOf l call.1) o ∧
      ((progress call l i).phase = .idle ∧ Phase.free o ∧ SetsOwn call.2 (progress call l i).set o ∨
        (progress call l i).phase ≠ .idle ∧ (phaseOf l call.1).may o) := by
  rcases hguard with hrot | hguard
  · rw [hkeep] at hrot
    cases hrot
  · rcases h.turn i call hcall with hidle | ⟨hphase, -⟩
    · rw [hidle] at hguard
      exact ⟨.inl hguard.1, .inl ⟨hidle, hguard⟩⟩
    · cases hp : (progress call l i).phase with
      | idle =>
        rw [hp] at hguard
        exact ⟨.inl hguard.1, .inl ⟨rfl, hguard⟩⟩
      | _ =>
        rw [hp] at hguard
        rw [← hphase, hp]
        exact ⟨.inr hguard, .inr ⟨by simp, hguard⟩⟩

theorem linked_step (h : Linked calls l) (horderly : Orderly w (phaseOf l))
    (hcall : calls i = some call) (hkeep : call.2.rotates = false) (now : Int)
    (hguard : (following call.2).guard (progress call l i) o (w.exec now (call.1, o)).1) :
    Linked calls (l ++ [⟨i, (call.1, o), (w.exec now (call.1, o)).1⟩]) := by
  set run := w.exec now (call.1, o)
  obtain ⟨-, hcases⟩ := permitted_of_guard h hcall hkeep hguard
  have hphase : phaseOf (l ++ [⟨i, (call.1, o), run.1⟩]) =
      update (phaseOf l) call.1 ((phaseOf l call.1).next o run.1) :=
    phaseOf_concat l ⟨i, (call.1, o), run.1⟩
  have hown : progress call (l ++ [⟨i, (call.1, o), run.1⟩]) i = (progress call l i).after o run.1 := by
    rw [progress_concat, if_pos rfl]
  refine ⟨?_, ?_⟩
  · -- The other threads of the session are idle, or the step leaves every phase as it was.
    have hothers : (∀ j call', calls j = some call' → call'.1 = call.1 → j ≠ i →
        (progress call' l j).phase = .idle) ∧ (progress call l i).phase = phaseOf l call.1 ∨
        ∀ p : Phase, p.next o run.1 = p := by
      rcases hcases with ⟨hidle, hfree, -⟩ | ⟨hbusy, -⟩
      · by_cases hturn : o = .session .takeTurn
        · subst hturn
          rcases takeTurn_cases horderly call.1 now with hsame | hfreeTurn
          · exact .inr hsame
          · refine .inl ⟨?_, hidle.trans hfreeTurn.symm⟩
            intro j call' hcall' hr hj
            rcases h.turn j call' hcall' with hidle' | ⟨hphase', -⟩
            · exact hidle'
            · rw [hphase', hr, hfreeTurn]
        · exact .inr fun p => next_of_free hfree hturn p _
      · exact .inl ((h.turn i call hcall).resolve_left hbusy).symm
    rcases hothers with ⟨hrest, hsame⟩ | hkept
    · intro j call' hcall'
      rw [hphase]
      by_cases hr : call'.1 = call.1
      · by_cases hj : j = i
        · subst hj
          obtain rfl : call = call' := some.inj (hcall.symm.trans hcall')
          rw [hown, update_self, ← hsame]
          refine .inr ⟨rfl, ?_⟩
          intro k call'' hcall'' hr hk
          rw [progress_of_ne call'' (Ne.symm hk)]
          exact hrest k call'' hcall'' hr hk
        · rw [progress_of_ne call' (Ne.symm hj)]
          exact .inl (hrest j call' hcall' hr hj)
      · have hne : ∀ k call'', calls k = some call'' → call''.1 = call'.1 → i ≠ k := by
          rintro k call'' hcall'' hr' rfl
          obtain rfl : call = call'' := some.inj (hcall.symm.trans hcall'')
          exact hr hr'.symm
        rw [update_of_ne hr, progress_of_ne call' (hne j call' hcall' rfl)]
        refine (h.turn j call' hcall').imp_right (And.imp_right ?_)
        intro hidle k call'' hcall'' hr' hk
        rw [progress_of_ne call'' (hne k call'' hcall'' hr')]
        exact hidle k call'' hcall'' hr' hk
    · have hphases : ∀ j call', (progress call' (l ++ [⟨i, (call.1, o), run.1⟩])
          j).phase = (progress call' l j).phase := by
        intro j call'
        rw [progress_concat]
        split
        · exact hkept _
        · rfl
      rw [hkept, update_eq_self] at hphase
      simp only [hphases, hphase]
      exact h.turn
  · intro ev hev key v hop
    rcases mem_concat.mp hev with hold | rfl
    · obtain ⟨call', hcall', hflash, hset⟩ := h.set ev hold key v hop
      refine ⟨call', hcall', hflash, ?_⟩
      rw [progress_concat]
      split
      · show ((progress call' l ev.tid).set || isSet o) = true
        rw [hset]
        rfl
      · exact hset
    · obtain rfl : o = .session (.flash key v) := hop
      rcases hcases with ⟨-, -, hsets⟩ | ⟨-, hmay⟩
      · refine ⟨call, hcall, hsets.1, ?_⟩
        rw [hown]
        show ((progress call l i).set || true) = true
        simp
      · exfalso
        cases hp : phaseOf l call.1 with
        | astray => exact horderly.ne_astray call.1 hp
        | _ =>
          rw [hp] at hmay
          exact hmay

end Linked

def Keyed (w : Requests) : Prop := ∀ id rec, w.records.byID.lookup id = some rec → rec.id = id

theorem keyed_insert {m : Records}
    (h : ∀ id rec, m.byID.lookup id = some rec → rec.id = id) (s : SessionRecord)
    (id : Bytes) (rec : SessionRecord) (hrec : (m.insert s).byID.lookup id = some rec) :
    rec.id = id := by
  rw [lookup_insert] at hrec
  split at hrec
  case isTrue hid =>
    rw [hid, ← some.inj hrec]
  case isFalse => exact h id rec hrec

theorem keyed_exec {w : Requests} (h : Keyed w) (now : Int) (o : Nat × RequestOp) :
    Keyed (w.exec now o).2 := by
  obtain ⟨-, o⟩ := o
  cases o with
  | clock => exact h
  | store so =>
    intro id rec hrec
    cases so with
    | get k => exact h id rec (lookup_of_find_held hrec)
    | put s =>
      have hput : (w.records.put now s).2.byID.lookup id = some rec := hrec
      rw [put] at hput
      split at hput
      · exact h id rec hput
      · exact keyed_insert h _ id rec hput
    | updateData k update lastSeen expiresAt =>
      have hupdated : (w.records.updateData now k update lastSeen expiresAt).2.byID.lookup id =
        some rec := hrec
      rcases w.records.updateData_cases now k update lastSeen expiresAt with
        ⟨s, data, seen, expires, -, -, heq⟩ | ⟨e, -, hsub⟩
      · rw [heq] at hupdated
        exact keyed_insert h _ id rec hupdated
      · exact h id rec (hsub id rec hupdated)
    | deleteIf k cond => exact h id rec (lookup_of_deleteIf hrec)
    | delete k =>
      have hdeleted : (w.records.removeLocked k).byID.lookup id = some rec := hrec
      exact h id rec (lookup_of_removeLocked hdeleted)
    | deleteAllForUser userID =>
      have hdeleted : (w.records.deleteAllForUser userID).byID.lookup id = some rec := hrec
      rw [lookup_deleteAllForUser] at hdeleted
      split at hdeleted
      · cases hdeleted
      · exact h id rec hdeleted
  | _ =>
    simp only [Requests.exec]
    split <;> exact h

theorem answered_exec {w : Requests} (h : Keyed w) (now : Int) (o : Nat × RequestOp) :
    Answered o.2 (w.exec now o).1 := by
  obtain ⟨r, o⟩ := o
  cases o with
  | store so =>
    cases so with
    | get id =>
      show Answered (.store (.get id)) (w.records.find now id).1
      cases hfind : (w.records.find now id).1 with
      | error e => trivial
      | ok rec => exact h id rec (lookup_of_find hfind)
    | updateData id update lastSeen expiresAt =>
      rcases w.records.find_cases now id with ⟨s, hs, hfind⟩ | ⟨-, e, m', hrefused, hfind, -⟩
      · cases hupdate : update s.data with
        | none =>
          have hexec : (w.exec now (r, .store (.updateData id update lastSeen expiresAt))).1 =
              (.error .update, some s.data) := by
            simp [Requests.exec, exec, updateData, MemoryStore.slide, hs, hfind, hupdate]
          rw [hexec]
          intro p hp
          obtain rfl : s.data = p := some.inj hp
          exact hupdate
        | some data =>
          have hexec : (w.exec now (r, .store (.updateData id update lastSeen expiresAt))).1 =
              (.ok (), some s.data) := by
            simp [Requests.exec, exec, updateData, MemoryStore.slide, hs, hfind, hupdate]
          rw [hexec]
          exact ⟨s.data, data, rfl, hupdate⟩
      · have hexec : (w.exec now (r, .store (.updateData id update lastSeen expiresAt))).1 =
            (.error e, (w.records.live now id).map StoredSession.data) := by
          simp [Requests.exec, exec, updateData, MemoryStore.slide, hfind]
        rw [hexec]
        cases e with
        | update => cases hrefused
        | _ => trivial
    | _ => trivial
  | _ => trivial

/-- The values at the start, and those the calls set, have origins of their own. -/
structure Labelled (records : Records) (calls : Nat → Option (Nat × RequestCall)) :
    Prop where
  stored : ∀ origin id k id' k', Stored ⟨records, fun _ => none⟩ origin id k →
    Stored ⟨records, fun _ => none⟩ origin id' k' → id = id' ∧ k = k'
  set : ∀ i j r key v r' key' v', calls i = some (r, .flash key v) →
    calls j = some (r', .flash key' v') → v.origin = v'.origin → i = j
  new : ∀ i r key v, calls i = some (r, .flash key v) →
    ∀ id k, ¬ Stored ⟨records, fun _ => none⟩ v.origin id k

/-- No flash value is consumed in memory while a save of its request is on its way with it. -/
def ReadsApart (pre : Log ServedRes) (ev : Event ServedRes) : Prop :=
  Undisturbed (savingOf pre ev.op.1) ev.op.2 ev.res

variable {calls : Nat → Option (Nat × RequestCall)} {records : Records}

theorem delivered_start
    (hkeyed : Keyed ⟨records, fun _ => none⟩) (hlabelled : Labelled records calls) :
    Delivered records ⟨records, fun _ => none⟩ [] := by
  have hstored : ∀ origin x, At ⟨records, fun _ => none⟩ (phaseOf []) origin x →
      ∃ id k, x = .stored id k ∧ Stored ⟨records, fun _ => none⟩ origin id k := by
    intro origin x hx
    cases x with
    | mine r k =>
      obtain ⟨s, hs, -⟩ := hx
      cases hs
    | stored id k => exact ⟨id, k, rfl, hx⟩
  refine ⟨⟨?_, fun _ _ => rfl, hkeyed, ?_⟩, ?_, ?_, ?_, ?_, eachAfter_nil _⟩
  · exact nofun
  · intro origin x y hx hy
    obtain ⟨id, k, rfl, hx⟩ := hstored origin x hx
    obtain ⟨id', k', rfl, hy⟩ := hstored origin y hy
    obtain ⟨rfl, rfl⟩ := hlabelled.stored origin id k id' k' hx hy
    rfl
  · exact nofun
  · rintro origin ⟨ev, hev, -⟩
    cases hev
  · intro origin x hx
    obtain ⟨id, k, -, hx⟩ := hstored origin x hx
    exact .inl ⟨id, k, hx⟩
  · rintro origin ⟨ev, hev, -⟩
    cases hev

theorem fresh_of_setsOwn (hlabelled : Labelled records calls) (hlinked : Linked calls l)
    (hcall : calls i = some call) {key : Bytes} {v : Flashed}
    (hsets : SetsOwn call.2 (progress call l i).set (.session (.flash key v))) :
    ¬ Born records l v.origin := by
  obtain ⟨r, call⟩ := call
  obtain ⟨rfl, hset⟩ := hsets
  rintro (⟨id, k, hstored⟩ | ⟨ev, hev, hsets⟩)
  · exact hlabelled.new i r key v hcall id k hstored
  · cases hop : ev.op.2 with
    | session step =>
      rw [hop] at hsets
      cases step with
      | flash key' v' =>
        obtain ⟨⟨r', -⟩, hcall', rfl, hset'⟩ := hlinked.set ev hev key' v' hop
        obtain rfl := hlabelled.set _ _ r' key' v' r key v hcall' hcall hsets
        obtain rfl := (Prod.mk.inj (some.inj (hcall'.symm.trans hcall))).1
        obtain ⟨rfl, rfl⟩ := RequestCall.flash.inj
          (Prod.mk.inj (some.inj (hcall'.symm.trans hcall))).2
        rw [hset] at hset'
        cases hset'
      | _ => exact hsets.elim
    | _ =>
      rw [hop] at hsets
      exact hsets.elim

section Runs

variable (c : SessionConfig) (records : Records)
  (acts : List (Act Int (Nat × RequestCall)))

def served : Pool ServedRes Requests (Nat × RequestCall) RequestReply :=
  (requests c).run (Pool.start ⟨records, fun _ => none⟩) acts

variable {c records acts}

theorem body_followingOn (call : Nat × RequestCall) :
    ((requests c).body call).wp (followingOn call) (followingOn call).init (followed call.2) :=
  Prog.wp_tag (body_following call.2) call.1

theorem delivered_served (hkeyed : Keyed ⟨records, fun _ => none⟩)
    (hlabelled : Labelled records (served c records acts).callOf)
    (hvalid : ∀ i r key v, (served c records acts).callOf i = some (r, .flash key v) →
      Utf8.repair key = key)
    (hkeep : ∀ i call, (served c records acts).callOf i = some call → call.2.rotates = false)
    (hquiet : EachAfter ReadsApart (served c records acts).log) :
    Delivered records (served c records acts).world (served c records acts).log ∧
      Linked (served c records acts).callOf (served c records acts).log := by
  revert hquiet
  refine (requests c).judged_invariant_of (fun w e o h => keyed_exec h e o) body_followingOn
    (fun _ w e o h => answered_exec h e o) (I := fun w l => EachAfter ReadsApart l →
      Delivered records w l ∧ Linked (served c records acts).callOf l) hkeyed ?_ ?_
  · intro _
    refine ⟨delivered_start hkeyed hlabelled, ?_, ?_⟩
    · intro i call _
      exact .inl rfl
    · intro ev hev
      cases hev
  · rintro before after hacts _ rfl i now call o ih hcall hguard hquiet
    obtain ⟨hquiet, hlast⟩ := eachAfter_concat.mp hquiet
    obtain ⟨hdelivered, hlinked⟩ := ih hquiet
    have hcalls : (served c records acts).callOf i = some call := by
      rw [served, hacts, System.run_append]
      exact (requests c).callOf_run_of_some hcall after
    obtain ⟨r, o⟩ := o
    obtain ⟨rfl, hguard⟩ : r = call.1 ∧ _ := hguard
    obtain ⟨hlaw, hcases⟩ := permitted_of_guard hlinked hcalls (hkeep i call hcalls) hguard
    refine ⟨delivered_step hdelivered now hlaw ?_ hlast i, ?_⟩
    · intro key v ho
      subst ho
      rcases hcases with ⟨-, -, hsets⟩ | ⟨-, hmay⟩
      · refine ⟨hvalid i call.1 key v ?_, fresh_of_setsOwn hlabelled hlinked hcalls hsets⟩
        rw [hcalls, ← hsets.1]
      · exfalso
        cases hp : phaseOf ((requests c).run (Pool.start ⟨records, fun _ => none⟩) before).log
          call.1 with
        | astray => exact hdelivered.orderly.ne_astray call.1 hp
        | _ =>
          rw [hp] at hmay
          exact hmay
    · exact linked_step hlinked hdelivered.orderly hcalls (hkeep i call hcalls) now hguard

/-- No two calls return the value that one call set. -/
theorem flash_once (hkeyed : Keyed ⟨records, fun _ => none⟩)
    (hlabelled : Labelled records (served c records acts).callOf)
    (hvalid : ∀ i r key v, (served c records acts).callOf i = some (r, .flash key v) →
      Utf8.repair key = key)
    (hkeep : ∀ i call, (served c records acts).callOf i = some call → call.2.rotates = false)
    (hquiet : EachAfter ReadsApart (served c records acts).log) {origin i j : Nat}
    {call call' : Nat × RequestCall} {a b : RequestReply}
    (hi : (served c records acts).Returned i call a) (ha : a.Holds origin)
    (hj : (served c records acts).Returned j call' b) (hb : b.Holds origin) : i = j := by
  set p := served c records acts
  obtain ⟨hdelivered, hlinked⟩ := delivered_served hkeyed hlabelled hvalid hkeep hquiet
  have hjudged : System.Judged followingOn (fun call => followed call.2) p :=
    (requests c).judged_run_of (fun w e o h => keyed_exec h e o) body_followingOn
      (fun _ w e o h => answered_exec h e o) hkeyed acts
  have hgave : ∀ {i call a}, p.Returned i call a → a.Holds origin →
      ∃ ev ∈ p.log, ev.tid = i ∧ Gives origin ev.op.2 ev.res := by
    intro i call a hret ha
    have hfollowed : followed call.2 a (progress call p.log i) :=
      hjudged.returned hret
    rcases hfollowed with hrot | hastray | ⟨-, hgot⟩
    · rw [hkeep i call hret.callOf] at hrot
      cases hrot
    · rcases hlinked.turn i call hret.callOf with hidle | ⟨hphase, -⟩
      · rw [hidle] at hastray
        cases hastray
      · rw [hphase] at hastray
        exact absurd hastray (hdelivered.orderly.ne_astray call.1)
    · exact given_of_got (hgot origin ha)
  obtain ⟨ev, hev, rfl, hg⟩ := hgave hi ha
  obtain ⟨ev', hev', rfl, hg'⟩ := hgave hj hb
  rcases hdelivered.once.pair hev hev' with rfl | ⟨pre, hmem, honce⟩ | ⟨pre, hmem, honce⟩
  · rfl
  · exact absurd ⟨ev, hmem, hg⟩ (honce origin hg')
  · exact absurd ⟨ev', hmem, hg'⟩ (honce origin hg)

end Runs

/-! A request that flashes a value and saves it, and another that reads it. -/

namespace Flashes

def id : Bytes := Bytes.ascii "AAAAAAAAAAAAAAAAAAAAAAAAAAAAAAAAAAAAAAAAAAA="

def unlimited : SessionConfig := ⟨0, 0, 0⟩

def store : Records := MemoryStore.empty.insert ⟨id, [], ⟨∅, ∅⟩, 1, 1, 0, [], []⟩

def key : Bytes := Bytes.ascii "notice"

def saved : Flashed := ⟨1, .text (Bytes.ascii "saved")⟩

def flashes : List (Act Int (Nat × RequestCall)) :=
  [.spawn (0, .load id), .run 0 2, .run 0 2, .run 0 2, .spawn (0, .flash key saved), .run 1 2]

def reads (i : Nat) : List (Act Int (Nat × RequestCall)) :=
  [.spawn (1, .load id), .run i 4, .run i 4, .run i 4, .spawn (1, .getFlash key)] ++
    List.replicate 9 (.run (i + 1) 4)

def inOrder : List (Act Int (Nat × RequestCall)) :=
  flashes ++ [.spawn (0, .save)] ++ List.replicate 11 (.run 2 3) ++ reads 3

def disturbed : List (Act Int (Nat × RequestCall)) :=
  flashes ++ [.spawn (0, .save)] ++ List.replicate 5 (.run 2 3) ++
    [.spawn (0, .getFlash key), .run 3 3] ++
    List.replicate 6 (.run 2 3) ++ reads 4

theorem lookup_store {k : Bytes} {rec : SessionRecord}
    (h : store.byID.lookup k = some rec) : rec.id = k ∧ rec.data.flash = ∅ := by
  rw [store, lookup_insert] at h
  split at h
  case isTrue hk =>
    obtain rfl := some.inj h
    exact ⟨hk.symm, rfl⟩
  case isFalse => cases h

theorem not_stored (origin : Nat) (k k' : Bytes) : ¬ Stored ⟨store, fun _ => none⟩ origin k k' := by
  rintro ⟨rec, v, hrec, hv, -⟩
  rw [(lookup_store hrec).2] at hv
  cases hv

def Plain (calls : Nat → Option (Nat × RequestCall)) : Prop :=
  ∀ i call, calls i = some call → call.2.rotates = false ∧
    ∀ r k v, call = (r, .flash k v) → i = 1 ∧ k = key

theorem Plain.labelled {calls : Nat → Option (Nat × RequestCall)} (h : Plain calls) :
    Labelled store calls := by
  refine ⟨?_, ?_, ?_⟩
  · intro origin id k id' k' hstored
    exact absurd hstored (not_stored origin id k)
  · intro i j r key v r' key' v' hi hj _
    obtain ⟨rfl, -⟩ := (h i _ hi).2 r key v rfl
    obtain ⟨rfl, -⟩ := (h j _ hj).2 r' key' v' rfl
    rfl
  · intro i r key v _ id k
    exact not_stored v.origin id k

def passive : RequestCall → Bool
  | .load _ | .save | .getFlash _ => true
  | _ => false

theorem plain_of_calls {p : Pool ServedRes Requests (Nat × RequestCall) RequestReply}
    {rest : List (Nat × RequestCall)}
    (hcalls : p.threads.map Thread.call = (0, .load id) :: (0, .flash key saved) :: rest)
    (hrest : ∀ call ∈ rest, passive call.2 = true) : Plain p.callOf := by
  have hpassive : ∀ call : Nat × RequestCall, passive call.2 = true → call.2.rotates = false ∧
      ∀ r k v, call ≠ (r, .flash k v) := by
    rintro ⟨r, call⟩ h
    cases call with
    | load _ | save | getFlash _ => exact ⟨rfl, nofun⟩
    | _ => cases h
  intro i call hi
  rw [Pool.callOf, ← getElem?_map, hcalls] at hi
  obtain _ | _ | i := i
  · obtain rfl := some.inj hi
    obtain ⟨hrot, hne⟩ := hpassive (0, .load id) rfl
    exact ⟨hrot, fun r k v h => absurd h (hne r k v)⟩
  · obtain rfl := some.inj hi
    refine ⟨rfl, ?_⟩
    rintro r k v ⟨⟩
    exact ⟨rfl, rfl⟩
  · obtain ⟨hrot, hne⟩ := hpassive call (hrest call (mem_of_getElem? hi))
    exact ⟨hrot, fun r k v h => absurd h (hne r k v)⟩

def readsFlash : RequestOp → Bool
  | .session (.takeFlash _ _) | .session (.flushFlash _) => true
  | _ => false

def quietly (l : Log ServedRes) (i : Nat) : Bool :=
  (l[i]?).all fun ev => (savingOf (l.take i) ev.op.1).isNone || !readsFlash ev.op.2

theorem quiet_of_quietly {l : Log ServedRes}
    (h : (range l.length).all (quietly l) = true) : EachAfter ReadsApart l := by
  refine eachAfter_iff.mpr ?_
  intro i
  have hi := all_eq_true.mp h i (mem_range.mpr i.2)
  rw [quietly, getElem?_eq_getElem i.2, all_some, Bool.or_eq_true, isNone_iff_eq_none] at hi
  rw [ReadsApart, get_eq_getElem]
  rcases hi with hnone | hread
  · rw [hnone]
    exact undisturbed_none _ _
  · unfold Undisturbed
    split
    case h_1 _ _ heq _ =>
      rw [heq] at hread
      cases hread
    case h_2 _ heq _ =>
      rw [heq] at hread
      cases hread
    case h_3 => trivial

end Flashes

set_option maxRecDepth 4000 in
theorem inOrder_once :
    (served Flashes.unlimited Flashes.store Flashes.inOrder).Returned 4 (1, .getFlash Flashes.key)
      (.value (some Flashes.saved)) ∧
    ∀ j call b, (served Flashes.unlimited Flashes.store Flashes.inOrder).Returned j call b →
      b.Holds 1 → j = 4 := by
  have hcalls : (served Flashes.unlimited Flashes.store Flashes.inOrder).threads.map Thread.call =
      [(0, .load Flashes.id), (0, .flash Flashes.key Flashes.saved), (0, .save), (1, .load Flashes.id),
        (1, .getFlash Flashes.key)] := by rfl
  have hplain := Flashes.plain_of_calls hcalls (by simp [Flashes.passive])
  have hread : (served Flashes.unlimited Flashes.store Flashes.inOrder).Returned 4
      (1, .getFlash Flashes.key) (.value (some Flashes.saved)) := by rfl
  refine ⟨hread, ?_⟩
  intro j call b hj hb
  refine flash_once (fun id rec h => (Flashes.lookup_store h).1) hplain.labelled ?_
    (fun i call h => (hplain i call h).1) (Flashes.quiet_of_quietly (by rfl)) hj hb hread rfl
  intro i r key v h
  rw [((hplain i _ h).2 r key v rfl).2]
  decide

set_option maxRecDepth 4000 in
theorem disturbed_twice :
    Labelled Flashes.store (served Flashes.unlimited Flashes.store Flashes.disturbed).callOf ∧
    (∀ i call, (served Flashes.unlimited Flashes.store Flashes.disturbed).callOf i = some call →
      call.2.rotates = false) ∧
    (served Flashes.unlimited Flashes.store Flashes.disturbed).Returned 3 (0, .getFlash Flashes.key)
      (.value (some Flashes.saved)) ∧
    (served Flashes.unlimited Flashes.store Flashes.disturbed).Returned 5 (1, .getFlash Flashes.key)
      (.value (some Flashes.saved)) := by
  have hcalls : (served Flashes.unlimited Flashes.store Flashes.disturbed).threads.map Thread.call =
      [(0, .load Flashes.id), (0, .flash Flashes.key Flashes.saved), (0, .save),
        (0, .getFlash Flashes.key), (1, .load Flashes.id), (1, .getFlash Flashes.key)] := by rfl
  have hplain := Flashes.plain_of_calls hcalls (by simp [Flashes.passive])
  exact ⟨hplain.labelled, fun i call h => (hplain i call h).1, by rfl, by rfl⟩

end Session
