import Velocity.Session.ServerSession

/-! Requests that overlap on one session: each loads the record, changes keys of the data, and saves. A
save writes the request's own changes onto what the record holds then, so the changes of all of them
come together in the record. -/

namespace Session

open Interleave Json Prog Option MemoryStore SessionStep Utf8
open Bytes (ascii)

inductive Change
  | put (key : Bytes) (value : Tree)
  | remove (key : Bytes)
deriving DecidableEq

namespace Change

def key : Change → Bytes
  | put k _ => k
  | remove k => k

def value : Change → Option Tree
  | put _ v => some v
  | remove _ => none

def step : Change → SessionStep
  | put k v => .put k v
  | remove k => .remove k

def apply (data : Bag Tree) : Change → Bag Tree
  | put k v => data.insert k v
  | remove k => data.erase k

theorem lookup_apply (data : Bag Tree) (ch : Change) (k : Bytes) :
    (ch.apply data).lookup k = if k = ch.key then ch.value else data.lookup k := by
  cases ch with
  | put key v => exact FMap.lookup_insert_ite data key k v
  | remove key => exact FMap.lookup_erase_ite data key k

end Change

/-- What a list of changes leaves under a key, or nothing when it does not change the key. -/
def outcome : List Change → Bytes → Option (Option Tree)
  | [], _ => none
  | ch :: rest, k =>
    match outcome rest k with
    | some v => some v
    | none => if k = ch.key then some ch.value else none

def applied (cs : List Change) (data : Bag Tree) : Bag Tree := cs.foldl Change.apply data

theorem lookup_applied (cs : List Change) (data : Bag Tree) (k : Bytes) :
    (applied cs data).lookup k = (outcome cs k).getD (data.lookup k) := by
  induction cs generalizing data with
  | nil => rfl
  | cons ch rest ih =>
    have hrest := ih (ch.apply data)
    rw [applied, List.foldl_cons]
    rw [applied] at hrest
    rw [hrest, Change.lookup_apply, outcome]
    cases outcome rest k with
    | some v => rfl
    | none =>
      split <;> rfl

/-! One request, alone with its session. -/

inductive SharedOp
  | store (o : StoreOp RecordPayload)
  | clock

abbrev SharedRes : SharedOp → Type
  | .store o => StoreRes o
  | .clock => Int

/-- Nobody else has the session: others see only the store and the clock. -/
def solo (s : ServerSession) : (o : RequestOp) → Prog SharedRes (RequestRes o × ServerSession)
  | .session step => .ret (s, step.apply s)
  | .store o => .call (.store o) fun r => .ret (r, s)
  | .clock => .call .clock fun now => .ret (now, s)
  | .hold s' => .ret ((), s')

def makeChanges : List Change → RequestProg Unit
  | [] => return ()
  | ch :: rest => do
    let _ ← ch.step.run
    makeChanges rest

inductive VisitReply
  /-- The request got a fresh session. -/
  | refused
  | saved
  | failed (e : Option SaveErr)
deriving DecidableEq

/-- A request that loads the session, changes keys of its data, and saves it. -/
def visit (c : SessionConfig) (id : Bytes) (cs : List Change) : RequestProg VisitReply := do
  match ← loadSession c id with
  | .fresh _ _ => return .refused
  | .session s =>
    let _ ← (Prog.perform (RequestOp.hold s) : RequestProg Unit)
    makeChanges cs
    match ← save c with
    | some (.ok _) => return .saved
    | some (.error e) => return .failed (some e)
    | none => return .failed none

def ServerSession.blank : ServerSession :=
  ⟨[], ∅, ∅, false, false, [], 0, 0, none, ∅, 0, false⟩

def visits (c : SessionConfig) (id : Bytes) :
    System SharedRes Records Int (List Change) VisitReply where
  body cs := (visit c id cs).interpret solo .blank >>= fun r => return r.1
  exec m now
    | .store o => m.exec now o
    | .clock => (now, m)

theorem makeChanges_solo (cs : List Change) (s : ServerSession) :
    (makeChanges cs).interpret solo s = .ret ((), { s with
      data := applied cs s.data, modified := s.modified || !cs.isEmpty }) := by
  induction cs generalizing s with
  | nil => simp [makeChanges, interpret, applied]
  | cons ch rest ih =>
    have hstep : (makeChanges (ch :: rest)).interpret solo s =
        (makeChanges rest).interpret solo (ch.step.apply s) := rfl
    rw [hstep, ih]
    cases ch with
    | put k v => simp [Change.step, apply, applied, Change.apply]
    | remove k => simp [Change.step, apply, applied, Change.apply]

/-! What a save does to the data section. -/

structure ShapedChanges (cs : List Change) : Prop where
  key : ∀ k, outcome cs k ≠ none → Utf8.repair k = k
  value : ∀ k v, outcome cs k = some (some v) → v.reread = some v

/-- Changes of JSON-shaped keys, which the payload holds in that shape, and no other that is read as
one. -/
structure JsonShaped (data : Bag Tree) (cs : List Change) : Prop extends ShapedChanges cs where
  held : ∀ k v, outcome cs k ≠ none → data.lookup k = some v → v.reread = some v
  single : ∀ k k₀ v, outcome cs k ≠ none → data.lookup k₀ = some v → Utf8.repair k₀ = k → k₀ = k

variable {cs : List Change} {stored : Bag Tree} {k : Bytes} {ch : Change}

theorem lookup_encoded {base now : Bag Tree} (hcs : ShapedChanges cs)
    (hbase : rereadMap Tree.reread stored = some base)
    (hnow : rereadMap Tree.reread (applied cs base) = some now) (k : Bytes) :
    now.lookup k = (outcome cs k).getD (base.lookup k) := by
  have hvalid : ∀ k₀ v, (applied cs base).lookup k₀ = some v → repair k₀ = k₀ := by
    intro k₀ v hv
    rw [lookup_applied] at hv
    cases hout : outcome cs k₀ with
    | some _ => exact hcs.key k₀ (by simp [hout])
    | none =>
      rw [hout] at hv
      exact repair_of_rereadMap hbase hv
  by_cases hk : repair k = k
  · have halone : ∀ k₀ v, (applied cs base).lookup k₀ = some v → repair k₀ = k → k₀ = k := by
      intro k₀ v hv hread
      rw [← hread]
      exact (hvalid k₀ v hv).symm
    rw [lookup_rereadMap_of_alone hnow hk halone, lookup_applied]
    cases hout : outcome cs k with
    | none =>
      cases hv : base.lookup k with
      | none => rfl
      | some v =>
        obtain ⟨-, v₀, -, -, hv₀⟩ := lookup_rereadMap hbase hv
        exact Tree.reread_reread _ _ hv₀
    | some v =>
      cases v with
      | none => rfl
      | some v => exact hcs.value k v hout
  · have hout : outcome cs k = none := by
      by_contra hne
      exact hk (hcs.key k hne)
    have hnone : ∀ {m m' : Bag Tree}, rereadMap Tree.reread m = some m' → m'.lookup k = none := by
      intro m m' hm
      apply eq_none_iff_forall_ne_some.mpr
      intro v hv
      exact hk (repair_of_rereadMap hm hv)
    rw [hnone hnow, hout, getD_none, hnone hbase]

def Merges (cs : List Change) (base : Bag Tree) (update : RecordPayload → Option RecordPayload) : Prop :=
  ∀ cur, ∃ cur', update cur = some cur' ∧ ∀ k, cur'.data.lookup k =
    match outcome cs k with
    | none => cur.data.lookup k
    | some v => if base.lookup k = v then cur.data.lookup k else v

theorem merges_mergeUpdate {base now : RecordPayload}
    (hcs : ShapedChanges cs) (hbase : rereadMap Tree.reread stored = some base.data)
    (hnow : rereadMap Tree.reread (applied cs base.data) = some now.data) (own : List Bytes) :
    Merges cs base.data fun p => some (mergeUpdate base now own p) := by
  intro cur
  refine ⟨mergeUpdate base now own cur, rfl, ?_⟩
  intro k
  have hencoded := lookup_encoded hcs hbase hnow k
  show (applyChanges _ cur.data base.data now.data).lookup k = _
  cases hout : outcome cs k with
  | none =>
    rw [hout] at hencoded
    exact lookup_applyChanges_of_same (by simp) cur.data hencoded
  | some v =>
    rw [hout] at hencoded
    rw [lookup_applyChanges, hencoded]
    cases v with
    | none | some v => cases base.data.lookup k <;> simp

/-! How far a request has come. -/

inductive VisitPhase
  | begun
  | read (rec : SessionRecord)
  | written
  /-- The load or the save failed. -/
  | gone

def VisitPhase.next (p : VisitPhase) : (o : SharedOp) → SharedRes o → VisitPhase
  | .clock, _ => p
  | .store (.get _), .ok rec => .read rec
  | .store (.updateData _ _ _ _), (.ok _, _) => .written
  | .store _, _ => .gone

def VisitPhase.may (p : VisitPhase) (id : Bytes) (cs : List Change) : SharedOp → Prop
  | .clock => True
  | .store (.get k) => k = id ∧ p = .begun
  | .store (.deleteIf k _) => k = id ∧ ∃ rec, p = .read rec
  | .store (.updateData k update _ _) => ∃ rec base, p = .read rec ∧ k = rec.id ∧
      decodeRecordPayload rec.data = some base ∧ (ShapedChanges cs → Merges cs base.data update)
  | .store _ => False

def visiting (id : Bytes) (cs : List Change) : Monitor SharedRes where
  State := VisitPhase
  init := .begun
  allowed _ _ := True
  guard p o _ := p.may id cs o
  next := VisitPhase.next

def visitEnds (cs : List Change) (reply : VisitReply) (p : VisitPhase) : Prop :=
  reply = .saved → p = .written ∨ cs = [] ∧ ∃ rec, p = .read rec

theorem inTurn_solo {α : Type} (p : RequestProg α) {s : ServerSession} (h : s.busy = false) :
    (inTurn p).interpret solo s = p.interpret solo { s with busy := true } >>= fun r =>
      .ret (some r.1, { r.2 with busy := false }) := by
  have hbody : (inTurn p).interpret solo s = (p >>= fun a => do
      let _ ← endTurn.run
      return some a).interpret solo { s with busy := true } := by
    show (if s.busy then _ else _ : RequestProg (Option α)).interpret solo _ = _
    rw [h]
    rfl
  rw [hbody, interpret_bind]
  rfl

section Wp

variable {c : SessionConfig} {id : Bytes} {rec : SessionRecord}
  {base : RecordPayload} {s : ServerSession}

open VisitPhase

theorem writeOrMove_visiting {v : Saving} (hid : v.snap.savedID = v.id) (hrec : v.id = rec.id)
    (hbase : decodeRecordPayload rec.data = some base)
    (hupdate : ShapedChanges cs → Merges cs base.data fun p => some (v.update v.id p)) :
    ((v.writeOrMove c).interpret solo s).wp (visiting id cs) (read rec)
      fun r p => ∀ reply, r.1 = .ok reply → p = written := by
  rw [Saving.writeOrMove_of_same c hid]
  intro r _
  refine ⟨⟨rec, base, rfl, hrec, hbase, hupdate⟩, ?_⟩
  obtain ⟨r, -⟩ := r
  cases r with
  | ok _ =>
    exact fun _ _ => rfl
  | error e =>
    show ((if e = .notFound ∧ v.id ≠ v.id then _ else _ : RequestProg _).interpret solo s).wp
      (visiting id cs) gone _
    rw [if_neg (fun h => h.2 rfl)]
    exact nofun

/-- A session as it was loaded from a record, under the changes of its request. -/
structure LoadedFrom (rec : SessionRecord) (base : RecordPayload) (cs : List Change)
    (s : ServerSession) : Prop where
  id : s.id = rec.id
  savedID : s.savedID = rec.id
  loaded : s.loaded = some base
  data : s.data = applied cs base.data
  destroyed : s.destroyed = false

theorem write_solo (hid : s.id ≠ []) : (write c).interpret solo s = .call .clock fun now =>
    (match encodeRecordPayload s.data s.flash with
      | none => .ret (.error .encode)
      | some payload => Saving.writeOrMove c ⟨s.saveBase, s.id,
          if s.saveBase.createdAt = 0 then now else s.saveBase.createdAt, now, payload⟩ :
      RequestProg _).interpret solo s := by
  show (if s.id = [] then _ else _ : RequestProg _).interpret solo s = _
  rw [if_neg hid]
  rfl

theorem write_visiting (hs : LoadedFrom rec base cs s)
    (hbase : decodeRecordPayload rec.data = some base) :
    ((write c).interpret solo s).wp (visiting id cs) (read rec)
      fun r p => ∀ reply, r.1 = .ok reply → p = written := by
  by_cases hid : s.id = []
  · show ((if s.id = [] then _ else _ : RequestProg _).interpret solo s).wp (visiting id cs) _ _
    rw [if_pos hid]
    exact nofun
  · rw [write_solo hid]
    intro now _
    refine ⟨trivial, ?_⟩
    cases hpayload : encodeRecordPayload s.data s.flash with
    | none =>
      exact nofun
    | some payload =>
      have hencoded := encodeRecordPayload_eq_some.mp hpayload
      have hdecoded := encodeRecordPayload_eq_some.mp hbase
      apply writeOrMove_visiting (hs.savedID.trans hs.id.symm) hs.id hbase
      intro hcs
      rw [hs.data] at hencoded
      have hmerge := merges_mergeUpdate hcs hdecoded.1 hencoded.1 s.flashLocal.keys
      simpa [Saving.update, ServerSession.saveBase, apply, hs.loaded] using hmerge

theorem save_visiting (hs : LoadedFrom rec base cs s) (hbusy : s.busy = false)
    (hmodified : cs ≠ [] → s.modified = true) (hbase : decodeRecordPayload rec.data = some base) :
    ((save c).interpret solo s).wp (visiting id cs) (read rec)
      fun r p => ∀ reply, r.1 = some (.ok reply) →
        p = written ∨ cs = [] ∧ ∃ rec, p = read rec := by
  rw [save, inTurn_solo _ hbusy]
  refine wp_bind_of (P := fun r p => ∀ reply, r.1 = .ok reply →
    p = written ∨ cs = [] ∧ ∃ rec, p = read rec) ?_ ?_
  · show ((if s.destroyed then _ else _ : RequestProg _).interpret solo _).wp (visiting id cs) _ _
    rw [if_neg (by simp [hs.destroyed])]
    show ((if !s.modified then _ else _ : RequestProg _).interpret solo { s with busy := true }).wp
      (visiting id cs) _ _
    by_cases hmod : s.modified = true
    · rw [if_neg (by simp [hmod])]
      show ((write c >>= _).interpret solo { s with busy := true, modified := false }).wp _ _ _
      rw [interpret_bind]
      have hs' : LoadedFrom rec base cs { s with busy := true, modified := false } :=
        ⟨hs.id, hs.savedID, hs.loaded, hs.data, hs.destroyed⟩
      refine wp_bind_of (write_visiting hs' hbase) ?_
      rintro ⟨r, s'⟩ p hr
      cases r with
      | ok reply => exact fun _ _ => .inl (hr reply rfl)
      | error e =>
        exact nofun
    · have hempty : cs = [] := by
        by_contra hne
        exact hmod (hmodified hne)
      rw [if_pos (by simpa using hmod)]
      exact fun _ _ => .inr ⟨hempty, rec, rfl⟩
  · rintro ⟨r, s'⟩ p hr reply hreply
    exact hr reply (by simpa using hreply)

theorem visit_visiting (cs : List Change) :
    ((visits c id).body cs).wp (visiting id cs) begun (visitEnds cs) := by
  have hrefused : ∀ p, visitEnds cs .refused p := by
    exact nofun
  show ((visit c id cs).interpret solo .blank >>= _).wp (visiting id cs) _ _
  rw [visit, interpret_bind, bind_bind, loadSession]
  split
  · exact hrefused _
  · intro r _
    refine ⟨⟨rfl, rfl⟩, ?_⟩
    cases r with
    | error e => exact hrefused _
    | ok rec =>
      intro now _
      refine ⟨trivial, ?_⟩
      show ((if c.ended rec.createdAt rec.lastSeenAt now then _ else _ : RequestProg _).interpret solo
        .blank >>= _).wp (visiting id cs) (read rec) _
      split
      · intro now' _
        refine ⟨trivial, ?_⟩
        intro r _
        exact ⟨⟨rfl, rec, rfl⟩, hrefused _⟩
      · cases hbase : decodeRecordPayload rec.data with
        | none => exact hrefused _
        | some base =>
          show (((makeChanges cs >>= fun _ => save c >>= _ : RequestProg _).interpret solo _) >>= _).wp
            (visiting id cs) (read rec) _
          rw [interpret_bind, makeChanges_solo]
          show ((save c >>= _).interpret solo _ >>= _).wp (visiting id cs) (read rec) _
          rw [interpret_bind, bind_bind]
          refine wp_bind_of (save_visiting ⟨rfl, rfl, rfl, rfl, rfl⟩ rfl ?_ hbase) ?_
          · intro hne
            cases cs with
            | nil => exact absurd rfl hne
            | cons ch rest => simp
          · rintro ⟨r, s'⟩ p hr
            rcases r with _ | e | reply
            · exact nofun
            · exact nofun
            · exact fun _ => hr reply rfl

end Wp

def phaseAt (l : Log SharedRes) (i : Nat) : VisitPhase := (visiting [] []).stateOf l i

theorem visiting_stateOf (id : Bytes) (cs : List Change) (l : Log SharedRes) (i : Nat) :
    (visiting id cs).stateOf l i = phaseAt l i := rfl

theorem phaseAt_concat (l : Log SharedRes) (ev : Event SharedRes) (i : Nat) :
    phaseAt (l ++ [ev]) i = if ev.tid = i then (phaseAt l i).next ev.op ev.res else phaseAt l i :=
  Monitor.stateOf_concat _ l ev i

def visited (c : SessionConfig) (m : Records) (id : Bytes) (acts : List (Act Int (List Change))) :
    Pool SharedRes Records (List Change) VisitReply :=
  (visits c id).run (Pool.start m) acts

def DisjointKeys (calls : Nat → Option (List Change)) : Prop :=
  ∀ i j cs ds k, calls i = some cs → calls j = some ds → i ≠ j → outcome cs k ≠ none →
    outcome ds k = none

section Run

variable {rec₀ : SessionRecord} {calls : Nat → Option (List Change)}
  {w w' : Records} {l : Log SharedRes} {i : Nat} {id : Bytes}

structure Merging (rec₀ : SessionRecord) (calls : Nat → Option (List Change))
    (w : Records) (l : Log SharedRes) : Prop where
  id : ∀ rec, w.byID.lookup rec₀.id = some rec → rec.id = rec₀.id
  untouched : ∀ rec k, w.byID.lookup rec₀.id = some rec →
    (∀ j ds, calls j = some ds → phaseAt l j = .written → outcome ds k = none) →
    rec.data.data.lookup k = rec₀.data.data.lookup k
  changed : ∀ rec k j ds v, w.byID.lookup rec₀.id = some rec → calls j = some ds →
    phaseAt l j = .written → outcome ds k = some v → rec.data.data.lookup k = v
  read : ∀ j rec k, phaseAt l j = .read rec →
    rec.id = rec₀.id ∧ ((∀ i cs, calls i = some cs → i ≠ j → outcome cs k = none) →
      rec.data.data.lookup k = rec₀.data.data.lookup k)
  gone : w.byID.lookup rec₀.id = none → ∃ j, phaseAt l j = .gone

variable (h : Merging rec₀ calls w l)

include h

/-- A step at which no request writes, seen by the request that makes it. -/
theorem Merging.step {ev : Event SharedRes}
    (hsub : ∀ s, w'.byID.lookup rec₀.id = some s → w.byID.lookup rec₀.id = some s)
    (hold : phaseAt l ev.tid ≠ .written) (hnew : (phaseAt l ev.tid).next ev.op ev.res ≠ .written)
    (hread : ∀ rec k, (phaseAt l ev.tid).next ev.op ev.res = .read rec →
      rec.id = rec₀.id ∧ ((∀ i cs, calls i = some cs → i ≠ ev.tid → outcome cs k = none) →
        rec.data.data.lookup k = rec₀.data.data.lookup k))
    (hgone : w'.byID.lookup rec₀.id = none → (phaseAt l ev.tid).next ev.op ev.res = .gone) :
    Merging rec₀ calls w' (l ++ [ev]) := by
  have hwritten : ∀ j, phaseAt (l ++ [ev]) j = .written ↔ phaseAt l j = .written := by
    intro j
    rw [phaseAt_concat]
    split
    case isTrue hij =>
      subst hij
      simp [hold, hnew]
    case isFalse => rfl
  refine ⟨fun rec hrec => h.id rec (hsub _ hrec), ?_, ?_, ?_, ?_⟩
  · intro rec k hrec hk
    refine h.untouched rec k (hsub _ hrec) ?_
    intro j ds hj hw
    exact hk j ds hj ((hwritten j).mpr hw)
  · intro rec k j ds v hrec hj hw
    exact h.changed rec k j ds v (hsub _ hrec) hj ((hwritten j).mp hw)
  · intro j rec k hphase
    rw [phaseAt_concat] at hphase
    split at hphase
    case isTrue hij =>
      subst hij
      exact hread rec k hphase
    case isFalse => exact h.read j rec k hphase
  · intro hnone
    exact ⟨ev.tid, by rw [phaseAt_concat, if_pos rfl, hgone hnone]⟩

theorem Merging.fail {o : SharedOp} {r : SharedRes o} (hphase : (phaseAt l i).next o r = .gone)
    (hsub : ∀ k s, w'.byID.lookup k = some s → w.byID.lookup k = some s)
    (hbegun : phaseAt l i ≠ .written) : Merging rec₀ calls w' (l ++ [⟨i, o, r⟩]) := by
  refine h.step (hsub _) hbegun ?_ ?_ fun _ => hphase
  · simp [hphase]
  · simp [hphase]

theorem Merging.clock (now : Int) : Merging rec₀ calls w (l ++ [⟨i, .clock, now⟩]) := by
  have hat : ∀ j, phaseAt (l ++ [⟨i, .clock, now⟩]) j = phaseAt l j := by
    intro j
    rw [phaseAt_concat]
    split <;> rfl
  obtain ⟨hid, huntouched, hchanged, hread, hgone⟩ := h
  refine ⟨hid, ?_, ?_, ?_, ?_⟩
  · simpa only [hat] using huntouched
  · simpa only [hat] using hchanged
  · simpa only [hat] using hread
  · simpa only [hat] using hgone

variable {rec : SessionRecord}

theorem Merging.load (hbegun : phaseAt l i = .begun) (hrec : w.byID.lookup rec₀.id = some rec)
    : Merging rec₀ calls w (l ++ [⟨i, .store (.get id), .ok rec⟩]) := by
  refine h.step (fun _ hs => hs) (by simp [hbegun]) (by simp [VisitPhase.next]) ?_ ?_
  · rintro _ k ⟨rfl⟩
    refine ⟨h.id rec hrec, ?_⟩
    intro hothers
    apply h.untouched rec k hrec
    intro j ds hj hw
    by_cases hne : j = i
    · rw [hne, hbegun] at hw
      cases hw
    · exact hothers j ds hj hne
  · intro hnone
    rw [hrec] at hnone
    cases hnone

variable (hdisjoint : DisjointKeys calls)
  (hshaped : ∀ j ds, calls j = some ds → JsonShaped rec₀.data.data ds) (hcs : calls i = some cs)
  {base : RecordPayload} (hread : phaseAt l i = .read rec)
  (hbase : decodeRecordPayload rec.data = some base)

include hdisjoint hshaped hcs hread hbase

theorem Merging.loaded (hk : outcome cs k ≠ none) :
    base.data.lookup k = rec₀.data.data.lookup k := by
  have hshape := hshaped i cs hcs
  have hvalid := hshape.key k hk
  have hown : rec.data.data.lookup k = rec₀.data.data.lookup k := by
    apply (h.read i rec k hread).2
    intro j ds hj hne
    exact hdisjoint i j cs ds k hcs hj hne.symm hk
  have halone : ∀ k₀ v, rec.data.data.lookup k₀ = some v → repair k₀ = k → k₀ = k := by
    intro k₀ v hv hreads
    by_contra hne
    -- A key that is read as another one is not valid, and nobody changes it.
    have hothers : ∀ j ds, calls j = some ds → j ≠ i → outcome ds k₀ = none := by
      intro j ds hj _
      by_contra hout
      have hkey := (hshaped j ds hj).key k₀ hout
      exact hne (hkey.symm.trans hreads)
    rw [(h.read i rec k₀ hread).2 hothers] at hv
    exact hne (hshape.single k k₀ v hk hv hreads)
  rw [lookup_rereadMap_of_alone (encodeRecordPayload_eq_some.mp hbase).1 hvalid halone, hown]
  cases hv : rec₀.data.data.lookup k with
  | none => rfl
  | some v => exact hshape.held k v hk hv

theorem Merging.write {cur cur' : SessionRecord}
    (hcur : w.byID.lookup rec₀.id = some cur) (hcur' : w'.byID.lookup rec₀.id = some cur')
    (hid : cur'.id = cur.id) {update : RecordPayload → Option RecordPayload}
    (hmerges : Merges cs base.data update) (hupdate : update cur.data = some cur'.data)
    {lastSeen expiresAt : Int} {ran : Option RecordPayload} : Merging rec₀ calls w'
      (l ++ [⟨i, .store (.updateData id update lastSeen expiresAt), (.ok (), ran)⟩]) := by
  have hat : ∀ j, phaseAt (l ++
      [⟨i, .store (.updateData id update lastSeen expiresAt), (.ok (), ran)⟩]) j =
      if i = j then .written else phaseAt l j := by
    intro j
    rw [phaseAt_concat]
    rfl
  have hself := hat i
  rw [if_pos rfl] at hself
  have hmerged : ∀ k, cur'.data.data.lookup k =
      match outcome cs k with
      | none => cur.data.data.lookup k
      | some v => if base.data.lookup k = v then cur.data.data.lookup k else v := by
    obtain ⟨data, hdata, hlookup⟩ := hmerges cur.data
    rw [hupdate] at hdata
    rw [some.inj hdata]
    exact hlookup
  have hkept : ∀ j ds, phaseAt l j = .written → calls j = some ds → j ≠ i := by
    rintro j ds hw - rfl
    rw [hread] at hw
    cases hw
  refine ⟨?_, ?_, ?_, ?_, ?_⟩
  · intro r hr
    obtain rfl := some.inj (hcur'.symm.trans hr)
    exact hid.trans (h.id cur hcur)
  · intro r k hr hk
    obtain rfl := some.inj (hcur'.symm.trans hr)
    rw [hmerged k, hk i cs hcs hself]
    apply h.untouched cur k hcur
    intro j ds hj hw
    apply hk j ds hj
    rw [hat, if_neg (hkept j ds hw hj).symm]
    exact hw
  · intro r k j ds v hr hj hw hout
    obtain rfl := some.inj (hcur'.symm.trans hr)
    rw [hmerged k]
    rw [hat] at hw
    split at hw
    case isTrue hij =>
      subst hij
      obtain rfl := some.inj (hcs.symm.trans hj)
      have hne : outcome cs k ≠ none := by simp [hout]
      have hstart := h.loaded hdisjoint hshaped hcs hread hbase hne
      have hnow : cur.data.data.lookup k = rec₀.data.data.lookup k := by
        apply h.untouched cur k hcur
        intro j' ds' hj' hw'
        exact hdisjoint i j' cs ds' k hcs hj' (hkept j' ds' hw' hj').symm hne
      rw [hout]
      simp only
      split
      case isTrue heq => rw [hnow, ← hstart, heq]
      case isFalse => rfl
    case isFalse hij =>
      have hother := hdisjoint j i ds cs k hj hcs (fun h => hij h.symm) (by simp [hout])
      rw [hother]
      exact h.changed cur k j ds v hcur hj hw hout
  · intro j r k hr
    rw [hat] at hr
    split at hr
    · cases hr
    · exact h.read j r k hr
  · intro hnone
    rw [hcur'] at hnone
    cases hnone

end Run

theorem merging_run {c : SessionConfig} {m : Records}
    {rec₀ : SessionRecord} (hm : m.byID.lookup rec₀.id = some rec₀)
    {acts : List (Act Int (List Change))}
    (hdisjoint : DisjointKeys (visited c m rec₀.id acts).callOf)
    (hshaped : ∀ j ds, (visited c m rec₀.id acts).callOf j = some ds → JsonShaped rec₀.data.data ds) :
    Merging rec₀ (visited c m rec₀.id acts).callOf (visited c m rec₀.id acts).world
      (visited c m rec₀.id acts).log := by
  set p := visits c rec₀.id
  have hbody : ∀ cs, (p.body cs).wp (visiting rec₀.id cs) (visiting rec₀.id cs).init
      (visitEnds cs) := visit_visiting
  refine p.judged_invariant_of (J := fun _ => True) (fun _ _ _ _ => trivial) hbody
    (fun _ _ _ _ _ => trivial) trivial ?_ ?_
  · refine ⟨?_, ?_, ?_, ?_, ?_⟩
    · intro rec hrec
      obtain rfl := some.inj (hm.symm.trans hrec)
      rfl
    · intro rec k hrec _
      obtain rfl := some.inj (hm.symm.trans hrec)
      rfl
    · exact nofun
    · exact nofun
    · intro hnone
      rw [hm] at hnone
      cases hnone
  · rintro before after hacts _ rfl i now cs o hI hcall hguard
    have hcs : (visited c m rec₀.id acts).callOf i = some cs := by
      rw [visited, hacts, System.run_append]
      exact p.callOf_run_of_some hcall after
    generalize (p.run (Pool.start m) before).world = w at *
    generalize (p.run (Pool.start m) before).log = l at *
    cases o with
    | clock => exact hI.clock now
    | store o =>
      cases o with
      | get id =>
        obtain ⟨rfl, hbegun⟩ := hguard
        rw [visiting_stateOf] at hbegun
        show Merging rec₀ _ (w.find now rec₀.id).2
          (l ++ [⟨i, .store (.get rec₀.id), (w.find now rec₀.id).1⟩])
        rcases w.find_cases now rec₀.id with ⟨s, hs, hfind⟩ | ⟨-, e, w', -, hfind, -, hsub⟩
        · rw [hfind]
          exact hI.load hbegun (live_eq_some.mp hs).1
        · rw [hfind]
          exact hI.fail rfl hsub (by rw [hbegun]; simp)
      | deleteIf id cond =>
        obtain ⟨rfl, rec, hread⟩ := hguard
        rw [visiting_stateOf] at hread
        exact hI.fail rfl (fun _ _ => lookup_of_deleteIf) (by rw [hread]; simp)
      | updateData id update lastSeen expiresAt =>
        obtain ⟨rec, base, hread, hid, hbase, hmerges⟩ := hguard
        rw [visiting_stateOf] at hread
        have hid' : id = rec₀.id := hid.trans (hI.read i rec [] hread).1
        show Merging rec₀ _ (w.updateData now id update lastSeen expiresAt).2
          (l ++ [⟨i, .store (.updateData id update lastSeen expiresAt),
            ((w.updateData now id update lastSeen expiresAt).1, _)⟩])
        rcases w.updateData_cases now id update lastSeen expiresAt with
          ⟨cur, data, seen, expires, hlive, hupdate, hdone⟩ | ⟨e, hfail, hsub⟩
        · have hcur : w.byID.lookup rec₀.id = some cur := by
            rw [← hid']
            exact (live_eq_some.mp hlive).1
          let cur' := { cur with data := data, lastSeenAt := seen, expiresAt := expires }
          have hcur' : (w.insert cur').byID.lookup rec₀.id = some cur' := by
            rw [lookup_insert, if_pos (hI.id cur hcur).symm]
          rw [hdone]
          exact hI.write hdisjoint hshaped hcs hread hbase hcur hcur' rfl
            (hmerges (hshaped i cs hcs).toShapedChanges) hupdate
        · rw [hfail]
          exact hI.fail rfl hsub (by rw [hread]; simp)
      | _ => exact hguard.elim

/-- Each key that a request changed holds what it left there, and each other key what the payload
held. -/
theorem saves_merge (c : SessionConfig) (m : MemoryStore RecordPayload)
    (rec₀ : StoredSession RecordPayload) (hm : m.byID.lookup rec₀.id = some rec₀)
    (acts : List (Act Int (List Change)))
    (hdisjoint : DisjointKeys (visited c m rec₀.id acts).callOf)
    (hshaped : ∀ i cs, (visited c m rec₀.id acts).callOf i = some cs → JsonShaped rec₀.data.data cs)
    (hsaved : ∀ i cs, (visited c m rec₀.id acts).callOf i = some cs →
      (visited c m rec₀.id acts).Returned i cs .saved) :
    ∃ rec, (visited c m rec₀.id acts).world.byID.lookup rec₀.id = some rec ∧
      (∀ i cs k v, (visited c m rec₀.id acts).callOf i = some cs → outcome cs k = some v →
        rec.data.data.lookup k = v) ∧
      ∀ k, (∀ i cs, (visited c m rec₀.id acts).callOf i = some cs → outcome cs k = none) →
        rec.data.data.lookup k = rec₀.data.data.lookup k := by
  set p := visited c m rec₀.id acts
  have hmerging := merging_run hm hdisjoint hshaped
  have hjudged : System.Judged (visiting rec₀.id) visitEnds p :=
    (visits c rec₀.id).judged_run visit_visiting (fun _ _ _ _ => trivial) m acts
  have hended : ∀ i cs, p.callOf i = some cs →
      phaseAt p.log i = .written ∨ cs = [] ∧ ∃ rec, phaseAt p.log i = .read rec := by
    intro i cs hcs
    exact hjudged.returned (hsaved i cs hcs) rfl
  have hheld : p.world.byID.lookup rec₀.id ≠ none := by
    intro hnone
    obtain ⟨j, hj⟩ := hmerging.gone hnone
    cases hcall : p.callOf j with
    | none =>
      have hlen : p.threads.length ≤ j := by
        simpa [Pool.callOf] using hcall
      have hbegun : phaseAt p.log j = .begun :=
        System.stateOf_eq_init_of_le fun ev hev => (hjudged.tid_lt ev hev).trans_le hlen
      rw [hbegun] at hj
      cases hj
    | some ds =>
      rcases hended j ds hcall with hw | ⟨-, rec, hr⟩
      · rw [hw] at hj
        cases hj
      · rw [hr] at hj
        cases hj
  obtain ⟨rec, hrec⟩ := ne_none_iff_exists'.mp hheld
  refine ⟨rec, hrec, ?_, ?_⟩
  · intro i cs k v hcs hout
    rcases hended i cs hcs with hw | ⟨rfl, -⟩
    · exact hmerging.changed rec k i cs v hrec hcs hw hout
    · cases hout
  · intro k hk
    exact hmerging.untouched rec k hrec fun j ds hj _ => hk j ds hj

/-! Two requests that both load the record before either saves. -/

def sharedID : Bytes := ascii "AAAAAAAAAAAAAAAAAAAAAAAAAAAAAAAAAAAAAAAAAAA="

def monthly : SessionConfig := ⟨0, 0, 0⟩

def sharedRecord : SessionRecord :=
  ⟨sharedID, ascii "7",
    ⟨((∅ : Bag Tree).insert (ascii "lang") (.text (ascii "en"))).insert (ascii "cart")
      (.bool true), ∅⟩, 1, 1, 0, [], []⟩

def sharedStore : Records := MemoryStore.empty.insert sharedRecord

def langTo : List Change := [.put (ascii "lang") (.text (ascii "fr"))]

def cartGone : List Change := [.remove (ascii "cart")]

def overlapping : List (Act Int (List Change)) :=
  [.spawn langTo, .spawn cartGone, .run 0 2, .run 1 2, .run 0 2, .run 1 2, .run 0 3, .run 1 3, .run 1 3,
    .run 0 3]

theorem overlapping_calls {i : Nat}
    (h : (visited monthly sharedStore sharedID overlapping).callOf i = some cs) :
    i = 0 ∧ cs = langTo ∨ i = 1 ∧ cs = cartGone := by
  match i, h with
  | 0, h => exact .inl ⟨rfl, (some.inj h).symm⟩
  | 1, h => exact .inr ⟨rfl, (some.inj h).symm⟩

theorem outcome_single {v : Option Tree} (h : outcome [ch] k = some v) :
    k = ch.key ∧ v = ch.value := by
  simp only [outcome] at h
  split at h
  case isTrue hk => exact ⟨hk, (some.inj h).symm⟩
  case isFalse => cases h

theorem jsonShaped_single {data : Bag Tree} (hkey : repair ch.key = ch.key)
    (hvalue : ∀ v, ch.value = some v → v.reread = some v)
    (hheld : ∀ v, data.lookup ch.key = some v → v.reread = some v)
    (hvalid : ∀ k ∈ data.keys, repair k = k) : JsonShaped data [ch] := by
  have hk : ∀ k, outcome [ch] k ≠ none → k = ch.key := by
    intro k h
    obtain ⟨v, hv⟩ := ne_none_iff_exists'.mp h
    exact (outcome_single hv).1
  refine ⟨⟨?_, ?_⟩, ?_, ?_⟩
  · intro k h
    rw [hk k h]
    exact hkey
  · intro k v h
    exact hvalue v (outcome_single h).2.symm
  · intro k v h hv
    rw [hk k h] at hv
    exact hheld v hv
  · intro k k₀ v h hv hread
    have hmem : k₀ ∈ data.keys := AList.lookup_isSome.mp (by rw [hv]; rfl)
    rw [← hread]
    exact (hvalid k₀ hmem).symm

theorem overlapping_merge : ∃ rec,
    (visited monthly sharedStore sharedID overlapping).world.byID.lookup sharedID = some rec ∧
      rec.data.data.lookup (Bytes.ascii "lang") = some (.text (Bytes.ascii "fr")) ∧
      rec.data.data.lookup (Bytes.ascii "cart") = none := by
  set p := visited monthly sharedStore sharedID overlapping
  have hdisjoint : DisjointKeys p.callOf := by
    intro i j cs ds k hi hj hij hout
    obtain ⟨v, hv⟩ := ne_none_iff_exists'.mp hout
    rcases overlapping_calls hi with ⟨rfl, rfl⟩ | ⟨rfl, rfl⟩ <;>
      rcases overlapping_calls hj with ⟨rfl, rfl⟩ | ⟨rfl, rfl⟩
    · exact absurd rfl hij
    · rw [(outcome_single hv).1]
      rfl
    · rw [(outcome_single hv).1]
      rfl
    · exact absurd rfl hij
  have hshaped : ∀ i cs, p.callOf i = some cs → JsonShaped sharedRecord.data.data cs := by
    intro i cs hi
    have hvalid : ∀ k ∈ sharedRecord.data.data.keys, repair k = k := by decide
    rcases overlapping_calls hi with ⟨rfl, rfl⟩ | ⟨rfl, rfl⟩
    · refine jsonShaped_single (by decide) ?_ ?_ hvalid
      · rintro v ⟨⟩
        rfl
      · rintro v ⟨⟩
        rfl
    · refine jsonShaped_single (by decide) ?_ ?_ hvalid
      · rintro v ⟨⟩
      · rintro v ⟨⟩
        rfl
  have hsaved : ∀ i cs, p.callOf i = some cs → p.Returned i cs .saved := by
    intro i cs hi
    rcases overlapping_calls hi with ⟨rfl, rfl⟩ | ⟨rfl, rfl⟩
    · rfl
    · rfl
  obtain ⟨rec, hrec, hchanged, -⟩ := saves_merge monthly sharedStore sharedRecord rfl overlapping
    hdisjoint hshaped hsaved
  exact ⟨rec, hrec, hchanged 0 langTo _ _ rfl rfl, hchanged 1 cartGone _ _ rfl rfl⟩

end Session
