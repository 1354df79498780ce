import Velocity.Session.ServerSession

/-! Requests that share a record store, each with several goroutines on its session. The transitions
of a session take turns; what a goroutine does at each point of its transition is followed here. -/

namespace Session

open Interleave Json Prog

inductive RequestCall
  | load (id : Bytes)
  | flash (key : Bytes) (value : Flashed)
  | getFlash (key : Bytes)
  | flushFlash
  | clear
  | save
  | put (key : Bytes) (value : Tree)
  | remove (key : Bytes)
  /-- The id is missing where none could be made. -/
  | regenerate (id : Option Bytes)
  | invalidate (id : Option Bytes)

inductive RequestReply
  | done
  | waiting
  | fresh
  | value (v : Option Flashed)
  | bag (b : Option (Bag Flashed))
  | saved (r : Except SaveErr SaveReply)

def RequestReply.ofTurn {α : Type} (reply : α → RequestReply) : Option α → RequestReply
  | some a => reply a
  | none => .waiting

def clear : RequestProg (Option Unit) := inTurn do
  let _ ← SessionStep.clear.run
  return ()

/-- `Regenerate`; an id that could not be made changes nothing. -/
def regenerate (id : Option Bytes) : RequestProg (Option Unit) := inTurn do
  match id with
  | none => return ()
  | some id =>
    let _ ← (SessionStep.regenerate id).run
    let _ ← SessionStep.restartLifetime.run
    return ()

/-- `Invalidate`; an id that could not be made is empty. -/
def invalidate (id : Option Bytes) : RequestProg (Option Unit) := inTurn do
  let _ ← SessionStep.disown.run
  let _ ← (SessionStep.invalidate (id.getD [])).run
  return ()

def RequestCall.body (c : SessionConfig) : RequestCall → RequestProg RequestReply
  | .load id => do
    match ← loadSession c id with
    | .fresh _ _ => return .fresh
    | .session s =>
      let _ ← (Prog.perform (RequestOp.hold s) : RequestProg Unit)
      return .done
  | .flash key value => do
    let _ ← (SessionStep.flash key value).run
    return .done
  | .getFlash key => return .ofTurn .value (← Session.getFlash c key)
  | .flushFlash => return .ofTurn .bag (← Session.flushFlash c)
  | .clear => return .ofTurn (fun _ => .done) (← Session.clear)
  | .save => return .ofTurn .saved (← Session.save c)
  | .put key value => do
    let _ ← (SessionStep.put key value).run
    return .done
  | .remove key => do
    let _ ← (SessionStep.remove key).run
    return .done
  | .regenerate id => return .ofTurn (fun _ => .done) (← Session.regenerate id)
  | .invalidate id => return .ofTurn (fun _ => .done) (← Session.invalidate id)

def RequestCall.rotates : RequestCall → Bool
  | .regenerate _ | .invalidate _ => true
  | _ => false

structure Requests where
  records : Records
  sessions : Nat → Option ServerSession

/-- What the steps of a request without a session find: the turn is never free. -/
def ServerSession.unloaded : ServerSession :=
  ⟨[], ∅, ∅, false, false, [], 0, 0, none, ∅, 0, true⟩

abbrev ServedRes (o : Nat × RequestOp) : Type := RequestRes o.2

def Requests.setSession (w : Requests) (r : Nat) (s : ServerSession) : Requests :=
  { w with sessions := Function.update w.sessions r (some s) }

/-- A request keeps the first session that it holds. -/
def Requests.exec (w : Requests) (now : Int) : (o : Nat × RequestOp) → ServedRes o × Requests
  | (r, .session step) =>
    match w.sessions r with
    | some s => (s, w.setSession r (step.apply s))
    | none => (.unloaded, w)
  | (_, .store o) => ((w.records.exec now o).1, { w with records := (w.records.exec now o).2 })
  | (_, .clock) => (now, w)
  | (r, .hold s) =>
    match w.sessions r with
    | some _ => ((), w)
    | none => ((), w.setSession r s)

def requests (c : SessionConfig) : System ServedRes Requests Int (Nat × RequestCall) RequestReply where
  body call := (call.2.body c).tag call.1
  exec := Requests.exec

/-! How far a transition has come. -/

def ServerSession.settled (s : ServerSession) : Bool :=
  !s.destroyed && s.savedID = s.id && s.id ≠ [] && s.loaded.isSome

theorem ServerSession.settled_iff {s : ServerSession} : s.settled = true ↔
    s.destroyed = false ∧ s.savedID = s.id ∧ s.id ≠ [] ∧ ∃ base, s.loaded = some base := by
  simp [settled, Option.isSome_iff_exists, and_assoc]

inductive Phase
  | idle
  /-- The session was found to be another than one that is settled under one id. -/
  | astray
  | turn (id : Bytes)
  | snapped (id : Bytes) (s : ServerSession)
  | wrote (id : Bytes) (s : ServerSession) (update : RecordPayload → Option RecordPayload)
  | took (id : Bytes) (update : RecordPayload → Option RecordPayload)

def Phase.seen (p : Phase) (id : Bytes) (s : ServerSession) : Phase :=
  if s.settled ∧ s.id = id then p else .astray

def consumeUpdate (take : Bag Flashed → Option (Bag Flashed)) (p : RecordPayload) :
    Option RecordPayload :=
  (take p.flash).map fun f => { p with flash := f }

def SavesAs (s : ServerSession) (payload : RecordPayload)
    (update : RecordPayload → Option RecordPayload) : Prop :=
  rereadMap Flashed.reread s.flash = some payload.flash ∧ ∃ base, s.loaded = some base ∧
    update = fun p => some (mergeUpdate base payload s.flashLocal.keys p)

namespace Phase

def next : Phase → (o : RequestOp) → RequestRes o → Phase
  | .astray, _, _ => .astray
  | .idle, .session .takeTurn, s => if s.busy then .idle else (turn s.id).seen s.id s
  | .turn id, .session .look, s => (turn id).seen id s
  | .snapped id s₀, .session .look, s => (snapped id s₀).seen id s
  | .turn id, .session .saveBase, s => (snapped id s).seen id s
  | .turn id, .store (.updateData _ update _ _), r =>
    match r.1 with
    | .ok _ | .error .update => .took id update
    | .error _ => .turn id
  | .snapped id s₀, .store (.updateData _ update _ _), r =>
    match r.1 with
    | .ok _ => .wrote id s₀ update
    | .error _ => .snapped id s₀
  | .wrote id _ _, .session (.finishSave _ _ _ _ _), _ => .turn id
  | .took id _, .session (.adoptTaken _ _), _ => .turn id
  | .took id _, .session (.adoptFlushed _), _ => .turn id
  | .turn _, .session .endTurn, _ => .idle
  | .snapped _ _, .session .endTurn, _ => .idle
  | p, _, _ => p

def free : RequestOp → Prop
  | .session .takeTurn => True
  | .session (.flash _ _) => True
  | .session (.put _ _) => True
  | .session (.remove _) => True
  | .session (.takeFlash none _) => True
  | .session (.flushFlash none) => True
  | .store (.get _) => True
  | .store (.deleteIf _ _) => True
  | .clock => True
  | .hold s => s.settled = true ∧ s.flashLocal = ∅ ∧ s.busy = false ∧
      ∃ stored payload, decodeRecordPayload stored = some payload ∧ s.loaded = some payload ∧
        s.flash = payload.flash
  | _ => False

def may : Phase → RequestOp → Prop
  | .astray, _ => True
  | .idle, _ => False
  | _, .clock => True
  | _, .session .look => True
  | _, .session .markClean => True
  | _, .session .markModified => True
  | .turn _, .session .endTurn => True
  | .snapped _ _, .session .endTurn => True
  | .turn _, .session .saveBase => True
  | .turn _, .session .clear => True
  | .turn id, .session (.takeFlash id' _) => id' = some id
  | .turn id, .session (.flushFlash id') => id' = some id
  | .turn id, .store (.updateData id' update _ _) => id' = id ∧
      ((∃ key, update = consumeUpdate (takeOne key)) ∨ update = consumeUpdate takeAll)
  | .snapped id s, .store (.updateData id' update _ _) => id' = id ∧ ∃ payload, SavesAs s payload update
  | .wrote id s update, .session (.finishSave snap id' _ _ payload) =>
    snap = s.saveBase ∧ id' = id ∧ SavesAs s payload update
  | .took id update, .session (.adoptTaken id' key) =>
    id' = id ∧ update = consumeUpdate (takeOne key)
  | .took id update, .session (.adoptFlushed id') => id' = id ∧ update = consumeUpdate takeAll
  | _, _ => False

end Phase

/-! What a call was given. -/

def Gives (origin : Nat) : (o : RequestOp) → RequestRes o → Prop
  | .session (.takeFlash id key), s => s.localFlashLocked (id.getD s.id) key = true ∧
      ∃ v, s.flash.lookup key = some v ∧ v.origin = origin
  | .session (.flushFlash id), s => s.storedFlashLocked (id.getD s.id) = false ∧
      ∃ k v, s.flash.lookup k = some v ∧ v.origin = origin
  | .session (.adoptFlushed _), s => ∃ k v, (s.flashLocal.lookup k).isSome ∧
      s.flash.lookup k = some v ∧ v.origin = origin
  | .store (.updateData _ update _ _), (.ok _, some p) => ∃ k v p', p.flash.lookup k = some v ∧
      v.origin = origin ∧ update p = some p' ∧ p'.flash.lookup k = none
  | _, _ => False

def RequestReply.Holds (origin : Nat) : RequestReply → Prop
  | .value (some v) => v.origin = origin
  | .bag (some b) => ∃ k v, b.lookup k = some v ∧ v.origin = origin
  | _ => False

structure Progress where
  phase : Phase
  got : Nat → Prop
  set : Bool

def Answered : (o : RequestOp) → RequestRes o → Prop
  | .store (.get id), .ok rec => rec.id = id
  | .store (.updateData _ update _ _), (.ok _, ran) => ∃ p p', ran = some p ∧ update p = some p'
  | .store (.updateData _ update _ _), (.error .update, ran) => ∀ p, ran = some p → update p = none
  | _, _ => True

def SetsOwn (call : RequestCall) (set : Bool) : RequestOp → Prop
  | .session (.flash key v) => call = .flash key v ∧ set = false
  | _ => True

def isSet : RequestOp → Bool
  | .session (.flash _ _) => true
  | _ => false

def following (call : RequestCall) : Monitor RequestRes where
  State := Progress
  init := ⟨.idle, fun _ => False, false⟩
  allowed := Answered
  guard p o _ := call.rotates = true ∨ match p.phase with
    | .idle => Phase.free o ∧ SetsOwn call p.set o
    | phase => phase.may o
  next p o r := ⟨p.phase.next o r, fun origin => p.got origin ∨ Gives origin o r, p.set || isSet o⟩

def followed (call : RequestCall) (reply : RequestReply) (p : Progress) : Prop :=
  call.rotates = true ∨ p.phase = .astray ∨ p.phase = .idle ∧ ∀ origin, reply.Holds origin → p.got origin

def Phase.ending (p : Phase) : Prop := ∃ id, p = .turn id ∨ ∃ s, p = .snapped id s

section Following

variable {c : SessionConfig} {call : RequestCall} {α : Type} {g : Nat → Prop} {b : Bool}
  {Q : α → Progress → Prop} {m : Progress} {holds : α → Nat → Prop} {bag : Bag Flashed}

theorem wp_of_astray (p : RequestProg α) (hm : m.phase = .astray)
    (hQ : ∀ a m', m'.phase = .astray → Q a m') : p.wp (following call) m Q := by
  refine wp_mono (wp_of_kept (following call) (Prog.All.of_forall ?_ p) hm) hQ
  intro o m r hastray
  refine ⟨.inr ?_, ?_⟩
  · rw [hastray]
    exact trivial
  · show m.phase.next o r = .astray
    rw [hastray]
    rfl

theorem wp_of_rotates (p : RequestProg α) (hrot : call.rotates = true)
    (hQ : ∀ a m', Q a m') : p.wp (following call) m Q :=
  wp_mono (wp_of_kept (following call) (J := fun _ => True)
    (Prog.All.of_forall (fun _ _ _ _ => ⟨.inl hrot, trivial⟩) p) trivial) fun a m' _ => hQ a m'

def Returns (holds : α → Nat → Prop) (a : α) (m : Progress) : Prop :=
  m.phase = .astray ∨ m.phase.ending ∧ ∀ origin, holds a origin → m.got origin

theorem returns_astray (a : α) (m : Progress) (h : m.phase = .astray) : Returns holds a m := .inl h

theorem returns_nothing {a : α} (h : ∀ origin, ¬holds a origin)
    (id : Bytes) (g : Nat → Prop) (b : Bool) : Returns holds a ⟨.turn id, g, b⟩ :=
  .inr ⟨⟨id, .inl rfl⟩, fun origin hholds => absurd hholds (h origin)⟩

theorem inTurn_following {q : RequestProg α} {reply : α → RequestReply}
    (hq : ∀ id g b, q.wp (following call) ⟨.turn id, g, b⟩ (Returns holds))
    (hreply : ∀ a origin, (reply a).Holds origin → holds a origin) :
    (inTurn q >>= fun a => pure (.ofTurn reply a)).wp (following call) ⟨.idle, g, b⟩ (followed call) := by
  refine (wp_bind ..).mpr ?_
  intro s _
  refine ⟨.inr ⟨trivial, trivial⟩, ?_⟩
  show (if s.busy then _ else _ : RequestProg (Option α)).wp (following call)
    ⟨if s.busy then .idle else (Phase.turn s.id).seen s.id s, _, _⟩ _
  cases hbusy : s.busy with
  | true => exact .inr (.inr ⟨rfl, nofun⟩)
  | false =>
    simp only [Bool.false_eq_true, if_false, Phase.seen]
    split
    · refine wp_bind_of (hq s.id _ _) ?_
      rintro a ⟨-, got, set⟩ (rfl | ⟨⟨id, rfl | ⟨s₀, rfl⟩⟩, hgot⟩)
      · exact wp_of_astray _ rfl fun a m' hm => .inr (.inl hm)
      all_goals
        intro s' _
        refine ⟨.inr trivial, .inr (.inr ⟨rfl, fun origin hx => ?_⟩)⟩
        exact .inl (hgot origin (hreply a origin hx))
    · exact wp_of_astray _ rfl fun a m' hm => .inr (.inl hm)

variable {id : Bytes}

theorem look_following {p : Phase} (hp : p = .turn id ∨ ∃ s, p = .snapped id s)
    {f : ServerSession → RequestProg α} (hQ : ∀ a m', m'.phase = .astray → Q a m')
    (h : ∀ s g b, s.settled = true → s.id = id → (f s).wp (following call) ⟨p, g, b⟩ Q) :
    (SessionStep.look.run >>= f).wp (following call) ⟨p, g, b⟩ Q := by
  intro s _
  have hseen : p.next (.session .look) s = p.seen id s := by
    rcases hp with rfl | ⟨s₀, rfl⟩ <;> rfl
  refine ⟨.inr ?_, ?_⟩
  · rcases hp with rfl | ⟨-, rfl⟩ <;> exact trivial
  · show (f s).wp (following call) ⟨p.next (.session .look) s, _, _⟩ Q
    rw [hseen, Phase.seen]
    split
    case isTrue hs => exact h s _ _ hs.1 hs.2
    case isFalse => exact wp_of_astray _ rfl hQ

theorem writeRecord_following {s₀ : ServerSession} {v : Saving}
    (hs : s₀.settled = true) (hid : v.id = id) (hsnap : v.snap = s₀.saveBase)
    (hflash : rereadMap Flashed.reread s₀.flash = some v.payload.flash) :
    (v.writeRecord c v.id).wp (following call) ⟨.snapped id s₀, g, b⟩
      (Returns fun _ _ => False) := by
  obtain ⟨-, -, -, base, hbase⟩ := ServerSession.settled_iff.mp hs
  have hupdate : (fun p => some (v.update v.id p)) =
      fun p => some (mergeUpdate base v.payload s₀.flashLocal.keys p) := by
    simp [Saving.update, hsnap, ServerSession.saveBase, hbase]
  have hsaves : SavesAs s₀ v.payload fun p => some (v.update v.id p) := ⟨hflash, _, hbase, hupdate⟩
  intro r _
  refine ⟨.inr ⟨hid, v.payload, hsaves⟩, ?_⟩
  obtain ⟨e | u, -⟩ := r
  · show (if e = .notFound ∧ v.id ≠ v.id then _ else _ : RequestProg _).wp (following call)
      ⟨.snapped id s₀, _, _⟩ _
    rw [if_neg (fun h => h.2 rfl)]
    exact .inr ⟨⟨id, .inr ⟨s₀, rfl⟩⟩, fun _ h => h.elim⟩
  · intro s _
    exact ⟨.inr ⟨hsnap, hid, hsaves⟩, .inr ⟨⟨id, .inl rfl⟩, fun _ h => h.elim⟩⟩

theorem write_following (id : Bytes) : (write c).wp (following call) ⟨.turn id, g, b⟩
    (Returns fun _ _ => False) := by
  intro s₀ _
  refine ⟨.inr trivial, ?_⟩
  show (SessionStep.look.run >>= _ : RequestProg _).wp (following call)
    ⟨(Phase.snapped id s₀).seen id s₀, _, _⟩ _
  by_cases hs₀ : s₀.settled = true ∧ s₀.id = id
  · rw [Phase.seen, if_pos hs₀]
    obtain ⟨-, hsaved, hne, -⟩ := ServerSession.settled_iff.mp hs₀.1
    apply look_following (.inr ⟨s₀, rfl⟩) returns_astray
    intro s g b hs hid
    rw [if_neg (by rw [hid, ← hs₀.2]; exact hne)]
    intro now _
    refine ⟨.inr trivial, ?_⟩
    apply look_following (.inr ⟨s₀, rfl⟩) returns_astray
    intro s' g b hs' hid'
    simp only
    cases hpayload : encodeRecordPayload s'.data s₀.saveBase.flash with
    | none => exact .inr ⟨⟨id, .inr ⟨s₀, rfl⟩⟩, fun _ h => h.elim⟩
    | some payload =>
      have hsame : s₀.saveBase.savedID = s.id := hsaved.trans (hs₀.2.trans hid.symm)
      simp only
      rw [Saving.writeOrMove_of_same c hsame]
      exact writeRecord_following hs₀.1 hid rfl (encodeRecordPayload_eq_some.mp hpayload).2
  · rw [Phase.seen, if_neg hs₀]
    exact wp_of_astray _ rfl returns_astray

theorem saveHeld_following (id : Bytes) : (saveHeld c).wp (following call) ⟨.turn id, g, b⟩
    (Returns fun _ _ => False) := by
  apply look_following (.inl rfl) returns_astray
  intro s g b hs _
  rw [if_neg (by simp [(ServerSession.settled_iff.mp hs).1])]
  apply look_following (.inl rfl) returns_astray
  intro s g b _ _
  split
  · exact .inr ⟨⟨id, .inl rfl⟩, fun _ h => h.elim⟩
  · intro s' _
    refine ⟨.inr trivial, ?_⟩
    show (write c >>= _ : RequestProg _).wp (following call) ⟨.turn id, _, _⟩ _
    refine wp_bind_of (write_following id) ?_
    rintro r ⟨p, got, set⟩ (rfl | ⟨hend, -⟩)
    · exact wp_of_astray _ rfl returns_astray
    cases r with
    | ok reply => exact .inr ⟨hend, fun _ h => h.elim⟩
    | error e =>
      intro s' _
      have hcases := hend
      obtain ⟨id, rfl | ⟨s₀, rfl⟩⟩ := hcases <;>
        exact ⟨.inr trivial, .inr ⟨hend, fun _ h => h.elim⟩⟩

variable {take : Bag Flashed → Option (Bag Flashed)}

theorem take_empty (h : (∃ key, take = takeOne key) ∨ take = takeAll) : take ∅ = none := by
  rcases h with ⟨-, rfl⟩ | rfl <;> rfl

theorem consumeFlash_following {createdAt : Int}
    (htake : (∃ key, take = takeOne key) ∨ take = takeAll) {f : Option (Bag Flashed) → RequestProg α}
    (hnone : ∀ g b, (f none).wp (following call) ⟨.turn id, g, b⟩ Q)
    (hsome : ∀ held g b, (∀ k v held', held.lookup k = some v → take held = some held' →
      held'.lookup k = none → g v.origin) →
      (f (some held)).wp (following call) ⟨.took id (consumeUpdate take), g, b⟩ Q) :
    (consumeFlash c id createdAt take >>= f).wp (following call) ⟨.turn id, g, b⟩ Q := by
  have hmay : (∃ key, consumeUpdate take = consumeUpdate (takeOne key)) ∨
      consumeUpdate take = consumeUpdate takeAll := by
    rcases htake with ⟨key, rfl⟩ | rfl
    · exact .inl ⟨key, rfl⟩
    · exact .inr rfl
  intro now _
  refine ⟨.inr trivial, ?_⟩
  intro r hr
  refine ⟨.inr ⟨rfl, hmay⟩, ?_⟩
  obtain ⟨e | u, ran⟩ := r
  · cases e with
    | update =>
      apply hsome
      intro k v held' _ hheld _
      have hrefused : ∀ p, ran = some p → consumeUpdate take p = none := hr
      cases ran with
      | none =>
        rw [Option.elim_none, take_empty htake] at hheld
        cases hheld
      | some p =>
        have hp := hrefused p rfl
        rw [consumeUpdate, Option.map_eq_none_iff] at hp
        rw [Option.elim_some, hp] at hheld
        cases hheld
    | _ => exact hnone _ _
  · apply hsome
    intro k v held' hk hheld hgone
    obtain ⟨p, -, rfl, -⟩ := hr
    refine .inr ⟨k, v, { p with flash := held' }, hk, rfl, ?_, hgone⟩
    show (take p.flash).map _ = _
    rw [Option.elim_some] at hheld
    rw [hheld]
    rfl

theorem consumeStoredFlash_following (id key : Bytes) :
    (consumeStoredFlash c key).wp (following call) ⟨.turn id, g, b⟩
      (Returns fun out origin => ∃ v, out = some v ∧ v.origin = origin) := by
  apply look_following (.inl rfl) returns_astray
  intro s g b hs hid s' _
  refine ⟨.inr (congrArg some hid), ?_⟩
  show (if s'.localFlashLocked s.id key then _ else _ : RequestProg _).wp (following call)
    ⟨.turn id, _, _⟩ _
  split
  case isTrue hlocal =>
    refine .inr ⟨⟨id, .inl rfl⟩, ?_⟩
    rintro origin ⟨v, hv, rfl⟩
    exact .inr ⟨hlocal, v, hv, rfl⟩
  case isFalse =>
    apply look_following (.inl rfl) returns_astray
    intro now g b _ _
    split
    · exact returns_nothing (by simp) id g b
    · rw [hid]
      apply consumeFlash_following (.inl ⟨key, rfl⟩)
      · exact returns_nothing (by simp) id
      intro held g b hheld s'' _
      refine ⟨.inr ⟨rfl, rfl⟩, .inr ⟨⟨id, .inl rfl⟩, ?_⟩⟩
      rintro origin ⟨v, hv, rfl⟩
      refine .inl (hheld key v (held.erase key) hv ?_ ?_)
      · rw [takeOne, if_pos (by rw [hv]; rfl)]
      · rw [FMap.lookup_erase_ite, if_pos rfl]

theorem lookup_orNil {b : Bag Flashed} (h : orNil bag = some b) : b = bag := by
  rw [orNil] at h
  split at h
  · cases h
  · exact (Option.some.inj h).symm

theorem lookup_of_entries_eq_nil (h : bag.entries = []) (k : Bytes) : bag.lookup k = none := by
  rw [AList.lookup, h]
  rfl

theorem flushStoredFlash_following (id : Bytes) :
    (flushStoredFlash c).wp (following call) ⟨.turn id, g, b⟩
      (Returns fun out origin => ∃ bag k v, out = some bag ∧ bag.lookup k = some v ∧
        v.origin = origin) := by
  apply look_following (.inl rfl) returns_astray
  intro s g b hs hid s' _
  refine ⟨.inr (congrArg some hid), ?_⟩
  show (if !s'.storedFlashLocked s.id then _ else _ : RequestProg _).wp (following call)
    ⟨.turn id, _, _⟩ _
  split
  case isTrue hlocal =>
    refine .inr ⟨⟨id, .inl rfl⟩, ?_⟩
    rintro origin ⟨bag, k, v, hbag, hv, rfl⟩
    rw [lookup_orNil hbag] at hv
    exact .inr ⟨by simpa using hlocal, k, v, hv, rfl⟩
  case isFalse =>
    apply look_following (.inl rfl) returns_astray
    intro now g b _ _
    split
    · exact returns_nothing (by simp) id g b
    · rw [hid]
      apply consumeFlash_following (.inr rfl)
      · exact returns_nothing (by simp) id
      intro held g b hheld s'' _
      refine ⟨.inr ⟨rfl, rfl⟩, .inr ⟨⟨id, .inl rfl⟩, ?_⟩⟩
      rintro origin ⟨bag, k, v, hbag, hv, rfl⟩
      rw [lookup_orNil hbag, FMap.lookup_overlay] at hv
      -- A value of the session's own lies over what the record held.
      cases hown : (s''.flash.lookup k).filter fun _ => (s''.flashLocal.lookup k).isSome with
      | some v' =>
        rw [hown] at hv
        obtain rfl : v' = v := by simpa using hv
        obtain ⟨hbagged, hset⟩ := Option.filter_eq_some_iff.mp hown
        exact .inr ⟨k, v', hset, hbagged, rfl⟩
      | none =>
        rw [hown] at hv
        refine .inl (hheld k v ∅ hv ?_ rfl)
        rw [takeAll, if_neg]
        intro hempty
        rw [lookup_of_entries_eq_nil hempty k] at hv
        cases hv

theorem followed_of_none {reply : RequestReply} (hm : m.phase = .idle)
    (h : ∀ origin, ¬ reply.Holds origin) : followed call reply m :=
  .inr (.inr ⟨hm, fun origin hh => absurd hh (h origin)⟩)

theorem getFlash_following (key : Bytes) :
    ((RequestCall.getFlash key).body c).wp (following (.getFlash key)) ⟨.idle, g, b⟩
      (followed (.getFlash key)) := by
  intro s _
  refine ⟨.inr ⟨trivial, trivial⟩, ?_⟩
  show ((if s.localFlashLocked s.id key then _ else _ : RequestProg _) >>= _).wp
    (following (.getFlash key)) ⟨.idle, _, _⟩ _
  split
  case isTrue hlocal =>
    refine .inr (.inr ⟨rfl, ?_⟩)
    intro origin hholds
    cases hv : s.flash.lookup key with
    | none =>
      rw [hv] at hholds
      exact hholds.elim
    | some v =>
      rw [hv] at hholds
      exact .inr ⟨hlocal, v, hv, hholds⟩
  case isFalse =>
    refine inTurn_following (fun id g b => consumeStoredFlash_following id key) ?_
    rintro (_ | v) origin hholds
    · exact hholds.elim
    · exact ⟨v, rfl, hholds⟩

theorem flushFlash_following :
    (RequestCall.flushFlash.body c).wp (following .flushFlash) ⟨.idle, g, b⟩ (followed .flushFlash) := by
  intro s _
  refine ⟨.inr ⟨trivial, trivial⟩, ?_⟩
  show ((if !s.storedFlashLocked s.id then _ else _ : RequestProg _) >>= _).wp
    (following .flushFlash) ⟨.idle, _, _⟩ _
  split
  case isTrue hlocal =>
    refine .inr (.inr ⟨rfl, ?_⟩)
    intro origin hholds
    cases hbag : orNil s.flash with
    | none =>
      rw [hbag] at hholds
      exact hholds.elim
    | some bag =>
      rw [hbag] at hholds
      obtain ⟨k, v, hv, hvo⟩ := hholds
      rw [lookup_orNil hbag] at hv
      exact .inr ⟨by simpa using hlocal, k, v, hv, hvo⟩
  case isFalse =>
    refine inTurn_following (fun id g b => flushStoredFlash_following id) ?_
    rintro (_ | bag) origin hholds
    · exact hholds.elim
    · obtain ⟨k, v, hv, hvo⟩ := hholds
      exact ⟨bag, k, v, rfl, hv, hvo⟩

theorem validSessionID_ne_nil (h : validSessionID id = true) : id ≠ [] := by
  rintro rfl
  simp [validSessionID] at h

theorem load_following (id : Bytes) :
    ((RequestCall.load id).body c).wp (following (.load id)) ⟨.idle, g, b⟩ (followed (.load id)) := by
  have hfresh : ∀ g b, followed (.load id) .fresh ⟨.idle, g, b⟩ :=
    fun _ _ => followed_of_none rfl fun _ h => h
  show (loadSession c id >>= _).wp (following (.load id)) _ _
  rw [loadSession]
  split
  · exact hfresh _ _
  case isFalse hvalid =>
    intro r hr
    refine ⟨.inr ⟨trivial, trivial⟩, ?_⟩
    cases r with
    | error e => exact hfresh _ _
    | ok rec =>
      intro now _
      refine ⟨.inr ⟨trivial, trivial⟩, ?_⟩
      show ((if c.ended rec.createdAt rec.lastSeenAt now then _ else _ : RequestProg _) >>= _).wp
        (following (.load id)) ⟨.idle, _, _⟩ _
      split
      · intro now' _
        refine ⟨.inr ⟨trivial, trivial⟩, ?_⟩
        intro r _
        exact ⟨.inr ⟨trivial, trivial⟩, hfresh _ _⟩
      · cases hpayload : decodeRecordPayload rec.data with
        | none => exact hfresh _ _
        | some payload =>
          have hne : rec.id ≠ [] := by
            have hid : rec.id = id := hr
            rw [hid]
            exact validSessionID_ne_nil (by simpa using hvalid)
          intro u _
          refine ⟨.inr ⟨⟨?_, rfl, rfl, rec.data, payload, hpayload, rfl, rfl⟩, trivial⟩, ?_⟩
          · exact ServerSession.settled_iff.mpr ⟨rfl, rfl, hne, payload, rfl⟩
          · exact followed_of_none rfl fun _ h => h

theorem clear_following :
    (RequestCall.clear.body c).wp (following .clear) ⟨.idle, g, b⟩ (followed .clear) := by
  have hclear : ∀ id g b, (do
      let _ ← SessionStep.clear.run
      return () : RequestProg Unit).wp (following .clear) ⟨.turn id, g, b⟩
      (Returns fun _ _ => False) := by
    intro id g b s _
    exact ⟨.inr trivial, .inr ⟨⟨id, .inl rfl⟩, fun _ h => h.elim⟩⟩
  exact inTurn_following hclear fun _ _ h => h

theorem save_following :
    (RequestCall.save.body c).wp (following .save) ⟨.idle, g, b⟩ (followed .save) :=
  inTurn_following (fun id _ _ => saveHeld_following id) fun _ _ h => h

theorem body_following (call : RequestCall) :
    (call.body c).wp (following call) (following call).init (followed call) := by
  cases call with
  | load id => exact load_following id
  | flash key v =>
    exact fun s _ => ⟨.inr ⟨trivial, rfl, rfl⟩, followed_of_none rfl fun _ h => h⟩
  | getFlash key => exact getFlash_following key
  | flushFlash => exact flushFlash_following
  | clear => exact clear_following
  | save => exact save_following
  | regenerate id | invalidate id => exact wp_of_rotates _ rfl fun _ _ => .inl rfl
  | _ => exact fun s _ => ⟨.inr ⟨trivial, trivial⟩, followed_of_none rfl fun _ h => h⟩

end Following

end Session
