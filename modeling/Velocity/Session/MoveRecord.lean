import Velocity.Lib.Linear
import Velocity.Session.Records

/-! The record of a signed-in session that got a new id. The record store does each operation in one
step; the move to the new id takes several, and races other moves of the same record, deletions and
sign-outs. -/

namespace Session

open Interleave List MemoryStore Option
open Bytes (ascii)

variable {D : Type} {id : Bytes}

inductive StoreOp (D : Type)
  | get (id : Bytes)
  | put (s : StoredSession D)
  | updateData (id : Bytes) (update : D → Option D) (lastSeen expiresAt : Int)
  | deleteIf (id : Bytes) (cond : SessionMeta → Bool)
  | delete (id : Bytes)
  | deleteAllForUser (userID : Bytes)

/-- An `UpdateData` also tells on which data its update ran, if on any. -/
abbrev StoreRes : StoreOp D → Type
  | .get _ => Except StoreErr (StoredSession D)
  | .put _ => Except StoreErr Unit
  | .updateData _ _ _ _ => Except StoreErr Unit × Option D
  | .deleteIf _ _ => Except StoreErr Bool
  | .delete _ => Except StoreErr Unit
  | .deleteAllForUser _ => Except StoreErr Unit

/-- The store in memory, at the instant that the clock gives. -/
def MemoryStore.exec (m : MemoryStore D) (now : Int) : (o : StoreOp D) → StoreRes o × MemoryStore D
  | .get id => m.get now id
  | .put s => m.put now s
  | .updateData id update lastSeen expiresAt =>
    (((m.updateData now id update lastSeen expiresAt).1, (m.live now id).map StoredSession.data),
      (m.updateData now id update lastSeen expiresAt).2)
  | .deleteIf id cond => (.ok (m.deleteIf now id cond).1, (m.deleteIf now id cond).2)
  | .delete id => (.ok (), m.delete id)
  | .deleteAllForUser userID => (.ok (), m.deleteAllForUser userID)

abbrev StoreProg (D : Type) := Prog (StoreRes (D := D))

abbrev StoreOp.call (o : StoreOp D) : StoreProg D (StoreRes o) := Prog.perform o

abbrev StoreEvent (D : Type) := Event (StoreRes (D := D))

/-- The old record lends its owner, address and agent to the successor, and is retired once that is
there; when it has gone meanwhile, the successor goes again. -/
def moveRecord (oldID : Bytes) (successor : StoredSession D) :
    StoreProg D (Except StoreErr Unit) := do
  match ← (StoreOp.get oldID).call with
  | .error e => return .error e
  | .ok old =>
    if old.userID = [] then return .error .notFound
    else
      let made := { successor with
        userID := old.userID, ipAddress := old.ipAddress, userAgent := old.userAgent }
      match ← (StoreOp.put made).call with
      | .error e => return .error e
      | .ok _ =>
        match ← (StoreOp.deleteIf oldID fun _ => true).call with
        | .ok true => return .ok ()
        | .ok false =>
          let _ ← (StoreOp.delete successor.id).call
          return .error .notFound
        | .error e =>
          let _ ← (StoreOp.delete successor.id).call
          return .error e

inductive RecordCall (D : Type)
  | move (oldID : Bytes) (successor : StoredSession D)
  | delete (id : Bytes)
  | deleteAllForUser (userID : Bytes)

def RecordCall.body : RecordCall D → StoreProg D (Except StoreErr Unit)
  | .move oldID successor => moveRecord oldID successor
  | .delete id => Prog.perform (StoreOp.delete id)
  | .deleteAllForUser userID => Prog.perform (StoreOp.deleteAllForUser userID)

def recordCalls :
    System (StoreRes (D := D)) (MemoryStore D) Int (RecordCall D) (Except StoreErr Unit) where
  body := RecordCall.body
  exec := MemoryStore.exec

namespace MemoryStore

variable (m : MemoryStore D) {k : Bytes}

theorem lookup_find (now : Int) (id k : Bytes) : (m.find now id).2.byID.lookup k = m.byID.lookup k ∨
      k = id ∧ (m.find now id).2.byID.lookup k = none := by
  unfold find
  cases h : m.byID.lookup id with
  | none => exact .inl rfl
  | some s =>
    simp only
    split
    · rw [lookup_removeLocked]
      split
      case isTrue hk => exact .inr ⟨hk, rfl⟩
      case isFalse => exact .inl rfl
    · exact .inl rfl

variable {m : MemoryStore D} {s : StoredSession D} {now : Int}

theorem lookup_of_find (h : (m.find now id).1 = .ok s) : m.byID.lookup id = some s := by
  rcases m.find_cases now id with ⟨s', hs', hfind⟩ | ⟨-, err, m', -, hfind, -⟩
  · rw [hfind] at h
    obtain rfl : s' = s := by simpa using h
    exact (live_eq_some.mp hs').1
  · rw [hfind] at h
    cases h

theorem lookup_of_find_held
    (h : (m.find now id).2.byID.lookup k = some s) : m.byID.lookup k = some s := by
  rcases m.lookup_find now id k with hsame | ⟨-, hnone⟩
  · rw [← hsame]
    exact h
  · rw [hnone] at h
    cases h

theorem updateData_cases (now : Int) (id : Bytes) (update : D → Option D)
    (lastSeen expiresAt : Int) :
    (∃ s data seen expires, m.live now id = some s ∧ update s.data = some data ∧
      m.updateData now id update lastSeen expiresAt =
        (.ok (), m.insert { s with data := data, lastSeenAt := seen, expiresAt := expires })) ∨
      ∃ e, (m.updateData now id update lastSeen expiresAt).1 = .error e ∧
        ∀ k s, (m.updateData now id update lastSeen expiresAt).2.byID.lookup k = some s →
          m.byID.lookup k = some s := by
  rcases m.find_cases now id with ⟨s, hs, hfind⟩ | ⟨-, e, m', -, hfind, -, hsub⟩
  · cases hupdate : update s.data with
    | none =>
      simp [updateData, slide, hfind, hupdate]
    | some data =>
      refine .inl ⟨s, data, (slideForward s.lastSeenAt s.expiresAt lastSeen expiresAt).1,
        (slideForward s.lastSeenAt s.expiresAt lastSeen expiresAt).2, hs, hupdate, ?_⟩
      simp [updateData, slide, hfind, hupdate]
  · simpa [updateData, slide, hfind] using hsub

theorem lookup_of_deleteIf {cond : SessionMeta → Bool}
    (h : (m.deleteIf now id cond).2.byID.lookup k = some s) : m.byID.lookup k = some s := by
  rcases m.find_cases now id with ⟨s', -, hfind⟩ | ⟨-, e, m', -, hfind, -, hsub⟩
  · rw [deleteIf, hfind] at h
    simp only at h
    split at h
    · exact lookup_of_removeLocked h
    · exact h
  · rw [deleteIf, hfind] at h
    exact hsub k s h

theorem lookup_deleteIf (now : Int) (id k : Bytes) :
    (m.deleteIf now id fun _ => true).2.byID.lookup k = if k = id then none else m.byID.lookup k := by
  unfold deleteIf find
  cases h : m.byID.lookup id with
  | none =>
    simp only
    split
    case isTrue hk => rw [hk, h]
    case isFalse => rfl
  | some s =>
    by_cases hpast : pastExpiry s.expiresAt now = true
    · simp only [if_pos hpast]
      exact lookup_removeLocked m id k
    · simp only [if_neg hpast, if_true]
      exact lookup_removeLocked m id k

theorem deleteIf_held (h : (m.deleteIf now id fun _ => true).1 = true) : m.byID.lookup id ≠ none := by
  intro hnone
  simp [deleteIf, find, hnone] at h

theorem lookup_deleteAllForUser (userID k : Bytes) : (m.deleteAllForUser userID).byID.lookup k =
      if userID ≠ [] ∧ ∃ s, m.byID.lookup k = some s ∧ s.userID = userID then none
      else m.byID.lookup k := by
  rw [deleteAllForUser, lookup_removeAll]
  simp only [mem_ids]

end MemoryStore

/-! How far a move has come. -/

inductive Stage
  | begun
  | read (owner : Bytes)
  | made
  | retired
  | left
  | undone
  | failed
deriving DecidableEq

def Stage.holds : Stage → Bool
  | .made | .left | .retired => true
  | _ => false

def Stage.next (t : Stage) : (o : StoreOp D) → StoreRes o → Stage
  | .get _, .ok old => .read old.userID
  | .get _, .error _ => .failed
  | .put _, .ok _ => .made
  | .put _, .error _ => .failed
  | .deleteIf _ _, .ok true => .retired
  | .deleteIf _ _, _ => .left
  | .delete _, _ => .undone
  | _, _ => t

def RecordCall.may (c : RecordCall D) (t : Stage) (o : StoreOp D) : Prop :=
  match c with
  | .move oldID successor =>
    match o with
    | .get id => id = oldID ∧ t = .begun
    | .put s => s.id = successor.id ∧ s.userID ≠ [] ∧ t = .read s.userID
    | .deleteIf id cond => id = oldID ∧ cond = (fun _ => true) ∧ t = .made
    | .delete id => id = successor.id ∧ t = .left
    | _ => False
  | .delete id => o = .delete id
  | .deleteAllForUser userID => o = .deleteAllForUser userID

def staging (c : RecordCall D) : Monitor (StoreRes (D := D)) where
  State := Stage
  init := .begun
  allowed _ _ := True
  guard t o _ := c.may t o
  next := Stage.next

def RecordCall.ends : RecordCall D → Except StoreErr Unit → Stage → Prop
  | .move _ _, .ok _, t => t = .retired
  | .move _ _, .error _, t => t.holds = false
  | _, _, _ => True

theorem undo_staging (oldID : Bytes) (successor : StoredSession D) (e : StoreErr) : (do
      let _ ← (StoreOp.delete successor.id).call
      return .error e : StoreProg D (Except StoreErr Unit)).wp
        (staging (.move oldID successor)) Stage.left (RecordCall.move oldID successor).ends := by
  intro r _
  exact ⟨⟨rfl, rfl⟩, (rfl : Stage.undone.holds = false)⟩

theorem moveRecord_staging (oldID : Bytes) (successor : StoredSession D) :
    (moveRecord oldID successor).wp (staging (.move oldID successor)) Stage.begun
      (RecordCall.move oldID successor).ends := by
  have hfailed : ∀ e, (RecordCall.move oldID successor).ends (.error e) Stage.failed := fun _ => rfl
  intro r _
  refine ⟨⟨rfl, rfl⟩, ?_⟩
  cases r with
  | error e => exact hfailed e
  | ok old =>
    show (if old.userID = [] then _ else _ : Prog (StoreRes) _).wp
      (staging (.move oldID successor)) (Stage.read old.userID) _
    split
    · exact (rfl : (Stage.read old.userID).holds = false)
    case isFalse howner =>
      intro r _
      refine ⟨⟨rfl, howner, rfl⟩, ?_⟩
      cases r with
      | error e => exact hfailed e
      | ok _ =>
        intro r _
        refine ⟨⟨rfl, rfl, rfl⟩, ?_⟩
        cases r with
        | error e => exact undo_staging oldID successor e
        | ok retired =>
          cases retired with
          | false => exact undo_staging oldID successor .notFound
          | true => exact (rfl : Stage.retired = .retired)

theorem body_staging (c : RecordCall D) : c.body.wp (staging c) Stage.begun c.ends := by
  cases c with
  | move oldID successor => exact moveRecord_staging oldID successor
  | delete id | deleteAllForUser userID =>
    exact fun r _ => ⟨rfl, trivial⟩

def stageAt (l : List (StoreEvent D)) (i : Nat) : Stage :=
  (staging (RecordCall.delete (D := D) [])).stateOf l i

theorem stageAt_concat (l : List (StoreEvent D)) (ev : StoreEvent D) (i : Nat) :
    stageAt (l ++ [ev]) i = if ev.tid = i then (stageAt l i).next ev.op ev.res else stageAt l i :=
  Monitor.stateOf_concat _ l ev i

/-! What the events of a run mean. -/

def Retires (old : Bytes) (i : Nat) (ev : StoreEvent D) : Prop :=
  ∃ cond, ev = ⟨i, .deleteIf old cond, .ok true⟩

def Retired (old : Bytes) (l : List (StoreEvent D)) (i : Nat) : Prop :=
  ∃ ev ∈ l, Retires old i ev

def Deletes (owner id : Bytes) (ev : StoreEvent D) : Prop :=
  ev.op = .delete id ∨ ev.op = .deleteAllForUser owner

def DeletedLater (old owner : Bytes) (l : List (StoreEvent D)) (i : Nat) (id : Bytes) : Prop :=
  ∃ pre ev post, l = pre ++ ev :: post ∧ Retired old pre i ∧ Deletes owner id ev

/-- Empty for a visitor's record and for none. -/
def MemoryStore.ownerOf (m : MemoryStore D) (id : Bytes) : Bytes :=
  (m.byID.lookup id).elim [] StoredSession.userID

def movedOn (m : MemoryStore D) (acts : List (Act Int (RecordCall D))) :
    Pool (StoreRes (D := D)) (MemoryStore D) (RecordCall D) (Except StoreErr Unit) :=
  recordCalls.run (Pool.start m) acts

/-- The moves are of one record, to fresh ids, which no record and no other move has and no deletion
can name before the move has returned. -/
structure FreshMoves (m : MemoryStore D) (old : Bytes) (acts : List (Act Int (RecordCall D))) :
    Prop where
  same : ∀ i oldID s, (movedOn m acts).callOf i = some (.move oldID s) → oldID = old
  distinct : ∀ i j s s', (movedOn m acts).callOf i = some (.move old s) →
    (movedOn m acts).callOf j = some (.move old s') → s.id = s'.id → i = j
  other : ∀ i s, (movedOn m acts).callOf i = some (.move old s) → s.id ≠ old
  unused : ∀ i s, (movedOn m acts).callOf i = some (.move old s) → m.byID.lookup s.id = none
  unseen : ∀ before after id, acts = before ++ .spawn (.delete id) :: after → ∀ i s,
    (movedOn m acts).callOf i = some (.move old s) → s.id = id →
    ∃ r, (movedOn m before).Returned i (.move old s) r

section Run

variable {m w w' : MemoryStore D} {old owner : Bytes} {l : List (StoreEvent D)}
  {ev : StoreEvent D} {i : Nat} {s s' : StoredSession D}

theorem DeletedLater.concat (h : DeletedLater old owner l i id) (ev : StoreEvent D) :
    DeletedLater old owner (l ++ [ev]) i id := by
  obtain ⟨pre, ev', post, hl, hrest⟩ := h
  exact ⟨pre, ev', post ++ [ev], by simp [hl], hrest⟩

theorem retired_concat : Retired old (l ++ [ev]) i ↔ Retired old l i ∨ Retires old i ev := by
  constructor
  · rintro ⟨ev', hmem, hret⟩
    rcases mem_append.mp hmem with hmem | hmem
    · exact .inl ⟨ev', hmem, hret⟩
    · rw [mem_singleton.mp hmem] at hret
      exact .inr hret
  · rintro (⟨ev', hmem, hret⟩ | hret)
    · exact ⟨ev', mem_append_left _ hmem, hret⟩
    · exact ⟨ev, mem_concat_self, hret⟩

structure Mover (old owner : Bytes) (w : MemoryStore D) (l : List (StoreEvent D))
    (i : Nat) (s : StoredSession D) : Prop where
  absent : (stageAt l i).holds = false → w.byID.lookup s.id = none
  read : ∀ u, stageAt l i = .read u → u = owner
  signedIn : (stageAt l i).holds = true → owner ≠ []
  owned : ∀ r, w.byID.lookup s.id = some r → r.userID = owner
  made : stageAt l i = .made → w.byID.lookup old ≠ none → w.byID.lookup s.id ≠ none
  retired : Retired old l i ↔ stageAt l i = .retired
  kept : stageAt l i = .retired → w.byID.lookup s.id ≠ none ∨ DeletedLater old owner l i s.id

section

variable (h : Mover old owner w l i s) (hne : ev.tid ≠ i)
  (hold : ∀ r, w'.byID.lookup old = some r → w.byID.lookup old = some r)

include h hne hold

/-- A step of somebody else: the successor does not come, and when it goes it was deleted. -/
theorem Mover.other (hsub : ∀ r, w'.byID.lookup s.id = some r → w.byID.lookup s.id = some r)
    (hlost : w.byID.lookup s.id ≠ none → w'.byID.lookup s.id = none →
      Deletes owner s.id ev ∧ (stageAt l i = .made → w'.byID.lookup old = none)) :
    Mover old owner w' (l ++ [ev]) i s := by
  have hstage : stageAt (l ++ [ev]) i = stageAt l i := by rw [stageAt_concat, if_neg hne]
  have hret : Retired old (l ++ [ev]) i ↔ Retired old l i := by
    rw [retired_concat]
    constructor
    · rintro (hret | ⟨cond, rfl⟩)
      · exact hret
      · exact absurd rfl hne
    · exact .inl
  constructor
  · intro hholds
    rw [hstage] at hholds
    have habsent := h.absent hholds
    cases hs : w'.byID.lookup s.id with
    | none => rfl
    | some r =>
      rw [hsub r hs] at habsent
      cases habsent
  · rw [hstage]
    exact h.read
  · rw [hstage]
    exact h.signedIn
  · intro r hr
    exact h.owned r (hsub r hr)
  · intro hmade holdthere hgone
    rw [hstage] at hmade
    obtain ⟨r, hr⟩ := ne_none_iff_exists'.mp holdthere
    have hthere := h.made hmade (by rw [hold r hr]; simp)
    exact holdthere ((hlost hthere hgone).2 hmade)
  · rw [hret, hstage]
    exact h.retired
  · intro hretired
    rw [hstage] at hretired
    by_cases hgone : w'.byID.lookup s.id = none
    · right
      rcases h.kept hretired with hthere | hlater
      · exact ⟨l, ev, [], rfl, h.retired.mpr hretired, (hlost hthere hgone).1⟩
      · exact hlater.concat ev
    · exact .inl hgone

theorem Mover.untouched
    (hsame : w'.byID.lookup s.id = w.byID.lookup s.id) : Mover old owner w' (l ++ [ev]) i s := by
  apply h.other hne hold
  · intro r hr
    exact hsame ▸ hr
  · intro hthere hnone
    exact absurd (hsame ▸ hnone) hthere

end

theorem Mover.of_absent (habsent : w.byID.lookup s.id = none) (hholds : (stageAt l i).holds = false)
    (hread : ∀ u, stageAt l i = .read u → u = owner) (hnot : ¬Retired old l i) :
    Mover old owner w l i s := by
  have hstage : ∀ t, t.holds = true → stageAt l i ≠ t := by
    rintro t ht rfl
    rw [ht] at hholds
    cases hholds
  constructor
  · exact fun _ => habsent
  · exact hread
  · intro h
    rw [h] at hholds
    cases hholds
  · intro r hr
    rw [habsent] at hr
    cases hr
  · exact fun h => absurd h (hstage .made rfl)
  · exact ⟨fun h => absurd h hnot, fun h => absurd h (hstage .retired rfl)⟩
  · exact fun h => absurd h (hstage .retired rfl)

theorem Mover.not_retired_concat (h : Mover old owner w l i s) (hstage : stageAt l i ≠ .retired)
    (hev : ¬Retires old i ev) : ¬Retired old (l ++ [ev]) i := by
  rw [retired_concat]
  rintro (hret | hret)
  · exact hstage (h.retired.mp hret)
  · exact hev hret

theorem Mover.without (h : Mover old owner w l i s) (hstage : stageAt l i ≠ .retired)
    (htid : ev.tid = i) (habsent : w'.byID.lookup s.id = none) {t : Stage}
    (ht : (stageAt l i).next ev.op ev.res = t) (hholds : t.holds = false)
    (hread : ∀ u, t = .read u → u = owner) : Mover old owner w' (l ++ [ev]) i s := by
  have hnext : stageAt (l ++ [ev]) i = t := by rw [stageAt_concat, if_pos htid, ht]
  refine .of_absent habsent (by rw [hnext, hholds]) (by rwa [hnext]) (h.not_retired_concat hstage ?_)
  rintro ⟨cond, rfl⟩
  rw [← ht] at hholds
  cases hholds

variable {now : Int}

section

variable (now) in
abbrev Mover.After (_ : Mover old owner w l i s) (o : StoreOp D) : Prop :=
  Mover old owner (w.exec now o).2 (l ++ [⟨i, o, (w.exec now o).1⟩]) i s

variable (h : Mover old owner w l i s)

include h

theorem Mover.get (hother : s.id ≠ old) (hstage : stageAt l i = .begun)
    (horigin : ∀ r, w.byID.lookup old = some r → r.userID = owner) : h.After now (.get old) := by
  unfold After
  set a := w.exec now (.get old)
  have habsent : a.2.byID.lookup s.id = none := by
    have hsame := h.absent (by rw [hstage]; rfl)
    rcases w.lookup_find now old s.id with hkeep | ⟨hid, -⟩
    · exact hkeep.trans hsame
    · exact absurd hid hother
  have hbegun : stageAt l i ≠ .retired := by simp [hstage]
  cases hres : a.1 with
  | error e =>
    refine h.without hbegun rfl habsent rfl rfl ?_
    exact nofun
  | ok r =>
    refine h.without hbegun rfl habsent rfl rfl ?_
    rintro _ ⟨rfl⟩
    exact horigin r (lookup_of_find hres)

theorem Mover.put (hid : s'.id = s.id)
    (hsigned : s'.userID ≠ []) (hstage : stageAt l i = .read s'.userID) : h.After now (.put s') := by
  unfold After
  have howner : s'.userID = owner := h.read _ hstage
  have hread : stageAt l i ≠ .retired := by simp [hstage]
  by_cases hempty : s'.id = []
  · have hexec : w.exec now (.put s') = (.error .emptyID, w) := by
      simp [MemoryStore.exec, MemoryStore.put, hempty]
    rw [hexec]
    refine h.without hread rfl (h.absent (by rw [hstage]; rfl)) rfl rfl ?_
    exact nofun
  · obtain ⟨r, hr, hruser, hexec⟩ : ∃ r : StoredSession D, r.id = s.id ∧ r.userID = s'.userID ∧
        w.exec now (.put s') = (.ok (), w.insert r) := by
      refine ⟨{ s' with createdAt := if s'.createdAt = 0 then now else s'.createdAt, lastSeenAt := now },
        hid, rfl, ?_⟩
      simp [MemoryStore.exec, MemoryStore.put, hempty]
    have hself : (w.insert r).byID.lookup s.id = some r := by
      rw [MemoryStore.lookup_insert, if_pos hr.symm]
    have hmade : stageAt (l ++ [⟨i, .put s', .ok ()⟩]) i = .made := by
      rw [stageAt_concat, if_pos rfl]
      rfl
    have hnot : ¬Retired old (l ++ [⟨i, .put s', .ok ()⟩]) i := by
      apply h.not_retired_concat hread
      exact nofun
    rw [hexec]
    constructor
    · intro hholds
      rw [hmade] at hholds
      cases hholds
    · intro u hu
      rw [hmade] at hu
      cases hu
    · intro _
      rw [← howner]
      exact hsigned
    · intro r' hr'
      rw [hself] at hr'
      rw [← Option.some.inj hr', hruser, howner]
    · rw [hself]
      simp
    · rw [hmade]
      exact ⟨fun hret => absurd hret hnot, nofun⟩
    · intro hbad
      rw [hmade] at hbad
      cases hbad

theorem Mover.deleteIf (hother : s.id ≠ old) (hstage : stageAt l i = .made) :
    h.After now (.deleteIf old fun _ => true) := by
  unfold After
  set a := w.exec now (.deleteIf old fun _ => true)
  have hlookup : a.2.byID.lookup s.id =
      w.byID.lookup s.id := (w.lookup_deleteIf now old s.id).trans (if_neg hother)
  have hold : a.2.byID.lookup old = none :=
    (w.lookup_deleteIf now old old).trans (if_pos rfl)
  have hsigned : owner ≠ [] := h.signedIn (by rw [hstage]; rfl)
  have hres : a.1 = .ok (w.deleteIf now old fun _ => true).1 := rfl
  rw [hres]
  have hnext : ∀ b : Bool, stageAt (l ++ [⟨i, .deleteIf old fun _ => true, .ok b⟩]) i =
      if b then .retired else .left := by
    intro b
    rw [stageAt_concat, if_pos rfl]
    cases b <;> rfl
  have howned : ∀ r, a.2.byID.lookup s.id = some r → r.userID = owner := by
    intro r hr
    rw [hlookup] at hr
    exact h.owned r hr
  generalize hb : (w.deleteIf now old fun _ => true).1 = b
  refine ⟨?_, ?_, fun _ => hsigned, howned, fun _ hbad => absurd hold hbad, ?_, ?_⟩
  · intro hholds
    rw [hnext] at hholds
    cases b <;> cases hholds
  · intro u hu
    rw [hnext] at hu
    cases b <;> cases hu
  · rw [hnext]
    cases b with
    | true => exact ⟨fun _ => rfl, fun _ => retired_concat.mpr (.inr ⟨_, rfl⟩)⟩
    | false =>
      refine ⟨fun hret => absurd hret (h.not_retired_concat (by simp [hstage]) ?_), nofun⟩
      exact nofun
  · intro hretired
    rw [hnext] at hretired
    cases b with
    | true =>
      rw [hlookup]
      exact .inl (h.made hstage (deleteIf_held hb))
    | false => cases hretired

theorem Mover.undo (hstage : stageAt l i = .left) : h.After now (.delete s.id) := by
  have habsent : (w.exec now (.delete s.id)).2.byID.lookup s.id = none :=
    (w.lookup_removeLocked s.id s.id).trans (if_pos rfl)
  refine h.without (by simp [hstage]) rfl habsent rfl rfl ?_
  exact nofun

end

def EndsOld (old owner : Bytes) (ev : StoreEvent D) : Prop :=
  (∃ i, Retires old i ev) ∨ Deletes owner old ev

/-- In the middle of a run; `calls` are all its calls. -/
structure Moving (m : MemoryStore D) (old : Bytes) (calls : Nat → Option (RecordCall D))
    (w : MemoryStore D) (l : List (StoreEvent D)) : Prop where
  origin : ∀ r, w.byID.lookup old = some r → m.byID.lookup old = some r
  mover : ∀ i s, calls i = some (.move old s) → Mover old (m.ownerOf old) w l i s
  gone : m.ownerOf old ≠ [] → (∃ ev ∈ l, EndsOld old (m.ownerOf old) ev) → w.byID.lookup old = none
  first : m.ownerOf old ≠ [] → EachAfter (fun pre ev => (∃ i, Retires old i ev) →
    ∀ ev' ∈ pre, ¬EndsOld old (m.ownerOf old) ev') l

variable {calls : Nat → Option (RecordCall D)}

theorem Moving.owner_of (h : Moving m old calls w l)
    {r : StoredSession D} (hr : w.byID.lookup old = some r) : r.userID = m.ownerOf old := by
  rw [ownerOf, h.origin r hr]
  rfl

/-- The old record does not come back, is gone after an event that ends it, and there before one
that retires it. -/
theorem Moving.step (h : Moving m old calls w l)
    (hold : ∀ r, w'.byID.lookup old = some r → w.byID.lookup old = some r)
    (hends : m.ownerOf old ≠ [] → EndsOld old (m.ownerOf old) ev → w'.byID.lookup old = none)
    (hretires : (∃ i, Retires old i ev) → w.byID.lookup old ≠ none)
    (hmover : ∀ i s, calls i = some (.move old s) → Mover old (m.ownerOf old) w' (l ++ [ev]) i s) :
    Moving m old calls w' (l ++ [ev]) := by
  constructor
  · intro r hr
    exact h.origin r (hold r hr)
  · exact hmover
  · rintro hsigned ⟨ev', hmem, hev'⟩
    rcases mem_append.mp hmem with hmem | hmem
    · have hnone := h.gone hsigned ⟨ev', hmem, hev'⟩
      cases hs : w'.byID.lookup old with
      | none => rfl
      | some r =>
        rw [hold r hs] at hnone
        cases hnone
    · rw [mem_singleton.mp hmem] at hev'
      exact hends hsigned hev'
  · intro hsigned
    refine eachAfter_concat.mpr ⟨h.first hsigned, ?_⟩
    intro hret ev' hmem hev'
    exact hretires hret (h.gone hsigned ⟨ev', hmem, hev'⟩)

structure Apart (old : Bytes) (calls : Nat → Option (RecordCall D)) : Prop where
  same : ∀ i oldID s, calls i = some (.move oldID s) → oldID = old
  distinct : ∀ i j s s', calls i = some (.move old s) → calls j = some (.move old s') →
    s.id = s'.id → i = j
  other : ∀ i s, calls i = some (.move old s) → s.id ≠ old

variable (now i) in
abbrev Moving.After (_ : Moving m old calls w l) (o : StoreOp D) : Prop :=
  Moving m old calls (w.exec now o).2 (l ++ [⟨i, o, (w.exec now o).1⟩])

section

variable (h : Moving m old calls w l) (hapart : Apart old calls)
  (hcall : calls i = some (.move old s))

include h hapart hcall

/-- A step of one move, which leaves the successors of the others alone. -/
theorem Moving.own {o : StoreOp D}
    (hold : ∀ r, (w.exec now o).2.byID.lookup old = some r → w.byID.lookup old = some r)
    (hends : EndsOld old (m.ownerOf old) ⟨i, o, (w.exec now o).1⟩ →
      (w.exec now o).2.byID.lookup old = none)
    (hretires : (∃ j, Retires old j ⟨i, o, (w.exec now o).1⟩) → w.byID.lookup old ≠ none)
    (hkeep : ∀ k, k ≠ old → k ≠ s.id → (w.exec now o).2.byID.lookup k = w.byID.lookup k)
    (hself : (h.mover i s hcall).After now o) : h.After i now o := by
  refine h.step hold (fun _ => hends) hretires ?_
  intro j t hj
  by_cases hij : i = j
  · subst hij
    obtain rfl : s = t := by simpa using hcall.symm.trans hj
    exact hself
  · refine (h.mover j t hj).untouched hij hold (hkeep _ (hapart.other j t hj) ?_)
    intro hsame
    exact hij (hapart.distinct j i t s hj hcall hsame).symm

theorem Moving.get (hstage : stageAt l i = .begun) : h.After i now (.get old) := by
  apply h.own hapart hcall
  · exact fun r => lookup_of_find_held
  · rintro (⟨j, cond, hbad⟩ | hbad | hbad) <;> cases hbad
  · exact nofun
  · intro k hk _
    rcases w.lookup_find now old k with hsame | ⟨hid, -⟩
    · exact hsame
    · exact absurd hid hk
  · exact (h.mover i s hcall).get (hapart.other i s hcall) hstage fun r => h.owner_of

theorem Moving.put (hid : s'.id = s.id)
    (hsigned : s'.userID ≠ []) (hstage : stageAt l i = .read s'.userID) :
    h.After i now (.put s') := by
  have hkeep : ∀ k, k ≠ s.id → (w.exec now (.put s')).2.byID.lookup k = w.byID.lookup k := by
    intro k hk
    show (w.put now s').2.byID.lookup k = _
    unfold MemoryStore.put
    split
    · rfl
    · rw [lookup_insert, if_neg (by rw [hid]; exact hk)]
  apply h.own hapart hcall
  · intro r hr
    rw [hkeep old (hapart.other i s hcall).symm] at hr
    exact hr
  · rintro (⟨j, cond, hbad⟩ | hbad | hbad) <;> cases hbad
  · exact nofun
  · exact fun k _ hk => hkeep k hk
  · exact (h.mover i s hcall).put hid hsigned hstage

theorem Moving.deleteIf (hstage : stageAt l i = .made) :
    h.After i now (.deleteIf old fun _ => true) := by
  have hlookup : ∀ k, (w.exec now (.deleteIf old fun _ => true)).2.byID.lookup k =
      if k = old then none else w.byID.lookup k := w.lookup_deleteIf now old
  have hgone := (hlookup old).trans (if_pos rfl)
  apply h.own hapart hcall
  · intro r hr
    rw [hgone] at hr
    cases hr
  · exact fun _ => hgone
  · rintro ⟨j, cond, hev⟩
    apply deleteIf_held
    simp only [Event.mk.injEq, StoreOp.deleteIf.injEq] at hev
    exact Except.ok.inj (eq_of_heq hev.2.2)
  · exact fun k hk _ => (hlookup k).trans (if_neg hk)
  · exact (h.mover i s hcall).deleteIf (hapart.other i s hcall) hstage

end

variable (now) in
theorem Moving.delete (h : Moving m old calls w l) (hapart : Apart old calls)
    (hmove : ∀ s, calls i = some (.move old s) → s.id = id ∧ stageAt l i = .left)
    (hlate : ∀ j s, i ≠ j → calls j = some (.move old s) → s.id = id → stageAt l j ≠ .made) :
    h.After i now (.delete id) := by
  have hlookup : ∀ k, (w.exec now (.delete id)).2.byID.lookup k =
      if k = id then none else w.byID.lookup k := w.lookup_removeLocked id
  have hsub : ∀ k r, (w.exec now (.delete id)).2.byID.lookup k = some r → w.byID.lookup k = some r :=
    fun _ _ => lookup_of_removeLocked
  apply h.step (hsub old)
  · rintro - (⟨j, cond, hbad⟩ | hid | hbad)
    · cases hbad
    · obtain rfl : id = old := by simpa using hid
      exact (hlookup id).trans (if_pos rfl)
    · cases hbad
  · exact nofun
  · intro j t hj
    by_cases hij : i = j
    · subst hij
      obtain ⟨rfl, hstage⟩ := hmove t hj
      exact (h.mover i t hj).undo hstage
    · refine (h.mover j t hj).other hij (hsub old) (hsub t.id) ?_
      intro hthere hnone
      have hid : t.id = id := by
        by_contra hid
        rw [hlookup, if_neg hid] at hnone
        exact hthere hnone
      exact ⟨.inl (by rw [hid]), fun hmade => absurd hmade (hlate j t hij hj hid)⟩

variable (now) in
theorem Moving.deleteAllForUser (h : Moving m old calls w l)
    (hcall : ∀ s, calls i ≠ some (.move old s))
    (userID : Bytes) : h.After i now (.deleteAllForUser userID) := by
  set a := w.exec now (.deleteAllForUser userID)
  have hlookup : ∀ k, a.2.byID.lookup k =
      if userID ≠ [] ∧ ∃ s, w.byID.lookup k = some s ∧ s.userID = userID then none
      else w.byID.lookup k := w.lookup_deleteAllForUser userID
  have hsub : ∀ k r, a.2.byID.lookup k = some r → w.byID.lookup k = some r := by
    intro k r hr
    rw [hlookup] at hr
    split at hr
    · cases hr
    · exact hr
  -- When the owner signs out, the old record goes.
  have hgone : userID = m.ownerOf old → userID ≠ [] → a.2.byID.lookup old = none := by
    intro howner hne
    cases hr : a.2.byID.lookup old with
    | none => rfl
    | some r =>
      have hr' := hsub old r hr
      rw [hlookup, if_pos ⟨hne, r, hr', (h.owner_of hr').trans howner.symm⟩] at hr
      cases hr
  apply h.step (hsub old)
  · rintro hsigned (⟨j, cond, hbad⟩ | hbad | hid)
    · cases hbad
    · cases hbad
    · obtain rfl : userID = m.ownerOf old := by simpa using hid
      exact hgone rfl hsigned
  · exact nofun
  · intro j t hj
    have hij : i ≠ j := by
      rintro rfl
      exact hcall t hj
    refine (h.mover j t hj).other hij (hsub old) (hsub t.id) ?_
    intro hthere hnone
    rw [hlookup] at hnone
    split at hnone
    case isTrue hlost =>
      obtain ⟨hne, r, hr, huser⟩ := hlost
      have howner : userID = m.ownerOf old := huser.symm.trans ((h.mover j t hj).owned r hr)
      exact ⟨.inr (by rw [howner]), fun _ => hgone howner hne⟩
    case isFalse => exact absurd hnone hthere

end Run

theorem stageAt_append {l l' : List (StoreEvent D)} {i : Nat}
    (h : ∀ ev ∈ l', ev.tid ≠ i) : stageAt (l ++ l') i = stageAt l i := by
  induction l' using reverseRecOn with
  | nil => rw [append_nil]
  | append_singleton l' ev ih =>
    have hlast := h ev mem_concat_self
    rw [← append_assoc, stageAt_concat, if_neg hlast]
    exact ih fun ev' hev' => h ev' (mem_append_left _ hev')

section Whole

variable {m : MemoryStore D} {old : Bytes} {acts : List (Act Int (RecordCall D))} {i : Nat}
  {s : StoredSession D}

theorem movedOn_judged (m : MemoryStore D) (acts : List (Act Int (RecordCall D))) :
    System.Judged staging RecordCall.ends (movedOn m acts) :=
  recordCalls.judged_run body_staging (fun _ _ _ _ => trivial) m acts

theorem stageAt_of_returned {r : Except StoreErr Unit}
    (h : (movedOn m acts).Returned i (.move old s) r) :
    stageAt (movedOn m acts).log i = .retired ∧ r = .ok () ∨
      (stageAt (movedOn m acts).log i).holds = false := by
  have hends := (movedOn_judged m acts).returned h
  cases r with
  | ok _ => exact .inl ⟨hends, rfl⟩
  | error e => exact .inr hends

theorem late_delete (hfresh : FreshMoves m old acts) {before after : List (Act Int (RecordCall D))}
    (hacts : acts = before ++ after) {k : Nat}
    (hk : (movedOn m before).callOf k = some (.delete id))
    (hi : (movedOn m acts).callOf i = some (.move old s)) (hid : s.id = id) :
    stageAt (movedOn m before).log i ≠ .made := by
  obtain ⟨first, rest, hbefore, -⟩ := recordCalls.spawn_of_callOf hk
  have hsplit : acts = first ++ .spawn (.delete id) :: (rest ++ after) := by
    rw [hacts, hbefore]
    simp
  obtain ⟨r, hret⟩ := hfresh.unseen first (rest ++ after) id hsplit i s hi hid
  obtain ⟨l, hl, hsilent⟩ := recordCalls.idle_run (System.idle_of_returned hret)
    (.spawn (.delete id) :: rest)
  have hlog : (movedOn m before).log = (movedOn m first).log ++ l := by
    rw [← hl, hbefore]
    exact congrArg Pool.log (recordCalls.run_append _ _ _)
  rw [hlog, stageAt_append hsilent]
  intro hmade
  rcases stageAt_of_returned hret with ⟨hretired, -⟩ | hholds
  · rw [hmade] at hretired
    cases hretired
  · rw [hmade] at hholds
    cases hholds

theorem moving_run (hfresh : FreshMoves m old acts) :
    Moving m old (movedOn m acts).callOf (movedOn m acts).world (movedOn m acts).log := by
  have hapart : Apart old (movedOn m acts).callOf := ⟨hfresh.same, hfresh.distinct, hfresh.other⟩
  refine recordCalls.judged_invariant_of (J := fun _ => True) (fun _ _ _ _ => trivial) body_staging
    (fun _ _ _ _ _ => trivial) trivial ?_ ?_
  · constructor
    · exact fun r hr => hr
    · intro i s hi
      refine Mover.of_absent (hfresh.unused i s hi) rfl ?_ ?_
      · exact nofun
      · rintro ⟨ev, hmem, -⟩
        cases hmem
    · rintro - ⟨ev, hmem, -⟩
      cases hmem
    · exact fun _ => eachAfter_nil _
  · rintro before after hacts _ rfl i now c o hmoving hcall hmay
    have hcall' : (movedOn m acts).callOf i = some c := by
      rw [hacts, movedOn, recordCalls.run_append]
      exact recordCalls.callOf_run_of_some hcall after
    cases c with
    | move oldID s =>
      obtain rfl := hfresh.same i oldID s hcall'
      cases o with
      | get id =>
        obtain ⟨rfl, hstage⟩ := hmay
        exact hmoving.get hapart hcall' hstage
      | put s' =>
        obtain ⟨hid, hsigned, hstage⟩ := hmay
        exact hmoving.put hapart hcall' hid hsigned hstage
      | deleteIf id cond =>
        obtain ⟨rfl, rfl, hstage⟩ := hmay
        exact hmoving.deleteIf hapart hcall' hstage
      | delete id =>
        obtain ⟨rfl, hstage⟩ := hmay
        apply hmoving.delete now hapart
        · intro s' hs'
          obtain rfl : s = s' := by simpa using hcall'.symm.trans hs'
          exact ⟨rfl, hstage⟩
        · intro j s' hij hj hid
          exact absurd (hapart.distinct j i s' s hj hcall' hid).symm hij
      | _ => exact hmay.elim
    | delete id =>
      obtain rfl : o = .delete id := hmay
      apply hmoving.delete now hapart
      · intro s hs
        rw [hcall'] at hs
        cases hs
      · intro j s _ hj hid
        exact late_delete hfresh hacts hcall hj hid
    | deleteAllForUser userID =>
      obtain rfl : o = .deleteAllForUser userID := hmay
      apply hmoving.deleteAllForUser now
      intro s hs
      rw [hcall'] at hs
      cases hs

theorem retired_unique (hmoving : Moving m old (movedOn m acts).callOf (movedOn m acts).world
    (movedOn m acts).log) (hsigned : m.ownerOf old ≠ []) {j : Nat}
    (hi : Retired old (movedOn m acts).log i) (hj : Retired old (movedOn m acts).log j) : i = j := by
  obtain ⟨ev, hev, hret⟩ := hi
  obtain ⟨ev', hev', hret'⟩ := hj
  rcases (hmoving.first hsigned).pair hev hev' with heq | ⟨pre, hmem, hfirst⟩ | ⟨pre, hmem, hfirst⟩
  · obtain ⟨cond, rfl⟩ := hret
    obtain ⟨cond', hcond'⟩ := hret'
    rw [← heq] at hcond'
    exact congrArg Event.tid hcond'
  · exact absurd (.inl ⟨i, hret⟩) (hfirst ⟨j, hret'⟩ ev hmem)
  · exact absurd (.inl ⟨j, hret'⟩) (hfirst ⟨i, hret⟩ ev' hmem)

/-- At most one successor is there in the end; a single move has reported success exactly if one is
there or was deleted after it had retired the old record; and none is there when the old record
ended before. -/
theorem one_successor (m : MemoryStore D) (old : Bytes) (acts : List (Act Int (RecordCall D)))
    (hfresh : FreshMoves m old acts)
    (hend : ∀ i c, (movedOn m acts).callOf i = some c → ∃ r, (movedOn m acts).Returned i c r) :
    (∀ i j s s', (movedOn m acts).callOf i = some (.move old s) →
      (movedOn m acts).callOf j = some (.move old s') →
      (movedOn m acts).world.byID.lookup s.id ≠ none →
      (movedOn m acts).world.byID.lookup s'.id ≠ none → i = j) ∧
    ((∃! i, ∃ s, (movedOn m acts).Returned i (.move old s) (.ok ())) ↔
      ∃ i s, (movedOn m acts).callOf i = some (.move old s) ∧
        ((movedOn m acts).world.byID.lookup s.id ≠ none ∨
          DeletedLater old (m.ownerOf old) (movedOn m acts).log i s.id)) ∧
    ∀ pre ev post, (movedOn m acts).log = pre ++ ev :: post → Deletes (m.ownerOf old) old ev →
      (∀ i, ¬Retired old pre i) → ∀ i s, (movedOn m acts).callOf i = some (.move old s) →
        (movedOn m acts).world.byID.lookup s.id = none := by
  set p := movedOn m acts
  have hmoving := moving_run hfresh
  -- A successor that is there at the end belongs to a move that retired the old record.
  have hthere : ∀ i s, p.callOf i = some (.move old s) → p.world.byID.lookup s.id ≠ none →
      stageAt p.log i = .retired := by
    intro i s hi hs
    obtain ⟨r, hret⟩ := hend i _ hi
    rcases stageAt_of_returned hret with ⟨hretired, -⟩ | hholds
    · exact hretired
    · exact absurd ((hmoving.mover i s hi).absent hholds) hs
  have hsigned : ∀ i s, p.callOf i = some (.move old s) →
      stageAt p.log i = .retired → m.ownerOf old ≠ [] := by
    intro i s hi hretired
    exact (hmoving.mover i s hi).signedIn (by rw [hretired]; rfl)
  have hunique : ∀ i j s s', p.callOf i = some (.move old s) → p.callOf j = some (.move old s') →
      stageAt p.log i = .retired → stageAt p.log j = .retired →
      i = j := by
    intro i j s s' hi hj hri hrj
    exact retired_unique hmoving (hsigned i s hi hri) ((hmoving.mover i s hi).retired.mpr hri)
      ((hmoving.mover j s' hj).retired.mpr hrj)
  have hsuccess : ∀ i s, p.Returned i (.move old s) (.ok ()) → stageAt p.log i = .retired := by
    intro i s hret
    exact (movedOn_judged m acts).returned hret
  refine ⟨?_, ⟨?_, ?_⟩, ?_⟩
  · intro i j s s' hi hj hs hs'
    exact hunique i j s s' hi hj (hthere i s hi hs) (hthere j s' hj hs')
  · rintro ⟨i, ⟨s, hret⟩, -⟩
    exact ⟨i, s, hret.callOf, (hmoving.mover i s hret.callOf).kept (hsuccess i s hret)⟩
  · rintro ⟨i, s, hi, hlive⟩
    have hretired : stageAt p.log i = .retired := by
      rcases hlive with hs | ⟨pre, ev, post, hlog, ⟨ev', hmem, hret⟩, -⟩
      · exact hthere i s hi hs
      · refine (hmoving.mover i s hi).retired.mp ⟨ev', ?_, hret⟩
        rw [hlog]
        exact mem_append_left _ hmem
    obtain ⟨r, hret⟩ := hend i _ hi
    refine ⟨i, ⟨s, ?_⟩, ?_⟩
    · rcases stageAt_of_returned hret with ⟨-, rfl⟩ | hholds
      · exact hret
      · rw [hretired] at hholds
        cases hholds
    · rintro j ⟨s', hret'⟩
      exact hunique j i s' s hret'.callOf hi (hsuccess j s' hret') hretired
  · intro pre ev post hlog hdel hnone i s hi
    by_contra hs
    have hretired := hthere i s hi hs
    obtain ⟨ev', hmem, hret⟩ := (hmoving.mover i s hi).retired.mpr hretired
    have hfirst := hmoving.first (hsigned i s hi hretired)
    rw [hlog] at hmem hfirst
    -- The event that retired the old record stands after the one that deleted it.
    rcases mem_append.mp hmem with hmem | hmem
    · exact hnone i ⟨ev', hmem, hret⟩
    · rcases mem_cons.mp hmem with rfl | hmem
      · obtain ⟨cond, rfl⟩ := hret
        rcases hdel with hbad | hbad <;> cases hbad
      · obtain ⟨mid, post', rfl⟩ := mem_iff_append.mp hmem
        exact hfirst (pre ++ ev :: mid) ev' post' (by simp) ⟨i, hret⟩ ev (by simp) (.inr hdel)

end Whole

/-! Two requests that move one record. -/

def recordUnder (id : String) : StoredSession Unit :=
  ⟨ascii id, ascii "u", (), 0, 0, 0, [], []⟩

def oneVisitor : MemoryStore Unit := MemoryStore.empty.insert (recordUnder "old")

/-- Both put their successor before the first retires the old record; the second takes its own back.
-/
def racingMoves : List (Act Int (RecordCall Unit)) :=
  [.spawn (.move (ascii "old") (recordUnder "a")),
    .spawn (.move (ascii "old") (recordUnder "b")),
    .run 0 1, .run 1 1, .run 0 1, .run 1 1, .run 0 1, .run 1 1, .run 1 1]

theorem racingMoves_calls {i : Nat} {c : RecordCall Unit}
    (h : (movedOn oneVisitor racingMoves).callOf i = some c) :
    i = 0 ∧ c = .move (ascii "old") (recordUnder "a") ∨
      i = 1 ∧ c = .move (ascii "old") (recordUnder "b") := by
  match i, h with
  | 0, h => exact .inl ⟨rfl, (some.inj h).symm⟩
  | 1, h => exact .inr ⟨rfl, (some.inj h).symm⟩

theorem racingMoves_fresh : FreshMoves oneVisitor (ascii "old") racingMoves := by
  constructor
  · intro i oldID s h
    rcases racingMoves_calls h with ⟨-, hc⟩ | ⟨-, hc⟩ <;> cases hc <;> rfl
  · intro i j s s' hi hj hid
    rcases racingMoves_calls hi with ⟨rfl, hc⟩ | ⟨rfl, hc⟩ <;>
      rcases racingMoves_calls hj with ⟨rfl, hc'⟩ | ⟨rfl, hc'⟩ <;> cases hc <;> cases hc' <;>
      first
        | rfl
        | exact absurd hid (by decide)
  · intro i s h
    rcases racingMoves_calls h with ⟨-, hc⟩ | ⟨-, hc⟩ <;> cases hc <;> decide
  · intro i s h
    rcases racingMoves_calls h with ⟨-, hc⟩ | ⟨-, hc⟩ <;> cases hc <;> rfl
  · intro before after id hacts
    have hmem : .spawn (.delete id) ∈ racingMoves := by
      rw [hacts]
      simp
    simp [racingMoves] at hmem

theorem racingMoves_one_successor :
    (∃! i, ∃ s, (movedOn oneVisitor racingMoves).Returned i (.move (Bytes.ascii "old") s) (.ok ())) ∧
      (movedOn oneVisitor racingMoves).world.byID.lookup (Bytes.ascii "b") = none := by
  set p := movedOn oneVisitor racingMoves
  have hend : ∀ i c, p.callOf i = some c → ∃ r, p.Returned i c r := by
    intro i c h
    rcases racingMoves_calls h with ⟨rfl, rfl⟩ | ⟨rfl, rfl⟩
    · exact ⟨.ok (), rfl⟩
    · exact ⟨.error .notFound, rfl⟩
  have hlive : p.world.byID.lookup (recordUnder "a").id ≠ none :=
    isSome_iff_ne_none.mp rfl
  obtain ⟨hone, hsuccess, -⟩ := one_successor oneVisitor (Bytes.ascii "old") racingMoves
    racingMoves_fresh hend
  refine ⟨hsuccess.mpr ⟨0, recordUnder "a", rfl, .inl hlive⟩, ?_⟩
  by_contra hother
  have hsame := hone 0 1 (recordUnder "a") (recordUnder "b") rfl rfl hlive hother
  cases hsame

end Session
