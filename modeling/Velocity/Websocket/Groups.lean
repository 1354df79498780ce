import Velocity.Lib.Map
import Velocity.Lib.Steps

/-! Group membership of a websocket server. It is kept twice: in `s.groups`, under the server's
lock, and in every client's own `Groups`, under the client's. A call that holds `s.mu` from its
first change to its last is one step: what runs under `client.mu` alone touches `Groups` only.
`LeaveAllGroups` lets go of its locks twice, so it is three steps. -/

namespace Websocket

open FMap List

variable {Id G : Type} [DecidableEq Id] [DecidableEq G]

/-- A `LeaveAllGroups` in progress, with the names it collected. -/
structure Leaving (Id G : Type) where
  client : Id
  names : List G
  cleared : Bool
  deriving DecidableEq

structure Server (Id G : Type) where
  clients : List Id
  groups : FMap G (List Id)
  groupsOf : FMap Id (List G)
  leaving : List (Leaving Id G)

/-- `delete(group, clientID)`, and of the group as well once it is empty. -/
def removeMember (c : Id) (groups : FMap G (List Id)) (g : G) : FMap G (List Id) :=
  match groups.lookup g with
  | none => groups
  | some members =>
    if members.filter (· ≠ c) = [] then groups.erase g
    else groups.insert g (members.filter (· ≠ c))

inductive GroupStep (Id G : Type)
  | joinGroup (c : Id) (g : G)
  | leaveGroup (c : Id) (g : G)
  | handleUnregister (c : Id)
  | leaveAllGroups (c : Id)
  | clear (c : Id) (names : List G)
  | remove (c : Id) (names : List G)

namespace Server

def joinGroup (s : Server Id G) (c : Id) (g : G) : Server Id G :=
  if c ∈ s.clients then
    { s with
      groups := s.groups.insert g ((items s.groups g).insert c)
      groupsOf := s.groupsOf.insert c ((items s.groupsOf c).insert g) }
  else s

def leaveGroup (s : Server Id G) (c : Id) (g : G) : Server Id G :=
  if c ∈ s.clients then
    { s with
      groups := removeMember c s.groups g
      groupsOf := s.groupsOf.insert c ((items s.groupsOf c).filter (· ≠ g)) }
  else s

def handleUnregister (s : Server Id G) (c : Id) : Server Id G :=
  if c ∈ s.clients then
    { s with
      clients := s.clients.filter (· ≠ c)
      groups := (items s.groupsOf c).foldl (removeMember c) s.groups }
  else s

def step (s : Server Id G) : GroupStep Id G → Server Id G
  | .joinGroup c g => s.joinGroup c g
  | .leaveGroup c g => s.leaveGroup c g
  | .handleUnregister c => s.handleUnregister c
  -- The three phases of LeaveAllGroups, under s.mu, client.mu and s.mu.
  | .leaveAllGroups c =>
    if c ∈ s.clients then
      { s with leaving := ⟨c, s.groups.keys.filter (c ∈ items s.groups ·), false⟩ :: s.leaving }
    else s
  | .clear c names =>
    if ⟨c, names, false⟩ ∈ s.leaving then
      { s with
        groupsOf := s.groupsOf.insert c []
        leaving := ⟨c, names, true⟩ :: s.leaving.erase ⟨c, names, false⟩ }
    else s
  | .remove c names =>
    if ⟨c, names, true⟩ ∈ s.leaving then
      { s with
        groups := names.foldl (removeMember c) s.groups
        leaving := s.leaving.erase ⟨c, names, true⟩ }
    else s

/-- The step does not add or unregister a client that is in the middle of `LeaveAllGroups`. -/
def undisturbed (s : Server Id G) : GroupStep Id G → Bool
  | .joinGroup c _ | .handleUnregister c => s.leaving.all (·.client ≠ c)
  | _ => true

end Server

section removeMember

variable {groups : FMap G (List Id)} {c x : Id} {g h : G} {l : List G}

theorem items_removeMember (c : Id) (groups : FMap G (List Id)) (g h : G) :
    items (removeMember c groups g) h =
      if h = g then (items groups g).filter (· ≠ c) else items groups h := by
  unfold removeMember
  cases hg : groups.lookup g with
  | none =>
    have hnil : items groups g = [] := by rw [items, hg]; rfl
    dsimp only
    split
    case isTrue hh => rw [hh, hnil]; rfl
    case isFalse => rfl
  | some members =>
    have hitems : items groups g = members := by rw [items, hg]; rfl
    dsimp only
    rw [hitems]
    split
    case isTrue hlast => rw [items_erase, hlast]
    case isFalse => rw [items_insert]

theorem mem_removeAll : x ∈ items (l.foldl (removeMember c) groups) h ↔
      x ∈ items groups h ∧ (h ∈ l → x ≠ c) := by
  induction l generalizing groups with
  | nil => simp
  | cons g l ih =>
    rw [foldl_cons, ih, items_removeMember]
    grind

theorem removeAll_full (hfull : ∀ g, groups.lookup g ≠ some []) :
    (l.foldl (removeMember c) groups).lookup h ≠ some [] := by
  induction l generalizing groups with
  | nil => exact hfull h
  | cons g l ih =>
    refine ih fun k => ?_
    unfold removeMember
    split
    · exact hfull k
    · split
      · rw [lookup_erase_ite]
        split
        · exact nofun
        · exact hfull k
      case isFalse hrest =>
        rw [lookup_insert_ite]
        split
        · exact fun hnil => hrest (Option.some.inj hnil)
        · exact hfull k

end removeMember

section items

variable {α β : Type} [DecidableEq α] [DecidableEq β] {m : FMap α (List β)} {j k : α} {x y : β}

theorem mem_joined : x ∈ items (m.insert k ((items m k).insert y)) j ↔
    x ∈ items m j ∨ j = k ∧ x = y := by
  rw [items_insert]
  split
  case isTrue hj => rw [hj, mem_insert_iff, or_comm, and_iff_right rfl]
  case isFalse hj => rw [or_iff_left fun hnew => hj hnew.1]

theorem mem_dropped : x ∈ items (m.insert k ((items m k).filter (· ≠ y))) j ↔
    x ∈ items m j ∧ ¬(j = k ∧ x = y) := by
  rw [items_insert]
  split
  case isTrue hj => simp [hj]
  case isFalse hj => simp [hj]

end items

/-- The two copies agree, but for a client leaving all its groups; a group holds registered clients
only. -/
structure Member (s : Server Id G) : Prop where
  full : ∀ g, s.groups.lookup g ≠ some []
  joined : ∀ g c, c ∈ items s.groups g → c ∈ s.clients ∧
    (g ∈ items s.groupsOf c ∨ ∃ names, ⟨c, names, true⟩ ∈ s.leaving) ∧
    ∀ l ∈ s.leaving, l.client = c → g ∈ l.names
  listed : ∀ g c, c ∈ s.clients → g ∈ items s.groupsOf c → c ∈ items s.groups g
  emptied : ∀ c names, ⟨c, names, true⟩ ∈ s.leaving → items s.groupsOf c = []

section

variable {s : Server Id G} (hs : Member s) {c : Id}

include hs

theorem Member.joinGroup (hfree : ∀ l ∈ s.leaving, l.client ≠ c) (g : G) :
    Member (s.joinGroup c g) := by
  rw [Server.joinGroup]
  split
  case isFalse => exact hs
  case isTrue hreg =>
    refine ⟨fun h => ?_, fun h x hx => ?_, fun h x hx hlist => ?_, fun x names hl => ?_⟩
    · rw [lookup_insert_ite]
      split
      · exact fun hnil => ne_nil_of_mem mem_insert_self (Option.some.inj hnil)
      · exact hs.full h
    · rcases mem_joined.mp hx with hx | ⟨rfl, rfl⟩
      · obtain ⟨hclient, hcovered, hcollected⟩ := hs.joined h x hx
        exact ⟨hclient, hcovered.imp_left fun hlist => mem_joined.mpr (.inl hlist), hcollected⟩
      · exact ⟨hreg, .inl (mem_joined.mpr (.inr ⟨rfl, rfl⟩)), fun l hl hlx => absurd hlx (hfree l hl)⟩
    · exact mem_joined.mpr ((mem_joined.mp hlist).imp (hs.listed h x hx) And.symm)
    · rw [items_insert, if_neg (hfree ⟨x, names, true⟩ hl)]
      exact hs.emptied x names hl

theorem Member.leaveGroup (c : Id) (g : G) : Member (s.leaveGroup c g) := by
  rw [Server.leaveGroup]
  split
  case isFalse => exact hs
  case isTrue =>
    have hold : ∀ {h x}, x ∈ items (removeMember c s.groups g) h ↔
        x ∈ items s.groups h ∧ (h ∈ [g] → x ≠ c) := mem_removeAll (l := [g])
    refine ⟨fun h => removeAll_full (l := [g]) hs.full, fun h x hx => ?_, fun h x hx hlist => ?_,
      fun x names hl => ?_⟩
    · obtain ⟨hx, hkept⟩ := hold.mp hx
      obtain ⟨hclient, hcovered, hcollected⟩ := hs.joined h x hx
      refine ⟨hclient, hcovered.imp_left fun hlist => mem_dropped.mpr ⟨hlist, fun hgone => ?_⟩,
        hcollected⟩
      exact hkept (mem_singleton.mpr hgone.2) hgone.1
    · obtain ⟨hlist, hkept⟩ := mem_dropped.mp hlist
      exact hold.mpr ⟨hs.listed h x hx hlist, fun hg hxc => hkept ⟨hxc, mem_singleton.mp hg⟩⟩
    · refine eq_nil_iff_forall_not_mem.mpr fun h hlist => ?_
      rw [mem_dropped, hs.emptied x names hl] at hlist
      exact not_mem_nil hlist.1

theorem Member.handleUnregister (hfree : ∀ l ∈ s.leaving, l.client ≠ c) :
    Member (s.handleUnregister c) := by
  rw [Server.handleUnregister]
  split
  case isFalse => exact hs
  case isTrue =>
    refine ⟨fun h => removeAll_full hs.full, fun h x hx => ?_, fun h x hx hlist => ?_, hs.emptied⟩
    · obtain ⟨hold, hkept⟩ := mem_removeAll.mp hx
      obtain ⟨hclient, hcovered, hcollected⟩ := hs.joined h x hold
      have hne : x ≠ c := by
        intro hxc
        rcases hcovered with hlist | ⟨names, hl⟩
        · exact hkept (hxc ▸ hlist) hxc
        · exact hfree _ hl hxc
      exact ⟨mem_filter.mpr ⟨hclient, decide_eq_true hne⟩, hcovered, hcollected⟩
    · obtain ⟨hx, hne⟩ := mem_filter.mp hx
      exact mem_removeAll.mpr ⟨hs.listed h x hx hlist, fun _ => of_decide_eq_true hne⟩

theorem Member.leaveAllGroups (c : Id) : Member (s.step (.leaveAllGroups c)) := by
  simp only [Server.step]
  split
  case isFalse => exact hs
  case isTrue =>
    refine ⟨hs.full, fun h x hx => ?_, hs.listed,
      fun x names hl => hs.emptied x names (by simpa using hl)⟩
    obtain ⟨hclient, hcovered, hcollected⟩ := hs.joined h x hx
    refine ⟨hclient, hcovered.imp_right fun ⟨names, hl⟩ => ⟨names, mem_cons_of_mem _ hl⟩,
      fun l hl hlx => ?_⟩
    rcases mem_cons.mp hl with rfl | hl
    · obtain rfl : c = x := hlx
      obtain ⟨members, hmem, -⟩ := mem_items_iff.mp hx
      exact mem_filter.mpr ⟨mem_keys_of_mem hmem, decide_eq_true hx⟩
    · exact hcollected l hl hlx

theorem Member.clear (c : Id) (names : List G) : Member (s.step (.clear c names)) := by
  simp only [Server.step]
  split
  case isFalse => exact hs
  case isTrue hphase =>
    refine ⟨hs.full, fun h x hx => ?_, fun h x hx hlist => ?_, fun x names hl => ?_⟩
    · obtain ⟨hclient, hcovered, hcollected⟩ := hs.joined h x hx
      refine ⟨hclient, ?_, fun l hl hlx => ?_⟩
      · by_cases hxc : x = c
        · exact .inr ⟨names, hxc ▸ mem_cons_self⟩
        · rw [items_insert, if_neg hxc]
          refine hcovered.imp_right fun ⟨names, hl⟩ => ⟨names, mem_cons_of_mem _ ?_⟩
          exact (mem_erase_of_ne (by simp)).mpr hl
      · rcases mem_cons.mp hl with rfl | hl
        · exact hcollected ⟨c, names, false⟩ hphase hlx
        · exact hcollected l (mem_of_mem_erase hl) hlx
    · rw [items_insert] at hlist
      split at hlist
      · cases hlist
      · exact hs.listed h x hx hlist
    · rw [items_insert]
      split
      · rfl
      case isFalse hxc =>
        rcases mem_cons.mp hl with heq | hl
        · exact absurd (congrArg Leaving.client heq) hxc
        · exact hs.emptied x names (mem_of_mem_erase hl)

theorem Member.remove (c : Id) (names : List G) : Member (s.step (.remove c names)) := by
  simp only [Server.step]
  split
  case isFalse => exact hs
  case isTrue hphase =>
    refine ⟨fun h => removeAll_full hs.full, fun h x hx => ?_, fun h x hx hlist => ?_,
      fun x names hl => hs.emptied x names (mem_of_mem_erase hl)⟩
    · obtain ⟨hx, hkept⟩ := mem_removeAll.mp hx
      obtain ⟨hclient, hcovered, hcollected⟩ := hs.joined h x hx
      refine ⟨hclient, hcovered.imp_right fun ⟨left, hl⟩ => ⟨left, ?_⟩,
        fun l hl => hcollected l (mem_of_mem_erase hl)⟩
      refine (mem_erase_of_ne fun heq => ?_).mpr hl
      -- The names collected hold every group the client is still in.
      have hxc : x = c := congrArg Leaving.client heq
      exact hkept (hcollected _ hphase hxc.symm) hxc
    · refine mem_removeAll.mpr ⟨hs.listed h x hx hlist, fun _ hxc => ?_⟩
      rw [hxc, hs.emptied c names hphase] at hlist
      cases hlist

theorem Member.register (hclient : c ∉ s.clients) (hidle : s.leaving = []) :
    Member { s with clients := c :: s.clients, groupsOf := s.groupsOf.insert c [] } := by
  refine ⟨hs.full, fun g x hx => ?_, fun g x hx hlist => ?_, fun x names hl => ?_⟩
  · obtain ⟨hold, hjoined⟩ := hs.joined g x hx
    have hxc : x ≠ c := fun hxc => hclient (hxc ▸ hold)
    rw [items_insert, if_neg hxc]
    exact ⟨mem_cons_of_mem _ hold, hjoined⟩
  · rw [items_insert] at hlist
    split at hlist
    · cases hlist
    case isFalse hxc => exact hs.listed g x ((mem_cons.mp hx).resolve_left hxc) hlist
  · rw [hidle] at hl
    cases hl

theorem Member.step {a : GroupStep Id G} (ha : s.undisturbed a = true) : Member (s.step a) := by
  cases a with
  | joinGroup c g => exact hs.joinGroup (by simpa [Server.undisturbed] using ha) g
  | leaveGroup c g => exact hs.leaveGroup c g
  | handleUnregister c => exact hs.handleUnregister (by simpa [Server.undisturbed] using ha)
  | leaveAllGroups c => exact hs.leaveAllGroups c
  | clear c names => exact hs.clear c names
  | remove c names => exact hs.remove c names

end

def Server.start (clients : List Id) : Server Id G := ⟨clients, ∅, ∅, []⟩

/-- If no call joins or unregisters a client in the middle of `LeaveAllGroups`, a group holds
registered clients only and at least one, and the two copies agree whenever no call is in progress.
-/
theorem membership_consistent (clients : List Id) (calls : List (GroupStep Id G))
    (hcalls : ∀ x ∈ Steps.steps Server.step (Server.start clients) calls, x.1.undisturbed x.2 = true) :
    let s := Steps.run Server.step (Server.start clients) calls
    (∀ g members, s.groups.lookup g = some members → members ≠ [] ∧ ∀ c ∈ members, c ∈ s.clients) ∧
      (s.leaving = [] → ∀ c ∈ s.clients, ∀ g, c ∈ items s.groups g ↔ g ∈ items s.groupsOf c) := by
  intro s
  have hs : Member s := by
    refine Steps.invariant (I := fun s _ => Member s) (fun s _ a hs => hs.step) ?_ hcalls
    refine ⟨?_, ?_, ?_, ?_⟩ <;> simp [Server.start]
  constructor
  · intro g members hg
    have hitems : items s.groups g = members := by rw [items, hg]; rfl
    refine ⟨fun hnil => hs.full g (hnil ▸ hg), fun c hc => ?_⟩
    exact (hs.joined g c (hitems ▸ hc)).1
  · intro hidle c hc g
    refine ⟨fun hg => ?_, hs.listed g c hc⟩
    rcases (hs.joined g c hg).2.1 with hg | ⟨names, hl⟩
    · exact hg
    · simp [hidle] at hl

/-- A client that leaves all its groups, and then joins one. -/
theorem membership_consistent_left :
    let s := Steps.run Server.step (Server.start [1]) [.joinGroup 1 "a", .leaveAllGroups 1,
      .clear 1 ["a"], .remove 1 ["a"], .joinGroup 1 "b"]
    s.groups.lookup "b" = some [1] ∧ s.leaving = [] ∧
      ∀ c ∈ s.clients, ∀ g, c ∈ items s.groups g ↔ g ∈ items s.groupsOf c :=
  ⟨by decide, by decide, (membership_consistent [1] _ (by decide)).2 (by decide)⟩

/-- The join is forgotten by the client, which then stays in the group when it is unregistered. -/
theorem join_between_phases :
    let s := Steps.run Server.step (Server.start [1]) [.leaveAllGroups 1, .joinGroup 1 "a",
      .clear 1 [], .remove 1 []]
    s.leaving = [] ∧ 1 ∈ s.clients ∧ 1 ∈ items s.groups "a" ∧ "a" ∉ items s.groupsOf 1 ∧
      1 ∉ (s.step (.handleUnregister 1)).clients ∧
      1 ∈ items (s.step (.handleUnregister 1)).groups "a" := by
  decide

end Websocket
