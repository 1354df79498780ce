import Velocity.Websocket.Groups

/-! Connections of a websocket server. `HandleConnection` counts a connection and refuses it, or hands
the client to the run loop through `register`; the end of its read pump sends it to `unregister`. The
run loop takes from either channel. -/

namespace Websocket

open FMap Server List

variable {Id G : Type} [DecidableEq Id] [DecidableEq G]

inductive Listener
  | connect
  | disconnect
  deriving DecidableEq

/-- `admitted` and `refused` are calls of `HandleConnection` in progress, `reading` the clients
whose read pump runs, `ending` and `handled` those whose `handleUnregister` runs or has returned. -/
structure Hub (Id G : Type) where
  server : Server Id G := ⟨[], ∅, ∅, []⟩
  activeConns : Int := 0
  admitted : List Id := []
  refused : List Id := []
  reading : List Id := []
  register : List Id := []
  unregister : List Id := []
  ending : List Id := []
  handled : List Id := []
  events : List (Listener × Id) := []

inductive HubStep (Id G : Type)
  | count (c : Id)
  | rollback (c : Id)
  | accept (c : Id)
  | readPumpEnds (c : Id)
  | handleRegister
  | handleUnregister
  | release
  | joinGroup (c : Id) (g : G)
  | leaveGroup (c : Id) (g : G)

namespace Hub

def step (maxConnections : Int) (h : Hub Id G) : HubStep Id G → Hub Id G
  | .count c =>
    if c ∈ h.admitted ++ h.reading ++ h.unregister ++ h.ending ++ h.handled then h
    else if 0 < maxConnections ∧ maxConnections < h.activeConns + 1 then
      { h with activeConns := h.activeConns + 1, refused := c :: h.refused }
    else { h with activeConns := h.activeConns + 1, admitted := c :: h.admitted }
  -- The deferred rollback: of a refusal, a failure or a panic before the pumps are started.
  | .rollback c =>
    if c ∈ h.refused then
      { h with activeConns := h.activeConns - 1, refused := h.refused.erase c }
    else if c ∈ h.admitted then
      { h with activeConns := h.activeConns - 1, admitted := h.admitted.erase c }
    else h
  | .accept c =>
    if c ∈ h.admitted then
      { h with
        admitted := h.admitted.erase c, register := h.register ++ [c], reading := c :: h.reading }
    else h
  | .readPumpEnds c =>
    if c ∈ h.reading then
      { h with reading := h.reading.erase c, unregister := h.unregister ++ [c] }
    else h
  | .handleRegister =>
    match h.ending, h.register with
    | [], c :: rest =>
      { h with
        register := rest
        server := { h.server with
          clients := h.server.clients.insert c, groupsOf := h.server.groupsOf.insert c [] }
        events := h.events ++ [(.connect, c)] }
    | _, _ => h
  | .handleUnregister =>
    match h.ending, h.unregister with
    | [], c :: rest =>
      if c ∈ h.server.clients then
        { h with
          unregister := rest, server := h.server.handleUnregister c, ending := [c]
          events := h.events ++ [(.disconnect, c)] }
      else { h with unregister := rest, handled := c :: h.handled }
    | _, _ => h
  | .release =>
    match h.ending with
    | c :: rest =>
      { h with activeConns := h.activeConns - 1, ending := rest, handled := c :: h.handled }
    | [] => h
  | .joinGroup c g => { h with server := h.server.joinGroup c g }
  | .leaveGroup c g => { h with server := h.server.leaveGroup c g }

/-- The run loop serves a client's `unregister` after its `register`. -/
def inOrder (h : Hub Id G) : HubStep Id G → Bool
  | .handleUnregister => h.unregister.head?.all (· ∉ h.register)
  | _ => true

/-- The connections accepted whose unregistration is not handled yet. -/
def held (h : Hub Id G) : List Id := h.reading ++ h.unregister ++ h.ending

def taken (h : Hub Id G) : Int := h.admitted.length + h.held.length

/-- The slots counted that no connection holds. -/
def slack (h : Hub Id G) : Int := h.activeConns - (h.taken + h.refused.length)

/-- A client served out of order gives no slot back. -/
def lost (h : Hub Id G) : HubStep Id G → Int
  | .handleUnregister =>
    match h.ending, h.unregister with
    | [], c :: _ => if c ∈ h.server.clients then 0 else 1
    | _, _ => 0
  | _ => 0

theorem slots_step (maxConnections : Int) (h : Hub Id G) (a : HubStep Id G) :
    (h.step maxConnections a).slack = h.slack + h.lost a ∧
      (0 ≤ h.slack → h.taken ≤ maxConnections → 0 < maxConnections →
        (h.step maxConnections a).taken ≤ maxConnections) := by
  simp only [slack, taken, held, length_append]
  cases a with
  | count c =>
    simp only [Hub.step, lost]
    split
    case isTrue => omega
    case isFalse => split <;> simp only [length_cons] <;> omega
  | rollback c =>
    simp only [Hub.step, lost]
    split
    case isTrue hc =>
      have hlen := length_erase_add_one hc
      dsimp only
      omega
    case isFalse =>
      split
      case isTrue hc =>
        have hlen := length_erase_add_one hc
        dsimp only
        omega
      case isFalse => omega
  | accept c | readPumpEnds c =>
    simp only [Hub.step, lost]
    split
    case isTrue hc =>
      have hlen := length_erase_add_one hc
      simp only [length_append, length_cons, length_nil]
      omega
    case isFalse => omega
  | handleUnregister =>
    simp only [Hub.step, lost]
    split
    case h_1 c rest hending hunregister =>
      rw [hending, hunregister]
      split <;> simp only [length_cons, length_nil] <;> omega
    case h_2 => omega
  | release =>
    simp only [Hub.step, lost]
    split
    case h_1 c rest hending =>
      simp only [hending, length_cons]
      omega
    case h_2 => omega
  | handleRegister =>
    simp only [Hub.step, lost]
    split
    case h_1 =>
      dsimp only
      omega
    case h_2 => omega
  | joinGroup c g | leaveGroup c g =>
    simp only [Hub.step, lost]
    omega

theorem slots_run (maxConnections : Int) (steps : List (HubStep Id G)) :
    let h := Steps.run (Hub.step maxConnections) {} steps
    0 ≤ h.slack ∧ (0 < maxConnections → h.taken ≤ maxConnections) := by
  induction steps using reverseRecOn with
  | nil => exact ⟨le_rfl, le_of_lt⟩
  | append_singleton steps a ih =>
    rw [Steps.run_concat]
    obtain ⟨hslack, htaken⟩ := ih
    generalize Steps.run (Hub.step maxConnections) {} steps = h at *
    obtain ⟨hnext, hroom⟩ := slots_step maxConnections h a
    have hlost : 0 ≤ h.lost a := by
      unfold lost
      repeat' split
      all_goals decide
    exact ⟨by omega, fun hmax => hroom hslack (htaken hmax) hmax⟩

structure Sound (h : Hub Id G) : Prop where
  placed : ∀ c, h.admitted.count c + h.held.count c + h.handled.count c ≤ 1 ∧
    h.register.count c + h.server.clients.count c = h.reading.count c + h.unregister.count c
  heard : ∀ c, h.events.filter (·.2 = c) =
    if c ∈ h.ending ∨ c ∈ h.handled then [(.connect, c), (.disconnect, c)]
    else if c ∈ h.server.clients then [(.connect, c)] else []
  member : Member h.server
  idle : h.server.leaving = []

theorem count_filter_ne (l : List Id) (c x : Id) :
    (l.filter (· ≠ c)).count x = if x = c then 0 else l.count x := by
  split
  case isTrue hx => simp [hx, count_eq_zero]
  case isFalse hx => exact count_filter (by simpa using hx)

theorem count_cons_add (c x : Id) (l : List Id) : (c :: l).count x = [c].count x + l.count x := by
  rw [← singleton_append, count_append]

theorem count_erase_add {l : List Id} {c : Id} (h : c ∈ l) (x : Id) :
    [c].count x + (l.erase c).count x = l.count x := by
  rw [← count_cons_add, (perm_cons_erase h).count_eq]

theorem count_apart {l : List Id} {c : Id} (h : c ∉ l) (x : Id) :
    [c].count x = 0 ∨ [c].count x = 1 ∧ l.count x = 0 := by
  by_cases hx : c = x
  · exact .inr ⟨hx ▸ count_singleton_self, hx ▸ count_eq_zero.mpr h⟩
  · exact .inl (count_eq_zero.mpr fun hmem => hx (mem_singleton.mp hmem).symm)

theorem heard_concat (events : List (Listener × Id)) (e : Listener) (c x : Id) :
    (events ++ [(e, c)]).filter (·.2 = x) =
      events.filter (·.2 = x) ++ if c = x then [(e, c)] else [] := by
  rw [filter_append]
  by_cases hx : c = x <;> simp [hx]

variable {maxConnections : Int} {h : Hub Id G}

theorem Sound.registered (hs : h.Sound) (ha : h.inOrder .handleUnregister = true)
    {c : Id} {rest : List Id} (hunregister : h.unregister = c :: rest) : c ∈ h.server.clients := by
  rw [inOrder, hunregister] at ha
  have hfirst : h.register.count c = 0 := count_eq_zero.mpr (by simpa using ha)
  have hsum := (hs.placed c).2
  rw [hunregister, count_cons_self] at hsum
  exact count_pos_iff.mp (by omega)

theorem Sound.lost_eq_zero (hs : h.Sound) {a : HubStep Id G}
    (ha : h.inOrder a = true) : h.lost a = 0 := by
  cases a with
  | handleUnregister =>
    rw [lost]
    split
    case h_1 c rest hending hunregister => exact if_pos (hs.registered ha hunregister)
    case h_2 => rfl
  | _ => rfl

theorem Sound.handleRegister (hs : h.Sound) : (h.step maxConnections .handleRegister).Sound := by
  have hplaced := hs.placed
  simp only [held, count_append] at hplaced
  simp only [Hub.step]
  split
  case h_1 c rest hending hregister =>
    have hsums := hplaced c
    rw [hregister, count_cons_self] at hsums
    have hclient : c ∉ h.server.clients := count_eq_zero.mp (by omega)
    have hhandled : c ∉ h.handled := count_eq_zero.mp (by omega)
    rw [insert_of_not_mem hclient]
    refine ⟨fun x => ?_, fun x => ?_, hs.member.register hclient hs.idle, hs.idle⟩
    · have hsums := hplaced x
      rw [hregister, count_cons_add] at hsums
      simp only [held, count_append, count_cons_add c x h.server.clients]
      omega
    · rw [heard_concat, hs.heard x]
      by_cases hx : c = x
      · simp [← hx, hending, hhandled, hclient]
      · simp [hx, Ne.symm hx]
  case h_2 => exact hs

theorem Sound.handleUnregister (hs : h.Sound) (ha : h.inOrder .handleUnregister = true) :
    (h.step maxConnections .handleUnregister).Sound := by
  have hplaced := hs.placed
  simp only [held, count_append] at hplaced
  simp only [Hub.step]
  split
  case h_1 c rest hending hunregister =>
    have hclient := hs.registered ha hunregister
    have hsums := hplaced c
    rw [hunregister, count_cons_self] at hsums
    have hhandled : c ∉ h.handled := count_eq_zero.mp (by omega)
    have hnext : Member (h.server.handleUnregister c) :=
      hs.member.handleUnregister (by simp [hs.idle])
    rw [if_pos hclient]
    refine ⟨fun x => ?_, fun x => ?_, hnext, ?_⟩
    · have hsums' := hplaced x
      rw [hunregister, count_cons_add, hending, count_nil] at hsums'
      simp only [held, count_append, Server.handleUnregister, if_pos hclient, count_filter_ne]
      by_cases hx : x = c
      · have hheld := count_pos_iff.mpr hclient
        rw [hx, count_singleton_self] at hsums' ⊢
        rw [if_pos rfl]
        omega
      · have hzero : [c].count x = 0 := count_eq_zero.mpr (by simpa using hx)
        rw [if_neg hx]
        omega
    · rw [heard_concat, hs.heard x, hending]
      simp only [Server.handleUnregister, if_pos hclient]
      by_cases hx : c = x
      · simp [← hx, hhandled, hclient]
      · simp [hx, Ne.symm hx]
    · simp only [Server.handleUnregister, if_pos hclient, hs.idle]
  case h_2 => exact hs

theorem Sound.step (hs : h.Sound) {a : HubStep Id G} (ha : h.inOrder a = true) :
    (h.step maxConnections a).Sound := by
  have ⟨hplaced, hheard, hmember, hidle⟩ := hs
  simp only [held, count_append] at hplaced
  cases a with
  | count c =>
    simp only [Hub.step]
    split
    case isTrue => exact hs
    case isFalse hnew =>
      split
      case isTrue => exact ⟨hs.placed, hheard, hmember, hidle⟩
      case isFalse =>
        refine ⟨fun x => ?_, hheard, hmember, hidle⟩
        have hsums := hplaced x
        have hzero := count_apart hnew x
        simp only [held, count_append, count_cons_add c x h.admitted] at hzero ⊢
        omega
  | rollback c =>
    simp only [Hub.step]
    split
    case isTrue => exact ⟨hs.placed, hheard, hmember, hidle⟩
    case isFalse =>
      split
      case isTrue hc =>
        refine ⟨fun x => ?_, hheard, hmember, hidle⟩
        have hsums := hplaced x
        have herase := count_erase_add hc x
        simp only [held, count_append]
        omega
      case isFalse => exact hs
  | accept c | readPumpEnds c =>
    simp only [Hub.step]
    split
    case isTrue hc =>
      refine ⟨fun x => ?_, hheard, hmember, hidle⟩
      have hsums := hplaced x
      have herase := count_erase_add hc x
      simp only [held, count_append, count_cons_add c x h.reading]
      omega
    case isFalse => exact hs
  | handleRegister => exact hs.handleRegister
  | handleUnregister => exact hs.handleUnregister ha
  | release =>
    simp only [Hub.step]
    split
    case h_1 c rest hending =>
      refine ⟨fun x => ?_, fun x => ?_, hmember, hidle⟩
      · have hsums := hplaced x
        rw [hending, count_cons_add] at hsums
        simp only [held, count_append, count_cons_add c x h.handled]
        omega
      · rw [hheard x, hending]
        simp only [mem_cons, or_assoc, or_left_comm]
    case h_2 => exact hs
  | joinGroup c g =>
    have hnext := hmember.joinGroup (c := c) (by simp [hidle]) g
    simp only [joinGroup, Hub.step] at hnext ⊢
    split
    case isTrue hc => exact ⟨hs.placed, hheard, by rwa [if_pos hc] at hnext, hidle⟩
    case isFalse => exact hs
  | leaveGroup c g =>
    have hnext := hmember.leaveGroup c g
    simp only [leaveGroup, Hub.step] at hnext ⊢
    split
    case isTrue hc => exact ⟨hs.placed, hheard, by rwa [if_pos hc] at hnext, hidle⟩
    case isFalse => exact hs

/-- If the run loop serves each client's `register` before its `unregister`, an ended connection
leaves nothing behind once the channels are empty, its listeners ran once and in order, and the
counter and the limit hold. -/
theorem no_trace_left (maxConnections : Int) (steps : List (HubStep Id G))
    (hsteps : ∀ x ∈ Steps.steps (Hub.step maxConnections) {} steps, x.1.inOrder x.2 = true) :
    let h := Steps.run (Hub.step maxConnections) {} steps
    (∀ c, c ∈ h.unregister ++ h.ending ++ h.handled → h.register = [] → h.unregister = [] →
      c ∉ h.server.clients ∧ (∀ g, c ∉ items h.server.groups g) ∧
        h.events.filter (·.2 = c) = [(.connect, c), (.disconnect, c)]) ∧
    (h.admitted = [] → h.refused = [] → h.activeConns = h.held.length) ∧
    (0 < maxConnections → h.held.length ≤ maxConnections) := by
  intro h
  have ⟨hs, hslack⟩ : h.Sound ∧ h.slack = 0 := by
    refine Steps.invariant (I := fun (h : Hub Id G) _ => h.Sound ∧ h.slack = 0)
      (fun h _ a hs (ha : h.inOrder a = true) => ?_) ?_ hsteps
    · rw [(slots_step maxConnections h a).1, hs.2, hs.1.lost_eq_zero ha]
      exact ⟨hs.1.step ha, rfl⟩
    · refine ⟨⟨?_, ?_, ⟨?_, ?_, ?_, ?_⟩, rfl⟩, rfl⟩ <;> simp [held]
  refine ⟨fun c hc hregister hunregister => ?_, fun hadmitted hrefused => ?_, fun hmax => ?_⟩
  · have hclient : c ∉ h.server.clients := by
      have hsums := hs.placed c
      have hended : 0 < (h.unregister ++ h.ending ++ h.handled).count c := count_pos_iff.mpr hc
      simp only [held, hregister, hunregister, count_append, count_nil] at hsums hended
      exact count_eq_zero.mp (by omega)
    refine ⟨hclient, fun g hg => hclient (hs.member.joined g c hg).1, ?_⟩
    rw [hs.heard c, if_pos (by simpa [hunregister] using hc)]
  · rw [slack, taken, hadmitted, hrefused, length_nil] at hslack
    omega
  · have hle : h.taken ≤ maxConnections := (slots_run maxConnections steps).2 hmax
    rw [taken] at hle
    omega

theorem no_trace_left_served :
    let h := Steps.run (Hub.step 1) {} [.count 1, .accept 1, .handleRegister, .joinGroup 1 "a",
      .readPumpEnds 1, .handleUnregister, .release]
    1 ∉ h.server.clients ∧ (∀ g, 1 ∉ items h.server.groups g) ∧
      h.events.filter (·.2 = 1) = [(.connect, 1), (.disconnect, 1)] :=
  (no_trace_left 1 _ (by decide)).1 1 (by decide) (by decide) (by decide)

/-- The client is registered for good, its disconnect listeners never run, and its slot stays taken.
-/
theorem unregister_served_first :
    let h := Steps.run (Hub.step 1) ({} : Hub Nat String) [.count 1, .accept 1, .readPumpEnds 1,
      .handleUnregister, .handleRegister]
    h.held = [] ∧ h.register = [] ∧ h.server.clients = [1] ∧ h.events = [(.connect, 1)] ∧
      h.activeConns = 1 ∧ (h.step 1 (.count 2)).refused = [2] := by
  decide

/-- The cap holds in whatever order the run loop serves its channels: a slot that is not given back
only makes the count larger. -/
theorem connections_capped (maxConnections : Int) (steps : List (HubStep Id G)) :
    let h := Steps.run (Hub.step maxConnections) {} steps
    h.admitted.length + h.refused.length + h.held.length ≤ h.activeConns ∧
      (0 < maxConnections → h.admitted.length + h.held.length ≤ maxConnections) := by
  intro h
  obtain ⟨hslack, htaken⟩ : 0 ≤ h.slack ∧ (0 < maxConnections → h.taken ≤ maxConnections) :=
    slots_run maxConnections steps
  rw [slack, taken] at hslack
  exact ⟨by omega, htaken⟩

end Hub

end Websocket
