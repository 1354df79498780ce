import Velocity.Cache.Agreement
import Velocity.Cache.Redis

/-! How long a set lives, over a sequence of additions and removals under one key, on each of the
three drivers. -/

namespace Cache

open MemoryStore Option Steps Keyspace RedisEntry FileItem FMap

inductive SetOp
  | add (ttl : Int) (members : List Bytes)
  | remove (members : List Bytes)
  deriving DecidableEq

/-- A driver seen at one key. The expiry of a set kept forever is `some none`. -/
structure SetDriver (S : Type) where
  step : S → Int × SetOp → S
  stored : S → Option (Option Int)
  alive : Int → Option Int → Bool
  asked : Int → Int → Int

namespace SetDriver

variable {S : Type} (d : SetDriver S)

def expiry (s : S) (now : Int) : Option (Option Int) := (d.stored s).filter (d.alive now)

def Forever (s : S) : Prop := d.stored s = some none

/-- After an addition for a positive time the set lives at least that long, and no shorter. -/
def ExtendsOnly (s : S) (ops : List (Int × SetOp)) : Prop :=
  ∀ past now ttl members rest, ops = past ++ (now, .add ttl members) :: rest → 0 < ttl → members ≠ [] →
    let before := Steps.run d.step s past
    let after := d.step before (now, .add ttl members)
    (∃ e, d.expiry after now = some (some e) ∧ d.asked now ttl ≤ e ∧
      ∀ c, d.expiry before now = some (some c) → c ≤ e) ∨
    (d.Forever before ∧ ∃ now' ttl' members', (now', .add ttl' members') ∈ past ∧ ttl' ≤ 0 ∧
      members' ≠ [])

end SetDriver

def addedExpiration (current : Option (Option Int)) (now ttl : Int) : Option Int :=
  match current with
  | none => expirationFor now ttl
  | some expiration => extendExpiration expiration (expirationFor now ttl)

attribute [local simp] addedExpiration extendExpiration

variable {ttl : Int} {members : List Bytes}

theorem addedExpiration_of_nonpos (h : ttl ≤ 0) (current : Option (Option Int))
    (now : Int) : addedExpiration current now ttl = none := by
  have hnone : expirationFor now ttl = none := if_pos h
  rcases current with _ | _ | c
  · exact hnone
  · rfl
  · simp [hnone]

theorem addedExpiration_of_pos (h : 0 < ttl) {current : Option (Option Int)}
    (hcurrent : current ≠ some none) (now : Int) :
    ∃ e, addedExpiration current now ttl = some e ∧ now + ttl ≤ e ∧
      ∀ c, current = some (some c) → c ≤ e := by
  have hsome : expirationFor now ttl = some (now + ttl) := if_neg (by omega)
  rcases current with _ | _ | c
  · exact ⟨now + ttl, hsome, le_rfl, by simp⟩
  · exact absurd rfl hcurrent
  · by_cases hlt : now + ttl < c
    · exact ⟨c, by simp [hsome, hlt], by omega, by simp⟩
    · exact ⟨now + ttl, by simp [hsome, hlt], le_rfl,
        by simp; omega⟩

namespace SetDriver

variable {S : Type}

/-- A driver that keeps the later of two expiries; `clock` and `span` are times in its own unit. -/
structure KeepsLater (d : SetDriver S) (clock span : Int → Int) : Prop where
  asked : ∀ now ttl, 0 < ttl → d.asked now ttl = clock now + span ttl
  alive_none : ∀ now, d.alive now none = true
  alive_some : ∀ now e, clock now < e → d.alive now (some e) = true
  add : ∀ s now ttl members, members ≠ [] → d.stored (d.step s (now, .add ttl members)) =
    some (addedExpiration (d.expiry s now) (clock now) (span ttl))
  idle : ∀ s now ttl, d.step s (now, .add ttl []) = s
  remove : ∀ s now members, d.Forever (d.step s (now, .remove members)) → d.Forever s

namespace KeepsLater

variable {d : SetDriver S} {clock span : Int → Int}

def Counted (d : SetDriver S) (span : Int → Int) (s : S) (x : Int × SetOp) : Prop :=
  ∀ ttl members, x.2 = .add ttl members → 0 < ttl → members ≠ [] → 0 < span ttl ∨ d.Forever s

variable {s : S} (h : d.KeepsLater clock span)

include h

theorem extends_of_pos (now : Int) (hs : ¬d.Forever s) (hne : members ≠ []) (hspan : 0 < span ttl) :
    ∃ e, d.expiry (d.step s (now, .add ttl members)) now = some (some e) ∧
      clock now + span ttl ≤ e ∧ ∀ c, d.expiry s now = some (some c) → c ≤ e := by
  have hcurrent : d.expiry s now ≠ some none := by
    intro hnone
    exact hs (filter_eq_some_iff.mp hnone).1
  obtain ⟨e, hadded, hle, hold⟩ := addedExpiration_of_pos hspan hcurrent (clock now)
  refine ⟨e, ?_, hle, hold⟩
  rw [expiry, h.add s now ttl members hne, hadded, filter_some, if_pos (h.alive_some now e (by omega))]

theorem forever_of_nonpos (s : S) (now : Int) (hne : members ≠ []) (hspan : span ttl ≤ 0) :
    d.Forever (d.step s (now, .add ttl members)) := by
  rw [Forever, h.add s now ttl members hne, addedExpiration_of_nonpos hspan]

theorem expiry_of_forever (hs : d.Forever s) (now : Int) : d.expiry s now = some none := by
  rw [expiry, hs, filter_some, if_pos (h.alive_none now)]

theorem forever_step {x : Int × SetOp}
    (hx : Counted d span s x) (hs : ¬d.Forever s) (hnext : d.Forever (d.step s x)) :
    ∃ ttl members, x.2 = .add ttl members ∧ ttl ≤ 0 ∧ members ≠ [] := by
  obtain ⟨now, op⟩ := x
  cases op with
  | remove members => exact absurd (h.remove s now members hnext) hs
  | add ttl members =>
    by_cases hne : members = []
    · rw [hne, h.idle] at hnext
      exact absurd hnext hs
    · refine ⟨ttl, members, rfl, ?_, hne⟩
      by_contra hpos
      rcases hx ttl members rfl (by omega) hne with hspan | hforever
      · obtain ⟨e, he, -⟩ := h.extends_of_pos now hs hne hspan
        rw [h.expiry_of_forever hnext] at he
        cases he
      · exact hs hforever

theorem forever_run {ops : List (Int × SetOp)}
    (hs : ¬d.Forever s) (hops : ∀ x ∈ steps d.step s ops, Counted d span x.1 x.2)
    (hend : d.Forever (run d.step s ops)) :
    ∃ now ttl members, (now, .add ttl members) ∈ ops ∧ ttl ≤ 0 ∧ members ≠ [] := by
  induction ops generalizing s with
  | nil => exact absurd hend hs
  | cons x ops ih =>
    by_cases hnext : d.Forever (d.step s x)
    · obtain ⟨ttl, members, hx, hrest⟩ :=
        h.forever_step (hops (s, x) (by simp [steps])) hs hnext
      have hpair : x = (x.1, .add ttl members) := Prod.ext rfl hx
      exact ⟨x.1, ttl, members, by rw [← hpair]; exact List.mem_cons_self, hrest⟩
    · obtain ⟨now, ttl, members, hmem, hrest⟩ :=
        ih hnext (fun y hy => hops y (by simp [steps, hy])) hend
      exact ⟨now, ttl, members, List.mem_cons_of_mem _ hmem, hrest⟩

theorem extendsOnly_iff (hs : ¬d.Forever s) (ops : List (Int × SetOp)) :
    d.ExtendsOnly s ops ↔ ∀ x ∈ steps d.step s ops, Counted d span x.1 x.2 := by
  constructor
  · rintro hlaw ⟨t, now, -⟩ hx ttl members rfl httl hne
    obtain ⟨past, rest, rfl, rfl⟩ := mem_steps_iff.mp hx
    by_contra hcontra
    rw [not_or] at hcontra
    rcases hlaw past now ttl members rest rfl httl hne with ⟨e, he, -⟩ | ⟨hforever, -⟩
    · have hnone := h.forever_of_nonpos (run d.step s past) now hne
        (show span ttl ≤ 0 by omega)
      rw [h.expiry_of_forever hnone] at he
      cases he
    · exact hcontra.2 hforever
  · intro hops past now ttl members rest hsplit httl hne before after
    have hpast : ∀ x ∈ steps d.step s past, Counted d span x.1 x.2 := by
      rintro ⟨t, x⟩ hx
      obtain ⟨past', rest', rfl, rfl⟩ := mem_steps_iff.mp hx
      apply hops (_, x)
      exact mem_steps_iff.mpr ⟨past', rest' ++ (now, .add ttl members) :: rest,
        by simp [hsplit], rfl⟩
    have hhere : Counted d span before (now, .add ttl members) :=
      hops (before, _) (mem_steps_iff.mpr ⟨past, rest, hsplit, rfl⟩)
    by_cases hbefore : d.Forever before
    · exact .inr ⟨hbefore, h.forever_run hs hpast hbefore⟩
    · rcases hhere ttl members rfl httl hne with hspan | hforever
      · rw [h.asked now ttl httl]
        exact .inl (h.extends_of_pos now hbefore hne hspan)
      · exact absurd hforever hbefore

end KeepsLater

end SetDriver

section Drivers

variable (key : Bytes)

def SetOp.op : SetOp → Op
  | .add ttl members => .setAdd key ttl members
  | .remove members => .setRemove key members

def MemoryItem.setExpiration (i : MemoryItem) : Option (Option Int) :=
  match i.value with
  | .set _ => some i.expiration
  | .scalar _ => none

def FileItem.setExpiration (i : FileItem) : Option (Option Int) :=
  if i.isSet then some i.expiration else none

def memorySets : SetDriver MemoryStore where
  step s x := (s.exec x.1 (x.2.op key)).2
  stored s := (s.item key).bind MemoryItem.setExpiration
  alive := before
  asked now ttl := now + ttl

def fileSets : SetDriver FileStore where
  step s x := (s.exec x.1 (x.2.op key)).2
  stored s := (s.item key).bind FileItem.setExpiration
  alive := before
  asked now ttl := now + ttl

variable {key}

attribute [local simp] MemoryItem.setExpiration

theorem memorySets_expiry (s : MemoryStore) (now : Int) :
    (memorySets key).expiry s now = (s.liveSet now key).map Prod.snd := by
  simp only [SetDriver.expiry, memorySets, liveSet, live]
  rcases s.item key with _ | ⟨_ | members, e⟩
  · rfl
  all_goals cases h : before now e <;> simp [filter_some, h]

theorem fileSets_expiry (s : FileStore) (now : Int) :
    (fileSets key).expiry s now = (s.liveSet now key).map Prod.snd := by
  simp only [SetDriver.expiry, fileSets, FileStore.liveSet, FileStore.readLiveItem]
  rcases s.item key with _ | i
  · rfl
  · cases h : before now i.expiration <;> cases hset : i.isSet <;>
      simp [setExpiration, filter_some, h, hset]

theorem memorySets_keepsLater : (memorySets key).KeepsLater id id where
  asked _ _ _ := rfl
  alive_none _ := rfl
  alive_some now e h := by simpa [memorySets, before] using h
  add s now ttl members hne := by
    rw [memorySets_expiry]
    show ((s.setAdd now key ttl members).item key).bind MemoryItem.setExpiration = _
    rw [setAdd, if_neg hne]
    cases hlive : s.liveSet now key <;> simp only [item_setLocked] <;> rfl
  idle _ _ _ := rfl
  remove s now members h := by
    replace h : ((s.setRemove now key members).item key).bind MemoryItem.setExpiration = some none := h
    unfold setRemove at h
    split at h
    · exact h
    · split at h
      · exact h
      · rename_i set e hlive
        split at h
        · simp [item_removeLocked] at h
        · obtain rfl : e = none := by
            simpa [item_setLocked] using h
          have hexpiry : (memorySets key).expiry s now = some none := by
            rw [memorySets_expiry, hlive]
            rfl
          exact (filter_eq_some_iff.mp hexpiry).1

theorem item_writeSet (s : FileStore) (set : Finset Bytes) (e : Option Int) (hset : set ≠ ∅) :
    ((s.writeSet key set e).item key).bind setExpiration = some e := by
  have hisSet : (mk [] e (sortedMembers set)).isSet = true := isSet_set hset e
  show ((s.files.insert (s.path key) ⟨[], e, sortedMembers set⟩).lookup (s.path key)).bind
    setExpiration = some e
  rw [lookup_insert_ite, if_pos rfl, bind_some, setExpiration, if_pos hisSet]

theorem fileSets_keepsLater : (fileSets key).KeepsLater id id where
  asked _ _ _ := rfl
  alive_none _ := rfl
  alive_some now e h := by simpa [fileSets, before] using h
  add s now ttl members hne := by
    rw [fileSets_expiry]
    show ((s.setAdd now key ttl members).item key).bind setExpiration = _
    have hsome : members.toFinset ≠ ∅ := by simpa using hne
    rw [FileStore.setAdd, if_neg hne]
    cases hlive : s.liveSet now key with
    | none => exact item_writeSet s _ _ hsome
    | some x =>
      apply item_writeSet s
      intro hempty
      exact hsome (Finset.union_eq_empty.mp hempty).2
  idle _ _ _ := rfl
  remove s now members h := by
    replace h : ((s.setRemove now key members).item key).bind setExpiration = some none := h
    unfold FileStore.setRemove at h
    split at h
    · exact h
    · split at h
      · exact h
      · rename_i set e hlive
        split at h
        · have hnone : (s.remove key).item key = none := by
            show (s.files.erase (s.path key)).lookup (s.path key) = none
            rw [lookup_erase_ite, if_pos rfl]
          simp [hnone] at h
        · rename_i hset
          rw [item_writeSet s _ _ hset] at h
          have hexpiry : (fileSets key).expiry s now = some none := by
            rw [fileSets_expiry, hlive, ← h]
            rfl
          exact (filter_eq_some_iff.mp hexpiry).1

end Drivers

section Redis

def RedisEntry.setDeadline (e : RedisEntry) : Option (Option Int) :=
  match e.value with
  | .set _ => some e.deadline
  | .str _ => none

namespace Keyspace

variable {e : RedisEntry}

theorem find_insert (ks : Keyspace) (now : Int) (key : Bytes)
    (h : passed now e.deadline = false) : find (ks.insert key e) now key = some e := by
  rw [find, lookup_insert_ite, if_pos rfl, filter_some, h]
  rfl

variable {ks : Keyspace} {key : Bytes} {now : Int}

theorem lookup_of_find
    (h : ks.find now key = some e) : ks.lookup key = some e ∧ passed now e.deadline = false := by
  obtain ⟨hlookup, halive⟩ := filter_eq_some_iff.mp h
  exact ⟨hlookup, by simpa using halive⟩

theorem lookup_expireAt (h : ks.find now key = some e) (deadline : Option Int) :
    (ks.expireAt now key deadline).lookup key = some { e with deadline := deadline } := by
  rw [expireAt, h]
  exact (lookup_insert_ite _ _ _ _).trans (if_pos rfl)

theorem lookup_extendTTL (h : ks.find now key = some e) (ttl : Int) {existed : Bool}
    (hnew : existed = false → e.deadline = none) :
    (ks.extendTTL now key ttl existed).lookup key = some { e with
      deadline := addedExpiration (if existed then some e.deadline else none) now ttl } := by
  obtain ⟨hlookup, halive⟩ := lookup_of_find h
  unfold extendTTL
  by_cases httl : ttl ≤ 0
  · rw [if_pos httl, persist, lookup_expireAt h, addedExpiration_of_nonpos httl]
  · have hpos : expirationFor now ttl = some (now + ttl) := if_neg httl
    rw [if_neg httl]
    cases existed with
    | false =>
      rw [if_pos rfl, pexpire, lookup_expireAt h]
      simp [hpos]
    | true =>
      obtain ⟨value, deadline⟩ := e
      cases deadline with
      | none => simp [pttl, h, hlookup]
      | some c =>
        have hlive : now ≤ c := by simpa [passed] using halive
        by_cases hshort : c - now < ttl
        · have hlater : ¬now + ttl < c := by omega
          simp [pttl, h, hlive, hshort, pexpire, lookup_expireAt h, hpos, hlater]
        · have hmax : (if now + ttl < c then some c else some (now + ttl)) = some c := by
            split
            · rfl
            · congr 1
              omega
          simp [pttl, h, hshort, hlookup, hpos, hmax]

theorem lookup_setAddScript (ttl : Int)
    (members : List Bytes) (hset : ∀ e, ks.find now key = some e → e.setDeadline ≠ none) :
    ∃ next set, ks.setAddScript now key ttl members = some next ∧ next.lookup key = some ⟨.set set,
        addedExpiration ((ks.find now key).bind setDeadline) now ttl⟩ := by
  cases hfind : ks.find now key with
  | none =>
    have hadded := ks.find_insert now key (e := ⟨.set members.toFinset, none⟩) rfl
    refine ⟨_, members.toFinset, by rw [setAddScript, sadd, hfind]; rfl, ?_⟩
    rw [lookup_extendTTL hadded ttl fun _ => rfl]
    rfl
  | some e =>
    obtain ⟨value, deadline⟩ := e
    cases value with
    | str bytes => exact absurd rfl (hset _ hfind)
    | set current =>
      have hadded := ks.find_insert now key (e := ⟨.set (current ∪ members.toFinset), _⟩)
        (lookup_of_find hfind).2
      refine ⟨_, current ∪ members.toFinset, by rw [setAddScript, sadd, hfind]; rfl, ?_⟩
      rw [lookup_extendTTL hadded ttl fun hnew => by cases hnew]
      rfl

theorem lookup_srem (members : List Bytes)
    (hset : ∀ e, ks.find now key = some e → e.setDeadline ≠ none) :
    ∃ next, ks.srem now key members = some next ∧
      (next.lookup key = ks.lookup key ∨ next.lookup key = none ∨
        ∃ set current deadline, ks.lookup key = some ⟨.set current, deadline⟩ ∧
          next.lookup key = some ⟨.set set, deadline⟩) := by
  unfold srem
  cases hfind : ks.find now key with
  | none => exact ⟨ks, rfl, .inl rfl⟩
  | some e =>
    obtain ⟨value, deadline⟩ := e
    cases value with
    | str bytes => exact absurd rfl (hset _ hfind)
    | set current =>
      by_cases hempty : current \ members.toFinset = ∅
      · refine ⟨ks.erase key, if_pos hempty, .inr (.inl ?_)⟩
        rw [lookup_erase_ite, if_pos rfl]
      · refine ⟨_, if_neg hempty, .inr (.inr ⟨current \ members.toFinset, current, deadline,
          (lookup_of_find hfind).1, ?_⟩)⟩
        rw [lookup_insert_ite, if_pos rfl]

end Keyspace

variable {c : RedisConfig} {key : Bytes}

def SetOp.call (key : Bytes) : SetOp → RedisCall
  | .add ttl members => .setAdd key ttl members
  | .remove members => .setRemove key members

def redisStep (c : RedisConfig) (key : Bytes) (ks : Keyspace) (x : Int × SetOp) : Keyspace :=
  (((x.2.call key).body c).eval Keyspace.exec ⟨milliseconds x.1, [], false⟩ ks).2

theorem redisStep_add {ks next : Keyspace} {now : Int} (hne : members ≠ [])
    (h : ks.setAddScript (milliseconds now) (c.prefixedKey key) (milliseconds (clampTTL ttl))
      members = some next) : redisStep c key ks (now, .add ttl members) = next := by
  simp only [redisStep, SetOp.call, RedisCall.body, if_pos hne]
  show (reply ks _).2 = next
  rw [h]
  rfl

theorem redisStep_remove {ks next : Keyspace} {now : Int}
    (hne : members ≠ []) (h : ks.srem (milliseconds now) (c.prefixedKey key) members = some next) :
    redisStep c key ks (now, .remove members) = next := by
  simp only [redisStep, SetOp.call, RedisCall.body, if_pos hne]
  show (reply ks _).2 = next
  rw [h]
  rfl

/-- A keyspace in which no string stands under the key. -/
structure SetSpace (key : Bytes) where
  keys : Keyspace
  sets : ∀ e, keys.lookup key = some e → e.setDeadline ≠ none

namespace SetSpace

variable (s : SetSpace (c.prefixedKey key))

theorem find_sets (now : Int) :
    ∀ e, s.keys.find now (c.prefixedKey key) = some e → e.setDeadline ≠ none :=
  fun e he => s.sets e (lookup_of_find he).1

theorem step_sets (x : Int × SetOp) :
    ∀ e, (redisStep c key s.keys x).lookup (c.prefixedKey key) = some e → e.setDeadline ≠ none := by
  obtain ⟨now, op⟩ := x
  intro e he
  cases op with
  | add ttl members =>
    by_cases hne : members = []
    · rw [hne] at he
      exact s.sets e he
    · obtain ⟨next, set, hnext, hlookup⟩ := lookup_setAddScript
        (milliseconds (clampTTL ttl)) members (s.find_sets (milliseconds now))
      rw [redisStep_add hne hnext, hlookup, some.injEq] at he
      rw [← he]
      simp [setDeadline]
  | remove members =>
    by_cases hne : members = []
    · rw [hne] at he
      exact s.sets e he
    · obtain ⟨next, hnext, hcases⟩ :=
        lookup_srem members (s.find_sets (milliseconds now))
      rw [redisStep_remove hne hnext] at he
      rcases hcases with hsame | hnone | ⟨set, -, deadline, -, hset⟩
      · exact s.sets e (hsame ▸ he)
      · rw [hnone] at he
        cases he
      · rw [hset, some.injEq] at he
        rw [← he]
        simp [setDeadline]

def step (x : Int × SetOp) : SetSpace (c.prefixedKey key) := ⟨redisStep c key s.keys x, s.step_sets x⟩

end SetSpace

def SetSpace.new (key : Bytes) : SetSpace key := ⟨∅, nofun⟩

def redisSets (c : RedisConfig) (key : Bytes) : SetDriver (SetSpace (c.prefixedKey key)) where
  step := SetSpace.step
  stored s := (s.keys.lookup (c.prefixedKey key)).bind RedisEntry.setDeadline
  alive now deadline := !passed (milliseconds now) deadline
  asked now ttl := milliseconds now + milliseconds ttl

theorem redisSets_expiry (s : SetSpace (c.prefixedKey key)) (now : Int) :
    (redisSets c key).expiry s now =
      (s.keys.find (milliseconds now) (c.prefixedKey key)).bind setDeadline := by
  simp only [SetDriver.expiry, redisSets, find]
  rcases s.keys.lookup (c.prefixedKey key) with _ | ⟨_ | members, deadline⟩
  · rfl
  all_goals cases h : passed (milliseconds now) deadline <;> simp [setDeadline, filter_some, h]

theorem redisSets_keepsLater :
    (redisSets c key).KeepsLater milliseconds fun ttl => milliseconds (clampTTL ttl) where
  asked now ttl h := by
    have hclamp : clampTTL ttl = ttl := if_neg (by omega)
    rw [hclamp]
    rfl
  alive_none _ := rfl
  alive_some now e h := by
    have hle : ¬e < milliseconds now := by omega
    simp [redisSets, passed, hle]
  add s now ttl members hne := by
    obtain ⟨next, set, hnext, hlookup⟩ := lookup_setAddScript
      (milliseconds (clampTTL ttl)) members (s.find_sets (milliseconds now))
    show ((redisStep c key s.keys (now, .add ttl members)).lookup _).bind _ = _
    rw [redisStep_add hne hnext, hlookup, redisSets_expiry]
    rfl
  idle _ _ _ := rfl
  remove s now members h := by
    by_cases hne : members = []
    · rw [hne] at h
      exact h
    · obtain ⟨next, hnext, hcases⟩ :=
        lookup_srem members (s.find_sets (milliseconds now))
      replace h : ((redisStep c key s.keys (now, .remove members)).lookup _).bind
        setDeadline = some none := h
      rw [redisStep_remove hne hnext] at h
      show (s.keys.lookup (c.prefixedKey key)).bind setDeadline = some none
      rcases hcases with hsame | hnone | ⟨set, current, deadline, hold, hset⟩
      · rw [← hsame, h]
      · simp [hnone] at h
      · rw [hset] at h
        rw [hold]
        exact h

end Redis

end Cache
