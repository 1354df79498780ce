import Velocity.Session.CacheStore

/-! The log of a run tells what the cache holds: the record under an id is the one that was last put
there or swapped in, unless it was removed since. Most of what the store's programs perform is
upkeep. -/

namespace Session

open Interleave

variable {D : Type} {b : Backend D}

variable (D) in
/-- An operation on the cache in the log of a run. -/
abbrev Entry := Event (Res (D := D))

def Upkeep : Op D → Prop
  | .clock | .getMeta _ | .getGen _ | .addIndex _ _ _ | .removeIndex _ _ | .members _ => True
  | .dropMeta .eviction _ _ | .dropMeta .signOut _ _ => True
  | _ => False

def Quiet : Op D → Prop
  | .putMeta _ _ _ | .swapMeta _ _ _ _ | .forgetMeta _ | .dropMeta .deletion _ _ => False
  | _ => True

theorem upkeep_quiet (o : Op D) (h : Upkeep o) : Quiet o := by
  cases o with
  | dropMeta cause k expected => cases cause <;> simp_all [Upkeep, Quiet]
  | _ => simp_all [Upkeep, Quiet]

theorem recordOf_upkeep (userID id : Bytes) : (recordOf (D := D) userID id).All Upkeep := by
  refine ⟨trivial, ?_⟩
  intro found
  cases found with
  | none => trivial
  | some raw => trivial

variable (userID : Bytes)

variable (ids : List Bytes)

theorem goneOf_upkeep : (goneOf (D := D) userID ids).All Upkeep := by
  induction ids with
  | nil => trivial
  | cons id ids ih =>
    refine (recordOf_upkeep userID id).bind ?_
    intro r
    refine ih.bind ?_
    intro gone
    trivial

theorem extendIndex_upkeep (r : CacheRecord D) (ttl : Int) : (extendIndex r ttl).All Upkeep := by
  unfold extendIndex
  split
  · trivial
  · exact ⟨trivial, fun _ => trivial⟩

theorem relist_upkeep : (relist (D := D) userID ids).All Upkeep := by
  induction ids with
  | nil => trivial
  | cons id ids ih =>
    refine (recordOf_upkeep userID id).bind ?_
    intro r
    cases r with
    | none => exact ih
    | some r =>
      refine ⟨trivial, ?_⟩
      intro now
      exact (extendIndex_upkeep r _).bind fun _ => ih

theorem unlink_upkeep : (unlink (D := D) userID ids).All Upkeep := by
  unfold unlink
  split
  · trivial
  · refine (goneOf_upkeep userID ids).bind ?_
    intro gone
    split
    · trivial
    · exact ⟨trivial, fun _ => relist_upkeep userID gone⟩

theorem evict_upkeep (raw : Raw D) : (evict raw).All Upkeep := by
  refine ⟨trivial, ?_⟩
  intro deleted
  exact Prog.All.when fun _ => unlink_upkeep _ _

theorem isPast_upkeep (r : CacheRecord D) : (isPast r).All Upkeep := by
  unfold isPast
  split
  · trivial
  · exact ⟨trivial, fun _ => trivial⟩

theorem liveRaw_upkeep (id : Bytes) : (liveRaw (D := D) id).All Upkeep := by
  refine ⟨trivial, ?_⟩
  intro found
  cases found with
  | none => trivial
  | some raw =>
    refine (isPast_upkeep raw.decodeRecord).bind ?_
    intro past
    split
    · exact (evict_upkeep raw).bind fun _ => trivial
    · split
      · trivial
      · split
        · exact (evict_upkeep raw).bind fun _ => trivial
        · refine ⟨trivial, ?_⟩
          intro current
          show (if current = some _ then _ else _ : Prog (Res) _).All Upkeep
          split
          · trivial
          · exact (evict_upkeep raw).bind fun _ => trivial

theorem unbind_upkeep (id userID : Bytes) : (unbind (D := D) id userID).All Upkeep := by
  refine ⟨trivial, ?_⟩
  intro found
  cases found with
  | none => trivial
  | some raw => exact Prog.All.when fun _ => ⟨trivial, fun _ => trivial⟩

theorem signOutOne_upkeep (userID id : Bytes) : (signOutOne (D := D) userID id).All Upkeep := by
  refine ⟨trivial, ?_⟩
  intro found
  cases found with
  | none => trivial
  | some raw =>
    show (if raw.decodeRecord.userID ≠ userID then _ else _ : Prog (Res) Bool).All Upkeep
    split
    · trivial
    · refine Prog.All.bind ?_ ?_
      · cases raw.decodeRecord.generation with
        | none => trivial
        | some gen => exact ⟨trivial, fun _ => trivial⟩
      · intro current
        split
        · trivial
        · exact ⟨trivial, fun _ => trivial⟩

theorem signOutEach_upkeep : (signOutEach (D := D) userID ids).All Upkeep := by
  induction ids with
  | nil => trivial
  | cons id ids ih =>
    refine (signOutOne_upkeep userID id).bind ?_
    intro gone
    exact ih.bind fun rest => trivial

theorem listEach_upkeep : (listEach (D := D) userID ids).All Upkeep := by
  induction ids with
  | nil => trivial
  | cons id ids ih =>
    refine (liveRaw_upkeep id).bind ?_
    intro live
    cases live with
    | error e =>
      show (if e.refusal = true then _ else _ : Prog (Res) _).All Upkeep
      split
      · refine ih.bind ?_
        intro rest
        cases rest with
        | error e => trivial
        | ok rest => trivial
      · trivial
    | ok raw =>
      refine ih.bind ?_
      intro rest
      cases rest with
      | error e => trivial
      | ok rest =>
        show (if raw.decodeRecord.userID ≠ userID then _ else _ : Prog (Res) _).All Upkeep
        split <;> trivial

theorem listForUser_upkeep : (CacheStore.listForUser (D := D) userID).All Upkeep := by
  unfold CacheStore.listForUser
  split
  · trivial
  · refine ⟨trivial, ?_⟩
    intro ids
    show (if ids = [] then _ else _ : Prog (Res) _).All Upkeep
    split
    · trivial
    · refine (listEach_upkeep userID ids).bind ?_
      intro listed
      cases listed with
      | error e => trivial
      | ok listed => exact (unlink_upkeep userID _).bind fun _ => trivial

theorem get_upkeep (id : Bytes) : (CacheStore.get (D := D) id).All Upkeep := by
  unfold CacheStore.get
  split
  · trivial
  · refine (liveRaw_upkeep id).bind ?_
    intro live
    cases live with
    | error e => trivial
    | ok raw => trivial

theorem newGeneration_quiet : (newGeneration (D := D)).All Quiet := by
  refine ⟨trivial, ?_⟩
  intro token
  cases token with
  | none => trivial
  | some t => trivial

theorem ensureGeneration_quiet : (ensureGeneration (D := D) userID).All Quiet := by
  refine ⟨trivial, ?_⟩
  intro gen
  cases gen with
  | some gen => trivial
  | none =>
    refine newGeneration_quiet.bind ?_
    intro candidate
    cases candidate with
    | error e => trivial
    | ok candidate =>
      refine ⟨trivial, fun _ => ⟨trivial, ?_⟩⟩
      intro gen
      cases gen with
      | none => trivial
      | some gen => trivial

theorem stamp_quiet : (stamp (D := D) userID).All Quiet := by
  unfold stamp
  split
  · trivial
  · refine (ensureGeneration_quiet userID).bind ?_
    intro gen
    cases gen with
    | error e => trivial
    | ok gen => trivial

theorem deleteAllForUser_quiet : (CacheStore.deleteAllForUser (D := D) userID).All Quiet := by
  unfold CacheStore.deleteAllForUser
  split
  · trivial
  · refine newGeneration_quiet.bind ?_
    intro gen
    cases gen with
    | error e => trivial
    | ok gen =>
      refine ⟨trivial, fun _ => ⟨trivial, ?_⟩⟩
      intro ids
      refine ((signOutEach_upkeep userID ids).mono upkeep_quiet).bind ?_
      intro gone
      exact ((unlink_upkeep userID gone).mono upkeep_quiet).bind fun _ => trivial

/-- The call that put a record and its text, after one more event. -/
def keptAfter (id : Bytes) (kept : Option (Nat × Raw D)) : Entry D → Option (Nat × Raw D)
  | ⟨i, .putMeta k raw _, _⟩ => if k = id then some (i, raw) else kept
  | ⟨_, .swapMeta k _ raw _, true⟩ => if k = id then kept.map fun h => (h.1, raw) else kept
  | ⟨_, .dropMeta _ k _, true⟩ => if k = id then none else kept
  | ⟨_, .forgetMeta k, _⟩ => if k = id then none else kept
  | _ => kept

/-- The call that put the record under an id, and its text. -/
def keptOf (id : Bytes) (l : List (Entry D)) : Option (Nat × Raw D) :=
  l.foldl (keptAfter id) none

theorem keptOf_concat (id : Bytes) (l : List (Entry D)) (ev : Entry D) :
    keptOf id (l ++ [ev]) = keptAfter id (keptOf id l) ev := by
  rw [keptOf, List.foldl_append]
  rfl

def Backend.textOf (b : Backend D) (id : Bytes) : Option (Raw D) := (b.metas.lookup id).map Item.value

def Faithful (pre : List (Entry D)) : Entry D → Prop
  | ⟨_, .getMeta id, some raw⟩ => (keptOf id pre).map Prod.snd = some raw
  | ⟨_, .swapMeta id expected _ _, true⟩ => (keptOf id pre).map Prod.snd = some expected
  | ⟨_, .dropMeta _ id expected, true⟩ => (keptOf id pre).map Prod.snd = some expected
  | _ => True

theorem Backend.textOf_insert (b : Backend D) (k id : Bytes) (i : Item (Raw D)) :
    Backend.textOf { b with metas := b.metas.insert k i } id =
      if k = id then some i.value else b.textOf id := by
  rw [textOf, FMap.lookup_insert_ite]
  simp only [eq_comm]
  split <;> rfl

theorem Backend.textOf_erase (b : Backend D) (k id : Bytes) :
    Backend.textOf { b with metas := b.metas.erase k } id = if k = id then none else b.textOf id := by
  rw [textOf, FMap.lookup_erase_ite]
  simp only [eq_comm]
  split <;> rfl

theorem Backend.textOf_of_filter {id : Bytes} {raw : Raw D} {q : Item (Raw D) → Bool}
    (h : ((b.metas.lookup id).filter q).map Item.value = some raw) : b.textOf id = some raw := by
  obtain ⟨i, hi, rfl⟩ := Option.map_eq_some_iff.mp h
  rw [textOf, (Option.filter_eq_some_iff.mp hi).1]
  rfl

variable (x : Expiry)

theorem Backend.textOf_setRemove (b : Backend D) (now : Int) (userID : Bytes)
    (ids : List Bytes) (k : Bytes) : (b.setRemove x now userID ids).textOf k = b.textOf k := by
  unfold setRemove
  split
  · rfl
  · split
    · rfl
    · split <;> rfl

variable [DecidableEq D]

theorem Backend.exec_kept {l : List (Entry D)}
    (h : ∀ id, b.textOf id = (keptOf id l).map Prod.snd) (i : Nat) (e : Env) (o : Op D) :
    (∀ id, (b.exec x e o).2.textOf id = (keptOf id (l ++ [⟨i, o, (b.exec x e o).1⟩])).map Prod.snd) ∧
    Faithful l ⟨i, o, (b.exec x e o).1⟩ := by
  simp only [keptOf_concat]
  have hheld : ∀ {id raw} {q : Item (Raw D) → Bool},
      ((b.metas.lookup id).filter q).map Item.value = some raw →
        (keptOf id l).map Prod.snd = some raw := by
    intro id raw q hq
    rw [← h]
    exact textOf_of_filter hq
  cases o with
  | putMeta id raw ttl =>
    refine ⟨fun id' => ?_, trivial⟩
    show textOf { b with metas := _ } id' = (if id = id' then some (i, raw) else _ : Option _).map _
    rw [textOf_insert, h]
    split <;> rfl
  | swapMeta id expected raw ttl =>
    rcases b.exec_swapMeta_cases x e id expected raw ttl with hexec | ⟨hswap, hexec⟩
    · rw [hexec]
      exact ⟨h, trivial⟩
    · rw [hexec]
      refine ⟨fun id' => ?_, hheld hswap⟩
      show textOf { b with metas := _ } id' = (if id = id' then _ else _ : Option _).map _
      rw [textOf_insert, h]
      split
      case isFalse => rfl
      case isTrue hid =>
        subst hid
        obtain ⟨t, ht, -⟩ := Option.map_eq_some_iff.mp (hheld hswap)
        rw [ht]
        rfl
  | dropMeta cause id expected =>
    rcases b.exec_dropMeta_cases x e cause id expected with hexec | ⟨hdrop, hexec⟩
    · rw [hexec]
      exact ⟨h, trivial⟩
    · rw [hexec]
      refine ⟨fun id' => ?_, hheld hdrop⟩
      show textOf { b with metas := _ } id' = (if id = id' then none else _ : Option _).map _
      rw [textOf_erase, h]
      split <;> rfl
  | forgetMeta id =>
    refine ⟨fun id' => ?_, trivial⟩
    show textOf { b with metas := _ } id' = (if id = id' then none else _ : Option _).map _
    rw [textOf_erase, h]
    split <;> rfl
  | getMeta id =>
    refine ⟨h, ?_⟩
    show Faithful l ⟨i, .getMeta id, b.readMeta x e.now id⟩
    cases hread : b.readMeta x e.now id with
    | none => trivial
    | some raw => exact hheld hread
  | random =>
    rcases b.exec_random_cases x e with hexec | ⟨t, -, hexec⟩
    · rw [hexec]
      exact ⟨h, trivial⟩
    · rw [hexec]
      exact ⟨h, trivial⟩
  | addGen userID token =>
    rcases b.exec_addGen_cases x e userID token with hexec | hexec
    · rw [hexec]
      exact ⟨h, trivial⟩
    · rw [hexec]
      exact ⟨h, trivial⟩
  | removeIndex userID ids =>
    exact ⟨fun id' => (textOf_setRemove x b e.now userID ids id').trans (h id'), trivial⟩
  | _ => exact ⟨h, trivial⟩

def reached (x : Expiry) (start : Backend D) (acts : List (Act Env (Call D))) :
    Pool (Res (D := D)) (Backend D) (Call D) (Reply D) :=
  (instances x).run (Pool.start start) acts

theorem reached_append (start : Backend D) (acts acts' : List (Act Env (Call D))) :
    reached x start (acts ++ acts') = (instances x).run (reached x start acts) acts' :=
  (instances x).run_append _ _ _

theorem reached_kept {start : Backend D} (hstart : ∀ id, start.textOf id = none)
    (acts : List (Act Env (Call D))) : (∀ id, (reached x start acts).world.textOf id =
      (keptOf id (reached x start acts).log).map Prod.snd) ∧
    EachAfter Faithful (reached x start acts).log := by
  refine (instances x).invariant_world
    (I := fun b l => (∀ id, b.textOf id = (keptOf id l).map Prod.snd) ∧ EachAfter Faithful l) ?_ ?_ acts
  · exact ⟨hstart, eachAfter_nil _⟩
  · intro b l i e o h
    obtain ⟨hkept, hfaithful⟩ := b.exec_kept x h.1 i e o
    exact ⟨hkept, eachAfter_concat.mpr ⟨h.2, hfaithful⟩⟩

end Session
