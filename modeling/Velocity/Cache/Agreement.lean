import Velocity.Lib.Steps
import Velocity.Cache.Store

/-! The file store against the memory store, over whole runs of the same operations at the same
clock readings. -/

namespace Cache

open Option MemoryStore MemoryItem FileItem List Value Float64 Scalar

def MemoryStore.step (s : MemoryStore) (x : Int × Op) : MemoryStore := (s.exec x.1 x.2).2

def FileStore.step (s : FileStore) (x : Int × Op) : FileStore := (s.exec x.1 x.2).2

def MemoryStore.outcomes (s : MemoryStore) (ops : List (Int × Op)) : List Outcome :=
  (Steps.steps MemoryStore.step s ops).map fun x => (x.1.exec x.2.1 x.2.2).1

def FileStore.outcomes (s : FileStore) (ops : List (Int × Op)) : List Outcome :=
  (Steps.steps FileStore.step s ops).map fun x => (x.1.exec x.2.1 x.2.2).1

def MemoryStore.new (pre : Bytes) : MemoryStore := ⟨pre, ∅⟩

def FileStore.new (pre : Bytes) (sha256 : Bytes → Bytes) : FileStore := ⟨pre, sha256, ∅⟩

/-- A number that a double represents as it is. -/
def Value.exact : Value → Bool
  | .scalar (.int n) => Float64.ofInt n.toInt = n.toInt
  | _ => true

/-- Two numbers that differ are still different as doubles. -/
def Value.distinct : Value → Value → Bool
  | .scalar (.int n), .scalar (.int k) => Float64.ofInt n.toInt = Float64.ofInt k.toInt → n = k
  | _, _ => true

/-- No number is read back that no double represents, and no two are compared that one stands for.
-/
def Op.exact (s : MemoryStore) : Op → Bool
  | .get key | .increment key _ | .decrement key _ => (s.item key).all fun i => i.value.exact
  | .compareAndSwap key expected _ _ | .compareAndDelete key expected =>
    (s.item key).all fun i => i.value.distinct expected
  | _ => true

section Items

theorem MemoryStore.item_setLocked (s : MemoryStore) (key : Bytes) (v : Value)
    (e : Option Int) (key' : Bytes) :
    (s.setLocked key v e).item key' = if key' = key then some ⟨v, e⟩ else s.item key' := by
  simp only [item, setLocked, FMap.lookup_insert_ite, (prefixKey_injective s.pre).eq_iff]

theorem MemoryStore.item_removeLocked (s : MemoryStore) (key key' : Bytes) :
    (s.removeLocked key).item key' = if key' = key then none else s.item key' := by
  simp only [item, removeLocked, FMap.lookup_erase_ite, (prefixKey_injective s.pre).eq_iff]

variable {f : FileStore}

section

variable (h : Function.Injective f.sha256)

include h

theorem FileStore.item_writeItem (key : Bytes) (i : FileItem) (key' : Bytes) :
    (f.writeItem key i).item key' = if key' = key then some i else f.item key' := by
  simp only [item, writeItem, path, FMap.lookup_insert_ite, h.eq_iff, (prefixKey_injective _).eq_iff]

theorem FileStore.item_remove (key key' : Bytes) :
    (f.remove key).item key' = if key' = key then none else f.item key' := by
  simp only [item, remove, path, FMap.lookup_erase_ite, h.eq_iff, (prefixKey_injective _).eq_iff]

end

end Items

def MemoryItem.encode (i : MemoryItem) : FileItem :=
  match i.value with
  | .scalar v => ⟨marshalValue v, i.expiration, []⟩
  | .set members => ⟨[], i.expiration, sortedMembers members⟩

@[simp] theorem MemoryItem.expiration_encode (i : MemoryItem) :
    i.encode.expiration = i.expiration := by
  unfold encode
  split <;> rfl

def Kept (now : Int) (m : Option MemoryItem) (f : Option FileItem) : Prop :=
  f = m.map MemoryItem.encode ∨ f = none ∧ ∃ i, m = some i ∧ passed now i.expiration = true

structure Agree (now : Int) (m : MemoryStore) (f : FileStore) : Prop where
  injective : Function.Injective f.sha256
  kept : ∀ key, Kept now (m.item key) (f.item key)
  inhabited : ∀ key members e, m.item key = some ⟨.set members, e⟩ → members ≠ ∅

variable {e : Option Int} {now' : Int} {i : MemoryItem} {expected : Value}

theorem not_before_of_passed {now : Int} (h : passed now e = true) : before now e = false := by
  cases e with
  | none => simp [passed] at h
  | some e =>
    simp only [passed, before, decide_eq_true_eq, decide_eq_false_iff_not] at h ⊢
    omega

theorem passed_mono {now : Int} (h : passed now e = true) (hle : now ≤ now') :
    passed now' e = true := by
  cases e with
  | none => simp [passed] at h
  | some e =>
    simp only [passed, decide_eq_true_eq] at h ⊢
    omega

namespace Agree

variable {now : Int} {m : MemoryStore} {f : FileStore}

section

variable (h : Agree now m f)

include h

theorem later (hle : now ≤ now') : Agree now' m f := by
  refine ⟨h.injective, fun key => ?_, h.inhabited⟩
  rcases h.kept key with heq | ⟨hnone, i, hi, hpassed⟩
  · exact .inl heq
  · exact .inr ⟨hnone, i, hi, passed_mono hpassed hle⟩

theorem live_eq (key : Bytes) : f.readLiveItem now key = (m.live now key).map encode := by
  unfold FileStore.readLiveItem live
  rcases h.kept key with heq | ⟨hnone, i, hi, hpassed⟩
  · rw [heq]
    cases m.item key with
    | none => rfl
    | some i =>
      simp only [map_some, filter_some, expiration_encode]
      split <;> rfl
  · rw [hnone, hi, filter_some, not_before_of_passed hpassed]
    rfl

theorem write (key : Bytes) (v : Value) (e : Option Int)
    (hv : ∀ members, v = .set members → members ≠ ∅) :
    Agree now (m.setLocked key v e) (f.writeItem key (MemoryItem.encode ⟨v, e⟩)) := by
  refine ⟨h.injective, ?_, ?_⟩
  · intro key'
    rw [item_setLocked, FileStore.item_writeItem h.injective]
    split
    · exact .inl rfl
    · exact h.kept key'
  · intro key' members e' hitem
    rw [item_setLocked] at hitem
    split at hitem
    · simp only [some.injEq, MemoryItem.mk.injEq] at hitem
      exact hv members hitem.1
    · exact h.inhabited key' members e' hitem

theorem remove (key : Bytes) : Agree now (m.removeLocked key) (f.remove key) := by
  refine ⟨h.injective, ?_, ?_⟩
  · intro key'
    rw [item_removeLocked, FileStore.item_remove h.injective]
    split
    · exact .inl rfl
    · exact h.kept key'
  · intro key' members e' hitem
    rw [item_removeLocked] at hitem
    split at hitem
    · cases hitem
    · exact h.inhabited key' members e' hitem

theorem expire {key : Bytes} (hi : m.item key = some i)
    (hpassed : passed now i.expiration = true) : Agree now m (f.remove key) := by
  refine ⟨h.injective, ?_, h.inhabited⟩
  intro key'
  rw [FileStore.item_remove h.injective]
  split
  case isTrue heq =>
    rw [heq]
    exact .inr ⟨rfl, i, hi, hpassed⟩
  case isFalse => exact h.kept key'

end

end Agree

section Encoded

theorem isSet_scalar (v : Scalar) (e : Option Int) : (encode ⟨.scalar v, e⟩).isSet = false := by
  simp [encode, isSet]

theorem toFinset_sortedMembers (members : Finset Bytes) :
    (sortedMembers members).toFinset = members :=
  Finset.sort_toFinset members (· ≤ ·)

theorem isSet_set {members : Finset Bytes} (h : members ≠ ∅) (e : Option Int) :
    (encode ⟨.set members, e⟩).isSet = true := by
  have hne : sortedMembers members ≠ [] := by
    intro hnil
    apply h
    rw [← toFinset_sortedMembers members, hnil]
    rfl
  simp [encode, isSet, hne]

attribute [local simp] decoded

abbrev MemoryItem.Filled (i : MemoryItem) : Prop := ∀ members, i.value = .set members → members ≠ ∅

theorem read_encode (hset : i.Filled) :
    ∃ r, i.encode.read = some r ∧ (∀ s, r = .str s ↔ i.value = .scalar (.str s)) ∧
      (i.value.exact = true → r = i.value.reading) := by
  obtain ⟨value, e⟩ := i
  cases value with
  | scalar v =>
    refine ⟨v.decoded, ?_, ?_, ?_⟩
    · rw [FileItem.read, isSet_scalar]
      exact unmarshalValue_marshalValue v
    · intro s
      cases v <;> simp
    · intro hexact
      cases v with
      | str s => rfl
      | int n =>
        have hn : ofInt n.toInt = n.toInt := by simpa [exact] using hexact
        simp [reading, hn]
  | set members =>
    refine ⟨.set members, ?_, by simp, fun _ => rfl⟩
    rw [FileItem.read, if_pos (isSet_set (hset members rfl) e)]
    simp [encode, toFinset_sortedMembers]

theorem decoded_inj {v w : Scalar} (h : (scalar v).distinct (.scalar w) = true) :
    v.decoded = w.decoded ↔ v = w := by
  cases v with
  | str s => cases w <;> simp
  | int n =>
    cases w with
    | str s => simp
    | int k =>
      have hinj : ofInt n.toInt = ofInt k.toInt → n = k := by
        simpa only [distinct, decide_eq_true_eq] using h
      simp only [decoded, Reading.num.injEq, int.injEq]
      exact ⟨hinj, fun heq => by rw [heq]⟩

theorem matches_encode (hset : i.Filled) (h : i.value.distinct expected = true) :
    (i.encode.matches expected = true) ↔ i.value = expected := by
  obtain ⟨value, e⟩ := i
  cases value with
  | scalar v =>
    have hread : unmarshalValue (encode ⟨.scalar v, e⟩).value = some v.decoded :=
      unmarshalValue_marshalValue v
    simp only [FileItem.matches, isSet_scalar, Bool.false_eq_true, if_false, hread,
      decide_eq_true_eq]
    cases expected with
    | scalar w =>
      rw [expectedShape, unmarshalValue_marshalValue, some.injEq, decoded_inj h, scalar.injEq]
    | set members => simp [expectedShape]
  | set members =>
    simp only [FileItem.matches, isSet_set (hset members rfl) e, if_true]
    cases expected with
    | scalar w => simp
    | set members' => simp [encode, toFinset_sortedMembers]

end Encoded

def Matched (now : Int) (m : Outcome × MemoryStore) (f : Outcome × FileStore) : Prop :=
  f.1 = m.1 ∧ Agree now m.2 f.2

namespace Agree

variable {now : Int} {m : MemoryStore} {f : FileStore}

section

variable (h : Agree now m f) (key : Bytes)

include h key

theorem filled (hitem : m.item key = some i) : i.Filled := by
  intro members hset
  apply h.inhabited key members i.expiration
  rw [hitem, ← hset]

theorem live_cases : m.live now key = none ∧ f.readLiveItem now key = none ∨
    ∃ i, m.live now key = some i ∧ f.readLiveItem now key = some i.encode ∧
      m.item key = some i ∧ i.Filled := by
  have heq := h.live_eq key
  cases hlive : m.live now key with
  | none =>
    rw [hlive] at heq
    exact .inl ⟨rfl, heq⟩
  | some i =>
    rw [hlive] at heq
    have hitem : m.item key = some i := (filter_eq_some_iff.mp hlive).1
    exact .inr ⟨i, rfl, heq, hitem, h.filled key hitem⟩

theorem put (v : Scalar) (e : Option Int) :
    Agree now (m.setLocked key (.scalar v) e) (f.put key v e) :=
  h.write key (.scalar v) e (by simp)

theorem writeSet {set : Finset Bytes} (e : Option Int)
    (hset : set ≠ ∅) : Agree now (m.setLocked key (.set set) e) (f.writeSet key set e) :=
  h.write key (.set set) e fun members heq => by rwa [← Value.set.inj heq]

theorem add (v : Scalar) (ttl : Int) :
    Matched now (m.exec now (.add key v ttl)) (f.exec now (.add key v ttl)) := by
  simp only [MemoryStore.exec, FileStore.exec, MemoryStore.add, FileStore.add]
  rcases h.live_cases key with ⟨hm, hf⟩ | ⟨i, hm, hf, -⟩ <;> rw [hm, hf]
  · exact ⟨rfl, h.put key v _⟩
  · exact ⟨rfl, h⟩

end

variable {key : Bytes}

section

variable (h : Agree now m f)

include h

theorem increment (delta : Int64) (hexact : ((m.item key).all fun i => i.value.exact) = true) :
    Matched now (MemoryStore.counted (m.increment now key delta))
      (FileStore.counted (f.increment now key delta)) := by
  unfold MemoryStore.increment FileStore.increment
  rcases h.live_cases key with ⟨hm, hf⟩ | ⟨⟨value, e⟩, hm, hf, hitem, -⟩ <;> rw [hm, hf]
  · exact ⟨rfl, h.put key _ none⟩
  · cases value with
    | set members => exact ⟨rfl, h⟩
    | scalar v =>
      have hread : unmarshalValue (encode ⟨.scalar v, e⟩).value = some v.decoded :=
        unmarshalValue_marshalValue v
      simp only [hread]
      cases v with
      | str s => exact ⟨rfl, h⟩
      | int n =>
        have hn : ofInt n.toInt = n.toInt := by
          simpa [hitem, exact] using hexact
        simp only [decoded, hn, truncate_toInt, expiration_encode]
        exact ⟨rfl, h.put key _ e⟩

theorem compareAndSwap (v : Scalar)
    (ttl : Int) (hexact : ((m.item key).all fun i => i.value.distinct expected) = true) :
    Matched now (m.exec now (.compareAndSwap key expected v ttl))
      (f.exec now (.compareAndSwap key expected v ttl)) := by
  simp only [MemoryStore.exec, FileStore.exec, MemoryStore.compareAndSwap, FileStore.compareAndSwap]
  rcases h.live_cases key with ⟨hm, hf⟩ | ⟨i, hm, hf, hitem, hset⟩ <;> rw [hm, hf]
  · exact ⟨rfl, h⟩
  · simp only [matches_encode hset (by simpa [hitem] using hexact)]
    split
    · exact ⟨rfl, h.put key v _⟩
    · exact ⟨rfl, h⟩

theorem compareAndDelete (hexact : ((m.item key).all fun i => i.value.distinct expected) = true) :
    Matched now (m.exec now (.compareAndDelete key expected))
      (f.exec now (.compareAndDelete key expected)) := by
  simp only [MemoryStore.exec, FileStore.exec, MemoryStore.compareAndDelete, FileStore.compareAndDelete]
  rcases h.live_cases key with ⟨hm, hf⟩ | ⟨i, hm, hf, hitem, hset⟩ <;> rw [hm, hf]
  · exact ⟨rfl, h⟩
  · simp only [matches_encode hset (by simpa [hitem] using hexact)]
    split
    · exact ⟨rfl, h.remove key⟩
    · exact ⟨rfl, h⟩

variable (key : Bytes)

theorem get : ((f.get now key).1.isSome = (m.get now key).isSome ∧
      (∀ s, (f.get now key).1 = some (.str s) ↔ m.get now key = some (.scalar (.str s))) ∧
      (((m.item key).all fun i => i.value.exact) = true →
        (f.get now key).1 = (m.get now key).map Value.reading)) ∧
      Agree now m (f.get now key).2 := by
  unfold FileStore.get MemoryStore.get
  rcases h.kept key with heq | ⟨hnone, i, hi, hpassed⟩
  · cases hitem : m.item key with
    | none =>
      rw [heq, hitem]
      simpa using h
    | some i =>
      rw [heq, hitem]
      simp only [map_some, expiration_encode]
      cases hpassed : passed now i.expiration with
      | true => simpa using h.expire hitem hpassed
      | false =>
        obtain ⟨r, hread, hstr, hnum⟩ := read_encode (h.filled key hitem)
        simpa [hread, hstr] using ⟨hnum, h⟩
  · rw [hnone, hi]
    simpa [hpassed] using h

theorem getString : Matched now (m.exec now (.getString key)) (f.exec now (.getString key)) := by
  obtain ⟨⟨-, hstr, -⟩, hagree⟩ := h.get key
  refine ⟨?_, hagree⟩
  show Outcome.text (f.getString now key).1 = .text (m.getString now key)
  congr 1
  ext s
  have hf : (f.getString now key).1 = some s ↔ (f.get now key).1 = some (.str s) := by
    simp only [FileStore.getString]
    split <;> simp_all
  have hm : m.getString now key = some s ↔ m.get now key = some (.scalar (.str s)) := by
    simp only [MemoryStore.getString]
    split <;> simp_all
  rw [hf, hm, hstr]

theorem liveSet_eq : f.liveSet now key = m.liveSet now key ∧
      ∀ set e, m.liveSet now key = some (set, e) → set ≠ ∅ := by
  unfold FileStore.liveSet liveSet
  rcases h.live_cases key with ⟨hm, hf⟩ | ⟨⟨value, e⟩, hm, hf, -, hset⟩
  · simp [hm, hf]
  · rw [hm, hf]
    cases value with
    | scalar v => simp [isSet_scalar]
    | set members =>
      have hne := hset members rfl
      have hread : (encode ⟨.set members, e⟩).members.toFinset = members :=
        toFinset_sortedMembers members
      simp [isSet_set hne, hread, hne]

theorem setAdd (ttl : Int) (members : List Bytes) :
    Agree now (m.setAdd now key ttl members) (f.setAdd now key ttl members) := by
  unfold MemoryStore.setAdd FileStore.setAdd
  rw [(h.liveSet_eq key).1]
  split
  · exact h
  · rename_i hne
    have hsome : members.toFinset ≠ ∅ := by simpa using hne
    split
    · exact h.writeSet key _ hsome
    · refine h.writeSet key _ ?_
      intro hempty
      exact hsome (Finset.union_eq_empty.mp hempty).2

theorem setRemove (members : List Bytes) :
    Agree now (m.setRemove now key members) (f.setRemove now key members) := by
  unfold MemoryStore.setRemove FileStore.setRemove
  rw [(h.liveSet_eq key).1]
  split
  · exact h
  · split
    · exact h
    · split
      · exact h.remove key
      · exact h.writeSet key _ ‹_›

theorem flush : Agree now { m with items := ∅ } { f with files := ∅ } :=
  ⟨h.injective, fun _ => .inl rfl, nofun⟩

theorem exec {op : Op} (hexact : op.exact m = true) :
    Matched now (m.exec now op) (f.exec now op) := by
  cases op with
  | put key v ttl => exact ⟨rfl, h.put key v _⟩
  | add key v ttl => exact h.add key v ttl
  | forever key v => exact ⟨rfl, h.put key v none⟩
  | forget key => exact ⟨rfl, h.remove key⟩
  | flush => exact ⟨rfl, h.flush⟩
  | increment key delta => exact h.increment delta hexact
  | decrement key delta => exact h.increment (-delta) hexact
  | get key =>
    obtain ⟨⟨-, -, hread⟩, hagree⟩ := h.get key
    exact ⟨congrArg Outcome.reading (hread hexact), hagree⟩
  | getString key => exact h.getString key
  | has key =>
    obtain ⟨⟨hsome, -⟩, hagree⟩ := h.get key
    exact ⟨congrArg Outcome.flag hsome, hagree⟩
  | compareAndSwap key expected v ttl => exact h.compareAndSwap v ttl hexact
  | compareAndDelete key expected => exact h.compareAndDelete hexact
  | setAdd key ttl members => exact ⟨rfl, h.setAdd key ttl members⟩
  | setRemove key members => exact ⟨rfl, h.setRemove key members⟩
  | setMembers key =>
    refine ⟨?_, h⟩
    simp only [FileStore.exec, MemoryStore.exec, FileStore.setMembers, MemoryStore.setMembers,
      (h.liveSet_eq key).1]

end

theorem outcomes_eq (ops : List (Int × Op)) :
    ∀ {now : Int} {m : MemoryStore} {f : FileStore}, Agree now m f →
      (∀ x ∈ ops, now ≤ x.1) → (ops.map Prod.fst).Pairwise (· ≤ ·) →
      (∀ x ∈ Steps.steps MemoryStore.step m ops, x.2.2.exact x.1 = true) →
      f.outcomes ops = m.outcomes ops := by
  induction ops with
  | nil => intros; rfl
  | cons x ops ih =>
    intro now m f h hfrom hclock hexact
    have hnow : now ≤ x.1 := hfrom x (by simp)
    obtain ⟨hsame, hagree⟩ := (h.later hnow).exec (hexact (m, x) (by simp [Steps.steps]))
    simp only [List.map_cons, List.pairwise_cons, List.mem_map, forall_exists_index, and_imp,
      forall_apply_eq_imp_iff₂] at hclock
    have hrest := ih hagree hclock.1 hclock.2
      fun y hy => hexact y (List.mem_cons_of_mem _ hy)
    simp only [FileStore.outcomes, outcomes, Steps.steps, List.map_cons, hsame]
    congr 1

end Agree

theorem agree_new (now : Int) (pre pre' : Bytes) {sha256 : Bytes → Bytes}
    (h : Function.Injective sha256) : Agree now (new pre) (FileStore.new pre' sha256) :=
  ⟨h, fun _ => .inl rfl, nofun⟩

/-- Empty stores answer alike while the clock does not go back and no number is rounded by a double.
-/
theorem fileStore_refines_memoryStore (pre pre' : Bytes) {sha256 : Bytes → Bytes}
    (hsha : Function.Injective sha256) (ops : List (Int × Op))
    (hclock : (ops.map Prod.fst).Pairwise (· ≤ ·))
    (hexact : ∀ x ∈ Steps.steps MemoryStore.step (MemoryStore.new pre) ops, x.2.2.exact x.1 = true) :
    (FileStore.new pre' sha256).outcomes ops = (MemoryStore.new pre).outcomes ops := by
  cases ops with
  | nil => rfl
  | cons x ops =>
    apply Agree.outcomes_eq (x :: ops) (agree_new x.1 pre pre' hsha) ?_ hclock hexact
    intro y hy
    rcases mem_cons.mp hy with rfl | hmem
    · exact le_rfl
    · exact rel_of_pairwise_cons hclock (mem_map_of_mem hmem)

def visits : List (Int × Op) :=
  [(0, .increment [1] 40), (1, .increment [1] 2), (2, .get [1]), (3, .put [2] (.str [0, 255]) 5),
    (4, .getString [2]), (4, .setAdd [3] 10 [[7], [8]]), (5, .setRemove [3] [[7]]),
    (8, .get [2]), (9, .has [2]), (9, .setMembers [3]),
    (10, .compareAndSwap [1] (.scalar (.int 42)) (.str [6]) 0)]

theorem visits_agree :
    (FileStore.new [9] id).outcomes visits = (MemoryStore.new []).outcomes visits :=
  fileStore_refines_memoryStore [] [9] Function.injective_id visits (by decide)
    (by decide +kernel)

/-- The file store reads 2^53 + 1 back as 2^53, so that its third sum is one less. -/
theorem increment_past_double :
    let ops : List (Int × Op) :=
      [(0, .increment [1] 9007199254740992), (0, .increment [1] 1), (0, .increment [1] 1)]
    (new []).outcomes ops = [.count 9007199254740992, .count 9007199254740993, .count 9007199254740994] ∧
      (FileStore.new [] id).outcomes ops =
        [.count 9007199254740992, .count 9007199254740993, .count 9007199254740993] := by
  decide +kernel

end Cache
