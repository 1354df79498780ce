import Velocity.Router.Tree

/-! The tree as a map from shapes, the keys of a pattern's segments, to the routes stored there.
An insertion is an update of that map at the pattern's own shape. -/

namespace Router

open List Node Router.Tree Assoc

/-- What the tree distinguishes of a segment: parameter names share a node. -/
inductive Key where
  | static (value : Bytes)
  | regex (rawPattern : Bytes)
  | param
  | wildcard
  deriving DecidableEq, Repr

variable {R H : Type} [Regexp R] {raw : Bytes}

def Segment.key (s : Segment R) : Key :=
  match s.type with
  | .static => .static s.value
  | .regex => .regex s.rawPattern
  | .param => .param
  | .wildcard => .wildcard

def MatchResult.shape (m : MatchResult R H) : List Key := m.segments.map Segment.key

/-- The regex children under the constraints they are found by. -/
def Node.keyed (children : List (Node R H)) : List (Bytes × Node R H) :=
  children.map fun child => (child.segment.rawPattern, child)

def Node.child (n : Node R H) : Key → Option (Node R H)
  | .static value => Assoc.get value n.staticChildren
  | .regex rawPattern => Assoc.get rawPattern (Node.keyed n.regexChildren)
  | .param => n.paramChild
  | .wildcard => n.wildcardChild

def Node.descend : List Key → Node R H → Option (Node R H)
  | [], n => some n
  | k :: ks, n => (n.child k).bind (Node.descend ks)

def Node.routeAt (n : Node R H) (shape : List Key) (method : Bytes) : Option (MatchResult R H) :=
  (n.descend shape).bind fun node => node.handlers.lookup method

def Node.regexesAt (n : Node R H) (shape : List Key) : List Bytes :=
  match n.descend shape with
  | some node => node.regexChildren.map fun child => child.segment.rawPattern
  | none => []

variable {f : Node R H → Node R H}

theorem Node.keyed_alterRegex (seg : Segment R)
    (hf : ∀ n, (f n).segment = n.segment) (children : List (Node R H)) :
    keyed (alterRegex seg f children) =
      alter seg.rawPattern (fun child => f (child.getD { segment := seg }))
        (keyed children) := by
  induction children with
  | nil => simp [keyed, alterRegex, alter, hf]
  | cons child children ih =>
    simp only [keyed, map_cons, alter] at ih ⊢
    by_cases h : child.segment.rawPattern = seg.rawPattern
    · simp [alterRegex, h, hf]
    · simp [alterRegex, h, ih]

variable (n : Node R H)

theorem Node.child_getOrCreateChild (seg : Segment R)
    (hf : ∀ n, (f n).segment = n.segment) (k : Key) : (n.getOrCreateChild seg f).child k =
      if k = seg.key then some (f ((n.child k).getD { segment := seg })) else n.child k := by
  unfold getOrCreateChild Segment.key
  cases htype : seg.type with
  | static =>
    cases k with
    | static v =>
      simp only [child, get_alter, Key.static.injEq]
      by_cases hv : v = seg.value <;> simp [hv]
    | _ => simp [child]
  | regex =>
    cases k with
    | regex raw =>
      simp only [child, keyed_alterRegex seg hf, get_alter, Key.regex.injEq]
      by_cases hv : raw = seg.rawPattern <;> simp [hv]
    | _ => simp [child]
  | _ => cases k <;> simp [child]

@[simp] theorem Node.handlers_getOrCreateChild (seg : Segment R)
    (f : Node R H → Node R H) : (n.getOrCreateChild seg f).handlers = n.handlers := by
  unfold getOrCreateChild
  split <;> rfl

@[simp] theorem Node.segment_getOrCreateChild (seg : Segment R)
    (f : Node R H → Node R H) : (n.getOrCreateChild seg f).segment = n.segment := by
  unfold getOrCreateChild
  split <;> rfl

variable (method : Bytes) (result : MatchResult R H) (segments : List (Segment R))

theorem Node.segment_insert (n : Node R H) :
    (n.insert method result segments).segment = n.segment := by
  cases segments with
  | nil => rfl
  | cons seg segments => rw [insert, segment_getOrCreateChild]

@[simp] theorem Node.routeAt_nil : n.routeAt [] method = n.handlers.lookup method := rfl

theorem Node.routeAt_cons (k : Key) (ks : List Key) (method : Bytes) :
    n.routeAt (k :: ks) method = (n.child k).bind fun child => child.routeAt ks method := by
  simp only [routeAt, descend]
  cases n.child k <;> rfl

theorem Node.regexesAt_cons (k : Key) (ks : List Key) : n.regexesAt (k :: ks) = match n.child k with
      | some child => child.regexesAt ks
      | none => [] := by
  simp only [regexesAt, descend]
  cases n.child k <;> rfl

section Fresh

variable (seg : Segment R)

theorem Node.child_new (k : Key) : ({ segment := seg } : Node R H).child k = none := by
  cases k <;> rfl

theorem Node.routeAt_new (shape : List Key) (method : Bytes) :
    ({ segment := seg } : Node R H).routeAt shape method = none := by
  cases shape with
  | nil => rfl
  | cons k ks => rw [routeAt_cons, child_new, Option.bind_none]

theorem Node.regexesAt_new (shape : List Key) :
    ({ segment := seg } : Node R H).regexesAt shape = [] := by
  cases shape with
  | nil => rfl
  | cons k ks => rw [regexesAt_cons, child_new]

end Fresh

theorem Node.routeAt_insert (n : Node R H) (shape : List Key) (method' : Bytes) :
    (n.insert method result segments).routeAt shape method' =
      if shape = segments.map Segment.key ∧ method' = method then some result
      else n.routeAt shape method' := by
  induction segments generalizing n shape with
  | nil =>
    cases shape with
    | nil => simp [insert, FMap.lookup_insert_ite]
    | cons k ks => simp [insert, routeAt_cons, show
        ({ n with handlers := n.handlers.insert method result, isLeaf := true } : Node R H).child k =
          n.child k by cases k <;> rfl]
  | cons seg segments ih =>
    have hf := segment_insert method result segments
    cases shape with
    | nil => simp [insert]
    | cons k ks =>
      rw [insert, routeAt_cons, child_getOrCreateChild n seg hf, map_cons]
      by_cases hk : k = seg.key
      · have hrest : ((n.child k).getD { segment := seg }).routeAt ks method' =
            (n.child k).bind fun child => child.routeAt ks method' := by
          cases n.child k with
          | none => exact routeAt_new seg ks method'
          | some child => rfl
        rw [if_pos hk, Option.bind_some, ih, hrest, routeAt_cons]
        simp only [hk, cons.injEq, true_and]
      · rw [if_neg hk, ← routeAt_cons]
        simp [hk]

/-- The constraint a shape has right after a prefix of it. -/
def regexAfter : List Key → List Key → Option Bytes
  | [], .regex rawPattern :: _ => some rawPattern
  | k :: ks, k' :: shape => if k = k' then regexAfter ks shape else none
  | _, _ => none

def addRegex (raw? : Option Bytes) (raws : List Bytes) : List Bytes :=
  match raw? with
  | some raw => Assoc.addKey raw raws
  | none => raws

theorem Node.regexes_getOrCreateChild (seg : Segment R) (hf : ∀ n, (f n).segment = n.segment) :
    (n.getOrCreateChild seg f).regexesAt [] = addRegex (regexAfter [] [seg.key]) (n.regexesAt []) := by
  have hkeys : ∀ children : List (Node R H),
      children.map (fun child => child.segment.rawPattern) = Assoc.keys (keyed children) := by
    simp [Assoc.keys, keyed]
  have hraws : ∀ n : Node R H, n.regexesAt [] = Assoc.keys (keyed n.regexChildren) :=
    fun n => hkeys n.regexChildren
  unfold getOrCreateChild Segment.key
  cases htype : seg.type with
  | regex => simp only [hraws, regexAfter, addRegex, keyed_alterRegex seg hf, Assoc.keys_alter]
  | _ => rfl

theorem Node.regexesAt_insert (n : Node R H) (shape : List Key) :
    (n.insert method result segments).regexesAt shape =
      addRegex (regexAfter shape (segments.map Segment.key)) (n.regexesAt shape) := by
  induction segments generalizing n shape with
  | nil =>
    cases shape with
    | nil => rfl
    | cons k ks =>
      cases k <;> rfl
  | cons seg segments ih =>
    have hf := segment_insert method result segments
    cases shape with
    | nil =>
      have hafter : regexAfter [] ((seg :: segments).map Segment.key) = regexAfter [] [seg.key] := by
        rw [map_cons]
        cases seg.key <;> rfl
      rw [insert, regexes_getOrCreateChild n seg hf, hafter]
    | cons k ks =>
      rw [insert, regexesAt_cons, child_getOrCreateChild n seg hf, regexesAt_cons, map_cons, regexAfter]
      by_cases hk : k = seg.key
      · simp only [if_pos hk]
        rw [ih]
        cases n.child k with
        | none => rw [Option.getD_none, regexesAt_new]
        | some child => rfl
      · simp only [if_neg hk]
        rfl

section WellFormed

inductive Node.WellFormed : Node R H → Prop
  | intro {n : Node R H}
      (staticKeys : (Assoc.keys n.staticChildren).Nodup)
      (static : ∀ value child, (value, child) ∈ n.staticChildren → value ≠ [] ∧ slash ∉ value)
      (staticChild : ∀ value child, (value, child) ∈ n.staticChildren → child.WellFormed)
      (regexKeys : (Assoc.keys (Node.keyed n.regexChildren)).Nodup)
      (regex : ∀ child ∈ n.regexChildren, child.segment.type = .regex)
      (regexChild : ∀ child ∈ n.regexChildren, child.WellFormed)
      (paramChild : ∀ child, n.paramChild = some child → child.WellFormed)
      (wildcardChild : ∀ child, n.wildcardChild = some child → child.WellFormed)
      (leaf : ∀ method result, n.handlers.lookup method = some result → n.isLeaf = true) :
      n.WellFormed

theorem Node.wellFormed_new (seg : Segment R) : ({ segment := seg } : Node R H).WellFormed := by
  constructor <;> simp [Assoc.keys, keyed]

variable {seg : Segment R}

theorem Node.wellFormed_getD {o : Option (Node R H)}
    (h : ∀ child, o = some child → child.WellFormed) : (o.getD { segment := seg }).WellFormed := by
  cases o with
  | none => exact wellFormed_new seg
  | some child => exact h child rfl

theorem Node.mem_keyed {children : List (Node R H)} {child : Node R H} :
    (raw, child) ∈ keyed children ↔ child ∈ children ∧ child.segment.rawPattern = raw := by
  simp only [keyed, mem_map, Prod.mk.injEq]
  constructor
  · rintro ⟨c, hc, hraw, rfl⟩
    exact ⟨hc, hraw⟩
  · rintro ⟨hc, hraw⟩
    exact ⟨child, hc, hraw, rfl⟩

abbrev Segment.Plain (seg : Segment R) : Prop := seg.type = .static → seg.value ≠ [] ∧ slash ∉ seg.value

theorem Node.WellFormed.getOrCreateChild {n : Node R H} (h : n.WellFormed)
    {f : Node R H → Node R H} (hseg : seg.Plain)
    (hsegment : ∀ n, (f n).segment = n.segment) (hf : ∀ n, n.WellFormed → (f n).WellFormed) :
    (n.getOrCreateChild seg f).WellFormed := by
  obtain ⟨hkeys, hstatic, hstaticChild, hregexKeys, hregex, hregexChild, hparam, hwildcard, hleaf⟩ :=
    h
  unfold Node.getOrCreateChild
  cases htype : seg.type with
  | static =>
    refine ⟨Assoc.nodup_keys_alter hkeys _ _, Assoc.forall_alter hstatic fun _ _ => hseg htype,
      Assoc.forall_alter hstaticChild ?_, hregexKeys, hregex, hregexChild, hparam, hwildcard,
      hleaf⟩
    intro o ho
    exact hf _ (wellFormed_getD ho)
  | regex =>
    -- The children under their keys are changed as an association list is.
    have hkeyed : ∀ raw child, (raw, child) ∈ keyed n.regexChildren →
        child.segment.type = .regex ∧ child.WellFormed := by
      intro raw child hmem
      have hchild := (mem_keyed.mp hmem).1
      exact ⟨hregex child hchild, hregexChild child hchild⟩
    have hnew : ∀ raw child, (raw, child) ∈ keyed (alterRegex seg f n.regexChildren) →
        child.segment.type = .regex ∧ child.WellFormed := by
      rw [keyed_alterRegex seg hsegment]
      apply Assoc.forall_alter hkeyed
      intro o ho
      refine ⟨?_, hf _ (wellFormed_getD fun child hchild => (ho child hchild).2)⟩
      rw [hsegment]
      cases o with
      | none => exact htype
      | some child => exact (ho child rfl).1
    have hmem : ∀ child ∈ alterRegex seg f n.regexChildren,
        child.segment.type = .regex ∧ child.WellFormed :=
      fun child hchild => hnew _ child (mem_keyed.mpr ⟨hchild, rfl⟩)
    refine ⟨hkeys, hstatic, hstaticChild, ?_, fun child hchild => (hmem child hchild).1,
      fun child hchild => (hmem child hchild).2, hparam, hwildcard, hleaf⟩
    rw [keyed_alterRegex seg hsegment]
    exact Assoc.nodup_keys_alter hregexKeys _ _
  | param =>
    refine ⟨hkeys, hstatic, hstaticChild, hregexKeys, hregex, hregexChild, ?_, hwildcard, hleaf⟩
    intro child hchild
    rw [← Option.some.inj hchild]
    exact hf _ (wellFormed_getD hparam)
  | wildcard =>
    refine ⟨hkeys, hstatic, hstaticChild, hregexKeys, hregex, hregexChild, hparam, ?_, hleaf⟩
    intro child hchild
    rw [← Option.some.inj hchild]
    exact hf _ (wellFormed_getD hwildcard)

theorem Node.WellFormed.insert {n : Node R H} (h : n.WellFormed) (method : Bytes)
    (result : MatchResult R H) {segments : List (Segment R)}
    (hsegments : ∀ seg ∈ segments, seg.Plain) : (n.insert method result segments).WellFormed := by
  induction segments generalizing n with
  | nil =>
    cases h
    constructor
    case leaf => exact fun _ _ _ => rfl
    all_goals assumption
  | cons seg segments ih =>
    apply h.getOrCreateChild (hsegments seg mem_cons_self)
    · exact segment_insert method result segments
    · intro child hchild
      exact ih hchild fun s hs => hsegments s (mem_cons_of_mem _ hs)

end WellFormed

section Runs

structure Insertion (H : Type) where
  method : Bytes
  path : Bytes
  handler : H
  name : Bytes

structure Route (R H : Type) [Regexp R] where
  method : Bytes
  registered : MatchResult R H

/-- A call whose pattern parses stores its route, also when its name is taken. -/
def Insertion.route? (c : Insertion H) : Option (Route R H) :=
  match parseSegments (R := R) c.path with
  | .error _ => none
  | .ok segments =>
    some ⟨c.method, { handler := c.handler, name := c.name, path := c.path, segments := segments }⟩

def inserted (calls : List (Insertion H)) : List (Route R H) := calls.filterMap Insertion.route?

abbrev Tree.insertOne (t : Tree R H) (c : Insertion H) : InsertOutcome × Tree R H :=
  t.insertWithName c.method c.path c.handler c.name

def Tree.insertAll (calls : List (Insertion H)) : Tree R H :=
  calls.foldl (fun t c => (t.insertOne c).2) newTree

def latest (routes : List (Route R H)) (method : Bytes) (shape : List Key) :
    Option (MatchResult R H) :=
  (routes.reverse.find? fun r => r.method = method ∧ r.registered.shape = shape).map Route.registered

/-- The number of patterns inserted before the first that has the constraint after the prefix. -/
def firstUnder (routes : List (Route R H)) (pre : List Key) (rawPattern : Bytes) : Nat :=
  routes.findIdx fun r => regexAfter pre r.registered.shape = some rawPattern

def Node.insertRoute (n : Node R H) (r : Route R H) : Node R H :=
  n.insert r.method r.registered r.registered.segments

theorem Tree.insertWithName_root (t : Tree R H) (c : Insertion H) :
    (t.insertOne c).2.root =
      match (c.route? : Option (Route R H)) with
      | some r => t.root.insertRoute r
      | none => t.root := by
  unfold insertOne insertWithName Insertion.route?
  cases parseSegments (R := R) c.path with
  | error err => rfl
  | ok segments =>
    simp only
    split
    · rfl
    · split <;> rfl

variable (calls : List (Insertion H)) {raws : List Bytes}

theorem Tree.insertAll_root : (insertAll calls : Tree R H).root =
      (inserted calls).foldl insertRoute (newTree : Tree R H).root := by
  induction calls using reverseRecOn with
  | nil => rfl
  | append_singleton calls c ih =>
    simp only [insertAll, inserted, foldl_append, foldl_cons, foldl_nil,
      filterMap_append, filterMap_cons, filterMap_nil] at ih ⊢
    rw [insertWithName_root, ih]
    cases Insertion.route? (R := R) c with
    | none => simp
    | some r => simp

theorem latest_concat (routes : List (Route R H)) (r : Route R H) (method : Bytes)
    (shape : List Key) : latest (routes ++ [r]) method shape =
      if shape = r.registered.shape ∧ method = r.method then some r.registered
      else latest routes method shape := by
  unfold latest
  rw [reverse_append, reverse_singleton, singleton_append]
  by_cases h : shape = r.registered.shape ∧ method = r.method
  · rw [if_pos h, find?_cons_of_pos (by simp [h])]
    rfl
  · have hr : ¬(r.method = method ∧ r.registered.shape = shape) :=
      fun hh => h ⟨hh.2.symm, hh.1.symm⟩
    rw [if_neg h, find?_cons_of_neg (by simpa using hr)]

theorem Tree.routeAt_insertAll (shape : List Key) (method : Bytes) :
    (insertAll calls : Tree R H).root.routeAt shape method =
      latest (inserted calls) method shape := by
  rw [insertAll_root]
  induction (inserted calls : List (Route R H)) using reverseRecOn with
  | nil => exact routeAt_new _ shape method
  | append_singleton routes r ih =>
    rw [foldl_append, foldl_cons, foldl_nil, insertRoute, routeAt_insert, ih, latest_concat]
    rfl

theorem firstUnder_concat (routes : List (Route R H)) (r : Route R H) (pre : List Key)
    (raw : Bytes) : firstUnder (routes ++ [r]) pre raw =
      if firstUnder routes pre raw < routes.length then firstUnder routes pre raw
      else if regexAfter pre r.registered.shape = some raw then routes.length
      else routes.length + 1 := by
  unfold firstUnder
  rw [findIdx_append]
  by_cases hr : regexAfter pre r.registered.shape = some raw
  · simp [hr]
  · simp [hr, Nat.add_comm]

/-- The constraints of a node stand in the order their first patterns were inserted. -/
structure FirstInserted (routes : List (Route R H)) (pre : List Key) (raws : List Bytes) : Prop where
  known : ∀ raw, raw ∈ raws ↔ firstUnder routes pre raw < routes.length
  ordered : raws.Pairwise fun raw raw' => firstUnder routes pre raw < firstUnder routes pre raw'

theorem mem_addRegex {raw? : Option Bytes} :
    raw ∈ addRegex raw? raws ↔ raw ∈ raws ∨ raw? = some raw := by
  cases raw? with
  | none => simp [addRegex]
  | some r => simp only [addRegex, mem_addKey, Option.some.injEq, eq_comm]

theorem FirstInserted.concat {routes : List (Route R H)} {pre : List Key}
    (h : FirstInserted routes pre raws) (r : Route R H) :
    FirstInserted (routes ++ [r]) pre (addRegex (regexAfter pre r.registered.shape) raws) := by
  have hlen : (routes ++ [r]).length = routes.length + 1 := by simp
  have hkept : ∀ raw ∈ raws, firstUnder (routes ++ [r]) pre raw = firstUnder routes pre raw := by
    intro raw hraw
    rw [firstUnder_concat, if_pos ((h.known raw).mp hraw)]
  have hold : raws.Pairwise fun raw raw' =>
      firstUnder (routes ++ [r]) pre raw < firstUnder (routes ++ [r]) pre raw' := by
    apply h.ordered.imp_of_mem
    intro raw raw' hraw hraw' hh
    rw [hkept raw hraw, hkept raw' hraw']
    exact hh
  constructor
  · intro raw
    rw [mem_addRegex, h.known, firstUnder_concat]
    split_ifs with hlt hafter
    · simp only [hlt, true_or, true_iff]
      omega
    · simp [hafter]
    · simp [hlt, hafter]
  · cases hafter : regexAfter pre r.registered.shape with
    | none => exact hold
    | some raw =>
      by_cases hmem : raw ∈ raws
      · rw [addRegex, addKey, if_pos hmem]
        exact hold
      · rw [addRegex, addKey, if_neg hmem]
        apply pairwise_append.mpr
        refine ⟨hold, pairwise_singleton _ _, ?_⟩
        intro raw' hraw' new hnew
        have hlt := (h.known raw').mp hraw'
        have hnot : ¬firstUnder routes pre raw < routes.length := fun hh => hmem ((h.known raw).mpr hh)
        rw [mem_singleton.mp hnew, hkept raw' hraw', firstUnder_concat, if_neg hnot, if_pos hafter]
        exact hlt

theorem Tree.regexesAt_insertAll (pre : List Key) :
    FirstInserted (inserted calls : List (Route R H)) pre
      ((insertAll calls : Tree R H).root.regexesAt pre) := by
  rw [insertAll_root]
  induction (inserted calls : List (Route R H)) using reverseRecOn with
  | nil =>
    have hnone : (newTree : Tree R H).root.regexesAt pre = [] := regexesAt_new _ pre
    rw [foldl_nil, hnone]
    exact ⟨by simp [firstUnder], List.Pairwise.nil⟩
  | append_singleton routes r ih =>
    rw [foldl_append, foldl_cons, foldl_nil, insertRoute, regexesAt_insert]
    exact ih.concat r

theorem Insertion.route?_static {c : Insertion H} {r : Route R H} (h : c.route? = some r) :
    ∀ seg ∈ r.registered.segments, seg.Plain := by
  unfold route? at h
  cases hparse : parseSegments (R := R) c.path with
  | error err => simp [hparse] at h
  | ok segments =>
    have hr := Option.some.inj (by simpa [hparse] using h)
    intro seg hseg hstatic
    rw [← hr] at hseg
    exact parseSegments_static hparse hseg hstatic

theorem Tree.wellFormed_insertAll : (insertAll calls : Tree R H).root.WellFormed := by
  have hroutes : ∀ r ∈ (inserted calls : List (Route R H)), ∀ seg ∈ r.registered.segments,
      seg.Plain := by
    intro r hr
    obtain ⟨c, -, hc⟩ := mem_filterMap.mp hr
    exact Insertion.route?_static hc
  rw [insertAll_root]
  generalize (inserted calls : List (Route R H)) = routes at hroutes
  induction routes using reverseRecOn with
  | nil => exact wellFormed_new _
  | append_singleton routes r ih =>
    rw [foldl_append]
    have hh := ih fun r' hr' => hroutes r' (mem_append_left _ hr')
    exact hh.insert r.method r.registered (hroutes r (by simp))

end Runs

end Router
