import Velocity.Router.Insertion

/-! What the tree finds for a path. The search visits the endpoints of the path one by one, in the
order of its branches, and the first that has a handler for the method answers. -/

namespace Router

open List Node

/-- Where a path can end, with the parts captured on the way, still encoded. -/
structure Endpoint (R H : Type) [Regexp R] where
  shape : List Key
  captured : List Bytes
  handlers : FMap Bytes (MatchResult R H)

variable {R H α β : Type} [Regexp R] {k : Key} {captured : List Bytes} {e : Endpoint R H}

def Endpoint.under (k : Key) (parts : List Bytes) (e : Endpoint R H) : Endpoint R H :=
  ⟨k :: e.shape, parts ++ e.captured, e.handlers⟩

def Endpoint.answer (method : Bytes) (matchedValues : List Bytes) (e : Endpoint R H) :
    Option (MatchResult R H) :=
  (e.handlers.lookup method).map fun registered =>
    buildMatchResult registered (matchedValues ++ e.captured.map unescapeCapture)

def Node.wildcardEndpoints (n : Node R H) (parts : List Bytes) : List (Endpoint R H) :=
  n.wildcardChild.toList.map fun child =>
    ⟨[.wildcard], [Bytes.join (Bytes.ascii "/") parts], child.handlers⟩

def Node.staticEndpoints (n : Node R H) (part : Bytes) (next : Node R H → List (Endpoint R H)) :
    List (Endpoint R H) :=
  (Assoc.get part n.staticChildren).toList.flatMap fun child =>
    (next child).map (Endpoint.under (.static part) [])

def Node.regexEndpoints (n : Node R H) (part : Bytes) (next : Node R H → List (Endpoint R H)) :
    List (Endpoint R H) :=
  (n.regexChildren.filter fun child => child.segment.accepts part).flatMap fun child =>
    (next child).map (Endpoint.under (.regex child.segment.rawPattern) [part])

def Node.paramEndpoints (n : Node R H) (part : Bytes) (next : Node R H → List (Endpoint R H)) :
    List (Endpoint R H) :=
  n.paramChild.toList.flatMap fun child => (next child).map (Endpoint.under .param [part])

def Node.endpoints : List Bytes → Node R H → List (Endpoint R H)
  | [], n => ⟨[], [], n.handlers⟩ :: n.wildcardEndpoints []
  | part :: remaining, n =>
    (n.staticEndpoints part fun child => child.endpoints remaining) ++
    ((n.regexEndpoints part fun child => child.endpoints remaining) ++
    ((n.paramEndpoints part fun child => child.endpoints remaining) ++
    n.wildcardEndpoints (part :: remaining)))

theorem findSome?_flatMap {γ : Type} (l : List α) (f : α → List β) (g : β → Option γ) :
    (l.flatMap f).findSome? g = l.findSome? fun a => (f a).findSome? g := by
  induction l with
  | nil => rfl
  | cons a l ih =>
    rw [flatMap_cons, findSome?_append, ih, findSome?_cons]
    cases (f a).findSome? g <;> rfl

theorem findSome?_filter (l : List α) (p : α → Bool) (g : α → Option β) :
    (l.filter p).findSome? g = l.findSome? fun a => if p a then g a else none := by
  induction l with
  | nil => rfl
  | cons a l ih =>
    cases hp : p a with
    | true => rw [filter_cons_of_pos hp, findSome?_cons, findSome?_cons, ih, if_pos hp]
    | false => simp [hp, ih]

theorem findSome?_toList (o : Option α) (g : α → Option β) : o.toList.findSome? g = o.bind g := by
  cases o with
  | none => rfl
  | some a => cases h : g a <;> simp [h]

theorem Endpoint.answer_under (method : Bytes) (matchedValues : List Bytes) (k : Key)
    (parts : List Bytes) :
    answer (R := R) (H := H) method matchedValues ∘ under k parts =
      answer method (matchedValues ++ parts.map unescapeCapture) := by
  funext e
  simp [answer, under]

theorem Node.matchWildcard_eq (n : Node R H) (parts : List Bytes) (method : Bytes)
    (matchedValues : List Bytes) : n.matchWildcard parts method matchedValues =
      (n.wildcardEndpoints parts).findSome? (Endpoint.answer method matchedValues) := by
  unfold matchWildcard wildcardEndpoints
  rw [findSome?_map, findSome?_toList, Option.map_bind]
  rfl

theorem Node.matchParts_eq (method : Bytes) (parts : List Bytes) (n : Node R H)
    (matchedValues : List Bytes) : n.matchParts method parts matchedValues =
      (n.endpoints parts).findSome? (Endpoint.answer method matchedValues) := by
  induction parts generalizing n matchedValues with
  | nil =>
    rw [matchParts, endpoints, findSome?_cons, ← matchWildcard_eq]
    unfold matchLeaf matchWildcard Endpoint.answer
    cases n.handlers.lookup method with
    | some registered => simp
    | none =>
      cases n.wildcardChild.bind fun child => child.handlers.lookup method <;> rfl
  | cons part remaining ih =>
    simp only [matchParts, matchStatic, matchRegex, matchParam, ih,
      matchWildcard_eq, endpoints, staticEndpoints, regexEndpoints,
      paramEndpoints, findSome?_append, findSome?_flatMap, findSome?_toList,
      findSome?_filter, findSome?_map, Endpoint.answer_under, map_cons, map_nil,
      append_nil]

section Captures

/-- Whether a constraint, compiled from its text, accepts a part. -/
def constraintAccepts (R : Type) [Regexp R] (rawPattern part : Bytes) : Bool :=
  match Regexp.compile (R := R) (anchored rawPattern) with
  | .ok re => Regexp.matchString re part
  | .error _ => false

/-- The parts a matching pattern captures: a wildcard takes the rest and stands last. -/
def captures (R : Type) [Regexp R] : List Key → List Bytes → Option (List Bytes)
  | [], [] => some []
  | [], _ :: _ => none
  | .wildcard :: ks, parts => if ks = [] then some [Bytes.join (Bytes.ascii "/") parts] else none
  | .static _ :: _, [] => none
  | .static value :: ks, part :: parts => if value = part then captures R ks parts else none
  | .regex _ :: _, [] => none
  | .regex raw :: ks, part :: parts =>
    if constraintAccepts R raw part then (captures R ks parts).map (part :: ·) else none
  | .param :: _, [] => none
  | .param :: ks, part :: parts => (captures R ks parts).map (part :: ·)

theorem Segment.accepts_regex {s : Segment R} (h : s.type = .regex) (part : Bytes) :
    s.accepts part = constraintAccepts R s.rawPattern part := by
  obtain ⟨re, hcompile, hpattern⟩ := s.compiled h
  simp [accepts, constraintAccepts, h, hcompile, hpattern]

end Captures

def Node.Reaches (n : Node R H) (parts : List Bytes) (e : Endpoint R H) : Prop :=
  captures R e.shape parts = some e.captured ∧
    ∃ node, n.descend e.shape = some node ∧ node.handlers = e.handlers

variable {hs : FMap Bytes (MatchResult R H)} {ks : List Key}

theorem Endpoint.exists_under_eq {k' : Key} {parts : List Bytes} {l : List (Endpoint R H)} :
    (⟨k' :: ks, captured, hs⟩ : Endpoint R H) ∈ l.map (under k parts) ↔
      k' = k ∧ ∃ rest, captured = parts ++ rest ∧ ⟨ks, rest, hs⟩ ∈ l := by
  simp only [mem_map, under, mk.injEq, cons.injEq]
  constructor
  · intro ⟨e, he, ⟨hk, hks⟩, hcap, hhs⟩
    subst hk hks hcap hhs
    exact ⟨rfl, e.captured, rfl, he⟩
  · intro ⟨hk, _, hcap, hmem⟩
    exact ⟨_, hmem, ⟨hk.symm, rfl⟩, hcap.symm, rfl⟩

theorem Node.reaches_cons_iff {n child : Node R H} (hchild : n.child k = some child)
    (taken : List Bytes) {part : Bytes} {remaining : List Bytes}
    (hcaptures : captures R (k :: ks) (part :: remaining) = (captures R ks remaining).map (taken ++ ·)) :
    n.Reaches (part :: remaining) ⟨k :: ks, captured, hs⟩ ↔
      ∃ rest, captured = taken ++ rest ∧ child.Reaches remaining ⟨ks, rest, hs⟩ := by
  simp only [Reaches, hcaptures, descend, hchild, Option.bind_some, Option.map_eq_some_iff]
  constructor
  · rintro ⟨⟨rest, hrest, hcap⟩, hnode⟩
    exact ⟨rest, hcap.symm, hrest, hnode⟩
  · rintro ⟨rest, hcap, hrest, hnode⟩
    exact ⟨⟨rest, hrest, hcap.symm⟩, hnode⟩

variable {parts : List Bytes} {n : Node R H}

theorem Node.not_reaches_of_captures {shape : List Key}
    (h : captures R shape parts = none) : ¬n.Reaches parts ⟨shape, captured, hs⟩ := by
  intro hh
  have hcaptured : captures R shape parts = some captured := hh.1
  rw [h] at hcaptured
  cases hcaptured

theorem Node.not_reaches_of_child (h : n.child k = none) :
    ¬n.Reaches parts ⟨k :: ks, captured, hs⟩ := by
  intro ⟨_, _, hnode, _⟩
  simp [descend, h] at hnode

attribute [local simp] captures

theorem Node.mem_wildcardEndpoints :
    e ∈ n.wildcardEndpoints parts ↔ (∃ ks, e.shape = .wildcard :: ks) ∧ n.Reaches parts e := by
  obtain ⟨-, captured, -⟩ := e
  simp only [wildcardEndpoints, mem_map, Option.mem_toList, Endpoint.mk.injEq, Node.Reaches]
  constructor
  · rintro ⟨child, hchild, hshape, hcaptured, hhs⟩
    subst hshape hcaptured
    refine ⟨⟨[], rfl⟩, rfl, child, ?_, hhs⟩
    simp [Node.descend, Node.child, hchild]
  · rintro ⟨⟨ks, hks⟩, hcaptures, node, hnode, hhs⟩
    subst hks
    by_cases hlast : ks = []
    · subst hlast
      have hcap : [Bytes.join (Bytes.ascii "/") parts] = captured := by
        simpa using hcaptures
      have hchild : n.wildcardChild = some node := by
        simpa [descend, child, Option.bind_some] using hnode
      exact ⟨node, hchild, rfl, hcap, hhs⟩
    · simp [hlast] at hcaptures

theorem Node.mem_endpoints (h : n.WellFormed)
    : e ∈ n.endpoints parts ↔ n.Reaches parts e := by
  induction parts generalizing n e with
  | nil =>
    obtain ⟨shape, captured, hs⟩ := e
    rw [endpoints, mem_cons, mem_wildcardEndpoints]
    cases shape with
    | nil => simp [Reaches, descend, eq_comm]
    | cons k ks =>
      cases k with
      | wildcard => simp
      | _ => simp [Reaches]
  | cons part remaining ih =>
    obtain ⟨-, -, hstaticChild, hregexKeys, hregex, hregexChild, hparam, -⟩ := h
    obtain ⟨shape, -⟩ := e
    simp only [endpoints, staticEndpoints, regexEndpoints, paramEndpoints,
      mem_append, mem_flatMap, Option.mem_toList, mem_wildcardEndpoints,
      mem_filter]
    cases shape with
    | nil => simp [Reaches, Endpoint.under]
    | cons k ks =>
      simp only [Endpoint.exists_under_eq]
      cases k with
      | wildcard => simp
      | static value =>
        by_cases hv : value = part
        · subst hv
          cases hchild : Assoc.get value n.staticChildren with
          | none => simp [not_reaches_of_child (k := .static value) hchild]
          | some child =>
            have hwf := hstaticChild value child (Assoc.mem_of_get hchild)
            rw [reaches_cons_iff (k := .static value) hchild [] (by simp)]
            simp [ih hwf]
        · have hno : captures R (.static value :: ks) (part :: remaining) = none := by
            simp [hv]
          simp [hv, not_reaches_of_captures hno]
      | regex raw =>
        simp only [Key.regex.injEq, cons.injEq, reduceCtorEq, false_and, and_false,
          exists_false, false_or, or_false]
        have hcaptures (hraw : constraintAccepts R raw part = true) :
            captures R (.regex raw :: ks) (part :: remaining) =
              (captures R ks remaining).map ([part] ++ ·) := by
          simp [hraw]
        constructor
        · rintro ⟨child, ⟨hchild, haccepts⟩, hraw, rest, hcaptured, hmem⟩
          have hget : n.child (.regex raw) = some child :=
            Assoc.get_of_mem hregexKeys (mem_keyed.mpr ⟨hchild, hraw.symm⟩)
          rw [Segment.accepts_regex (hregex child hchild), ← hraw] at haccepts
          rw [reaches_cons_iff hget [part] (hcaptures haccepts)]
          exact ⟨rest, hcaptured, (ih (hregexChild child hchild)).mp hmem⟩
        · intro hreaches
          have haccepts : constraintAccepts R raw part = true := by
            by_contra hno
            apply not_reaches_of_captures _ hreaches
            simp [hno]
          cases hget : n.child (.regex raw) with
          | none => exact absurd hreaches (not_reaches_of_child hget)
          | some child =>
            obtain ⟨hchild, hraw⟩ := mem_keyed.mp (Assoc.mem_of_get hget)
            rw [reaches_cons_iff hget [part] (hcaptures haccepts)] at hreaches
            obtain ⟨rest, hcaptured, hrest⟩ := hreaches
            refine ⟨child, ⟨hchild, ?_⟩, hraw.symm, rest, hcaptured,
              (ih (hregexChild child hchild)).mpr hrest⟩
            rw [Segment.accepts_regex (hregex child hchild), hraw]
            exact haccepts
      | param =>
        cases hchild : n.paramChild with
        | none => simp [not_reaches_of_child (k := .param) hchild]
        | some child =>
          rw [reaches_cons_iff (k := .param) hchild [part] (by simp)]
          simp [ih (hparam child hchild)]

end Router
