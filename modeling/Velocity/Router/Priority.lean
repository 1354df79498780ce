import Velocity.Router.Matching

/-! Which of several matching routes answers: the search finds the first pattern in the order of
the segment kinds, with constraints in the order of their first insertion. -/

namespace Router

open Node List Router.Tree Endpoint Segment Bytes

variable {R H : Type} [Regexp R] {k : Key} {parts : List Bytes}

def Key.rank : Key → Nat
  | .static _ => 0
  | .regex _ => 1
  | .param => 2
  | .wildcard => 3

/-- Segment by segment; a pattern comes before those that continue it. -/
def precedes (before : List Key → Key → Key → Prop) : List Key → List Key → Prop
  | [], shape => shape ≠ []
  | _ :: _, [] => False
  | k :: ks, k' :: ks' => before [] k k' ∨ k = k' ∧ precedes (fun pre => before (k :: pre)) ks ks'

/-- An order of keys that agrees with the branches of the search and with the regex children. -/
structure Node.Agrees (n : Node R H) (before : List Key → Key → Key → Prop) : Prop where
  rank : ∀ pre k k', k.rank < k'.rank → before pre k k'
  regexes : ∀ pre, (n.regexesAt pre).Pairwise fun raw raw' => before pre (.regex raw) (.regex raw')

section Order

variable {before : List Key → Key → Key → Prop} {l : List (Endpoint R H)} {rank later : Nat}

abbrev Ordered (before : List Key → Key → Key → Prop) (l : List (Endpoint R H)) : Prop :=
  l.Pairwise fun e e' => precedes before e.shape e'.shape

theorem Node.Agrees.child {n child : Node R H} (h : n.Agrees before)
    (hchild : n.child k = some child) : child.Agrees fun pre => before (k :: pre) := by
  constructor
  · intro pre
    exact h.rank (k :: pre)
  · intro pre
    have hh := h.regexes (k :: pre)
    rw [regexesAt_cons, hchild] at hh
    exact hh

theorem pairwise_under (h : Ordered (fun pre => before (k :: pre)) l) :
    Ordered before (l.map (under k parts)) := by
  apply pairwise_map.mpr
  apply h.imp
  intro e e' hh
  exact Or.inr ⟨rfl, hh⟩

def Endpoint.Ranked (rank : Nat) (e : Endpoint R H) : Prop := ∃ k ks, e.shape = k :: ks ∧ k.rank = rank

def Endpoint.After (rank : Nat) (e : Endpoint R H) : Prop :=
  ∃ k ks, e.shape = k :: ks ∧ rank < k.rank

theorem Endpoint.After.of_rank {e : Endpoint R H}
    (h : e.Ranked later) (hlt : rank < later) : e.After rank := by
  obtain ⟨k, ks, hks, hk⟩ := h
  exact ⟨k, ks, hks, by omega⟩

theorem Endpoint.After.mono {e : Endpoint R H} (h : e.After later)
    (hle : rank ≤ later) : e.After rank := by
  obtain ⟨k, ks, hks, hk⟩ := h
  exact ⟨k, ks, hks, by omega⟩

variable {n : Node R H}

theorem Node.Agrees.pairwise_append (h : n.Agrees before) (rank : Nat) {l' : List (Endpoint R H)}
    (hl : Ordered before l) (hl' : Ordered before l') (hrank : ∀ e ∈ l, e.Ranked rank)
    (hafter : ∀ e ∈ l', e.After rank) : Ordered before (l ++ l') := by
  apply List.pairwise_append.mpr
  refine ⟨hl, hl', ?_⟩
  intro e he e' he'
  obtain ⟨k, ks, hks, hk⟩ := hrank e he
  obtain ⟨k', ks', hks', hk'⟩ := hafter e' he'
  rw [hks, hks']
  exact Or.inl (h.rank [] k k' (by omega))

section Branches

variable {part : Bytes} {next : Node R H → List (Endpoint R H)} {e : Endpoint R H}

theorem staticEndpoints_rank (h : e ∈ n.staticEndpoints part next) : e.Ranked 0 := by
  obtain ⟨child, -, hmem⟩ := mem_flatMap.mp h
  obtain ⟨e', -, rfl⟩ := mem_map.mp hmem
  exact ⟨.static part, e'.shape, rfl, rfl⟩

theorem regexEndpoints_rank (h : e ∈ n.regexEndpoints part next) : e.Ranked 1 := by
  obtain ⟨child, -, hmem⟩ := mem_flatMap.mp h
  obtain ⟨e', -, rfl⟩ := mem_map.mp hmem
  exact ⟨.regex child.segment.rawPattern, e'.shape, rfl, rfl⟩

theorem paramEndpoints_rank (h : e ∈ n.paramEndpoints part next) : e.Ranked 2 := by
  obtain ⟨child, -, hmem⟩ := mem_flatMap.mp h
  obtain ⟨e', -, rfl⟩ := mem_map.mp hmem
  exact ⟨.param, e'.shape, rfl, rfl⟩

end Branches

theorem pairwise_wildcardEndpoints (n : Node R H) (parts : List Bytes)
    (P : Endpoint R H → Endpoint R H → Prop) : (n.wildcardEndpoints parts).Pairwise P := by
  unfold wildcardEndpoints
  cases n.wildcardChild with
  | none => exact Pairwise.nil
  | some child => exact pairwise_singleton _ _

theorem Node.regexEndpoints_ordered (h : n.Agrees before) (part : Bytes)
    {next : Node R H → List (Endpoint R H)} (hbranch : ∀ child ∈ n.regexChildren,
      Ordered before ((next child).map (under (.regex child.segment.rawPattern) [part]))) :
    Ordered before (n.regexEndpoints part next) := by
  apply pairwise_flatMap.mpr
  constructor
  · intro child hmem
    exact hbranch child (mem_filter.mp hmem).1
  · apply Pairwise.filter
    have hraws : (n.regexChildren.map fun child => child.segment.rawPattern).Pairwise
        fun raw raw' => before [] (.regex raw) (.regex raw') := h.regexes []
    apply (pairwise_map.mp hraws).imp
    intro child child' hbefore e he e' he'
    obtain ⟨-, -, rfl⟩ := mem_map.mp he
    obtain ⟨-, -, rfl⟩ := mem_map.mp he'
    exact Or.inl hbefore

theorem Node.endpoints_ordered (hwf : n.WellFormed) (h : n.Agrees before) (parts : List Bytes) :
    Ordered before (n.endpoints parts) := by
  induction parts generalizing n before with
  | nil =>
    apply pairwise_cons.mpr
    refine ⟨?_, pairwise_wildcardEndpoints n [] _⟩
    intro e he
    obtain ⟨ks, hks⟩ := (mem_wildcardEndpoints.mp he).1
    simp [precedes, hks]
  | cons part remaining ih =>
    obtain ⟨-, -, hstaticChild, hregexKeys, -, hregexChild, hparam, -⟩ := hwf
    have hbranch {k : Key} {child : Node R H} (hchild : n.child k = some child)
        (hwf : child.WellFormed) (taken : List Bytes) :
        Ordered before ((child.endpoints remaining).map (under k taken)) :=
      pairwise_under (ih hwf (h.child hchild))
    have hstatics : Ordered before (n.staticEndpoints part (·.endpoints remaining)) := by
      unfold staticEndpoints
      cases hchild : Assoc.get part n.staticChildren with
      | none => exact Pairwise.nil
      | some child =>
        have hwf := hstaticChild part child (Assoc.mem_of_get hchild)
        simpa using hbranch (k := .static part) hchild hwf []
    have hparams : Ordered before (n.paramEndpoints part (·.endpoints remaining)) := by
      unfold paramEndpoints
      cases hchild : n.paramChild with
      | none => exact Pairwise.nil
      | some child => simpa using hbranch (k := .param) hchild (hparam child hchild) [part]
    have hregexes : Ordered before (n.regexEndpoints part (·.endpoints remaining)) := by
      apply regexEndpoints_ordered h
      intro child hchild
      have hget : n.child (.regex child.segment.rawPattern) = some child :=
        Assoc.get_of_mem hregexKeys (mem_keyed.mpr ⟨hchild, rfl⟩)
      exact hbranch hget (hregexChild child hchild) [part]
    have hafter2 : ∀ e ∈ n.wildcardEndpoints (part :: remaining), e.After 2 := by
      intro e he
      obtain ⟨ks, hks⟩ := (mem_wildcardEndpoints.mp he).1
      exact ⟨.wildcard, ks, hks, by decide⟩
    have hafter1 : ∀ e ∈ n.paramEndpoints part (·.endpoints remaining) ++
        n.wildcardEndpoints (part :: remaining), e.After 1 := by
      intro e he
      rcases mem_append.mp he with he | he
      · exact .of_rank (paramEndpoints_rank he) (by omega)
      · exact (hafter2 e he).mono (by omega)
    have hafter0 : ∀ e ∈ n.regexEndpoints part (·.endpoints remaining) ++
        (n.paramEndpoints part (·.endpoints remaining) ++
        n.wildcardEndpoints (part :: remaining)), e.After 0 := by
      intro e he
      rcases mem_append.mp he with he | he
      · exact .of_rank (regexEndpoints_rank he) (by omega)
      · exact (hafter1 e he).mono (by omega)
    -- From the last kind of branch to the first.
    have hlast := h.pairwise_append 2 hparams (pairwise_wildcardEndpoints n _ _)
      (fun e => paramEndpoints_rank) hafter2
    have hmiddle := h.pairwise_append 1 hregexes hlast (fun e => regexEndpoints_rank) hafter1
    exact h.pairwise_append 0 hstatics hmiddle (fun e => staticEndpoints_rank) hafter0

end Order

section Routes

/-- Static, regex, parameter, wildcard; two constraints behind one prefix by their first patterns.
-/
def Key.before (routes : List (Route R H)) (pre : List Key) (k k' : Key) : Prop :=
  match k, k' with
  | .regex raw, .regex raw' => firstUnder routes pre raw < firstUnder routes pre raw'
  | k, k' => k.rank < k'.rank

theorem Key.before_of_rank (routes : List (Route R H)) (pre : List Key) {k' : Key}
    (h : k.rank < k'.rank) : before routes pre k k' := by
  unfold before
  split
  · exact absurd h (Nat.lt_irrefl 1)
  · exact h

variable (calls : List (Insertion H)) {registered : MatchResult R H} {e : Endpoint R H}
  {seg : Segment R}

theorem Tree.agrees_insertAll : (insertAll calls : Tree R H).root.Agrees
      (Key.before (inserted calls : List (Route R H))) := by
  constructor
  · intro pre k k' hk
    exact Key.before_of_rank _ pre hk
  · intro pre
    exact (regexesAt_insertAll calls pre).ordered

/-- The route is the last of its shape for the method, and its pattern matches the parts. -/
structure Serves (routes : List (Route R H)) (method : Bytes) (parts : List Bytes)
    (registered : MatchResult R H) (values : List Bytes) : Prop where
  latest : latest routes method registered.shape = some registered
  captured : captures R registered.shape parts = some values

variable {method : Bytes}

theorem latest_shape {routes : List (Route R H)} {shape : List Key}
    (h : latest routes method shape = some registered) : registered.shape = shape := by
  obtain ⟨r, hr, rfl⟩ := Option.map_eq_some_iff.mp h
  have hh := find?_some hr
  exact (of_decide_eq_true hh).2

theorem serves_iff_endpoint (method : Bytes) (parts : List Bytes)
    (registered : MatchResult R H) (values : List Bytes) :
    Serves (inserted calls) method parts registered values ↔
      ∃ e ∈ (Tree.insertAll calls : Tree R H).root.endpoints parts,
        e.handlers.lookup method = some registered ∧ e.shape = registered.shape ∧
          e.captured = values := by
  have hwf := wellFormed_insertAll (R := R) calls
  constructor
  · rintro ⟨hlatest, hcaptured⟩
    rw [← routeAt_insertAll] at hlatest
    obtain ⟨node, hnode, hlookup⟩ := Option.bind_eq_some_iff.mp hlatest
    exact ⟨⟨registered.shape, values, node.handlers⟩,
      (mem_endpoints hwf).mpr ⟨hcaptured, node, hnode, rfl⟩, hlookup, rfl, rfl⟩
  · rintro ⟨e, he, hlookup, hshape, hcaptured⟩
    obtain ⟨hcaptures, node, hnode, hhandlers⟩ := (mem_endpoints hwf).mp he
    rw [hshape] at hcaptures hnode
    refine ⟨?_, by rw [hcaptures, hcaptured]⟩
    rw [← routeAt_insertAll, routeAt, hnode, Option.bind_some, hhandlers]
    exact hlookup

theorem endpoint_shape {calls : List (Insertion H)}
    (he : e ∈ (Tree.insertAll calls : Tree R H).root.endpoints parts)
    (hlookup : e.handlers.lookup method = some registered) : e.shape = registered.shape := by
  obtain ⟨-, node, hnode, hhandlers⟩ :=
    (mem_endpoints (wellFormed_insertAll calls)).mp he
  have hroute : (insertAll calls : Tree R H).root.routeAt e.shape method = some registered := by
    rw [routeAt, hnode, Option.bind_some, hhandlers]
    exact hlookup
  rw [routeAt_insertAll] at hroute
  exact (latest_shape hroute).symm

def paramNames (segments : List (Segment R)) : List Bytes :=
  (segments.filter fun seg => seg.type ≠ .static).map Segment.value

theorem paramNames_static (h : seg.type = .static)
    (segments : List (Segment R)) : paramNames (seg :: segments) = paramNames segments := by
  simp [paramNames, h]

theorem paramNames_capturing (h : seg.type ≠ .static) (segments : List (Segment R)) :
    paramNames (seg :: segments) = seg.value :: paramNames segments := by
  simp [paramNames, h]

theorem assignParams_eq (segments : List (Segment R)) (values : List Bytes)
    (params : FMap Bytes Bytes) : assignParams segments values params =
      ((paramNames segments).zip values).foldl (fun params e => params.insert e.1 e.2) params := by
  induction segments generalizing values params with
  | nil => rfl
  | cons seg segments ih =>
    by_cases h : seg.type = .static
    · rw [assignParams.eq_def, paramNames_static h]
      simp only [h, reduceCtorEq, or_self, if_false, ih]
    · have hcapturing : seg.type = .param ∨ seg.type = .regex ∨ seg.type = .wildcard := by
        cases htype : seg.type <;> simp_all
      rw [assignParams.eq_def, paramNames_capturing h]
      simp only [if_pos hcapturing]
      cases values <;> simp [ih]

attribute [local simp] captures

theorem captures_length {segments : List (Segment R)} {values : List Bytes}
    (h : captures R (segments.map key) parts = some values) :
    (paramNames segments).length = values.length := by
  induction segments generalizing parts values with
  | nil =>
    cases parts with
    | nil =>
      have hvalues : [] = values := by simpa using h
      rw [← hvalues]
      rfl
    | cons part parts => simp at h
  | cons seg segments ih =>
    have htaken {part : Bytes} {parts : List Bytes} (hseg : seg.type ≠ .static)
        (h : (captures R (segments.map key) parts).map (part :: ·) = some values) :
        (paramNames (seg :: segments)).length = values.length := by
      obtain ⟨rest, hrest, hvalues⟩ := Option.map_eq_some_iff.mp h
      rw [paramNames_capturing hseg, ← hvalues, length_cons, ih hrest, length_cons]
    rw [map_cons] at h
    cases htype : seg.type with
    | wildcard =>
      simp only [key, htype, captures] at h
      by_cases hlast : segments = []
      · subst hlast
        have hvalues : [join (ascii "/") parts] = values := by simpa using h
        rw [paramNames_capturing (by simp [htype]), ← hvalues]
        rfl
      · simp [hlast] at h
    | static =>
      simp only [key, htype] at h
      cases parts with
      | nil => simp at h
      | cons part parts =>
        by_cases hv : seg.value = part
        · rw [paramNames_static htype]
          exact ih (by simpa [hv] using h)
        · simp [hv] at h
    | regex =>
      simp only [key, htype] at h
      cases parts with
      | nil => simp at h
      | cons part parts =>
        by_cases haccepts : constraintAccepts R seg.rawPattern part = true
        · apply htaken (by simp [htype])
          simpa only [captures, if_pos haccepts] using h
        · simp [haccepts] at h
    | param =>
      simp only [key, htype] at h
      cases parts with
      | nil => simp at h
      | cons part parts => exact htaken (by simp [htype]) h

theorem Tree.matchLazy_endpoints (t : Tree R H) (method : Bytes) {path : Bytes}
    (hparts : fields slash path ≠ []) : t.matchLazy method path =
      (t.root.endpoints (fields slash path)).findSome? (answer method []) := by
  rw [matchLazy_eq t method hparts, matchParts_eq]

theorem Tree.matchPath_eq (t : Tree R H) (method : Bytes) {path : Bytes}
    (hparts : fields slash path ≠ []) : t.matchPath method path =
      ((t.root.endpoints (fields slash path)).findSome? (answer method [])).map
        fun result => { result with params := some result.paramMap } := by
  rw [matchPath, matchLazy_endpoints t method hparts]

theorem Endpoint.answer_isSome {matchedValues : List Bytes} :
    (e.answer method matchedValues).isSome = true ↔
      ∃ registered, e.handlers.lookup method = some registered := by
  rw [answer, Option.isSome_map, Option.isSome_iff_exists]

theorem Tree.matchLazy_serves {calls : List (Insertion H)} {path : Bytes} {result : MatchResult R H}
    (hparts : fields slash path ≠ [])
    (h : (insertAll calls : Tree R H).matchLazy method path = some result) :
    ∃ registered values, Serves (inserted calls) method (fields slash path) registered values ∧
      result = buildMatchResult registered (values.map unescapeCapture) := by
  rw [matchLazy_endpoints _ method hparts] at h
  obtain ⟨e, he, hanswer⟩ := exists_of_findSome?_eq_some h
  obtain ⟨registered, hlookup, hresult⟩ := Option.map_eq_some_iff.mp hanswer
  exact ⟨registered, e.captured, (serves_iff_endpoint calls method _ registered e.captured).mpr
    ⟨e, he, hlookup, endpoint_shape he hlookup, rfl⟩, hresult.symm⟩

theorem Tree.matchLazy_isSome (method : Bytes) {path : Bytes} (hparts : fields slash path ≠ []) :
    ((insertAll calls : Tree R H).matchLazy method path).isSome = true ↔ ∃ registered values,
      Serves (inserted calls : List (Route R H)) method (fields slash path) registered values := by
  constructor
  · intro h
    obtain ⟨result, hresult⟩ := Option.isSome_iff_exists.mp h
    obtain ⟨registered, values, hserves, -⟩ := matchLazy_serves hparts hresult
    exact ⟨registered, values, hserves⟩
  · intro ⟨registered, values, h⟩
    obtain ⟨e, he, hlookup, -⟩ := (serves_iff_endpoint calls method _ registered values).mp h
    rw [matchLazy_endpoints _ method hparts, findSome?_isSome_iff]
    exact ⟨e, he, answer_isSome.mpr ⟨registered, hlookup⟩⟩

theorem matchPath_first_serving (calls : List (Insertion H)) (method path : Bytes)
    (hparts : Bytes.fields slash path ≠ []) :
    (((Tree.insertAll calls : Tree R H).matchPath method path).isSome = true ↔
      ∃ registered values,
        Serves (inserted calls : List (Route R H)) method (Bytes.fields slash path) registered values) ∧
    ∀ result, (Tree.insertAll calls : Tree R H).matchPath method path = some result →
      ∃ registered values, Serves (inserted calls) method (Bytes.fields slash path) registered values ∧
        (∀ other values', Serves (inserted calls) method (Bytes.fields slash path) other values' →
          other = registered ∨
            precedes (Key.before (inserted calls : List (Route R H))) registered.shape other.shape) ∧
        (paramNames registered.segments).length = values.length ∧
        result = { registered with
          params := some (((paramNames registered.segments).zip (values.map unescapeCapture)).foldl
            (fun params e => params.insert e.1 e.2) ∅)
          matchedValues := values.map unescapeCapture
          treeMatched := true } := by
  have hserves := serves_iff_endpoint (R := R) calls method (fields slash path)
  constructor
  · rw [matchPath, Option.isSome_map]
    exact matchLazy_isSome calls method hparts
  · intro result hresult
    rw [matchPath_eq _ method hparts] at hresult
    obtain ⟨found, hfound, hbuilt⟩ := Option.map_eq_some_iff.mp hresult
    obtain ⟨front, e, back, hsplit, hanswer, hnone⟩ := findSome?_eq_some_iff.mp hfound
    obtain ⟨registered, hlookup, hmatched⟩ := Option.map_eq_some_iff.mp hanswer
    have he : e ∈ (insertAll calls : Tree R H).root.endpoints (fields slash path) := by
      rw [hsplit]
      simp
    have hshape := endpoint_shape he hlookup
    have hserved := (hserves registered e.captured).mpr ⟨e, he, hlookup, hshape, rfl⟩
    refine ⟨registered, e.captured, hserved, ?_, captures_length hserved.captured, ?_⟩
    · intro other values' hother
      obtain ⟨e', he', hlookup', hshape', -⟩ := (hserves other values').mp hother
      rw [hsplit] at he'
      rcases mem_append.mp he' with hfront | hrest
      · -- Nothing before the answer has a handler for the method.
        have hsome : (e'.answer method []).isSome = true :=
          answer_isSome.mpr ⟨other, hlookup'⟩
        rw [hnone e' hfront] at hsome
        cases hsome
      · rcases mem_cons.mp hrest with hsame | hback
        · left
          rw [hsame, hlookup] at hlookup'
          exact (Option.some.inj hlookup').symm
        · right
          have hordered := endpoints_ordered (wellFormed_insertAll (R := R) calls)
            (agrees_insertAll calls) (fields slash path)
          rw [hsplit] at hordered
          have hpairs := pairwise_cons.mp (pairwise_append.mp hordered).2.1
          rw [← hshape, ← hshape']
          exact hpairs.1 e' hback
    · rw [← hbuilt, ← hmatched]
      simp [buildMatchResult, MatchResult.paramMap, buildParams, assignParams_eq]

def usersCalls : List (Insertion Nat) :=
  [⟨Bytes.ascii "GET", Bytes.ascii "/users/\x7bid\x7d", 1, []⟩,
    ⟨Bytes.ascii "GET", Bytes.ascii "/users/new", 2, []⟩]

theorem matchPath_first_serving_users :
    ∃ registered values,
      Serves (inserted usersCalls : List (Route PlainText Nat)) (Bytes.ascii "GET")
        (Bytes.fields slash (Bytes.ascii "/users/new")) registered values :=
  (matchPath_first_serving usersCalls (ascii "GET") (ascii "/users/new") (by decide)).1.mp (by decide)

end Routes

end Router
