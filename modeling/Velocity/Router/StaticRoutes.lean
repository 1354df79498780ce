import Velocity.Router.Dispatch
import Velocity.Router.Priority

/-! The compiled static routes against the tree they are collected from. -/

namespace Router

open Node Bytes List VelocityRouter Router.Tree Option

variable {R H : Type} [Regexp R] {path key value pre method : Bytes} {compiled : CompiledRoutes R H}

def Node.StaticRoute (n : Node R H) (pre key : Bytes) (result : MatchResult R H) : Prop :=
  ∃ method parts, parts ≠ [] ∧ (∀ p ∈ parts, p ≠ [] ∧ slash ∉ p) ∧
    key = compiledKey method (pre ++ Bytes.join [slash] parts) ∧
    n.routeAt (parts.map Key.static) method = some result

variable {result : MatchResult R H} {n : Node R H}

/-- Under the key, `after` has a route of `P` or what `before` has. -/
structure Adds (key : Bytes) (before after : CompiledRoutes R H) (P : MatchResult R H → Prop) :
    Prop where
  sound : ∀ result, after.lookup key = some result → before.lookup key = some result ∨ P result
  complete : (before.lookup key).isSome ∨ (∃ result, P result) → (after.lookup key).isSome

theorem Adds.refl (key : Bytes) (compiled : CompiledRoutes R H) :
    Adds key compiled compiled fun _ => False :=
  ⟨fun _ h => .inl h, fun h => h.resolve_right fun ⟨_, hfalse⟩ => hfalse⟩

theorem Adds.trans {a b c : CompiledRoutes R H} {P Q : MatchResult R H → Prop} (hab : Adds key a b P)
    (hbc : Adds key b c Q) : Adds key a c fun result => P result ∨ Q result := by
  constructor
  · intro result h
    rcases hbc.sound result h with h | h
    · exact (hab.sound result h).imp_right .inl
    · exact .inr (.inr h)
  · rintro (h | ⟨result, h | h⟩)
    · exact hbc.complete (.inl (hab.complete (.inl h)))
    · exact hbc.complete (.inl (hab.complete (.inr ⟨result, h⟩)))
    · exact hbc.complete (.inr ⟨result, h⟩)

theorem Adds.congr {a b : CompiledRoutes R H} {P Q : MatchResult R H → Prop} (h : Adds key a b P)
    (hPQ : ∀ result, P result ↔ Q result) : Adds key a b Q := by
  have heq : P = Q := funext fun result => propext (hPQ result)
  rwa [← heq]

theorem adds_insert (compiled : CompiledRoutes R H) (k : Bytes) (result : MatchResult R H) :
    Adds key compiled (compiled.insert k result) fun r => key = k ∧ r = result := by
  constructor
  · intro r h
    rcases FMap.lookup_of_insert h with hnew | ⟨-, hold⟩
    · exact .inr hnew
    · exact .inl hold
  · rw [FMap.lookup_insert_ite]
    by_cases hkey : key = k
    · simp [hkey]
    · simp [hkey]

theorem adds_compileHandlers (key path : Bytes) (compiled : CompiledRoutes R H) (n : Node R H) :
    Adds key compiled (n.compileHandlers path compiled) fun result =>
      ∃ method, key = compiledKey method path ∧ n.handlers.lookup method = some result := by
  have hentries : ∀ entries : List ((_ : Bytes) × MatchResult R H), Adds key compiled
      (entries.foldl (fun compiled e => compiled.insert (compiledKey e.1 path) e.2) compiled)
        fun result => ∃ e ∈ entries, key = compiledKey e.1 path ∧ result = e.2 := by
    intro entries
    induction entries generalizing compiled with
    | nil => exact (Adds.refl key compiled).congr (by simp)
    | cons e entries ih => exact ((adds_insert _ _ _).trans (ih _)).congr (by simp)
  refine (hentries _).congr fun result => ?_
  constructor
  · rintro ⟨e, he, hkey, rfl⟩
    exact ⟨e.1, hkey, AList.mem_lookup_iff.mpr he⟩
  · rintro ⟨method, hkey, hlookup⟩
    exact ⟨⟨method, result⟩, AList.mem_lookup_iff.mp hlookup, hkey, rfl⟩

theorem Node.collectStaticRoutes_eq (pre : Bytes) (compiled : CompiledRoutes R H) (n : Node R H) :
    Node.collectStaticRoutes pre compiled n =
      Node.collectStaticChildren pre compiled n.staticChildren := by
  cases n
  rw [collectStaticRoutes]

theorem Node.StaticRoute.extend {n child : Node R H}
    (hchild : n.child (.static value) = some child) (hvalue : value ≠ [] ∧ slash ∉ value)
    (h : child.StaticRoute (pre ++ value ++ ascii "/") key result) :
    n.StaticRoute pre key result := by
  obtain ⟨method, parts, hne, hparts, hkey, hroute⟩ := h
  refine ⟨method, value :: parts, by simp, ?_, ?_, ?_⟩
  · intro p hp
    rcases mem_cons.mp hp with he | hmem
    · rw [he]
      exact hvalue
    · exact hparts p hmem
  · obtain ⟨p, ps, hps⟩ := exists_cons_of_ne_nil hne
    have hjoin : join [slash] (value :: parts) = value ++ ascii "/" ++ join [slash] parts := by
      rw [hps]
      rfl
    rw [hkey, hjoin]
    simp only [append_assoc]
  · rw [map_cons, routeAt_cons, hchild]
    exact hroute

theorem Node.staticRoute_child {n child : Node R H} (hchild : n.child (.static value) = some child)
    (hvalue : value ≠ [] ∧ slash ∉ value) (hlookup : child.handlers.lookup method = some result) :
    n.StaticRoute pre (compiledKey method (pre ++ value)) result := by
  refine ⟨method, [value], by simp, by simpa using hvalue, rfl, ?_⟩
  rw [map_cons, routeAt_cons, hchild]
  exact hlookup

theorem Node.WellFormed.staticRoute_iff (hwf : n.WellFormed) : n.StaticRoute pre key result ↔
    ∃ e ∈ n.staticChildren, (∃ method, key = compiledKey method (pre ++ e.1) ∧
      e.2.handlers.lookup method = some result) ∨
        e.2.StaticRoute (pre ++ e.1 ++ ascii "/") key result := by
  obtain ⟨hkeys, hstatic, -⟩ := hwf
  constructor
  · rintro ⟨method, _ | ⟨value, parts⟩, hne, hparts, hkey, hroute⟩
    · exact absurd rfl hne
    rw [map_cons, routeAt_cons] at hroute
    obtain ⟨child, hchild, hroute⟩ := bind_eq_some_iff.mp hroute
    refine ⟨(value, child), Assoc.mem_of_get hchild, ?_⟩
    cases parts with
    | nil => exact .inl ⟨method, hkey, hroute⟩
    | cons part parts =>
      refine .inr ⟨method, part :: parts, by simp, fun p hp => hparts p (mem_cons_of_mem _ hp), ?_,
        hroute⟩
      rw [hkey]
      simp [Bytes.join, slash, ascii]
  · rintro ⟨⟨value, child⟩, hmem, ⟨method, rfl, hlookup⟩ | hroute⟩
    · exact staticRoute_child (Assoc.get_of_mem hkeys hmem) (hstatic value child hmem) hlookup
    · exact hroute.extend (Assoc.get_of_mem hkeys hmem) (hstatic value child hmem)

theorem Node.WellFormed.leaf (hwf : n.WellFormed) (h : n.handlers.lookup method = some result) :
    n.isLeaf = true := by
  obtain ⟨-, -, -, -, -, -, -, -, hleaf⟩ := hwf
  exact hleaf method result h

theorem Node.WellFormed.adds_collectStaticRoutes (hwf : n.WellFormed) (pre key : Bytes)
    (compiled : CompiledRoutes R H) :
    Adds key compiled (collectStaticRoutes pre compiled n) (n.StaticRoute pre key) := by
  induction hwf generalizing pre compiled with
  | @intro n hkeys hstatic hchild hregexKeys hregex hregexChild hparam hwildcard hleaf ih =>
    have hwf : n.WellFormed :=
      ⟨hkeys, hstatic, hchild, hregexKeys, hregex, hregexChild, hparam, hwildcard, hleaf⟩
    refine Adds.congr ?_ fun _ => hwf.staticRoute_iff.symm
    rw [collectStaticRoutes_eq]
    suffices hloop : ∀ children ⊆ n.staticChildren, ∀ compiled, Adds key compiled
        (collectStaticChildren pre compiled children) fun result => ∃ e ∈ children,
          (∃ method, key = compiledKey method (pre ++ e.1) ∧ e.2.handlers.lookup method = some result) ∨
            e.2.StaticRoute (pre ++ e.1 ++ ascii "/") key result from
      hloop _ (fun _ h => h) compiled
    intro children
    induction children with
    | nil => exact fun _ compiled => (Adds.refl key compiled).congr (by simp)
    | cons e children ihl =>
      intro hsub compiled
      obtain ⟨value, child⟩ := e
      have hmem : (value, child) ∈ n.staticChildren := hsub mem_cons_self
      have hhandlers : Adds key compiled (if child.isLeaf then child.compileHandlers (pre ++ value)
          compiled else compiled) fun result => ∃ method, key = compiledKey method (pre ++ value) ∧
            child.handlers.lookup method = some result := by
        split
        case isTrue => exact adds_compileHandlers key _ compiled child
        case isFalse hinner =>
          refine (Adds.refl key compiled).congr fun result => ⟨False.elim, ?_⟩
          rintro ⟨method, -, hlookup⟩
          exact hinner ((hchild value child hmem).leaf hlookup)
      have hrest := ihl fun _ h => hsub (mem_cons_of_mem _ h)
      exact ((hhandlers.trans (ih value child hmem _ _)).trans (hrest _)).congr (by simp)

theorem Node.matchParts_static {parts : List Bytes}
    (h : n.routeAt (parts.map Key.static) method = some result) (matchedValues : List Bytes) :
    n.matchParts method parts matchedValues = some (buildMatchResult result matchedValues) := by
  induction parts generalizing n with
  | nil =>
    have hlookup : n.handlers.lookup method = some result := h
    simp [matchParts, matchLeaf, hlookup]
  | cons part parts ih =>
    rw [map_cons, routeAt_cons] at h
    obtain ⟨child, hchild, hroute⟩ := bind_eq_some_iff.mp h
    have hget : Assoc.get part n.staticChildren = some child := hchild
    simp [matchParts, matchStatic, hget, ih hroute]

theorem compiledKey_inj {method' path' : Bytes} (hmethod : Byte.of ' ' ∉ method)
    (hpath : Byte.of ' ' ∉ path) (h : compiledKey method path = compiledKey method' path') :
    method = method' ∧ path = path' := by
  have hsplit : method ++ Byte.of ' ' :: path = method' ++ Byte.of ' ' :: path' := by
    simpa [compiledKey, ascii] using h
  obtain ⟨hm, -, hp⟩ := (append_cons_inj_of_notMem hmethod hpath).mp hsplit
  exact ⟨hm, hp⟩

theorem lookup_compileStaticRoutes {t : Tree R H} (hwf : t.root.WellFormed)
    (hmethod : Byte.of ' ' ∉ method) (hpath : Byte.of ' ' ∉ path) :
    t.compileStaticRoutes.lookup (compiledKey method path) =
      if path = ascii "/" ++ Bytes.join [slash] (fields slash path) then
        t.root.routeAt ((fields slash path).map Key.static) method
      else none := by
  have hadds := (adds_compileHandlers (compiledKey method path) (ascii "/") ∅ t.root).trans
    (hwf.adds_collectStaticRoutes (ascii "/") (compiledKey method path) _)
  have hiff : ∀ result, ((∃ method', compiledKey method path = compiledKey method' (ascii "/") ∧
      t.root.handlers.lookup method' = some result) ∨
        t.root.StaticRoute (ascii "/") (compiledKey method path) result) ↔
      path = ascii "/" ++ Bytes.join [slash] (fields slash path) ∧
        t.root.routeAt ((fields slash path).map Key.static) method = some result := by
    intro result
    constructor
    · rintro (⟨method', hkey, hlookup⟩ | ⟨method', parts, hne, hparts, hkey, hroute⟩)
      · obtain ⟨rfl, rfl⟩ := compiledKey_inj hmethod hpath hkey
        exact ⟨by decide, hlookup⟩
      · obtain ⟨rfl, hcanonical⟩ := compiledKey_inj hmethod hpath hkey
        have hfields : fields slash path = parts := by
          rw [hcanonical, show ascii "/" ++ Bytes.join [slash] parts = slash :: Bytes.join [slash] parts
            from rfl, fields_cons, fields_join hparts]
        rw [hfields]
        exact ⟨hcanonical, hroute⟩
    · rintro ⟨hcanonical, hroute⟩
      by_cases hne : fields slash path = []
      · rw [hne] at hcanonical hroute
        exact .inl ⟨method, by rw [hcanonical]; rfl, hroute⟩
      · exact .inr ⟨method, fields slash path, hne, fun _ => mem_fields,
          by rw [← hcanonical], hroute⟩
  have hadds := hadds.congr hiff
  cases hlookup : t.compileStaticRoutes.lookup (compiledKey method path) with
  | some result =>
    obtain ⟨hcanonical, hroute⟩ := (hadds.sound result hlookup).resolve_left (by simp)
    rw [if_pos hcanonical, hroute]
  | none =>
    split
    case isFalse => rfl
    case isTrue hcanonical =>
      cases hroute : t.root.routeAt ((fields slash path).map Key.static) method with
      | none => rfl
      | some result =>
        have hsome : (t.compileStaticRoutes.lookup (compiledKey method path)).isSome :=
          hadds.complete (.inr ⟨result, hcanonical, hroute⟩)
        rw [hlookup] at hsome
        cases hsome

theorem Tree.matchLazy_static {t : Tree R H}
    (h : t.root.routeAt ((fields slash path).map Key.static) method = some result) :
    t.matchLazy method path = some (buildMatchResult result []) := by
  by_cases hparts : fields slash path = []
  · rw [hparts] at h
    rw [matchLazy_root t method hparts, show t.root.handlers.lookup method = _ from h]
    rfl
  · rw [matchLazy_eq t method hparts, matchParts_static h]

def MatchResult.registration (m : MatchResult R H) : MatchResult R H :=
  { m with params := none, matchedValues := [], treeMatched := false }

/-- The path is that of a static route for any method and of none for the method itself, which
another kind of route serves. -/
def Shadowed (routes : List (Route R H)) (method path : Bytes) : Prop :=
  let parts := Bytes.fields slash path
  parts ≠ [] ∧ path = ascii "/" ++ Bytes.join [slash] parts ∧
    (latest routes anyMethod (parts.map Key.static)).isSome = true ∧
    latest routes method (parts.map Key.static) = none ∧
    ∃ registered values, Serves routes method parts registered values

/-- Exactly if no static route for any method shadows a route for the request's own. -/
theorem compiledRoutes_agree (calls : List (Insertion H)) (req : Request) :
    ((VelocityRouter.commit (Tree.insertAll calls : Tree R H)).matchRoute req).map
        MatchResult.registration =
      ((VelocityRouter.commit (Tree.insertAll calls : Tree R H)).clearCompiledRoutes.matchRoute
        req).map MatchResult.registration ↔
    ¬Shadowed (inserted calls : List (Route R H)) req.method req.url.escapedPath := by
  have hwf := wellFormed_insertAll (R := R) calls
  have hpath := URL.not_mem_escapedPath URL.reserved_space req.url
  have hcompiled := fun method hmethod =>
    @lookup_compileStaticRoutes R H _ _ method (insertAll calls) hwf hmethod hpath
  set path := req.url.escapedPath
  set t : Tree R H := insertAll calls
  have hclear : (commit t).clearCompiledRoutes.matchRoute req =
      (t.matchLazy req.method path).or (t.matchLazy anyMethod path) := rfl
  have hcommit : (commit t).matchRoute req =
      ((t.compileStaticRoutes.lookup (compiledKey req.method path)).or
        (t.compileStaticRoutes.lookup (compiledKey anyMethod path))).or
          ((t.matchLazy req.method path).or (t.matchLazy anyMethod path)) := rfl
  have hroutes := routeAt_insertAll (R := R) calls ((fields slash path).map Key.static)
  rw [hclear, hcommit, hcompiled req.method req.method_token, hcompiled anyMethod (by decide)]
  by_cases hcanonical : path = ascii "/" ++ Bytes.join [slash] (fields slash path)
  swap
  · simp only [if_neg hcanonical]
    exact iff_of_true rfl fun h => hcanonical h.2.1
  simp only [if_pos hcanonical]
  cases hown : t.root.routeAt ((fields slash path).map Key.static) req.method with
  | some result =>
    rw [matchLazy_static hown]
    refine iff_of_true rfl fun h => ?_
    rw [hroutes, h.2.2.2.1] at hown
    cases hown
  | none =>
    cases hany : t.root.routeAt ((fields slash path).map Key.static) anyMethod with
    | none =>
      refine iff_of_true rfl fun h => ?_
      have hsome := h.2.2.1
      rw [← hroutes, hany] at hsome
      cases hsome
    | some any =>
      rw [matchLazy_static hany]
      cases hlazy : t.matchLazy req.method path with
      | none =>
        refine iff_of_true rfl fun h => ?_
        have hsome := (matchLazy_isSome calls req.method h.1).mpr h.2.2.2.2
        rw [hlazy] at hsome
        cases hsome
      | some result =>
        have hparts : fields slash path ≠ [] := by
          intro hnil
          rw [matchLazy_root t req.method hnil] at hlazy
          rw [hnil] at hown
          rw [show t.root.handlers.lookup req.method = none from hown] at hlazy
          cases hlazy
        obtain ⟨registered, values, hserves, rfl⟩ := matchLazy_serves hparts hlazy
        refine iff_of_false (fun hsame => ?_) (not_not_intro ⟨hparts, hcanonical, ?_, ?_, registered,
          values, hserves⟩)
        · -- The two routes have different segments.
          have hregistration : any.registration = registered.registration := Option.some.inj hsame
          have hsegments := congrArg MatchResult.shape hregistration
          change any.shape = registered.shape at hsegments
          have hlatest := hserves.latest
          rw [hroutes] at hown hany
          rw [← hsegments, latest_shape hany, hown] at hlatest
          cases hlatest
        · rw [← hroutes, hany]
          rfl
        · rw [← hroutes, hown]

/-- A static route for every method, and a parameter route for one of them. -/
def shadowedCalls : List (Insertion Nat) :=
  [⟨anyMethod, ascii "/users/new", 1, []⟩,
    ⟨ascii "GET", ascii "/users/\x7bid\x7d", 2, []⟩]

def usersNew (method : Bytes) (h : Byte.of ' ' ∉ method) : Request :=
  ⟨method, ⟨ascii "/users/new", [], []⟩, h⟩

/-- The fast path answers with the route for any method, the tree with the method's own. -/
theorem shadowed_routes_disagree :
    ((VelocityRouter.commit (Tree.insertAll shadowedCalls : Tree PlainText Nat)).matchRoute
        (usersNew (Bytes.ascii "GET") (by decide))).map MatchResult.handler = some 1 ∧
      ((VelocityRouter.commit
        (Tree.insertAll shadowedCalls : Tree PlainText Nat)).clearCompiledRoutes.matchRoute
        (usersNew (Bytes.ascii "GET") (by decide))).map MatchResult.handler = some 2 := by
  decide +kernel

end Router
