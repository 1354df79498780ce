import Velocity.Router.Dispatch

/-! Routes as they are defined, in nested groups with middleware, and the commit that inserts
them into the tree once. -/

namespace Router

open List Router.Tree
open Bytes (ascii)

section Middleware

variable {C E : Type}

abbrev HandlerFunc (C E : Type) := C → E

abbrev MiddlewareFunc (C E : Type) := HandlerFunc C E → HandlerFunc C E

/-- A stage of a pipeline gets the passable and the rest of the pipeline. -/
abbrev Pipe (C E : Type) := C → (C → E) → E

/-- `Pipeline.Build`: its loop starts at the last stage. -/
def buildPipeline (pipes : List (Pipe C E)) (destination : C → E) : C → E :=
  pipes.foldr (fun current next => fun passable => current passable next) destination

abbrev Middlewares (C E : Type) := List (MiddlewareFunc C E)

def applyMiddlewareChain (handler : HandlerFunc C E) (middlewares : Middlewares C E) :
    HandlerFunc C E :=
  if middlewares.isEmpty then handler
  else
    buildPipeline (middlewares.map fun mw => fun c next => mw (fun ctx => next ctx) c)
      fun ctx => handler ctx

theorem applyMiddlewareChain_eq (handler : HandlerFunc C E) (middlewares : Middlewares C E) :
    applyMiddlewareChain handler middlewares = middlewares.foldr (fun mw h => mw h) handler := by
  have hbuild : buildPipeline (middlewares.map fun mw => fun c next => mw next c)
      handler = middlewares.foldr (fun mw h => mw h) handler := by
    induction middlewares with
    | nil => rfl
    | cons mw middlewares ih => exact congrArg mw ih
  cases middlewares with
  | nil => rfl
  | cons mw middlewares => exact hbuild

end Middleware

structure RouteDefinition (C E : Type) where
  method : Bytes
  path : Bytes
  handler : HandlerFunc C E
  middlewares : Middlewares C E
  name : Bytes

inductive GroupDefinition (C E : Type)
  | mk (pre : Bytes) (middlewares : Middlewares C E)
    (routes : List (RouteDefinition C E)) (children : List (GroupDefinition C E))

/-- Prefixes and middleware of the groups around, the nearest first. -/
abbrev Insertions (C E : Type) := List (Insertion (HandlerFunc C E))

abbrev HandlerTree (R C E : Type) [Regexp R] := Tree R (HandlerFunc C E)

abbrev Parents (C E : Type) := List (Bytes × Middlewares C E)

variable {R C E : Type} [Regexp R]

def fullPrefix (pre : Bytes) : Parents C E → Bytes
  | [] => pre
  | parent :: parents =>
    let parentPrefix := fullPrefix parent.1 parents
    if parentPrefix = [] then pre
    else if pre = [] then parentPrefix
    else parentPrefix ++ pre

def collectInheritedMiddlewares : Parents C E → Middlewares C E
  | [] => []
  | parent :: parents => collectInheritedMiddlewares parents ++ parent.2

/-- The loop over the routes of a group stops at the first that is not inserted. -/
def Tree.insertUntil : Insertions C E → HandlerTree R C E →
    InsertOutcome × HandlerTree R C E
  | [], t => (.ok, t)
  | c :: calls, t =>
    match t.insertOne c with
    | (.ok, t) => Tree.insertUntil calls t
    | (out, t) => (out, t)

def RouteDefinition.insertion (route : RouteDefinition C E) (path : Bytes)
    (global inherited own : Middlewares C E) : Insertion (HandlerFunc C E) :=
  ⟨route.method, path ++ route.path,
    applyMiddlewareChain route.handler (global ++ inherited ++ own ++ route.middlewares),
    route.name⟩

mutual

def GroupDefinition.commitToTree (global : Middlewares C E) (parents : Parents C E)
    (t : HandlerTree R C E) :
    GroupDefinition C E → InsertOutcome × HandlerTree R C E
  | .mk pre middlewares routes children =>
    let calls := routes.map fun route =>
      route.insertion (fullPrefix pre parents) global (collectInheritedMiddlewares parents) middlewares
    match Tree.insertUntil calls t with
    | (.ok, t) => GroupDefinition.commitChildren global ((pre, middlewares) :: parents) t children
    | (out, t) => (out, t)

def GroupDefinition.commitChildren (global : Middlewares C E) (parents : Parents C E)
    (t : HandlerTree R C E) :
    List (GroupDefinition C E) → InsertOutcome × HandlerTree R C E
  | [] => (.ok, t)
  | child :: children =>
    match GroupDefinition.commitToTree global parents t child with
    | (.ok, t) => GroupDefinition.commitChildren global parents t children
    | (out, t) => (out, t)

end

structure ResourceConfig where
  action : Bytes
  httpMethod : Bytes
  pathSuffix : Bytes
  deriving DecidableEq, Repr

def defaultResourceConfig : List ResourceConfig :=
  [⟨ascii "Index", ascii "GET", []⟩,
   ⟨ascii "Create", ascii "GET", ascii "/create"⟩,
   ⟨ascii "Store", ascii "POST", []⟩,
   ⟨ascii "Show", ascii "GET", ascii "/\x7bid\x7d"⟩,
   ⟨ascii "Edit", ascii "GET", ascii "/\x7bid\x7d/edit"⟩,
   ⟨ascii "Update", ascii "PUT", ascii "/\x7bid\x7d"⟩,
   ⟨ascii "Update", ascii "PATCH", ascii "/\x7bid\x7d"⟩,
   ⟨ascii "Destroy", ascii "DELETE", ascii "/\x7bid\x7d"⟩]

/-- A method of a controller: whether it has a handler's signature, and the handler. -/
structure ControllerMethod (C E : Type) where
  isValidHandler : Bool
  handler : HandlerFunc C E

structure Resource (C E : Type) where
  path : Bytes
  /-- The actions left enabled. -/
  enabled : Bytes → Bool
  typeName : Bytes
  controller : Bytes → Option (ControllerMethod C E)

def Resource.insertions (res : Resource C E) (global : Middlewares C E) : Insertions C E :=
  defaultResourceConfig.filterMap fun config =>
    if !res.enabled config.action then none
    else
      match res.controller config.action with
      | none => none
      | some m =>
        if !m.isValidHandler then none
        else some ⟨config.httpMethod, res.path ++ config.pathSuffix,
          applyMiddlewareChain m.handler global, []⟩

/-- The loop goes on after a rejected pattern. -/
def Resource.registerWithMiddlewares (global : Middlewares C E)
    (t : HandlerTree R C E) (res : Resource C E) : HandlerTree R C E :=
  (res.insertions global).foldl
    (fun t c => (t.insertOne c).2) t

structure RouterDefinition (C E : Type) where
  rootGroup : GroupDefinition C E
  middlewares : Middlewares C E
  resources : List (Resource C E)

/-- A committed router, and the errors that the commit passed to its caller. -/
structure Committed (R C E : Type) [Regexp R] where
  router : VelocityRouter R (HandlerFunc C E)
  errors : List SegmentError

/-- The first commit; it panics with the name of a route that is taken. -/
def RouterDefinition.commitOnce (r : RouterDefinition C E) : Except Bytes (Committed R C E) :=
  match r.rootGroup.commitToTree r.middlewares [] newTree with
  | (.panic name, _) => .error name
  | (_, t) =>
    -- the error of `CommitToTree` is dropped, and nothing is written about it
    let t := r.resources.foldl (Resource.registerWithMiddlewares r.middlewares) t
    .ok ⟨VelocityRouter.commit t, []⟩

structure RouteInfo where
  method : Bytes
  path : Bytes
  handler : Bytes
  middleware : List Bytes
  name : Bytes

/-- The names that the runtime gives to functions. -/
structure FuncNames (C E : Type) where
  handler : HandlerFunc C E → Bytes
  middleware : MiddlewareFunc C E → Bytes

mutual

def GroupDefinition.collectGroupRoutes (names : FuncNames C E) (parents : Parents C E)
    (inherited : List Bytes) (routes : List RouteInfo) : GroupDefinition C E → List RouteInfo
  | .mk pre middlewares own children =>
    let groupMW := inherited ++ middlewares.map names.middleware
    let routes := routes ++ own.map fun route =>
      ⟨route.method, fullPrefix pre parents ++ route.path, names.handler route.handler,
        groupMW ++ route.middlewares.map names.middleware, route.name⟩
    GroupDefinition.collectChildRoutes names ((pre, middlewares) :: parents) groupMW routes children

def GroupDefinition.collectChildRoutes (names : FuncNames C E) (parents : Parents C E)
    (inherited : List Bytes) (routes : List RouteInfo) :
    List (GroupDefinition C E) → List RouteInfo
  | [] => routes
  | child :: children =>
    GroupDefinition.collectChildRoutes names parents inherited
      (GroupDefinition.collectGroupRoutes names parents inherited routes child) children

end

def Resource.routeInfos (res : Resource C E) : List RouteInfo :=
  defaultResourceConfig.filterMap fun config =>
    if !res.enabled config.action then none
    else
      match res.controller config.action with
      | none => none
      | some _ => some ⟨config.httpMethod, res.path ++ config.pathSuffix,
          res.typeName ++ ascii "." ++ config.action, [], []⟩

def RouterDefinition.allRoutes (names : FuncNames C E) (r : RouterDefinition C E) :
    List RouteInfo :=
  let global := r.middlewares.map names.middleware
  r.rootGroup.collectGroupRoutes names [] global [] ++
    r.resources.flatMap fun res =>
      res.routeInfos.map fun info => { info with middleware := global ++ info.middleware }

/-- A route as meant: its whole path and every middleware, the outermost first. -/
structure DefinedRoute (C E : Type) where
  method : Bytes
  path : Bytes
  handler : HandlerFunc C E
  chain : Middlewares C E
  name : Bytes

mutual

def GroupDefinition.defined (outerPath : Bytes) (outer : Middlewares C E) :
    GroupDefinition C E → List (DefinedRoute C E)
  | .mk pre middlewares routes children =>
    (routes.map fun route => ⟨route.method, outerPath ++ pre ++ route.path, route.handler,
        outer ++ middlewares ++ route.middlewares, route.name⟩) ++
      GroupDefinition.definedChildren (outerPath ++ pre) (outer ++ middlewares) children

def GroupDefinition.definedChildren (outerPath : Bytes) (outer : Middlewares C E) :
    List (GroupDefinition C E) → List (DefinedRoute C E)
  | [] => []
  | child :: children =>
    GroupDefinition.defined outerPath outer child ++
      GroupDefinition.definedChildren outerPath outer children

end

def RouterDefinition.defined (r : RouterDefinition C E) : List (DefinedRoute C E) :=
  r.rootGroup.defined [] r.middlewares

/-- The middleware around the handler, all of it passed through. -/
def DefinedRoute.wrapped (d : DefinedRoute C E) : HandlerFunc C E :=
  d.chain.foldr (fun mw h => mw h) d.handler

def DefinedRoute.info (names : FuncNames C E) (d : DefinedRoute C E) : RouteInfo :=
  ⟨d.method, d.path, names.handler d.handler, d.chain.map names.middleware, d.name⟩

def DefinedRoute.insertion (d : DefinedRoute C E) : Insertion (HandlerFunc C E) :=
  ⟨d.method, d.path, d.wrapped, d.name⟩

section Order

def parentPath : Parents C E → Bytes
  | [] => []
  | parent :: parents => parentPath parents ++ parent.1

theorem fullPrefix_eq (pre : Bytes) (parents : Parents C E) :
    fullPrefix pre parents = parentPath parents ++ pre := by
  induction parents generalizing pre with
  | nil => rfl
  | cons parent parents ih =>
    rw [fullPrefix, ih, parentPath]
    by_cases hparent : parentPath parents ++ parent.1 = []
    · simp [hparent]
    · by_cases hpre : pre = []
      · simp [hparent, hpre]
      · simp [hparent, hpre]

theorem Tree.insertUntil_append (cs ds : Insertions C E)
    (t : HandlerTree R C E) : insertUntil (cs ++ ds) t =
      match insertUntil cs t with
      | (.ok, t) => insertUntil ds t
      | (out, t) => (out, t) := by
  induction cs generalizing t with
  | nil => rfl
  | cons c cs ih =>
    rw [cons_append, insertUntil, insertUntil]
    obtain ⟨out, t'⟩ := t.insertOne c
    cases out with
    | ok => exact ih t'
    | error err => rfl
    | panic name => rfl

mutual

open DefinedRoute

theorem GroupDefinition.commitToTree_eq (global : Middlewares C E)
    (parents : Parents C E) (t : HandlerTree R C E) : (g : GroupDefinition C E) →
    g.commitToTree global parents t = Tree.insertUntil ((g.defined (parentPath parents)
        (global ++ collectInheritedMiddlewares parents)).map insertion) t
  | .mk pre middlewares routes children => by
    have hroutes : (routes.map fun route => route.insertion (fullPrefix pre parents) global
          (collectInheritedMiddlewares parents) middlewares) =
        (routes.map fun route => (⟨route.method, parentPath parents ++ pre ++ route.path,
          route.handler, global ++ collectInheritedMiddlewares parents ++ middlewares ++
            route.middlewares, route.name⟩ : DefinedRoute C E)).map insertion := by
      rw [map_map]
      apply map_congr_left
      intro route _
      simp only [RouteDefinition.insertion, Function.comp, insertion,
        wrapped, applyMiddlewareChain_eq, fullPrefix_eq]
    have hchildren := fun t : HandlerTree R C E =>
      commitChildren_eq global ((pre, middlewares) :: parents) t children
    rw [commitToTree, defined, map_append, insertUntil_append, hroutes]
    simp only [hchildren, parentPath, collectInheritedMiddlewares, append_assoc]

theorem GroupDefinition.commitChildren_eq (global : Middlewares C E)
    (parents : Parents C E) (t : HandlerTree R C E) :
    (children : List (GroupDefinition C E)) →
    commitChildren global parents t children =
      Tree.insertUntil ((definedChildren (parentPath parents)
        (global ++ collectInheritedMiddlewares parents) children).map insertion) t
  | [] => rfl
  | child :: children => by
    have hchildren := fun t : HandlerTree R C E =>
      commitChildren_eq global parents t children
    rw [commitChildren, definedChildren, map_append,
      insertUntil_append, commitToTree_eq global parents t child]
    simp only [hchildren]

end

mutual

theorem GroupDefinition.collectGroupRoutes_eq (names : FuncNames C E) (parents : Parents C E)
    (outer : Middlewares C E) (routes : List RouteInfo) : (g : GroupDefinition C E) →
    g.collectGroupRoutes names parents (outer.map names.middleware) routes =
      routes ++ (g.defined (parentPath parents) outer).map (DefinedRoute.info names)
  | .mk pre middlewares own children => by
    have hchildren := fun routes : List RouteInfo =>
      collectChildRoutes_eq names ((pre, middlewares) :: parents)
        (outer ++ middlewares) routes children
    have hown : (own.map fun route => (⟨route.method, fullPrefix pre parents ++ route.path,
          names.handler route.handler, (outer ++ middlewares).map names.middleware ++
            route.middlewares.map names.middleware, route.name⟩ : RouteInfo)) =
        (own.map fun route => (⟨route.method, parentPath parents ++ pre ++ route.path,
          route.handler, outer ++ middlewares ++ route.middlewares, route.name⟩ :
            DefinedRoute C E)).map (DefinedRoute.info names) := by
      rw [map_map]
      apply map_congr_left
      intro route _
      simp only [Function.comp, DefinedRoute.info, fullPrefix_eq, map_append]
    rw [collectGroupRoutes, defined, ← map_append]
    simp only [hchildren, hown, parentPath]
    rw [map_append, append_assoc]

theorem GroupDefinition.collectChildRoutes_eq (names : FuncNames C E) (parents : Parents C E)
    (outer : Middlewares C E) (routes : List RouteInfo) :
    (children : List (GroupDefinition C E)) →
    collectChildRoutes names parents (outer.map names.middleware) routes children =
      routes ++ (definedChildren (parentPath parents) outer children).map
        (DefinedRoute.info names)
  | [] => by simp [collectChildRoutes, definedChildren]
  | child :: children => by
    rw [collectChildRoutes, definedChildren,
      collectGroupRoutes_eq names parents outer routes child,
      collectChildRoutes_eq names parents outer _ children, map_append,
      append_assoc]

end

end Order

section Commit

variable {t : HandlerTree R C E} {r : RouterDefinition C E}

attribute [local simp] Tree.insertWithName

theorem Tree.insertWithName_cases (t : HandlerTree R C E) (c : Insertion (HandlerFunc C E)) :
    (∃ err, parseSegments (R := R) c.path = .error err ∧
      t.insertOne c = (.error err, t)) ∨
    ∃ segments t', parseSegments (R := R) c.path = .ok segments ∧
      (c.name = [] ∧ t'.namedRoutes = t.namedRoutes ∧
          t.insertOne c = (.ok, t') ∨
        c.name ≠ [] ∧ t.namedRoutes.lookup c.name ≠ none ∧
          t.insertOne c = (.panic c.name, t') ∨
        c.name ≠ [] ∧ t.namedRoutes.lookup c.name = none ∧
          (∃ result, t'.namedRoutes = t.namedRoutes.insert c.name result) ∧
          t.insertOne c = (.ok, t')) := by
  cases hparse : parseSegments (R := R) c.path with
  | error err => exact .inl ⟨err, rfl, by simp [hparse]⟩
  | ok segments =>
    let result : MatchResult R (HandlerFunc C E) :=
      { handler := c.handler, name := c.name, path := c.path, segments := segments }
    let root := t.root.insert c.method result segments
    by_cases hname : c.name = []
    · refine .inr ⟨segments, { t with root := root }, rfl, .inl ⟨hname, rfl, ?_⟩⟩
      simp [hparse, hname, root, result]
    · cases hlookup : t.namedRoutes.lookup c.name with
      | none =>
        refine .inr ⟨segments, ⟨root, t.namedRoutes.insert c.name result⟩, rfl,
          .inr (.inr ⟨hname, rfl, ⟨result, rfl⟩, ?_⟩)⟩
        simp [hparse, hname, hlookup, root, result]
      | some taken =>
        refine .inr ⟨segments, { t with root := root }, rfl, .inr (.inl ⟨hname, by simp, ?_⟩)⟩
        simp [hparse, hname, hlookup, root, result]

def routeNames (calls : Insertions C E) : List Bytes :=
  (calls.map Insertion.name).filter (· ≠ [])

theorem routeNames_cons (c : Insertion (HandlerFunc C E)) (calls : Insertions C E) :
    routeNames (c :: calls) = if c.name = [] then routeNames calls else c.name :: routeNames calls := by
  by_cases h : c.name = []
  · simp [routeNames, h]
  · simp [routeNames, h]

theorem Tree.insertUntil_ok_iff (calls : Insertions C E) :
    (insertUntil calls t).1 = .ok ↔
      (∀ c ∈ calls, ∃ segments, parseSegments (R := R) c.path = .ok segments) ∧
        (routeNames calls).Nodup ∧ ∀ name ∈ routeNames calls, t.namedRoutes.lookup name = none := by
  induction calls generalizing t with
  | nil => simp [insertUntil, routeNames]
  | cons c calls ih =>
    rw [insertUntil, routeNames_cons]
    rcases t.insertWithName_cases c with ⟨err, hparse, heq⟩ | ⟨segments, t', hparse, hcases⟩
    · rw [heq]
      simp [hparse]
    · rcases hcases with
        ⟨hname, hnamed, heq⟩ | ⟨hname, hlookup, heq⟩ | ⟨hname, hlookup, ⟨x, hnamed⟩, heq⟩
      · rw [heq, if_pos hname]
        simp only [ih, hnamed, mem_cons, forall_eq_or_imp]
        constructor
        · rintro ⟨hall, hrest⟩
          exact ⟨⟨⟨segments, hparse⟩, hall⟩, hrest⟩
        · rintro ⟨⟨-, hall⟩, hrest⟩
          exact ⟨hall, hrest⟩
      · rw [heq, if_neg hname]
        simp [hlookup]
      · rw [heq, if_neg hname]
        simp only [ih, hnamed, FMap.lookup_insert_ite, mem_cons, forall_eq_or_imp,
          nodup_cons, hlookup, true_and]
        constructor
        · rintro ⟨hall, hnodup, hfree⟩
          have hnot : c.name ∉ routeNames calls := by
            intro hmem
            have hh := hfree c.name hmem
            simp at hh
          refine ⟨⟨⟨segments, hparse⟩, hall⟩, ⟨hnot, hnodup⟩, ?_⟩
          intro name hmem
          have hne : name ≠ c.name := fun he => hnot (he ▸ hmem)
          have hh := hfree name hmem
          rwa [if_neg hne] at hh
        · rintro ⟨⟨-, hall⟩, ⟨hnot, hnodup⟩, hfree⟩
          refine ⟨hall, hnodup, ?_⟩
          intro name hmem
          have hne : name ≠ c.name := fun he => hnot (he ▸ hmem)
          rw [if_neg hne]
          exact hfree name hmem

theorem Tree.insertUntil_error {calls : Insertions C E} {err : SegmentError}
    (h : (insertUntil calls t).1 = .error err) :
    ∃ c ∈ calls, parseSegments (R := R) c.path = .error err := by
  induction calls generalizing t with
  | nil => simp [insertUntil] at h
  | cons c calls ih =>
    rw [insertUntil] at h
    rcases t.insertWithName_cases c with ⟨err', hparse, heq⟩ | ⟨-, t', hparse, hcases⟩
    · rw [heq] at h
      have he : err' = err := InsertOutcome.error.inj h
      exact ⟨c, mem_cons_self, he ▸ hparse⟩
    · have hrest : ∀ t' : HandlerTree R C E, (insertUntil calls t').1 = .error err →
          ∃ c' ∈ c :: calls, parseSegments (R := R) c'.path = .error err := by
        intro t' h'
        obtain ⟨c', hmem, hc'⟩ := ih h'
        exact ⟨c', mem_cons_of_mem _ hmem, hc'⟩
      rcases hcases with ⟨-, -, heq⟩ | ⟨-, -, heq⟩ | ⟨-, -, -, heq⟩
      · rw [heq] at h
        exact hrest t' h
      · rw [heq] at h
        cases h
      · rw [heq] at h
        exact hrest t' h

theorem Tree.insertUntil_ok {calls : Insertions C E}
    (h : (insertUntil calls t).1 = .ok) : (insertUntil calls t).2 =
      calls.foldl (fun t c => (t.insertOne c).2) t := by
  induction calls generalizing t with
  | nil => rfl
  | cons c calls ih =>
    rw [insertUntil] at h ⊢
    rw [foldl_cons]
    generalize t.insertOne c = next at h ⊢
    obtain ⟨out, t'⟩ := next
    cases out with
    | ok => exact ih h
    | error err => cases h
    | panic name => cases h

def RouterDefinition.calls (r : RouterDefinition C E) : Insertions C E :=
  r.defined.map DefinedRoute.insertion ++ r.resources.flatMap fun res => res.insertions r.middlewares

def RouterDefinition.LosesNone (R : Type) [Regexp R] (r : RouterDefinition C E) : Prop :=
  ∃ c : Committed R C E, r.commitOnce = .ok c ∧ ∀ d ∈ r.defined,
    match parseSegments (R := R) d.path with
    | .ok segments => c.router.tree.root.routeAt (segments.map Segment.key) d.method =
        some { handler := d.wrapped, name := d.name, path := d.path, segments := segments }
    | .error err => err ∈ c.errors

/-- No pattern is rejected, no name shared, and no route replaced by a later one. -/
structure RouterDefinition.Separate (R : Type) [Regexp R] (r : RouterDefinition C E) : Prop where
  accepted : ∀ d ∈ r.defined, ∃ segments, parseSegments (R := R) d.path = .ok segments
  names : (routeNames (r.defined.map DefinedRoute.insertion)).Nodup
  kept : ∀ d ∈ r.defined, ∀ route : Route R (HandlerFunc C E), d.insertion.route? = some route →
    latest (inserted r.calls) route.method route.registered.shape = some route.registered

theorem RouterDefinition.commitToTree_defined (r : RouterDefinition C E) :
    r.rootGroup.commitToTree r.middlewares [] (newTree : HandlerTree R C E) =
      Tree.insertUntil (r.defined.map DefinedRoute.insertion) newTree := by
  rw [GroupDefinition.commitToTree_eq]
  simp only [parentPath, collectInheritedMiddlewares, append_nil, defined]

theorem RouterDefinition.commit_ok_iff (r : RouterDefinition C E) :
    (r.rootGroup.commitToTree r.middlewares [] (newTree : HandlerTree R C E)).1 = .ok ↔
      (∀ d ∈ r.defined, ∃ segments, parseSegments (R := R) d.path = .ok segments) ∧
        (routeNames (r.defined.map DefinedRoute.insertion)).Nodup := by
  rw [r.commitToTree_defined, insertUntil_ok_iff]
  have hempty : ∀ name, (newTree : HandlerTree R C E).namedRoutes.lookup name = none :=
    fun _ => rfl
  simp [hempty, DefinedRoute.insertion]

theorem RouterDefinition.commitOnce_of_ok
    (h : (r.rootGroup.commitToTree r.middlewares [] (newTree : HandlerTree R C E)).1 = .ok) :
    r.commitOnce =
      .ok ⟨VelocityRouter.commit (Tree.insertAll r.calls : HandlerTree R C E), []⟩ := by
  rw [r.commitToTree_defined] at h
  have htree := insertUntil_ok h
  rw [commitOnce, r.commitToTree_defined]
  generalize insertUntil _ (newTree : Tree R _) = out at h htree ⊢
  obtain ⟨o, t⟩ := out
  simp only at h htree
  rw [h, htree]
  simp only [insertAll, calls, foldl_append, foldl_flatMap]
  rfl

theorem RouterDefinition.commit_ok_of_losesNone (h : r.LosesNone R) :
    (r.rootGroup.commitToTree r.middlewares [] (newTree : HandlerTree R C E)).1 = .ok := by
  obtain ⟨c, hc, hall⟩ := h
  rw [commitOnce] at hc
  generalize hout : r.rootGroup.commitToTree r.middlewares [] (newTree : Tree R _) = out at hc ⊢
  obtain ⟨o, t⟩ := out
  cases o with
  | ok => rfl
  | panic name => cases hc
  | error err =>
    -- the rejected pattern is among the routes, and no error is passed on
    rw [r.commitToTree_defined] at hout
    obtain ⟨call, hmem, hparse⟩ := insertUntil_error (congrArg Prod.fst hout)
    obtain ⟨d, hd, hcall⟩ := mem_map.mp hmem
    rw [← hcall] at hparse
    have hpath : parseSegments (R := R) d.path = .error err := hparse
    have hreported := hall d hd
    rw [hpath] at hreported
    have hnone : c.errors = [] := by rw [← Except.ok.inj hc]
    simp only [hnone, not_mem_nil] at hreported

def brokenSibling : RouterDefinition Unit Nat where
  rootGroup := .mk [] []
    [⟨ascii "GET", ascii "/users/\x7bid:[invalid(\x7d", fun _ => 0, [], []⟩,
     ⟨ascii "GET", ascii "/ok", fun _ => 1, [], []⟩] []
  middlewares := []
  resources := []

end Commit

end Router
