import Velocity.Lib.Assoc
import Velocity.Router.Segment
import Mathlib.Data.List.Lex
import Mathlib.Data.List.Sort

/-! The routing tree: inserting a route, finding the route of a path, the methods a path allows
and the flat map of static routes. -/

namespace Router

open Bytes

structure MatchResult (R H : Type) [Regexp R] where
  handler : H
  params : Option (FMap Bytes Bytes) := none
  name : Bytes
  path : Bytes
  segments : List (Segment R)
  matchedValues : List Bytes := []
  treeMatched : Bool := false

structure Node (R H : Type) [Regexp R] where
  segment : Segment R
  staticChildren : List (Bytes × Node R H) := []
  regexChildren : List (Node R H) := []
  paramChild : Option (Node R H) := none
  wildcardChild : Option (Node R H) := none
  handlers : FMap Bytes (MatchResult R H) := ∅
  isLeaf : Bool := false

structure Tree (R H : Type) [Regexp R] where
  root : Node R H
  namedRoutes : FMap Bytes (MatchResult R H)

inductive InsertOutcome where
  | ok
  | error (err : SegmentError)
  /-- The registration error "route name already registered", with the name quoted. -/
  | panic (name : Bytes)
  deriving DecidableEq, Repr

variable {R H : Type} [Regexp R] {path : Bytes}

theorem root_compiles : SegmentType.static = .regex →
    ∃ re : R, Regexp.compile (anchored []) = .ok re ∧ none = some re := by
  intro h
  cases h

def newTree : Tree R H := ⟨{ segment := ⟨.static, [], none, [], root_compiles⟩ }, ∅⟩

/-- The regex child of a constraint, or a new one behind the others. -/
def Node.alterRegex (seg : Segment R) (f : Node R H → Node R H) : List (Node R H) → List (Node R H)
  | [] => [f { segment := seg }]
  | child :: children =>
    if child.segment.rawPattern = seg.rawPattern then f child :: children
    else child :: alterRegex seg f children

/-- The change `f` is what the caller does to the child that `getOrCreateChild` returns. -/
def Node.getOrCreateChild (n : Node R H) (seg : Segment R) (f : Node R H → Node R H) : Node R H :=
  match seg.type with
  | .static =>
    { n with staticChildren :=
        Assoc.alter seg.value (fun child => f (child.getD { segment := seg })) n.staticChildren }
  | .regex => { n with regexChildren := Node.alterRegex seg f n.regexChildren }
  | .param => { n with paramChild := some (f (n.paramChild.getD { segment := seg })) }
  | .wildcard => { n with wildcardChild := some (f (n.wildcardChild.getD { segment := seg })) }

def Node.insert (method : Bytes) (result : MatchResult R H) : List (Segment R) → Node R H → Node R H
  | [], n => { n with handlers := n.handlers.insert method result, isLeaf := true }
  | seg :: segments, n => n.getOrCreateChild seg (Node.insert method result segments)

/-- A name that is taken panics after the handler is stored. -/
def Tree.insertWithName (t : Tree R H) (method path : Bytes) (handler : H) (name : Bytes) :
    InsertOutcome × Tree R H :=
  match parseSegments (R := R) path with
  | .error err => (.error err, t)
  | .ok segments =>
    let result : MatchResult R H :=
      { handler := handler, name := name, path := path, segments := segments }
    let root := t.root.insert method result segments
    if name = [] then (.ok, { t with root := root })
    else if (t.namedRoutes.lookup name).isSome then (.panic name, { t with root := root })
    else (.ok, ⟨root, t.namedRoutes.insert name result⟩)

def buildMatchResult (registered : MatchResult R H) (matchedValues : List Bytes) :
    MatchResult R H :=
  { registered with params := none, matchedValues := matchedValues, treeMatched := true }

def unescapeCapture (part : Bytes) : Bytes := (Percent.pathUnescape part).getD part

def Node.matchLeaf (n : Node R H) (method : Bytes) (matchedValues : List Bytes) :
    Option (MatchResult R H) :=
  match n.handlers.lookup method with
  | some result => some (buildMatchResult result matchedValues)
  | none =>
    match n.wildcardChild.bind fun child => child.handlers.lookup method with
    | some result => some (buildMatchResult result (matchedValues ++ [[]]))
    | none => none

def Node.matchStatic (n : Node R H) (part : Bytes)
    (next : Node R H → Option (MatchResult R H)) : Option (MatchResult R H) :=
  (Assoc.get part n.staticChildren).bind next

def Node.matchRegex (n : Node R H) (part : Bytes) (matchedValues : List Bytes)
    (next : Node R H → List Bytes → Option (MatchResult R H)) : Option (MatchResult R H) :=
  n.regexChildren.findSome? fun child =>
    if child.segment.accepts part then next child (matchedValues ++ [unescapeCapture part])
    else none

def Node.matchParam (n : Node R H) (part : Bytes) (matchedValues : List Bytes)
    (next : Node R H → List Bytes → Option (MatchResult R H)) : Option (MatchResult R H) :=
  n.paramChild.bind fun child => next child (matchedValues ++ [unescapeCapture part])

def Node.matchWildcard (n : Node R H) (parts : List Bytes) (method : Bytes)
    (matchedValues : List Bytes) : Option (MatchResult R H) :=
  (n.wildcardChild.bind fun child => child.handlers.lookup method).map fun result =>
    buildMatchResult result
      (matchedValues ++ [unescapeCapture (Bytes.join (Bytes.ascii "/") parts)])

def Node.matchParts (method : Bytes) :
    List Bytes → Node R H → List Bytes → Option (MatchResult R H)
  | [], n, matchedValues => n.matchLeaf method matchedValues
  | part :: remaining, n, matchedValues =>
    (n.matchStatic part fun child => child.matchParts method remaining matchedValues).or <|
    (n.matchRegex part matchedValues fun child values =>
      child.matchParts method remaining values).or <|
    (n.matchParam part matchedValues fun child values =>
      child.matchParts method remaining values).or <|
    n.matchWildcard (part :: remaining) method matchedValues

/-- The scan of `appendPathParts`, with the bytes since the last slash. -/
def scanParts : List Bytes → Bytes → Bytes → List Bytes
  | parts, piece, [] => if piece = [] then parts else parts ++ [piece]
  | parts, piece, b :: path =>
    if b = slash then scanParts (if piece = [] then parts else parts ++ [piece]) [] path
    else scanParts parts (piece ++ [b]) path

def appendPathParts (parts : List Bytes) (path : Bytes) : List Bytes := scanParts parts [] path

def Tree.matchLazy (t : Tree R H) (method path : Bytes) : Option (MatchResult R H) :=
  let path := Bytes.trim slash path
  if path = [] then
    (t.root.handlers.lookup method).map fun result => buildMatchResult result []
  else t.root.matchParts method (appendPathParts [] path) []

/-- The loop of `buildParams`: the values not yet used go to the capturing segments in order. -/
def assignParams : List (Segment R) → List Bytes → FMap Bytes Bytes → FMap Bytes Bytes
  | [], _, params => params
  | seg :: segments, values, params =>
    if seg.type = .param ∨ seg.type = .regex ∨ seg.type = .wildcard then
      match values with
      | [] => assignParams segments [] params
      | value :: values => assignParams segments values (params.insert seg.value value)
    else assignParams segments values params

def buildParams (segments : List (Segment R)) (values : List Bytes) : FMap Bytes Bytes :=
  assignParams segments values ∅

def MatchResult.paramMap (m : MatchResult R H) : FMap Bytes Bytes :=
  buildParams m.segments m.matchedValues

def Tree.matchPath (t : Tree R H) (method path : Bytes) : Option (MatchResult R H) :=
  (t.matchLazy method path).map fun result => { result with params := some result.paramMap }

def Node.appendHandlerMethods (n : Node R H) (methods : List Bytes) : List Bytes :=
  n.handlers.keys.foldl (fun methods method => Assoc.addKey method methods) methods

def Node.appendWildcardMethods (n : Node R H) (methods : List Bytes) : List Bytes :=
  match n.wildcardChild with
  | some child => child.appendHandlerMethods methods
  | none => methods

def Node.appendAllowedMethods : List Bytes → Node R H → List Bytes → List Bytes
  | [], n, methods => n.appendWildcardMethods (n.appendHandlerMethods methods)
  | part :: remaining, n, methods =>
    let methods :=
      match Assoc.get part n.staticChildren with
      | some child => child.appendAllowedMethods remaining methods
      | none => methods
    let methods := n.regexChildren.foldl (fun methods child =>
      if child.segment.accepts part then child.appendAllowedMethods remaining methods
      else methods) methods
    let methods :=
      match n.paramChild with
      | some child => child.appendAllowedMethods remaining methods
      | none => methods
    n.appendWildcardMethods methods

def Tree.allowedMethods (t : Tree R H) (path : Bytes) : List Bytes :=
  let path := Bytes.trim slash path
  let methods :=
    if path = [] then t.root.appendHandlerMethods []
    else t.root.appendAllowedMethods (appendPathParts [] path) []
  methods.insertionSort (· ≤ ·)

abbrev CompiledRoutes (R H : Type) [Regexp R] := FMap Bytes (MatchResult R H)

def compiledKey (method path : Bytes) : Bytes := method ++ Bytes.ascii " " ++ path

def Node.compileHandlers (n : Node R H) (path : Bytes) (compiled : CompiledRoutes R H) :
    CompiledRoutes R H :=
  n.handlers.entries.foldl (fun compiled e => compiled.insert (compiledKey e.1 path) e.2) compiled

mutual

def Node.collectStaticRoutes (pre : Bytes) (compiled : CompiledRoutes R H) :
    Node R H → CompiledRoutes R H
  | ⟨_, staticChildren, _, _, _, _, _⟩ => Node.collectStaticChildren pre compiled staticChildren

def Node.collectStaticChildren (pre : Bytes) (compiled : CompiledRoutes R H) :
    List (Bytes × Node R H) → CompiledRoutes R H
  | [] => compiled
  | (value, child) :: children =>
    let path := pre ++ value
    let compiled := if child.isLeaf then child.compileHandlers path compiled else compiled
    let compiled := Node.collectStaticRoutes (path ++ Bytes.ascii "/") compiled child
    Node.collectStaticChildren pre compiled children

end

def Tree.compileStaticRoutes (t : Tree R H) : CompiledRoutes R H :=
  Node.collectStaticRoutes (Bytes.ascii "/") (t.root.compileHandlers (Bytes.ascii "/") ∅) t.root

theorem scanParts_eq (parts : List Bytes) (piece path : Bytes) (hpiece : slash ∉ piece) :
    scanParts parts piece path = parts ++ fields slash (piece ++ path) := by
  induction path generalizing parts piece with
  | nil =>
    by_cases h : piece = []
    · simp [scanParts, h, fields_nil]
    · simp [scanParts, h, fields_of_not_mem hpiece]
  | cons b path ih =>
    by_cases hb : b = slash
    · subst hb
      rw [scanParts, ih _ _ (by simp), fields_append]
      by_cases h : piece = []
      · simp [h, fields_nil]
      · simp [h, fields_of_not_mem hpiece]
    · have hnext : slash ∉ piece ++ [b] := by
        simpa [hpiece] using fun he : slash = b => hb he.symm
      rw [scanParts, if_neg hb, ih _ _ hnext, List.append_assoc, List.singleton_append]

theorem appendPathParts_eq (parts : List Bytes) (path : Bytes) :
    appendPathParts parts path = parts ++ fields slash path :=
  scanParts_eq parts [] path (by simp)

theorem appendPathParts_trim (path : Bytes) :
    appendPathParts [] (trim slash path) = fields slash path := by
  rw [appendPathParts_eq, fields_trim, List.nil_append]

theorem Tree.matchLazy_eq (t : Tree R H) (method : Bytes) (hparts : fields slash path ≠ []) :
    t.matchLazy method path = t.root.matchParts method (fields slash path) [] := by
  have htrim : trim slash path ≠ [] := (trim_eq_nil_iff slash path).not.mpr hparts
  simp only [matchLazy, if_neg htrim, appendPathParts_trim]

theorem Tree.matchLazy_root (t : Tree R H) (method : Bytes)
    (hparts : fields slash path = []) : t.matchLazy method path =
      (t.root.handlers.lookup method).map fun result => buildMatchResult result [] := by
  have htrim : trim slash path = [] := (trim_eq_nil_iff slash path).mpr hparts
  simp only [matchLazy, if_pos htrim]

end Router
