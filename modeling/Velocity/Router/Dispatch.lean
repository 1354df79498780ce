import Velocity.Lib.Url
import Velocity.Router.Matching

/-! How the router answers a request: the compiled static routes before the tree, and the methods
it names when it has no route. -/

namespace Router

open List Node Router.Tree Assoc
open Bytes (ascii)

structure Request where
  method : Bytes
  url : URL
  /-- A method is a token. -/
  method_token : Byte.of ' ' ∉ method

structure HTTPError where
  status : Nat
  message : Bytes
  header : FMap Bytes Bytes

structure VelocityRouter (R H : Type) [Regexp R] where
  tree : Tree R H
  compiledRoutes : Option (CompiledRoutes R H)

def hasCRLF (s : Bytes) : Bool := s.any fun b => b = 0x0d ∨ b = 0x0a

def HTTPError.withHeader (e : HTTPError) (key value : Bytes) : HTTPError :=
  if key = [] ∨ hasCRLF key ∨ hasCRLF value then e
  else { e with header := e.header.insert key value }

variable {R H : Type} [Regexp R]

variable (r : VelocityRouter R H) (req : Request)

def VelocityRouter.commit (tree : Tree R H) : VelocityRouter R H :=
  ⟨tree, some tree.compileStaticRoutes⟩

def VelocityRouter.clearCompiledRoutes : VelocityRouter R H :=
  { r with compiledRoutes := none }

abbrev anyMethod : Bytes := ascii "ANY"

def CompiledRoutes.find (compiled : CompiledRoutes R H) (method path : Bytes) :
    Option (MatchResult R H) :=
  (compiled.lookup (compiledKey method path)).or (compiled.lookup (compiledKey anyMethod path))

def VelocityRouter.matchRoute : Option (MatchResult R H) :=
  let path := req.url.escapedPath
  (r.compiledRoutes.bind fun compiled => compiled.find req.method path).or <|
  (r.tree.matchLazy req.method path).or <|
  r.tree.matchLazy anyMethod path

def unmatchedHTTPError (allowed : List Bytes) : HTTPError :=
  if allowed = [] then ⟨404, ascii "Not Found", ∅⟩
  else
    HTTPError.withHeader ⟨405, ascii "Method Not Allowed", ∅⟩ (ascii "Allow")
      (Bytes.join (ascii ", ") allowed)

def VelocityRouter.unmatchedError : HTTPError :=
  let allowed := r.tree.allowedMethods req.url.escapedPath
  unmatchedHTTPError (if req.method ∈ allowed ∨ anyMethod ∈ allowed then [] else allowed)

section AllowedMethods

def appendMethods (methods : List Bytes) (e : Endpoint R H) : List Bytes :=
  e.handlers.keys.foldl (fun methods method => Assoc.addKey method methods) methods

theorem Node.appendWildcardMethods_eq (n : Node R H) (parts methods : List Bytes) :
    n.appendWildcardMethods methods = (n.wildcardEndpoints parts).foldl appendMethods methods := by
  unfold appendWildcardMethods wildcardEndpoints
  cases n.wildcardChild <;> rfl

theorem foldl_appendMethods_under (k : Key) (parts methods : List Bytes) (l : List (Endpoint R H)) :
    (l.map (Endpoint.under k parts)).foldl appendMethods methods = l.foldl appendMethods methods := by
  rw [foldl_map]
  rfl

theorem Node.appendAllowedMethods_eq (parts : List Bytes) (n : Node R H) (methods : List Bytes) :
    n.appendAllowedMethods parts methods = (n.endpoints parts).foldl appendMethods methods := by
  induction parts generalizing n methods with
  | nil =>
    rw [appendAllowedMethods, appendWildcardMethods_eq n []]
    rfl
  | cons part remaining ih =>
    have hstatic (methods : List Bytes) :
        (n.staticEndpoints part fun child => child.endpoints remaining).foldl appendMethods methods =
          (get part n.staticChildren).elim methods fun child =>
            child.appendAllowedMethods remaining methods := by
      unfold staticEndpoints
      cases get part n.staticChildren with
      | none => rfl
      | some child => simp [foldl_appendMethods_under, ih]
    have hregex (methods : List Bytes) :
        (n.regexEndpoints part fun child => child.endpoints remaining).foldl appendMethods methods =
          n.regexChildren.foldl (fun methods child =>
            if child.segment.accepts part then child.appendAllowedMethods remaining methods
            else methods) methods := by
      simp only [regexEndpoints, foldl_flatMap, foldl_appendMethods_under, foldl_filter, ih]
    have hparam (methods : List Bytes) :
        (n.paramEndpoints part fun child => child.endpoints remaining).foldl appendMethods methods =
          n.paramChild.elim methods fun child => child.appendAllowedMethods remaining methods := by
      unfold paramEndpoints
      cases n.paramChild with
      | none => rfl
      | some child => simp [foldl_appendMethods_under, ih]
    rw [endpoints, foldl_append, foldl_append, foldl_append, hstatic, hregex,
      hparam, ← appendWildcardMethods_eq, appendAllowedMethods]
    cases get part n.staticChildren <;> cases n.paramChild <;> rfl

variable {ks methods : List Bytes} {m : Bytes} {l : List (Endpoint R H)}

theorem mem_foldl_addKey {l : List Bytes} :
    m ∈ ks.foldl (fun methods method => Assoc.addKey method methods) l ↔ m ∈ l ∨ m ∈ ks := by
  induction ks generalizing l with
  | nil => simp
  | cons k ks ih =>
    rw [foldl_cons, ih, Assoc.mem_addKey, mem_cons, or_assoc]

theorem nodup_foldl_addKey {l : List Bytes} (h : l.Nodup) :
    (ks.foldl (fun methods method => Assoc.addKey method methods) l).Nodup := by
  induction ks generalizing l with
  | nil => exact h
  | cons k ks ih => exact ih (nodup_addKey h)

theorem mem_foldl_appendMethods :
    m ∈ l.foldl appendMethods methods ↔
      m ∈ methods ∨ ∃ e ∈ l, ∃ registered, e.handlers.lookup m = some registered := by
  induction l generalizing methods with
  | nil => simp
  | cons e l ih =>
    have hkeys : m ∈ e.handlers.keys ↔ ∃ registered, e.handlers.lookup m = some registered := by
      rw [← AList.mem_keys, ← AList.lookup_isSome, Option.isSome_iff_exists]
    rw [foldl_cons, ih, appendMethods, mem_foldl_addKey, hkeys, or_assoc]
    simp only [mem_cons, or_and_right, exists_or, exists_eq_left]

theorem nodup_foldl_appendMethods (h : methods.Nodup) : (l.foldl appendMethods methods).Nodup := by
  induction l generalizing methods with
  | nil => exact h
  | cons e l ih => exact ih (nodup_foldl_addKey h)

def Tree.collectedMethods (t : Tree R H) (path : Bytes) : List Bytes :=
  if Bytes.trim slash path = [] then t.root.appendHandlerMethods []
  else t.root.appendAllowedMethods (appendPathParts [] (Bytes.trim slash path)) []

theorem Tree.collectedMethods_nodup (t : Tree R H) (path : Bytes) :
    (t.collectedMethods path).Nodup := by
  unfold collectedMethods
  split
  · exact nodup_foldl_addKey nodup_nil
  · rw [appendAllowedMethods_eq]
    exact nodup_foldl_appendMethods nodup_nil

theorem Tree.mem_collectedMethods (t : Tree R H) (path m : Bytes) :
    m ∈ t.collectedMethods path ↔ (t.matchLazy m path).isSome = true := by
  unfold collectedMethods
  by_cases hparts : Bytes.fields slash path = []
  · rw [if_pos ((Bytes.trim_eq_nil_iff slash path).mpr hparts), matchLazy_root t m hparts,
      Option.isSome_map, AList.lookup_isSome, appendHandlerMethods, mem_foldl_addKey,
      AList.mem_keys]
    simp
  · have htrim : Bytes.trim slash path ≠ [] := (Bytes.trim_eq_nil_iff slash path).not.mpr hparts
    rw [if_neg htrim, appendPathParts_trim, appendAllowedMethods_eq, mem_foldl_appendMethods,
      matchLazy_eq t m hparts, matchParts_eq, findSome?_isSome_iff]
    simp [Endpoint.answer, Option.isSome_iff_exists]

theorem Tree.mem_allowedMethods (t : Tree R H) (path m : Bytes) :
    m ∈ t.allowedMethods path ↔ (t.matchPath m path).isSome = true := by
  rw [allowedMethods, mem_insertionSort, matchPath, Option.isSome_map]
  exact mem_collectedMethods t path m

theorem unmatchedHTTPError_status (allowed : List Bytes) :
    (unmatchedHTTPError allowed).status = if allowed = [] then 404 else 405 := by
  unfold unmatchedHTTPError HTTPError.withHeader
  split
  · rfl
  · split <;> rfl

def VelocityRouter.otherMethods (r : VelocityRouter R H) (req : Request) : List Bytes :=
  let allowed := r.tree.allowedMethods req.url.escapedPath
  if req.method ∈ allowed ∨ anyMethod ∈ allowed then [] else allowed

theorem VelocityRouter.otherMethods_eq_nil (r : VelocityRouter R H) (req : Request) :
    r.otherMethods req = [] ↔ (∀ m, (r.tree.matchPath m req.url.escapedPath).isSome = false) ∨
      (r.tree.matchPath req.method req.url.escapedPath).isSome = true ∨
      (r.tree.matchPath anyMethod req.url.escapedPath).isSome = true := by
  have hnil : r.tree.allowedMethods req.url.escapedPath = [] ↔
      ∀ m, (r.tree.matchPath m req.url.escapedPath).isSome = false := by
    rw [eq_nil_iff_forall_not_mem]
    apply forall_congr'
    intro m
    rw [mem_allowedMethods, Bool.not_eq_true]
  have hserved := mem_allowedMethods r.tree req.url.escapedPath
  unfold VelocityRouter.otherMethods
  simp only [hserved]
  split
  case isTrue h => simp [h]
  case isFalse h => rw [hnil, or_iff_left h]

theorem unmatchedError_methods (r : VelocityRouter R H) :
    (∀ path, (r.tree.allowedMethods path).Nodup ∧ (r.tree.allowedMethods path).Pairwise (· ≤ ·) ∧
      ∀ m, m ∈ r.tree.allowedMethods path ↔ (r.tree.matchPath m path).isSome = true) ∧
    ∀ req : Request,
      ((r.unmatchedError req).status = 404 ↔
        (∀ m, (r.tree.matchPath m req.url.escapedPath).isSome = false) ∨
        (r.tree.matchPath req.method req.url.escapedPath).isSome = true ∨
        (r.tree.matchPath anyMethod req.url.escapedPath).isSome = true) ∧
      (r.matchRoute req = none → ((r.unmatchedError req).status = 404 ↔
        ∀ m, (r.tree.matchPath m req.url.escapedPath).isSome = false)) ∧
      ((r.unmatchedError req).status ≠ 404 →
        r.unmatchedError req = HTTPError.withHeader ⟨405, Bytes.ascii "Method Not Allowed", ∅⟩
          (Bytes.ascii "Allow")
          (Bytes.join (Bytes.ascii ", ") (r.tree.allowedMethods req.url.escapedPath)) ∧
        r.tree.allowedMethods req.url.escapedPath ≠ []) := by
  have hstatus (req : Request) : (r.unmatchedError req).status = 404 ↔ r.otherMethods req = [] := by
    have hh : (r.unmatchedError req).status = if r.otherMethods req = [] then 404 else 405 :=
      unmatchedHTTPError_status _
    rw [hh]
    split <;> simp_all
  constructor
  · intro path
    have hperm := perm_insertionSort (· ≤ ·) (r.tree.collectedMethods path)
    exact ⟨hperm.nodup_iff.mpr (r.tree.collectedMethods_nodup path),
      pairwise_insertionSort _ _, r.tree.mem_allowedMethods path⟩
  · intro req
    refine ⟨?_, ?_, ?_⟩
    · rw [hstatus, VelocityRouter.otherMethods_eq_nil]
    · intro hnone
      -- An unmatched request is served neither by its own method nor by ANY.
      obtain ⟨-, htree⟩ := Option.or_eq_none_iff.mp hnone
      obtain ⟨hown, hany⟩ := Option.or_eq_none_iff.mp htree
      rw [hstatus, VelocityRouter.otherMethods_eq_nil]
      simp [matchPath, hown, hany]
    · intro hne
      rw [Ne, hstatus] at hne
      have hkept : r.otherMethods req = r.tree.allowedMethods req.url.escapedPath := by
        unfold VelocityRouter.otherMethods at hne ⊢
        simp only at hne ⊢
        split
        case isTrue h => simp [h] at hne
        case isFalse => rfl
      have herr : r.unmatchedError req = unmatchedHTTPError (r.otherMethods req) := rfl
      rw [herr, unmatchedHTTPError, if_neg hne, hkept]
      rw [hkept] at hne
      exact ⟨rfl, hne⟩

/-- A request that a middleware has rewritten into one the tree serves. -/
def getA : Request := ⟨ascii "GET", ⟨ascii "/a", [], []⟩, by decide⟩

def oneRouteTree : Tree PlainText Nat :=
  (newTree.insertWithName (ascii "GET") (ascii "/a") 1 []).2

theorem rewritten_request_404 :
    ((VelocityRouter.commit oneRouteTree).unmatchedError getA).status = 404 ∧
      (oneRouteTree.matchPath (Bytes.ascii "GET") getA.url.escapedPath).isSome = true := by
  decide +kernel

end AllowedMethods

end Router
