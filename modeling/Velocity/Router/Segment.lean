import Velocity.Lib.Map
import Velocity.Lib.Percent

/-! Path patterns of the router: parsing into segments, matching one part of a path, and building
a path from parameter values. -/

/-- The regular expressions a pattern may use: Go's regexp package. -/
class Regexp (R : Type) where
  compile : Bytes → Except Bytes R
  matchString : R → Bytes → Bool

structure PlainText where
  text : Bytes
  deriving DecidableEq

instance : Regexp PlainText where
  compile expr :=
    if expr.tail.dropLast.all Percent.isAlphanumeric then .ok ⟨expr.tail.dropLast⟩
    else .error (Bytes.ascii "operator")
  matchString re value := re.text = value

namespace Router

open Except

abbrev slash : Byte := Byte.of '/'

inductive SegmentType where
  | static
  | param
  | regex
  | wildcard
  deriving DecidableEq, Repr

/-- The text a constraint is compiled from. -/
def anchored (pattern : Bytes) : Bytes := Bytes.ascii "^" ++ pattern ++ Bytes.ascii "$"

structure Segment (R : Type) [Regexp R] where
  type : SegmentType
  value : Bytes
  pattern : Option R := none
  rawPattern : Bytes := []
  compiled : type = .regex → ∃ re, Regexp.compile (anchored rawPattern) = .ok re ∧ pattern = some re

inductive SegmentError where
  /-- Reported as "invalid regex pattern", the quoted pattern, and the compiler's error. -/
  | invalidPattern (pattern err : Bytes)
  /-- Reported as "missing parameter: " and the name. -/
  | missingParameter (name : Bytes)
  deriving DecidableEq, Repr

section

variable {R : Type} [Regexp R] {segments : List (Segment R)} {path : Bytes}

def Segment.accepts (s : Segment R) (value : Bytes) : Bool :=
  match s.type with
  | .static => s.value = value
  | .param => true
  | .regex =>
    match s.pattern with
    | none => false
    | some re => Regexp.matchString re value
  | .wildcard => true

def regexSegment (name pattern : Bytes) : Except SegmentError (Segment R) :=
  match h : Regexp.compile (R := R) (anchored pattern) with
  | .error err => .error (.invalidPattern pattern err)
  | .ok re => .ok ⟨.regex, name, some re, pattern, fun _ => ⟨re, h, rfl⟩⟩

def parseSegment (part : Bytes) : Except SegmentError (Segment R) :=
  if part.head? ≠ some 0x7b ∨ part.getLast? ≠ some 0x7d then
    .ok ⟨.static, part, none, [], nofun⟩
  else
    let inner := part.tail.dropLast
    let colon := inner.idxOf (Byte.of ':')
    if colon = inner.length then
      .ok ⟨.param, inner, none, [], nofun⟩
    else
      let name := inner.take colon
      let pattern := inner.drop (colon + 1)
      if pattern = Bytes.ascii ".*" then
        .ok ⟨.wildcard, name, none, [], nofun⟩
      else regexSegment name pattern

def parseSegments (path : Bytes) : Except SegmentError (List (Segment R)) :=
  let path := Bytes.trim slash path
  if path = [] then .ok []
  else ((Bytes.split slash path).filter (· ≠ [])).mapM parseSegment

/-- Only a wildcard's value is written as it is. -/
def segmentText (params : FMap Bytes Bytes) (seg : Segment R) : Except SegmentError Bytes :=
  match seg.type with
  | .static => .ok seg.value
  | .param | .regex =>
    match params.lookup seg.value with
    | none => .error (.missingParameter seg.value)
    | some val => .ok (Percent.pathEscape val)
  | .wildcard =>
    match params.lookup seg.value with
    | none => .error (.missingParameter seg.value)
    | some val => .ok val

/-- The loop of `BuildPath` writes each segment after a slash. -/
def buildSegments (params : FMap Bytes Bytes) : List (Segment R) → Except SegmentError Bytes
  | [] => .ok []
  | seg :: segments => do
    let text ← segmentText params seg
    let rest ← buildSegments params segments
    .ok (slash :: text ++ rest)

def buildPath (segments : List (Segment R)) (params : FMap Bytes Bytes) :
    Except SegmentError Bytes :=
  if segments = [] then .ok (Bytes.ascii "/") else buildSegments params segments

attribute [local simp] Except.bind

theorem buildPath_head {params : FMap Bytes Bytes}
    (h : buildPath segments params = .ok path) : path.head? = some slash := by
  cases segments with
  | nil =>
    rw [← ok.inj h]
    rfl
  | cons seg segments =>
    rw [buildPath, if_neg (by simp), buildSegments] at h
    cases htext : segmentText params seg with
    | error err => simp [htext, bind] at h
    | ok text =>
      cases hrest : buildSegments params segments with
      | error err => simp [htext, hrest, bind] at h
      | ok rest =>
        have hpath : slash :: text ++ rest = path := by
          simpa [htext, hrest, bind] using h
        rw [← hpath]
        rfl

theorem parseSegments_eq (path : Bytes) :
    parseSegments (R := R) path = (Bytes.fields slash path).mapM parseSegment := by
  have hfields := Bytes.fields_trim slash path
  unfold parseSegments
  simp only
  split
  case isTrue h =>
    rw [← hfields, h]
    rfl
  case isFalse h => rw [← hfields, Bytes.fields]

variable {seg : Segment R}

theorem regexSegment_spec {name pattern : Bytes} (h : regexSegment name pattern = .ok seg) :
    seg.type = .regex ∧ seg.value = name ∧ seg.rawPattern = pattern := by
  unfold regexSegment at h
  split at h
  case h_1 => cases h
  case h_2 =>
    have hseg := ok.inj h
    rw [← hseg]
    exact ⟨rfl, rfl, rfl⟩

theorem parseSegment_static {part : Bytes} (h : parseSegment part = .ok seg)
    (hstatic : seg.type = .static) : seg.value = part := by
  unfold parseSegment at h
  simp only at h
  split at h
  · rw [← ok.inj h]
  · split at h
    · rw [← ok.inj h] at hstatic
      cases hstatic
    · split at h
      · rw [← ok.inj h] at hstatic
        cases hstatic
      · have hregex := (regexSegment_spec h).1
        rw [hstatic] at hregex
        cases hregex

theorem exists_of_mem_mapM {α β ε : Type} {f : α → Except ε β} {l : List α} {l' : List β}
    (h : l.mapM f = .ok l') {y : β} (hy : y ∈ l') : ∃ x ∈ l, f x = .ok y := by
  induction l generalizing l' with
  | nil =>
    have hnil : l' = [] := (ok.inj h).symm
    simp [hnil] at hy
  | cons x l ih =>
    cases hx : f x with
    | error e => simp [hx, bind] at h
    | ok b =>
      cases hl : l.mapM f with
      | error e => simp [hx, hl, bind] at h
      | ok bs =>
        have hcons : b :: bs = l' := by
          simpa [hx, hl, bind, pure, Except.pure] using h
        rw [← hcons] at hy
        rcases List.mem_cons.mp hy with he | hmem
        · exact ⟨x, List.mem_cons_self, by rw [hx, he]⟩
        · obtain ⟨x', hx', hf⟩ := ih hl hmem
          exact ⟨x', List.mem_cons_of_mem _ hx', hf⟩

theorem parseSegments_static (h : parseSegments path = .ok segments) (hseg : seg ∈ segments)
    (hstatic : seg.type = .static) : seg.value ≠ [] ∧ slash ∉ seg.value := by
  rw [parseSegments_eq] at h
  obtain ⟨part, hpart, hparse⟩ := exists_of_mem_mapM h hseg
  rw [parseSegment_static hparse hstatic]
  exact Bytes.mem_fields hpart

end

end Router
