import Mathlib.Data.List.Basic

/-!
# Glob matching

`str.Is` turns a glob into the text of a regular expression: `regexp.QuoteMeta` quotes all of it,
two textual replacements un-quote the wildcards, and the result stands between `^` and `$`.  Strings
of valid UTF-8 are the lists of their characters.  The cache of compiled patterns cannot be observed.
-/

namespace Velocity.Str

/-! ### The regular expressions in use -/

inductive Node
  | one (ok : Char → Bool)
  | many (ok : Char → Bool)

/-- Without the flag `s`, `.` is any character but LF. -/
def dot (c : Char) : Bool := c ≠ '\n'

def lit (c : Char) : Node := .one (· = c)

/-- The characters with a meaning in a pattern. -/
def special : List Char :=
  ['\\', '.', '+', '*', '?', '(', ')', '|', '[', ']', '{', '}', '^', '$']

/-- The part of the RE2 grammar between `^` and `$` that has literals, `.` and `.*`. -/
def parse : List Char → Option (List Node)
  | ['$'] => some []
  | '.' :: '*' :: s => (parse s).map (.many dot :: ·)
  | '.' :: s => (parse s).map (.one dot :: ·)
  | '\\' :: c :: s => if c ∈ special then (parse s).map (lit c :: ·) else none
  | c :: s => if c ∈ special then none else (parse s).map (lit c :: ·)
  | [] => none

def compile : List Char → Option (List Node)
  | '^' :: s => parse s
  | _ => none

/-- `rest` after as many characters as it takes. -/
def matchMany (ok : Char → Bool) (rest : List Char → Bool) : List Char → Bool
  | [] => rest []
  | x :: v => rest (x :: v) || (ok x && matchMany ok rest v)

/-- A pattern between `^` and `$` matches the whole text. -/
def matchString : List Node → List Char → Bool
  | [], v => v.isEmpty
  | .one _ :: _, [] => false
  | .one ok :: re, x :: v => ok x && matchString re v
  | .many ok :: re, v => matchMany ok (matchString re) v

/-! ### The code -/

def quoteMeta (s : List Char) : List Char :=
  s.flatMap fun c => if c ∈ special then ['\\', c] else [c]

/-- `strings.ReplaceAll` of a text of two characters. -/
def replaceAll (a b : Char) (new : List Char) : List Char → List Char
  | x :: y :: s =>
    if x = a ∧ y = b then new ++ replaceAll a b new s else x :: replaceAll a b new (y :: s)
  | s => s

def matchSafe (pattern value : List Char) : Option Bool :=
  (compile pattern).map (matchString · value)

def isSafe (pattern value : List Char) : Option Bool :=
  if pattern = value then some true
  else
    let p := quoteMeta pattern
    let p := replaceAll '\\' '*' ['.', '*'] p
    let p := replaceAll '\\' '?' ['.'] p
    matchSafe ('^' :: p ++ ['$']) value

def is (pattern value : List Char) : Bool := (isSafe pattern value).getD false

/-- What may stand for a character of a glob. -/
def Fills (c : Char) (w : List Char) : Prop :=
  if c = '?' then ∃ x, w = [x] else if c = '*' then True else w = [c]

/-- The value is the pattern with each of its characters replaced. -/
def Glob : List Char → List Char → Prop
  | [], v => v = []
  | c :: p, v => ∃ w u, v = w ++ u ∧ Fills c w ∧ Glob p u

/-! ### The text of the regular expression -/

variable {a b c : Char} {p s u v w new : List Char} {f : Char → List Char}

theorem head_append (hu : u.head? ≠ some b) (hs : s.head? ≠ some b) : (u ++ s).head? ≠ some b := by
  cases u with
  | nil => exact hs
  | cons x u => exact hu

theorem head_flatMap (hf : ∀ c, (f c).head? ≠ some b) : (s.flatMap f).head? ≠ some b := by
  induction s with
  | nil => nofun
  | cons c s ih => exact head_append (hf c) ih

theorem replaceAll_append (hs : s.head? ≠ some b) (hu : b ∉ u) :
    replaceAll a b new (u ++ s) = u ++ replaceAll a b new s := by
  induction u with
  | nil => rfl
  | cons x u ih =>
    have hu := List.not_mem_of_not_mem_cons hu
    have hhead := head_append (fun h => hu (List.mem_of_mem_head? h)) hs
    rw [List.cons_append, List.cons_append, ← ih hu]
    cases hus : u ++ s with
    | nil => rfl
    | cons y t => exact if_neg fun h => hhead (by rw [hus, h.2, List.head?_cons])

/-- A replacement goes token by token where only the token replaced has the second character. -/
theorem replaceAll_flatMap (hab : a ≠ b) (hb : f b = [a, b]) (hf : ∀ c, c ≠ b → b ∉ f c) :
    replaceAll a b new (s.flatMap f) = s.flatMap fun c => if c = b then new else f c := by
  have hhead : ∀ c, (f c).head? ≠ some b := by
    intro c h
    by_cases hc : c = b
    · rw [hc, hb] at h
      exact hab (Option.some.inj h)
    · exact hf c hc (List.mem_of_mem_head? h)
  induction s with
  | nil => rfl
  | cons c s ih =>
    rw [List.flatMap_cons, List.flatMap_cons, ← ih]
    by_cases hc : c = b
    · rw [hc, hb, if_pos rfl]
      exact if_pos ⟨rfl, rfl⟩
    · rw [if_neg hc, replaceAll_append (head_flatMap hhead) (hf c hc)]

/-- What a character of the glob becomes in the pattern. -/
def token (c : Char) : List Char :=
  if c = '?' then ['.'] else if c = '*' then ['.', '*']
  else if c ∈ special then ['\\', c] else [c]

def node (c : Char) : Node :=
  if c = '?' then .one dot else if c = '*' then .many dot else lit c

theorem replaceAll_quoteMeta :
    replaceAll '\\' '?' ['.'] (replaceAll '\\' '*' ['.', '*'] (quoteMeta p)) = p.flatMap token := by
  rw [quoteMeta, replaceAll_flatMap (by decide) rfl, replaceAll_flatMap (by decide) rfl]
  · rfl
  · grind
  · grind

theorem parse_token (h : s.head? ≠ some '*') :
    parse (token c ++ s) = (parse s).map (node c :: ·) := by
  unfold token node
  split_ifs with hq hs hc
  · exact parse.eq_3 s fun u hu => h (congrArg List.head? hu)
  · rfl
  · exact if_pos hc
  · rw [List.singleton_append, parse, if_neg hc] <;>
      (intros; subst_vars; exact hc (by decide))

theorem parse_tokens : parse (p.flatMap token ++ ['$']) = some (p.map node) := by
  have hhead : ∀ c, (token c).head? ≠ some '*' := by grind [token]
  induction p with
  | nil => rfl
  | cons c p ih =>
    have hs := head_append (head_flatMap hhead (s := p)) (s := ['$']) (by decide)
    rw [List.flatMap_cons, List.append_assoc, parse_token hs, ih]
    rfl

/-! ### What it matches -/

def Node.Takes : Node → List Char → Prop
  | .one ok, w => ∃ x, w = [x] ∧ ok x
  | .many ok, w => ∀ x ∈ w, ok x

theorem matchMany_iff {ok : Char → Bool} {rest : List Char → Bool} :
    matchMany ok rest v = true ↔ ∃ w u, v = w ++ u ∧ (∀ x ∈ w, ok x) ∧ rest u = true := by
  induction v with
  | nil => simp [matchMany]
  | cons x v ih =>
    rw [matchMany, Bool.or_eq_true, Bool.and_eq_true, ih]
    constructor
    · rintro (hu | ⟨hx, w, u, rfl, hw, hu⟩)
      · exact ⟨[], x :: v, rfl, nofun, hu⟩
      · exact ⟨x :: w, u, rfl, List.forall_mem_cons.mpr ⟨hx, hw⟩, hu⟩
    · rintro ⟨w, u, heq, hw, hu⟩
      cases w with
      | nil => exact .inl (heq ▸ hu)
      | cons y w =>
        obtain ⟨rfl, rfl⟩ := List.cons.inj heq
        have hw := List.forall_mem_cons.mp hw
        exact .inr ⟨hw.1, w, u, rfl, hw.2, hu⟩

theorem matchString_cons {n : Node} {re : List Node} :
    matchString (n :: re) v = true ↔
      ∃ w u, v = w ++ u ∧ n.Takes w ∧ matchString re u = true := by
  cases n with
  | one ok => cases v <;> simp [matchString, Node.Takes]
  | many ok => exact matchMany_iff

/-- A wildcard takes no LF, so each character of the glob takes only its own. -/
theorem takes_node : (node c).Takes w ↔ Fills c w ∧ w.count '\n' = [c].count '\n' := by
  unfold node Fills
  split_ifs with hq hs
  · grind [Node.Takes, dot]
  · grind [Node.Takes, dot, List.count_eq_zero]
  · grind [Node.Takes, lit]

theorem Fills.count_le (h : Fills c w) : [c].count '\n' ≤ w.count '\n' := by
  grind [Fills]

theorem count_cons : (c :: p).count '\n' = [c].count '\n' + p.count '\n' := by
  rw [← List.singleton_append, List.count_append]

theorem Glob.count_le (h : Glob p v) : p.count '\n' ≤ v.count '\n' := by
  induction p generalizing v with
  | nil => exact Nat.zero_le _
  | cons c p ih =>
    obtain ⟨w, u, rfl, hw, hu⟩ := h
    rw [List.count_append, count_cons (c := c)]
    exact Nat.add_le_add hw.count_le (ih hu)

theorem matchString_iff :
    matchString (p.map node) v = true ↔ Glob p v ∧ v.count '\n' = p.count '\n' := by
  induction p generalizing v with
  | nil => cases v <;> simp [matchString, Glob]
  | cons c p ih =>
    rw [List.map_cons, matchString_cons, count_cons (c := c)]
    simp only [takes_node, ih]
    constructor
    · rintro ⟨w, u, rfl, ⟨hw, hcw⟩, hu, hcu⟩
      exact ⟨⟨w, u, rfl, hw, hu⟩, by rw [List.count_append, hcw, hcu]⟩
    · rintro ⟨⟨w, u, rfl, hw, hu⟩, hc⟩
      have hcw := hw.count_le
      have hcu := hu.count_le
      rw [List.count_append] at hc
      exact ⟨w, u, rfl, ⟨hw, by omega⟩, hu, by omega⟩

theorem is_iff_glob (p v : List Char) :
    (is p v = true ↔ v = p ∨ Glob p v) ↔ (Glob p v → v.count '\n' = p.count '\n') := by
  rw [is, isSafe]
  split_ifs with h
  · simp [h]
  · simp only [replaceAll_quoteMeta, matchSafe, List.cons_append, compile, parse_tokens,
      Option.map_some, Option.getD_some, matchString_iff]
    grind

theorem star_skips_no_line_feed : Glob ['*'] ['\n'] ∧ is ['*'] ['\n'] = false :=
  ⟨⟨['\n'], [], rfl, trivial, rfl⟩, by decide⟩

end Velocity.Str
