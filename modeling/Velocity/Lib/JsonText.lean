import Velocity.Lib.Json

/-! JSON texts: a reader for whole values, bounded in depth, and what it reads from an object of
strings that need no escapes. -/

namespace Json

open List Byte

inductive Value
  | null
  | bool (b : Bool)
  | number (text : Bytes)
  | str (s : Bytes)
  | array (vs : List Value)
  | object (ms : List (Bytes × Value))

def isSpace (b : Byte) : Bool := b = 0x20 ∨ b = 0x09 ∨ b = 0x0A ∨ b = 0x0D

def skip (s : Bytes) : Bytes := s.dropWhile isSpace

def expect (c : Byte) (s : Bytes) : Option Bytes :=
  match skip s with
  | [] => none
  | b :: s => if b = c then some s else none

def readText : Nat → Bytes → Option (Bytes × Bytes)
  | 0, _ => none
  | _ + 1, [] => none
  | n + 1, b :: s =>
    if b = quoteMark then some ([], s)
    else
      match readChar (b :: s) with
      | none => none
      | some (u, s) => (readText n s).map fun p => (u ++ p.1, p.2)

def isDigit (b : Byte) : Bool := 48 ≤ b.val ∧ b.val ≤ 57

def readDigits (s : Bytes) : Option (Bytes × Bytes) :=
  if s.takeWhile isDigit = [] then none else some (s.takeWhile isDigit, s.dropWhile isDigit)

/-- The integral part: no digit stands behind a leading zero. -/
def readWhole : Bytes → Option (Bytes × Bytes)
  | [] => none
  | b :: s => if b = Byte.of '0' then some ([b], s) else readDigits (b :: s)

def readFraction : Bytes → Option (Bytes × Bytes)
  | [] => some ([], [])
  | b :: s =>
    if b = Byte.of '.' then (readDigits s).map fun p => (b :: p.1, p.2) else some ([], b :: s)

def readExponent : Bytes → Option (Bytes × Bytes)
  | [] => some ([], [])
  | b :: s =>
    if b = Byte.of 'e' ∨ b = Byte.of 'E' then
      match s with
      | [] => none
      | c :: s' =>
        if c = Byte.of '+' ∨ c = Byte.of '-' then
          (readDigits s').map fun p => (b :: c :: p.1, p.2)
        else (readDigits s).map fun p => (b :: p.1, p.2)
    else some ([], b :: s)

def readNumber (s : Bytes) : Option (Bytes × Bytes) := do
  let (sign, s) := match s with
    | [] => ([], [])
    | b :: s' => if b = Byte.of '-' then ([b], s') else ([], s)
  let (whole, s) ← readWhole s
  let (fraction, s) ← readFraction s
  let (exponent, s) ← readExponent s
  some (sign ++ whole ++ fraction ++ exponent, s)

def readLiteral (word : Bytes) (v : Value) (s : Bytes) : Option (Value × Bytes) :=
  if s.take word.length = word then some (v, s.drop word.length) else none

mutual

def readValue : Nat → Nat → Bytes → Option (Value × Bytes)
  | 0, _, _ => none
  | n + 1, depth, s =>
    match skip s with
    | [] => none
    | b :: s =>
      if b = quoteMark then (readText n s).map fun p => (.str p.1, p.2)
      else if b = Byte.of '\x7b' then
        match depth, expect (Byte.of '\x7d') s with
        | 0, _ => none
        | _ + 1, some s => some (.object [], s)
        | depth + 1, none => (readMembers n depth s).map fun p => (.object p.1, p.2)
      else if b = Byte.of '[' then
        match depth, expect (Byte.of ']') s with
        | 0, _ => none
        | _ + 1, some s => some (.array [], s)
        | depth + 1, none => (readElements n depth s).map fun p => (.array p.1, p.2)
      else if b = Byte.of 't' then readLiteral (Bytes.ascii "true") (.bool true) (b :: s)
      else if b = Byte.of 'f' then readLiteral (Bytes.ascii "false") (.bool false) (b :: s)
      else if b = Byte.of 'n' then readLiteral (Bytes.ascii "null") .null (b :: s)
      else (readNumber (b :: s)).map fun p => (.number p.1, p.2)

def readElements : Nat → Nat → Bytes → Option (List Value × Bytes)
  | 0, _, _ => none
  | n + 1, depth, s => do
    let (v, s) ← readValue n depth s
    match expect (Byte.of ',') s with
    | some s =>
      let (vs, s) ← readElements n depth s
      some (v :: vs, s)
    | none =>
      let s ← expect (Byte.of ']') s
      some ([v], s)

def readMembers : Nat → Nat → Bytes → Option (List (Bytes × Value) × Bytes)
  | 0, _, _ => none
  | n + 1, depth, s => do
    let s ← expect quoteMark s
    let (key, s) ← readText n s
    let s ← expect (Byte.of ':') s
    let (v, s) ← readValue n depth s
    match expect (Byte.of ',') s with
    | some s =>
      let (ms, s) ← readMembers n depth s
      some ((key, v) :: ms, s)
    | none =>
      let s ← expect (Byte.of '\x7d') s
      some ([(key, v)], s)

end

def parse (depth : Nat) (s : Bytes) : Option Value :=
  match readValue (s.length + 1) depth s with
  | none => none
  | some (v, rest) => if skip rest = [] then some v else none

def plain (b : Byte) : Bool := 0x20 ≤ b.val ∧ b.val < 0x80 ∧ b ≠ quoteMark ∧ b ≠ backslash

def memberText (m : Bytes × Bytes) : Bytes :=
  quoteMark :: m.1 ++ quoteMark :: Byte.of ':' :: quoteMark :: m.2 ++ [quoteMark]

def objectText (ms : List (Bytes × Bytes)) : Bytes :=
  Byte.of '\x7b' :: Bytes.join [Byte.of ','] (ms.map memberText) ++ [Byte.of '\x7d']

theorem expect_cons {b c : Byte} (hb : isSpace b = false) (s : Bytes) :
    expect c (b :: s) = if b = c then some s else none := by
  have hskip : skip (b :: s) = b :: s := dropWhile_cons_of_neg (by simp [hb])
  rw [expect, hskip]

variable {n : Nat} {s : Bytes} {ms : List (Bytes × Bytes)}

theorem readText_plain (h : ∀ b ∈ s, plain b = true) (hn : s.length < n)
    (t : Bytes) : readText n (s ++ quoteMark :: t) = some (s, t) := by
  induction s generalizing n with
  | nil =>
    obtain ⟨m, rfl⟩ : ∃ m, n = m + 1 := ⟨n - 1, by simp only [length_nil] at hn; omega⟩
    simp [readText]
  | cons b s ih =>
    simp only [length_cons] at hn
    obtain ⟨m, rfl⟩ : ∃ m, n = m + 1 := ⟨n - 1, by omega⟩
    have hb := h b mem_cons_self
    simp only [plain, decide_eq_true_eq] at hb
    obtain ⟨hlow, hhigh, hquote, hslash⟩ := hb
    have hlow' : ¬b.val < 0x20 := by omega
    have hchar : readChar (b :: (s ++ quoteMark :: t)) = some ([b], s ++ quoteMark :: t) := by
      simp only [readChar, if_neg hslash, hquote, hlow', or_self, if_false, if_pos hhigh]
    have hrest := ih (fun c hc => h c (mem_cons_of_mem _ hc)) (n := m) (by omega)
    rw [cons_append, readText, if_neg hquote, hchar]
    simp [hrest]

theorem readValue_string (h : ∀ b ∈ s, plain b = true)
    (hn : s.length + 1 < n) (depth : Nat) (t : Bytes) :
    readValue n depth (quoteMark :: s ++ quoteMark :: t) = some (.str s, t) := by
  obtain ⟨m, rfl⟩ : ∃ m, n = m + 1 := ⟨n - 1, by omega⟩
  have hskip : skip (quoteMark :: (s ++ quoteMark :: t)) = quoteMark :: (s ++ quoteMark :: t) :=
    dropWhile_cons_of_neg (by decide)
  have htext := readText_plain h (n := m) (by omega) t
  rw [cons_append, readValue, hskip]
  simp [htext]

theorem readMembers_member {m : Bytes × Bytes} (hkey : ∀ b ∈ m.1, plain b = true)
    (hval : ∀ b ∈ m.2, plain b = true) (hn : (memberText m).length < n) (depth : Nat) (t : Bytes) :
    readMembers n depth (memberText m ++ t) = match expect (Byte.of ',') t with
      | some s => (readMembers (n - 1) depth s).map fun p => ((m.1, .str m.2) :: p.1, p.2)
      | none => (expect (Byte.of '\x7d') t).map fun s => ([(m.1, .str m.2)], s) := by
  have hlen : m.1.length + m.2.length + 5 = (memberText m).length := by
    simp only [memberText, length_cons, length_append, length_nil]
    omega
  obtain ⟨k, rfl⟩ : ∃ k, n = k + 1 := ⟨n - 1, by omega⟩
  have hexpand : memberText m ++ t = quoteMark :: (m.1 ++ quoteMark :: (of ':' ::
      (quoteMark :: m.2 ++ quoteMark :: t))) := by
    simp [memberText]
  have htext := readText_plain hkey (n := k) (by omega)
  have hvalue := readValue_string hval (n := k) (by omega) depth t
  have hquote := expect_cons (c := quoteMark) (show isSpace quoteMark = false by decide)
    (m.1 ++ quoteMark :: (of ':' :: (quoteMark :: m.2 ++ quoteMark :: t)))
  have hcolon := expect_cons (c := of ':') (show isSpace (of ':') = false by decide)
    (quoteMark :: m.2 ++ quoteMark :: t)
  rw [if_pos rfl] at hquote hcolon
  rw [hexpand, readMembers]
  simp only [hquote, htext, hcolon, hvalue, Option.bind_eq_bind, Option.bind_some, Nat.add_sub_cancel]
  cases expect (of ',') t with
  | none =>
    simp only [Option.map_eq_bind]
    rfl
  | some s =>
    simp only [Option.map_eq_bind]
    rfl

theorem readMembers_text (hne : ms ≠ [])
    (h : ∀ m ∈ ms, (∀ b ∈ m.1, plain b = true) ∧ ∀ b ∈ m.2, plain b = true)
    (hn : (Bytes.join [Byte.of ','] (ms.map memberText)).length < n) (depth : Nat) (t : Bytes) :
    readMembers n depth (Bytes.join [Byte.of ','] (ms.map memberText) ++ Byte.of '\x7d' :: t) =
      some (ms.map fun m => (m.1, .str m.2), t) := by
  induction ms generalizing n with
  | nil => exact absurd rfl hne
  | cons m ms ih =>
    obtain ⟨hkey, hval⟩ := h m mem_cons_self
    cases ms with
    | nil =>
      have hlen : (memberText m).length < n := hn
      have hread := readMembers_member hkey hval hlen depth (of '\x7d' :: t)
      exact hread
    | cons m' ms =>
      have hjoin : Bytes.join [of ','] ((m :: m' :: ms).map memberText) =
          memberText m ++ of ',' :: Bytes.join [of ','] ((m' :: ms).map memberText) := by
        simp [Bytes.join]
      rw [hjoin, length_append, length_cons] at hn
      have hrest := ih (by simp) (fun x hx => h x (mem_cons_of_mem _ hx)) (n := n - 1)
        (by omega)
      have hread := readMembers_member hkey hval (n := n) (by omega) depth
      rw [hjoin, append_assoc, cons_append, hread]
      show (readMembers (n - 1) depth _).map _ = _
      rw [hrest]
      rfl

theorem parse_objectText (hne : ms ≠ [])
    (h : ∀ m ∈ ms, (∀ b ∈ m.1, plain b = true) ∧ ∀ b ∈ m.2, plain b = true) (depth : Nat) :
    parse (depth + 1) (objectText ms) = some (.object (ms.map fun m => (m.1, .str m.2))) := by
  have hskip : ∀ s, skip (of '\x7b' :: s) = of '\x7b' :: s :=
    fun s => dropWhile_cons_of_neg (by decide)
  have hclose : expect (of '\x7d')
      (Bytes.join [of ','] (ms.map memberText) ++ [of '\x7d']) = none := by
    obtain ⟨m, ms, rfl⟩ := exists_cons_of_ne_nil hne
    have hhead : ∃ s, Bytes.join [of ','] ((m :: ms).map memberText) ++ [of '\x7d'] =
        quoteMark :: s := by
      cases ms with
      | nil => exact ⟨_, rfl⟩
      | cons m' ms => exact ⟨_, rfl⟩
    obtain ⟨s, hs⟩ := hhead
    rw [hs, expect_cons (by decide), if_neg (by decide)]
  have hread := readMembers_text hne h (n := (objectText ms).length)
    (by simp only [objectText, length_append, length_cons]; omega) depth []
  have hvalue : readValue ((objectText ms).length + 1) (depth + 1) (objectText ms) =
      some (.object (ms.map fun m => (m.1, .str m.2)), []) := by
    generalize (objectText ms).length = n at hread
    rw [objectText, cons_append, readValue, hskip]
    simp only [show of '\x7b' ≠ quoteMark by decide, if_false, if_true, hclose, hread, Option.map_some]
  rw [parse, hvalue]
  rfl

end Json
