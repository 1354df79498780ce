import Velocity.Lib.Utf8

/-! JSON strings: the text an encoder writes for a sequence of characters, and what a decoder
reads from it. -/

namespace Json

open List Utf8

def hexDigit (n : Nat) : Byte := Fin.ofNat 256 (if n < 10 then 48 + n else 87 + n)

def hexValue (b : Byte) : Option Nat :=
  if 48 ≤ b.val ∧ b.val ≤ 57 then some (b.val - 48)
  else if 97 ≤ b.val ∧ b.val ≤ 102 then some (b.val - 87)
  else if 65 ≤ b.val ∧ b.val ≤ 70 then some (b.val - 55)
  else none

def hex4 (n : Nat) : Bytes :=
  [hexDigit (n / 4096 % 16), hexDigit (n / 256 % 16), hexDigit (n / 16 % 16), hexDigit (n % 16)]

def readHex4 : Bytes → Option (Nat × Bytes)
  | a :: b :: c :: d :: s => do
    let a ← hexValue a
    let b ← hexValue b
    let c ← hexValue c
    let d ← hexValue d
    some (((a * 16 + b) * 16 + c) * 16 + d, s)
  | _ => none

abbrev quoteMark : Byte := Byte.of '"'

abbrev backslash : Byte := Byte.of '\\'

/-- The letter after the backslash for the bytes that have one. -/
def letter (b : Byte) : Option Byte :=
  if b = quoteMark then some quoteMark
  else if b = backslash then some backslash
  else if b.val = 8 then some (Byte.of 'b')
  else if b.val = 12 then some (Byte.of 'f')
  else if b.val = 10 then some (Byte.of 'n')
  else if b.val = 13 then some (Byte.of 'r')
  else if b.val = 9 then some (Byte.of 't')
  else none

def readLetter (e : Byte) : Option Byte :=
  if e = quoteMark ∨ e = backslash ∨ e = Byte.of '/' then some e
  else if e = Byte.of 'b' then some 8
  else if e = Byte.of 'f' then some 12
  else if e = Byte.of 'n' then some 10
  else if e = Byte.of 'r' then some 13
  else if e = Byte.of 't' then some 9
  else none

/-- One character inside the quotes; those of HTML and the two line separators are escaped. -/
def escape (u : Bytes) : Bytes :=
  match u with
  | [b] =>
    match letter b with
    | some e => [backslash, e]
    | none =>
      if b.val < 0x20 ∨ b = Byte.of '<' ∨ b = Byte.of '>' ∨ b = Byte.of '&' then
        backslash :: Byte.of 'u' :: hex4 b.val
      else [b]
  | _ =>
    if u = Utf8.encode 0x2028 then backslash :: Byte.of 'u' :: hex4 0x2028
    else if u = Utf8.encode 0x2029 then backslash :: Byte.of 'u' :: hex4 0x2029
    else u

/-- The bytes a code point escape stands for; a surrogate needs its other half. -/
def readRune (r : Nat) (s : Bytes) : Bytes × Bytes :=
  if 0xD800 ≤ r ∧ r < 0xE000 then
    match s with
    | b :: e :: s' =>
      if b = backslash ∧ e = Byte.of 'u' ∧ r < 0xDC00 then
        match readHex4 s' with
        | some (r', s') =>
          if 0xDC00 ≤ r' ∧ r' < 0xE000 then
            (Utf8.encode (0x10000 + (r - 0xD800) * 1024 + (r' - 0xDC00)), s')
          else (Utf8.replacement, s)
        | none => (Utf8.replacement, s)
      else (Utf8.replacement, s)
    | _ => (Utf8.replacement, s)
  else (Utf8.encode r, s)

/-- What the decoder reads first inside the quotes, and the bytes after it. -/
def readChar : Bytes → Option (Bytes × Bytes)
  | [] => none
  | c :: s =>
    if c = backslash then
      match s with
      | [] => none
      | e :: s =>
        if e = Byte.of 'u' then (readHex4 s).map fun p => readRune p.1 p.2
        else (readLetter e).map fun b => ([b], s)
    else if c = quoteMark ∨ c.val < 0x20 then none
    else if c.val < 0x80 then some ([c], s)
    else some ((Utf8.next (c :: s)).getD (Utf8.replacement, s))

def readChars : Nat → Bytes → Option Bytes
  | _, [] => some []
  | 0, _ :: _ => none
  | n + 1, s@(_ :: _) =>
    match readChar s with
    | none => none
    | some (u, rest) => (readChars n rest).map (u ++ ·)

def quote (us : List Bytes) : Bytes := quoteMark :: (us.flatMap escape ++ [quoteMark])

def unquote : Bytes → Option Bytes
  | [] => none
  | b :: s =>
    if b = quoteMark ∧ s.getLast? = some quoteMark then readChars s.dropLast.length s.dropLast
    else none

variable {n : Nat} {u : Bytes}

theorem hexValue_hexDigit (h : n < 16) : hexValue (hexDigit n) = some n := by
  have hall : ∀ n : Fin 16, hexValue (hexDigit n.val) = some n.val := by decide
  exact hall ⟨n, h⟩

theorem readHex4_hex4 (h : n < 65536) (t : Bytes) : readHex4 (hex4 n ++ t) = some (n, t) := by
  have ha := hexValue_hexDigit (n := n / 4096 % 16) (by omega)
  have hb := hexValue_hexDigit (n := n / 256 % 16) (by omega)
  have hc := hexValue_hexDigit (n := n / 16 % 16) (by omega)
  have hd := hexValue_hexDigit (n := n % 16) (by omega)
  have hn : ((n / 4096 % 16 * 16 + n / 256 % 16) * 16 + n / 16 % 16) * 16 + n % 16 = n := by omega
  simp [hex4, readHex4, ha, hb, hc, hd, hn]

theorem readChar_letter {b e : Byte} (h : letter b = some e) (t : Bytes) :
    readChar (backslash :: e :: t) = some ([b], t) := by
  have hall : ∀ b : Byte, ((letter b).all fun e =>
      decide (e ≠ Byte.of 'u' ∧ readLetter e = some b)) = true := by decide +kernel
  have hb := hall b
  rw [h, Option.all_some, decide_eq_true_eq] at hb
  simp [readChar, hb.1, hb.2]

theorem readChar_escape (h : Utf8.IsChar u) (t : Bytes) :
    readChar (escape u ++ t) = some (u, t) := by
  have hcode : ∀ r, r < 0xD800 →
      readChar (backslash :: Byte.of 'u' :: hex4 r ++ t) = some (encode r, t) := by
    intro r hr
    have hsurrogate : ¬(0xD800 ≤ r ∧ r < 0xE000) := by omega
    simp [readChar, readHex4_hex4 (show r < 65536 by omega), readRune, hsurrogate]
  rcases h.cases with ⟨b, rfl, hb⟩ | ⟨a, v, rfl, hv, ha⟩
  · rw [escape]
    cases hletter : letter b with
    | some e => exact readChar_letter hletter t
    | none =>
      simp only
      split
      · have hb' : encode b.val = [b] := by
          simp [encode, hb]
        rw [← hb']
        exact hcode b.val (by omega)
      · rename_i hplain
        have hquote : b ≠ quoteMark := by
          intro he
          simp [letter, he] at hletter
        have hslash : b ≠ backslash := by
          intro he
          rw [he] at hletter
          revert hletter
          decide
        have hlow : ¬b.val < 0x20 := fun hlt => hplain (.inl hlt)
        simp only [cons_append, nil_append, readChar, if_neg hslash, hquote, hlow, or_self,
          if_false, if_pos hb]
  · have hescape : escape (a :: v) =
        if a :: v = encode 0x2028 then backslash :: Byte.of 'u' :: hex4 0x2028
        else if a :: v = encode 0x2029 then backslash :: Byte.of 'u' :: hex4 0x2029
        else a :: v := by
      obtain ⟨c, w, rfl⟩ := exists_cons_of_ne_nil hv
      rfl
    rw [hescape]
    split
    · rename_i he
      rw [he]
      exact hcode 0x2028 (by omega)
    · split
      · rename_i he
        rw [he]
        exact hcode 0x2029 (by omega)
      · have hslash : a ≠ backslash := by
          intro he
          rw [he] at ha
          revert ha
          decide
        have hquote : a ≠ quoteMark := by
          intro he
          rw [he] at ha
          revert ha
          decide
        have hlow : ¬a.val < 0x20 := by omega
        have hhigh : ¬a.val < 0x80 := by omega
        have hnext := h t
        rw [cons_append] at hnext
        simp only [cons_append, readChar, if_neg hslash, hquote, hlow, or_self, if_false,
          if_neg hhigh, hnext, Option.getD_some]

theorem escape_ne_nil (h : Utf8.IsChar u) : escape u ≠ [] := by
  intro he
  have hread := readChar_escape h []
  simp [he, readChar] at hread

variable {us : List Bytes}

section

variable (h : ∀ u ∈ us, Utf8.IsChar u)

include h

theorem readChars_escape
    (hn : us.length ≤ n) : readChars n (us.flatMap escape) = some us.flatten := by
  induction us generalizing n with
  | nil => cases n <;> rfl
  | cons u us ih =>
    have hu := h u mem_cons_self
    have hread := readChar_escape hu (us.flatMap escape)
    obtain ⟨m, rfl⟩ : ∃ m, n = m + 1 := by
      simp only [length_cons] at hn
      exact ⟨n - 1, by omega⟩
    have hrest := ih (fun v hv => h v (mem_cons_of_mem _ hv))
      (by simpa using hn)
    obtain ⟨b, s, hs⟩ := exists_cons_of_ne_nil
      (append_ne_nil_of_left_ne_nil (escape_ne_nil hu) (us.flatMap escape))
    rw [flatMap_cons, hs, readChars]
    rw [hs] at hread
    simp [hread, hrest]

theorem length_le_escape : us.length ≤ (us.flatMap escape).length := by
  induction us with
  | nil => simp
  | cons u us ih =>
    have hu := length_pos_iff.mpr (escape_ne_nil (h u mem_cons_self))
    have hrest := ih fun v hv => h v (mem_cons_of_mem _ hv)
    simp only [length_cons, flatMap_cons, length_append]
    omega

theorem unquote_quote : unquote (quote us) = some us.flatten := by
  simp only [quote, unquote, getLast?_concat, and_self, if_true, dropLast_concat]
  exact readChars_escape h (length_le_escape h)

end

end Json
