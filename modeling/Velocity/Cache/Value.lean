import Velocity.Lib.Decimal
import Velocity.Lib.Float64
import Velocity.Lib.Json

/-! Cache values and the bytes that a serializing store keeps of them. -/

namespace Cache

open Decimal Json

inductive Scalar
  | str (s : Bytes)
  | int (n : Int64)
  deriving DecidableEq

inductive Value
  | scalar (v : Scalar)
  | set (members : Finset Bytes)
  deriving DecidableEq

/-- What a read returns. A decoded number is a double. -/
inductive Reading
  | str (s : Bytes)
  | num (n : Int)
  | set (members : Finset Bytes)
  deriving DecidableEq

def Value.reading : Value → Reading
  | .scalar (.str s) => .str s
  | .scalar (.int n) => .num n.toInt
  | .set members => .set members

/-- Strings that are not UTF-8 are kept as they are behind a zero byte. -/
def marshalString (s : Bytes) : Bytes :=
  match Utf8.chars s with
  | some us => Json.quote us
  | none => 0 :: s

/-- The texts that the stores write: framed and JSON strings, and integers, as doubles. -/
def unmarshalValue : Bytes → Option Reading
  | [] => none
  | b :: s =>
    if b = 0 then some (.str s)
    else if b = Json.quoteMark then (Json.unquote (b :: s)).map .str
    else (Decimal.parseInt (b :: s)).map fun n => .num (Float64.ofInt n)

def marshalValue : Scalar → Bytes
  | .str s => marshalString s
  | .int n => Decimal.formatInt n.toInt

/-- Of an integral double; out of range it gives what the hardware gives. -/
def truncate (v : Int) : Int64 :=
  if -2 ^ 63 ≤ v ∧ v < 2 ^ 63 then Int64.ofInt v else Int64.minValue

theorem truncate_toInt (n : Int64) : truncate n.toInt = n := by
  have hrange : -2 ^ 63 ≤ n.toInt ∧ n.toInt < 2 ^ 63 := ⟨n.le_toInt, n.toInt_lt⟩
  rw [truncate, if_pos hrange, Int64.ofInt_toInt]

theorem unmarshalValue_marshalString (s : Bytes) :
    unmarshalValue (marshalString s) = some (.str s) := by
  unfold marshalString
  cases h : Utf8.chars s with
  | none => rfl
  | some us =>
    obtain ⟨hs, hchars⟩ := Utf8.split_cases h
    have hread := unquote_quote hchars
    have hne : quoteMark ≠ 0 := by decide
    show unmarshalValue (quote us) = some (.str s)
    rw [quote] at hread ⊢
    rw [unmarshalValue, if_neg hne, if_pos rfl, hread, Option.map_some, hs]

theorem formatInt_head {n : Int} {b : Byte} {s : Bytes} (h : Decimal.formatInt n = b :: s) :
    b = Byte.of '-' ∨ Decimal.isDigit b = true := by
  unfold formatInt at h
  split at h
  · exact .inl (List.cons.inj h).1.symm
  · right
    exact formatNat_digits n.natAbs b (by rw [h]; exact List.mem_cons_self)

theorem unmarshalValue_formatInt (n : Int64) :
    unmarshalValue (Decimal.formatInt n.toInt) = some (.num (Float64.ofInt n.toInt)) := by
  obtain ⟨b, s, hb⟩ := List.exists_cons_of_ne_nil (formatInt_ne_nil n.toInt)
  have hhead : b ≠ 0 ∧ b ≠ quoteMark := by
    rcases formatInt_head hb with rfl | hdigit
    · exact ⟨by decide, by decide⟩
    · constructor
      · intro he
        rw [he] at hdigit
        exact absurd hdigit (by decide)
      · intro he
        rw [he] at hdigit
        exact absurd hdigit (by decide)
  have hparse := parseInt_formatInt n.le_toInt n.toInt_lt
  rw [hb] at hparse ⊢
  simp only [unmarshalValue, if_neg hhead.1, if_neg hhead.2, hparse, Option.map_some]

def Scalar.decoded : Scalar → Reading
  | .str s => .str s
  | .int n => .num (Float64.ofInt n.toInt)

theorem unmarshalValue_marshalValue (v : Scalar) :
    unmarshalValue (marshalValue v) = some v.decoded := by
  cases v with
  | str s => exact unmarshalValue_marshalString s
  | int n => exact unmarshalValue_formatInt n

end Cache
