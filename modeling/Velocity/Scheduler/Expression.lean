import Velocity.Lib.Decimal
import Velocity.Lib.Space

/-! Cron expressions: the fields of the text, and the minutes of the wall clock they match. -/

namespace Scheduling

open Bytes (ascii)

/-- What a clock on the wall shows. -/
structure WallTime where
  year : Int
  month : Int
  day : Int
  weekday : Int
  hour : Int
  minute : Int
  deriving DecidableEq, Repr

/-- Year, month and day of a day counted from 1970-01-01. -/
def civilOfDays (days : Int) : Int × Int × Int :=
  let z := days + 719468
  let era := z / 146097
  let dayOfEra := z % 146097
  let yearOfEra := (dayOfEra - dayOfEra / 1460 + dayOfEra / 36524 - dayOfEra / 146096) / 365
  let dayOfYear := dayOfEra - (365 * yearOfEra + yearOfEra / 4 - yearOfEra / 100)
  -- Months from March on, so that a leap day ends the year.
  let month := (5 * dayOfYear + 2) / 153
  let day := dayOfYear - (153 * month + 2) / 5 + 1
  let year := yearOfEra + era * 400
  if month < 10 then (year, month + 3, day) else (year + 1, month - 9, day)

/-- In a zone given by its offsets from UTC in seconds. -/
def wallTime (zone : Int → Int) (t : Int) : WallTime :=
  let loc := t + zone t
  let days := loc / 86400
  let seconds := loc % 86400
  let (year, month, day) := civilOfDays days
  ⟨year, month, day, (days + 4) % 7, seconds / 3600, seconds % 3600 / 60⟩

structure Expression where
  minute : List Int
  hour : List Int
  dayOfMonth : List Int
  month : List Int
  dayOfWeek : List Int
  raw : Bytes
  deriving DecidableEq, Repr

inductive FieldError where
  /-- An error of `strconv.Atoi`. -/
  | notANumber (text : Bytes)
  | invalidStep
  /-- Reported as "invalid range: " and the field. -/
  | invalidRange (field : Bytes)
  /-- Reported as "range out of bounds: " and the field. -/
  | rangeOutOfBounds (field : Bytes)
  /-- Reported as "value out of bounds: " and the value. -/
  | valueOutOfBounds (value : Int)
  deriving DecidableEq, Repr

inductive FieldName where
  | minute
  | hour
  | dayOfMonth
  | month
  | dayOfWeek
  deriving DecidableEq, Repr

inductive ParseError where
  /-- Reported as "invalid cron expression: expected 5 fields, got" and the number. -/
  | fieldCount (n : Nat)
  /-- Reported as "invalid", the name of the field and the field's own error. -/
  | field (name : FieldName) (err : FieldError)
  deriving DecidableEq, Repr

def wrap64 (x : Int) : Int := (x + 2 ^ 63) % 2 ^ 64 - 2 ^ 63

/-- The loop of `makeRange`, with a bound on its rounds. -/
def rangeLoop (max step : Int) : Nat → Int → List Int
  | 0, _ => []
  | n + 1, i => if i ≤ max then i :: rangeLoop max step n (wrap64 (i + step)) else []

/-- A step close to the largest integer wraps, for at most three further rounds. -/
def makeRange (min max step : Int) : List Int := rangeLoop max step ((max - min).toNat + 4) min

def atoi (s : Bytes) : Except FieldError Int :=
  match Decimal.parseInt s with
  | some x => .ok x
  | none => .error (.notANumber s)

def boundedValue (min max : Int) (s : Bytes) : Except FieldError Int := do
  let value ← atoi s
  if value < min ∨ max < value then .error (.valueOutOfBounds value) else .ok value

def parseField (field : Bytes) (min max : Int) : Except FieldError (List Int) :=
  if field = ascii "*" then .ok (makeRange min max 1)
  else if (ascii "*/").isPrefixOf field then do
    let step ← atoi (field.drop 2)
    if step ≤ 0 then .error .invalidStep else .ok (makeRange min max step)
  else if Byte.of '-' ∈ field then
    match Bytes.split (Byte.of '-') field with
    | [first, last] => do
      let start ← atoi first
      let stop ← atoi last
      if start < min ∨ max < stop ∨ stop < start then .error (.rangeOutOfBounds field)
      else .ok (makeRange start stop 1)
    | _ => .error (.invalidRange field)
  else if Byte.of ',' ∈ field then
    (Bytes.split (Byte.of ',') field).mapM (boundedValue min max)
  else do
    let value ← boundedValue min max field
    .ok [value]

def parseNamed (name : FieldName) (field : Bytes) (min max : Int) : Except ParseError (List Int) :=
  match parseField field min max with
  | .ok values => .ok values
  | .error err => .error (.field name err)

def expandMacro (expr : Bytes) : Bytes :=
  if expr = ascii "@yearly" ∨ expr = ascii "@annually" then ascii "0 0 1 1 *"
  else if expr = ascii "@monthly" then ascii "0 0 1 * *"
  else if expr = ascii "@weekly" then ascii "0 0 * * 0"
  else if expr = ascii "@daily" ∨ expr = ascii "@midnight" then ascii "0 0 * * *"
  else if expr = ascii "@hourly" then ascii "0 * * * *"
  else expr

def parseExpression (expr : Bytes) : Except ParseError Expression :=
  let expr := expandMacro expr
  match Space.words expr with
  | [minute, hour, dayOfMonth, month, dayOfWeek] => do
    let minutes ← parseNamed .minute minute 0 59
    let hours ← parseNamed .hour hour 0 23
    let daysOfMonth ← parseNamed .dayOfMonth dayOfMonth 1 31
    let months ← parseNamed .month month 1 12
    let daysOfWeek ← parseNamed .dayOfWeek dayOfWeek 0 6
    .ok ⟨minutes, hours, daysOfMonth, months, daysOfWeek, expr⟩
  | fields => .error (.fieldCount fields.length)

def Expression.isDue (e : Expression) (t : WallTime) : Bool :=
  if t.minute ∉ e.minute then false
  else if t.hour ∉ e.hour then false
  else if t.month ∉ e.month then false
  else
    let dayOfMonthMatch : Bool := e.dayOfMonth = [] ∨ t.day ∈ e.dayOfMonth
    let dayOfWeekMatch : Bool := e.dayOfWeek = [] ∨ t.weekday ∈ e.dayOfWeek
    -- Where both day fields are restricted, one of them is enough.
    match Space.words e.raw with
    | _ :: _ :: third :: _ :: fifth :: _ =>
      if third ≠ ascii "*" ∧ fifth ≠ ascii "*" then dayOfMonthMatch || dayOfWeekMatch
      else dayOfMonthMatch && dayOfWeekMatch
    | _ => dayOfMonthMatch && dayOfWeekMatch

structure Schedule where
  expression : Bytes
  minute : Bytes
  hour : Bytes
  dayOfMonth : Bytes
  month : Bytes
  dayOfWeek : Bytes
  invalid : Bool

def Schedule.buildExpression (s : Schedule) : Bytes :=
  Bytes.join (ascii " ") [s.minute, s.hour, s.dayOfMonth, s.month, s.dayOfWeek]

def Schedule.isDue (s : Schedule) (t : WallTime) : Bool :=
  if s.invalid then false
  else
    match parseExpression (if s.expression = [] then s.buildExpression else s.expression) with
    | .error _ => false
    | .ok e => e.isDue t

end Scheduling
