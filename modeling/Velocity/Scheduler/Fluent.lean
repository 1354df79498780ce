import Velocity.Scheduler.Expression

/-! The fluent setters of a schedule: each changes components and writes the expression anew. -/

namespace Scheduling

def newSchedule : Schedule := ⟨[], .ascii "*", .ascii "*", .ascii "*", .ascii "*", .ascii "*", false⟩

def Schedule.rebuilt (s : Schedule) : Schedule := { s with expression := s.buildExpression }

/-- The components of a text, where it has five fields. -/
def Schedule.readFields (s : Schedule) (expression : Bytes) : Schedule :=
  match Space.words expression with
  | minute :: hour :: dayOfMonth :: month :: dayOfWeek :: _ =>
    { s with minute, hour, dayOfMonth, month, dayOfWeek }
  | _ => s

def Schedule.cron (s : Schedule) (expression : Bytes) : Schedule :=
  let s := { s with expression }.readFields expression
  match parseExpression expression with
  | .error _ => { s with invalid := true }
  | .ok _ => s

/-- `Days` without a day changes nothing. -/
inductive Setter
  | hourlyAt (minute : Int)
  | dailyAt (time : Bytes)
  | at (time : Bytes)
  | days (day : Int) (more : List Int)
  | weekdays
  | weekends
  | sundays
  | mondays
  | tuesdays
  | wednesdays
  | thursdays
  | fridays
  | saturdays

def Schedule.setTime (s : Schedule) (time : Bytes) : Schedule :=
  match Bytes.split (Byte.of ':') time with
  | [hour, minute] => { s with hour, minute }
  | _ => s

def Setter.name (s : Schedule) : Setter → Schedule
  | .hourlyAt minute => { s with minute := Decimal.formatInt minute }
  | .dailyAt time | .at time => s.setTime time
  | .days day more =>
    { s with dayOfMonth := Bytes.join (.ascii ",") ((day :: more).map Decimal.formatInt) }
  | .weekdays => { s with dayOfWeek := .ascii "1-5" }
  | .weekends => { s with dayOfWeek := .ascii "0,6" }
  | .sundays => { s with dayOfWeek := .ascii "0" }
  | .mondays => { s with dayOfWeek := .ascii "1" }
  | .tuesdays => { s with dayOfWeek := .ascii "2" }
  | .wednesdays => { s with dayOfWeek := .ascii "3" }
  | .thursdays => { s with dayOfWeek := .ascii "4" }
  | .fridays => { s with dayOfWeek := .ascii "5" }
  | .saturdays => { s with dayOfWeek := .ascii "6" }

/-- A day that no month has is recorded as an error. -/
def Setter.rejected : Setter → Bool
  | .days day more => (day :: more).any fun d => d < 1 ∨ 31 < d
  | _ => false

def Setter.call (s : Schedule) (r : Setter) : Schedule :=
  if r.rejected then { s with invalid := true } else (r.name s).rebuilt

/-- Which of the five fields of a cron text a call names, and what it says there. A day that no month
has cannot be said. -/
def Setter.named : Setter → Option (List (Nat × Bytes))
  | .hourlyAt minute => some [(0, Decimal.formatInt minute)]
  | .dailyAt time | .at time =>
    match Bytes.split (Byte.of ':') time with
    | [hour, minute] => some [(0, minute), (1, hour)]
    | _ => some []
  | .days day more =>
    if ∀ d ∈ day :: more, 1 ≤ d ∧ d ≤ 31 then
      some [(2, Bytes.join (.ascii ",") ((day :: more).map Decimal.formatInt))]
    else none
  | .weekdays => some [(4, .ascii "1-5")]
  | .weekends => some [(4, .ascii "0,6")]
  | .sundays => some [(4, .ascii "0")]
  | .mondays => some [(4, .ascii "1")]
  | .tuesdays => some [(4, .ascii "2")]
  | .wednesdays => some [(4, .ascii "3")]
  | .thursdays => some [(4, .ascii "4")]
  | .fridays => some [(4, .ascii "5")]
  | .saturdays => some [(4, .ascii "6")]

def replace (words : List Bytes) (fields : List (Nat × Bytes)) : List Bytes :=
  fields.foldl (fun words f => words.set f.1 f.2) words

/-- A cron text with the named fields replaced. -/
def Setter.over (r : Setter) (e : Bytes) : Option Expression :=
  r.named.bind fun fields =>
    (parseExpression (Bytes.join (.ascii " ") (replace (Space.words e) fields))).toOption

def Schedule.fields (s : Schedule) : List Bytes :=
  [s.minute, s.hour, s.dayOfMonth, s.month, s.dayOfWeek]

variable {s : Schedule} {e : Bytes} {r : Setter}

theorem Setter.rejected_of_named (h : r.named = none) : r.rejected = true := by
  cases r with
  | days day more =>
    by_contra hkept
    have hdays : ∀ d ∈ day :: more, 1 ≤ d ∧ d ≤ 31 := by simpa [rejected] using hkept
    rw [named, if_pos hdays] at h
    cases h
  | dailyAt time | «at» time =>
    rw [named] at h
    split at h <;> cases h
  | _ => cases h

theorem Setter.name_of_named {fields : List (Nat × Bytes)} (h : r.named = some fields) :
    r.rejected = false ∧ (r.name s).fields = replace s.fields fields ∧
      (r.name s).invalid = s.invalid := by
  cases r with
  | days day more =>
    rw [named] at h
    split at h
    case isTrue hdays =>
      cases h
      exact ⟨by simpa [rejected] using hdays, rfl, rfl⟩
    case isFalse => cases h
  | dailyAt time | «at» time =>
    rw [named] at h
    rw [name, Schedule.setTime]
    split at h
    case h_1 =>
      cases h
      exact ⟨rfl, rfl, rfl⟩
    case h_2 =>
      cases h
      exact ⟨rfl, rfl, rfl⟩
  | _ =>
    cases h
    exact ⟨rfl, rfl, rfl⟩

theorem Schedule.isDue_rebuilt (t : WallTime) : s.rebuilt.isDue t = (!s.invalid &&
    (parseExpression (Bytes.join (.ascii " ") s.fields)).toOption.any (·.isDue t)) := by
  have hread : (if s.rebuilt.expression = [] then s.rebuilt.buildExpression
      else s.rebuilt.expression) = Bytes.join (.ascii " ") s.fields := ite_self _
  have hkept : s.rebuilt.invalid = s.invalid := rfl
  rw [isDue, hread, hkept]
  cases s.invalid with
  | true => rfl
  | false => cases parseExpression (Bytes.join (.ascii " ") s.fields) <;> rfl

theorem words_of_parsed {x : Expression} (h : parseExpression e = .ok x) :
    ∃ a b c d f, Space.words (expandMacro e) = [a, b, c, d, f] := by
  simp only [parseExpression] at h
  split at h
  · exact ⟨_, _, _, _, _, ‹_›⟩
  · cases h

theorem cron_then_setter_isDue {x : Expression} (h : parseExpression e = .ok x)
    (hplain : expandMacro e = e) (t : WallTime) :
    (r.call (s.cron e)).isDue t = (!s.invalid && (r.over e).any (·.isDue t)) := by
  obtain ⟨a, b, c, d, f, hwords⟩ := words_of_parsed h
  rw [hplain] at hwords
  have hcron : s.cron e = ⟨e, a, b, c, d, f, s.invalid⟩ := by
    simp [Schedule.cron, Schedule.readFields, hwords, h]
  cases hnamed : r.named with
  | none =>
    rw [Setter.call, Setter.rejected_of_named hnamed, Setter.over, hnamed]
    simp [Schedule.isDue]
  | some fields =>
    obtain ⟨hkept, hfields, hinvalid⟩ := Setter.name_of_named (s := s.cron e) hnamed
    rw [Setter.call, hkept, if_neg Bool.false_ne_true, Schedule.isDue_rebuilt, hfields, hinvalid,
      Setter.over, hnamed, hwords, hcron]
    rfl

/-- `Cron("0 0 1 * *").At("3:00")`, of a schedule made by `NewSchedule`. -/
theorem cron_then_at_isDue : (Setter.call (newSchedule.cron (.ascii "0 0 1 * *"))
    (.at (.ascii "3:00"))).isDue ⟨2026, 5, 1, 5, 3, 0⟩ = true := by
  rw [cron_then_setter_isDue (e := .ascii "0 0 1 * *")
    (x := ⟨[0], [0], [1], makeRange 1 12 1, makeRange 0 6 1, .ascii "0 0 1 * *"⟩) (by decide)
    (by decide)]
  decide

/-- After `Days(0)` no minute is due, and `Cron("@monthly").At("3:00")` loses the day of the macro. -/
theorem cron_then_at_drops :
    (Setter.call (.cron (Setter.call newSchedule (.days 0 [])) (.ascii "0 0 1 * *"))
      (.at (.ascii "3:00"))).isDue ⟨2026, 5, 1, 5, 3, 0⟩ = false ∧
    (Setter.over (.at (.ascii "3:00")) (.ascii "0 0 1 * *")).any (·.isDue ⟨2026, 5, 1, 5, 3, 0⟩) ∧
    (Setter.call (newSchedule.cron (.ascii "@monthly")) (.at (.ascii "3:00"))).isDue
      ⟨2026, 5, 2, 6, 3, 0⟩ = true ∧
    (Setter.over (.at (.ascii "3:00")) (expandMacro (.ascii "@monthly"))).any
      (·.isDue ⟨2026, 5, 2, 6, 3, 0⟩) = false := by
  decide

end Scheduling
